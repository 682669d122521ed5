import Php53.Dba.FlatFile

/-!
# Records — what a flat file holds

A file is a sequence of records, live ones and removed ones.  The scans of the source run over the
records one by one; this is where they stop.
-/

namespace Php53.Dba

open Zend List

theorem takeLine_append {line rest : List UInt8} {n : Nat} (hline : (10 : UInt8) ∉ line)
    (hlen : line.length < n) : takeLine n (line ++ 10 :: rest) = line ++ [10] := by
  induction line generalizing n with
  | nil =>
    obtain ⟨n, rfl⟩ : ∃ m, n = m + 1 := Nat.exists_eq_add_one.mpr hlen
    rfl
  | cons c line ih =>
    obtain ⟨n, rfl⟩ : ∃ m, n = m + 1 := Nat.exists_eq_add_one.mpr (by omega)
    have hc : c ≠ 10 := by
      intro h
      exact hline (h ▸ mem_cons_self)
    rw [length_cons] at hlen
    rw [cons_append, takeLine, if_neg hc,
      ih (fun h => hline (mem_cons_of_mem _ h)) (by omega)]
    rfl

def lengthDigits (size : Nat) : List UInt8 := (reversedDigits 20 size).reverse

theorem lengthLine_eq (size : Nat) : lengthLine size = lengthDigits size ++ [10] := rfl

variable {size : Nat}

theorem isDigit_of_mem_lengthDigits {c : UInt8} (h : c ∈ lengthDigits size) :
    isDigit c = true :=
  isDigit_of_mem_reversedDigits (mem_reverse.mp h)

theorem lf_not_mem_lengthDigits (size : Nat) : (10 : UInt8) ∉ lengthDigits size := by
  intro h
  exact absurd (isDigit_of_mem_lengthDigits h) (by decide)

theorem length_lengthDigits_le (h : size < 2 ^ 31) :
    (lengthDigits size).length ≤ 10 := by
  rw [lengthDigits, length_reverse]
  apply length_reversedDigits_le
  omega

theorem lengthLine_ne_nil (size : Nat) : lengthLine size ≠ [] := by
  rw [lengthLine_eq]
  exact append_ne_nil_of_right_ne_nil _ (cons_ne_nil _ _)

theorem sizeOfLine_lengthLine (h : size < 2 ^ 31) :
    sizeOfLine (lengthLine size) = size := by
  have hneg : (lengthLine size).head? ≠ some (ch '-') := by
    rw [lengthLine_eq]
    cases hd : lengthDigits size with
    | nil => exact nofun
    | cons c cs =>
      intro heq
      have hc : isDigit c = true := isDigit_of_mem_lengthDigits (hd ▸ mem_cons_self)
      rw [Option.some.inj heq] at hc
      exact nomatch hc
  have hdigits : (lengthLine size).takeWhile isDigit = lengthDigits size := by
    rw [lengthLine_eq, takeWhile_append_of_pos (fun _ => isDigit_of_mem_lengthDigits)]
    exact List.append_nil _
  have hvalue : digitsNat (lengthDigits size) = size := by
    apply digitsNat_reversedDigits
    omega
  have hmin : min (2 ^ 63 - 1) (size : Int) = size := by omega
  have hatoi : atoi (lengthLine size) = size := by
    rw [atoi]
    simp only [hneg, if_false, hdigits, hvalue, hmin]
    rw [BitVec.toInt_ofInt, Int.bmod_eq_of_le (by omega) (by omega)]
  rw [sizeOfLine, hatoi, BitVec.ofInt_natCast, BitVec.toNat_ofNat]
  omega

def encodeField (x : List UInt8) : List UInt8 := lengthLine x.length ++ x

theorem gets_eq (pre post : List UInt8) {x : List UInt8} {maxlen : Nat} (hx : x.length < 2 ^ 31)
    (hmax : 12 ≤ maxlen) : Stream.gets ⟨pre ++ (encodeField x ++ post), pre.length⟩ maxlen =
      some (lengthLine x.length, ⟨pre ++ (encodeField x ++ post),
        pre.length + (lengthLine x.length).length⟩) := by
  have hline : takeLine (maxlen - 1) (encodeField x ++ post) = lengthLine x.length := by
    rw [encodeField, append_assoc, lengthLine_eq, append_assoc]
    apply takeLine_append (lf_not_mem_lengthDigits _)
    have := length_lengthDigits_le hx
    omega
  have hrest : Stream.rest ⟨pre ++ (encodeField x ++ post), pre.length⟩ = encodeField x ++ post :=
    drop_left
  rw [Stream.gets, hrest]
  dsimp only
  rw [hline, if_neg (lengthLine_ne_nil _)]

theorem read_eq (pre post : List UInt8) {x : List UInt8} (hx : x.length < 2 ^ 31) :
    Stream.read ⟨pre ++ (encodeField x ++ post), pre.length + (lengthLine x.length).length⟩
        (sizeOfLine (lengthLine x.length)) =
      (x, ⟨pre ++ (encodeField x ++ post), pre.length + (encodeField x).length⟩) := by
  have hdata : ((pre ++ (encodeField x ++ post)).drop
      (pre.length + (lengthLine x.length).length)).take x.length = x := by
    rw [drop_append, drop_eq_nil_of_le (by omega), nil_append,
      Nat.add_sub_cancel_left, encodeField, append_assoc, drop_left, take_left]
  dsimp only [Stream.read, Stream.rest]
  rw [sizeOfLine_lengthLine hx, hdata, encodeField, length_append, Nat.add_assoc]

theorem readField_eq {pre x post : List UInt8} (hx : x.length < 2 ^ 31) :
    readField ⟨pre ++ (encodeField x ++ post), pre.length⟩ =
      some ⟨lengthLine x.length, pre.length + (lengthLine x.length).length, x,
        ⟨pre ++ (encodeField x ++ post), pre.length + (encodeField x).length⟩⟩ := by
  rw [readField, gets_eq _ _ hx (by omega), Option.map_some]
  dsimp only
  rw [read_eq _ _ hx]

theorem gets_end (maxlen : Nat) (bytes : List UInt8) :
    Stream.gets ⟨bytes, bytes.length⟩ maxlen = none := by
  have hrest : Stream.rest ⟨bytes, bytes.length⟩ = [] := drop_eq_nil_of_le (Nat.le_refl _)
  have hline : takeLine (maxlen - 1) [] = [] := by
    cases maxlen - 1 <;> rfl
  rw [Stream.gets, hrest]
  dsimp only
  rw [if_pos hline]

theorem readField_end (bytes : List UInt8) : readField ⟨bytes, bytes.length⟩ = none := by
  rw [readField, gets_end]
  rfl

structure Record where
  key : List UInt8
  value : List UInt8
  removed : Bool
  deriving DecidableEq, Repr

namespace Record

def stored (r : Record) : List UInt8 := if r.removed then 0 :: r.key.tail else r.key

def encode (r : Record) : List UInt8 := encodeField r.stored ++ encodeField r.value

/-- Lengths are `int`s, and the empty key cannot be marked. -/
structure Fits (r : Record) : Prop where
  key : r.key.length < 2 ^ 31
  value : r.value.length < 2 ^ 31
  marked : r.removed = true → r.key ≠ []

theorem Fits.stored {r : Record} (h : r.Fits) : r.stored.length = r.key.length := by
  rw [Record.stored]
  split
  · have := length_pos_iff.mpr (h.marked ‹_›)
    rw [length_cons, length_tail]
    omega
  · rfl

theorem encode_ne_nil (r : Record) : r.encode ≠ [] := by
  rw [encode, encodeField, append_assoc]
  exact append_ne_nil_of_left_ne_nil (lengthLine_ne_nil _) _

end Record

abbrev Book := List Record

def Book.encode (book : Book) : List UInt8 := book.flatMap Record.encode

theorem Book.encode_cons (r : Record) (book : Book) :
    Book.encode (r :: book) = r.encode ++ Book.encode book := flatMap_cons

theorem Book.encode_append (a b : Book) : Book.encode (a ++ b) = Book.encode a ++ Book.encode b :=
  flatMap_append

theorem Book.length_le_encode (book : Book) : book.length ≤ (Book.encode book).length := by
  induction book with
  | nil => exact Nat.zero_le _
  | cons r book ih =>
    have := length_pos_iff.mpr r.encode_ne_nil
    rw [Book.encode_cons, length_append, length_cons]
    omega

/-- The field of the key of `r` behind `pre`. -/
def keyField (pre : List UInt8) (r : Record) (post : List UInt8) : Field :=
  ⟨lengthLine r.stored.length, pre.length + (lengthLine r.stored.length).length, r.stored,
    ⟨pre ++ (r.encode ++ post), pre.length + (encodeField r.stored).length⟩⟩

variable {r : Record}

theorem readField_key (hr : r.Fits) (pre post : List UInt8) :
    readField ⟨pre ++ (r.encode ++ post), pre.length⟩ = some (keyField pre r post) := by
  have hstored : r.stored.length < 2 ^ 31 := by
    rw [hr.stored]
    exact hr.key
  rw [keyField, Record.encode, append_assoc]
  exact readField_eq hstored

theorem keyField_after (pre : List UInt8) (r : Record) (post : List UInt8) :
    (keyField pre r post).after =
      ⟨pre ++ encodeField r.stored ++ (encodeField r.value ++ post),
        (pre ++ encodeField r.stored).length⟩ := by
  simp only [keyField, Record.encode, length_append, append_assoc]

theorem readField_value (hr : r.Fits) (pre post : List UInt8) :
    ∃ x, readField (keyField pre r post).after = some x ∧ x.data = r.value ∧
      x.after = ⟨pre ++ (r.encode ++ post), (pre ++ r.encode).length⟩ := by
  rw [keyField_after, readField_eq hr.value]
  refine ⟨_, rfl, rfl, ?_⟩
  simp only [Record.encode, length_append, Nat.add_assoc, append_assoc]

theorem eof_of_ne_nil {seen : Stream → Bool} {pre rest : List UInt8} (h : rest ≠ []) :
    Stream.eof seen ⟨pre ++ rest, pre.length⟩ = false := by
  have hrest : Stream.rest ⟨pre ++ rest, pre.length⟩ = rest := drop_left
  rw [Stream.eof, hrest]
  cases rest with
  | nil => exact absurd rfl h
  | cons c cs => rfl

section

variable {seen : Stream → Bool} {found : Field → Bool}

theorem scanKeys_hit (hr : r.Fits) {pre post : List UInt8}
    (hfound : found (keyField pre r post) = true) (fuel : Nat) :
    scanKeys seen found (fuel + 1) ⟨pre ++ (r.encode ++ post), pre.length⟩ =
      some (.ok (keyField pre r post)) := by
  have hne : r.encode ++ post ≠ [] := append_ne_nil_of_left_ne_nil r.encode_ne_nil _
  rw [scanKeys, eof_of_ne_nil hne, if_neg Bool.false_ne_true, readField_key hr]
  dsimp only
  rw [if_pos hfound]

theorem scanKeys_miss (hr : r.Fits) {pre post : List UInt8}
    (hfound : found (keyField pre r post) = false) (fuel : Nat) :
    scanKeys seen found (fuel + 1) ⟨pre ++ (r.encode ++ post), pre.length⟩ =
      scanKeys seen found fuel ⟨pre ++ r.encode ++ post, (pre ++ r.encode).length⟩ := by
  have hne : r.encode ++ post ≠ [] := append_ne_nil_of_left_ne_nil r.encode_ne_nil _
  obtain ⟨x, hx, -, hafter⟩ := readField_value hr pre post
  rw [scanKeys, eof_of_ne_nil hne, if_neg Bool.false_ne_true, readField_key hr]
  dsimp only
  rw [if_neg (by rw [hfound]; exact Bool.false_ne_true), hx]
  dsimp only
  rw [hafter, append_assoc]

theorem scanKeys_end (fuel : Nat) (bytes : List UInt8) :
    scanKeys seen found (fuel + 1) ⟨bytes, bytes.length⟩ =
      some (.error ⟨bytes, bytes.length⟩) := by
  rw [scanKeys, readField_end]
  split <;> rfl

variable (seen) in
theorem scanKeys_skip {a : Book} (hfits : ∀ r ∈ a, r.Fits) (pre post : List UInt8)
    (hfound : ∀ r ∈ a, ∀ pre post, found (keyField pre r post) = false) (fuel : Nat) :
    scanKeys seen found (fuel + a.length) ⟨pre ++ (Book.encode a ++ post), pre.length⟩ =
      scanKeys seen found fuel ⟨pre ++ Book.encode a ++ post, (pre ++ Book.encode a).length⟩ := by
  induction a generalizing pre with
  | nil => simp [Book.encode]
  | cons r a ih =>
    have hnext := ih (fun x hx => hfits x (mem_cons_of_mem _ hx)) (pre ++ r.encode)
      fun x hx => hfound x (mem_cons_of_mem _ hx)
    rw [length_cons, ← Nat.add_assoc, Book.encode_cons, append_assoc r.encode,
      scanKeys_miss (hfits r mem_cons_self) (hfound r mem_cons_self _ _), hnext]
    simp only [append_assoc]

end

end Php53.Dba
