import Php53.Dba.FlatFileMap

/-!
# FlatFileKeys — iterating over a flat file

The first key is found from the start of a record, every other one from the start of a value.  Keys
that neither are empty nor begin with a NUL tell a live record from a removed one.
-/

namespace Php53.Dba

open List

variable {book : Book} {key : List UInt8} {r : Record}

def PlainKey (key : List UInt8) : Prop := key ≠ [] ∧ key.head? ≠ some 0

def Book.liveKeys (book : Book) : List (List UInt8) :=
  (book.filter fun r => !r.removed).map Record.key

def Book.Plain (book : Book) : Prop := ∀ r ∈ book, PlainKey r.key

theorem Book.mem_liveKeys :
    key ∈ book.liveKeys ↔ (book.lookup key).isSome = true := by
  rw [Option.isSome_iff_ne_none, ne_eq, lookup_eq_none, liveKeys, mem_map]
  constructor
  · rintro ⟨r, hr, hkey⟩ hall
    rw [mem_filter] at hr
    exact hall r hr.1 (by simpa using hr.2) hkey
  · intro h
    by_contra hnot
    apply h
    intro r hr hlive hkey
    exact hnot ⟨r, mem_filter.mpr ⟨hr, by simp [hlive]⟩, hkey⟩

theorem Book.liveKeys_cons_removed (h : r.removed = true) (book : Book) :
    Book.liveKeys (r :: book) = Book.liveKeys book := by
  rw [liveKeys, filter_cons_of_neg (by simp [h]), liveKeys]

theorem Book.liveKeys_cons_live (h : r.removed = false) (book : Book) :
    Book.liveKeys (r :: book) = r.key :: Book.liveKeys book := by
  rw [liveKeys, filter_cons_of_pos (by simp [h]), map_cons, liveKeys]

def liveField (x : Field) : Bool := x.firstByte ≠ 0

theorem liveField_keyField (hplain : PlainKey r.key) (pre post : List UInt8) :
    liveField (keyField pre r post) = !r.removed := by
  rw [liveField, Field.firstByte, keyField, Record.stored]
  cases hr : r.removed with
  | true => rfl
  | false =>
    obtain ⟨hne, hhead⟩ := hplain
    cases hk : r.key with
    | nil => exact absurd hk hne
    | cons c t =>
      rw [hk] at hhead
      have hc : c ≠ 0 := fun h => hhead (by rw [h]; rfl)
      simp [hc]

theorem Book.split_live {ks : List (List UInt8)} (h : book.liveKeys = key :: ks) :
    ∃ (a : Book) (r : Record) (b : Book), book = a ++ r :: b ∧ (∀ x ∈ a, x.removed = true) ∧ r.removed = false ∧
      r.key = key ∧ Book.liveKeys b = ks := by
  induction book with
  | nil => exact nomatch h
  | cons r book ih =>
    cases hr : r.removed with
    | true =>
      rw [liveKeys_cons_removed hr] at h
      obtain ⟨a, r', b, rfl, ha, hlive, hkey, hks⟩ := ih h
      refine ⟨r :: a, r', b, rfl, ?_, hlive, hkey, hks⟩
      intro x hx
      rcases mem_cons.mp hx with rfl | hx
      · exact hr
      · exact ha x hx
    | false =>
      rw [liveKeys_cons_live hr] at h
      injection h with hkey hks
      exact ⟨[], r, book, rfl, (fun x hx => nomatch hx), hr, hkey, hks⟩

theorem Book.removed_of_liveKeys (h : book.liveKeys = []) :
    ∀ r ∈ book, r.removed = true := by
  intro r hr
  by_contra hlive
  have hmem : r.key ∈ book.liveKeys :=
    mem_map_of_mem (mem_filter.mpr ⟨hr, by simpa using hlive⟩)
  rw [h] at hmem
  exact nomatch hmem

section

variable {seen : Stream → Bool} {found : Field → Bool}

variable {r : Record}

theorem scanValues_end (hr : r.Fits) (pre : List UInt8) (fuel : Nat) :
    ∃ f, scanValues seen found (fuel + 1) (keyField pre r []).after = some (.error f) := by
  obtain ⟨x, hx, -, hafter⟩ := readField_value hr pre []
  have hlen : x.after = ⟨pre ++ (r.encode ++ []), (pre ++ (r.encode ++ [])).length⟩ := by
    rw [hafter, append_nil]
  rw [scanValues, hx]
  dsimp only
  rw [hlen, readField_end]
  split
  · exact ⟨_, rfl⟩
  · exact ⟨_, rfl⟩

theorem scanValues_cons {r' : Record} (hr : r.Fits) (hr' : r'.Fits) (pre post : List UInt8)
    (fuel : Nat) :
    scanValues seen found (fuel + 1) (keyField pre r (r'.encode ++ post)).after =
      if found (keyField (pre ++ r.encode) r' post) then
        some (.ok (keyField (pre ++ r.encode) r' post))
      else scanValues seen found fuel (keyField (pre ++ r.encode) r' post).after := by
  obtain ⟨x, hx, -, hafter⟩ := readField_value hr pre (r'.encode ++ post)
  have hne : encodeField r.value ++ (r'.encode ++ post) ≠ [] :=
    append_ne_nil_of_left_ne_nil
      (append_ne_nil_of_left_ne_nil (lengthLine_ne_nil _) _) _
  have heof : Stream.eof seen (keyField pre r (r'.encode ++ post)).after = false := by
    rw [keyField_after]
    exact eof_of_ne_nil hne
  have hread : readField x.after = some (keyField (pre ++ r.encode) r' post) := by
    rw [hafter, ← append_assoc]
    exact readField_key hr' _ _
  rw [scanValues, heof, if_neg Bool.false_ne_true, hx]
  dsimp only
  rw [hread]

variable (seen) in
theorem scanValues_none (hr : r.Fits) {book : Book} (hfits : ∀ x ∈ book, x.Fits)
    (hplain : book.Plain) (hremoved : ∀ x ∈ book, x.removed = true) (pre : List UInt8) (fuel : Nat)
    :
    ∃ f, scanValues seen liveField (fuel + 1 + book.length)
      (keyField pre r (Book.encode book)).after = some (.error f) := by
  induction book generalizing r pre with
  | nil => exact scanValues_end hr pre fuel
  | cons x book ih =>
    have hfound : ¬ liveField (keyField (pre ++ r.encode) x (Book.encode book)) = true := by
      rw [liveField_keyField (hplain x mem_cons_self), hremoved x mem_cons_self]
      exact Bool.false_ne_true
    have hx := hfits x mem_cons_self
    rw [length_cons, ← Nat.add_assoc, Book.encode_cons, scanValues_cons hr hx, if_neg hfound]
    exact ih hx (fun y hy => hfits y (mem_cons_of_mem _ hy))
      (fun y hy => hplain y (mem_cons_of_mem _ hy))
      (fun y hy => hremoved y (mem_cons_of_mem _ hy)) _

variable (seen) in
theorem scanValues_some {r' : Record} (hr : r.Fits) (hr' : r'.Fits) {a b : Book}
    (hfits : ∀ x ∈ a, x.Fits) (hplain : Book.Plain (a ++ r' :: b))
    (hremoved : ∀ x ∈ a, x.removed = true) (hlive : r'.removed = false) (pre : List UInt8)
    (fuel : Nat) :
    scanValues seen liveField (fuel + 1 + a.length)
        (keyField pre r (Book.encode (a ++ r' :: b))).after =
      some (.ok (keyField (pre ++ r.encode ++ Book.encode a) r' (Book.encode b))) := by
  induction a generalizing r pre with
  | nil =>
    have hfound : liveField (keyField (pre ++ r.encode) r' (Book.encode b)) = true := by
      rw [liveField_keyField (hplain r' mem_cons_self), hlive]
      rfl
    have hnil : Book.encode [] = [] := rfl
    rw [nil_append, Book.encode_cons, length_nil, Nat.add_zero,
      scanValues_cons hr hr', if_pos hfound, hnil, append_nil]
  | cons x a ih =>
    have hfound : ¬ liveField
        (keyField (pre ++ r.encode) x (Book.encode (a ++ r' :: b))) = true := by
      rw [liveField_keyField (hplain x mem_cons_self), hremoved x mem_cons_self]
      exact Bool.false_ne_true
    have hx := hfits x mem_cons_self
    rw [length_cons, ← Nat.add_assoc, cons_append, Book.encode_cons,
      scanValues_cons hr hx, if_neg hfound,
      ih hx (fun y hy => hfits y (mem_cons_of_mem _ hy))
        (fun y hy => hplain y (mem_cons_of_mem _ hy))
        (fun y hy => hremoved y (mem_cons_of_mem _ hy)),
      Book.encode_cons, append_assoc (pre ++ r.encode)]

end

/-- The database has returned the key of `r`, with the records of `book` behind it. -/
structure FlatFile.At (dba : FlatFile) (pre : List UInt8) (r : Record) (book : Book) : Prop where
  bytes : dba.fp.bytes = (keyField pre r book.encode).after.bytes
  pos : dba.currentFlatFilePos = (keyField pre r book.encode).after.pos
  first : r.Fits
  fits : ∀ x ∈ book, x.Fits
  plain : book.Plain

namespace FlatFile

variable {seen : Stream → Bool} {dba : FlatFile} {pre : List UInt8} {r : Record} {book : Book}

variable (seen) in
theorem At.nextkey (h : dba.At pre r book) : ∃ k, flatfileNextkey seen dba =
    (scanValues seen liveField (k + 1 + book.length)
      (keyField pre r book.encode).after).map (returnKey dba) := by
  have hseek : dba.fp.seek dba.currentFlatFilePos = (keyField pre r book.encode).after := by
    rw [Stream.seek, h.bytes, h.pos]
  have hlen := Book.length_le_encode book
  have hbytes := congrArg List.length h.bytes
  simp only [keyField, length_append] at hbytes
  have hfuel : dba.fp.fuel = dba.fp.bytes.length - book.length + 1 + book.length := by
    rw [Stream.fuel]
    omega
  refine ⟨dba.fp.bytes.length - book.length, ?_⟩
  rw [flatfileNextkey, hseek, hfuel]
  rfl

theorem At.nextKeys_eq (h : dba.At pre r book) {ks : List (List UInt8)}
    (hks : book.liveKeys = ks) {n : Nat} (hn : ks.length < n) :
    dba.nextKeys seen n = some ks := by
  induction ks generalizing dba pre r book n with
  | nil =>
    obtain ⟨n, rfl⟩ : ∃ m, n = m + 1 := Nat.exists_eq_add_one.mpr hn
    obtain ⟨k, hnext⟩ := h.nextkey seen
    obtain ⟨f, hscan⟩ := scanValues_none seen h.first h.fits h.plain
      (Book.removed_of_liveKeys hks) pre k
    rw [FlatFile.nextKeys, hnext, hscan]
    rfl
  | cons key ks ih =>
    rw [length_cons] at hn
    obtain ⟨n, rfl⟩ : ∃ m, n = m + 1 := Nat.exists_eq_add_one.mpr (by omega)
    obtain ⟨k, hnext⟩ := h.nextkey seen
    obtain ⟨a, r', b, rfl, ha, hlive, hkey, hrest⟩ := Book.split_live hks
    have hr' := h.fits r' (mem_append_right _ mem_cons_self)
    have hfuel : k + 1 + (a ++ r' :: b).length = k + b.length + 1 + 1 + a.length := by
      rw [length_append, length_cons]
      omega
    have hscan := scanValues_some seen h.first hr'
      (fun x hx => h.fits x (mem_append_left _ hx)) h.plain ha hlive pre (k + b.length + 1)
    -- the key that is returned, and the state that it leaves
    have hdata : (keyField (pre ++ r.encode ++ Book.encode a) r' (Book.encode b)).data = key := by
      rw [← hkey]
      exact Book.stored_of_live hlive
    have hat : At ⟨(keyField (pre ++ r.encode ++ Book.encode a) r' (Book.encode b)).after,
        (keyField (pre ++ r.encode ++ Book.encode a) r' (Book.encode b)).after.pos⟩
        (pre ++ r.encode ++ Book.encode a) r' b :=
      ⟨rfl, rfl, hr', fun x hx => h.fits x (mem_append_right _ (mem_cons_of_mem _ hx)),
        fun x hx => h.plain x (mem_append_right _ (mem_cons_of_mem _ hx))⟩
    rw [FlatFile.nextKeys, hnext, hfuel, hscan]
    dsimp only [Option.map_some, returnKey, bind, Option.bind]
    rw [hdata, ih hat hrest (by omega)]
    rfl

theorem Holds.keys_eq (h : dba.Holds book) (hplain : book.Plain) {n : Nat}
    (hn : book.liveKeys.length ≤ n) : dba.keys seen n = some book.liveKeys := by
  have hfield : (fun x : Field => decide (x.firstByte ≠ 0)) = liveField := rfl
  cases hks : book.liveKeys with
  | nil =>
    have hmiss : ∀ r ∈ book, ∀ pre post, liveField (keyField pre r post) = false := by
      intro r hr pre post
      rw [liveField_keyField (hplain r hr), Book.removed_of_liveKeys hks r hr]
      rfl
    rw [FlatFile.keys, flatfileFirstkey, hfield, h.scan_none hmiss]
    rfl
  | cons key ks =>
    obtain ⟨a, r, b, rfl, ha, hlive, hkey, hrest⟩ := Book.split_live hks
    have hmiss : ∀ x ∈ a, ∀ pre post, liveField (keyField pre x post) = false := by
      intro x hx pre post
      rw [liveField_keyField (hplain x (mem_append_left _ hx)), ha x hx]
      rfl
    have hhit : liveField (keyField (Book.encode a) r (Book.encode b)) = true := by
      rw [liveField_keyField (hplain r (mem_append_right _ mem_cons_self)), hlive]
      rfl
    have hdata : (keyField (Book.encode a) r (Book.encode b)).data = key := by
      rw [← hkey]
      exact Book.stored_of_live hlive
    have hat : At ⟨(keyField (Book.encode a) r (Book.encode b)).after,
        (keyField (Book.encode a) r (Book.encode b)).after.pos⟩ (Book.encode a) r b :=
      ⟨rfl, rfl, h.sound.fits r (mem_append_right _ mem_cons_self),
        fun x hx => h.sound.fits x (mem_append_right _ (mem_cons_of_mem _ hx)),
        fun x hx => hplain x (mem_append_right _ (mem_cons_of_mem _ hx))⟩
    rw [hks, length_cons] at hn
    rw [FlatFile.keys, flatfileFirstkey, hfield, h.scan_some hmiss hhit]
    dsimp only [Option.map_some, returnKey, bind, Option.bind]
    rw [hdata, hat.nextKeys_eq hrest (by omega)]
    rfl

end FlatFile

theorem Book.Plain.mark (h : book.Plain) (key : List UInt8) :
    Book.Plain (book.mark key) := by
  induction book with
  | nil => exact h
  | cons x book ih =>
    have hrest : Book.Plain book := fun y hy => h y (mem_cons_of_mem _ hy)
    rw [Book.mark]
    split
    · intro r hr
      rcases mem_cons.mp hr with rfl | hr
      · exact h x mem_cons_self
      · exact hrest r hr
    · intro r hr
      rcases mem_cons.mp hr with rfl | hr
      · exact h _ mem_cons_self
      · exact ih hrest r hr

theorem Book.Plain.append (h : book.Plain) (hr : PlainKey r.key) :
    Book.Plain (book ++ [r]) := by
  intro x hx
  rcases mem_append.mp hx with hx | hx
  · exact h x hx
  · rw [mem_singleton.mp hx]
    exact hr

theorem Book.Plain.step (h : book.Plain) {op : Op} (hop : PlainKey op.key) :
    Book.Plain (book.step op) := by
  cases op with
  | insert key value =>
    rw [Book.step]
    split
    · exact h
    · exact h.append hop
  | replace key value => exact (h.mark key).append hop
  | delete key => exact h.mark key
  | fetch key => exact h
  | exist key => exact h

theorem Book.Plain.run (h : book.Plain) {ops : List Op} (hops : ∀ op ∈ ops, PlainKey op.key)
    : Book.Plain (book.run ops) := by
  induction ops generalizing book with
  | nil => exact h
  | cons op ops ih =>
    exact ih (h.step (hops op mem_cons_self)) fun x hx => hops x (mem_cons_of_mem _ hx)

theorem Book.clean_of_plain (book : Book) (hkey : PlainKey key) :
    book.Clean key := by
  intro r hfind
  have hstored : r.stored = key := by simpa using List.find?_some hfind
  by_contra hremoved
  rw [Bool.not_eq_false] at hremoved
  apply hkey.2
  rw [← hstored, Record.stored, if_pos hremoved]
  rfl

theorem Book.cleanRun_of_plain (book : Book) {ops : List Op}
    (hops : ∀ op ∈ ops, PlainKey op.key) : book.CleanRun ops := by
  induction ops generalizing book with
  | nil => trivial
  | cons op ops ih =>
    have hop := hops op mem_cons_self
    refine ⟨⟨book.clean_of_plain hop, ?_⟩,
      ih (book.step op) fun x hx => hops x (mem_cons_of_mem _ hx)⟩
    cases op with
    | insert key value => trivial
    | replace key value => exact fun hnil => absurd hnil hop.1
    | delete key => exact fun hnil => absurd hnil hop.1
    | fetch key => trivial
    | exist key => trivial

/-- After any run on plain keys an iteration ends, and visits the keys of the map, each once. -/
theorem flatfile_iteration_visits_keys (seen : Stream → Bool) (ops : List Op)
    (hsized : ∀ op ∈ ops, op.Sized) (hplain : ∀ op ∈ ops, PlainKey op.key) :
    ∃ replies dba keys, FlatFile.empty.run seen ops = some (replies, dba) ∧
      dba.keys seen keys.length = some keys ∧ keys.Nodup ∧
      ∀ key, key ∈ keys ↔ ((Store.run (fun _ => none) ops).2 key).isSome = true := by
  obtain ⟨dba, hrun, hholds, hlookup⟩ := FlatFile.holds_empty.run seen hsized
    (Book.cleanRun_of_plain [] hplain)
  have hnil : Book.Plain [] := by
    intro r hr
    exact nomatch hr
  refine ⟨_, dba, Book.liveKeys (Book.run [] ops), hrun, hholds.keys_eq (hnil.run hplain) (Nat.le_refl _),
    hholds.sound.distinct, ?_⟩
  intro key
  have hstore : Book.lookup [] = fun _ => none := rfl
  rw [Book.mem_liveKeys, hlookup, hstore]

/-- Three keys, of which the second is removed and the first moves to the end. -/
theorem flatfile_iteration_visits_keys_moved :
    ∃ replies dba keys, FlatFile.empty.run (fun _ => false)
        [.insert [97] [], .insert [98] [1], .insert [99] [2], .delete [98], .replace [97] [3]] =
      some (replies, dba) ∧ dba.keys (fun _ => false) keys.length = some keys ∧ keys.Nodup ∧
      ∀ key, key ∈ keys ↔ ((Store.run (fun _ => none) [.insert [97] [], .insert [98] [1],
        .insert [99] [2], .delete [98], .replace [97] [3]]).2 key).isSome = true := by
  apply flatfile_iteration_visits_keys
  · intro op hop
    simp only [List.mem_cons, not_mem_nil, or_false] at hop
    rcases hop with rfl | rfl | rfl | rfl | rfl <;> simp [Op.Sized]
  · intro op hop
    simp only [List.mem_cons, not_mem_nil, or_false] at hop
    rcases hop with rfl | rfl | rfl | rfl | rfl <;> simp [PlainKey, Op.key]

end Php53.Dba
