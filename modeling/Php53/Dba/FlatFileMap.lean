import Php53.Dba.Records

/-!
# FlatFileMap — a flat file is a finite map

The live records of a file are the entries of a map, and each operation does to the map what it
should, as long as the search for its key does not stop at a removed record.  The bytes of a removed
key stay in the file, with a NUL in front: a key of these bytes is found there.
-/

namespace Php53.Dba

open List

abbrev Store := List UInt8 → Option (List UInt8)

/-- What an operation on a map replies, and the map behind it. -/
def Store.step (s : Store) : Op → Reply × Store
  | .insert key value =>
    if (s key).isSome then (.status false, s)
    else (.status true, Function.update s key (some value))
  | .replace key value => (.status true, Function.update s key (some value))
  | .delete key => (.status (s key).isSome, Function.update s key none)
  | .fetch key => (.value (s key), s)
  | .exist key => (.status (s key).isSome, s)

def Store.run : Store → List Op → List Reply × Store
  | s, [] => ([], s)
  | s, op :: ops =>
    let (reply, s) := s.step op
    let (replies, s) := s.run ops
    (reply :: replies, s)

def Op.key : Op → List UInt8
  | .insert key _ | .replace key _ | .delete key | .fetch key | .exist key => key

/-- Lengths come as `int`s. -/
def Op.Sized : Op → Prop
  | .insert key value | .replace key value => key.length < 2 ^ 31 ∧ value.length < 2 ^ 31
  | .delete key | .fetch key | .exist key => key.length < 2 ^ 31

namespace Book

def lookup (book : Book) : Store := fun key =>
  (book.find? fun r => !r.removed && r.key == key).map Record.value

def mark (key : List UInt8) : Book → Book
  | [] => []
  | r :: book =>
    if r.removed = false ∧ r.key = key then { r with removed := true } :: book
    else r :: mark key book

def step (book : Book) : Op → Book
  | .insert key value =>
    if (book.lookup key).isSome then book else book ++ [⟨key, value, false⟩]
  | .replace key value => book.mark key ++ [⟨key, value, false⟩]
  | .delete key => book.mark key
  | .fetch _ | .exist _ => book

def run (book : Book) (ops : List Op) : Book := ops.foldl step book

def Clean (book : Book) (key : List UInt8) : Prop :=
  ∀ r, book.find? (fun r => r.stored = key) = some r → r.removed = false

def KeepsEmpty (book : Book) : Op → Prop
  | .replace key _ | .delete key => key = [] → book.lookup key = none
  | _ => True

/-- Before every operation the search for its key does not end at a removed record, and the empty
key is neither deleted nor replaced. -/
def CleanRun : Book → List Op → Prop
  | _, [] => True
  | book, op :: ops =>
    (book.Clean op.key ∧ book.KeepsEmpty op) ∧ CleanRun (book.step op) ops

/-- The records that a file can have. -/
structure Sound (book : Book) : Prop where
  fits : ∀ r ∈ book, r.Fits
  distinct : ((book.filter fun r => !r.removed).map Record.key).Nodup

variable {book : Book} {key : List UInt8} {r : Record}

theorem stored_of_live (h : r.removed = false) : r.stored = r.key := by
  rw [Record.stored, h]
  rfl

theorem lookup_eq_none : book.lookup key = none ↔
    ∀ r ∈ book, r.removed = false → r.key ≠ key := by
  rw [lookup, Option.map_eq_none_iff, List.find?_eq_none]
  constructor
  · intro h r hr hlive hkey
    exact h r hr (by simp [hlive, hkey])
  · intro h r hr hboth
    simp only [Bool.and_eq_true, Bool.not_eq_true', beq_iff_eq] at hboth
    exact h r hr hboth.1 hboth.2

theorem find_key (hclean : book.Clean key) :
    (book.lookup key = none ∧ ∀ r ∈ book, r.stored ≠ key) ∨
      ∃ (a : Book) (r : Record) (b : Book), book = a ++ r :: b ∧ (∀ x ∈ a, x.stored ≠ key) ∧ r.removed = false ∧
        r.key = key := by
  cases hfind : book.find? fun r => r.stored = key with
  | none =>
    have hall : ∀ r ∈ book, r.stored ≠ key := by
      intro r hr
      simpa using List.find?_eq_none.mp hfind r hr
    left
    refine ⟨lookup_eq_none.mpr fun r hr hlive => ?_, hall⟩
    rw [← stored_of_live hlive]
    exact hall r hr
  | some r =>
    have hlive := hclean r hfind
    obtain ⟨hr, a, b, hbook, ha⟩ := List.find?_eq_some_iff_append.mp hfind
    right
    refine ⟨a, r, b, hbook, fun x hx => by simpa using ha x hx, hlive, ?_⟩
    rw [← stored_of_live hlive]
    simpa using hr

theorem lookup_at {a b : Book} (ha : ∀ x ∈ a, x.stored ≠ key) (hlive : r.removed = false)
    (hkey : r.key = key) :
    lookup (a ++ r :: b) key = some r.value := by
  have hskip : a.find? (fun x => !x.removed && x.key == key) = none := by
    rw [List.find?_eq_none]
    intro x hx hboth
    simp only [Bool.and_eq_true, Bool.not_eq_true', beq_iff_eq] at hboth
    exact ha x hx (by rw [stored_of_live hboth.1, hboth.2])
  rw [lookup, List.find?_append, hskip, Option.none_or,
    List.find?_cons_of_pos (by simp [hlive, hkey])]
  rfl

theorem mark_at {a b : Book} (ha : ∀ x ∈ a, x.stored ≠ key) (hlive : r.removed = false)
    (hkey : r.key = key) :
    mark key (a ++ r :: b) = a ++ { r with removed := true } :: b := by
  induction a with
  | nil => rw [nil_append, mark, if_pos ⟨hlive, hkey⟩, nil_append]
  | cons x a ih =>
    have hx : ¬ (x.removed = false ∧ x.key = key) := by
      intro h
      exact ha x mem_cons_self (by rw [stored_of_live h.1, h.2])
    rw [cons_append, mark, if_neg hx, ih fun y hy => ha y (mem_cons_of_mem _ hy)]
    rfl

theorem mark_of_lookup_eq_none (h : book.lookup key = none) : book.mark key = book := by
  rw [lookup_eq_none] at h
  induction book with
  | nil => rfl
  | cons x book ih =>
    have hx : ¬ (x.removed = false ∧ x.key = key) := fun hboth =>
      h x mem_cons_self hboth.1 hboth.2
    rw [mark, if_neg hx, ih fun y hy => h y (mem_cons_of_mem _ hy)]

theorem lookup_cons (r : Record) (k : List UInt8) : lookup (r :: book) k =
    if r.removed = false ∧ r.key = k then some r.value else lookup book k := by
  rw [lookup, List.find?_cons]
  by_cases h : r.removed = false ∧ r.key = k
  · have hp : (!r.removed && r.key == k) = true := by simp [h]
    rw [if_pos h, hp]
    rfl
  · have hp : (!r.removed && r.key == k) = false := by
      rw [Bool.eq_false_iff]
      intro hboth
      simp only [Bool.and_eq_true, Bool.not_eq_true', beq_iff_eq] at hboth
      exact h hboth
    rw [if_neg h, hp]
    rfl

theorem lookup_append_new (hnone : book.lookup key = none) (value : List UInt8) :
    lookup (book ++ [⟨key, value, false⟩]) = Function.update book.lookup key (some value) := by
  funext k
  induction book with
  | nil =>
    rw [nil_append, lookup_cons]
    by_cases hk : key = k
    · rw [if_pos ⟨rfl, hk⟩, ← hk, Function.update_self]
    · rw [if_neg fun h => hk h.2, Function.update_of_ne (Ne.symm hk)]
  | cons r book ih =>
    rw [lookup_cons] at hnone
    split at hnone
    · exact nomatch hnone
    · rename_i hr
      rw [cons_append, lookup_cons, ih hnone]
      by_cases hk : k = key
      · rw [hk, if_neg hr, Function.update_self, Function.update_self]
      · rw [Function.update_of_ne hk, Function.update_of_ne hk, lookup_cons]

theorem lookup_mark (hdistinct : ((book.filter fun r => !r.removed).map Record.key).Nodup) :
    lookup (book.mark key) = Function.update book.lookup key none := by
  funext k
  induction book with
  | nil =>
    by_cases hk : k = key
    · rw [hk, Function.update_self]
      rfl
    · rw [Function.update_of_ne hk]
      rfl
  | cons r book ih =>
    rw [mark]
    split
    · rename_i hr
      have hrest : lookup book key = none := by
        rw [filter_cons_of_pos (by simp [hr.1]), map_cons, nodup_cons] at hdistinct
        rw [lookup_eq_none]
        intro x hx hlive hkey
        apply hdistinct.1
        rw [hr.2, ← hkey]
        exact mem_map_of_mem (mem_filter.mpr ⟨hx, by simp [hlive]⟩)
      rw [lookup_cons, if_neg fun h => nomatch h.1]
      by_cases hk : k = key
      · rw [hk, Function.update_self, hrest]
      · rw [Function.update_of_ne hk, lookup_cons, if_neg fun h => hk (h.2.symm.trans hr.2)]
    · rename_i hr
      have htail : ((book.filter fun r => !r.removed).map Record.key).Nodup := by
        rw [filter_cons] at hdistinct
        split at hdistinct
        · exact (nodup_cons.mp hdistinct).2
        · exact hdistinct
      rw [lookup_cons, ih htail]
      by_cases hk : k = key
      · rw [hk, if_neg hr, Function.update_self, Function.update_self]
      · rw [Function.update_of_ne hk, Function.update_of_ne hk, lookup_cons]

namespace Sound

theorem append_new (h : book.Sound) (hnone : book.lookup key = none) {value : List UInt8}
    (hkey : key.length < 2 ^ 31) (hvalue : value.length < 2 ^ 31) :
    Sound (book ++ [⟨key, value, false⟩]) := by
  constructor
  · intro r hr
    rcases mem_append.mp hr with hr | hr
    · exact h.fits r hr
    · rw [mem_singleton.mp hr]
      exact ⟨hkey, hvalue, fun hfalse => nomatch hfalse⟩
  · rw [lookup_eq_none] at hnone
    rw [filter_append, map_append, nodup_append]
    refine ⟨h.distinct, nodup_singleton _, ?_⟩
    intro x hx y hy
    obtain ⟨r, hr, rfl⟩ := mem_map.mp hx
    rw [mem_filter] at hr
    rw [mem_singleton.mp hy]
    exact hnone r hr.1 (by simpa using hr.2)

theorem mark (h : book.Sound) (hempty : key = [] → book.lookup key = none) :
    (book.mark key).Sound := by
  obtain ⟨hfits, hdistinct⟩ := h
  constructor
  · intro r hr
    induction book with
    | nil => exact nomatch hr
    | cons x book ih =>
      rw [Book.mark] at hr
      split at hr
      · rename_i hx
        rcases mem_cons.mp hr with rfl | hr
        · have hfit := hfits x mem_cons_self
          refine ⟨hfit.key, hfit.value, fun _ hnil => ?_⟩
          have hkey : key = [] := hx.2.symm.trans hnil
          exact lookup_eq_none.mp (hempty hkey) x mem_cons_self hx.1 hx.2
        · exact hfits r (mem_cons_of_mem _ hr)
      · rename_i hx
        rcases mem_cons.mp hr with rfl | hr
        · exact hfits _ mem_cons_self
        · have hrest : key = [] → lookup book key = none := by
            intro hkey
            have := hempty hkey
            rw [lookup_cons, if_neg hx] at this
            exact this
          rw [filter_cons] at hdistinct
          split at hdistinct
          · exact ih hrest (fun y hy => hfits y (mem_cons_of_mem _ hy))
              (nodup_cons.mp hdistinct).2 hr
          · exact ih hrest (fun y hy => hfits y (mem_cons_of_mem _ hy)) hdistinct hr
  · apply List.Nodup.sublist _ hdistinct
    apply List.Sublist.map
    clear hfits hdistinct hempty
    induction book with
    | nil => exact List.Sublist.refl _
    | cons x book ih =>
      rw [Book.mark]
      split
      · rename_i hx
        rw [filter_cons_of_neg (by simp), filter_cons_of_pos (by simp [hx.1])]
        exact sublist_cons_self _ _
      · rw [filter_cons, filter_cons]
        split
        · exact ih.cons_cons _
        · exact ih

end Sound

end Book

theorem overlay_at (a : List UInt8) (c x : UInt8) (b : List UInt8) :
    Streams.overlay (a ++ c :: b) a.length [x] = a ++ x :: b := by
  have hzero : a.length - (a ++ c :: b).length = 0 := by
    rw [length_append]
    omega
  rw [Streams.overlay, hzero, replicate_zero, append_nil, take_left,
    drop_append, drop_eq_nil_of_le (by omega), Nat.add_sub_cancel_left]
  simp

theorem overlay_end (bytes data : List UInt8) :
    Streams.overlay bytes bytes.length data = bytes ++ data := by
  rw [Streams.overlay, Nat.sub_self, replicate_zero, append_nil, take_length,
    drop_eq_nil_of_le (by omega), append_nil]

theorem writeField_end (bytes data : List UInt8) :
    Stream.writeField ⟨bytes, bytes.length⟩ data =
      ⟨bytes ++ encodeField data, (bytes ++ encodeField data).length⟩ := by
  have hline : Stream.write ⟨bytes, bytes.length⟩ (lengthLine data.length) =
      ⟨bytes ++ lengthLine data.length, (bytes ++ lengthLine data.length).length⟩ := by
    rw [Stream.write, overlay_end, length_append]
  rw [Stream.writeField, hline, Stream.write, overlay_end, encodeField, append_assoc]
  simp only [length_append, Nat.add_assoc]

/-- The file of a database is a sound book. -/
structure FlatFile.Holds (dba : FlatFile) (book : Book) : Prop where
  bytes : dba.fp.bytes = book.encode
  sound : book.Sound

namespace FlatFile.Holds

variable {seen : Stream → Bool} {dba : FlatFile} {book : Book} {key : List UInt8} {r : Record}

theorem fuel (h : dba.Holds book) : ∃ n, dba.fp.fuel = n + 1 + book.length := by
  have hlen := Book.length_le_encode book
  refine ⟨dba.fp.bytes.length - book.length, ?_⟩
  rw [Stream.fuel, h.bytes]
  omega

theorem rewind (h : dba.Holds book) : dba.fp.rewind = ⟨[] ++ (book.encode ++ []), 0⟩ := by
  rw [Stream.rewind, h.bytes, nil_append, append_nil]

theorem scan_none (h : dba.Holds book) {found : Field → Bool}
    (hfound : ∀ r ∈ book, ∀ pre post, found (keyField pre r post) = false) :
    scanKeys seen found dba.fp.fuel dba.fp.rewind =
      some (.error ⟨book.encode, book.encode.length⟩) := by
  obtain ⟨n, hn⟩ := h.fuel
  have hskip := scanKeys_skip seen h.sound.fits [] [] hfound (n + 1)
  rw [length_nil] at hskip
  rw [hn, h.rewind, hskip, append_nil, nil_append, scanKeys_end]

theorem scan_some {a b : Book} (h : dba.Holds (a ++ r :: b)) {found : Field → Bool}
    (hmiss : ∀ x ∈ a, ∀ pre post, found (keyField pre x post) = false)
    (hhit : found (keyField (Book.encode a) r (Book.encode b)) = true) :
    scanKeys seen found dba.fp.fuel dba.fp.rewind =
      some (.ok (keyField (Book.encode a) r (Book.encode b))) := by
  obtain ⟨n, hn⟩ := h.fuel
  have hfuel : dba.fp.fuel = n + 1 + b.length + 1 + a.length := by
    rw [hn, length_append, length_cons]
    omega
  have hbytes : [] ++ (Book.encode (a ++ r :: b) ++ []) =
      [] ++ (Book.encode a ++ (r.encode ++ Book.encode b)) := by
    rw [Book.encode_append, Book.encode_cons, append_nil]
  have hskip := scanKeys_skip seen
    (fun x hx => h.sound.fits x (mem_append_left _ hx)) []
    (r.encode ++ Book.encode b) hmiss (n + 1 + b.length + 1)
  rw [length_nil] at hskip
  rw [hfuel, h.rewind, hbytes, hskip, nil_append,
    scanKeys_hit (h.sound.fits r (mem_append_right _ mem_cons_self)) hhit]

theorem sameKey_eq_false (hr : r.stored ≠ key) (pre post : List UInt8) :
    sameKey key (keyField pre r post) = false := by
  rw [sameKey, keyField]
  simpa using hr

theorem sameKey_eq_true (hr : r.stored = key) (pre post : List UInt8) :
    sameKey key (keyField pre r post) = true := by
  rw [sameKey, keyField]
  simpa using hr

variable (seen) in
theorem findkey (h : dba.Holds book) (hclean : book.Clean key) :
    (book.lookup key = none ∧ flatfileFindkey seen dba key =
        some (false, { dba with fp := ⟨book.encode, book.encode.length⟩ })) ∨
      ∃ (a : Book) (r : Record) (b : Book), book = a ++ r :: b ∧ book.lookup key = some r.value ∧
        flatfileFindkey seen dba key =
          some (true, { dba with fp := (keyField (Book.encode a) r (Book.encode b)).after }) := by
  rcases Book.find_key hclean with ⟨hnone, hall⟩ | ⟨a, r, b, rfl, ha, hlive, hkey⟩
  · left
    refine ⟨hnone, ?_⟩
    rw [flatfileFindkey, h.scan_none fun r hr => sameKey_eq_false (hall r hr)]
    rfl
  · right
    refine ⟨a, r, b, rfl, Book.lookup_at ha hlive hkey, ?_⟩
    rw [flatfileFindkey, h.scan_some (fun x hx => sameKey_eq_false (ha x hx))
      (sameKey_eq_true ((Book.stored_of_live hlive).trans hkey) _ _)]
    rfl

theorem delete (h : dba.Holds book) (hclean : book.Clean key)
    (hempty : key = [] → book.lookup key = none) :
    flatfileDelete seen dba key = some ((book.lookup key).isSome,
      { dba with fp := ⟨(book.mark key).encode, (book.mark key).encode.length⟩ }) := by
  rcases Book.find_key hclean with ⟨hnone, hall⟩ | ⟨a, r, b, rfl, ha, hlive, hkey⟩
  · rw [flatfileDelete, h.scan_none fun r hr => sameKey_eq_false (hall r hr), hnone,
      Book.mark_of_lookup_eq_none hnone]
    rfl
  · have hlookup := Book.lookup_at (b := b) ha hlive hkey
    have hstored := Book.stored_of_live hlive
    rw [flatfileDelete, h.scan_some (fun x hx => sameKey_eq_false (ha x hx))
      (sameKey_eq_true (hstored.trans hkey) _ _), hlookup, Book.mark_at ha hlive hkey]
    obtain ⟨c, t, hct⟩ : ∃ c t, r.key = c :: t := by
      cases hk : r.key with
      | nil =>
        rw [hempty (hkey.symm.trans hk)] at hlookup
        exact nomatch hlookup
      | cons c t => exact ⟨c, t, rfl⟩
    -- the record before and after, around the first byte of its key
    have hbefore : Book.encode a ++ (r.encode ++ Book.encode b) =
        (Book.encode a ++ lengthLine (t.length + 1)) ++
          c :: (t ++ encodeField r.value ++ Book.encode b) := by
      simp only [Record.encode, encodeField, hstored, hct, length_cons, append_assoc,
        cons_append]
    have hafter : Book.encode (a ++ { r with removed := true } :: b) =
        (Book.encode a ++ lengthLine (t.length + 1)) ++
          0 :: (t ++ encodeField r.value ++ Book.encode b) := by
      simp only [Book.encode_append, Book.encode_cons, Record.encode, encodeField, Record.stored,
        hct, length_cons, append_assoc, cons_append, if_true, tail_cons]
    have hstart : (keyField (Book.encode a) r (Book.encode b)).start =
        (Book.encode a ++ lengthLine (t.length + 1)).length := by
      rw [keyField, hstored, hct, length_cons, length_append]
    dsimp only [Option.map_some, keyField, Stream.seek, Stream.write, Stream.seekEnd]
    dsimp only [keyField] at hstart
    rw [hstart, hbefore, overlay_at, ← hafter]
    rfl

theorem append_record (dba : FlatFile) (book : Book) (key value : List UInt8) :
    { dba with fp := ((Stream.mk book.encode book.encode.length).writeField key).writeField value } =
      { dba with fp := ⟨Book.encode (book ++ [⟨key, value, false⟩]),
        (Book.encode (book ++ [⟨key, value, false⟩])).length⟩ } := by
  have hrecord : Book.encode (book ++ [⟨key, value, false⟩]) =
      book.encode ++ encodeField key ++ encodeField value := by
    rw [Book.encode_append, append_assoc]
    simp only [Book.encode, flatMap_cons, flatMap_nil, append_nil, Record.encode,
      Record.stored, Bool.false_eq_true, if_false]
  rw [writeField_end, writeField_end, hrecord]

variable (seen) in
theorem fetch (h : dba.Holds book) (hclean : book.Clean key) :
    ∃ dba', flatfileFetch seen dba key = some (book.lookup key, dba') ∧ dba'.Holds book := by
  rcases h.findkey seen hclean with ⟨hnone, hfind⟩ | ⟨a, r, b, rfl, hsome, hfind⟩
  · refine ⟨{ dba with fp := ⟨book.encode, book.encode.length⟩ }, ?_, rfl, h.sound⟩
    rw [flatfileFetch, hfind, hnone]
    rfl
  · have hvalue := (h.sound.fits r (mem_append_right _ mem_cons_self)).value
    -- the stream is at the value of the record
    have hgets := gets_eq (Book.encode a ++ encodeField r.stored)
      (Book.encode b) hvalue (by omega : 12 ≤ 16)
    have hread := read_eq (Book.encode a ++ encodeField r.stored)
      (Book.encode b) hvalue
    have hbytes : Book.encode a ++ encodeField r.stored ++
        (encodeField r.value ++ Book.encode b) = Book.encode (a ++ r :: b) := by
      simp only [Book.encode_append, Book.encode_cons, Record.encode, append_assoc]
    refine ⟨{ dba with fp := ⟨Book.encode a ++ encodeField r.stored ++
      (encodeField r.value ++ Book.encode b), (Book.encode a ++ encodeField r.stored).length +
        (encodeField r.value).length⟩ }, ?_, hbytes, h.sound⟩
    · rw [flatfileFetch, hfind, hsome, keyField_after]
      dsimp only [bind, Option.bind]
      rw [if_pos rfl]
      rw [hgets]
      dsimp only
      rw [hread]
      rfl

theorem append_new (dba' : FlatFile) (hfp : dba'.fp = ⟨book.encode, book.encode.length⟩)
    (hsound : book.Sound) (hnone : book.lookup key = none) {value : List UInt8}
    (hkey : key.length < 2 ^ 31) (hvalue : value.length < 2 ^ 31) :
    Holds { dba' with fp := (dba'.fp.writeField key).writeField value }
      (book ++ [⟨key, value, false⟩]) := by
  refine ⟨?_, hsound.append_new hnone hkey hvalue⟩
  rw [hfp, append_record dba' book key value]

variable (seen) in
theorem step (h : dba.Holds book) {op : Op} (hsized : op.Sized) (hclean : book.Clean op.key)
    (hkeeps : book.KeepsEmpty op) :
    ∃ dba', dba.step seen op = some ((Store.step book.lookup op).1, dba') ∧
      dba'.Holds (book.step op) ∧ (book.step op).lookup = (Store.step book.lookup op).2 := by
  cases op with
  | insert key value =>
    have hclean : book.Clean key := hclean
    rcases h.findkey seen hclean with ⟨hnone, hfind⟩ | ⟨a, r, b, rfl, hsome, hfind⟩
    · have hnot : ¬ (book.lookup key).isSome = true := by
        rw [hnone]
        exact Bool.false_ne_true
      rw [Store.step, if_neg hnot, Book.step, if_neg hnot, FlatFile.step, flatfileStore, hfind]
      exact ⟨_, rfl, append_new { dba with fp := ⟨book.encode, book.encode.length⟩ } rfl
        h.sound hnone hsized.1 hsized.2, Book.lookup_append_new hnone value⟩
    · have hthere : (Book.lookup (a ++ r :: b) key).isSome = true := by
        rw [hsome]
        rfl
      rw [Store.step, if_pos hthere, Book.step, if_pos hthere, FlatFile.step, flatfileStore, hfind]
      refine ⟨_, rfl, ⟨?_, h.sound⟩, rfl⟩
      rw [keyField_after]
      simp only [Book.encode_append, Book.encode_cons, Record.encode, append_assoc]
  | replace key value =>
    have hclean : book.Clean key := hclean
    have hmark : (book.mark key).lookup = Function.update book.lookup key none :=
      Book.lookup_mark h.sound.distinct
    have hnone : (book.mark key).lookup key = none := by
      rw [hmark, Function.update_self]
    have hlookup := Book.lookup_append_new hnone value
    rw [hmark, Function.update_idem] at hlookup
    rw [FlatFile.step, flatfileStore, h.delete hclean hkeeps]
    exact ⟨_, rfl, append_new
      { dba with fp := ⟨(book.mark key).encode, (book.mark key).encode.length⟩ } rfl
      (h.sound.mark hkeeps) hnone hsized.1 hsized.2, hlookup⟩
  | delete key =>
    have hclean : book.Clean key := hclean
    rw [FlatFile.step, h.delete hclean hkeeps]
    exact ⟨_, rfl, ⟨rfl, h.sound.mark hkeeps⟩, Book.lookup_mark h.sound.distinct⟩
  | fetch key =>
    have hclean : book.Clean key := hclean
    obtain ⟨dba', hfetch, hholds⟩ := h.fetch seen hclean
    rw [FlatFile.step, hfetch]
    exact ⟨dba', rfl, hholds, rfl⟩
  | exist key =>
    have hclean : book.Clean key := hclean
    obtain ⟨dba', hfetch, hholds⟩ := h.fetch seen hclean
    rw [FlatFile.step, hfetch]
    exact ⟨dba', rfl, hholds, rfl⟩

variable (seen) in
theorem run (h : dba.Holds book) {ops : List Op} (hsized : ∀ op ∈ ops, op.Sized)
    (hclean : book.CleanRun ops) :
    ∃ dba', dba.run seen ops = some ((Store.run book.lookup ops).1, dba') ∧
      dba'.Holds (book.run ops) ∧ (book.run ops).lookup = (Store.run book.lookup ops).2 := by
  induction ops generalizing dba book with
  | nil => exact ⟨dba, rfl, h, rfl⟩
  | cons op ops ih =>
    obtain ⟨dba₁, hstep, hholds, hlookup⟩ := h.step seen
      (hsized op mem_cons_self) hclean.1.1 hclean.1.2
    obtain ⟨dba₂, hrun, hholds₂, hlookup₂⟩ :=
      ih hholds (fun x hx => hsized x (mem_cons_of_mem _ hx)) hclean.2
    rw [hlookup] at hrun hlookup₂
    refine ⟨dba₂, ?_, hholds₂, hlookup₂⟩
    rw [FlatFile.run, hstep]
    dsimp only [bind, Option.bind]
    rw [hrun]
    rfl

end FlatFile.Holds

theorem FlatFile.holds_empty : FlatFile.empty.Holds [] := by
  refine ⟨rfl, ?_, nodup_nil⟩
  intro r hr
  exact nomatch hr

/-- In a run whose searches never end at a removed record, and in which the empty key is not removed,
the file replies as a map does. -/
theorem flatfile_replies_as_map (seen : Stream → Bool) (ops : List Op)
    (hsized : ∀ op ∈ ops, op.Sized) (hclean : Book.CleanRun [] ops) :
    ∃ dba, FlatFile.empty.run seen ops = some ((Store.run (fun _ => none) ops).1, dba) ∧
      dba.Holds (Book.run [] ops) ∧
      (Book.run [] ops).lookup = (Store.run (fun _ => none) ops).2 :=
  FlatFile.holds_empty.run seen hsized hclean

/-- A key that is removed and stored again, and another one. -/
theorem flatfile_replies_as_map_twice :
    ∃ dba, FlatFile.empty.run (fun _ => true)
        [.insert [97] [1], .replace [97] [2], .delete [97], .insert [98] [], .fetch [97]] =
      some ([.status true, .status true, .status true, .status true, .value none], dba) := by
  obtain ⟨dba, hrun, -⟩ := flatfile_replies_as_map (fun _ => true)
    [.insert [97] [1], .replace [97] [2], .delete [97], .insert [98] [], .fetch [97]]
    (by
      intro op hop
      simp only [List.mem_cons, not_mem_nil, or_false] at hop
      rcases hop with rfl | rfl | rfl | rfl | rfl <;> simp [Op.Sized])
    (by simp [Book.CleanRun, Book.Clean, Book.KeepsEmpty, Op.key, Book.step, Book.lookup, Book.mark,
      Record.stored])
  exact ⟨dba, hrun⟩

/-- The key `"abc"` has been deleted, and a NUL followed by `"bc"` has never been stored. -/
theorem flatfile_finds_removed_key :
    (FlatFile.empty.run (fun _ => true)
      [.insert [97, 98, 99] [1], .delete [97, 98, 99], .fetch [0, 98, 99]]).map Prod.fst =
        some [.status true, .status true, .value (some [1])] ∧
      (Store.run (fun _ => none)
        [.insert [97, 98, 99] [1], .delete [97, 98, 99], .fetch [0, 98, 99]]).1 =
        [.status true, .status true, .value none] := by
  decide +kernel

end Php53.Dba
