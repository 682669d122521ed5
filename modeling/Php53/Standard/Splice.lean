import Php53.Zend.Hash.Invariant

/-!
# Splice — `array_splice`

An array is the list of its entries, in the order of the table.  The hash that `php_splice` fills
starts empty, so its string keys are those of the input and its integer keys count from 0.  The
arguments are `long`; `php_splice` takes them as `int`, and counts the entries of the array and of
the replacement in an `int`, too: both have less than `2 ^ 31` here.
-/

namespace Php53.Standard

open Zend List

variable {α : Type}

/-- A hash that is being filled. -/
structure OutHash (α : Type) where
  entries : List (HashKey × α)
  nNextFreeElement : BitVec 64

/-- The entries of an array; its keys are different. -/
structure InHash (α : Type) where
  entries : List (HashKey × α)
  nodup : (entries.map Prod.fst).Nodup

namespace OutHash

def init : OutHash α := ⟨[], 0⟩

/-- `zend_hash_next_index_insert`; nobody looks at its failure. -/
def nextIndexInsert (out : OutHash α) (v : α) : OutHash α :=
  let h := out.nNextFreeElement
  if .index h ∈ out.entries.map Prod.fst then out
  else
    { entries := out.entries ++ [(.index h, v)]
      nNextFreeElement := if h.toNat < longMax.toNat then h + 1 else longMax }

def quickUpdate (out : OutHash α) (key : HashKey) (v : α) : OutHash α :=
  if key ∈ out.entries.map Prod.fst then
    { out with entries := out.entries.map fun e => if e.1 = key then (key, v) else e }
  else { out with entries := out.entries ++ [(key, v)] }

/-- `if (p->nKeyLength == 0)` -/
def copyEntry (out : OutHash α) (p : HashKey × α) : OutHash α :=
  match p.1 with
  | .index _ => out.nextIndexInsert p.2
  | .str arKey => out.quickUpdate (.str arKey) p.2

end OutHash

/-- `for ( ; pos < stop && p; pos++, p = p->pListNext)` with a copy of every entry. -/
def copyLoop (stop : Int) : Int → List (HashKey × α) → OutHash α →
    OutHash α × Int × List (HashKey × α)
  | pos, [], out => (out, pos, [])
  | pos, p :: rest, out =>
    if pos < stop then copyLoop stop (pos + 1) rest (out.copyEntry p) else (out, pos, p :: rest)

def skipLoop (stop : Int) : Int → List (HashKey × α) → Int × List (HashKey × α)
  | pos, [] => (pos, [])
  | pos, p :: rest => if pos < stop then skipLoop stop (pos + 1) rest else (pos, p :: rest)

/-- The block `Clamp the offset..`, which `array_splice` has in `long` and `php_splice` in `int`. -/
def clampOffset (numIn offset : Int) : Int :=
  if offset > numIn then numIn
  else if offset < 0 then
    let offset := numIn + offset
    if offset < 0 then 0 else offset
  else offset

/-- `(unsigned)x` -/
def unsigned (x : Int) : Int := x % 2 ^ 32

def phpSplice (inHash : List (HashKey × α)) (offset length : BitVec 32) (list : List α)
    (removed : Option (OutHash α)) : OutHash α × Option (OutHash α) :=
  let numIn : Int := inHash.length
  let offset := clampOffset numIn offset.toInt
  let length :=
    if length.toInt < 0 then numIn - offset + length.toInt
    else if (unsigned offset + unsigned length.toInt) % 2 ^ 32 > unsigned numIn then numIn - offset
    else length.toInt
  let (out, pos, p) := copyLoop offset 0 inHash .init
  let (removed, p) :=
    match removed with
    | some removed =>
      let (removed, _, p) := copyLoop (offset + length) pos p removed
      (some removed, p)
    | none => (none, (skipLoop (offset + length) pos p).2)
  let out := list.foldl OutHash.nextIndexInsert out
  (p.foldl OutHash.copyEntry out, removed)

/-- The new entries of the array and, if the return value is used, the array returned.  Without a
    length there is no replacement. -/
def arraySplice (array : List (HashKey × α)) (offset : BitVec 64) (length : Option (BitVec 64))
    (repl : List α) (returnValueUsed : Bool) :
    List (HashKey × α) × Option (List (HashKey × α)) :=
  let numIn : Int := array.length
  let length := match length with
    | some length => length.toInt
    | none => numIn
  let offset := if returnValueUsed then clampOffset numIn offset.toInt else offset.toInt
  let (newHash, remHash) := phpSplice array (BitVec.ofInt 32 offset) (BitVec.ofInt 32 length) repl
    (if returnValueUsed then some .init else none)
  (newHash.entries, remHash.map OutHash.entries)

/-- String keys are kept, integer keys count from `i`. -/
def renumber : Nat → List (HashKey × α) → List (HashKey × α)
  | _, [] => []
  | i, (.index _, v) :: es => (.index (BitVec.ofNat 64 i), v) :: renumber (i + 1) es
  | i, (.str arKey, v) :: es => (.str arKey, v) :: renumber i es

/-- `x` places from the start or, if negative, from the end of `m` places, cut to these. -/
def clamp (m x : Int) : Int := if x < 0 then max 0 (m + x) else min x m

/-- `count` entries from `start` on are replaced by `repl`. -/
def spliceAt (array : List (HashKey × α)) (start count : Nat) (repl : List α) (used : Bool) :
    List (HashKey × α) × Option (List (HashKey × α)) :=
  (renumber 0 (array.take start ++ repl.map (fun v => (HashKey.index 0, v)) ++
      array.drop (start + count)),
    if used then some (renumber 0 ((array.drop start).take count)) else none)

def spliceStart (n : Nat) (offset : BitVec 64) : Nat := (clamp n offset.toInt).toNat

def spliceCount (n start : Nat) : Option (BitVec 64) → Nat
  | some length => (clamp (n - start : Nat) length.toInt).toNat
  | none => n - start

/-- The specification of `array_splice`, over the mathematical values of its arguments. -/
def spliceSpec (array : List (HashKey × α)) (offset : BitVec 64) (length : Option (BitVec 64))
    (repl : List α) (used : Bool) : List (HashKey × α) × Option (List (HashKey × α)) :=
  let start := spliceStart array.length offset
  spliceAt array start (spliceCount array.length start length) repl used

/-- The integer keys of the hash are below `i`, the next one is `i`. -/
structure OutHash.Counts (out : OutHash α) (i : Nat) : Prop where
  next_eq : out.nNextFreeElement = BitVec.ofNat 64 i
  below : ∀ h, HashKey.index h ∈ out.entries.map Prod.fst → h.toNat < i

theorem OutHash.counts_init : (OutHash.init : OutHash α).Counts 0 :=
  ⟨rfl, fun _ h => nomatch h⟩

variable {out : OutHash α}

theorem OutHash.Counts.nextIndexInsert {i : Nat} (h : out.Counts i) (hi : i < 2 ^ 63 - 1) (v : α) :
    (out.nextIndexInsert v).entries = out.entries ++ [(HashKey.index (BitVec.ofNat 64 i), v)] ∧
      (out.nextIndexInsert v).Counts (i + 1) := by
  have htoNat : (BitVec.ofNat 64 i).toNat = i := by
    rw [BitVec.toNat_ofNat]
    omega
  have hfree : HashKey.index out.nNextFreeElement ∉ out.entries.map Prod.fst := fun hm => by
    have hlt := h.below _ hm
    rw [h.next_eq, htoNat] at hlt
    omega
  unfold OutHash.nextIndexInsert
  dsimp only
  rw [if_neg hfree, h.next_eq, htoNat, longMax_toNat, if_pos hi]
  refine ⟨rfl, ?_, fun k hk => ?_⟩
  · exact (BitVec.ofNat_add i 1).symm
  · rw [map_append, mem_append] at hk
    rcases hk with hk | hk
    · have hlt := h.below k hk
      omega
    · have heq : k = BitVec.ofNat 64 i := by simpa using hk
      rw [heq, htoNat]
      omega

theorem OutHash.Counts.quickUpdate {i : Nat} (h : out.Counts i) {arKey : List UInt8}
    (hnew : HashKey.str arKey ∉ out.entries.map Prod.fst) (v : α) :
    (out.quickUpdate (.str arKey) v).entries = out.entries ++ [(HashKey.str arKey, v)] ∧
      (out.quickUpdate (.str arKey) v).Counts i := by
  unfold OutHash.quickUpdate
  rw [if_neg hnew]
  refine ⟨rfl, h.next_eq, fun k hk => ?_⟩
  rw [map_append, mem_append] at hk
  rcases hk with hk | hk
  · exact h.below k hk
  · simp at hk

theorem OutHash.Counts.foldl_copyEntry {es : List (HashKey × α)} {i : Nat} (h : out.Counts i)
    (hlen : i + es.length < 2 ^ 63)
    (hnew : ∀ s, HashKey.str s ∈ es.map Prod.fst → HashKey.str s ∉ out.entries.map Prod.fst)
    (hdiff : es.Pairwise fun p q => ∀ s, p.1 = .str s → q.1 ≠ .str s) :
    (es.foldl OutHash.copyEntry out).entries = out.entries ++ renumber i es := by
  induction es generalizing out i with
  | nil => exact (List.append_nil _).symm
  | cons p es ih =>
    obtain ⟨hp, hrest⟩ := pairwise_cons.mp hdiff
    rw [length_cons] at hlen
    obtain ⟨key, v⟩ := p
    cases key with
    | index k =>
      obtain ⟨hentries, hcounts⟩ := h.nextIndexInsert (by omega) v
      have hcopy : out.copyEntry (.index k, v) = out.nextIndexInsert v := rfl
      rw [foldl_cons, hcopy, ih hcounts (by omega) ?_ hrest, hentries, renumber,
        append_assoc, singleton_append]
      intro s hs hmem
      rw [hentries, map_append, mem_append] at hmem
      rcases hmem with hmem | hmem
      · exact hnew s (mem_cons_of_mem _ hs) hmem
      · simp at hmem
    | str arKey =>
      have hfree := hnew arKey mem_cons_self
      obtain ⟨hentries, hcounts⟩ := h.quickUpdate hfree v
      have hcopy : out.copyEntry (.str arKey, v) = out.quickUpdate (.str arKey) v := rfl
      rw [foldl_cons, hcopy, ih hcounts (by omega) ?_ hrest, hentries, renumber,
        append_assoc, singleton_append]
      intro s hs hmem
      rw [hentries, map_append, mem_append] at hmem
      rcases hmem with hmem | hmem
      · exact hnew s (mem_cons_of_mem _ hs) hmem
      · have hsk : s = arKey := by simpa using hmem
        obtain ⟨q, hq, hqs⟩ := mem_map.mp hs
        exact hp q hq arKey rfl (hsk ▸ hqs)

theorem copyLoop_eq (stop pos : Int) (l : List (HashKey × α)) (out : OutHash α) :
    copyLoop stop pos l out =
      ((l.take (stop - pos).toNat).foldl OutHash.copyEntry out,
        pos + (min (stop - pos).toNat l.length : Nat), l.drop (stop - pos).toNat) := by
  induction l generalizing pos out with
  | nil => simp [copyLoop]
  | cons p rest ih =>
    rw [copyLoop]
    by_cases hlt : pos < stop
    · have hsucc : (stop - pos).toNat = (stop - (pos + 1)).toNat + 1 := by omega
      rw [if_pos hlt, ih, hsucc, take_succ_cons, drop_succ_cons, foldl_cons,
        length_cons]
      have hpos : pos + 1 + (min (stop - (pos + 1)).toNat rest.length : Nat) =
          pos + (min ((stop - (pos + 1)).toNat + 1) (rest.length + 1) : Nat) := by omega
      rw [hpos]
    · have hzero : (stop - pos).toNat = 0 := by omega
      rw [if_neg hlt, hzero]
      simp

theorem skipLoop_eq (stop pos : Int) (l : List (HashKey × α)) (out : OutHash α) :
    skipLoop stop pos l = (copyLoop stop pos l out).2 := by
  induction l generalizing pos out with
  | nil => rfl
  | cons p rest ih =>
    rw [skipLoop, copyLoop]
    by_cases hlt : pos < stop
    · rw [if_pos hlt, if_pos hlt]
      exact ih _ _
    · rw [if_neg hlt, if_neg hlt]

theorem clampOffset_eq (numIn offset : Int) (hn : 0 ≤ numIn) :
    clampOffset numIn offset = clamp numIn offset := by
  unfold clampOffset clamp
  dsimp only
  split_ifs <;> omega

theorem clamp_range {m : Int} (hm : 0 ≤ m) (x : Int) : 0 ≤ clamp m x ∧ clamp m x ≤ m := by
  unfold clamp
  split_ifs <;> omega

theorem clamp_of_range {m x : Int} (h : 0 ≤ x ∧ x ≤ m) : clamp m x = x := by
  unfold clamp
  split_ifs <;> omega

/-- The conversion of a `long` to `int`. -/
def narrow (x : Int) : Int := (BitVec.ofInt 32 x).toInt

theorem narrow_range (x : Int) : -2 ^ 31 ≤ narrow x ∧ narrow x < 2 ^ 31 := by
  unfold narrow
  have hlo := BitVec.le_toInt (BitVec.ofInt 32 x)
  have hhi := BitVec.toInt_lt (x := BitVec.ofInt 32 x)
  constructor
  · exact hlo
  · exact hhi

theorem narrow_of_range {x : Int} (h : -2 ^ 31 ≤ x ∧ x < 2 ^ 31) : narrow x = x := by
  unfold narrow
  rw [BitVec.toInt_ofInt]
  apply Int.bmod_eq_of_le <;> omega

/-- The `int` stands for the same place among `m` as the `long`: it has the same value, or there is
    one place only, or both are beyond the same end. -/
def Narrowable (m x : Int) : Prop :=
  narrow x = x ∨ m = 0 ∨ (2 ^ 31 ≤ x ∧ m ≤ narrow x) ∨
    (x < -2 ^ 31 ∧ (narrow x = 0 ∨ narrow x ≤ -m))

theorem clamp_narrow_iff {m : Int} (hm : 0 ≤ m ∧ m < 2 ^ 31) (x : Int) :
    clamp m (narrow x) = clamp m x ↔ Narrowable m x := by
  have hr := narrow_range x
  have hfit := @narrow_of_range x
  unfold clamp Narrowable
  by_cases heq : narrow x = x
  · simp [heq]
  · have hout : x < -2 ^ 31 ∨ 2 ^ 31 ≤ x := by omega
    split_ifs <;> omega

def StrDistinct (p q : HashKey × α) : Prop := ∀ s, p.1 = .str s → q.1 ≠ .str s

theorem InHash.pairwise (array : InHash α) : array.entries.Pairwise StrDistinct :=
  (pairwise_map.mp array.nodup).imp fun hne _ hs hs' => hne (hs.trans hs'.symm)

theorem InHash.pairwise_spliced (array : InHash α) (start count : Nat) (repl : List α) :
    (array.entries.take start ++ repl.map (fun v => (HashKey.index 0, v)) ++
      array.entries.drop (start + count)).Pairwise StrDistinct := by
  have hsub : (array.entries.take start ++ array.entries.drop (start + count)).Sublist
      array.entries := by
    have hdrop : (array.entries.drop (start + count)).Sublist (array.entries.drop start) := by
      rw [← drop_drop]
      exact drop_sublist _ _
    have happend := (List.Sublist.refl (array.entries.take start)).append hdrop
    rwa [take_append_drop] at happend
  obtain ⟨htake, hdrop, hcross⟩ := pairwise_append.mp (array.pairwise.sublist hsub)
  have hrepl : ∀ q ∈ repl.map (fun v => (HashKey.index 0, v)), ∀ s, q.1 ≠ HashKey.str s := by
    intro q hq s hs
    obtain ⟨v, -, rfl⟩ := mem_map.mp hq
    exact nomatch hs
  rw [append_assoc]
  refine pairwise_append.mpr ⟨htake, pairwise_append.mpr ⟨?_, hdrop, ?_⟩, ?_⟩
  · exact pairwise_map.mpr (pairwise_of_forall fun v w s hs => nomatch hs)
  · exact fun p hp q hq s hs => (hrepl p hp s hs).elim
  · intro p hp q hq
    rcases mem_append.mp hq with hq | hq
    · exact fun s _ => hrepl q hq s
    · exact hcross p hp q hq

theorem renumber_of_init {es : List (HashKey × α)} (hlen : es.length < 2 ^ 63)
    (hdiff : es.Pairwise StrDistinct) :
    (es.foldl OutHash.copyEntry OutHash.init).entries = renumber 0 es := by
  rw [OutHash.counts_init.foldl_copyEntry (by omega) (fun _ _ hm => nomatch hm) hdiff]
  rfl

theorem phpSplice_eq (array : InHash α) (offset length : BitVec 32) (repl : List α) (used : Bool)
    {n start count : Nat} (hn : array.entries.length = n) (hsize : n < 2 ^ 31)
    (hrepl : repl.length < 2 ^ 31) (hstart : clamp n offset.toInt = start)
    (hcount : clamp (n - start) length.toInt = count) :
    let r := phpSplice array.entries offset length repl (if used then some .init else none)
    (r.1.entries, r.2.map OutHash.entries) = spliceAt array.entries start count repl used := by
  have hrange := clamp_range (by omega : (0 : Int) ≤ n) offset.toInt
  have hcrange := clamp_range (by omega : (0 : Int) ≤ n - start) length.toInt
  have hlo := BitVec.le_toInt length
  have hhi := BitVec.toInt_lt (x := length)
  -- the length behind the clamping is `count`, or negative where nothing is removed
  obtain ⟨len, hlen, hlencount⟩ : ∃ len : Int,
      (if length.toInt < 0 then (n : Int) - start + length.toInt
        else if (unsigned start + unsigned length.toInt) % 2 ^ 32 > unsigned n then
          (n : Int) - start
        else length.toInt) = len ∧ len.toNat = count := by
    refine ⟨_, rfl, ?_⟩
    unfold clamp at hcount
    unfold unsigned
    split_ifs at hcount ⊢ <;> omega
  have hmin : min start n = start := by omega
  have hstop : ((start : Int) + len - start).toNat = count := by omega
  have hzero : ((start : Int) - 0).toNat = start := by omega
  have hpos : (0 : Int) + (min start n : Nat) = start := by omega
  unfold phpSplice
  simp only [hn, clampOffset_eq n offset.toInt (by omega), hstart, hlen, copyLoop_eq, hzero, hpos,
    hstop]
  have hout : (List.foldl OutHash.copyEntry
      (List.foldl OutHash.nextIndexInsert
        (List.foldl OutHash.copyEntry .init (array.entries.take start)) repl)
      (array.entries.drop (start + count))).entries =
      renumber 0 (array.entries.take start ++ repl.map (fun v => (HashKey.index 0, v)) ++
        array.entries.drop (start + count)) := by
    have hlist : List.foldl OutHash.nextIndexInsert
        (List.foldl OutHash.copyEntry .init (array.entries.take start)) repl =
        List.foldl OutHash.copyEntry
          (List.foldl OutHash.copyEntry .init (array.entries.take start))
          (repl.map fun v => (HashKey.index 0, v)) := by
      rw [foldl_map]
      rfl
    rw [hlist, ← foldl_append, ← foldl_append, ← append_assoc]
    refine renumber_of_init ?_ (array.pairwise_spliced start count repl)
    simp only [length_append, length_take, length_map, length_drop]
    omega
  have hremoved : (List.foldl OutHash.copyEntry .init
      ((array.entries.drop start).take count)).entries =
      renumber 0 ((array.entries.drop start).take count) := by
    apply renumber_of_init
    · simp only [length_take, length_drop]
      omega
    · exact array.pairwise.sublist ((take_sublist _ _).trans (drop_sublist _ _))
  unfold spliceAt
  cases used with
  | true => simp [drop_drop, hout, hremoved]
  | false =>
    simp only [Bool.false_eq_true, if_false, skipLoop_eq _ _ _ OutHash.init, copyLoop_eq, hstop,
      drop_drop, hout]
    rfl

def codeStart (n : Nat) (offset : BitVec 64) (used : Bool) : Nat :=
  (clamp n (if used then offset.toInt else narrow offset.toInt)).toNat

def codeCount (n start : Nat) : Option (BitVec 64) → Nat
  | some length => (clamp (n - start : Nat) (narrow length.toInt)).toNat
  | none => n - start

theorem codeStart_le (n : Nat) (offset : BitVec 64) (used : Bool) :
    codeStart n offset used ≤ n := by
  unfold codeStart
  have hrange := clamp_range (by omega : (0 : Int) ≤ n)
    (if used then offset.toInt else narrow offset.toInt)
  omega

theorem arraySplice_eq (array : InHash α) (offset : BitVec 64) (length : Option (BitVec 64))
    (repl : List α) (used : Bool) (hsize : array.entries.length < 2 ^ 31)
    (hrepl : repl.length < 2 ^ 31) :
    arraySplice array.entries offset length repl used =
      spliceAt array.entries (codeStart array.entries.length offset used)
        (codeCount array.entries.length (codeStart array.entries.length offset used) length)
        repl used := by
  have hle := codeStart_le array.entries.length offset used
  have hrange := clamp_range (by omega : (0 : Int) ≤ array.entries.length) offset.toInt
  have hstart : clamp array.entries.length
      (narrow (if used then clampOffset array.entries.length offset.toInt else offset.toInt)) =
      (codeStart array.entries.length offset used : Nat) := by
    have hcrange := clamp_range (by omega : (0 : Int) ≤ array.entries.length) (narrow offset.toInt)
    unfold codeStart
    cases used with
    | true =>
      simp only [if_true]
      rw [clampOffset_eq _ _ (by omega), narrow_of_range (by omega), clamp_of_range hrange]
      omega
    | false =>
      simp only [Bool.false_eq_true, if_false]
      omega
  generalize codeStart array.entries.length offset used = start at hle hstart ⊢
  have hcount : clamp (array.entries.length - start : Int)
      (narrow (match length with | some l => l.toInt | none => (array.entries.length : Int))) =
      (codeCount array.entries.length start length : Nat) := by
    have hcast : (array.entries.length - start : Int) = (array.entries.length - start : Nat) := by
      omega
    rw [hcast]
    cases length with
    | some l =>
      have hl := clamp_range (by omega : (0 : Int) ≤ (array.entries.length - start : Nat))
        (narrow l.toInt)
      show clamp _ (narrow l.toInt) = _
      simp only [codeCount]
      omega
    | none =>
      show clamp _ (narrow array.entries.length) = _
      rw [narrow_of_range (by omega)]
      simp only [codeCount, clamp]
      split_ifs <;> omega
  exact phpSplice_eq array _ _ repl used rfl hsize hrepl hstart hcount

def strKey (e : HashKey × α) : Option (List UInt8) :=
  match e.1 with
  | .index _ => none
  | .str arKey => some arKey

theorem map_strKey_renumber (i : Nat) (es : List (HashKey × α)) :
    (renumber i es).map strKey = es.map strKey := by
  induction es generalizing i with
  | nil => rfl
  | cons e es ih =>
    obtain ⟨key, v⟩ := e
    cases key with
    | index k => rw [renumber, map_cons, map_cons, ih]; rfl
    | str s => rw [renumber, map_cons, map_cons, ih]

/-- An array of `n` entries with string keys. -/
def stringKeyed (n : Nat) (v : α) : InHash α where
  entries := (List.range n).map fun k => (.str (replicate (k + 1) 97), v)
  nodup := by
    rw [List.map_map]
    apply List.Nodup.map _ List.nodup_range
    intro a b hab
    have hlen := congrArg List.length (HashKey.str.inj hab)
    simpa using hlen

theorem length_stringKeyed (n : Nat) (v : α) : (stringKeyed n v).entries.length = n := by
  simp [stringKeyed]

theorem none_not_mem_stringKeyed (n : Nat) (v : α) :
    none ∉ (stringKeyed n v).entries.map strKey := by
  intro hm
  rw [stringKeyed, map_map] at hm
  obtain ⟨k, -, hk⟩ := mem_map.mp hm
  exact nomatch hk

theorem spliceAt_inj {n start count start' count' : Nat} {v : α} {used : Bool}
    (hin : start + count ≤ n) (hin' : start' + count' ≤ n)
    (h : spliceAt (stringKeyed n v).entries start' count' [v] used =
      spliceAt (stringKeyed n v).entries start count [v] used) :
    start' = start ∧ count' = count := by
  have hkeys := congrArg (fun r => r.1.map strKey) h
  have hlen := length_stringKeyed n v
  have hnone := none_not_mem_stringKeyed n v
  simp only [spliceAt, map_strKey_renumber, map_append, map_take, map_drop,
    map_cons, map_nil] at hkeys
  have hmark : strKey (HashKey.index 0, v) = none := rfl
  rw [hmark] at hkeys
  generalize hK : (stringKeyed n v).entries.map strKey = K at hkeys hnone
  have hKlen : K.length = n := by rw [← hK, length_map, hlen]
  have hidx : ∀ k j, k ≤ n → (K.take k ++ [none] ++ K.drop j).idxOf none = k := by
    intro k j hk
    have hout : none ∉ K.take k := fun hm => hnone (mem_of_mem_take hm)
    rw [append_assoc, idxOf_append_of_notMem hout, length_take, hKlen,
      Nat.min_eq_left hk]
    simp
  have hstart := congrArg (idxOf none) hkeys
  rw [hidx start' _ (by omega), hidx start _ (by omega)] at hstart
  have hlength := congrArg List.length hkeys
  simp only [length_append, length_take, length_drop, hKlen] at hlength
  simp only [length_cons, length_nil] at hlength
  constructor <;> omega

/-- The conversion to `int` loses nothing that the splice depends on: neither of the offset, where
    the return value is not used, nor of the length. -/
def SpliceFits (n : Nat) (offset : BitVec 64) (length : Option (BitVec 64)) (used : Bool) : Prop :=
  (used = true ∨ Narrowable n offset.toInt) ∧
    ∀ l ∈ length, Narrowable (n - spliceStart n offset : Nat) l.toInt

theorem codeStart_eq_iff {n : Nat} (hn : n < 2 ^ 31) (offset : BitVec 64) (used : Bool) :
    codeStart n offset used = spliceStart n offset ↔
      used = true ∨ Narrowable n offset.toInt := by
  have hr := clamp_range (by omega : (0 : Int) ≤ n) offset.toInt
  have hr' := clamp_range (by omega : (0 : Int) ≤ n) (narrow offset.toInt)
  rw [← clamp_narrow_iff (by omega)]
  unfold codeStart spliceStart
  cases used with
  | true => simp
  | false =>
    simp only [Bool.false_eq_true, if_false, false_or]
    omega

theorem codeCount_eq_iff {n : Nat} (hn : n < 2 ^ 31) (start : Nat) (length : BitVec 64) :
    codeCount n start (some length) = spliceCount n start (some length) ↔
      Narrowable (n - start : Nat) length.toInt := by
  have hr := clamp_range (by omega : (0 : Int) ≤ (n - start : Nat)) length.toInt
  have hr' := clamp_range (by omega : (0 : Int) ≤ (n - start : Nat)) (narrow length.toInt)
  rw [← clamp_narrow_iff (by omega)]
  simp only [codeCount, spliceCount]
  omega

/-- `array_splice` meets its specification on every array of `n` entries, with every replacement. -/
def MeetsSpec (α : Type) (n : Nat) (offset : BitVec 64) (length : Option (BitVec 64))
    (used : Bool) : Prop :=
  ∀ (array : InHash α) (repl : List α), array.entries.length = n → repl.length < 2 ^ 31 →
    (length = none → repl = []) →
      arraySplice array.entries offset length repl used =
        spliceSpec array.entries offset length repl used

theorem array_splice_meets_iff [Inhabited α] {n : Nat} (hn : n < 2 ^ 31) (offset : BitVec 64)
    (length : Option (BitVec 64)) (used : Bool) :
    MeetsSpec α n offset length used ↔ SpliceFits n offset length used := by
  have hstart_iff := codeStart_eq_iff hn offset used
  have hstart_le : spliceStart n offset ≤ n := by
    have hr := clamp_range (by omega : (0 : Int) ≤ n) offset.toInt
    unfold spliceStart
    omega
  have hcode_le := codeStart_le n offset used
  constructor
  · intro hmeets
    have hlen := length_stringKeyed n (default : α)
    cases length with
    | none =>
      have h := hmeets (stringKeyed n default) [] hlen (by simp) (fun _ => rfl)
      rw [arraySplice_eq _ _ _ _ _ (by omega) (by simp), spliceSpec, hlen] at h
      have hcount := congrArg (fun r => r.1.map strKey) h
      simp only [spliceAt, map_strKey_renumber, map_append] at hcount
      have hlength := congrArg List.length hcount
      simp [codeCount, spliceCount, hlen] at hlength
      refine ⟨hstart_iff.mp (by omega), fun l hl => nomatch hl⟩
    | some l =>
      have h := hmeets (stringKeyed n default) [default] hlen (by simp) (fun h => nomatch h)
      rw [arraySplice_eq _ _ _ _ _ (by omega) (by simp), spliceSpec, hlen] at h
      have hin : ∀ start, start ≤ n → ∀ x, start + (clamp (n - start : Nat) x).toNat ≤ n := by
        intro start hs x
        have hr := clamp_range (by omega : (0 : Int) ≤ (n - start : Nat)) x
        omega
      obtain ⟨hs, hc⟩ := spliceAt_inj (hin _ hstart_le _) (hin _ hcode_le _) h
      refine ⟨hstart_iff.mp hs, fun l' hl' => ?_⟩
      obtain rfl := Option.some.inj hl'
      rw [hs] at hc
      exact (codeCount_eq_iff hn _ _).mp hc
  · rintro ⟨hoffset, hlength⟩ array repl hlen hrepl -
    have hs := hstart_iff.mpr hoffset
    rw [arraySplice_eq _ _ _ _ _ (by omega) hrepl, spliceSpec, hlen, hs]
    cases length with
    | none => rfl
    | some l => rw [(codeCount_eq_iff hn _ _).mpr (hlength l rfl)]

theorem array_splice_meets_iff_huge : MeetsSpec Nat 3 0 (some 4294967299) true := by
  apply (array_splice_meets_iff (by decide) _ _ _).mpr
  refine ⟨Or.inl rfl, fun l hl => ?_⟩
  obtain rfl := Option.some.inj hl
  exact Or.inr (Or.inr (Or.inl (by decide)))

/-- `array_splice($a, 0, 4294967297)` removes the first of three entries. -/
theorem array_splice_narrowed :
    ¬ ∀ (array : InHash Nat) (offset : BitVec 64) (length : Option (BitVec 64)) (repl : List Nat)
        (used : Bool), (length = none → repl = []) →
      arraySplice array.entries offset length repl used =
        spliceSpec array.entries offset length repl used := by
  intro h
  have hbad := h ⟨[(.index 0, 1), (.index 1, 2), (.index 2, 3)], by decide⟩ 0 (some 4294967297) []
    true (fun h => nomatch h)
  exact absurd hbad (by decide)

end Php53.Standard
