import Php53.Reasoning.Narrow
import Php53.Reasoning.Split
import Php53.Standard.StripPieces
import Php53.Streams.Delimiter

/-!
# StrReplace — `php_str_to_str_ex`

A place in a string is its offset.  What the function stores in an `int` is cut to 32 bits.
`replaceAll` is what it should return: it knows nothing of buffers.
-/

namespace Php53.Standard

open Zend (ch)
open Reasoning
open Streams.PhpStream (memnstr memnstr_eq)
open List

variable {buf haystack : List UInt8} {r : Nat}

/-- The new string up to its length, `*_new_length`, and `*replace_count` unless that is `NULL`. -/
structure Replaced where
  newStr : List UInt8
  newLength : Int
  replaceCount : Option Int
  deriving DecidableEq

/-- `*replace_count` behind `n` times `(*replace_count)++`. -/
def counted (replaceCount : Option Int) (n : Nat) : Option Int :=
  replaceCount.map fun count => (count + n : Int).bmod (2 ^ 32)

/-- `memcpy(buf + r, str, str_len)` -/
def memcpyAt (buf : List UInt8) (r : Nat) (str : List UInt8) : List UInt8 :=
  buf.take r ++ (str ++ buf.drop (r + str.length))

/-- The loop for a replacement of equal length: the copy is searched while it is written. -/
def replaceInPlace (needle str : List UInt8) :
    Nat → Nat → List UInt8 → Option Int → List UInt8 × Option Int
  | 0, _, newStr, replaceCount => (newStr, replaceCount)
  | fuel + 1, p, newStr, replaceCount =>
    match memnstr needle (newStr.drop p) with
    | none => (newStr, replaceCount)
    | some i =>
      replaceInPlace needle str fuel (p + i + needle.length) (memcpyAt newStr (p + i) str)
        (counted replaceCount 1)

/-- The same loop with the lower-case copies. -/
def replaceByShadow (haystackDup needleDup str : List UInt8) :
    Nat → Nat → List UInt8 → Option Int → List UInt8 × Option Int
  | 0, _, newStr, replaceCount => (newStr, replaceCount)
  | fuel + 1, p, newStr, replaceCount =>
    match memnstr needleDup (haystackDup.drop p) with
    | none => (newStr, replaceCount)
    | some i =>
      replaceByShadow haystackDup needleDup str fuel (p + i + needleDup.length)
        (memcpyAt newStr (p + i) str) (counted replaceCount 1)

/-- The loop that counts for a longer replacement; `o` is what is left of the haystack. -/
def countNeedles (n : List UInt8) : Nat → List UInt8 → Nat
  | 0, _ => 0
  | fuel + 1, o =>
    match memnstr n o with
    | none => 0
    | some i => countNeedles n fuel (o.drop (i + n.length)) + 1

/-- The loops that copy, and the rest behind them; `e` is what is written so far.  In the
case-sensitive loop the haystack and the needle are their own copies. -/
def replaceAppend (haystack haystackDup needleDup str : List UInt8) :
    Nat → Nat → List UInt8 → Option Int → List UInt8 × Option Int
  | 0, p, e, replaceCount => (e ++ haystack.drop p, replaceCount)
  | fuel + 1, p, e, replaceCount =>
    match memnstr needleDup (haystackDup.drop p) with
    | none => (e ++ haystack.drop p, replaceCount)
    | some i =>
      replaceAppend haystack haystackDup needleDup str fuel (p + i + needleDup.length)
        (e ++ (haystack.drop p).take i ++ str) (counted replaceCount 1)

/-- There is no result where the size of a block, `length + 1` or `*_new_length + 1`, is negative. -/
def phpStrToStrEx (t : Ctype) (haystack needle str : List UInt8) (caseSensitivity : Bool)
    (replaceCount : Option Int) : Option Replaced :=
  let length := haystack.length
  let haystackDup := if caseSensitivity then haystack else haystack.map t.tolower
  let needleDup := if caseSensitivity then needle else needle.map t.tolower
  let nothingTodo : Replaced := { newStr := haystack, newLength := length, replaceCount }
  if needle.length < length then
    if needle.length = str.length then
      let (newStr, replaceCount) :=
        if caseSensitivity then replaceInPlace needle str length 0 haystack replaceCount
        else replaceByShadow haystackDup needleDup str length 0 haystack replaceCount
      some { newStr, newLength := length, replaceCount }
    else if ¬ str.length < needle.length ∧ countNeedles needleDup length haystackDup = 0 then
      some nothingTodo
    else if (length + 1 : Int).bmod (2 ^ 32) < 0 then none
    else
      let (e, replaceCount) :=
        replaceAppend haystack haystackDup needleDup str length 0 [] replaceCount
      let newLength := (e.length : Int).bmod (2 ^ 32)
      if (newLength + 1).bmod (2 ^ 32) < 0 then none
      else some { newStr := e.take newLength.toNat, newLength, replaceCount }
  else if length < needle.length then some nothingTodo
  else if haystackDup ≠ needleDup then some nothingTodo
  else some { newStr := str, newLength := str.length, replaceCount := counted replaceCount 1 }

def caseFold (t : Ctype) (caseSensitivity : Bool) : UInt8 → UInt8 :=
  if caseSensitivity then id else t.tolower

def between (fold : UInt8 → UInt8) (haystack needle : List UInt8) : List (List UInt8) :=
  split fold (needle.map fold) haystack

def replaceAll (fold : UInt8 → UInt8) (haystack needle str : List UInt8) : List UInt8 :=
  List.intercalate str (between fold haystack needle)

def occurrences (fold : UInt8 → UInt8) (haystack needle : List UInt8) : Nat :=
  (between fold haystack needle).length - 1

variable {fold : UInt8 → UInt8} {needle : List UInt8} (str : List UInt8) {replaceCount : Option Int}

theorem search_shadow (haystack : List UInt8) (p : Nat) (hneedle : needle ≠ []) :
    memnstr (needle.map fold) ((haystack.map fold).drop p) =
      search (needle.map fold) ((haystack.drop p).map fold) := by
  have hne : needle.map fold ≠ [] := fun h => hneedle (map_eq_nil_iff.mp h)
  rw [memnstr_eq hne, map_drop]

theorem between_none {p : Nat} (h : search (needle.map fold) ((haystack.drop p).map fold) = none) :
    replaceAll fold (haystack.drop p) needle str = haystack.drop p ∧
      occurrences fold (haystack.drop p) needle = 0 := by
  unfold replaceAll occurrences between
  rw [split_none h]
  exact ⟨intercalate_singleton, rfl⟩

theorem between_some (hneedle : needle ≠ []) {p i : Nat}
    (h : search (needle.map fold) ((haystack.drop p).map fold) = some i) :
    i + needle.length ≤ haystack.length - p ∧
      replaceAll fold (haystack.drop p) needle str = (haystack.drop p).take i ++
        (str ++ replaceAll fold (haystack.drop (p + i + needle.length)) needle str) ∧
      occurrences fold (haystack.drop p) needle =
        occurrences fold (haystack.drop (p + i + needle.length)) needle + 1 := by
  have hne : needle.map fold ≠ [] := fun h => hneedle (map_eq_nil_iff.mp h)
  have hle := search_map_le h
  rw [length_map, length_drop] at hle
  have hsplit : between fold (haystack.drop p) needle = (haystack.drop p).take i ::
      between fold (haystack.drop (p + i + needle.length)) needle := by
    unfold between
    rw [split_some hne h, length_map, drop_drop, Nat.add_assoc]
  have hrest : between fold (haystack.drop (p + i + needle.length)) needle ≠ [] := split_ne_nil
  refine ⟨hle, ?_, ?_⟩
  · unfold replaceAll
    rw [hsplit, intercalate_cons_of_ne_nil hrest, append_assoc]
  · have hpos := length_pos_of_ne_nil hrest
    unfold occurrences
    rw [hsplit, length_cons]
    omega

theorem replaceAll_nil : replaceAll fold [] needle str = [] := rfl

omit str in
theorem occurrences_nil : occurrences fold [] needle = 0 := rfl

/-- The values of an `int`. -/
def IsCount (replaceCount : Option Int) : Prop :=
  ∀ count, replaceCount = some count → -2 ^ 31 ≤ count ∧ count < 2 ^ 31

theorem counted_one (replaceCount : Option Int) (n : Nat) :
    counted (counted replaceCount 1) n = counted replaceCount (n + 1) := by
  cases replaceCount with
  | none => rfl
  | some count =>
    refine congrArg some ?_
    show ((count + (1 : Nat)).bmod (2 ^ 32) + (n : Int)).bmod (2 ^ 32) = _
    rw [Int.bmod_add_bmod]
    congr 1
    omega

theorem isCount_counted (replaceCount : Option Int) (n : Nat) : IsCount (counted replaceCount n) := by
  intro count hcount
  obtain ⟨m, -, rfl⟩ := Option.map_eq_some_iff.mp hcount
  have hlow := @Int.le_bmod (m + n) (2 ^ 32) (by decide)
  have hhigh := @Int.bmod_lt (m + n) (2 ^ 32) (by decide)
  exact ⟨hlow, hhigh⟩

theorem counted_eq_iff (h : IsCount replaceCount) (n : Nat) :
    counted replaceCount n = replaceCount.map (· + (n : Int)) ↔
      ∀ count, replaceCount = some count → count + n < 2 ^ 31 := by
  cases replaceCount with
  | none => exact ⟨by simp, fun _ => rfl⟩
  | some count =>
    have hrange := h count rfl
    have hbound : _ ∧ (count + n : Int).bmod (2 ^ 32) < 2 ^ 31 :=
      isCount_counted (some count) n _ rfl
    constructor
    · intro heq _ hcount
      cases hcount
      have heq : (count + n).bmod (2 ^ 32) = count + n := Option.some.inj heq
      rw [heq] at hbound
      exact hbound.2
    · intro hfits
      have hfits := hfits count rfl
      refine congrArg some (Int.bmod_eq_of_le ?_ ?_)
      · show -((2 ^ 32 : Int) / 2) ≤ count + n
        omega
      · show count + (n : Int) < (2 ^ 32 + 1) / 2
        omega

theorem counted_zero (h : IsCount replaceCount) :
    counted replaceCount 0 = replaceCount := by
  have hfits : ∀ count, replaceCount = some count → count + ((0 : Nat) : Int) < 2 ^ 31 := by
    intro count hcount
    have := (h count hcount).2
    omega
  rw [(counted_eq_iff h 0).mpr hfits]
  cases replaceCount with
  | none => rfl
  | some count => exact congrArg some (Int.add_zero count)

variable {str}

theorem countNeedles_eq (hneedle : needle ≠ []) (haystack : List UInt8) (fuel p : Nat)
    (hfuel : haystack.length ≤ p + fuel) :
    countNeedles (needle.map fold) fuel ((haystack.map fold).drop p) =
      occurrences fold (haystack.drop p) needle := by
  have hpos := length_pos_of_ne_nil hneedle
  induction fuel generalizing p with
  | zero =>
    rw [drop_eq_nil_of_le (by omega : haystack.length ≤ p)]
    rfl
  | succ fuel ih =>
    rw [countNeedles, search_shadow haystack p hneedle]
    cases hs : search (needle.map fold) ((haystack.drop p).map fold) with
    | none => rw [(between_none [] hs).2]
    | some i =>
      have ⟨hle, _, hcount⟩ := between_some [] hneedle hs
      show countNeedles _ fuel (((haystack.map fold).drop p).drop (i + (needle.map fold).length)) + 1 = _
      rw [hcount, drop_drop, length_map, ← Nat.add_assoc, ih _ (by omega)]

theorem replaceAppend_eq (hneedle : needle ≠ []) (haystack : List UInt8) (fuel p : Nat)
    (e : List UInt8) (hcount : IsCount replaceCount) (hfuel : haystack.length ≤ p + fuel) :
    replaceAppend haystack (haystack.map fold) (needle.map fold) str fuel p e replaceCount =
      (e ++ replaceAll fold (haystack.drop p) needle str,
        counted replaceCount (occurrences fold (haystack.drop p) needle)) := by
  have hpos := length_pos_of_ne_nil hneedle
  induction fuel generalizing p e replaceCount with
  | zero =>
    rw [drop_eq_nil_of_le (by omega : haystack.length ≤ p), replaceAppend, replaceAll_nil,
      occurrences_nil, counted_zero hcount, drop_eq_nil_of_le (by omega)]
  | succ fuel ih =>
    rw [replaceAppend, search_shadow haystack p hneedle]
    cases hs : search (needle.map fold) ((haystack.drop p).map fold) with
    | none => rw [(between_none str hs).1, (between_none str hs).2, counted_zero hcount]
    | some i =>
      have ⟨hle, hall, hone⟩ := between_some str hneedle hs
      show replaceAppend _ _ _ _ fuel (p + i + (needle.map fold).length) _ _ = _
      rw [length_map, ih _ _ (isCount_counted _ _) (by omega), counted_one, hall, hone]
      simp only [append_assoc]

theorem drop_memcpyAt (h : r + str.length ≤ buf.length) :
    (memcpyAt buf r str).drop (r + str.length) = buf.drop (r + str.length) := by
  unfold memcpyAt
  have hlen : (buf.take r ++ str).length = r + str.length := by
    rw [length_append, length_take]
    omega
  rw [← append_assoc, drop_left' hlen]

theorem take_memcpyAt (h : r + str.length ≤ buf.length) :
    (memcpyAt buf r str).take (r + str.length) = buf.take r ++ str := by
  unfold memcpyAt
  have hlen : (buf.take r ++ str).length = r + str.length := by
    rw [length_append, length_take]
    omega
  rw [← append_assoc, take_left' hlen]

theorem length_memcpyAt (h : r + str.length ≤ buf.length) :
    (memcpyAt buf r str).length = buf.length := by
  unfold memcpyAt
  simp only [length_append, length_take, length_drop]
  omega

theorem replaceByShadow_eq (hneedle : needle ≠ []) (hlen : needle.length = str.length)
    (haystack : List UInt8) (fuel p : Nat) (newStr : List UInt8) (hcount : IsCount replaceCount)
    (hfuel : haystack.length ≤ p + fuel) (hnew : newStr.length = haystack.length)
    (hrest : newStr.drop p = haystack.drop p) :
    replaceByShadow (haystack.map fold) (needle.map fold) str fuel p newStr replaceCount =
      (newStr.take p ++ replaceAll fold (haystack.drop p) needle str,
        counted replaceCount (occurrences fold (haystack.drop p) needle)) := by
  have hpos := length_pos_of_ne_nil hneedle
  induction fuel generalizing p newStr replaceCount with
  | zero =>
    rw [drop_eq_nil_of_le (by omega : haystack.length ≤ p), replaceByShadow, replaceAll_nil,
      occurrences_nil, counted_zero hcount, List.append_nil, take_of_length_le (by omega)]
  | succ fuel ih =>
    rw [replaceByShadow, search_shadow haystack p hneedle]
    cases hs : search (needle.map fold) ((haystack.drop p).map fold) with
    | none =>
      rw [(between_none str hs).1, (between_none str hs).2, counted_zero hcount, ← hrest,
        take_append_drop]
    | some i =>
      have ⟨hle, hall, hone⟩ := between_some str hneedle hs
      have hroom : p + i + str.length ≤ newStr.length := by omega
      show replaceByShadow _ _ _ fuel (p + i + (needle.map fold).length) _ _ = _
      rw [length_map, ih _ _ (isCount_counted _ _) (by omega) (by rw [length_memcpyAt hroom, hnew]),
        counted_one, hall, hone, hlen, take_memcpyAt hroom]
      · have htake : newStr.take (p + i) = newStr.take p ++ (haystack.drop p).take i := by
          rw [← hrest, take_add]
        rw [htake]
        simp only [append_assoc]
      · rw [hlen, drop_memcpyAt hroom, Nat.add_assoc, ← drop_drop, hrest, drop_drop]

theorem replaceInPlace_eq (hneedle : needle ≠ []) (hlen : needle.length = str.length)
    (haystack : List UInt8) (fuel p : Nat) (newStr : List UInt8) (replaceCount : Option Int)
    (hnew : newStr.length = haystack.length) (hrest : newStr.drop p = haystack.drop p) :
    replaceInPlace needle str fuel p newStr replaceCount =
      replaceByShadow haystack needle str fuel p newStr replaceCount := by
  induction fuel generalizing p newStr replaceCount with
  | zero => rfl
  | succ fuel ih =>
    rw [replaceInPlace, replaceByShadow, hrest]
    cases hs : memnstr needle (haystack.drop p) with
    | none => rfl
    | some i =>
      rw [memnstr_eq hneedle] at hs
      have hle := search_map_le (by rw [map_id]; exact hs : search needle ((haystack.drop p).map id) = some i)
      rw [length_drop] at hle
      have hpos := length_pos_of_ne_nil hneedle
      have hroom : p + i + str.length ≤ newStr.length := by omega
      show replaceInPlace _ _ fuel _ _ _ = replaceByShadow _ _ _ fuel _ _ _
      apply ih
      · rw [length_memcpyAt hroom, hnew]
      · rw [hlen, drop_memcpyAt hroom, Nat.add_assoc, ← drop_drop, hrest, drop_drop]

theorem shadow_eq (t : Ctype) (caseSensitivity : Bool) (s : List UInt8) :
    (if caseSensitivity then s else s.map t.tolower) = s.map (caseFold t caseSensitivity) := by
  unfold caseFold
  cases caseSensitivity with
  | true => exact (map_id s).symm
  | false => rfl

theorem nothing_to_replace (fold : UInt8 → UInt8) (str : List UInt8) (hneedle : needle ≠ [])
    (h : haystack.length < needle.length ∨
      haystack.length = needle.length ∧ haystack.map fold ≠ needle.map fold) :
    replaceAll fold haystack needle str = haystack ∧ occurrences fold haystack needle = 0 := by
  have hne : needle.map fold ≠ [] := fun h => hneedle (map_eq_nil_iff.mp h)
  have hnone : search (needle.map fold) (haystack.map fold) = none := by
    apply search_of_none
    intro i hoccurs
    have hi := hoccurs.lt_length hne
    have hle := hoccurs.length_le (Nat.le_of_lt hi)
    rw [length_map, length_map] at hle
    cases h with
    | inl h => omega
    | inr h =>
      have hzero : i = 0 := by omega
      subst hzero
      have hprefix : needle.map fold <+: haystack.map fold := hoccurs
      have heq := hprefix.eq_of_length (by rw [length_map, length_map, h.1])
      exact h.2 heq.symm
  unfold replaceAll occurrences between
  rw [split_none hnone]
  exact ⟨intercalate_singleton, rfl⟩

theorem all_to_replace (fold : UInt8 → UInt8) (str : List UInt8) (hneedle : needle ≠ [])
    (h : haystack.map fold = needle.map fold) :
    replaceAll fold haystack needle str = str ∧ occurrences fold haystack needle = 1 := by
  have hne : needle.map fold ≠ [] := fun h => hneedle (map_eq_nil_iff.mp h)
  have hlen : haystack.length = needle.length := by
    have hlen := congrArg List.length h
    rwa [length_map, length_map] at hlen
  have hsearch : search (needle.map fold) (haystack.map fold) = some 0 := by
    apply search_of_first hne
    · rw [h]
      exact prefix_refl _
    · intro j hj
      exact absurd hj (Nat.not_lt_zero j)
  have hbetween : between fold haystack needle = [[], []] := by
    unfold between
    rw [split_some hne hsearch, length_map, Nat.zero_add, drop_eq_nil_of_le (by omega)]
    rfl
  unfold replaceAll occurrences
  rw [hbetween]
  exact ⟨by simp, rfl⟩

theorem length_replaceAll (fold : UInt8 → UInt8) (haystack needle str : List UInt8) :
    (replaceAll fold haystack needle str).length +
        occurrences fold haystack needle * needle.length =
      haystack.length + occurrences fold haystack needle * str.length := by
  unfold replaceAll occurrences between
  have hcut := length_intercalate_split fold (needle.map fold) haystack str
  rwa [length_map] at hcut

theorem replaceAll_of_none (h : occurrences fold haystack needle = 0) :
    replaceAll fold haystack needle str = haystack := by
  unfold occurrences between split at h
  unfold replaceAll between split
  cases hs : search (needle.map fold) (haystack.map fold) with
  | none =>
    rw [splitN_none hs]
    exact intercalate_singleton
  | some i =>
    cases haystack with
    | nil => exact nomatch hs
    | cons c haystack =>
      rw [length_cons, splitN_succ_some hs, length_cons] at h
      have hne : splitN fold (needle.map fold) haystack.length
          ((c :: haystack).drop (i + (needle.map fold).length)) ≠ [] := splitN_ne_nil
      have hpos := length_pos_of_ne_nil hne
      omega

/-- The lengths and the count that the function computes are below `2 ^ 31`. -/
structure IntsFit (fold : UInt8 → UInt8) (haystack needle str : List UInt8)
    (replaceCount : Option Int) : Prop where
  count : ∀ count, replaceCount = some count →
    count + (occurrences fold haystack needle : Int) < 2 ^ 31
  /-- Where the haystack is copied piece by piece, its NUL and that of the result are counted. -/
  copied : needle.length < haystack.length → needle.length ≠ str.length →
    (str.length < needle.length ∨ occurrences fold haystack needle ≠ 0) →
      haystack.length + 1 < 2 ^ 31 ∧ haystack.length + occurrences fold haystack needle * str.length + 1 <
        2 ^ 31 + occurrences fold haystack needle * needle.length

/-- What is copied is returned as it is, or cut, or not at all. -/
theorem copied_eq_iff (replaceCount expected : Option Int) (e : List UInt8) :
    ((if ((e.length : Int).bmod (2 ^ 32) + 1).bmod (2 ^ 32) < 0 then none
      else some (Replaced.mk (e.take ((e.length : Int).bmod (2 ^ 32)).toNat)
        ((e.length : Int).bmod (2 ^ 32)) replaceCount)) = some ⟨e, e.length, expected⟩) ↔
      e.length + 1 < 2 ^ 31 ∧ replaceCount = expected := by
  constructor
  · intro heq
    split at heq
    · cases heq
    · next hsize =>
      have hrest := Replaced.mk.inj (Option.some.inj heq)
      have hbound := @Int.bmod_lt (e.length : Int) (2 ^ 32) (by decide)
      rw [hrest.2.1] at hsize hbound
      have hlt : (e.length : Int) < 2 ^ 31 := hbound
      refine ⟨?_, hrest.2.2⟩
      by_contra hlarge
      exact hsize (narrow_neg (n := e.length + 1) (by omega) (by omega))
  · rintro ⟨hlt, rfl⟩
    have hsize : (e.length + 1 : Int).bmod (2 ^ 32) = (e.length + 1 : Nat) := narrow_of_lt hlt
    rw [narrow_of_lt (by omega), hsize, if_neg (by omega), Int.toNat_natCast, take_length]

/-- The haystack with its occurrences replaced is returned with its length, and their number is
added to the count. -/
def ReplacesAll (t : Ctype) (haystack needle str : List UInt8) (caseSensitivity : Bool)
    (replaceCount : Option Int) : Prop :=
  phpStrToStrEx t haystack needle str caseSensitivity replaceCount = some
    { newStr := replaceAll (caseFold t caseSensitivity) haystack needle str
      newLength := (replaceAll (caseFold t caseSensitivity) haystack needle str).length
      replaceCount := replaceCount.map
        (· + (occurrences (caseFold t caseSensitivity) haystack needle : Int)) }

section Paths

variable {haystack : List UInt8} (hneedle : needle ≠ []) (hcount : IsCount replaceCount)

/-- The result with another count. -/
def allReplaced (fold : UInt8 → UInt8) (haystack needle str : List UInt8) (replaceCount : Option Int) :
    Replaced where
  newStr := replaceAll fold haystack needle str
  newLength := (replaceAll fold haystack needle str).length
  replaceCount

include hcount

/-- Where nothing is copied piece by piece, only the count can overflow. -/
theorem allReplaced_iff (hnot : needle.length < haystack.length → needle.length ≠ str.length →
      ¬ (str.length < needle.length ∨ occurrences fold haystack needle ≠ 0)) :
    some (allReplaced fold haystack needle str
        (counted replaceCount (occurrences fold haystack needle))) =
      some (allReplaced fold haystack needle str
        (replaceCount.map (· + (occurrences fold haystack needle : Int)))) ↔
      IntsFit fold haystack needle str replaceCount := by
  have hcounted := counted_eq_iff hcount (occurrences fold haystack needle)
  constructor
  · intro heq
    exact ⟨hcounted.mp (Replaced.mk.inj (Option.some.inj heq)).2.2,
      fun hshort hdiffer hcopied => absurd hcopied (hnot hshort hdiffer)⟩
  · intro hfits
    rw [hcounted.mpr hfits.count]

theorem nothingTodo_eq (hall : replaceAll fold haystack needle str = haystack)
    (hnone : occurrences fold haystack needle = 0) :
    Replaced.mk haystack haystack.length replaceCount = allReplaced fold haystack needle str
      (counted replaceCount (occurrences fold haystack needle)) := by
  rw [allReplaced, hall, hnone, counted_zero hcount]

include hneedle

theorem sameLength_eq (hfold : caseFold t caseSensitivity = fold)
    (hsame : needle.length = str.length) :
    (if caseSensitivity then replaceInPlace needle str haystack.length 0 haystack replaceCount
      else replaceByShadow (haystack.map fold) (needle.map fold) str haystack.length 0 haystack
        replaceCount) =
      (replaceAll fold haystack needle str,
        counted replaceCount (occurrences fold haystack needle)) := by
  have hshadow : replaceByShadow (haystack.map fold) (needle.map fold) str haystack.length 0
      haystack replaceCount = (replaceAll fold haystack needle str,
        counted replaceCount (occurrences fold haystack needle)) :=
    replaceByShadow_eq hneedle hsame haystack haystack.length 0 haystack hcount (by omega) rfl rfl
  cases caseSensitivity with
  | true =>
    have hid : fold = id := hfold.symm
    rw [hid] at hshadow ⊢
    rw [List.map_id, List.map_id] at hshadow
    rw [if_pos rfl, replaceInPlace_eq hneedle hsame haystack _ 0 haystack _ rfl rfl]
    exact hshadow
  | false => exact hshadow

theorem copied_iff (hlength : haystack.length < 2 ^ 31) (hshort : needle.length < haystack.length)
    (hdiffer : needle.length ≠ str.length)
    (hcopied : str.length < needle.length ∨ occurrences fold haystack needle ≠ 0) :
    (if (haystack.length + 1 : Int).bmod (2 ^ 32) < 0 then none
      else
        let (e, replaceCount) := replaceAppend haystack (haystack.map fold) (needle.map fold) str
          haystack.length 0 [] replaceCount
        let newLength := (e.length : Int).bmod (2 ^ 32)
        if (newLength + 1).bmod (2 ^ 32) < 0 then none
        else some { newStr := e.take newLength.toNat, newLength, replaceCount }) =
      some (allReplaced fold haystack needle str
        (replaceCount.map (· + (occurrences fold haystack needle : Int)))) ↔
      IntsFit fold haystack needle str replaceCount := by
  have hlen := length_replaceAll fold haystack needle str
  rw [replaceAppend_eq hneedle haystack haystack.length 0 [] hcount (by omega), drop_zero, nil_append]
  by_cases hroom : haystack.length + 1 < 2 ^ 31
  · have hsize : (haystack.length + 1 : Int).bmod (2 ^ 32) = (haystack.length + 1 : Nat) :=
      narrow_of_lt hroom
    rw [hsize, if_neg (by omega)]
    refine (copied_eq_iff _ _ _).trans ?_
    rw [counted_eq_iff hcount]
    constructor
    · rintro ⟨hlt, hfits⟩
      exact ⟨hfits, fun _ _ _ => ⟨hroom, by omega⟩⟩
    · intro hfits
      have hlt := (hfits.copied hshort hdiffer hcopied).2
      exact ⟨by omega, hfits.count⟩
  · have hneg : (haystack.length + 1 : Int).bmod (2 ^ 32) < 0 :=
      narrow_neg (n := haystack.length + 1) (by omega) (by omega)
    rw [if_pos hneg]
    constructor
    · intro heq
      cases heq
    · intro hfits
      exact absurd (hfits.copied hshort hdiffer hcopied).1 hroom

end Paths

theorem replacesAll_iff (t : Ctype) (haystack needle str : List UInt8) (caseSensitivity : Bool)
    (hneedle : needle ≠ []) (hlength : haystack.length < 2 ^ 31) (hcount : IsCount replaceCount) :
    ReplacesAll t haystack needle str caseSensitivity replaceCount ↔
      IntsFit (caseFold t caseSensitivity) haystack needle str replaceCount := by
  unfold ReplacesAll phpStrToStrEx
  simp only [shadow_eq]
  generalize hfold : caseFold t caseSensitivity = fold
  by_cases hshort : needle.length < haystack.length
  · rw [if_pos hshort]
    by_cases hsame : needle.length = str.length
    · have hlen := length_replaceAll fold haystack needle str
      rw [hsame] at hlen
      have hkept : haystack.length = (replaceAll fold haystack needle str).length := by omega
      rw [if_pos hsame, sameLength_eq hneedle hcount hfold hsame]
      show some (Replaced.mk _ (haystack.length : Int) _) = _ ↔ _
      rw [hkept]
      exact allReplaced_iff hcount fun _ hdiffer => absurd hsame hdiffer
    · have hneedles : countNeedles (needle.map fold) haystack.length (haystack.map fold) =
          occurrences fold haystack needle :=
        countNeedles_eq hneedle haystack haystack.length 0 (by omega)
      rw [if_neg hsame, hneedles]
      by_cases hnone : ¬ str.length < needle.length ∧ occurrences fold haystack needle = 0
      · rw [if_pos hnone, nothingTodo_eq hcount (replaceAll_of_none hnone.2) hnone.2]
        exact allReplaced_iff hcount fun _ _ hcopied => hcopied.elim hnone.1 (absurd hnone.2)
      · rw [if_neg hnone]
        rw [not_and_or, not_not] at hnone
        exact copied_iff hneedle hcount hlength hshort hsame hnone
  · rw [if_neg hshort]
    have hnot : needle.length < haystack.length → needle.length ≠ str.length →
        ¬ (str.length < needle.length ∨ occurrences fold haystack needle ≠ 0) :=
      fun h => absurd h hshort
    have hplain := allReplaced_iff hcount hnot
    by_cases hlong : haystack.length < needle.length
    · have hkept := nothing_to_replace fold str hneedle (Or.inl hlong)
      rw [if_pos hlong, nothingTodo_eq hcount hkept.1 hkept.2]
      exact hplain
    · rw [if_neg hlong]
      by_cases hdiffer : haystack.map fold ≠ needle.map fold
      · have hkept := nothing_to_replace fold str hneedle (Or.inr ⟨by omega, hdiffer⟩)
        rw [if_pos hdiffer, nothingTodo_eq hcount hkept.1 hkept.2]
        exact hplain
      · have hall := all_to_replace fold str hneedle (not_not.mp hdiffer)
        rw [allReplaced, allReplaced, hall.1, hall.2] at hplain
        rw [if_neg hdiffer, hall.1, hall.2]
        exact hplain

/-- Every path returns what it should exactly where the `int` variables can hold the lengths and the
count. -/
theorem phpStrToStrEx_eq_iff (t : Ctype) (haystack needle str : List UInt8) (caseSensitivity : Bool)
    (replaceCount : Option Int) (hneedle : needle ≠ []) (hlength : haystack.length < 2 ^ 31)
    (hcount : IsCount replaceCount) :
    ReplacesAll t haystack needle str caseSensitivity replaceCount ↔
      IntsFit (caseFold t caseSensitivity) haystack needle str replaceCount :=
  replacesAll_iff t haystack needle str caseSensitivity hneedle hlength hcount

/-- Another case, and a needle that overlaps itself. -/
theorem phpStrToStrEx_eq_iff_sample :
    ReplacesAll .c ("aAaxAA".toList.map ch) ("aa".toList.map ch) ("bcd".toList.map ch) false (some 2) :=
  (phpStrToStrEx_eq_iff .c _ _ _ false (some 2) (by decide) (by decide)
    (fun count h => by cases h; decide)).mpr
      ⟨fun count h => by cases h; decide +kernel, fun _ _ _ => by decide +kernel⟩

example : phpStrToStrEx .c ("aAaxAA".toList.map ch) ("aa".toList.map ch) ("bcd".toList.map ch) false
    (some 2) = some ⟨"bcdaxbcd".toList.map ch, 8, some 4⟩ := by decide +kernel

theorem occurrences_replicate (c : UInt8) (n : Nat) : occurrences id (replicate n c) [c] = n := by
  induction n with
  | zero => rfl
  | succ n ih =>
    have hsearch : search ([c].map id) (((replicate (n + 1) c).drop 0).map id) = some 0 := by
      rw [map_id, map_id, drop_zero]
      apply search_of_first (cons_ne_nil _ _)
      · exact ⟨replicate n c, rfl⟩
      · exact fun j hj => absurd hj (Nat.not_lt_zero j)
    have hone := (between_some [] (cons_ne_nil c []) hsearch).2.2
    rw [drop_zero] at hone
    rw [hone]
    exact congrArg (· + 1) ih

/-- 65536 times `a`, each replaced by 65536 times `b`: the length is cut to 0. -/
theorem phpStrToStrEx_cut :
    ¬ ReplacesAll .c (replicate 65536 97) [97] (replicate 65536 98) true (some 0) := by
  rw [replacesAll_iff .c _ _ _ true (cons_ne_nil _ _) (by rw [length_replicate]; decide)
    (fun count h => by cases h; decide)]
  intro hfits
  have hocc : occurrences (caseFold .c true) (replicate 65536 97) [97] = 65536 :=
    occurrences_replicate 97 65536
  have hcopied := (hfits.copied (by rw [length_replicate]; decide) (by rw [length_replicate]; decide)
    (.inr (by rw [hocc]; decide))).2
  rw [hocc, length_replicate, length_replicate] at hcopied
  exact absurd hcopied (by decide)

end Php53.Standard
