import Php53.Reasoning.Scan
import Php53.Zend.Decimal
import Php53.Zend.Hash.Operations

/-!
# Symtable — string keys that stand for integers

The `zend_symtable_*` functions of `zend_hash.h` hand a key to the integer functions of the table
when `ZEND_HANDLE_NUMERIC` takes it for one.  `zendHandleNumeric` is the macro on a NUL-terminated
key, with offsets for its pointers; `handleNumeric` says what it does on the bytes before the NUL.
-/

open Reasoning

namespace Php53.Zend

open List

variable {arKey s : List UInt8} {α : Type}

def maxLengthOfLong : Nat := 20

/-- `while (++tmp != end && *tmp >= '0' && *tmp <= '9') idx = (idx * 10) + (*tmp - '0');` -/
def numericLoop (key : List UInt8) (stop : Nat) : Nat → Nat → BitVec 64 → BitVec 64 × Nat
  | 0, tmp, idx => (idx, tmp)
  | fuel + 1, tmp, idx =>
    if tmp + 1 ≠ stop ∧ isDigit (byteAt key (tmp + 1)) then
      numericLoop key stop fuel (tmp + 1)
        (idx * 10 + BitVec.ofNat 64 ((byteAt key (tmp + 1)).toNat - 48))
    else (idx, tmp + 1)

/-- `ZEND_HANDLE_NUMERIC(key, length, func)`: the index passed to `func`, if it is called.  The test
for words of 32 bits is left out. -/
def zendHandleNumeric (key : List UInt8) (length : Nat) : Option (BitVec 64) :=
  let tmp := if byteAt key 0 = ch '-' then 1 else 0
  let stop := length - 1
  if isDigit (byteAt key tmp) then
    if byteAt key stop ≠ 0 ∨ (byteAt key tmp = ch '0' ∧ length > 2) ∨
        stop - tmp > maxLengthOfLong - 1 then none
    else
      let (idx, tmp') := numericLoop key stop length tmp
        (BitVec.ofNat 64 ((byteAt key tmp).toNat - 48))
      if tmp' = stop then
        if byteAt key 0 = ch '-' then
          if (idx - 1).toNat > longMax.toNat then none else some (0 - idx)
        else if idx.toNat > longMax.toNat then none
        else some idx
      else none
  else none

/-- `ZEND_HANDLE_NUMERIC`: the integer key that a string key stands for. -/
def handleNumeric (key : List UInt8) : Option (BitVec 64) :=
  let neg := key.head? = some (ch '-')
  let tmp := if neg then key.tail else key
  match tmp with
  | [] => none
  | c :: _ =>
    if isDigit c = false then none
    else if (c = ch '0' ∧ key.length > 1) ∨ tmp.length > 19 then none
    else if tmp.all isDigit = false then none
    else
      let idx := digitsValue tmp
      if neg then if (idx - 1).toNat > longMax.toNat then none else some (-idx)
      else if idx.toNat > longMax.toNat then none else some idx

/-- The key of `zend_symtable_update`. -/
def symtableKey (key : List UInt8) : HashKey :=
  match handleNumeric key with
  | some h => .index h
  | none => .str key

theorem numericLoop_spec {key digits : List UInt8} {stop tmp : Nat}
    (hkey : key.drop (tmp + 1) = digits ++ [0]) (hstop : stop = tmp + 1 + digits.length)
    {fuel : Nat} (hfuel : digits.length < fuel) (idx : BitVec 64) :
    (digits.all isDigit = true → numericLoop key stop fuel tmp idx =
      (digits.foldl (fun result c => result * 10 + BitVec.ofNat 64 (c.toNat - 48)) idx, stop)) ∧
    (digits.all isDigit = false → (numericLoop key stop fuel tmp idx).2 ≠ stop) := by
  induction digits generalizing tmp fuel idx with
  | nil =>
    obtain ⟨fuel, rfl⟩ : ∃ f, fuel = f + 1 := Nat.exists_eq_add_one.mpr hfuel
    have hend : tmp + 1 = stop := hstop.symm
    refine ⟨fun _ => ?_, fun he => absurd he.symm Bool.false_ne_true⟩
    rw [numericLoop, if_neg (fun h => h.1 hend), hend]
    rfl
  | cons c digits ih =>
    obtain ⟨fuel, rfl⟩ : ∃ f, fuel = f + 1 := Nat.exists_eq_add_one.mpr (by omega)
    have hbyte : byteAt key (tmp + 1) = c := by
      rw [byteAt, List.getD_eq_getElem?_getD, ← List.head?_drop, hkey]
      rfl
    have htail : key.drop (tmp + 1 + 1) = digits ++ [0] := by
      rw [← tail_drop, hkey]
      rfl
    rw [length_cons] at hstop hfuel
    have hne : tmp + 1 ≠ stop := by omega
    rw [numericLoop, hbyte, all_cons]
    cases hc : isDigit c with
    | true =>
      rw [if_pos ⟨hne, rfl⟩, Bool.true_and]
      exact ih htail (by omega) (by omega) _
    | false =>
      rw [if_neg (fun h => Bool.false_ne_true h.2), Bool.false_and]
      exact ⟨fun he => absurd he Bool.false_ne_true, fun _ => hne⟩

theorem zendHandleNumeric_tail {digits : List UInt8} {c : UInt8} {tmp : Nat}
    (htmp : tmp = if byteAt (s ++ [0]) 0 = ch '-' then 1 else 0) (hs : s.drop tmp = c :: digits) :
    zendHandleNumeric (s ++ [0]) (s.length + 1) =
      if isDigit c = false then none
      else if (c = ch '0' ∧ s.length > 1) ∨ (c :: digits).length > 19 then none
      else if (c :: digits).all isDigit = false then none
      else if byteAt (s ++ [0]) 0 = ch '-' then
        if (digitsValue (c :: digits) - 1).toNat > longMax.toNat then none
        else some (-digitsValue (c :: digits))
      else if (digitsValue (c :: digits)).toNat > longMax.toNat then none
      else some (digitsValue (c :: digits)) := by
  have hlen : s.length = tmp + 1 + digits.length := by
    have hle : tmp < s.length := by
      by_contra hge
      rw [drop_eq_nil_of_le (by omega)] at hs
      exact nomatch hs
    have := congrArg List.length hs
    rw [length_drop, length_cons] at this
    omega
  have hdrop : (s ++ [0]).drop tmp = c :: (digits ++ [0]) := by
    rw [drop_append_of_le_length (by omega), hs]
    rfl
  have hbyte : byteAt (s ++ [0]) tmp = c := by
    rw [byteAt, List.getD_eq_getElem?_getD, ← List.head?_drop, hdrop]
    rfl
  have hend : byteAt (s ++ [0]) s.length = 0 := by
    rw [byteAt, List.getD_eq_getElem?_getD, List.getElem?_append_right (Nat.le_refl _),
      Nat.sub_self]
    rfl
  have htail : (s ++ [0]).drop (tmp + 1) = digits ++ [0] := by
    rw [← tail_drop, hdrop]
    rfl
  have hloop := numericLoop_spec htail hlen (by omega : digits.length < s.length + 1)
    (BitVec.ofNat 64 (c.toNat - 48))
  have hfirst : digits.foldl (fun result c => result * 10 + BitVec.ofNat 64 (c.toNat - 48))
      (BitVec.ofNat 64 (c.toNat - 48)) = digitsValue (c :: digits) := by
    have hzero : (0 : BitVec 64) * 10 = 0 := rfl
    rw [digitsValue, foldl_cons, hzero]
    congr 1
    exact (BitVec.zero_add _).symm
  rw [hfirst] at hloop
  have hshort : s.length - tmp > maxLengthOfLong - 1 ↔ (c :: digits).length > 19 := by
    rw [length_cons, maxLengthOfLong]
    omega
  have hlead : s.length + 1 > 2 ↔ s.length > 1 := by omega
  rw [zendHandleNumeric]
  simp only [← htmp, hbyte, Nat.add_sub_cancel, hend, ne_eq, not_true_eq_false, false_or, hshort,
    hlead]
  cases hc : isDigit c with
  | false => rfl
  | true =>
    rw [if_pos rfl, if_neg (Bool.false_ne_true ∘ Eq.symm), all_cons, hc, Bool.true_and]
    by_cases hlong : (c = ch '0' ∧ s.length > 1) ∨ (c :: digits).length > 19
    · rw [if_pos hlong, if_pos hlong]
    rw [if_neg hlong, if_neg hlong]
    cases hall : digits.all isDigit with
    | true =>
      have hminus : 0 - digitsValue (c :: digits) = -digitsValue (c :: digits) := BitVec.zero_sub _
      rw [hloop.1 hall, if_neg (Bool.false_ne_true ∘ Eq.symm)]
      dsimp only
      rw [if_pos rfl, hminus]
    | false =>
      rw [if_pos rfl]
      exact if_neg (hloop.2 hall)

theorem zendHandleNumeric_eq (s : List UInt8) :
    zendHandleNumeric (s ++ [0]) (s.length + 1) = handleNumeric s := by
  cases s with
  | nil => rfl
  | cons x t =>
    by_cases hx : x = ch '-'
    · subst hx
      cases t with
      | nil => rfl
      | cons c digits =>
        rw [zendHandleNumeric_tail (if_pos rfl).symm rfl]
        rfl
    · have hhead : ¬ byteAt (x :: t ++ [0]) 0 = ch '-' := hx
      have hneg : (x :: t).head? ≠ some (ch '-') := fun h => hx (Option.some.inj h)
      rw [zendHandleNumeric_tail (if_neg hhead).symm rfl, handleNumeric]
      simp only [hneg, hhead, if_false]

theorem toInt_neg_of_le {n : Nat} (hlt : n < 2 ^ 64)
    (hle : ¬ (BitVec.ofNat 64 n - 1).toNat > longMax.toNat) :
    (-BitVec.ofNat 64 n).toInt = -n ∧ n ≠ 0 := by
  have hone : (1 : BitVec 64).toNat = 1 := rfl
  rw [longMax_toNat, BitVec.toNat_sub, BitVec.toNat_ofNat, hone] at hle
  rw [BitVec.toInt_eq_toNat_cond, BitVec.toNat_neg, BitVec.toNat_ofNat]
  split <;> omega

theorem not_overflow {l : BitVec 64} (h : l.toInt < 0) :
    ¬ (BitVec.ofNat 64 l.toInt.natAbs - 1).toNat > longMax.toNat := by
  have hone : (1 : BitVec 64).toNat = 1 := rfl
  have := BitVec.le_toInt (x := l)
  rw [longMax_toNat, BitVec.toNat_sub, BitVec.toNat_ofNat, hone]
  omega

theorem eq_printLong_of_handleNumeric {key : List UInt8} {h : BitVec 64}
    (hkey : handleNumeric key = some h) : key = printLong h := by
  unfold handleNumeric at hkey
  dsimp only at hkey
  generalize htmp : (if key.head? = some (ch '-') then key.tail else key) = tmp at hkey
  cases tmp with
  | nil => exact nomatch hkey
  | cons c digits =>
    dsimp only at hkey
    split_ifs at hkey with hfirst hzero hall hneg hbig hbig
    all_goals
      obtain rfl := Option.some.inj hkey
      rw [not_or, Nat.not_lt] at hzero
      have hdigit : ∀ x ∈ c :: digits, isDigit x = true := by
        simpa using hall
      have hlt := digitsNat_lt hdigit
      have hpow : 10 ^ (c :: digits).length ≤ 10 ^ 19 := Nat.pow_le_pow_right (by decide) hzero.2
      rw [digitsValue_eq] at hbig ⊢
    · -- a sign, and a number of at most `2 ^ 63`
      rw [if_pos hneg] at htmp
      obtain ⟨tail, rfl⟩ : ∃ tail, key = ch '-' :: tail := by
        cases key with
        | nil => exact nomatch hneg
        | cons x tail => exact ⟨tail, by rw [Option.some.inj hneg]⟩
      obtain rfl : tail = c :: digits := htmp
      have hc : c ≠ ch '0' := fun hc => hzero.1 ⟨hc, by simp⟩
      have hint : (-BitVec.ofNat 64 (digitsNat (c :: digits))).toInt = -digitsNat (c :: digits) ∧
          digitsNat (c :: digits) ≠ 0 := by
        exact toInt_neg_of_le (by omega) hbig
      rw [printLong_eq, if_pos (by omega), printLong_of_digits hdigit (cons_ne_nil _ _) ?_
        (by omega) (by omega)]
      exact fun _ h => hc (Option.some.inj h)
    · rw [if_neg hneg] at htmp
      subst htmp
      have hint : (BitVec.ofNat 64 (digitsNat (c :: digits))).toInt = digitsNat (c :: digits) := by
        rw [longMax_toNat, BitVec.toNat_ofNat] at hbig
        rw [BitVec.toInt_ofNat', Int.bmod_eq_of_le (by omega) (by omega)]
      rw [printLong_eq, if_neg (by omega), printLong_of_digits hdigit (cons_ne_nil _ _) ?_
        (by omega) (by omega)]
      exact fun hlen h => hzero.1 ⟨Option.some.inj h, hlen⟩


theorem handleNumeric_printLong (l : BitVec 64) : handleNumeric (printLong l) = some l := by
  obtain ⟨c, digits, hdigits⟩ : ∃ c digits, longDigits l = c :: digits := by
    cases h : longDigits l with
    | nil => exact absurd h (longDigits_ne_nil l)
    | cons c digits => exact ⟨c, digits, rfl⟩
  have hdigit : ∀ x ∈ c :: digits, isDigit x = true := fun x hx =>
    isDigit_of_mem_longDigits (hdigits ▸ hx)
  have hc : isDigit c = true := hdigit c (mem_cons_self ..)
  have hvalue := digitsValue_longDigits l
  have hlen : (c :: digits).length ≤ 19 := by
    rw [← hdigits, longDigits, length_reverse]
    have := BitVec.toInt_lt (x := l)
    have := BitVec.le_toInt (x := l)
    exact length_reversedDigits_le (k := 18) (by omega)
  have hhead : l.toInt ≠ 0 → c ≠ ch '0' := by
    rintro hl rfl
    refine head_reversedDigits (by omega) (natAbs_lt l) ?_
    change (longDigits l).head? = _
    rw [hdigits]
    rfl
  have hall : (c :: digits).all isDigit = true := all_eq_true.mpr hdigit
  have hmin := BitVec.le_toInt (x := l)
  have hmax := BitVec.toInt_lt (x := l)
  rw [hdigits] at hvalue
  rw [printLong_eq, hdigits]
  by_cases hneg : l.toInt < 0
  · have hidx : -BitVec.ofNat 64 l.toInt.natAbs = l := by
      apply BitVec.eq_of_toInt_eq
      rw [(toInt_neg_of_le (by omega) (not_overflow hneg)).1]
      omega
    rw [if_pos hneg, handleNumeric]
    simp only [List.head?_cons, tail_cons, if_true, hc, hall, hvalue, hidx]
    rw [if_neg (by decide), if_neg, if_neg (by decide), if_neg (not_overflow hneg)]
    rintro (h | h)
    · exact hhead (by omega) h.1
    · omega
  · have hidx : BitVec.ofNat 64 l.toInt.natAbs = l := by
      apply BitVec.eq_of_toInt_eq
      rw [BitVec.toInt_ofNat', Int.bmod_eq_of_le (by omega) (by omega)]
      omega
    have hminus : (c :: digits).head? ≠ some (ch '-') := by
      rw [List.head?_cons]
      rintro h
      rw [Option.some.inj h] at hc
      exact absurd hc (by decide)
    rw [if_neg hneg, handleNumeric]
    simp only [hminus, if_false, hc, hall, hvalue, hidx]
    rw [if_neg (by decide), if_neg, if_neg (by decide), if_neg]
    · rw [← hidx, longMax_toNat, BitVec.toNat_ofNat]
      omega
    · rintro (h | h)
      · by_cases hl : l.toInt = 0
        · have hzero : longDigits l = [ch '0'] := by
            rw [longDigits, hl]
            rfl
          rw [← hdigits, hzero] at h
          exact absurd h.2 (by decide)
        · exact hhead hl h.1
      · omega

theorem handleNumeric_eq_some_iff {k : BitVec 64} :
    handleNumeric s = some k ↔ s = printLong k := by
  constructor
  · exact eq_printLong_of_handleNumeric
  · rintro rfl
    exact handleNumeric_printLong k

namespace HashTable

variable {α : Type}

def zendHashFind (ht : HashTable α) (arKey : List UInt8) : Option (Option BucketPtr) :=
  let h := zendInlineHashFunc arKey
  ht.chainFind (ht.matchesKey arKey h) ht.live.length (ht.arBuckets (ht.index h))

def zendHashExists (ht : HashTable α) (arKey : List UInt8) : Option Bool :=
  let h := zendInlineHashFunc arKey
  (ht.chainFind (ht.matchesKey arKey h) ht.live.length (ht.arBuckets (ht.index h))).map
    Option.isSome

def zendHashIndexExists (ht : HashTable α) (h : BitVec 64) : Option Bool :=
  (ht.chainFind (ht.matchesIndex h) ht.live.length (ht.arBuckets (ht.index h))).map Option.isSome

def zendSymtableUpdate (ht : HashTable α) (arKey : List UInt8) (pData : α) (nDataSize : Nat)
    (mem : Pemalloc) : Option (Outcome α) :=
  match zendHandleNumeric arKey arKey.length with
  | some idx => ht.zendHashIndexUpdateOrNextInsert idx pData nDataSize hashUpdate mem
  | none => ht.zendHashAddOrUpdate arKey pData nDataSize hashUpdate mem

def zendSymtableDel (ht : HashTable α) (arKey : List UInt8) : Option (Outcome α) :=
  match zendHandleNumeric arKey arKey.length with
  | some idx => ht.zendHashDelKeyOrIndex [] idx .delIndex
  | none => ht.zendHashDelKeyOrIndex arKey 0 .delKey

def zendSymtableFind (ht : HashTable α) (arKey : List UInt8) : Option (Option BucketPtr) :=
  match zendHandleNumeric arKey arKey.length with
  | some idx => ht.zendHashIndexFind idx
  | none => ht.zendHashFind arKey

def zendSymtableExists (ht : HashTable α) (arKey : List UInt8) : Option Bool :=
  match zendHandleNumeric arKey arKey.length with
  | some idx => ht.zendHashIndexExists idx
  | none => ht.zendHashExists arKey

def zendSymtableUpdateCurrentKeyEx (ht : HashTable α) (arKey : List UInt8) (mode : Nat)
    (pos : Option (Option BucketPtr)) (mem : Pemalloc) :
    Option (Outcome α × Option (Option BucketPtr)) :=
  match zendHandleNumeric arKey arKey.length with
  | some idx => ht.zendHashUpdateCurrentKeyEx .isLong [] idx mode pos mem
  | none => ht.zendHashUpdateCurrentKeyEx .isString arKey 0 mode pos mem

end HashTable

/-- The functions work on the element with the integer key `k`. -/
structure ActsOnIndex (α : Type) (arKey : List UInt8) (k : BitVec 64) : Prop where
  update : ∀ (ht : HashTable α) pData nDataSize mem, ht.zendSymtableUpdate arKey pData nDataSize mem =
    ht.zendHashIndexUpdateOrNextInsert k pData nDataSize hashUpdate mem
  del : ∀ ht : HashTable α, ht.zendSymtableDel arKey = ht.zendHashDelKeyOrIndex [] k .delIndex
  find : ∀ ht : HashTable α, ht.zendSymtableFind arKey = ht.zendHashIndexFind k
  has : ∀ ht : HashTable α, ht.zendSymtableExists arKey = ht.zendHashIndexExists k
  updateCurrentKey : ∀ (ht : HashTable α) mode pos mem,
    ht.zendSymtableUpdateCurrentKeyEx arKey mode pos mem =
      ht.zendHashUpdateCurrentKeyEx .isLong [] k mode pos mem

/-- The functions work on the element with the string key `arKey`. -/
structure ActsOnString (α : Type) (arKey : List UInt8) : Prop where
  update : ∀ (ht : HashTable α) pData nDataSize mem, ht.zendSymtableUpdate arKey pData nDataSize mem =
    ht.zendHashAddOrUpdate arKey pData nDataSize hashUpdate mem
  del : ∀ ht : HashTable α, ht.zendSymtableDel arKey = ht.zendHashDelKeyOrIndex arKey 0 .delKey
  find : ∀ ht : HashTable α, ht.zendSymtableFind arKey = ht.zendHashFind arKey
  has : ∀ ht : HashTable α, ht.zendSymtableExists arKey = ht.zendHashExists arKey
  updateCurrentKey : ∀ (ht : HashTable α) mode pos mem,
    ht.zendSymtableUpdateCurrentKeyEx arKey mode pos mem =
      ht.zendHashUpdateCurrentKeyEx .isString arKey 0 mode pos mem

theorem actsOnIndex {k : BitVec 64} (h : zendHandleNumeric arKey arKey.length = some k)
    : ActsOnIndex α arKey k := by
  constructor <;> intros <;> simp only [HashTable.zendSymtableUpdate, HashTable.zendSymtableDel,
    HashTable.zendSymtableFind, HashTable.zendSymtableExists,
    HashTable.zendSymtableUpdateCurrentKeyEx, h]

theorem actsOnString (h : zendHandleNumeric arKey arKey.length = none) : ActsOnString α arKey := by
  constructor <;> intros <;> simp only [HashTable.zendSymtableUpdate, HashTable.zendSymtableDel,
    HashTable.zendSymtableFind, HashTable.zendSymtableExists,
    HashTable.zendSymtableUpdateCurrentKeyEx, h]

def addressedKey (arKey : List UInt8) : HashKey :=
  match zendHandleNumeric arKey arKey.length with
  | some idx => .index idx
  | none => .str arKey

theorem HashTable.Valid.zendSymtableFind_eq {ht : HashTable α} {l : List BucketPtr}
    (hv : ht.Valid l) (hne : arKey ≠ []) :
    ht.zendSymtableFind arKey = some (ht.lookup l (addressedKey arKey)) := by
  rw [zendSymtableFind, addressedKey]
  cases zendHandleNumeric arKey arKey.length with
  | some idx => exact hv.find_matchesIndex idx
  | none =>
    have hkey : HashKey.ofArKey arKey (zendInlineHashFunc arKey) = .str arKey := by
      rw [HashKey.ofArKey, if_neg (fun h => hne (length_eq_zero_iff.mp h))]
    rw [← hkey]
    exact hv.find_matchesKey fun _ => rfl

theorem addressedKey_inj {s' : List UInt8} (h : addressedKey (s ++ [0]) = addressedKey (s' ++ [0]))
    : s = s' := by
  unfold addressedKey at h
  rw [length_append, length_append, length_singleton, zendHandleNumeric_eq,
    zendHandleNumeric_eq] at h
  cases hs : handleNumeric s with
  | none =>
    rw [hs] at h
    cases hs' : handleNumeric s' with
    | none =>
      rw [hs'] at h
      exact append_cancel_right (HashKey.str.inj h)
    | some k =>
      rw [hs'] at h
      exact nomatch h
  | some k =>
    rw [hs] at h
    cases hs' : handleNumeric s' with
    | none =>
      rw [hs'] at h
      exact nomatch h
    | some k' =>
      rw [hs'] at h
      obtain rfl := HashKey.index.inj h
      exact (handleNumeric_eq_some_iff.mp hs).trans (handleNumeric_eq_some_iff.mp hs').symm

/-- A NUL-terminated string is an integer key exactly when it is a printed `long`, and different
strings address different elements. -/
theorem symtable_canonical (α : Type) (s : List UInt8) :
    (∀ k, zendHandleNumeric (s ++ [0]) (s ++ [0]).length = some k ↔ s = printLong k) ∧
      (∀ k, s = printLong k → ActsOnIndex α (s ++ [0]) k) ∧
      ((∀ k, s ≠ printLong k) → ActsOnString α (s ++ [0])) ∧
      ∀ (ht : HashTable α) (l : List BucketPtr) (s' : List UInt8) (p : BucketPtr), ht.Valid l →
        ht.zendSymtableFind (s ++ [0]) = some (some p) →
        ht.zendSymtableFind (s' ++ [0]) = some (some p) → s = s' := by
  have hkeys : ∀ k, zendHandleNumeric (s ++ [0]) (s ++ [0]).length = some k ↔ s = printLong k := by
    intro k
    rw [List.length_append, List.length_singleton, zendHandleNumeric_eq]
    exact handleNumeric_eq_some_iff
  refine ⟨hkeys, fun k hk => actsOnIndex ((hkeys k).mpr hk), fun hno => actsOnString ?_, ?_⟩
  · exact Option.eq_none_iff_forall_ne_some.mpr fun k hk => hno k ((hkeys k).mp hk)
  · intro ht l s' p hv hs hs'
    rw [hv.zendSymtableFind_eq (List.append_ne_nil_of_right_ne_nil _ (by decide))] at hs hs'
    have hp := (HashTable.lookup_some (Option.some.inj hs)).2
    have hp' := (HashTable.lookup_some (Option.some.inj hs')).2
    exact addressedKey_inj (hp.symm.trans hp')

/-- `"12"` is the integer key `12`. -/
theorem symtable_canonical_twelve : ActsOnIndex Unit ([ch '1', ch '2'] ++ [0]) 12 :=
  (symtable_canonical Unit [ch '1', ch '2']).2.1 12 (by decide)

end Php53.Zend
