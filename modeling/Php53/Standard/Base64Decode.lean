import Mathlib.Tactic.Ring
import Php53.Standard.Base64

/-!
# Base64Decode — the `convert.base64-decode` filter

The decoder collects a byte in `pack`, from the top, and keeps in `urem` the bits of a character
that belong to the next byte.  Between calls all bits that were read and not written are in `urem`.
`decodeStep` says what a character does to these bits.
-/

namespace Php53.Standard

open Zend (ch)
open List

def b64TblDec : List (BitVec 32) :=
  [64, 64, 64, 64, 64, 64, 64, 64, 64, 64, 64, 64, 64, 64, 64, 64,
   64, 64, 64, 64, 64, 64, 64, 64, 64, 64, 64, 64, 64, 64, 64, 64,
   64, 64, 64, 64, 64, 64, 64, 64, 64, 64, 64, 62, 64, 64, 64, 63,
   52, 53, 54, 55, 56, 57, 58, 59, 60, 61, 64, 64, 64, 128, 64, 64,
   64, 0, 1, 2, 3, 4, 5, 6, 7, 8, 9, 10, 11, 12, 13, 14,
   15, 16, 17, 18, 19, 20, 21, 22, 23, 24, 25, 64, 64, 64, 64, 64,
   64, 26, 27, 28, 29, 30, 31, 32, 33, 34, 35, 36, 37, 38, 39, 40,
   41, 42, 43, 44, 45, 46, 47, 48, 49, 50, 51, 64, 64, 64, 64, 64,
   64, 64, 64, 64, 64, 64, 64, 64, 64, 64, 64, 64, 64, 64, 64, 64,
   64, 64, 64, 64, 64, 64, 64, 64, 64, 64, 64, 64, 64, 64, 64, 64,
   64, 64, 64, 64, 64, 64, 64, 64, 64, 64, 64, 64, 64, 64, 64, 64,
   64, 64, 64, 64, 64, 64, 64, 64, 64, 64, 64, 64, 64, 64, 64, 64,
   64, 64, 64, 64, 64, 64, 64, 64, 64, 64, 64, 64, 64, 64, 64, 64,
   64, 64, 64, 64, 64, 64, 64, 64, 64, 64, 64, 64, 64, 64, 64, 64,
   64, 64, 64, 64, 64, 64, 64, 64, 64, 64, 64, 64, 64, 64, 64, 64,
   64, 64, 64, 64, 64, 64, 64, 64, 64, 64, 64, 64, 64, 64, 64, 64]

/-- `b64_tbl_dec[c]` -/
def b64Dec (c : UInt8) : BitVec 32 := b64TblDec.getD c.toNat 64

structure Base64Decode where
  urem : BitVec 32
  uremNbits : Nat
  ustat : BitVec 32
  eos : Bool

/-- `php_conv_base64_decode_ctor` -/
def Base64Decode.ctor : Base64Decode := { urem := 0, uremNbits := 0, ustat := 0, eos := false }

def bmask (a : Nat) : BitVec 32 := (0xffff : BitVec 32) >>> (16 - a)

def nbitsofPack : Nat := 8

/-- The variables of `php_conv_base64_decode_convert`. -/
structure Base64DecodeVars where
  ps : List UInt8
  pd : List UInt8
  ocnt : Nat
  urem : BitVec 32
  uremNbits : Nat
  ustat : BitVec 32
  eos : Bool
  pack : BitVec 32
  packBcnt : Nat

namespace Base64DecodeVars

/-- The bits kept in `urem` go to `pack`. -/
def take (v : Base64DecodeVars) : Base64DecodeVars :=
  if v.packBcnt ≥ v.uremNbits then
    { v with
      packBcnt := v.packBcnt - v.uremNbits
      pack := v.pack ||| (v.urem <<< (v.packBcnt - v.uremNbits))
      uremNbits := 0 }
  else
    { v with
      uremNbits := v.uremNbits - v.packBcnt
      pack := v.pack ||| (v.urem >>> (v.uremNbits - v.packBcnt))
      urem := v.urem &&& bmask (v.uremNbits - v.packBcnt)
      packBcnt := 0 }

/-- The character `c`; `none` is `PHP_CONV_ERR_INVALID_SEQ`. -/
def read (c : UInt8) (v : Base64DecodeVars) : Base64DecodeVars × Bool :=
  let i := b64Dec c
  let v := { v with ustat := v.ustat ||| (i &&& 0x80) }
  if i &&& 0xc0 = 0 then
    if v.ustat ≠ 0 then (v, false)
    else if 6 ≤ v.packBcnt then
      ({ v with
        packBcnt := v.packBcnt - 6
        pack := v.pack ||| (i <<< (v.packBcnt - 6))
        urem := 0 }, true)
    else
      ({ v with
        uremNbits := 6 - v.packBcnt
        pack := v.pack ||| (i >>> (6 - v.packBcnt))
        urem := i &&& bmask (6 - v.packBcnt)
        packBcnt := 0 }, true)
  else if v.ustat ≠ 0 then
    if v.packBcnt = 8 ∨ v.packBcnt = 2 then (v, false) else ({ v with eos := true }, true)
  else (v, true)

/-- `if ((pack_bcnt | ustat) == 0)` -/
def emit (v : Base64DecodeVars) : Base64DecodeVars × Bool :=
  if v.packBcnt = 0 ∧ v.ustat = 0 then
    if v.ocnt < 1 then (v, false)
    else
      ({ v with
        pd := v.pd ++ [UInt8.ofNat v.pack.toNat]
        ocnt := v.ocnt - 1
        pack := 0
        packBcnt := nbitsofPack }, true)
  else (v, true)

/-- `for (;;)`: every round but the first reads a character or leaves the loop. -/
def loop : Nat → Base64DecodeVars → Option (Base64DecodeVars × ConvErr)
  | 0, _ => none
  | fuel + 1, v =>
    let v := v.take
    if v.packBcnt > 0 then
      match v.ps with
      | [] => some (v, .success)
      | c :: ps =>
        match { v with ps }.read c with
        | (v, false) => some (v, .invalidSeq)
        | (v, true) =>
          match v.emit with
          | (v, false) => some (v, .tooBig)
          | (v, true) => loop fuel v
    else
      match v.emit with
      | (v, false) => some (v, .tooBig)
      | (v, true) => loop fuel v

/-- The bits in `pack` go back to `urem`. -/
def leave (v : Base64DecodeVars) : Base64Decode :=
  { urem := if v.uremNbits ≥ v.packBcnt then v.urem ||| (v.pack <<< (v.uremNbits - v.packBcnt))
      else v.urem ||| (v.pack >>> (v.packBcnt - v.uremNbits))
    uremNbits := v.uremNbits + (nbitsofPack - v.packBcnt)
    ustat := v.ustat
    eos := v.eos }

end Base64DecodeVars

def phpConvBase64DecodeConvert : ConvertOp Base64Decode
  | inst, none, _ =>
    some { inst, rest := [], out := []
           err := if inst.eos ∨ inst.uremNbits = 0 then .success else .unexpectedEos }
  | inst, some ps, room =>
    let v : Base64DecodeVars :=
      { ps, pd := [], ocnt := room, urem := inst.urem, uremNbits := inst.uremNbits
        ustat := inst.ustat, eos := inst.eos, pack := 0, packBcnt := nbitsofPack }
    (v.loop (ps.length + 2)).map fun (v, err) => { inst := v.leave, rest := v.ps, out := v.pd, err }

/-- The `n` low bits, the highest first. -/
def lowBits (x : Nat) : Nat → List Bool
  | 0 => []
  | n + 1 => x.testBit n :: lowBits x n

@[simp] theorem length_lowBits (x n : Nat) : (lowBits x n).length = n := by
  induction n with
  | zero => rfl
  | succ n ih => rw [lowBits, length_cons, ih]

theorem lowBits_congr {x y n : Nat} (h : ∀ i, i < n → x.testBit i = y.testBit i) :
    lowBits x n = lowBits y n := by
  induction n with
  | zero => rfl
  | succ n ih => rw [lowBits, lowBits, h n (Nat.lt_succ_self n), ih fun i hi => h i (by omega)]

theorem lowBits_add (x m n : Nat) : lowBits x (m + n) = lowBits (x >>> n) m ++ lowBits x n := by
  induction m with
  | zero => rw [Nat.zero_add]; rfl
  | succ m ih =>
    rw [Nat.succ_add, lowBits, lowBits, ih, Nat.testBit_shiftRight, Nat.add_comm n m]
    rfl

def ofBits (bits : List Bool) : Nat := bits.foldl (fun n b => 2 * n + b.toNat) 0

theorem foldl_lowBits (x n acc : Nat) :
    (lowBits x n).foldl (fun n b => 2 * n + b.toNat) acc = acc * 2 ^ n + x % 2 ^ n := by
  induction n generalizing acc with
  | zero => rw [lowBits, foldl_nil, Nat.pow_zero, Nat.mod_one, Nat.mul_one, Nat.add_zero]
  | succ n ih =>
    have hbit : x % 2 ^ (n + 1) = (x.testBit n).toNat * 2 ^ n + x % 2 ^ n := by
      rw [Nat.mod_pow_succ, Nat.testBit_eq_decide_div_mod_eq, Nat.mul_comm (2 ^ n)]
      rcases Nat.mod_two_eq_zero_or_one (x / 2 ^ n) with h | h
      · simp [h]
      · simp [h, Nat.add_comm]
    rw [lowBits, foldl_cons, ih, hbit, Nat.pow_succ]
    ring

theorem ofBits_lowBits (x n : Nat) : ofBits (lowBits x n) = x % 2 ^ n := by
  rw [ofBits, foldl_lowBits, Nat.zero_mul, Nat.zero_add]

/-- The bits read and not written, and whether a `=` was read. -/
abbrev Pending := List Bool × Bool

def addBits (bits : List Bool) (i : BitVec 32) : Pending × List UInt8 :=
  let bits := bits ++ lowBits i.toNat 6
  if bits.length < 8 then ((bits, false), [])
  else ((bits.drop 8, false), [UInt8.ofNat (ofBits (bits.take 8))])

/-- What a character does; `none` is `PHP_CONV_ERR_INVALID_SEQ`. -/
def decodeStep (s : Pending) (c : UInt8) : Option (Pending × List UInt8) :=
  let i := b64Dec c
  let padded := s.2 || i &&& 0x80 ≠ 0
  if i &&& 0xc0 = 0 then if padded then none else some (addBits s.1 i)
  else if padded ∧ (s.1.length = 0 ∨ s.1.length = 6) then none
  else some ((s.1, padded), [])

namespace Base64DecodeVars

/-- The variables at the head of the loop, when fewer than eight bits are pending. -/
structure Holds (v : Base64DecodeVars) (s : Pending) : Prop where
  lt : v.uremNbits < v.packBcnt
  le : v.packBcnt ≤ 8
  zero : ∀ j, j < v.packBcnt → v.pack.getLsbD j = false
  /-- What is still in `urem` above its `urem_nbits` bits is in `pack` already. -/
  stale : ∀ i, v.uremNbits ≤ i → i < v.uremNbits + (8 - v.packBcnt) → v.urem.getLsbD i = true →
    v.pack.getLsbD (i - v.uremNbits + v.packBcnt) = true
  bits : s.1 = lowBits (v.pack.toNat >>> v.packBcnt) (8 - v.packBcnt) ++
    lowBits v.urem.toNat v.uremNbits
  ustat : v.ustat ≠ 0 ↔ s.2 = true
  eos : s.2 = true → v.eos = true

variable {v : Base64DecodeVars} {s : Pending} {i : BitVec 32}

theorem Holds.length (h : v.Holds s) : s.1.length = 8 - v.packBcnt + v.uremNbits := by
  rw [h.bits, length_append, length_lowBits, length_lowBits]

theorem getLsbD_or_shiftLeft (x y : BitVec 32) {k j : Nat} (hj : j < 32) (hk : k ≤ j) :
    (x ||| (y <<< k)).getLsbD j = (x.getLsbD j || y.getLsbD (j - k)) := by
  rw [BitVec.getLsbD_or, BitVec.getLsbD_shiftLeft, decide_eq_true hj,
    decide_eq_false (Nat.not_lt.mpr hk), Bool.not_false, Bool.true_and, Bool.true_and]

theorem getLsbD_or_shiftLeft_of_lt (x y : BitVec 32) {k j : Nat} (hj : j < k) :
    (x ||| (y <<< k)).getLsbD j = x.getLsbD j := by
  rw [BitVec.getLsbD_or, BitVec.getLsbD_shiftLeft, decide_eq_true hj, Bool.not_true,
    Bool.and_false, Bool.false_and, Bool.or_false]

theorem Holds.take (h : v.Holds s) :
    v.take.Holds s ∧ v.take.uremNbits = 0 ∧ v.take.packBcnt = 8 - s.1.length := by
  have hlt := h.lt
  have hle := h.le
  have hlen := h.length
  rw [Base64DecodeVars.take, if_pos (Nat.le_of_lt hlt)]
  have hcnt : v.packBcnt - v.uremNbits = 8 - s.1.length := by omega
  refine ⟨⟨Nat.sub_pos_of_lt hlt, Nat.le_trans (Nat.sub_le _ _) hle, fun j hj => ?_,
    fun i _ hi hbit => ?_, ?_, h.ustat, h.eos⟩, rfl, hcnt⟩
  · have hj : j < v.packBcnt - v.uremNbits := hj
    show (v.pack ||| (v.urem <<< (v.packBcnt - v.uremNbits))).getLsbD j = false
    rw [getLsbD_or_shiftLeft_of_lt _ _ hj]
    exact h.zero j (by omega)
  · have hi : i < 0 + (8 - (v.packBcnt - v.uremNbits)) := hi
    show (v.pack ||| (v.urem <<< (v.packBcnt - v.uremNbits))).getLsbD
      (i - 0 + (v.packBcnt - v.uremNbits)) = true
    rw [getLsbD_or_shiftLeft _ _ (by omega) (by omega), Nat.sub_zero, Nat.add_sub_cancel]
    exact Bool.or_eq_true_iff.mpr (.inr hbit)
  · show s.1 = lowBits ((v.pack ||| (v.urem <<< (v.packBcnt - v.uremNbits))).toNat >>>
      (v.packBcnt - v.uremNbits)) (8 - (v.packBcnt - v.uremNbits)) ++ lowBits v.urem.toNat 0
    have hsplit : 8 - (v.packBcnt - v.uremNbits) = 8 - v.packBcnt + v.uremNbits := by omega
    rw [h.bits, hsplit, lowBits_add, lowBits, List.append_nil]
    congr 1
    · refine lowBits_congr fun i hi => ?_
      rw [Nat.testBit_shiftRight, Nat.testBit_shiftRight, Nat.testBit_shiftRight,
        BitVec.testBit_toNat, BitVec.testBit_toNat, getLsbD_or_shiftLeft _ _ (by omega) (by omega)]
      have hidx : v.packBcnt - v.uremNbits + (v.uremNbits + i) = v.packBcnt + i := by omega
      have hidx' : v.packBcnt + i - (v.packBcnt - v.uremNbits) = v.uremNbits + i := by omega
      rw [hidx, hidx']
      cases hurem : v.urem.getLsbD (v.uremNbits + i) with
      | false => rw [Bool.or_false]
      | true =>
        have hpack := h.stale (v.uremNbits + i) (by omega) (by omega) hurem
        rw [Nat.add_sub_cancel_left, Nat.add_comm] at hpack
        rw [hpack, Bool.or_true]
    · refine lowBits_congr fun i hi => ?_
      rw [Nat.testBit_shiftRight, BitVec.testBit_toNat, BitVec.testBit_toNat,
        getLsbD_or_shiftLeft _ _ (by omega) (by omega), h.zero _ (by omega), Bool.false_or,
        Nat.add_sub_cancel_left]

/-- After a digit: as `Holds`, but the byte may be complete. -/
structure Filled (v : Base64DecodeVars) (bits : List Bool) : Prop where
  lt : v.uremNbits < 8
  le : v.packBcnt ≤ 8
  part : 0 < v.packBcnt → v.uremNbits = 0
  zero : ∀ j, j < v.packBcnt → v.pack.getLsbD j = false
  clear : ∀ i, v.uremNbits ≤ i → v.urem.getLsbD i = false
  bits : bits = lowBits (v.pack.toNat >>> v.packBcnt) (8 - v.packBcnt) ++
    lowBits v.urem.toNat v.uremNbits
  ustat : v.ustat = 0

theorem getLsbD_of_lt_64 (hi : i.toNat < 64) {j : Nat} (hj : 6 ≤ j) :
    i.getLsbD j = false := by
  rw [← BitVec.testBit_toNat]
  exact Nat.testBit_lt_two_pow (Nat.lt_of_lt_of_le hi (Nat.pow_le_pow_right Nat.two_pos hj))

theorem getLsbD_bmask {a : Nat} (ha : a ≤ 16) (j : Nat) :
    (bmask a).getLsbD j = decide (j < a) := by
  have hones : ∀ k, (0xffff : BitVec 32).getLsbD k = decide (k < 16) := fun k => by
    rw [← BitVec.testBit_toNat]
    exact Nat.testBit_two_pow_sub_one 16 k
  rw [bmask, BitVec.getLsbD_ushiftRight, hones]
  exact decide_eq_decide.mpr (by omega)

theorem Holds.fill_low (h : v.Holds s) (hun : v.uremNbits = 0) (hs : s.2 = false)
    (hi : i.toNat < 64) (hcnt : 6 ≤ v.packBcnt) :
    Filled { v with
      packBcnt := v.packBcnt - 6
      pack := v.pack ||| (i <<< (v.packBcnt - 6))
      urem := 0 } (s.1 ++ lowBits i.toNat 6) := by
  have hle := h.le
  refine ⟨?_, Nat.le_trans (Nat.sub_le _ _) hle, fun _ => hun, fun j hj => ?_, fun j _ => ?_, ?_, ?_⟩
  · show v.uremNbits < 8
    omega
  · have hj : j < v.packBcnt - 6 := hj
    show (v.pack ||| (i <<< (v.packBcnt - 6))).getLsbD j = false
    rw [getLsbD_or_shiftLeft_of_lt _ _ hj]
    exact h.zero j (by omega)
  · exact BitVec.getLsbD_zero
  · show _ = lowBits ((v.pack ||| (i <<< (v.packBcnt - 6))).toNat >>> (v.packBcnt - 6))
      (8 - (v.packBcnt - 6)) ++ lowBits _ v.uremNbits
    have hsplit : 8 - (v.packBcnt - 6) = 8 - v.packBcnt + 6 := by omega
    rw [h.bits, hun, hsplit, lowBits_add, lowBits, lowBits, List.append_nil, List.append_nil]
    congr 1
    · refine lowBits_congr fun k hk => ?_
      rw [Nat.testBit_shiftRight, Nat.testBit_shiftRight, Nat.testBit_shiftRight,
        BitVec.testBit_toNat, BitVec.testBit_toNat, getLsbD_or_shiftLeft _ _ (by omega) (by omega),
        getLsbD_of_lt_64 hi (by omega), Bool.or_false]
      congr 1
      omega
    · refine lowBits_congr fun k hk => ?_
      rw [Nat.testBit_shiftRight, BitVec.testBit_toNat, BitVec.testBit_toNat,
        getLsbD_or_shiftLeft _ _ (by omega) (by omega), h.zero _ (by omega), Bool.false_or,
        Nat.add_sub_cancel_left]
  · by_contra hne
    exact absurd (h.ustat.mp hne) (by rw [hs]; decide)

theorem Holds.fill_high (h : v.Holds s) (hun : v.uremNbits = 0) (hs : s.2 = false)
    (hi : i.toNat < 64) (hcnt : v.packBcnt < 6) :
    Filled { v with
      uremNbits := 6 - v.packBcnt
      pack := v.pack ||| (i >>> (6 - v.packBcnt))
      urem := i &&& bmask (6 - v.packBcnt)
      packBcnt := 0 } (s.1 ++ lowBits i.toNat 6) := by
  have hlt := h.lt
  have hbit : ∀ j, (v.pack ||| (i >>> (6 - v.packBcnt))).getLsbD j =
      (v.pack.getLsbD j || i.getLsbD (6 - v.packBcnt + j)) := fun j => by
    rw [BitVec.getLsbD_or, BitVec.getLsbD_ushiftRight]
  have hmask : ∀ j, (i &&& bmask (6 - v.packBcnt)).getLsbD j =
      (i.getLsbD j && decide (j < 6 - v.packBcnt)) := fun j => by
    rw [BitVec.getLsbD_and, getLsbD_bmask (by omega)]
  refine ⟨?_, Nat.zero_le 8, nofun, nofun, fun j hj => ?_, ?_, ?_⟩
  · show 6 - v.packBcnt < 8
    omega
  · rw [hmask, decide_eq_false (Nat.not_lt.mpr hj), Bool.and_false]
  · show _ = lowBits ((v.pack ||| (i >>> (6 - v.packBcnt))).toNat >>> 0) 8 ++
      lowBits (i &&& bmask (6 - v.packBcnt)).toNat (6 - v.packBcnt)
    have hsix : lowBits i.toNat 6 = lowBits (i.toNat >>> (6 - v.packBcnt)) v.packBcnt ++
        lowBits i.toNat (6 - v.packBcnt) := by
      rw [← lowBits_add]
      congr 1
      omega
    have height : 8 = 8 - v.packBcnt + v.packBcnt := by omega
    rw [h.bits, hun, height, lowBits_add, hsix, lowBits, List.append_nil, Nat.shiftRight_zero]
    rw [← height, append_assoc]
    congr 1
    · refine lowBits_congr fun k hk => ?_
      rw [Nat.testBit_shiftRight, Nat.testBit_shiftRight, BitVec.testBit_toNat,
        BitVec.testBit_toNat, hbit, getLsbD_of_lt_64 hi (by omega), Bool.or_false]
    · congr 1
      · refine lowBits_congr fun k hk => ?_
        rw [Nat.testBit_shiftRight, BitVec.testBit_toNat, BitVec.testBit_toNat, hbit,
          h.zero k hk, Bool.false_or]
      · refine lowBits_congr fun k hk => ?_
        rw [BitVec.testBit_toNat, BitVec.testBit_toNat, hmask, decide_eq_true hk, Bool.and_true]
  · by_contra hne
    exact absurd (h.ustat.mp hne) (by rw [hs]; decide)

theorem Filled.emit {bits : List Bool} (h : v.Filled bits) (hroom : v.ocnt > 0) :
    ∃ v', v.emit = (v', true) ∧ v'.ps = v.ps ∧
      if bits.length < 8 then v'.Holds (bits, false) ∧ v'.pd = v.pd ∧ v'.ocnt = v.ocnt
      else v'.Holds (bits.drop 8, false) ∧
        v'.pd = v.pd ++ [UInt8.ofNat (ofBits (bits.take 8))] ∧ v'.ocnt = v.ocnt - 1 := by
  have hustat : v.ustat ≠ 0 ↔ false = true := by
    rw [h.ustat]
    exact ⟨fun hne => absurd rfl hne, nofun⟩
  have hlen : bits.length = 8 - v.packBcnt + v.uremNbits := by
    rw [h.bits, length_append, length_lowBits, length_lowBits]
  have hle := h.le
  by_cases hcnt : v.packBcnt = 0
  · -- the byte is complete
    have hbits := h.bits
    rw [hcnt, Nat.shiftRight_zero, Nat.sub_zero] at hbits
    have htake : bits.take 8 = lowBits v.pack.toNat 8 := by
      rw [hbits, take_left' (length_lowBits _ _)]
    have hdrop : bits.drop 8 = lowBits v.urem.toNat v.uremNbits := by
      rw [hbits, drop_left' (length_lowBits _ _)]
    have hbyte : UInt8.ofNat (ofBits (bits.take 8)) = UInt8.ofNat v.pack.toNat := by
      rw [htake, ofBits_lowBits]
      exact UInt8.toNat_inj.mp (by rw [UInt8.toNat_ofNat', UInt8.toNat_ofNat']; omega)
    refine ⟨{ v with
      pd := v.pd ++ [UInt8.ofNat v.pack.toNat]
      ocnt := v.ocnt - 1
      pack := 0
      packBcnt := nbitsofPack }, ?_, rfl, ?_⟩
    · rw [Base64DecodeVars.emit, if_pos ⟨hcnt, h.ustat⟩, if_neg (by omega)]
    · rw [if_neg (by omega), hbyte]
      refine ⟨⟨h.lt, Nat.le_refl 8, fun j _ => BitVec.getLsbD_zero, fun i hi hi' _ => ?_, ?_, hustat,
        nofun⟩, rfl, rfl⟩
      · exact absurd hi' (Nat.not_lt.mpr hi)
      · exact hdrop
  · have hpos : 0 < v.packBcnt := Nat.pos_of_ne_zero hcnt
    have hun := h.part hpos
    refine ⟨v, ?_, rfl, ?_⟩
    · rw [Base64DecodeVars.emit, if_neg fun hboth => hcnt hboth.1]
    · rw [if_pos (by omega)]
      refine ⟨⟨by omega, hle, h.zero, fun i hi _ hbit => ?_, h.bits, hustat, nofun⟩, rfl, rfl⟩
      rw [h.clear i hi] at hbit
      exact nomatch hbit

theorem b64Dec_lt_64 (c : UInt8) (h : b64Dec c &&& 0xc0 = 0) : (b64Dec c).toNat < 64 := by
  have htable : (b64TblDec.all fun i => i &&& 0xc0 ≠ 0 ∨ i.toNat < 64) = true := by decide +kernel
  have hlen : b64TblDec.length = 256 := by decide +kernel
  have hlt : c.toNat < b64TblDec.length := by
    rw [hlen]
    exact c.toNat_lt
  have hall := all_eq_true.mp htable _ (getElem_mem hlt)
  rw [b64Dec, getD_eq_getElem _ _ hlt] at h ⊢
  exact (of_decide_eq_true hall).resolve_left fun hne => hne h

theorem Filled.emit_addBits {bits : List Bool} (h : v.Filled (bits ++ lowBits i.toNat 6))
    (hroom : v.ocnt > 0) :
    ∃ v', v.emit = (v', true) ∧ v'.Holds (addBits bits i).1 ∧ v'.ps = v.ps ∧
      v'.pd = v.pd ++ (addBits bits i).2 ∧ v'.ocnt = v.ocnt - (addBits bits i).2.length := by
  obtain ⟨v', hemit, hps, hout⟩ := h.emit hroom
  refine ⟨v', hemit, ?_⟩
  rw [addBits]
  split at hout
  · rw [if_pos ‹_›]
    exact ⟨hout.1, hps, by rw [hout.2.1, List.append_nil], hout.2.2⟩
  · rw [if_neg ‹_›]
    exact ⟨hout.1, hps, hout.2.1, hout.2.2⟩

theorem Holds.read (h : v.Holds s) (hun : v.uremNbits = 0) (hcnt : v.packBcnt = 8 - s.1.length)
    {c : UInt8} {s' : Pending} {out : List UInt8} (hstep : decodeStep s c = some (s', out))
    (hroom : v.ocnt > 0) :
    ∃ w v', v.read c = (w, true) ∧ w.emit = (v', true) ∧ v'.Holds s' ∧ v'.ps = v.ps ∧
      v'.pd = v.pd ++ out ∧ v'.ocnt = v.ocnt - out.length := by
  have hlt := h.lt
  have hpadded : ∀ i : BitVec 32, (v.ustat ||| (i &&& 0x80)) ≠ 0 ↔
      (s.2 || decide (i &&& 0x80 ≠ 0)) = true := by
    intro i
    rw [Bool.or_eq_true, decide_eq_true_iff, ← h.ustat, ← not_and_or, not_iff_not]
    exact BitVec.or_eq_zero_iff
  have hrange := b64Dec_lt_64 c
  rw [decodeStep] at hstep
  rw [Base64DecodeVars.read]
  generalize b64Dec c = i at hstep hrange
  dsimp only at hstep ⊢
  by_cases hdigit : i &&& 0xc0 = 0
  · -- a digit, which no padding may precede
    rw [if_pos hdigit] at hstep ⊢
    by_cases hpad : (s.2 || decide (i &&& 0x80 ≠ 0)) = true
    · rw [if_pos hpad] at hstep
      exact nomatch hstep
    · have hs : s.2 = false := Bool.eq_false_of_not_eq_true fun hs => hpad (by rw [hs]; rfl)
      have hustat : v.ustat ||| (i &&& 0x80) = 0 := by
        by_contra hne
        exact hpad ((hpadded i).mp hne)
      have hzero : v.ustat = 0 := (BitVec.or_eq_zero_iff.mp hustat).1
      rw [if_neg hpad] at hstep
      have hadd : addBits s.1 i = (s', out) := Option.some.inj hstep
      have hs' : s' = (addBits s.1 i).1 := by rw [hadd]
      have hout : out = (addBits s.1 i).2 := by rw [hadd]
      have hsame : v.ustat ||| (i &&& 0x80) = v.ustat := by rw [hustat, hzero]
      rw [if_neg (fun hne => hne hustat), hsame, hs', hout]
      by_cases hsix : 6 ≤ v.packBcnt
      · rw [if_pos hsix]
        obtain ⟨v', hv'⟩ := (h.fill_low hun hs (hrange hdigit) hsix).emit_addBits hroom
        exact ⟨_, v', rfl, hv'⟩
      · rw [if_neg hsix]
        obtain ⟨v', hv'⟩ :=
          (h.fill_high hun hs (hrange hdigit) (Nat.lt_of_not_le hsix)).emit_addBits hroom
        exact ⟨_, v', rfl, hv'⟩
  · -- no digit: it is skipped, or pads a group
    rw [if_neg hdigit] at hstep ⊢
    have hpos : ∀ ustat : BitVec 32, ¬ (v.packBcnt = 0 ∧ ustat = 0) := fun _ hboth => by omega
    have hcond : (s.1.length = 0 ∨ s.1.length = 6) ↔ (v.packBcnt = 8 ∨ v.packBcnt = 2) := by omega
    by_cases hpad : (s.2 || decide (i &&& 0x80 ≠ 0)) = true
    · have hne := (hpadded i).mpr hpad
      by_cases hcnt' : v.packBcnt = 8 ∨ v.packBcnt = 2
      · rw [if_pos ⟨hpad, hcond.mpr hcnt'⟩] at hstep
        exact nomatch hstep
      · rw [if_neg fun hboth => hcnt' (hcond.mp hboth.2)] at hstep
        obtain ⟨rfl, rfl⟩ := Prod.mk.inj (Option.some.inj hstep)
        rw [if_pos hne, if_neg hcnt']
        let w : Base64DecodeVars := { v with ustat := v.ustat ||| (i &&& 0x80), eos := true }
        exact ⟨w, w, rfl, by rw [emit, if_neg (hpos _)], ⟨h.lt, h.le, h.zero, h.stale, h.bits,
          hpadded i, fun _ => rfl⟩, rfl, (List.append_nil _).symm, rfl⟩
    · rw [if_neg fun hboth => hpad hboth.1] at hstep
      obtain ⟨rfl, rfl⟩ := Prod.mk.inj (Option.some.inj hstep)
      rw [if_neg fun hne => hpad ((hpadded i).mp hne)]
      let w : Base64DecodeVars := { v with ustat := v.ustat ||| (i &&& 0x80) }
      exact ⟨w, w, rfl, by rw [emit, if_neg (hpos _)], ⟨h.lt, h.le, h.zero, h.stale, h.bits,
        hpadded i, fun hp => absurd hp hpad⟩, rfl, (List.append_nil _).symm, rfl⟩

theorem Holds.leave (h : v.Holds s) (hun : v.uremNbits = 0) :
    v.leave.uremNbits = s.1.length ∧ lowBits v.leave.urem.toNat v.leave.uremNbits = s.1 := by
  have hlt := h.lt
  have hle := h.le
  have hcount : v.leave.uremNbits = 8 - v.packBcnt := by
    show v.uremNbits + (8 - v.packBcnt) = _
    rw [hun, Nat.zero_add]
  have hurem : v.leave.urem = v.urem ||| (v.pack >>> v.packBcnt) := by
    show (if v.uremNbits ≥ v.packBcnt then _ else v.urem ||| (v.pack >>> (v.packBcnt - v.uremNbits))) = _
    rw [if_neg (Nat.not_le.mpr hlt), hun, Nat.sub_zero]
  refine ⟨by rw [hcount, h.length, hun, Nat.add_zero], ?_⟩
  rw [hcount, hurem, h.bits, hun, lowBits, List.append_nil]
  refine lowBits_congr fun i hi => ?_
  rw [BitVec.testBit_toNat, Nat.testBit_shiftRight, BitVec.testBit_toNat, BitVec.getLsbD_or,
    BitVec.getLsbD_ushiftRight]
  cases hbit : v.urem.getLsbD i with
  | false => rw [Bool.false_or]
  | true =>
    have hpack := h.stale i (by omega) (by omega) hbit
    rw [hun, Nat.sub_zero, Nat.add_comm] at hpack
    rw [hpack]
    rfl

end Base64DecodeVars

/-- What the characters of `ps` do. -/
def decodeRun : Pending → List UInt8 → Option (Pending × List UInt8)
  | s, [] => some (s, [])
  | s, c :: ps =>
    (decodeStep s c).bind fun (t, out) => (decodeRun t ps).map fun (u, rest) => (u, out ++ rest)

example (s : Pending) : decodeRun s [] = some (s, []) := by rw [decodeRun]

variable {c : UInt8}

theorem decodeRun_cons {s t u : Pending} {ps out rest : List UInt8}
    (h : decodeStep s c = some (t, out)) (hrest : decodeRun t ps = some (u, rest)) :
    decodeRun s (c :: ps) = some (u, out ++ rest) := by
  simp only [decodeRun, h, hrest, Option.bind_some, Option.map_some]

theorem decodeRun_cons_eq_some {s u : Pending} {ps o : List UInt8}
    (h : decodeRun s (c :: ps) = some (u, o)) :
    ∃ t out rest, decodeStep s c = some (t, out) ∧ decodeRun t ps = some (u, rest) ∧
      o = out ++ rest := by
  rw [decodeRun, Option.bind_eq_some_iff] at h
  obtain ⟨⟨t, out⟩, hstep, h⟩ := h
  obtain ⟨⟨u', rest⟩, hrest, h⟩ := Option.map_eq_some_iff.mp h
  obtain ⟨rfl, rfl⟩ := Prod.mk.inj h
  exact ⟨t, out, rest, hstep, hrest, rfl⟩

theorem decodeRun_append {s t u : Pending} {xs ys out rest : List UInt8}
    (h : decodeRun s xs = some (t, out)) (hrest : decodeRun t ys = some (u, rest)) :
    decodeRun s (xs ++ ys) = some (u, out ++ rest) := by
  induction xs generalizing s out with
  | nil =>
    obtain ⟨rfl, rfl⟩ := Prod.mk.inj (Option.some.inj h)
    exact hrest
  | cons c xs ih =>
    obtain ⟨s', o, o', hstep, hxs, rfl⟩ := decodeRun_cons_eq_some h
    rw [append_assoc]
    exact decodeRun_cons hstep (ih hxs)

theorem decodeRun_append_eq_some {s u : Pending} {xs ys o : List UInt8}
    (h : decodeRun s (xs ++ ys) = some (u, o)) :
    ∃ t out rest, decodeRun s xs = some (t, out) ∧ decodeRun t ys = some (u, rest) ∧
      o = out ++ rest := by
  induction xs generalizing s o with
  | nil => exact ⟨s, [], o, rfl, h, rfl⟩
  | cons c xs ih =>
    obtain ⟨s', o₁, o₂, hstep, hxs, rfl⟩ := decodeRun_cons_eq_some h
    obtain ⟨t, out, rest, hout, hrest, rfl⟩ := ih hxs
    exact ⟨t, o₁ ++ out, rest, decodeRun_cons hstep hout, hrest, (append_assoc _ _ _).symm⟩

/-- The decoder between two calls. -/
structure Base64Decode.Holds (inst : Base64Decode) (s : Pending) : Prop where
  lt : inst.uremNbits < 8
  bits : s.1 = lowBits inst.urem.toNat inst.uremNbits
  ustat : inst.ustat ≠ 0 ↔ s.2 = true
  eos : s.2 = true → inst.eos = true

theorem length_addBits (bits : List Bool) (i : BitVec 32) : (addBits bits i).2.length ≤ 1 := by
  rw [addBits]
  split
  · exact Nat.zero_le 1
  · exact Nat.le_refl 1

theorem decodeStep_length {s s' : Pending} {out : List UInt8}
    (h : decodeStep s c = some (s', out)) : out.length ≤ 1 := by
  rw [decodeStep] at h
  split at h
  · split at h
    · exact nomatch h
    · have hadd := length_addBits s.1 (b64Dec c)
      rw [Option.some.inj h] at hadd
      exact hadd
  · split at h
    · exact nomatch h
    · obtain ⟨-, rfl⟩ := Prod.mk.inj (Option.some.inj h)
      exact Nat.zero_le 1

theorem Base64DecodeVars.Holds.loop {v : Base64DecodeVars} {s s' : Pending} {out : List UInt8}
    (h : v.Holds s) (hrun : decodeRun s v.ps = some (s', out)) (hroom : v.ps.length ≤ v.ocnt)
    {fuel : Nat} (hfuel : v.ps.length < fuel) :
    ∃ v', v.loop fuel = some (v', .success) ∧ v'.Holds s' ∧ v'.uremNbits = 0 ∧ v'.ps = [] ∧
      v'.pd = v.pd ++ out := by
  induction fuel generalizing v s out with
  | zero => exact absurd hfuel (Nat.not_lt_zero _)
  | succ fuel ih =>
    obtain ⟨htake, hun, hcnt⟩ := h.take
    have hps : v.take.ps = v.ps := by
      rw [Base64DecodeVars.take]
      split <;> rfl
    have hpd : v.take.pd = v.pd := by
      rw [Base64DecodeVars.take]
      split <;> rfl
    have hocnt : v.take.ocnt = v.ocnt := by
      rw [Base64DecodeVars.take]
      split <;> rfl
    have hpos : v.take.packBcnt > 0 := Nat.lt_of_le_of_lt (Nat.zero_le _) htake.lt
    rw [Base64DecodeVars.loop, if_pos hpos, hps]
    cases hv : v.ps with
    | nil =>
      rw [hv] at hrun
      obtain ⟨rfl, rfl⟩ := Prod.mk.inj (Option.some.inj hrun)
      exact ⟨v.take, rfl, htake, hun, hps.trans hv, by rw [hpd, List.append_nil]⟩
    | cons c ps =>
      rw [hv] at hrun hroom hfuel
      rw [length_cons] at hroom hfuel
      obtain ⟨t, o, rest, hstep, hrest, rfl⟩ := decodeRun_cons_eq_some hrun
      have hread : ({ v.take with ps } : Base64DecodeVars).Holds s :=
        ⟨htake.lt, htake.le, htake.zero, htake.stale, htake.bits, htake.ustat, htake.eos⟩
      obtain ⟨w, v', hw, hemit, hv', hps', hpd', hocnt'⟩ := hread.read hun hcnt hstep
        (by show v.take.ocnt > 0; omega)
      have hone := decodeStep_length hstep
      have hroom' : v'.ps.length ≤ v'.ocnt := by
        rw [hps', hocnt']
        show ps.length ≤ v.take.ocnt - o.length
        omega
      have hrest' : decodeRun t v'.ps = some (s', rest) := by rw [hps']; exact hrest
      obtain ⟨v'', hloop, hholds, hun', hnil, hpd''⟩ :=
        ih hv' hrest' hroom' (by rw [hps']; show ps.length < fuel; omega)
      refine ⟨v'', ?_, hholds, hun', hnil, ?_⟩
      · dsimp only
        rw [hw]
        dsimp only
        rw [hemit]
        exact hloop
      · rw [hpd'', hpd', append_assoc]
        exact congrArg (· ++ (o ++ rest)) hpd

theorem phpConvBase64DecodeConvert_eq {inst : Base64Decode} {s s' : Pending} {ps out : List UInt8}
    (h : inst.Holds s) (hrun : decodeRun s ps = some (s', out)) {room : Nat}
    (hroom : ps.length ≤ room) :
    ∃ inst', phpConvBase64DecodeConvert inst (some ps) room =
      some { inst := inst', rest := [], out, err := .success } ∧ inst'.Holds s' := by
  let v : Base64DecodeVars :=
    { ps, pd := [], ocnt := room, urem := inst.urem, uremNbits := inst.uremNbits
      ustat := inst.ustat, eos := inst.eos, pack := 0, packBcnt := nbitsofPack }
  have hv : v.Holds s := by
    refine ⟨h.lt, Nat.le_refl 8, fun j _ => BitVec.getLsbD_zero, fun i hi hi' _ => ?_, ?_, h.ustat,
      h.eos⟩
    · exact absurd hi' (Nat.not_lt.mpr hi)
    · exact h.bits
  obtain ⟨v', hloop, hholds, hun, hps, hpd⟩ :=
    hv.loop hrun hroom (Nat.lt_add_of_pos_right Nat.two_pos : ps.length < ps.length + 2)
  obtain ⟨hcount, hbits⟩ := hholds.leave hun
  have hlen := hholds.length
  have hlt := hholds.lt
  refine ⟨v'.leave, ?_, ⟨?_, hbits.symm, hholds.ustat, hholds.eos⟩⟩
  · show (v.loop (ps.length + 2)).map _ = _
    rw [hloop]
    show some (Converted.mk v'.leave v'.ps v'.pd .success) = _
    rw [hps, hpd]
    rfl
  · rw [hcount]
    omega

theorem decodeFilter_eq {inst : ConvertFilter Base64Decode} (hstub : inst.stub = [])
    {s s' : Pending} (h : inst.cd.Holds s) {ys : List (List UInt8)} {out : List UInt8}
    (hrun : decodeRun s ys.flatten = some (s', out)) :
    ∃ inst' buckets, inst'.cd.Holds s' ∧ buckets.flatten = out ∧ ∀ fuel, 2 ≤ fuel →
      strfilterConvertFilter phpConvBase64DecodeConvert fuel inst (ys.map some ++ [none]) =
        .success inst' buckets := by
  induction ys generalizing inst s out with
  | nil =>
    obtain ⟨rfl, rfl⟩ := Prod.mk.inj (Option.some.inj hrun)
    refine ⟨inst, [], h, rfl, fun fuel hfuel => ?_⟩
    obtain ⟨err, hop, herr⟩ : ∃ err, phpConvBase64DecodeConvert inst.cd none 64 =
        some { inst := inst.cd, rest := [], out := [], err } ∧
          (err = .success ∨ err = .unexpectedEos) := by
      refine ⟨_, rfl, ?_⟩
      split
      · exact .inl rfl
      · exact .inr rfl
    show strfilterConvertFilter _ fuel inst [none] = _
    rw [strfilterConvertFilter, append_null hstub hop herr rfl hfuel]
    rfl
  | cons y ys ih =>
    obtain ⟨t, o, rest, hy, hys, rfl⟩ := decodeRun_append_eq_some hrun
    by_cases hnil : y = []
    · subst hnil
      obtain ⟨rfl, rfl⟩ := Prod.mk.inj (Option.some.inj hy)
      obtain ⟨inst', buckets, hholds, hflatten, hfilter⟩ := ih hstub h hys
      refine ⟨inst', buckets, hholds, hflatten, fun fuel hfuel => ?_⟩
      show strfilterConvertFilter _ fuel inst (some [] :: (ys.map some ++ [none])) = _
      rw [strfilterConvertFilter, append_nil hstub (by omega)]
      simp only [hfilter fuel hfuel, nil_append]
    · obtain ⟨cd, hop, hcd⟩ := phpConvBase64DecodeConvert_eq h hy (Nat.le_refl y.length)
      obtain ⟨buckets, hflatten, happend⟩ := append_once hstub hnil hop rfl rfl
      obtain ⟨inst', buckets', hholds, hflatten', hfilter⟩ :=
        @ih { inst with cd } hstub _ hcd _ hys
      refine ⟨inst', buckets ++ buckets', hholds, ?_, fun fuel hfuel => ?_⟩
      · rw [flatten_append, hflatten, hflatten']
      · show strfilterConvertFilter _ fuel inst (some y :: (ys.map some ++ [none])) = _
        rw [strfilterConvertFilter, happend fuel hfuel]
        simp only [hfilter fuel hfuel]

theorem lowBits_of_mod {x y n : Nat} (h : x % 2 ^ n = y % 2 ^ n) : lowBits x n = lowBits y n := by
  refine lowBits_congr fun i hi => ?_
  have hx := Nat.testBit_mod_two_pow x n i
  have hy := Nat.testBit_mod_two_pow y n i
  rw [decide_eq_true hi, Bool.true_and] at hx hy
  rw [← hx, ← hy, h]

theorem b64Dec_base64Digit (n : Nat) : b64Dec (base64Digit n) = BitVec.ofNat 32 (n % 64) := by
  have htable : ((range 64).all fun k =>
      b64Dec (base64Alphabet.getD k 0) = BitVec.ofNat 32 k) = true := by
    rw [base64Alphabet_eq]
    decide +kernel
  have hmem : n % 64 ∈ range 64 := mem_range.mpr (Nat.mod_lt n (by decide))
  exact of_decide_eq_true (all_eq_true.mp htable _ hmem)

theorem decodeStep_digit (bits : List Bool) (n : Nat) :
    decodeStep (bits, false) (base64Digit n) = some (addBits bits (BitVec.ofNat 32 (n % 64))) := by
  have hlt : n % 64 < 64 := Nat.mod_lt n (by decide)
  have hdigit : ∀ k, k < 64 → BitVec.ofNat 32 k &&& 0xc0 = 0 ∧ BitVec.ofNat 32 k &&& 0x80 = 0 := by
    decide
  obtain ⟨hc0, h80⟩ := hdigit _ hlt
  rw [decodeStep, b64Dec_base64Digit]
  dsimp only
  rw [if_pos hc0, h80]
  rfl

theorem decodeRun_digits {ds : List Nat} {bits rest : List Bool} {bytes : List UInt8}
    (hbits : bits.length < 8) (hrest : rest.length < 8)
    (h : bits ++ ds.flatMap (lowBits · 6) = bytes.flatMap (lowBits ·.toNat 8) ++ rest) :
    decodeRun (bits, false) (ds.map base64Digit) = some ((rest, false), bytes) := by
  induction ds generalizing bits bytes with
  | nil =>
    cases bytes with
    | nil =>
      have hnil : bits = rest := by simpa using h
      rw [hnil]
      rfl
    | cons b bytes =>
      have hlen := congrArg List.length h
      simp only [flatMap_nil, List.append_nil, flatMap_cons, length_append,
        length_lowBits] at hlen
      omega
  | cons d ds ih =>
    have hsix : lowBits (BitVec.ofNat 32 (d % 64)).toNat 6 = lowBits d 6 :=
      lowBits_of_mod (by rw [BitVec.toNat_ofNat]; omega)
    rw [flatMap_cons, ← append_assoc] at h
    have hlen := congrArg List.length h
    simp only [length_append, length_lowBits] at hlen
    rw [map_cons]
    by_cases hshort : (bits ++ lowBits d 6).length < 8
    · have hstep := decodeStep_digit bits d
      rw [addBits, hsix, if_pos hshort] at hstep
      exact decodeRun_cons hstep (ih hshort h)
    · have hlong : 8 ≤ (bits ++ lowBits d 6).length := Nat.le_of_not_lt hshort
      cases bytes with
      | nil =>
        rw [length_append, length_lowBits] at hlong
        simp only [flatMap_nil, length_nil] at hlen
        omega
      | cons b bytes =>
        rw [flatMap_cons, append_assoc (lowBits b.toNat 8)] at h
        have htake : (bits ++ lowBits d 6).take 8 = lowBits b.toNat 8 := by
          have htake := congrArg (List.take 8) h
          rwa [take_append_of_le_length hlong, take_left' (length_lowBits _ _)] at htake
        have hdrop : (bits ++ lowBits d 6).drop 8 ++ ds.flatMap (lowBits · 6) =
            bytes.flatMap (lowBits ·.toNat 8) ++ rest := by
          have hdrop := congrArg (List.drop 8) h
          rwa [drop_append_of_le_length hlong, drop_left' (length_lowBits _ _)] at hdrop
        have hbyte : UInt8.ofNat (ofBits ((bits ++ lowBits d 6).take 8)) = b := by
          rw [htake, ofBits_lowBits]
          exact UInt8.toNat_inj.mp (by rw [UInt8.toNat_ofNat', Nat.mod_mod, Nat.mod_eq_of_lt b.toNat_lt])
        have hstep := decodeStep_digit bits d
        rw [addBits, hsix, if_neg hshort, hbyte] at hstep
        refine decodeRun_cons hstep (ih ?_ hdrop)
        rw [length_drop, length_append, length_lowBits]
        omega

theorem decodeRun_group3 (a b c : UInt8) :
    decodeRun ([], false) (group3 a b c) = some (([], false), [a, b, c]) := by
  have hb := b.toNat_lt
  have hc := c.toNat_lt
  generalize hn : a.toNat * 2 ^ 16 + b.toNat * 2 ^ 8 + c.toNat = n
  have hgroup : group3 a b c = [n / 2 ^ 18, n / 2 ^ 12, n / 2 ^ 6, n].map base64Digit := by
    have heq := group3_eq a b c []
    rw [base64Text, hn, base64Text, List.append_nil] at heq
    exact heq
  have hbytes : lowBits n 24 = [a, b, c].flatMap (lowBits ·.toNat 8) := by
    have ha : lowBits (n >>> 8 >>> 8) 8 = lowBits a.toNat 8 :=
      lowBits_of_mod (by rw [Nat.shiftRight_eq_div_pow, Nat.shiftRight_eq_div_pow]; omega)
    have hb : lowBits (n >>> 8) 8 = lowBits b.toNat 8 :=
      lowBits_of_mod (by rw [Nat.shiftRight_eq_div_pow]; omega)
    have hc : lowBits n 8 = lowBits c.toNat 8 := lowBits_of_mod (by omega)
    rw [show 24 = 8 + 8 + 8 from rfl, lowBits_add, lowBits_add, ha, hb, hc, append_assoc]
    rfl
  rw [hgroup]
  refine decodeRun_digits (Nat.zero_lt_succ 7) (Nat.zero_lt_succ 7) ?_
  rw [← hbytes, List.append_nil, nil_append, show 24 = 6 + 6 + 6 + 6 from rfl, lowBits_add,
    lowBits_add, lowBits_add]
  simp only [flatMap_cons, flatMap_nil, List.append_nil, append_assoc,
    Nat.shiftRight_eq_div_pow, Nat.div_div_eq_div_mul, ← Nat.pow_add]

theorem decodeStep_padding {bits : List Bool} (hbits : bits.length ≠ 0 ∧ bits.length ≠ 6)
    (padded : Bool) : decodeStep (bits, padded) (ch '=') = some ((bits, true), []) := by
  have hpad : b64Dec (ch '=') = 128 := by decide +kernel
  rw [decodeStep, hpad]
  dsimp only
  rw [if_neg (by decide), if_neg fun hboth => hboth.2.elim hbits.1 hbits.2]
  simp

theorem decodeRun_group2 (a b : UInt8) :
    ∃ bits, decodeRun ([], false) (group2 a b) = some ((bits, true), [a, b]) := by
  have hb := b.toNat_lt
  generalize hn : a.toNat * 2 ^ 10 + b.toNat * 2 ^ 2 = n
  have hgroup : group2 a b = [n / 2 ^ 12, n / 2 ^ 6, n].map base64Digit ++ [ch '='] := by
    rw [group2_eq, base64Text, hn]
    rfl
  have hbytes : lowBits n 18 = [a, b].flatMap (lowBits ·.toNat 8) ++ lowBits n 2 := by
    have ha : lowBits (n >>> 2 >>> 8) 8 = lowBits a.toNat 8 :=
      lowBits_of_mod (by rw [Nat.shiftRight_eq_div_pow, Nat.shiftRight_eq_div_pow]; omega)
    have hb : lowBits (n >>> 2) 8 = lowBits b.toNat 8 :=
      lowBits_of_mod (by rw [Nat.shiftRight_eq_div_pow]; omega)
    rw [show 18 = 8 + 8 + 2 from rfl, lowBits_add, lowBits_add, ha, hb]
    rfl
  have hdigits : decodeRun ([], false) ([n / 2 ^ 12, n / 2 ^ 6, n].map base64Digit) =
      some ((lowBits n 2, false), [a, b]) := by
    refine decodeRun_digits (Nat.zero_lt_succ 7) (by rw [length_lowBits]; decide) ?_
    rw [← hbytes, nil_append, show 18 = 6 + 6 + 6 from rfl, lowBits_add, lowBits_add]
    simp only [flatMap_cons, flatMap_nil, List.append_nil, append_assoc,
      Nat.shiftRight_eq_div_pow, Nat.div_div_eq_div_mul, ← Nat.pow_add]
  refine ⟨lowBits n 2, ?_⟩
  rw [hgroup]
  exact decodeRun_append hdigits
    (decodeRun_cons (decodeStep_padding (by rw [length_lowBits]; decide) false) rfl)

theorem decodeRun_group1 (a : UInt8) :
    ∃ bits, decodeRun ([], false) (group1 a) = some ((bits, true), [a]) := by
  generalize hn : a.toNat * 2 ^ 4 = n
  have hgroup : group1 a = [n / 2 ^ 6, n].map base64Digit ++ [ch '=', ch '='] := by
    rw [group1_eq, base64Text, hn]
    rfl
  have hbytes : lowBits n 12 = [a].flatMap (lowBits ·.toNat 8) ++ lowBits n 4 := by
    have ha : lowBits (n >>> 4) 8 = lowBits a.toNat 8 :=
      lowBits_of_mod (by rw [Nat.shiftRight_eq_div_pow]; omega)
    rw [show 12 = 8 + 4 from rfl, lowBits_add, ha]
    rfl
  have hdigits : decodeRun ([], false) ([n / 2 ^ 6, n].map base64Digit) =
      some ((lowBits n 4, false), [a]) := by
    refine decodeRun_digits (Nat.zero_lt_succ 7) (by rw [length_lowBits]; decide) ?_
    rw [← hbytes, nil_append, show 12 = 6 + 6 from rfl, lowBits_add]
    simp only [flatMap_cons, flatMap_nil, List.append_nil, Nat.shiftRight_eq_div_pow]
  have hlen : (lowBits n 4).length ≠ 0 ∧ (lowBits n 4).length ≠ 6 := by
    rw [length_lowBits]
    decide
  refine ⟨lowBits n 4, ?_⟩
  rw [hgroup]
  exact decodeRun_append hdigits
    (decodeRun_cons (decodeStep_padding hlen false) (decodeRun_cons (decodeStep_padding hlen true) rfl))

def Skipped (c : UInt8) : Prop := b64Dec c = 64

instance (c : UInt8) : Decidable (Skipped c) := inferInstanceAs (Decidable (_ = _))

theorem decodeRun_skipped {lb : List UInt8} (h : ∀ c ∈ lb, Skipped c) (bits : List Bool) :
    decodeRun (bits, false) lb = some ((bits, false), []) := by
  induction lb with
  | nil => rfl
  | cons c cs ih =>
    have hstep : decodeStep (bits, false) c = some ((bits, false), []) := by
      rw [decodeStep, h c mem_cons_self]
      rfl
    exact decodeRun_cons hstep (ih fun c hc => h c (mem_cons_of_mem _ hc))

theorem decodeRun_breakGroups_cons {lb : Option (List UInt8)} (h : ∀ c ∈ lb.getD [], Skipped c)
    (lineLen ccnt : BitVec 32) {g : List UInt8} {t : Pending} {out : List UInt8}
    (hg : decodeRun ([], false) g = some (t, out)) (gs : List (List UInt8)) :
    ∃ ccnt', ∀ u rest, decodeRun t (breakGroups lb lineLen ccnt' gs) = some (u, rest) →
      decodeRun ([], false) (breakGroups lb lineLen ccnt (g :: gs)) = some (u, out ++ rest) := by
  cases lb with
  | none =>
    refine ⟨ccnt - 4, fun u rest hrest => ?_⟩
    rw [breakGroups]
    exact decodeRun_append hg hrest
  | some lb =>
    rw [breakGroups]
    by_cases hccnt : ccnt < 4
    · refine ⟨lineLen - 4, fun u rest hrest => ?_⟩
      have hlb : decodeRun ([], false) lb = some (([], false), []) := decodeRun_skipped h []
      have hrun := decodeRun_append hlb (decodeRun_append hg hrest)
      rw [nil_append] at hrun
      simp only [if_pos hccnt]
      exact hrun
    · refine ⟨ccnt - 4, fun u rest hrest => ?_⟩
      simp only [if_neg hccnt]
      exact decodeRun_append hg hrest

theorem decodeRun_breakGroups {lb : Option (List UInt8)} (h : ∀ c ∈ lb.getD [], Skipped c)
    (lineLen ccnt : BitVec 32) (xs : List UInt8) :
    ∃ s, decodeRun ([], false) (breakGroups lb lineLen ccnt (base64Groups xs)) = some (s, xs) ∧
      (s.2 = true ∨ s.1 = []) := by
  induction xs using base64Groups.induct generalizing ccnt with
  | case1 a b c xs ih =>
    obtain ⟨ccnt', hgroup⟩ :=
      decodeRun_breakGroups_cons h lineLen ccnt (decodeRun_group3 a b c) (base64Groups xs)
    obtain ⟨s, hrest, hs⟩ := ih ccnt'
    exact ⟨s, hgroup s xs hrest, hs⟩
  | case2 a b =>
    obtain ⟨bits, hbits⟩ := decodeRun_group2 a b
    obtain ⟨ccnt', hgroup⟩ := decodeRun_breakGroups_cons h lineLen ccnt hbits []
    exact ⟨(bits, true), hgroup _ [] rfl, .inl rfl⟩
  | case3 a =>
    obtain ⟨bits, hbits⟩ := decodeRun_group1 a
    obtain ⟨ccnt', hgroup⟩ := decodeRun_breakGroups_cons h lineLen ccnt hbits []
    exact ⟨(bits, true), hgroup _ [] rfl, .inl rfl⟩
  | case4 => exact ⟨([], false), rfl, .inr rfl⟩

theorem decodeRun_encodedText {lbchars : Option (List UInt8)} {lineLen : BitVec 32}
    (h : ¬ lineLen < 4 → ∀ c ∈ lbchars.getD [ch '\r', ch '\n'], Skipped c) (xs : List UInt8) :
    ∃ s, decodeRun ([], false) (encodedText lbchars lineLen xs) = some (s, xs) ∧
      (s.2 = true ∨ s.1 = []) := by
  have hgroups := fun g (hg : g ∈ base64Groups xs) => length_of_mem_base64Groups hg
  rw [encodedText, ← flatten_base64Groups]
  split
  · rw [← breakGroups_none 0 0]
    exact decodeRun_breakGroups (fun _ hc => absurd hc not_mem_nil) 0 0 xs
  · rename_i hlen
    rw [← breakGroups_eq_breakLines _ hlen hgroups]
    exact decodeRun_breakGroups (h hlen) lineLen lineLen xs

theorem Base64Decode.ctor_holds : Base64Decode.ctor.Holds ([], false) :=
  ⟨by decide, rfl, by decide, nofun⟩

theorem Base64Decode.Holds.flush {inst : Base64Decode} {s : Pending} (h : inst.Holds s)
    (hs : s.2 = true ∨ s.1 = []) (room : Nat) :
    phpConvBase64DecodeConvert inst none room =
      some { inst, rest := [], out := [], err := .success } := by
  have hdone : inst.eos = true ∨ inst.uremNbits = 0 := by
    refine hs.imp h.eos fun hnil => ?_
    rw [← length_lowBits inst.urem.toNat inst.uremNbits, ← h.bits, hnil]
    rfl
  rw [phpConvBase64DecodeConvert, if_pos hdone]

/-- The encoder writes base64 text in lines of as many whole groups as `line-length` has room for,
however its input is split, and the decoder reads the input back, however the text is split. -/
theorem base64_roundTrip {lbchars : Option (List UInt8)}
    (hlen : (lbchars.getD []).length < 2 ^ 31) (hnul : ∀ c ∈ (lbchars.getD []).dropLast, c ≠ 0)
    (lineLen : BitVec 32) (behind : List UInt8) (xs : List (List UInt8)) :
    (∃ fuel inst' buckets, buckets.flatten = encodedText lbchars lineLen xs.flatten ∧
      ∀ k, fuel ≤ k → strfilterConvertFilter phpConvBase64EncodeConvert k
        { cd := .convOpen lbchars lineLen behind, stub := [] } (xs.map some ++ [none]) =
          .success inst' buckets) ∧
    ((¬ lineLen < 4 → ∀ c ∈ lbchars.getD [ch '\r', ch '\n'], Skipped c) →
      ∀ ys : List (List UInt8), ys.flatten = encodedText lbchars lineLen xs.flatten →
        ∃ inst' buckets, buckets.flatten = xs.flatten ∧
          (∀ room, phpConvBase64DecodeConvert inst'.cd none room =
            some { inst := inst'.cd, rest := [], out := [], err := .success }) ∧
          ∀ k, 2 ≤ k → strfilterConvertFilter phpConvBase64DecodeConvert k
            { cd := .ctor, stub := [] } (ys.map some ++ [none]) = .success inst' buckets) := by
  constructor
  · have hdup : pestrdup (lbchars.getD [ch '\r', ch '\n']) behind =
        lbchars.getD [ch '\r', ch '\n'] := by
      refine pestrdup_eq ?_ behind
      cases lbchars with
      | none => exact List.all_iff_forall_prop.mp (by decide +kernel)
      | some lb => exact hnul
    have hok : (Base64Encode.convOpen lbchars lineLen behind).Ok
        (Base64Encode.convOpen lbchars lineLen behind).lbchars := by
      rw [Base64Encode.convOpen]
      split
      · exact ⟨Nat.zero_le 2, rfl, fun he => by cases he⟩
      · exact ⟨Nat.zero_le 2, rfl, fun _ => ‹_›⟩
    have hneed : Base64Encode.need (Base64Encode.convOpen lbchars lineLen behind).lbchars ≤ 2 ^ 63 := by
      rw [Base64Encode.convOpen, Base64Encode.need]
      split
      · decide
      · simp only [hdup, Option.getD_some]
        cases lbchars with
        | none => decide +kernel
        | some lb =>
          have hlen : lb.length < 2 ^ 31 := hlen
          show lb.length + 4 ≤ _
          omega
    obtain ⟨fuel, inst', buckets, hflatten, hrun⟩ :=
      filter_resumes (phpConvBase64EncodeConvert_resumes _) hneed
        (show (ConvertFilter.mk (Base64Encode.convOpen lbchars lineLen behind) []).stub = [] from rfl)
        hok (.of_forall (fun _ _ _ => trivial) _ (xs.map some ++ [none]))
    exact ⟨fuel, inst', buckets, hflatten.trans (sem_convOpen hnul lineLen behind _), hrun⟩
  · intro hskip ys hys
    obtain ⟨s, hrun, hs⟩ := decodeRun_encodedText hskip xs.flatten
    rw [← hys] at hrun
    obtain ⟨inst', buckets, hholds, hflatten, hfilter⟩ :=
      @decodeFilter_eq ⟨.ctor, []⟩ rfl _ _ Base64Decode.ctor_holds _ _ hrun
    exact ⟨inst', buckets, hflatten, hholds.flush hs, hfilter⟩

theorem encodedText_foob :
    encodedText (some [ch '\n']) 6 [102, 111, 111, 98] = "Zm9v\nYg==".toList.map ch := by
  rw [encodedText, if_neg (by decide), breakLines, if_neg (by decide), breakLines,
    if_pos (by decide)]
  decide +kernel

theorem base64_roundTrip_foob :
    (∃ fuel inst' buckets, buckets.flatten =
        encodedText (some [ch '\n']) 6 [[102, 111], [111, 98]].flatten ∧
      ∀ k, fuel ≤ k → strfilterConvertFilter phpConvBase64EncodeConvert k
        { cd := .convOpen (some [ch '\n']) 6 [], stub := [] }
        ([[102, 111], [111, 98]].map some ++ [none]) = .success inst' buckets) ∧
    ∃ inst' buckets, buckets.flatten = [[102, 111], [111, 98]].flatten ∧
      (∀ room, phpConvBase64DecodeConvert inst'.cd none room =
        some { inst := inst'.cd, rest := [], out := [], err := .success }) ∧
      ∀ k, 2 ≤ k → strfilterConvertFilter phpConvBase64DecodeConvert k
        { cd := .ctor, stub := [] }
        (["Zm9".toList.map ch, "v\nYg==".toList.map ch].map some ++ [none]) =
          .success inst' buckets := by
  obtain ⟨hencode, hdecode⟩ :=
    @base64_roundTrip (some [ch '\n']) (by decide +kernel)
      (List.all_iff_forall_prop.mp (by decide +kernel)) 6 [] [[102, 111], [111, 98]]
  exact ⟨hencode, hdecode (fun _ => List.all_iff_forall_prop.mp (by decide +kernel)) _ encodedText_foob.symm⟩

/-- `line-length` 5: the break is behind the fourth character. -/
theorem line_of_four : ∃ inst' buckets,
    strfilterConvertFilter phpConvBase64EncodeConvert 4
      { cd := .convOpen (some [ch '\n']) 5 [], stub := [] }
      ([[102, 111, 111, 98, 97, 114]].map some ++ [none]) = .success inst' buckets ∧
    buckets.flatten ≠
      breakLines 5 [ch '\n'] (base64Text [[102, 111, 111, 98, 97, 114]].flatten) := by
  have hlines : breakLines 5 [ch '\n'] (base64Text [[102, 111, 111, 98, 97, 114]].flatten) =
      (base64Text [102, 111, 111, 98, 97, 114]).take 5 ++
        ([ch '\n'] ++ (base64Text [102, 111, 111, 98, 97, 114]).drop 5) := by
    rw [breakLines, if_neg (by decide), breakLines, if_pos (by decide)]
    rfl
  rw [hlines]
  exact ⟨_, _, rfl, by decide +kernel⟩

end Php53.Standard
