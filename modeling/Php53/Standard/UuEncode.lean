import Php53.Reasoning.Narrow
import Php53.Main.QueryText
import Mathlib.Tactic.IntervalCases

/-!
# UuEncode — `php_uuencode` and `php_uudecode`

`s` and `e` are offsets into the source, behind whose last byte stands the NUL, and `p` is the
number of bytes written.  `block` is what `safe_emalloc` returned.  Touching a byte outside of the
source with its NUL or outside of the block stops a function.  The lengths that are passed on are
those of an `int`.
-/

namespace Php53.Standard

open Reasoning Php53.Zend Php53.Main List

inductive UuFault where
  /-- A byte outside of its string or block is touched. -/
  | outside
  /-- The size of a block is negative. -/
  | size
  /-- The label `err`: the function returns -1. -/
  | err
  /-- The loop of the model had not enough fuel. -/
  | fuel
  deriving DecidableEq

/-- `*(src + i)`. -/
def uuRead (src : List UInt8) (i : ℕ) : Except UuFault UInt8 :=
  if i ≤ src.length then .ok (byteAt src i) else .error .outside

/-- `*p++ = c`, where `out` has been written. -/
def uuPut (block out : List UInt8) (c : UInt8) : Except UuFault (List UInt8) :=
  if out.length < block.length then .ok (out ++ [c]) else .error .outside

def uuPutAll (block : List UInt8) : List UInt8 → List UInt8 → Except UuFault (List UInt8)
  | out, [] => .ok out
  | out, c :: cs => do
    let out ← uuPut block out c
    uuPutAll block out cs

/-- A `char` is signed. -/
def charInt (c : UInt8) : BitVec 32 := c.toBitVec.signExtend 32

def uuEnc (c : BitVec 32) : UInt8 :=
  if c ≠ 0 then UInt8.ofBitVec (((c &&& 0o77) + 32).setWidth 8) else ch '`'

/-- `PHP_UU_ENC(*s >> 2)`. -/
def uuEncC1 (a : UInt8) : UInt8 := uuEnc ((charInt a).sshiftRight 2)

/-- `PHP_UU_ENC_C2` for the bytes at `s` and `s + 1`. -/
def uuEncC2 (a b : UInt8) : UInt8 :=
  uuEnc (((charInt a <<< 4) &&& 0o60) ||| ((charInt b).sshiftRight 4 &&& 0o17))

/-- `PHP_UU_ENC_C3` for the bytes at `s + 1` and `s + 2`. -/
def uuEncC3 (b c : UInt8) : UInt8 :=
  uuEnc (((charInt b <<< 2) &&& 0o74) ||| ((charInt c).sshiftRight 6 &&& 0o3))

/-- `PHP_UU_ENC(*(s + 2) & 077)`. -/
def uuEncC4 (c : UInt8) : UInt8 := uuEnc (charInt c &&& 0o77)

def uuDec (c : UInt8) : BitVec 32 := (charInt c - 32) &&& 0o77

/-- The loop over the groups of a line. -/
def uuEncodeGroups (block src : List UInt8) : ℕ → ℕ → ℕ → List UInt8 →
    Except UuFault (ℕ × List UInt8)
  | 0, _, _, _ => .error .fuel
  | fuel + 1, ee, s, out =>
    if s < ee then do
      let a ← uuRead src s
      let b ← uuRead src (s + 1)
      let c ← uuRead src (s + 2)
      let out ← uuPutAll block out [uuEncC1 a, uuEncC2 a b, uuEncC3 b c, uuEncC4 c]
      uuEncodeGroups block src fuel ee (s + 3) out
    else .ok (s, out)

/-- `ee` and `len` of the line that starts at `s`. -/
def uuLineEnd (e s len : ℕ) : ℕ × ℕ :=
  let ee := s + len
  if ee > e then
    let len := e - s
    if len % 3 ≠ 0 then (s + len / 3 * 3, len) else (e, len)
  else (ee, len)

/-- `if (len == 45) *p++ = '\n'` -/
def uuFullLineBreak (block out : List UInt8) (len : ℕ) : Except UuFault (List UInt8) :=
  if len = 45 then uuPut block out (ch '\n') else .ok out

/-- The loop over the lines; it leaves `s`, what is written, and `len`. -/
def uuEncodeLines (block src : List UInt8) : ℕ → ℕ → ℕ → List UInt8 →
    Except UuFault (ℕ × List UInt8 × ℕ)
  | 0, _, _, _ => .error .fuel
  | fuel + 1, len, s, out =>
    if s + 3 < src.length then do
      let (ee, len) := uuLineEnd src.length s len
      let out ← uuPut block out (uuEnc (BitVec.ofNat 32 len))
      let (s, out) ← uuEncodeGroups block src (src.length + 1) ee s out
      let out ← uuFullLineBreak block out len
      uuEncodeLines block src fuel len s out
    else .ok (s, out, len)

/-- `((e - s) > 1) ? PHP_UU_ENC_C3(s) : PHP_UU_ENC('\0')`, where `b` is `*(s + 1)`. -/
def uuLastC3 (src : List UInt8) (s : ℕ) (b : UInt8) : Except UuFault UInt8 :=
  if src.length - s > 1 then (uuRead src (s + 2)).map (uuEncC3 b) else .ok (uuEnc 0)

/-- `((e - s) > 2) ? PHP_UU_ENC(*(s + 2) & 077) : PHP_UU_ENC('\0')`. -/
def uuLastC4 (src : List UInt8) (s : ℕ) : Except UuFault UInt8 :=
  if src.length - s > 2 then (uuRead src (s + 2)).map uuEncC4 else .ok (uuEnc 0)

/-- The group of the last bytes, `s < e`. -/
def uuEncodeLast (block src : List UInt8) (s : ℕ) (out : List UInt8) :
    Except UuFault (List UInt8) := do
  let a ← uuRead src s
  let b ← uuRead src (s + 1)
  let out ← uuPutAll block out [uuEncC1 a, uuEncC2 a b]
  let c3 ← uuLastC3 src s b
  let out ← uuPut block out c3
  let c4 ← uuLastC4 src s
  uuPut block out c4

/-- The last bytes: the length of the line first if they start one. -/
def uuEncodeRest (block src : List UInt8) (s len : ℕ) (out : List UInt8) :
    Except UuFault (List UInt8 × ℕ) :=
  if len = 45 then do
    let out ← uuPut block out (uuEnc (BitVec.ofNat 32 (src.length - s)))
    let out ← uuEncodeLast block src s out
    return (out, 0)
  else do
    let out ← uuEncodeLast block src s out
    return (out, len)

/-- `if (len < 45) *p++ = '\n'` -/
def uuLastLineBreak (block out : List UInt8) (len : ℕ) : Except UuFault (List UInt8) :=
  if len < 45 then uuPut block out (ch '\n') else .ok out

def uuEncodeStop (block out : List UInt8) (len : ℕ) : Except UuFault (List UInt8) := do
  let out ← uuLastLineBreak block out len
  let out ← uuPutAll block out [uuEnc 0, ch '\n']
  let _ ← uuPut block out 0
  return out

def uuEncodeEnd (block src : List UInt8) (s : ℕ) (out : List UInt8) (len : ℕ) :
    Except UuFault (List UInt8) :=
  if s < src.length then do
    let (out, len) ← uuEncodeRest block src s len out
    uuEncodeStop block out len
  else uuEncodeStop block out len

/-- The bytes that are written, and the result `p - *dest`. -/
def php_uuencode (block src : List UInt8) : Except UuFault (List UInt8 × Int) := do
  let (s, out, len) ← uuEncodeLines block src (src.length + 1) 45 0 []
  let out ← uuEncodeEnd block src s out len
  return (out, (out.length : Int).bmod (2 ^ 32))

/-- `safe_emalloc((size_t) ceil(src_len * 1.38), 1, 46)`, rounded down. -/
def uuencodeRoom (src_len : ℕ) : ℕ := src_len * 138 / 100 + 46

def uuDecodeGroup (w x y z : UInt8) : List UInt8 :=
  [.ofBitVec ((uuDec w <<< 2 ||| (uuDec x).sshiftRight 4).setWidth 8),
    .ofBitVec ((uuDec x <<< 4 ||| (uuDec y).sshiftRight 2).setWidth 8),
    .ofBitVec ((uuDec y <<< 6 ||| uuDec z).setWidth 8)]

/-- The loop over the groups of a line. -/
def uuDecodeGroups (block src : List UInt8) : ℕ → ℕ → ℕ → List UInt8 →
    Except UuFault (ℕ × List UInt8)
  | 0, _, _, _ => .error .fuel
  | fuel + 1, ee, s, out =>
    if s < ee then
      if s + 4 > src.length then .error .err
      else do
        let w ← uuRead src s
        let x ← uuRead src (s + 1)
        let y ← uuRead src (s + 2)
        let z ← uuRead src (s + 3)
        let out ← uuPutAll block out (uuDecodeGroup w x y z)
        uuDecodeGroups block src fuel ee (s + 4) out
    else .ok (s, out)

/-- The loop over the lines; it leaves `s`, what is written, and `total_len`. -/
def uuDecodeLines (block src : List UInt8) : ℕ → ℕ → List UInt8 → ℕ →
    Except UuFault (ℕ × List UInt8 × ℕ)
  | 0, _, _, _ => .error .fuel
  | fuel + 1, s, out, total_len =>
    if s < src.length then do
      let c ← uuRead src s
      let len := (uuDec c).toNat
      let s := s + 1
      if len = 0 then .ok (s, out, total_len)
      else if len > src.length then .error .err
      else
        let total_len := total_len + len
        let ee := s + if len = 45 then 60 else len * 133 / 100
        if ee > src.length then .error .err
        else do
          let (s, out) ← uuDecodeGroups block src (src.length + 1) ee s out
          if len < 45 then .ok (s, out, total_len)
          else uuDecodeLines block src fuel (s + 1) out total_len
    else .ok (s, out, total_len)

/-- The `total_len` bytes that are returned.  `len` of the last group is the outcome of a
comparison, so that only its first byte can be missing. -/
def uuDecodeText (block src : List UInt8) : Except UuFault (List UInt8) := do
  let (s, out, total_len) ← uuDecodeLines block src (src.length + 1) 0 [] 0
  let out ←
    if total_len > out.length then do
      let w ← uuRead src s
      let x ← uuRead src (s + 1)
      uuPutAll block out ((uuDecodeGroup w x 0 0).take 1)
    else .ok out
  if total_len < block.length then .ok ((out ++ block.drop out.length).take total_len)
  else .error .outside

/-- The source ends behind `src_len` bytes. -/
def php_uudecode (block src : List UInt8) (src_len : Int) : Except UuFault (List UInt8) :=
  if src_len < 0 then .error .size else uuDecodeText block (src.take src_len.toNat)

/-- `safe_emalloc((size_t) ceil(src_len * 0.75), 1, 1)`, rounded down. -/
def uudecodeRoom (src_len : ℕ) : ℕ := src_len * 75 / 100 + 1

variable {block src out : List UInt8} {s : ℕ} {len : ℕ}

theorem uuRead_of_le {i : ℕ} (h : i ≤ src.length) : uuRead src i = .ok (byteAt src i) := if_pos h

theorem uuPut_of_lt (c : UInt8) (h : out.length < block.length) :
    uuPut block out c = .ok (out ++ [c]) := if_pos h

theorem uuPutAll_of_le (cs : List UInt8) (h : out.length + cs.length ≤ block.length) :
    uuPutAll block out cs = .ok (out ++ cs) := by
  induction cs generalizing out with
  | nil => rw [List.append_nil, uuPutAll]
  | cons c cs ih =>
    rw [length_cons] at h
    have hlength : (out ++ [c]).length = out.length + 1 := by simp
    have hrest := @ih (out ++ [c]) (by omega)
    rw [uuPutAll, uuPut_of_lt c (by omega), append_cons out c cs]
    exact hrest

theorem byteAt_drop (src : List UInt8) (s k : ℕ) : byteAt src (s + k) = byteAt (src.drop s) k := by
  unfold byteAt
  rw [List.getD_eq_getElem?_getD, List.getD_eq_getElem?_getD, List.getElem?_drop]

theorem length_of_drop {r : List UInt8} (h : src.drop s = r) (hr : r ≠ []) :
    src.length = s + r.length := by
  have hlength := congrArg List.length h
  have hpos := length_pos_of_ne_nil hr
  rw [length_drop] at hlength
  omega

theorem drop_add {x r : List UInt8} (h : src.drop s = x ++ r) : src.drop (s + x.length) = r := by
  rw [← drop_drop, h, drop_left]

def uuGroups : List UInt8 → List UInt8
  | a :: b :: c :: r => uuEncC1 a :: uuEncC2 a b :: uuEncC3 b c :: uuEncC4 c :: uuGroups r
  | [a, b] => [uuEncC1 a, uuEncC2 a b, uuEncC3 b 0, uuEnc 0]
  | [a] => [uuEncC1 a, uuEncC2 a 0, uuEnc 0, uuEnc 0]
  | [] => []

/-- The lines for what is left of the source. -/
def uuText (r : List UInt8) : List UInt8 :=
  if r.length = 0 then [uuEnc 0, ch '\n']
  else if r.length < 45 then
    uuEnc (BitVec.ofNat 32 r.length) :: (uuGroups r ++ [ch '\n', uuEnc 0, ch '\n'])
  else uuEnc 45#32 :: (uuGroups (r.take 45) ++ ch '\n' :: uuText (r.drop 45))
termination_by r.length
decreasing_by
  rw [length_drop]
  omega

theorem uuText_nil : uuText [] = [uuEnc 0, ch '\n'] := by
  rw [uuText, if_pos length_nil]

theorem uuText_short {r : List UInt8} (hpos : 0 < r.length) (hlt : r.length < 45) :
    uuText r =
      uuEnc (BitVec.ofNat 32 r.length) :: (uuGroups r ++ [ch '\n', uuEnc 0, ch '\n']) := by
  rw [uuText, if_neg (by omega), if_pos hlt]

theorem uuText_full {r : List UInt8} (h : 45 ≤ r.length) :
    uuText r = uuEnc 45#32 :: (uuGroups (r.take 45) ++ ch '\n' :: uuText (r.drop 45)) := by
  rw [uuText, if_neg (by omega), if_neg (by omega)]

theorem length_uuGroups (r : List UInt8) : (uuGroups r).length = (r.length + 2) / 3 * 4 := by
  fun_induction uuGroups r with
  | case1 a b c r ih =>
    simp only [length_cons, ih]
    omega
  | case2 => simp
  | case3 => simp
  | case4 => rfl

theorem uuGroups_append (x y : List UInt8) (hx : x.length % 3 = 0) :
    uuGroups (x ++ y) = uuGroups x ++ uuGroups y := by
  fun_induction uuGroups x with
  | case1 a b c r ih =>
    simp only [length_cons] at hx
    rw [cons_append, cons_append, cons_append, uuGroups, ih (by omega)]
    rfl
  | case2 a b => simp at hx
  | case3 a => simp at hx
  | case4 => rfl

theorem uuEncodeGroups_step {a b c : UInt8} {r : List UInt8} {ee : ℕ} (fuel : ℕ)
    (hsrc : src.drop s = a :: b :: c :: r) (hee : s < ee)
    (hroom : out.length + 4 ≤ block.length) :
    uuEncodeGroups block src (fuel + 1) ee s out =
      uuEncodeGroups block src fuel ee (s + 3)
        (out ++ [uuEncC1 a, uuEncC2 a b, uuEncC3 b c, uuEncC4 c]) := by
  have hlength := length_of_drop hsrc (cons_ne_nil _ _)
  simp only [length_cons] at hlength
  have ha : byteAt src s = a := (byteAt_drop src s 0).trans (by rw [hsrc]; rfl)
  have hb : byteAt src (s + 1) = b := (byteAt_drop src s 1).trans (by rw [hsrc]; rfl)
  have hc : byteAt src (s + 2) = c := (byteAt_drop src s 2).trans (by rw [hsrc]; rfl)
  rw [uuEncodeGroups, if_pos hee, uuRead_of_le (by omega), uuRead_of_le (by omega),
    uuRead_of_le (by omega), ha, hb, hc]
  simp only [bind, Except.bind]
  rw [uuPutAll_of_le _ hroom]

theorem uuEncodeGroups_eq {mid post : List UInt8} (hsrc : src.drop s = mid ++ post)
    (hmid : mid.length % 3 = 0) (fuel : ℕ) (hfuel : mid.length < fuel)
    (hroom : out.length + (uuGroups mid).length ≤ block.length) :
    uuEncodeGroups block src fuel (s + mid.length) s out =
      .ok (s + mid.length, out ++ uuGroups mid) := by
  fun_induction uuGroups mid generalizing s fuel out with
  | case1 a b c r ih =>
    simp only [length_cons] at hmid hfuel hroom
    match fuel, hfuel with
    | fuel + 1, hfuel =>
      have hrest : src.drop (s + 3) = r ++ post := @drop_add src s [a, b, c] (r ++ post) hsrc
      have hend : s + (a :: b :: c :: r).length = s + 3 + r.length := by
        simp only [length_cons]
        omega
      have hout : (out ++ [uuEncC1 a, uuEncC2 a b, uuEncC3 b c, uuEncC4 c]).length =
          out.length + 4 := by simp
      rw [hend, uuEncodeGroups_step fuel hsrc (by omega) (by omega),
        ih hrest (by omega) fuel (by omega) (by omega), append_assoc]
      rfl
  | case2 a b => simp at hmid
  | case3 a => simp at hmid
  | case4 =>
    match fuel, hfuel with
    | fuel + 1, _ =>
      rw [uuEncodeGroups, if_neg (by simp), List.append_nil]
      rfl

theorem uuEncodeLast_eq {r : List UInt8} (hsrc : src.drop s = r) (hpos : 0 < r.length)
    (hle : r.length ≤ 3) (hroom : out.length + 4 ≤ block.length) :
    uuEncodeLast block src s out = .ok (out ++ uuGroups r) := by
  have hlength := length_of_drop hsrc (ne_nil_of_length_pos hpos)
  have hb := byteAt_drop src s 1
  have hc := byteAt_drop src s 2
  rw [hsrc] at hb hc
  have ha : byteAt src s = byteAt r 0 := by rw [← hsrc, ← byteAt_drop, Nat.add_zero]
  have hc3 : uuLastC3 src s (byteAt r 1) =
      .ok (if r.length > 1 then uuEncC3 (byteAt r 1) (byteAt r 2) else uuEnc 0) := by
    unfold uuLastC3
    rw [show src.length - s = r.length by omega]
    split
    · rw [uuRead_of_le (by omega), hc]
      rfl
    · rfl
  have hc4 : uuLastC4 src s = .ok (if r.length > 2 then uuEncC4 (byteAt r 2) else uuEnc 0) := by
    unfold uuLastC4
    rw [show src.length - s = r.length by omega]
    split
    · rw [uuRead_of_le (by omega), hc]
      rfl
    · rfl
  unfold uuEncodeLast
  rw [uuRead_of_le (by omega), uuRead_of_le (by omega), ha, hb]
  simp only [bind, Except.bind]
  rw [uuPutAll_of_le _ (by simp only [length_cons, length_nil]; omega)]
  simp only [hc3, hc4]
  rw [uuPut_of_lt _ (by simp only [length_append, length_cons, length_nil]; omega)]
  simp only
  rw [uuPut_of_lt _ (by simp only [length_append, length_cons, length_nil]; omega),
    append_assoc, append_assoc]
  match r, hpos, hle with
  | [a], _, _ => rfl
  | [a, b], _, _ => rfl
  | [a, b, c], _, _ => rfl

theorem uuEncodeStop_eq (len : ℕ)
    (hroom : out.length + 3 + (if len < 45 then 1 else 0) ≤ block.length) :
    uuEncodeStop block out len =
      .ok (out ++ ((if len < 45 then [ch '\n'] else []) ++ [uuEnc 0, ch '\n'])) := by
  have hbreak : uuLastLineBreak block out len =
      .ok (out ++ if len < 45 then [ch '\n'] else []) := by
    unfold uuLastLineBreak
    split
    · exact uuPut_of_lt _ (by omega)
    · rw [List.append_nil]
  have hlength : (out ++ if len < 45 then [ch '\n'] else []).length =
      out.length + if len < 45 then 1 else 0 := by
    rw [length_append]
    split <;> rfl
  unfold uuEncodeStop
  rw [hbreak]
  simp only [bind, Except.bind]
  rw [uuPutAll_of_le _ (by simp only [length_cons, length_nil]; omega)]
  simp only
  rw [uuPut_of_lt _ (by rw [length_append, length_cons, length_singleton]; omega)]
  exact congrArg Except.ok (append_assoc _ _ _)

theorem uuEncodeEnd_newLine {r : List UInt8} (hsrc : src.drop s = r) (hle : r.length ≤ 3)
    (hroom : out.length + (uuText r).length + 1 ≤ block.length) :
    uuEncodeEnd block src s out 45 = .ok (out ++ uuText r) := by
  unfold uuEncodeEnd
  by_cases hr : r = []
  · have hend : ¬ s < src.length := by
      rw [hr, drop_eq_nil_iff] at hsrc
      omega
    rw [hr, uuText_nil] at hroom ⊢
    simp only [length_cons, length_nil] at hroom
    rw [if_neg hend, uuEncodeStop_eq 45 (by rw [if_neg (by omega)]; omega)]
    rfl
  · have hpos := length_pos_of_ne_nil hr
    have hlength := length_of_drop hsrc hr
    rw [uuText_short hpos (by omega)] at hroom ⊢
    simp only [length_cons, length_append, length_nil, length_uuGroups] at hroom
    rw [if_pos (by omega), uuEncodeRest, if_pos rfl, uuPut_of_lt _ (by omega)]
    simp only [bind, Except.bind]
    rw [uuEncodeLast_eq hsrc hpos hle (by rw [length_append, length_singleton]; omega)]
    simp only [pure, Except.pure]
    rw [uuEncodeStop_eq 0]
    · rw [show src.length - s = r.length by omega]
      simp
    · rw [if_pos (by omega), length_append, length_append, length_singleton,
        length_uuGroups]
      omega

theorem uuEncodeEnd_rest {r : List UInt8} (hsrc : src.drop s = r) (hle : r.length ≤ 3)
    (hlen : len < 45) (hroom : out.length + (uuGroups r).length + 4 ≤ block.length) :
    uuEncodeEnd block src s out len = .ok (out ++ (uuGroups r ++ [ch '\n', uuEnc 0, ch '\n'])) := by
  unfold uuEncodeEnd
  by_cases hr : r = []
  · have hend : ¬ s < src.length := by
      rw [hr, drop_eq_nil_iff] at hsrc
      omega
    rw [if_neg hend, uuEncodeStop_eq len (by rw [if_pos hlen]; omega), if_pos hlen, hr]
    rfl
  · have hpos := length_pos_of_ne_nil hr
    have hlength := length_of_drop hsrc hr
    have hgroups := length_uuGroups r
    rw [if_pos (by omega), uuEncodeRest, if_neg (by omega),
      uuEncodeLast_eq hsrc hpos hle (by omega)]
    simp only [bind, Except.bind, pure, Except.pure]
    rw [uuEncodeStop_eq len (by rw [length_append, if_pos hlen]; omega), if_pos hlen,
      append_assoc]
    rfl

theorem uuEncodeLines_full {x r : List UInt8} (hsrc : src.drop s = x ++ r) (hx : x.length = 45)
    (fuel : ℕ) (hroom : out.length + 62 ≤ block.length) :
    uuEncodeLines block src (fuel + 1) 45 s out =
      uuEncodeLines block src fuel 45 (s + 45)
        (out ++ uuEnc 45#32 :: (uuGroups x ++ [ch '\n'])) := by
  have hlength := length_of_drop hsrc (by intro h; simp [append_eq_nil_iff.mp h] at hx)
  rw [length_append, hx] at hlength
  have hgroups := length_uuGroups x
  rw [hx] at hgroups
  have hline : uuLineEnd src.length s 45 = (s + x.length, 45) := by
    unfold uuLineEnd
    rw [if_neg (by omega), hx]
  have hlen2 : (out ++ [uuEnc 45#32] ++ uuGroups x).length = out.length + 61 := by
    rw [length_append, length_append, hgroups]
    rfl
  rw [uuEncodeLines, if_pos (by omega), hline]
  simp only [bind, Except.bind]
  rw [uuPut_of_lt _ (by omega)]
  simp only
  rw [uuEncodeGroups_eq hsrc (by omega) _ (by omega)
    (by rw [length_append, length_singleton]; omega)]
  simp only
  have hlast : (out ++ [uuEnc 45#32] ++ uuGroups x).length < block.length := by omega
  rw [uuFullLineBreak, if_pos rfl, uuPut_of_lt _ hlast, hx]
  simp only [append_assoc, singleton_append]
  rfl

theorem uuEncodeLines_rest {x r : List UInt8} (hsrc : src.drop s = x ++ r)
    (hx : x.length % 3 = 0) (hr : r.length < 3) (hlo : 3 < (x ++ r).length)
    (hhi : (x ++ r).length < 45) (fuel : ℕ)
    (hroom : out.length + 1 + (uuGroups x).length ≤ block.length) :
    uuEncodeLines block src (fuel + 2) 45 s out =
      .ok (s + x.length, out ++ uuEnc (BitVec.ofNat 32 (x ++ r).length) :: uuGroups x,
        (x ++ r).length) := by
  have hlength := length_of_drop hsrc (ne_nil_of_length_pos (by omega))
  rw [length_append] at hlo hhi hlength ⊢
  have hline : uuLineEnd src.length s 45 = (s + x.length, x.length + r.length) := by
    unfold uuLineEnd
    rw [if_pos (by omega)]
    simp only
    split <;> simp only [Prod.mk.injEq] <;> omega
  rw [uuEncodeLines, if_pos (by omega), hline]
  simp only [bind, Except.bind]
  rw [uuPut_of_lt _ (by omega)]
  simp only
  rw [uuEncodeGroups_eq hsrc hx _ (by omega)
    (by rw [length_append, length_singleton]; omega)]
  simp only
  rw [uuFullLineBreak, if_neg (by omega)]
  simp only
  rw [uuEncodeLines, if_neg (by omega), append_assoc]
  rfl

theorem uuEncodeLines_end {r : List UInt8} (hsrc : src.drop s = r) (fuel : ℕ)
    (hfuel : r.length < fuel) (hroom : out.length + (uuText r).length + 1 ≤ block.length) :
    (uuEncodeLines block src fuel 45 s out >>= fun (s, out, len) =>
      uuEncodeEnd block src s out len) = .ok (out ++ uuText r) := by
  induction fuel generalizing s r out with
  | zero => omega
  | succ fuel ih =>
    by_cases hfull : 45 ≤ r.length
    · have htake : r.take 45 ++ r.drop 45 = r := take_append_drop 45 r
      have hx : (r.take 45).length = 45 := by rw [length_take]; omega
      have hgroups := length_uuGroups (r.take 45)
      rw [hx] at hgroups
      rw [uuText_full hfull] at hroom ⊢
      simp only [length_cons, length_append, hgroups] at hroom
      have hsrc' : src.drop (s + 45) = r.drop 45 := by rw [← drop_drop, hsrc]
      have hdrop : (r.drop 45).length < fuel := by rw [length_drop]; omega
      have hlen : (out ++ uuEnc 45#32 :: (uuGroups (r.take 45) ++ [ch '\n'])).length =
          out.length + 62 := by
        simp only [length_append, length_cons, hgroups]
        rfl
      rw [uuEncodeLines_full (hsrc.trans htake.symm) hx fuel (by omega),
        ih hsrc' hdrop (by rw [hlen]; omega)]
      simp
    · by_cases hshort : r.length ≤ 3
      · have hend : ¬ s + 3 < src.length := by
          have hlength := congrArg List.length hsrc
          rw [length_drop] at hlength
          omega
        rw [uuEncodeLines, if_neg hend]
        exact uuEncodeEnd_newLine hsrc hshort hroom
      · -- the whole groups, then what is left of the line
        have htake : r.take (r.length / 3 * 3) ++ r.drop (r.length / 3 * 3) = r :=
          take_append_drop _ r
        have hx : (r.take (r.length / 3 * 3)).length = r.length / 3 * 3 := by
          rw [length_take]
          omega
        have hdrop : (r.drop (r.length / 3 * 3)).length < 3 := by
          rw [length_drop]
          omega
        have hgroups := uuGroups_append (r.take (r.length / 3 * 3)) (r.drop (r.length / 3 * 3))
          (by omega)
        have hgroupsLength := congrArg List.length hgroups
        rw [htake] at hgroups hgroupsLength
        rw [length_append] at hgroupsLength
        rw [uuText_short (by omega) (by omega)] at hroom ⊢
        simp only [length_cons, length_append, length_nil] at hroom
        have hsrc' := drop_add (hsrc.trans htake.symm)
        match fuel, hfuel with
        | 0, hfuel => omega
        | fuel + 1, _ =>
          rw [uuEncodeLines_rest (hsrc.trans htake.symm) (by omega) hdrop (by rw [htake]; omega)
            (by rw [htake]; omega) fuel (by omega), htake]
          simp only [bind, Except.bind]
          rw [uuEncodeEnd_rest hsrc' (by omega) (by omega)]
          · rw [hgroups]
            simp
          · simp only [length_append, length_cons]
            omega

/-- The length of the text for `n` bytes. -/
def uuTextLength (n : ℕ) : ℕ :=
  n / 45 * 62 + 2 + if n % 45 = 0 then 0 else (n % 45 + 2) / 3 * 4 + 2

theorem length_uuText (r : List UInt8) : (uuText r).length = uuTextLength r.length := by
  unfold uuTextLength
  fun_induction uuText r with
  | case1 r h =>
    rw [h]
    rfl
  | case2 r h hlt =>
    simp only [length_cons, length_append, length_nil, length_uuGroups]
    rw [if_neg (by omega)]
    omega
  | case3 r h hge ih =>
    have hmod : (r.length - 45) % 45 = r.length % 45 := by omega
    simp only [length_cons, length_append, length_uuGroups, length_take]
    rw [length_drop, hmod] at ih
    omega

theorem uuTextLength_lt_room (n : ℕ) : uuTextLength n + 1 ≤ uuencodeRoom n := by
  unfold uuTextLength uuencodeRoom
  split <;> omega

theorem uuTextLength_lt_iff (n : ℕ) : uuTextLength n < 2 ^ 31 ↔ n ≤ 1558657482 := by
  unfold uuTextLength
  split <;> omega

theorem php_uuencode_eq (hroom : uuencodeRoom src.length ≤ block.length) :
    php_uuencode block src = .ok (uuText src, ((uuText src).length : Int).bmod (2 ^ 32)) := by
  have htext := length_uuText src
  have hlt := uuTextLength_lt_room src.length
  have hrun := @uuEncodeLines_end block src [] 0 src rfl (src.length + 1) (by omega)
    (by rw [length_nil]; omega)
  rw [nil_append] at hrun
  unfold php_uuencode
  cases hlines : uuEncodeLines block src (src.length + 1) 45 0 [] with
  | error fault =>
    rw [hlines] at hrun
    cases hrun
  | ok r =>
    rw [hlines] at hrun
    have hend : uuEncodeEnd block src r.1 r.2.1 r.2.2 = .ok (uuText src) := hrun
    simp only [bind, Except.bind, hend]
    rfl

theorem uuDec_uuEnc (v : BitVec 32) : uuDec (uuEnc v) = v &&& 0o77 := by
  have hall : ∀ n : Fin 64, uuDec (.ofBitVec ((BitVec.ofNat 32 n.val + 32).setWidth 8)) =
      BitVec.ofNat 32 n.val := by decide +kernel
  by_cases hv : v = 0
  · rw [hv]
    decide
  · have hlt : (v &&& 0o77).toNat < 64 := by
      rw [BitVec.toNat_and]
      exact Nat.lt_of_le_of_lt Nat.and_le_right (by decide)
    have h := hall ⟨(v &&& 0o77).toNat, hlt⟩
    unfold uuEnc
    rw [if_pos hv]
    rwa [BitVec.ofNat_toNat, BitVec.setWidth_eq] at h

theorem uuDecodeGroup_enc (a b c : UInt8) :
    uuDecodeGroup (uuEncC1 a) (uuEncC2 a b) (uuEncC3 b c) (uuEncC4 c) = [a, b, c] := by
  unfold uuDecodeGroup uuEncC1 uuEncC2 uuEncC3 uuEncC4
  simp only [uuDec_uuEnc, List.cons.injEq, and_true]
  refine ⟨?_, ?_, ?_⟩
  all_goals
    apply UInt8.toBitVec_inj.mp
    ext i hi
    interval_cases i <;> simp [charInt, BitVec.getElem_sshiftRight, BitVec.getElem_signExtend]

def uuFilled : List UInt8 → List UInt8
  | a :: b :: c :: r => a :: b :: c :: uuFilled r
  | [a, b] => [a, b, 0]
  | [a] => [a, 0, 0]
  | [] => []

theorem length_uuFilled (r : List UInt8) : (uuFilled r).length = (r.length + 2) / 3 * 3 := by
  fun_induction uuFilled r with
  | case1 a b c r ih =>
    simp only [length_cons, ih]
    omega
  | case2 => simp
  | case3 => simp
  | case4 => rfl

theorem uuFilled_eq (r : List UInt8) : ∃ pad, uuFilled r = r ++ pad := by
  fun_induction uuFilled r with
  | case1 a b c r ih =>
    have ⟨pad, hpad⟩ := ih
    exact ⟨pad, by rw [hpad]; rfl⟩
  | case2 a b => exact ⟨[0], rfl⟩
  | case3 a => exact ⟨[0, 0], rfl⟩
  | case4 => exact ⟨[], rfl⟩

theorem uuDecodeGroups_step {w x y z a b c : UInt8} {r : List UInt8} {ee : ℕ} (fuel : ℕ)
    (hsrc : src.drop s = w :: x :: y :: z :: r) (hgroup : uuDecodeGroup w x y z = [a, b, c])
    (hee : s < ee) (hroom : out.length + 3 ≤ block.length) :
    uuDecodeGroups block src (fuel + 1) ee s out =
      uuDecodeGroups block src fuel ee (s + 4) (out ++ [a, b, c]) := by
  have hlength := length_of_drop hsrc (cons_ne_nil _ _)
  simp only [length_cons] at hlength
  have hw : byteAt src s = w := (byteAt_drop src s 0).trans (by rw [hsrc]; rfl)
  have hx : byteAt src (s + 1) = x := (byteAt_drop src s 1).trans (by rw [hsrc]; rfl)
  have hy : byteAt src (s + 2) = y := (byteAt_drop src s 2).trans (by rw [hsrc]; rfl)
  have hz : byteAt src (s + 3) = z := (byteAt_drop src s 3).trans (by rw [hsrc]; rfl)
  rw [uuDecodeGroups, if_pos hee, if_neg (by omega), uuRead_of_le (by omega),
    uuRead_of_le (by omega), uuRead_of_le (by omega), uuRead_of_le (by omega), hw, hx, hy, hz]
  simp only [bind, Except.bind, hgroup]
  rw [uuPutAll_of_le _ hroom]

theorem uuGroups_split {r : List UInt8} (hr : r ≠ []) :
    ∃ w x y z a b c, uuDecodeGroup w x y z = [a, b, c] ∧
      uuGroups r = w :: x :: y :: z :: uuGroups (r.drop 3) ∧
      uuFilled r = a :: b :: c :: uuFilled (r.drop 3) := by
  match r, hr with
  | a :: b :: c :: r, _ => exact ⟨_, _, _, _, a, b, c, uuDecodeGroup_enc a b c, rfl, rfl⟩
  | [a, b], _ => exact ⟨_, _, _, _, a, b, 0, uuDecodeGroup_enc a b 0, rfl, rfl⟩
  | [a], _ => exact ⟨_, _, _, _, a, 0, 0, uuDecodeGroup_enc a 0 0, rfl, rfl⟩

theorem uuDecodeGroups_eq {r post : List UInt8} (hsrc : src.drop s = uuGroups r ++ post)
    (fuel ee : ℕ) (hfuel : r.length < fuel) (hee : (ee - s + 3) / 4 = (r.length + 2) / 3)
    (hroom : out.length + (uuFilled r).length ≤ block.length) :
    uuDecodeGroups block src fuel ee s out =
      .ok (s + (uuGroups r).length, out ++ uuFilled r) := by
  induction fuel generalizing s r out with
  | zero => omega
  | succ fuel ih =>
    by_cases hr : r = []
    · have hend : ¬ s < ee := by
        rw [hr, length_nil] at hee
        omega
      rw [hr, uuDecodeGroups, if_neg hend]
      show _ = Except.ok (s, out ++ [])
      rw [List.append_nil]
    · have ⟨w, x, y, z, a, b, c, hgroup, hgroups, hfilled⟩ := uuGroups_split hr
      have hpos := length_pos_of_ne_nil hr
      rw [hgroups] at hsrc
      rw [hfilled] at hroom
      simp only [length_cons] at hroom
      have hrest : src.drop (s + 4) = uuGroups (r.drop 3) ++ post :=
        @drop_add src s [w, x, y, z] (uuGroups (r.drop 3) ++ post) hsrc
      have hlength : (r.drop 3).length = r.length - 3 := length_drop
      have hout : (out ++ [a, b, c]).length = out.length + 3 := by simp
      rw [uuDecodeGroups_step fuel hsrc hgroup (by omega) (by omega),
        ih hrest (by omega) (by omega) (by omega), hgroups, hfilled, append_assoc]
      simp only [length_cons, cons_append, nil_append, Except.ok.injEq,
        Prod.mk.injEq, and_true]
      omega

theorem lineExtent (hlen : len ≤ 45) :
    ((if len = 45 then 60 else len * 133 / 100) + 3) / 4 = (len + 2) / 3 := by
  interval_cases len <;> rfl

theorem uuDec_length (hlen : len ≤ 45) :
    (uuDec (uuEnc (BitVec.ofNat 32 len))).toNat = len := by
  rw [uuDec_uuEnc]
  interval_cases len <;> rfl

theorem uuDecodeLines_step {x post : List UInt8} {total_len : ℕ} (fuel : ℕ)
    (hsrc : src.drop s = uuEnc (BitVec.ofNat 32 x.length) :: (uuGroups x ++ post))
    (hpos : 0 < x.length) (hle : x.length ≤ 45)
    (hroom : out.length + (uuFilled x).length ≤ block.length) :
    uuDecodeLines block src (fuel + 1) s out total_len =
      if x.length < 45 then
        .ok (s + 1 + (uuGroups x).length, out ++ uuFilled x, total_len + x.length)
      else
        uuDecodeLines block src fuel (s + 1 + (uuGroups x).length + 1) (out ++ uuFilled x)
          (total_len + x.length) := by
  have hlength := length_of_drop hsrc (cons_ne_nil _ _)
  have hgroups := length_uuGroups x
  simp only [length_cons, length_append] at hlength
  have hc : byteAt src s = uuEnc (BitVec.ofNat 32 x.length) :=
    (byteAt_drop src s 0).trans (by rw [hsrc]; rfl)
  have hrest : src.drop (s + 1) = uuGroups x ++ post :=
    @drop_add src s [uuEnc (BitVec.ofNat 32 x.length)] (uuGroups x ++ post) hsrc
  have hextent := lineExtent hle
  have hbytes : (if x.length = 45 then 60 else x.length * 133 / 100) ≤ (uuGroups x).length := by
    omega
  have hline := @uuDecodeGroups_eq block src out (s + 1) x post hrest (src.length + 1)
    (s + 1 + if x.length = 45 then 60 else x.length * 133 / 100) (by omega)
    (by rw [Nat.add_sub_cancel_left]; exact hextent) hroom
  rw [uuDecodeLines, if_pos (by omega), uuRead_of_le (by omega), hc]
  simp only [bind, Except.bind, uuDec_length hle]
  rw [if_neg (by omega), if_neg (by omega), if_neg (by omega), hline]

theorem uuDecodeLines_eq {r : List UInt8} (hsrc : src.drop s = uuText r)
    (fuel : ℕ) (hfuel : r.length < fuel)
    (hroom : out.length + (r.length + 2) / 3 * 3 ≤ block.length) (total_len : ℕ) :
    ∃ s' pad, uuDecodeLines block src fuel s out total_len =
      .ok (s', out ++ (r ++ pad), total_len + r.length) := by
  induction fuel generalizing s r out total_len with
  | zero => omega
  | succ fuel ih =>
    by_cases hempty : r.length = 0
    · have hr := length_eq_zero_iff.mp hempty
      rw [hr, uuText_nil] at hsrc
      have hlength := length_of_drop hsrc (cons_ne_nil _ _)
      simp only [length_cons] at hlength
      have hc : byteAt src s = uuEnc 0 := (byteAt_drop src s 0).trans (by rw [hsrc]; rfl)
      refine ⟨s + 1, [], ?_⟩
      rw [uuDecodeLines, if_pos (by omega), uuRead_of_le (by omega), hc, hr]
      simp only [bind, Except.bind]
      rw [if_pos (by decide)]
      simp
    · by_cases hshort : r.length < 45
      · rw [uuText_short (by omega) hshort] at hsrc
        have ⟨pad, hpad⟩ := uuFilled_eq r
        have hfilled := length_uuFilled r
        rw [uuDecodeLines_step fuel hsrc (by omega) (by omega) (by omega), if_pos hshort, hpad]
        exact ⟨_, pad, rfl⟩
      · have hx : (r.take 45).length = 45 := by rw [length_take]; omega
        have hdrop : (r.drop 45).length = r.length - 45 := length_drop
        rw [uuText_full (by omega)] at hsrc
        have hline : src.drop s = uuEnc (BitVec.ofNat 32 (r.take 45).length) ::
            (uuGroups (r.take 45) ++ ch '\n' :: uuText (r.drop 45)) := by rw [hsrc, hx]
        have hfilled := length_uuFilled (r.take 45)
        have hwhole : uuFilled (r.take 45) = r.take 45 := by
          have ⟨pad, hpad⟩ := uuFilled_eq (r.take 45)
          have hpadLength := congrArg List.length hpad
          rw [length_append, hfilled, hx] at hpadLength
          rw [hpad, length_eq_zero_iff.mp (show pad.length = 0 by omega), List.append_nil]
        have hgroups := length_uuGroups (r.take 45)
        have hnext : src.drop (s + 1 + (uuGroups (r.take 45)).length + 1) = uuText (r.drop 45) := by
          have hrest := @drop_add src s (uuEnc 45#32 :: uuGroups (r.take 45) ++ [ch '\n'])
            (uuText (r.drop 45)) (by rw [hsrc]; simp)
          simp only [length_append, length_cons, length_nil] at hrest
          rw [← hrest]
          congr 1
          omega
        rw [uuDecodeLines_step fuel hline (by omega) (by omega) (by omega), if_neg (by omega),
          hwhole, hx]
        have ⟨s', pad, hrun⟩ := @ih (out ++ r.take 45) _ (r.drop 45) hnext (by omega)
          (by rw [length_append]; omega) (total_len + 45)
        refine ⟨s', pad, ?_⟩
        rw [hrun, append_assoc, ← append_assoc (r.take 45), take_append_drop]
        simp only [Except.ok.injEq, Prod.mk.injEq, true_and]
        omega

theorem uuDecodeText_text (hroom : uudecodeRoom (uuText src).length ≤ block.length) :
    uuDecodeText block (uuText src) = .ok src := by
  have htext := length_uuText src
  unfold uudecodeRoom at hroom
  have hbytes : (src.length + 2) / 3 * 4 + 2 ≤ uuTextLength src.length := by
    unfold uuTextLength
    split <;> omega
  have ⟨s', pad, hrun⟩ := @uuDecodeLines_eq block (uuText src) [] 0 src rfl
    ((uuText src).length + 1) (by omega) (by rw [length_nil]; omega) 0
  rw [nil_append, Nat.zero_add] at hrun
  unfold uuDecodeText
  rw [hrun]
  simp only [bind, Except.bind]
  rw [if_neg (by rw [length_append]; omega)]
  show (if src.length < block.length then _ else _) = _
  rw [if_pos (by omega), append_assoc, take_left]

theorem uuRoundTrip_iff {block s : List UInt8} (hlength : s.length < 2 ^ 31)
    (hblock : uuencodeRoom s.length ≤ block.length) :
    (∃ t n, php_uuencode block s = .ok (t, n) ∧ ∀ block', uudecodeRoom n.toNat ≤ block'.length →
      php_uudecode block' t n = .ok s) ↔ s.length ≤ 1558657482 := by
  have htext := length_uuText s
  have hroom := uuTextLength_lt_room s.length
  unfold uuencodeRoom at hroom
  rw [← uuTextLength_lt_iff, ← htext]
  constructor
  · rintro ⟨t, n, hencode, hdecode⟩
    rw [php_uuencode_eq hblock] at hencode
    cases hencode
    by_contra hlarge
    have hneg := narrow_neg (Nat.le_of_not_lt hlarge) (by omega)
    have hback := hdecode (replicate _ 0) (Nat.le_of_eq length_replicate.symm)
    rw [php_uudecode, if_pos hneg] at hback
    cases hback
  · intro hfits
    refine ⟨uuText s, _, php_uuencode_eq hblock, fun block' hblock' => ?_⟩
    rw [narrow_of_lt hfits] at hblock' ⊢
    rw [Int.toNat_natCast] at hblock'
    rw [php_uudecode, if_neg (by omega), Int.toNat_natCast, take_length]
    exact uuDecodeText_text hblock'

/-- With blocks of the size that is asked for (`ceil` in place of the rounding down only makes them
larger) a string is encoded and decoded again to itself, and no byte outside of a string with its
NUL or of a block is touched, exactly where the length of the text fits an `int`. -/
theorem uuencode_round_trip {block s : List UInt8} (hlength : s.length < 2 ^ 31)
    (hblock : uuencodeRoom s.length ≤ block.length) :
    (∃ t n, php_uuencode block s = .ok (t, n) ∧ ∀ block', uudecodeRoom n.toNat ≤ block'.length →
      php_uudecode block' t n = .ok s) ↔ s.length ≤ 1558657482 :=
  uuRoundTrip_iff hlength hblock

theorem uuencode_round_trip_sample :
    ∃ t n, php_uuencode (replicate 47 0) [97] = .ok (t, n) ∧
      ∀ block', uudecodeRoom n.toNat ≤ block'.length → php_uudecode block' t n = .ok [97] :=
  (uuencode_round_trip (by decide) (by decide)).mpr (by decide)

/-- The text for 1558657530 bytes takes `2 ^ 31 + 62`, which is a negative `int`. -/
theorem uuencode_cut :
    ¬ ∃ t n, php_uuencode (replicate (uuencodeRoom 1558657530) 0) (replicate 1558657530 97) =
        .ok (t, n) ∧
      ∀ block', uudecodeRoom n.toNat ≤ block'.length →
        php_uudecode block' t n = .ok (replicate 1558657530 97) := by
  rw [uuRoundTrip_iff, length_replicate]
  · decide
  · rw [length_replicate]
    decide
  · rw [length_replicate, length_replicate]

end Php53.Standard
