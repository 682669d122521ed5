import Mathlib.Data.Bool.AllAny
import Mathlib.Data.List.GetD
import Php53.Standard.Convert
import Php53.Zend.Decimal

/-!
# Base64 — the `convert.base64-encode` filter

The encoder keeps up to two bytes that do not make a group yet, and counts the characters left on
the line.  `base64Text` is the text that it should make, and `breakLines` puts the line breaks in.
-/

namespace Php53.Standard

open Zend (ch)
open List

variable {a s : UInt8} {gs : List (List UInt8)}

/-- `php_conv_base64_encode`; `erem` are the `erem_len` bytes of the array, and `lbchars` the
`lbchars_len` bytes that are copied for a line break. -/
structure Base64Encode where
  erem : List UInt8
  lineCcnt : BitVec 32
  lineLen : BitVec 32
  lbchars : Option (List UInt8)
  deriving DecidableEq, Repr

/-- The bytes from the start of `pestrdup(s)` on, as many as `s` has: the copy ends at the first
NUL, and `behind` is the memory behind it. -/
def pestrdup (s behind : List UInt8) : List UInt8 :=
  ((s.takeWhile (· ≠ 0) ++ [0]) ++ behind).take s.length

/-- `php_conv_open` with `PHP_CONV_BASE64_ENCODE`: the options `line-break-chars` and
`line-length`, the latter 0 if it is not given. -/
def Base64Encode.convOpen (lbchars : Option (List UInt8)) (lineLen : BitVec 32)
    (behind : List UInt8) : Base64Encode :=
  if lineLen < 4 then { erem := [], lineCcnt := 0, lineLen := 0, lbchars := none }
  else
    { erem := [], lineCcnt := lineLen, lineLen
      lbchars := some (pestrdup (lbchars.getD [ch '\r', ch '\n']) behind) }

def base64Alphabet : List UInt8 :=
  "ABCDEFGHIJKLMNOPQRSTUVWXYZabcdefghijklmnopqrstuvwxyz0123456789+/".toList.map ch

/-- `b64_tbl_enc`, the alphabet four times. -/
def b64TblEnc (i : UInt8) : UInt8 :=
  (base64Alphabet ++ base64Alphabet ++ base64Alphabet ++ base64Alphabet).getD i.toNat 0

/-- `pd`, `ocnt` and `line_ccnt`. -/
structure Base64Out where
  pd : List UInt8
  ocnt : Nat
  lineCcnt : BitVec 32

/-- `if (line_ccnt < 4 && inst->lbchars != NULL)`; `none` is `PHP_CONV_ERR_TOO_BIG`. -/
def Base64Encode.breakLine (inst : Base64Encode) (o : Base64Out) : Option Base64Out :=
  match inst.lbchars with
  | some lbchars =>
    if o.lineCcnt < 4 then
      if o.ocnt < lbchars.length then none
      else some { pd := o.pd ++ lbchars, ocnt := o.ocnt - lbchars.length, lineCcnt := inst.lineLen }
    else some o
  | none => some o

/-- A line break if it is due, and a group; `false` is `PHP_CONV_ERR_TOO_BIG`. -/
def Base64Encode.put (inst : Base64Encode) (group : List UInt8) (o : Base64Out) : Base64Out × Bool :=
  match inst.breakLine o with
  | none => (o, false)
  | some o =>
    if o.ocnt < 4 then (o, false)
    else ({ pd := o.pd ++ group, ocnt := o.ocnt - 4, lineCcnt := o.lineCcnt - 4 }, true)

def group3 (a b c : UInt8) : List UInt8 :=
  [b64TblEnc (a >>> 2), b64TblEnc ((a <<< 4) ||| (b >>> 4)), b64TblEnc ((b <<< 2) ||| (c >>> 6)),
    b64TblEnc c]

def group2 (a b : UInt8) : List UInt8 :=
  [b64TblEnc (a >>> 2), b64TblEnc ((a <<< 4) ||| (b >>> 4)), b64TblEnc (b <<< 2), ch '=']

def group1 (a : UInt8) : List UInt8 :=
  [b64TblEnc (a >>> 2), b64TblEnc (a <<< 4), ch '=', ch '=']

/-- `out:` -/
def Base64Encode.leave (inst : Base64Encode) (rest : List UInt8) (o : Base64Out) (err : ConvErr) :
    Converted Base64Encode :=
  { inst := { inst with lineCcnt := o.lineCcnt }, rest, out := o.pd, err }

def phpConvBase64EncodeFlush (inst : Base64Encode) (room : Nat) : Converted Base64Encode :=
  let o : Base64Out := { pd := [], ocnt := room, lineCcnt := inst.lineCcnt }
  match inst.erem with
  | [] => inst.leave [] o .success
  | [a] =>
    match inst.put (group1 a) o with
    | (o, true) => { inst with erem := [] }.leave [] o .success
    | (o, false) => inst.leave [] o .tooBig
  | [a, b] =>
    match inst.put (group2 a b) o with
    | (o, true) => { inst with erem := [] }.leave [] o .success
    | (o, false) => inst.leave [] o .tooBig
  | _ => inst.leave [] o .unknown

/-- `while (icnt >= 3)`, and the bytes kept for the next call. -/
def Base64Encode.convertLoop (inst : Base64Encode) : List UInt8 → Base64Out → Converted Base64Encode
  | a :: b :: c :: ps, o =>
    match inst.put (group3 a b c) o with
    | (o, true) => inst.convertLoop ps o
    | (o, false) => inst.leave (a :: b :: c :: ps) o .tooBig
  | ps, o => { inst with erem := inst.erem ++ ps }.leave [] o .success

def phpConvBase64EncodeConvert : ConvertOp Base64Encode
  | inst, none, room => some (phpConvBase64EncodeFlush inst room)
  | inst, some ps, room =>
    let o : Base64Out := { pd := [], ocnt := room, lineCcnt := inst.lineCcnt }
    some <|
      match inst.erem, ps with
      | [a], b :: c :: ps =>
        match inst.put (group3 a b c) o with
        | (o, true) => { inst with erem := [] }.convertLoop ps o
        | (o, false) => inst.leave (b :: c :: ps) o .tooBig
      | [a, b], c :: ps =>
        match inst.put (group3 a b c) o with
        | (o, true) => { inst with erem := [] }.convertLoop ps o
        | (o, false) => inst.leave (c :: ps) o .tooBig
      | _, ps => inst.convertLoop ps o

/-- The groups of four characters of an input and the `NULL` behind it. -/
def base64Groups : List UInt8 → List (List UInt8)
  | a :: b :: c :: xs => group3 a b c :: base64Groups xs
  | [a, b] => [group2 a b]
  | [a] => [group1 a]
  | [] => []

/-- Groups with line breaks, when `ccnt` characters are left on the line. -/
def breakGroups (lbchars : Option (List UInt8)) (lineLen : BitVec 32) :
    BitVec 32 → List (List UInt8) → List UInt8
  | _, [] => []
  | ccnt, g :: gs =>
    match lbchars with
    | some lb =>
      if ccnt < 4 then lb ++ (g ++ breakGroups lbchars lineLen (lineLen - 4) gs)
      else g ++ breakGroups lbchars lineLen (ccnt - 4) gs
    | none => g ++ breakGroups lbchars lineLen (ccnt - 4) gs

namespace Base64Encode

variable {group ps : List UInt8}

def sem (inst : Base64Encode) (xs : List UInt8) : List UInt8 :=
  breakGroups inst.lbchars inst.lineLen inst.lineCcnt (base64Groups (inst.erem ++ xs))

/-- The states of an encoder with the line break `lbchars`. -/
structure Ok (lbchars : Option (List UInt8)) (inst : Base64Encode) : Prop where
  erem : inst.erem.length ≤ 2
  lbchars : inst.lbchars = lbchars
  lineLen : inst.lbchars.isSome → ¬ inst.lineLen < 4

def need (lbchars : Option (List UInt8)) : Nat := (lbchars.getD []).length + 4

variable {lb : Option (List UInt8)} {inst : Base64Encode}

/-- What is written for a group: all of it, or what there was room for. -/
def Puts (lb : Option (List UInt8)) (inst : Base64Encode) (group : List UInt8) (o : Base64Out) :
    Base64Out × Bool → Prop
  | (o', true) => ∃ w, o'.pd = o.pd ++ w ∧ w ≠ [] ∧
      ∀ gs, breakGroups inst.lbchars inst.lineLen o.lineCcnt (group :: gs) =
        w ++ breakGroups inst.lbchars inst.lineLen o'.lineCcnt gs
  | (o', false) => ∃ w, o'.pd = o.pd ++ w ∧ (w = [] → o.ocnt < need lb) ∧
      ∀ gs, breakGroups inst.lbchars inst.lineLen o.lineCcnt (group :: gs) =
        w ++ breakGroups inst.lbchars inst.lineLen o'.lineCcnt (group :: gs)

theorem put_puts (h : Ok lb inst) (hgroup : group ≠ []) (o : Base64Out) :
    Puts lb inst group o (inst.put group o) := by
  have hlb := h.lbchars
  have hlen := h.lineLen
  rw [put, breakLine]
  cases hchars : inst.lbchars with
  | none =>
    dsimp only
    split
    · refine ⟨[], (List.append_nil _).symm, fun _ => ?_, fun _ => rfl⟩
      rw [need]
      omega
    · refine ⟨group, rfl, hgroup, fun _ => ?_⟩
      rw [hchars]
      rfl
  | some lbchars =>
    have hneed : need lb = lbchars.length + 4 := by rw [need, ← hlb, hchars]; rfl
    have hnlt : ¬ inst.lineLen < 4 := hlen (by rw [hchars]; rfl)
    dsimp only
    by_cases hccnt : o.lineCcnt < 4
    · rw [if_pos hccnt]
      by_cases hroom : o.ocnt < lbchars.length
      · rw [if_pos hroom]
        exact ⟨[], (List.append_nil _).symm, fun _ => by omega, fun _ => rfl⟩
      · rw [if_neg hroom]
        dsimp only
        split
        · refine ⟨lbchars, rfl, fun _ => by omega, fun gs => ?_⟩
          rw [hchars, breakGroups, breakGroups]
          dsimp only
          rw [if_pos hccnt, if_neg hnlt]
        · refine ⟨lbchars ++ group, append_assoc _ _ _,
            append_ne_nil_of_right_ne_nil _ hgroup, fun gs => ?_⟩
          rw [hchars, breakGroups]
          dsimp only
          rw [if_pos hccnt, append_assoc]
    · rw [if_neg hccnt]
      dsimp only
      split
      · exact ⟨[], (List.append_nil _).symm, fun _ => by omega, fun _ => rfl⟩
      · refine ⟨group, rfl, hgroup, fun gs => ?_⟩
        rw [hchars, breakGroups]
        dsimp only
        rw [if_neg hccnt]

/-- From `o` on, with the groups of `xs` still to be written, `r` is what the encoder leaves. -/
structure Leaves (lb : Option (List UInt8)) (inst : Base64Encode) (xs : List UInt8) (o : Base64Out)
    (r : Converted Base64Encode) : Prop where
  ok : Ok lb r.inst
  ends : (r.err = .success ∧ r.rest = []) ∨ r.err = .tooBig
  out : ∃ w, r.out = o.pd ++ w ∧ (r.err = .tooBig → w = [] → o.ocnt < need lb) ∧
    ∀ more, breakGroups inst.lbchars inst.lineLen o.lineCcnt (base64Groups (xs ++ more)) =
      w ++ r.inst.sem (r.rest ++ more)

theorem put_group3 (h : Ok lb inst) (a b c : UInt8) (o : Base64Out) :
    Puts lb inst (group3 a b c) o (inst.put (group3 a b c) o) :=
  put_puts h (cons_ne_nil _ _) o

theorem Leaves.put {xs ys : List UInt8} {o o' : Base64Out} {r : Converted Base64Encode}
    (hput : Puts lb inst group o (o', true)) (h : Leaves lb inst xs o' r)
    (hys : ∀ more, base64Groups (ys ++ more) = group :: base64Groups (xs ++ more)) :
    Leaves lb inst ys o r := by
  obtain ⟨w, hpd, hne, hgroups⟩ := hput
  obtain ⟨w', hout, -, hsem⟩ := h.out
  refine ⟨h.ok, h.ends, w ++ w', ?_, fun _ hnil => ?_, fun more => ?_⟩
  · rw [hout, hpd, append_assoc]
  · exact absurd (append_eq_nil_iff.mp hnil).1 hne
  · rw [hys, hgroups, hsem, append_assoc]

theorem Leaves.tooBig {rest : List UInt8} {o o' : Base64Out} (h : Ok lb inst)
    (hput : Puts lb inst group o (o', false))
    (hgroup : ∀ more, ∃ gs, base64Groups (inst.erem ++ rest ++ more) = group :: gs) :
    Leaves lb inst (inst.erem ++ rest) o (inst.leave rest o' .tooBig) := by
  obtain ⟨w, hpd, hroom, hgroups⟩ := hput
  refine ⟨⟨h.erem, h.lbchars, h.lineLen⟩, .inr rfl, w, hpd, fun _ => hroom, fun more => ?_⟩
  obtain ⟨gs, hgs⟩ := hgroup more
  rw [sem, hgs, hgroups]
  show _ = w ++ breakGroups inst.lbchars inst.lineLen o'.lineCcnt
    (base64Groups (inst.erem ++ (rest ++ more)))
  rw [← append_assoc, hgs]

theorem Leaves.keep (h : Ok lb inst) (hlen : (inst.erem ++ ps).length ≤ 2) (o : Base64Out) :
    Leaves lb inst (inst.erem ++ ps) o
      ({ inst with erem := inst.erem ++ ps, lineCcnt := o.lineCcnt }.leave [] o .success) :=
  ⟨⟨hlen, h.lbchars, h.lineLen⟩, .inl ⟨rfl, rfl⟩, [], (List.append_nil _).symm, nofun, fun _ => rfl⟩

theorem convertLoop_leaves (h : Ok lb inst) (herem : inst.erem = []) (ps : List UInt8)
    (o : Base64Out) : Leaves lb inst ps o (inst.convertLoop ps o) := by
  induction ps, o using convertLoop.induct inst with
  | case1 a b c ps o o' hput ih =>
    have hputs := put_group3 h a b c o
    rw [hput] at hputs
    rw [convertLoop, hput]
    exact Leaves.put hputs ih fun _ => rfl
  | case2 a b c ps o o' hput =>
    have hputs := put_group3 h a b c o
    have htoo : Leaves lb inst (inst.erem ++ a :: b :: c :: ps) o
        (inst.leave (a :: b :: c :: ps) o' .tooBig) :=
      Leaves.tooBig h (hput ▸ hputs) fun more => ⟨base64Groups (ps ++ more), by rw [herem]; rfl⟩
    rw [herem] at htoo
    rw [convertLoop, hput]
    exact htoo
  | case3 ps o hps =>
    have hlen : ps.length ≤ 2 := by
      match ps, hps with
      | [], _ => exact Nat.zero_le 2
      | [_], _ => exact Nat.le_succ 1
      | [_, _], _ => exact Nat.le_refl 2
      | a :: b :: c :: ps, hps => exact absurd rfl (hps a b c ps)
    have hkeep : Leaves lb inst (inst.erem ++ ps) o _ := Leaves.keep h (by rwa [herem]) o
    rw [convertLoop]
    · rw [herem] at hkeep ⊢
      exact hkeep
    · exact hps

theorem putRemainder_leaves {qs : List UInt8} (h : Ok lb inst) (hne : group ≠ [])
    (hgroup : ∀ more, base64Groups (inst.erem ++ qs ++ more) = group :: base64Groups (ps ++ more))
    (o : Base64Out) :
    Leaves lb inst (inst.erem ++ qs) o
      (match inst.put group o with
      | (o, true) => { inst with erem := [] }.convertLoop ps o
      | (o, false) => inst.leave qs o .tooBig) := by
  have hputs := put_puts h hne o
  have hok : Ok lb { inst with erem := [] } := ⟨Nat.zero_le 2, h.lbchars, h.lineLen⟩
  rcases hput : inst.put group o with ⟨o', _ | _⟩
  · rw [hput] at hputs
    exact Leaves.tooBig h hputs fun more => ⟨_, hgroup more⟩
  · rw [hput] at hputs
    have hloop := convertLoop_leaves hok rfl ps o'
    exact Leaves.put hputs ⟨hloop.ok, hloop.ends, hloop.out⟩ hgroup

theorem convertLoop_keep (h : Ok lb inst) (hlen : (inst.erem ++ ps).length ≤ 2) (o : Base64Out)
    : Leaves lb inst (inst.erem ++ ps) o (inst.convertLoop ps o) := by
  rw [length_append] at hlen
  rw [convertLoop]
  · exact Leaves.keep h (by rwa [length_append]) o
  · rintro a b c qs rfl
    simp only [length_cons] at hlen
    omega

theorem convert_leaves (h : Ok lb inst) (ps : List UInt8) (room : Nat) :
    ∃ r, phpConvBase64EncodeConvert inst (some ps) room = some r ∧
      Leaves lb inst (inst.erem ++ ps) { pd := [], ocnt := room, lineCcnt := inst.lineCcnt } r := by
  refine ⟨_, rfl, ?_⟩
  have herem := h.erem
  match hinst : inst.erem, ps with
  | [], ps => exact convertLoop_leaves h hinst ps _
  | [a], [] =>
    have hlen : (inst.erem ++ []).length ≤ 2 := by rw [hinst]; exact Nat.le_succ 1
    have hkeep := convertLoop_keep h hlen
    rw [hinst] at hkeep
    exact hkeep _
  | [a], [b] =>
    have hlen : (inst.erem ++ [b]).length ≤ 2 := by rw [hinst]; exact Nat.le_refl 2
    have hkeep := convertLoop_keep h hlen
    rw [hinst] at hkeep
    exact hkeep _
  | [a], b :: c :: ps =>
    have hgroup : ∀ more, base64Groups (inst.erem ++ b :: c :: ps ++ more) =
        group3 a b c :: base64Groups (ps ++ more) := by
      rw [hinst]
      exact fun _ => rfl
    have hput := putRemainder_leaves h (cons_ne_nil _ _) hgroup
    rw [hinst] at hput
    exact hput _
  | [a, b], [] =>
    have hlen : (inst.erem ++ []).length ≤ 2 := by rw [hinst]; exact Nat.le_refl 2
    have hkeep := convertLoop_keep h hlen
    rw [hinst] at hkeep
    exact hkeep _
  | [a, b], c :: ps =>
    have hgroup : ∀ more, base64Groups (inst.erem ++ c :: ps ++ more) =
        group3 a b c :: base64Groups (ps ++ more) := by
      rw [hinst]
      exact fun _ => rfl
    have hput := putRemainder_leaves h (cons_ne_nil _ _) hgroup
    rw [hinst] at hput
    exact hput _
  | a :: b :: c :: erem, ps =>
    rw [hinst] at herem
    simp only [length_cons] at herem
    omega

/-- What a call with `NULL` leaves. -/
structure Flushes (lb : Option (List UInt8)) (inst : Base64Encode) (room : Nat)
    (r : Converted Base64Encode) : Prop where
  ok : Ok lb r.inst
  rest : r.rest = []
  ends : (r.err = .success ∧ r.inst.sem [] = []) ∨ r.err = .tooBig ∧ (r.out = [] → room < need lb)
  out : inst.sem [] = r.out ++ r.inst.sem []

theorem flushGroup_flushes (h : Ok lb inst) (hne : group ≠ [])
    (hgroup : base64Groups inst.erem = [group]) (room : Nat) :
    Flushes lb inst room
      (match inst.put group { pd := [], ocnt := room, lineCcnt := inst.lineCcnt } with
      | (o, true) => { inst with erem := [] }.leave [] o .success
      | (o, false) => inst.leave [] o .tooBig) := by
  have hsem : inst.sem [] = breakGroups inst.lbchars inst.lineLen inst.lineCcnt [group] := by
    rw [sem, List.append_nil, hgroup]
  have hputs := put_puts h hne { pd := [], ocnt := room, lineCcnt := inst.lineCcnt }
  rcases hput : inst.put group _ with ⟨o, _ | _⟩
  · rw [hput] at hputs
    obtain ⟨w, hpd, hroom, hgroups⟩ := hputs
    refine ⟨⟨h.erem, h.lbchars, h.lineLen⟩, rfl, .inr ⟨rfl, fun hnil => hroom ?_⟩, ?_⟩
    · exact (hpd.symm.trans hnil : [] ++ w = [])
    · show _ = o.pd ++ breakGroups inst.lbchars inst.lineLen o.lineCcnt
        (base64Groups (inst.erem ++ []))
      rw [hsem, List.append_nil, hgroup, hpd]
      exact hgroups []
  · rw [hput] at hputs
    obtain ⟨w, hpd, -, hgroups⟩ := hputs
    refine ⟨⟨Nat.zero_le 2, h.lbchars, h.lineLen⟩, rfl, .inl ⟨rfl, rfl⟩, ?_⟩
    show _ = o.pd ++ []
    rw [hsem, hpd]
    exact hgroups []

theorem flush_flushes (h : Ok lb inst) (room : Nat) :
    Flushes lb inst room (phpConvBase64EncodeFlush inst room) := by
  have herem := h.erem
  rw [phpConvBase64EncodeFlush]
  match hinst : inst.erem with
  | [] =>
    have hnil : inst.sem [] = [] := by
      rw [sem, hinst]
      rfl
    exact ⟨⟨h.erem, h.lbchars, h.lineLen⟩, rfl, .inl ⟨rfl, hnil⟩, rfl⟩
  | [a] => exact flushGroup_flushes h (cons_ne_nil _ _) (by rw [hinst]; rfl) room
  | [a, b] => exact flushGroup_flushes h (cons_ne_nil _ _) (by rw [hinst]; rfl) room
  | a :: b :: c :: erem =>
    rw [hinst] at herem
    simp only [length_cons] at herem
    omega

end Base64Encode

theorem phpConvBase64EncodeConvert_resumes (lb : Option (List UInt8)) :
    Resumes phpConvBase64EncodeConvert (Base64Encode.Ok lb) (fun _ _ _ => True) Base64Encode.sem
      (Base64Encode.need lb) := by
  constructor
  intro inst ps room h _
  cases ps with
  | none =>
    obtain ⟨hok, hrest, hends, hout⟩ := Base64Encode.flush_flushes h room
    refine ⟨_, rfl, hok, ?_, fun _ => hrest, fun more hmore => ?_⟩
    · exact hends.imp (fun hs => ⟨hs.1, hrest, fun _ => hs.2⟩) id
    · rw [hmore rfl, hrest]
      exact hout
  | some ps =>
    obtain ⟨r, hr, hok, hends, w, hout, hroom, hsem⟩ := Base64Encode.convert_leaves h ps room
    refine ⟨r, hr, hok, ?_, nofun, fun more _ => ?_⟩
    · rcases hends with ⟨herr, hrest⟩ | herr
      · exact .inl ⟨herr, hrest, nofun⟩
      · exact .inr ⟨herr, fun hnil => hroom herr (hout.symm.trans hnil)⟩
    · have hsem := hsem more
      rw [append_assoc] at hsem
      rw [hout]
      exact hsem

def base64Digit (n : Nat) : UInt8 := base64Alphabet.getD (n % 64) 0

/-- Three bytes are a number of four digits in base 64; what is missing at the end is padding. -/
def base64Text : List UInt8 → List UInt8
  | a :: b :: c :: xs =>
    let n := a.toNat * 2 ^ 16 + b.toNat * 2 ^ 8 + c.toNat
    base64Digit (n / 2 ^ 18) :: base64Digit (n / 2 ^ 12) :: base64Digit (n / 2 ^ 6) ::
      base64Digit n :: base64Text xs
  | [a, b] =>
    let n := a.toNat * 2 ^ 10 + b.toNat * 2 ^ 2
    [base64Digit (n / 2 ^ 12), base64Digit (n / 2 ^ 6), base64Digit n, ch '=']
  | [a] =>
    let n := a.toNat * 2 ^ 4
    [base64Digit (n / 2 ^ 6), base64Digit n, ch '=', ch '=']
  | [] => []

example : base64Text [] = [] := by rw [base64Text]

/-- Lines of `n` characters, with `lb` between them. -/
def breakLines (n : Nat) (lb text : List UInt8) : List UInt8 :=
  if n = 0 ∨ text.length ≤ n then text
  else text.take n ++ (lb ++ breakLines n lb (text.drop n))
termination_by text.length
decreasing_by
  rw [List.length_drop]
  omega

theorem base64Alphabet_eq : base64Alphabet =
    (range' 65 26 ++ range' 97 26 ++ range' 48 10 ++ [43, 47]).map UInt8.ofNat := by
  decide +kernel

theorem length_base64Alphabet : base64Alphabet.length = 64 := by
  rw [base64Alphabet_eq]
  rfl

theorem toNat_shiftRight (hs : s.toNat < 8) :
    (a >>> s).toNat = a.toNat / 2 ^ s.toNat := by
  rw [UInt8.toNat_shiftRight, Nat.mod_eq_of_lt hs, Nat.shiftRight_eq_div_pow]

theorem toNat_shiftLeft (hs : s.toNat < 8) :
    (a <<< s).toNat = a.toNat * 2 ^ s.toNat % 256 := by
  rw [UInt8.toNat_shiftLeft, Nat.mod_eq_of_lt hs, Nat.shiftLeft_eq]

theorem toNat_shiftLeft_or {b t : UInt8} (hs : s.toNat < 8) (ht : t.toNat < 8)
    (h : s.toNat + t.toNat = 8) :
    ((a <<< s) ||| (b >>> t)).toNat = a.toNat * 2 ^ s.toNat % 256 + b.toNat / 2 ^ t.toNat := by
  have hpow : 2 ^ s.toNat * 2 ^ t.toNat = 256 := by rw [← Nat.pow_add, h]
  have hb : b.toNat / 2 ^ t.toNat < 2 ^ s.toNat := by
    rw [Nat.div_lt_iff_lt_mul (Nat.two_pow_pos _), hpow]
    exact b.toNat_lt
  have ha : a.toNat * 2 ^ s.toNat % 256 = (a.toNat % 2 ^ t.toNat) <<< s.toNat := by
    rw [Nat.shiftLeft_eq, ← hpow, Nat.mul_comm (2 ^ s.toNat), Nat.mul_mod_mul_right]
  rw [UInt8.toNat_or, toNat_shiftLeft hs, toNat_shiftRight ht, ha,
    ← Nat.shiftLeft_add_eq_or_of_lt hb]

theorem getD_fourCopies {l : List UInt8} (hlen : l.length = 64) {n : Nat} (hn : n < 256) :
    (l ++ l ++ l ++ l).getD n 0 = l.getD (n % 64) 0 := by
  simp only [List.getD_eq_getElem?_getD, List.getElem?_append, length_append, hlen]
  split
  · split
    · split
      · rw [Nat.mod_eq_of_lt ‹_›]
      · rw [show n % 64 = n - 64 by omega]
    · rw [show n % 64 = n - (64 + 64) by omega]
  · rw [show n % 64 = n - (64 + 64 + 64) by omega]

theorem b64TblEnc_eq (i : UInt8) : b64TblEnc i = base64Digit i.toNat :=
  getD_fourCopies length_base64Alphabet i.toNat_lt

theorem base64Digit_congr {m n : Nat} (h : m % 64 = n % 64) : base64Digit m = base64Digit n := by
  rw [base64Digit, base64Digit, h]

theorem group3_eq (a b c : UInt8) (xs : List UInt8) :
    group3 a b c ++ base64Text xs = base64Text (a :: b :: c :: xs) := by
  have hb := b.toNat_lt
  have hc := c.toNat_lt
  have h1 : b64TblEnc (a >>> 2) =
      base64Digit ((a.toNat * 2 ^ 16 + b.toNat * 2 ^ 8 + c.toNat) / 2 ^ 18) := by
    rw [b64TblEnc_eq, toNat_shiftRight (by decide)]
    exact base64Digit_congr (by show a.toNat / 4 % 64 = _; omega)
  have h2 : b64TblEnc ((a <<< 4) ||| (b >>> 4)) =
      base64Digit ((a.toNat * 2 ^ 16 + b.toNat * 2 ^ 8 + c.toNat) / 2 ^ 12) := by
    rw [b64TblEnc_eq, toNat_shiftLeft_or (by decide) (by decide) (by decide)]
    exact base64Digit_congr (by show (a.toNat * 16 % 256 + b.toNat / 16) % 64 = _; omega)
  have h3 : b64TblEnc ((b <<< 2) ||| (c >>> 6)) =
      base64Digit ((a.toNat * 2 ^ 16 + b.toNat * 2 ^ 8 + c.toNat) / 2 ^ 6) := by
    rw [b64TblEnc_eq, toNat_shiftLeft_or (by decide) (by decide) (by decide)]
    exact base64Digit_congr (by show (b.toNat * 4 % 256 + c.toNat / 64) % 64 = _; omega)
  have h4 : b64TblEnc c = base64Digit (a.toNat * 2 ^ 16 + b.toNat * 2 ^ 8 + c.toNat) := by
    rw [b64TblEnc_eq]
    exact base64Digit_congr (by omega)
  rw [group3, h1, h2, h3, h4]
  rfl

theorem group2_eq (a b : UInt8) : group2 a b = base64Text [a, b] := by
  have hb := b.toNat_lt
  have h1 : b64TblEnc (a >>> 2) = base64Digit ((a.toNat * 2 ^ 10 + b.toNat * 2 ^ 2) / 2 ^ 12) := by
    rw [b64TblEnc_eq, toNat_shiftRight (by decide)]
    exact base64Digit_congr (by show a.toNat / 4 % 64 = _; omega)
  have h2 : b64TblEnc ((a <<< 4) ||| (b >>> 4)) =
      base64Digit ((a.toNat * 2 ^ 10 + b.toNat * 2 ^ 2) / 2 ^ 6) := by
    rw [b64TblEnc_eq, toNat_shiftLeft_or (by decide) (by decide) (by decide)]
    exact base64Digit_congr (by show (a.toNat * 16 % 256 + b.toNat / 16) % 64 = _; omega)
  have h3 : b64TblEnc (b <<< 2) = base64Digit (a.toNat * 2 ^ 10 + b.toNat * 2 ^ 2) := by
    rw [b64TblEnc_eq, toNat_shiftLeft (by decide)]
    exact base64Digit_congr (by show b.toNat * 4 % 256 % 64 = _; omega)
  rw [group2, h1, h2, h3]
  rfl

theorem group1_eq (a : UInt8) : group1 a = base64Text [a] := by
  have h1 : b64TblEnc (a >>> 2) = base64Digit (a.toNat * 2 ^ 4 / 2 ^ 6) := by
    rw [b64TblEnc_eq, toNat_shiftRight (by decide)]
    exact base64Digit_congr (by show a.toNat / 4 % 64 = _; omega)
  have h2 : b64TblEnc (a <<< 4) = base64Digit (a.toNat * 2 ^ 4) := by
    rw [b64TblEnc_eq, toNat_shiftLeft (by decide)]
    exact base64Digit_congr (by show a.toNat * 16 % 256 % 64 = _; omega)
  rw [group1, h1, h2]
  rfl

theorem flatten_base64Groups (xs : List UInt8) : (base64Groups xs).flatten = base64Text xs := by
  induction xs using base64Groups.induct with
  | case1 a b c xs ih =>
    rw [base64Groups, flatten_cons, ih]
    exact group3_eq a b c xs
  | case2 a b => exact (List.append_nil _).trans (group2_eq a b)
  | case3 a => exact (List.append_nil _).trans (group1_eq a)
  | case4 => rfl

theorem length_of_mem_base64Groups {xs g : List UInt8} (h : g ∈ base64Groups xs) :
    g.length = 4 := by
  induction xs using base64Groups.induct with
  | case1 a b c xs ih =>
    rcases mem_cons.mp h with rfl | h
    · rfl
    · exact ih h
  | case2 a b => rw [mem_singleton.mp h]; rfl
  | case3 a => rw [mem_singleton.mp h]; rfl
  | case4 => exact nomatch h

/-! The line breaks. -/

theorem breakGroups_none (lineLen ccnt : BitVec 32) (gs : List (List UInt8)) :
    breakGroups none lineLen ccnt gs = gs.flatten := by
  induction gs generalizing ccnt with
  | nil => rfl
  | cons g gs ih =>
    rw [breakGroups, ih, flatten_cons]

theorem toNat_sub_four {ccnt : BitVec 32} (h : ¬ ccnt < 4) : (ccnt - 4).toNat = ccnt.toNat - 4 :=
  BitVec.toNat_sub_of_le (BitVec.not_lt.mp h)

theorem breakGroups_some (lb : List UInt8) {lineLen : BitVec 32} (hlen : ¬ lineLen < 4)
    (ccnt : BitVec 32) (gs : List (List UInt8)) :
    breakGroups (some lb) lineLen ccnt gs =
      if gs.length ≤ ccnt.toNat / 4 then gs.flatten
      else (gs.take (ccnt.toNat / 4)).flatten ++
        (lb ++ breakGroups (some lb) lineLen lineLen (gs.drop (ccnt.toNat / 4))) := by
  induction gs generalizing ccnt with
  | nil => rfl
  | cons g gs ih =>
    rw [breakGroups]
    by_cases hccnt : ccnt < 4
    · have hzero : ccnt.toNat / 4 = 0 := Nat.div_eq_of_lt (BitVec.lt_def.mp hccnt)
      rw [if_pos hccnt, hzero, length_cons, if_neg (Nat.not_succ_le_zero _), take_zero,
        drop_zero, flatten_nil, nil_append, breakGroups, if_neg hlen]
    · have hle : 4 ≤ ccnt.toNat := BitVec.le_def.mp (BitVec.not_lt.mp hccnt)
      obtain ⟨k, hk⟩ : ∃ k, ccnt.toNat / 4 = k + 1 := ⟨ccnt.toNat / 4 - 1, by omega⟩
      have hk' : (ccnt - 4).toNat / 4 = k := by rw [toNat_sub_four hccnt]; omega
      rw [if_neg hccnt, ih, hk, hk', length_cons]
      by_cases hgs : gs.length ≤ k
      · rw [if_pos hgs, if_pos (Nat.succ_le_succ hgs), flatten_cons]
      · rw [if_neg hgs, if_neg (fun h => hgs (Nat.le_of_succ_le_succ h)), take_succ_cons,
          drop_succ_cons, flatten_cons, append_assoc]

theorem length_flatten_groups (h : ∀ g ∈ gs, g.length = 4) :
    gs.flatten.length = 4 * gs.length := by
  induction gs with
  | nil => rfl
  | cons g gs ih =>
    rw [flatten_cons, length_append, h g mem_cons_self,
      ih fun g hg => h g (mem_cons_of_mem _ hg), length_cons]
    omega

theorem flatten_take_groups (h : ∀ g ∈ gs, g.length = 4) {k : Nat} (hk : k ≤ gs.length) :
    (gs.take k).flatten = gs.flatten.take (4 * k) ∧ (gs.drop k).flatten = gs.flatten.drop (4 * k) := by
  have hlen : (gs.take k).flatten.length = 4 * k := by
    rw [length_flatten_groups fun g hg => h g (mem_of_mem_take hg), length_take,
      Nat.min_eq_left hk]
  have hsplit : gs.flatten = (gs.take k).flatten ++ (gs.drop k).flatten := by
    rw [← flatten_append, take_append_drop]
  constructor
  · rw [hsplit, take_left' hlen]
  · rw [hsplit, drop_left' hlen]

theorem breakGroups_eq_breakLines (lb : List UInt8) {lineLen : BitVec 32} (hlen : ¬ lineLen < 4)
    (h : ∀ g ∈ gs, g.length = 4) :
    breakGroups (some lb) lineLen lineLen gs =
      breakLines (4 * (lineLen.toNat / 4)) lb gs.flatten := by
  have hle : 4 ≤ lineLen.toNat := BitVec.le_def.mp (BitVec.not_lt.mp hlen)
  induction hn : gs.length using Nat.strongRecOn generalizing gs with
  | ind n ih =>
    have hflat := length_flatten_groups h
    rw [breakGroups_some lb hlen, breakLines]
    by_cases hgs : gs.length ≤ lineLen.toNat / 4
    · rw [if_pos hgs, if_pos (.inr (by omega))]
    · have hlong : ¬ (4 * (lineLen.toNat / 4) = 0 ∨ gs.flatten.length ≤ 4 * (lineLen.toNat / 4)) := by
        omega
      obtain ⟨htake, hdrop⟩ := flatten_take_groups h (Nat.le_of_lt (Nat.lt_of_not_le hgs))
      rw [if_neg hgs, if_neg hlong, htake, ← hdrop]
      have hrest := ih (gs.drop (lineLen.toNat / 4)).length (by rw [length_drop]; omega)
        (fun g hg => h g (mem_of_mem_drop hg)) rfl
      rw [hrest]

def encodedText (lbchars : Option (List UInt8)) (lineLen : BitVec 32) (xs : List UInt8) :
    List UInt8 :=
  if lineLen < 4 then base64Text xs
  else breakLines (4 * (lineLen.toNat / 4)) (lbchars.getD [ch '\r', ch '\n']) (base64Text xs)

theorem pestrdup_eq {s : List UInt8} (hnul : ∀ c ∈ s.dropLast, c ≠ 0) (behind : List UInt8) :
    pestrdup s behind = s := by
  rcases eq_nil_or_concat s with rfl | ⟨init, last, rfl⟩
  · rfl
  · rw [concat_eq_append, dropLast_concat] at hnul
    have hinit : ∀ c ∈ init, decide (c ≠ 0) = true := fun c hc => decide_eq_true (hnul c hc)
    rw [pestrdup, concat_eq_append, takeWhile_append_of_pos hinit]
    by_cases hlast : last = 0
    · rw [hlast, takeWhile_cons_of_neg (by decide), List.append_nil, take_left]
    · have hself : [last].takeWhile (· ≠ 0) = [last] := by simp [hlast]
      rw [hself, append_assoc, take_left]

theorem sem_convOpen {lbchars : Option (List UInt8)}
    (hnul : ∀ c ∈ (lbchars.getD []).dropLast, c ≠ 0) (lineLen : BitVec 32)
    (behind xs : List UInt8) :
    (Base64Encode.convOpen lbchars lineLen behind).sem xs = encodedText lbchars lineLen xs := by
  have hgroups := fun g (hg : g ∈ base64Groups xs) => length_of_mem_base64Groups hg
  rw [Base64Encode.convOpen, encodedText]
  split
  · show breakGroups none 0 0 (base64Groups xs) = _
    rw [breakGroups_none, flatten_base64Groups]
  · rename_i hlen
    have hdup : pestrdup (lbchars.getD [ch '\r', ch '\n']) behind =
        lbchars.getD [ch '\r', ch '\n'] := by
      refine pestrdup_eq ?_ behind
      cases lbchars with
      | none => exact List.all_iff_forall_prop.mp (by decide +kernel)
      | some lb => exact hnul
    show breakGroups (some (pestrdup _ behind)) lineLen lineLen (base64Groups xs) = _
    rw [hdup, breakGroups_eq_breakLines _ hlen hgroups, flatten_base64Groups]

end Php53.Standard
