import Php53.Main.QueryText

/-!
# QuotPrint — quoted-printable strings

`php_quot_print_encode` and the two decoders, `php_quot_print_decode` and `quoted_printable_decode`.
A pointer into a string is what is left of the string, and behind its last byte stands the NUL.
-/

namespace Php53.Standard

open Php53.Zend Php53.Main

/-- `*str`, or the NUL behind the string. -/
def headByte (s : List UInt8) : UInt8 := s.headD 0

def qprintMaxl : Nat := 75

/-- `iscntrl` in the C locale. -/
def iscntrl (c : UInt8) : Bool := c < 32 || c == 127

def qprintHex (n : Nat) : UInt8 :=
  [48, 49, 50, 51, 52, 53, 54, 55, 56, 57, 65, 66, 67, 68, 69, 70].getD n 0

/-- The characters that are written as `=XX`; `next` is the byte behind `c`. -/
def qprintEscapes (c next : UInt8) : Bool :=
  iscntrl c || c == 0x7f || c &&& 0x80 != 0 || c == ch '=' || (c == ch ' ' && next == 13)

def qprintEscape (c : UInt8) : List UInt8 :=
  [ch '=', qprintHex (c >>> 4).toNat, qprintHex (c &&& 0xf).toNat]

def qprintSoftBreak : List UInt8 := [ch '=', 13, 10]

/-- The loop of `php_quot_print_encode`: what it writes for the rest of the string. -/
def quotPrintEncodeLoop (s : List UInt8) (lp : Nat) : List UInt8 :=
  match s with
  | [] => []
  | c :: s =>
    if c = 13 ∧ headByte s = 10 ∧ s.length > 0 then
      13 :: headByte s :: quotPrintEncodeLoop s.tail 0
    else if qprintEscapes c (headByte s) then
      if lp + 3 > qprintMaxl then qprintSoftBreak ++ (qprintEscape c ++ quotPrintEncodeLoop s 3)
      else qprintEscape c ++ quotPrintEncodeLoop s (lp + 3)
    else if lp + 1 > qprintMaxl then qprintSoftBreak ++ c :: quotPrintEncodeLoop s 1
    else c :: quotPrintEncodeLoop s (lp + 1)
termination_by s.length
decreasing_by
  all_goals (simp only [List.length_cons, List.length_tail]; omega)

example : quotPrintEncodeLoop [] 0 = [] := by rw [quotPrintEncodeLoop]

def php_quot_print_encode (s : List UInt8) : List UInt8 := quotPrintEncodeLoop s 0

def hexvalTbl (c : UInt8) : Nat :=
  if ch '0' ≤ c ∧ c ≤ ch '9' then c.toNat - 48
  else if ch 'A' ≤ c ∧ c ≤ ch 'F' then c.toNat - 65 + 10
  else if ch 'a' ≤ c ∧ c ≤ ch 'f' then c.toNat - 97 + 10
  else if c = 9 ∨ c = 32 then 32
  else if c = 10 ∨ c = 13 then 16
  else 64

/-- `while (h_nbl == 32)`: the string from the first byte of another class on, `none` where the
loop returns NULL. -/
def skipSoftBlanks : List UInt8 → Option (List UInt8)
  | [] => none
  | c :: s =>
    if hexvalTbl c = 32 then
      match s with
      | [] => none
      | d :: _ => if hexvalTbl d = 64 then none else skipSoftBlanks s
    else some (c :: s)

theorem length_skipSoftBlanks {s t : List UInt8} (h : skipSoftBlanks s = some t) :
    t.length ≤ s.length := by
  fun_induction skipSoftBlanks s with
  | case1 => cases h
  | case2 => cases h
  | case3 => cases h
  | case4 _ _ _ _ _ ih => exact Nat.le_succ_of_le (ih h)
  | case5 =>
    cases h
    exact Nat.le_refl _

/-- The loop of `php_quot_print_decode`; `none` is the NULL that it returns. -/
def quotPrintDecodeLoop (replace : Bool) (s : List UInt8) : Option (List UInt8) :=
  match s with
  | [] => some []
  | c :: s =>
    if c = 0 then some []
    else if c = ch '=' then
      match s with
      | [] => some []
      | h :: s =>
        if h = 0 then some []
        else if hexvalTbl h < 16 then
          -- next char should be a hexadecimal digit
          match s with
          | [] => none
          | l :: s =>
            if hexvalTbl l ≥ 16 then none
            else (quotPrintDecodeLoop replace s).map
              (UInt8.ofNat (hexvalTbl h <<< 4 ||| hexvalTbl l) :: ·)
        else if hexvalTbl h < 64 then
          -- soft line break
          match _ht : skipSoftBlanks (h :: s) with
          | none => none
          | some t =>
            if headByte t = 13 ∧ t.length ≥ 2 ∧ headByte t.tail = 10 then
              quotPrintDecodeLoop replace t.tail.tail
            else quotPrintDecodeLoop replace t.tail
        else none
    else
      (quotPrintDecodeLoop replace s).map ((if replace && c == ch '_' then 0x20 else c) :: ·)
termination_by s.length
decreasing_by
  all_goals simp only [List.length_cons, List.length_tail]
  any_goals omega
  all_goals
    have hle := length_skipSoftBlanks _ht
    simp only [List.length_cons] at hle
    omega

example : quotPrintDecodeLoop false [] = some [] := by rw [quotPrintDecodeLoop]

/-- The bytes are counted in an `unsigned int`. -/
def php_quot_print_decode (s : List UInt8) (replace_us_by_ws : Bool) : Option (List UInt8) :=
  quotPrintDecodeLoop replace_us_by_ws (s.take (s.length % 2 ^ 32))

/-- `php_hex2int` on a hexadecimal digit. -/
def hex2int (c : UInt8) : UInt8 :=
  if isDigit c then c - 48 else if ch 'A' ≤ c ∧ c ≤ ch 'F' then c - 65 + 10 else c - 97 + 10

/-- The loop of `quoted_printable_decode`. -/
def quotedPrintableDecodeLoop (s : List UInt8) : List UInt8 :=
  match s with
  | [] => []
  | c :: s =>
    if c = 0 then []
    else if c = ch '=' then
      if headByte s ≠ 0 ∧ headByte s.tail ≠ 0 ∧ isxdigit (headByte s) ∧
          isxdigit (headByte s.tail) then
        ((hex2int (headByte s) <<< 4) + hex2int (headByte s.tail)) ::
          quotedPrintableDecodeLoop s.tail.tail
      else
        -- check for soft line break according to RFC 2045
        let t := s.dropWhile (fun c => c == 32 || c == 9)
        if headByte t = 0 then []
        else if headByte t = 13 ∧ headByte t.tail = 10 then quotedPrintableDecodeLoop t.tail.tail
        else if headByte t = 13 ∨ headByte t = 10 then quotedPrintableDecodeLoop t.tail
        else c :: quotedPrintableDecodeLoop s
    else c :: quotedPrintableDecodeLoop s
termination_by s.length
decreasing_by
  all_goals simp only [List.length_cons, List.length_tail]
  any_goals omega
  all_goals
    have hle := (List.dropWhile_sublist (fun c : UInt8 => c == 32 || c == 9) (l := s)).length_le
    omega

example : quotedPrintableDecodeLoop [] = [] := by rw [quotedPrintableDecodeLoop]

/-- There is no result where the `int` `arg1_len + 1`, the size of the block, overflows. -/
def quoted_printable_decode (s : List UInt8) : Option (List UInt8) :=
  if s.length = 0 then some []
  else if s.length + 1 < 2 ^ 31 then some (quotedPrintableDecodeLoop s)
  else none

variable {c : UInt8} {s r : List UInt8} {lp : Nat}

theorem qprintHex_read (c : UInt8) :
    hexvalTbl (qprintHex (c >>> 4).toNat) < 16 ∧ hexvalTbl (qprintHex (c &&& 0xf).toNat) < 16 ∧
    qprintHex (c >>> 4).toNat ≠ 0 ∧
    UInt8.ofNat (hexvalTbl (qprintHex (c >>> 4).toNat) <<< 4 |||
      hexvalTbl (qprintHex (c &&& 0xf).toNat)) = c := by
  revert c
  apply forall_byte
  decide +kernel

theorem qprintHex_xdigit (c : UInt8) :
    qprintHex (c >>> 4).toNat ≠ 0 ∧ qprintHex (c &&& 0xf).toNat ≠ 0 ∧
    isxdigit (qprintHex (c >>> 4).toNat) ∧ isxdigit (qprintHex (c &&& 0xf).toNat) ∧
    (hex2int (qprintHex (c >>> 4).toNat) <<< 4) + hex2int (qprintHex (c &&& 0xf).toNat) = c := by
  revert c
  apply forall_byte
  decide +kernel

theorem plain_of_not_escapes {next : UInt8} (h : ¬ qprintEscapes c next = true) :
    c ≠ 0 ∧ c ≠ ch '=' ∧ c ≠ 13 := by
  refine ⟨?_, ?_, ?_⟩
  · rintro rfl
    exact h rfl
  · rintro rfl
    exact h rfl
  · rintro rfl
    exact h rfl

theorem eq_cons_of_headByte {b : UInt8} (h : headByte s = b) (hb : s.length > 0) :
    s = b :: s.tail := by
  cases s with
  | nil => exact absurd hb (Nat.lt_irrefl 0)
  | cons a s =>
    rw [← h]
    rfl

theorem decodeLoop_escape (c : UInt8) (r : List UInt8) :
    quotPrintDecodeLoop false (qprintEscape c ++ r) =
      (quotPrintDecodeLoop false r).map (c :: ·) := by
  have ⟨hhi, hlo, hnul, hval⟩ := qprintHex_read c
  show quotPrintDecodeLoop false (ch '=' :: qprintHex _ :: qprintHex _ :: r) = _
  rw [quotPrintDecodeLoop.eq_def]
  simp only [if_neg (show ch '=' ≠ 0 by decide), if_true, if_neg hnul, if_pos hhi,
    if_neg (Nat.not_le_of_lt hlo), hval]

theorem decodeLoop_softBreak (r : List UInt8) :
    quotPrintDecodeLoop false (qprintSoftBreak ++ r) = quotPrintDecodeLoop false r := by
  have hskip : skipSoftBlanks (13 :: 10 :: r) = some (13 :: 10 :: r) := by
    rw [skipSoftBlanks, if_neg (by decide)]
  show quotPrintDecodeLoop false (ch '=' :: 13 :: 10 :: r) = _
  rw [quotPrintDecodeLoop.eq_def]
  simp only [if_neg (show ch '=' ≠ 0 by decide), if_true, if_neg (show (13 : UInt8) ≠ 0 by decide),
    if_neg (show ¬ hexvalTbl 13 < 16 by decide), if_pos (show hexvalTbl 13 < 64 by decide)]
  split
  · next hnone => rw [hskip] at hnone; cases hnone
  · next t hsome =>
    rw [hskip] at hsome
    cases hsome
    exact if_pos ⟨rfl, by simp, rfl⟩

theorem decodeLoop_plain (hnul : c ≠ 0) (heq : c ≠ ch '=') (r : List UInt8) :
    quotPrintDecodeLoop false (c :: r) = (quotPrintDecodeLoop false r).map (c :: ·) := by
  rw [quotPrintDecodeLoop.eq_def]
  simp only [if_neg hnul, if_neg heq, Bool.false_and, Bool.false_eq_true, if_false]

theorem php_quot_print_decode_encodeLoop (s : List UInt8) (lp : Nat) :
    quotPrintDecodeLoop false (quotPrintEncodeLoop s lp) = some s := by
  fun_induction quotPrintEncodeLoop s lp with
  | case1 => rw [quotPrintDecodeLoop.eq_def]
  | case2 lp c s hcrlf ih =>
    have ⟨hc, hhead, hlength⟩ := hcrlf
    rw [hc, hhead, decodeLoop_plain (by decide) (by decide),
      decodeLoop_plain (by decide) (by decide), ih]
    exact congrArg (fun s => some (13 :: s)) (eq_cons_of_headByte hhead hlength).symm
  | case3 lp c s _ _ _ ih => rw [decodeLoop_softBreak, decodeLoop_escape, ih]; rfl
  | case4 lp c s _ _ _ ih => rw [decodeLoop_escape, ih]; rfl
  | case5 lp c s _ hplain _ ih =>
    have ⟨hnul, heq, _⟩ := plain_of_not_escapes hplain
    rw [decodeLoop_softBreak, decodeLoop_plain hnul heq, ih]
    rfl
  | case6 lp c s _ hplain _ ih =>
    have ⟨hnul, heq, _⟩ := plain_of_not_escapes hplain
    rw [decodeLoop_plain hnul heq, ih]
    rfl

theorem qpDecodeLoop_escape (c : UInt8) (r : List UInt8) :
    quotedPrintableDecodeLoop (qprintEscape c ++ r) = c :: quotedPrintableDecodeLoop r := by
  have ⟨hhi, hlo, hxhi, hxlo, hval⟩ := qprintHex_xdigit c
  show quotedPrintableDecodeLoop (ch '=' :: qprintHex _ :: qprintHex _ :: r) = _
  rw [quotedPrintableDecodeLoop.eq_def]
  refine (if_neg (by decide)).trans ((if_pos rfl).trans ?_)
  exact (if_pos ⟨hhi, hlo, hxhi, hxlo⟩).trans (congrArg (· :: quotedPrintableDecodeLoop r) hval)

theorem qpDecodeLoop_softBreak (r : List UInt8) :
    quotedPrintableDecodeLoop (qprintSoftBreak ++ r) = quotedPrintableDecodeLoop r := by
  show quotedPrintableDecodeLoop (ch '=' :: 13 :: 10 :: r) = _
  rw [quotedPrintableDecodeLoop.eq_def]
  refine (if_neg (by decide)).trans ((if_pos rfl).trans ?_)
  have hdrop : (13 :: 10 :: r).dropWhile (fun c => c == 32 || c == 9) = 13 :: 10 :: r :=
    List.dropWhile_cons_of_neg (by decide)
  refine (if_neg fun h => absurd h.2.2.1 (show ¬ isxdigit 13 = true by decide)).trans ?_
  rw [hdrop]
  exact (if_neg (show (13 : UInt8) ≠ 0 by decide)).trans (if_pos ⟨rfl, rfl⟩)

theorem qpDecodeLoop_plain (hnul : c ≠ 0) (heq : c ≠ ch '=') (r : List UInt8) :
    quotedPrintableDecodeLoop (c :: r) = c :: quotedPrintableDecodeLoop r := by
  rw [quotedPrintableDecodeLoop.eq_def]
  exact (if_neg hnul).trans (if_neg heq)

theorem quoted_printable_decode_encodeLoop (s : List UInt8) (lp : Nat) :
    quotedPrintableDecodeLoop (quotPrintEncodeLoop s lp) = s := by
  fun_induction quotPrintEncodeLoop s lp with
  | case1 => rw [quotedPrintableDecodeLoop.eq_def]
  | case2 lp c s hcrlf ih =>
    have ⟨hc, hhead, hlength⟩ := hcrlf
    rw [hc, hhead, qpDecodeLoop_plain (by decide) (by decide),
      qpDecodeLoop_plain (by decide) (by decide), ih]
    exact congrArg (13 :: ·) (eq_cons_of_headByte hhead hlength).symm
  | case3 lp c s _ _ _ ih => rw [qpDecodeLoop_softBreak, qpDecodeLoop_escape, ih]
  | case4 lp c s _ _ _ ih => rw [qpDecodeLoop_escape, ih]
  | case5 lp c s _ hplain _ ih =>
    have ⟨hnul, heq, _⟩ := plain_of_not_escapes hplain
    rw [qpDecodeLoop_softBreak, qpDecodeLoop_plain hnul heq, ih]
  | case6 lp c s _ hplain _ ih =>
    have ⟨hnul, heq, _⟩ := plain_of_not_escapes hplain
    rw [qpDecodeLoop_plain hnul heq, ih]

def crlfPieces : List UInt8 → List (List UInt8)
  | [] => [[]]
  | [c] => [[c]]
  | c :: d :: s =>
    if c = 13 ∧ d = 10 then [] :: crlfPieces s
    else (crlfPieces (d :: s)).modifyHead (c :: ·)

example : crlfPieces [] = [[]] := by rw [crlfPieces]

theorem crlfPieces_crlf (s : List UInt8) : crlfPieces (13 :: 10 :: s) = [] :: crlfPieces s := by
  rw [crlfPieces, if_pos ⟨rfl, rfl⟩]

theorem crlfPieces_cons (h : c ≠ 13) (s : List UInt8) :
    crlfPieces (c :: s) = (crlfPieces s).modifyHead (c :: ·) := by
  cases s with
  | nil => rfl
  | cons d s => rw [crlfPieces, if_neg fun hcd => h hcd.1]

/-- Behind `lp` characters of a line, the text keeps every line in bounds. -/
def LinesFit (lp : Nat) (text : List UInt8) : Prop :=
  ∃ line lines, crlfPieces text = line :: lines ∧ lp + line.length ≤ qprintMaxl + 1 ∧
    ∀ l ∈ lines, l.length ≤ qprintMaxl + 1

theorem LinesFit.cons (hc : c ≠ 13) (h : LinesFit (lp + 1) s) :
    LinesFit lp (c :: s) := by
  have ⟨line, lines, hpieces, hline, hlines⟩ := h
  refine ⟨c :: line, lines, ?_, ?_, hlines⟩
  · rw [crlfPieces_cons hc, hpieces]
    rfl
  · rw [List.length_cons]
    omega

theorem LinesFit.crlf (hlp : lp ≤ qprintMaxl + 1) (h : LinesFit 0 s) :
    LinesFit lp (13 :: 10 :: s) := by
  have ⟨line, lines, hpieces, hline, hlines⟩ := h
  refine ⟨[], line :: lines, ?_, hlp, ?_⟩
  · rw [crlfPieces_crlf, hpieces]
  · intro l hl
    cases hl with
    | head => omega
    | tail _ hl => exact hlines l hl

theorem LinesFit.escape (c : UInt8) (h : LinesFit (lp + 3) s) :
    LinesFit lp (qprintEscape c ++ s) := by
  have hne : ∀ c : UInt8, qprintHex (c >>> 4).toNat ≠ 13 ∧ qprintHex (c &&& 0xf).toNat ≠ 13 := by
    apply forall_byte
    decide +kernel
  exact .cons (by decide) (.cons (hne c).1 (.cons (hne c).2 h))

theorem LinesFit.softBreak (hlp : lp ≤ qprintMaxl) (h : LinesFit 0 s) :
    LinesFit lp (qprintSoftBreak ++ s) :=
  .cons (by decide) (.crlf (by omega) h)

theorem linesFit_encodeLoop (s : List UInt8) (hlp : lp ≤ qprintMaxl) :
    LinesFit lp (quotPrintEncodeLoop s lp) := by
  fun_induction quotPrintEncodeLoop s lp with
  | case1 => exact ⟨[], [], rfl, Nat.le_succ_of_le hlp, fun l hl => by cases hl⟩
  | case2 lp c s hcrlf ih =>
    rw [hcrlf.2.1]
    exact .crlf (Nat.le_succ_of_le hlp) (ih (Nat.zero_le _))
  | case3 lp c s _ _ _ ih => exact .softBreak hlp (.escape c (ih (by decide)))
  | case4 lp c s _ _ hroom ih => exact .escape c (ih (Nat.le_of_not_lt hroom))
  | case5 lp c s _ hplain _ ih =>
    exact .softBreak hlp (.cons (plain_of_not_escapes hplain).2.2 (ih (by decide)))
  | case6 lp c s _ hplain hroom ih =>
    exact .cons (plain_of_not_escapes hplain).2.2 (ih (Nat.le_of_not_lt hroom))

/-- The octets that the rest of a string takes behind `lp` octets of a line: an escape takes three of
them, and a line that gets too long a soft break. -/
def octetsNeeded (s : List UInt8) (lp : Nat) : Nat :=
  match s with
  | [] => 0
  | c :: s =>
    if c = 13 ∧ headByte s = 10 ∧ s.length > 0 then 2 + octetsNeeded s.tail 0
    else
      let octets := if qprintEscapes c (headByte s) then 3 else 1
      if lp + octets > qprintMaxl then 3 + octets + octetsNeeded s octets
      else octets + octetsNeeded s (lp + octets)
termination_by s.length
decreasing_by
  all_goals (simp only [List.length_cons, List.length_tail]; omega)

theorem length_encodeLoop (s : List UInt8) (lp : Nat) :
    (quotPrintEncodeLoop s lp).length = octetsNeeded s lp := by
  fun_induction quotPrintEncodeLoop s lp with
  | case1 => rw [octetsNeeded, List.length_nil]
  | case2 lp c s hcrlf ih =>
    rw [octetsNeeded, if_pos hcrlf, ← ih, List.length_cons, List.length_cons]
    omega
  | case3 lp c s hcrlf hescape hlong ih =>
    rw [octetsNeeded, if_neg hcrlf, if_pos hescape]
    dsimp only
    rw [← ih, if_pos hlong, List.length_append, List.length_append]
    exact (Nat.add_assoc 3 3 _).symm
  | case4 lp c s hcrlf hescape hlong ih =>
    rw [octetsNeeded, if_neg hcrlf, if_pos hescape]
    dsimp only
    rw [← ih, if_neg hlong, List.length_append]
    rfl
  | case5 lp c s hcrlf hplain hlong ih =>
    rw [octetsNeeded, if_neg hcrlf, if_neg hplain]
    dsimp only
    rw [← ih, if_pos hlong, List.length_append, List.length_cons, Nat.add_comm _ 1]
    exact (Nat.add_assoc 3 1 _).symm
  | case6 lp c s hcrlf hplain hlong ih =>
    rw [octetsNeeded, if_neg hcrlf, if_neg hplain]
    dsimp only
    rw [← ih, if_neg hlong, List.length_cons, Nat.add_comm]

theorem decoders_iff (s : List UInt8) :
    php_quot_print_decode (php_quot_print_encode s) false = some s ∧
        quoted_printable_decode (php_quot_print_encode s) = some s ↔
      octetsNeeded s 0 + 1 < 2 ^ 31 := by
  have hlength := length_encodeLoop s 0
  have hdecode := quoted_printable_decode_encodeLoop s 0
  unfold php_quot_print_decode quoted_printable_decode php_quot_print_encode
  constructor
  · rintro ⟨-, hback⟩
    by_contra hlarge
    rw [if_neg (by omega), if_neg (by omega)] at hback
    cases hback
  · intro hfits
    rw [Nat.mod_eq_of_lt (by omega), List.take_length]
    refine ⟨php_quot_print_decode_encodeLoop s 0, ?_⟩
    split
    · next hempty =>
      rw [List.length_eq_zero_iff.mp hempty, quotedPrintableDecodeLoop] at hdecode
      rw [hdecode]
    · rw [if_pos (by omega), hdecode]

/-- The encoder writes lines of 76 octets at most, and both decoders read back what it writes exactly
where the `int` variables of the second one can count it. -/
theorem quot_print_round_trip (s : List UInt8) :
    (php_quot_print_decode (php_quot_print_encode s) false = some s ∧
      quoted_printable_decode (php_quot_print_encode s) = some s ∧
      ∀ line ∈ crlfPieces (php_quot_print_encode s), line.length ≤ 76) ↔
    octetsNeeded s 0 + 1 < 2 ^ 31 := by
  have hlines : ∀ line ∈ crlfPieces (php_quot_print_encode s), line.length ≤ 76 := by
    have ⟨line, lines, hpieces, hline, hlines⟩ := linesFit_encodeLoop s (Nat.zero_le qprintMaxl)
    intro l hl
    rw [php_quot_print_encode, hpieces] at hl
    cases hl with
    | head =>
      rw [Nat.zero_add] at hline
      exact hline
    | tail _ hl => exact hlines l hl
  rw [← decoders_iff]
  exact ⟨fun h => ⟨h.1, h.2.1⟩, fun h => ⟨h.1, h.2, hlines⟩⟩

theorem octetsNeeded_replicate (n lp : Nat) : 3 * n ≤ octetsNeeded (List.replicate n (ch '=')) lp := by
  induction n generalizing lp with
  | zero => exact Nat.zero_le _
  | succ n ih =>
    have hescapes : qprintEscapes (ch '=') (headByte (List.replicate n (ch '='))) = true := rfl
    rw [List.replicate_succ, octetsNeeded, if_neg fun h => absurd h.1 (by decide), if_pos hescapes]
    dsimp only
    have hnew := ih 3
    have hsame := ih (lp + 3)
    split <;> omega

/-- The first decoder counts the octets modulo `2 ^ 32`, the second one cannot count them. -/
theorem quot_print_round_trip_equals_signs :
    ¬ (php_quot_print_decode (php_quot_print_encode (List.replicate 1431655766 (ch '='))) false =
        some (List.replicate 1431655766 (ch '=')) ∧
      quoted_printable_decode (php_quot_print_encode (List.replicate 1431655766 (ch '='))) =
        some (List.replicate 1431655766 (ch '='))) := by
  have hoctets := octetsNeeded_replicate 1431655766 0
  rw [decoders_iff]
  omega

end Php53.Standard
