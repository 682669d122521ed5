import Php53.Reasoning.Scan
import Php53.Zend.Decimal

/-!
# UrlCode — `php_url_encode` and `php_url_decode`

Decoding works in place: what is written never overtakes what is read.
-/

open Reasoning

namespace Php53.Main

open Zend List

def isxdigit (c : UInt8) : Bool :=
  isDigit c || (ch 'a' ≤ c && c ≤ ch 'f') || (ch 'A' ≤ c && c ≤ ch 'F')

def tolower (c : UInt8) : UInt8 := if ch 'A' ≤ c ∧ c ≤ ch 'Z' then c + 32 else c

def cString (mem : List UInt8) (off : Nat) : List UInt8 := (mem.drop off).takeWhile (· ≠ 0)

def strlen (mem : List UInt8) (off : Nat) : Nat := (cString mem off).length

def strchr (mem : List UInt8) (off : Nat) (c : UInt8) : Option Nat :=
  ((cString mem off).findIdx? (· = c)).map (off + ·)

def memchr (mem : List UInt8) (off : Nat) (c : UInt8) (n : Nat) : Option Nat :=
  (((mem.drop off).take n).findIdx? (· = c)).map (off + ·)

/-- `estrndup(mem + off, n)` -/
def bytesAt (mem : List UInt8) (off n : Nat) : List UInt8 := (mem.drop off).take n

def hexValue (c : UInt8) : Nat :=
  let c := tolower c
  if isDigit c then c.toNat - 48 else c.toNat - 97 + 10

/-- `php_htoi` on two hexadecimal digits, as a `char`. -/
def phpHtoi (a b : UInt8) : UInt8 := .ofNat (hexValue a * 16 + hexValue b)

/-- The loop of `php_url_decode`, with the block and the pointers `dest` and `data` into it. -/
def urlDecodeLoop : Nat → List UInt8 → Nat → Nat → Nat → List UInt8 × Nat
  | 0, mem, dest, _, _ => (mem.set dest 0, dest)
  | fuel + 1, mem, dest, data, len =>
    if len = 0 then (mem.set dest 0, dest)
    else
      let len := len - 1
      let c := byteAt mem data
      if c = ch '+' then urlDecodeLoop fuel (mem.set dest (ch ' ')) (dest + 1) (data + 1) len
      else if c = ch '%' ∧ len ≥ 2 ∧ isxdigit (byteAt mem (data + 1)) ∧
          isxdigit (byteAt mem (data + 2)) then
        urlDecodeLoop fuel
          (mem.set dest (phpHtoi (byteAt mem (data + 1)) (byteAt mem (data + 2))))
          (dest + 1) (data + 3) (len - 2)
      else urlDecodeLoop fuel (mem.set dest c) (dest + 1) (data + 1) len

/-- `php_url_decode`: the block and the length of the decoded string. -/
def phpUrlDecode (mem : List UInt8) (str len : Nat) : List UInt8 × Nat :=
  let (mem, dest) := urlDecodeLoop len mem str str len
  (mem, dest - str)

/-- What `php_url_decode` makes of a string. -/
def urlDecode : List UInt8 → List UInt8
  | c :: a :: b :: s =>
    if c = ch '+' then ch ' ' :: urlDecode (a :: b :: s)
    else if c = ch '%' ∧ isxdigit a ∧ isxdigit b then phpHtoi a b :: urlDecode s
    else c :: urlDecode (a :: b :: s)
  | c :: s => (if c = ch '+' then ch ' ' else c) :: urlDecode s
  | [] => []

theorem urlDecode_one (b : UInt8) : urlDecode [b] = [if b = ch '+' then ch ' ' else b] := rfl

theorem urlDecode_two (b x : UInt8) :
    urlDecode [b, x] = (if b = ch '+' then ch ' ' else b) :: urlDecode [x] := rfl

theorem urlDecode_plus (s : List UInt8) : urlDecode (ch '+' :: s) = ch ' ' :: urlDecode s := by
  rcases s with _ | ⟨x, _ | ⟨y, s⟩⟩
  · rfl
  · rfl
  · rw [urlDecode, if_pos rfl]

theorem byteAt_append (pre rest : List UInt8) (c : UInt8) :
    byteAt (pre ++ c :: rest) pre.length = c := by
  simp [byteAt]

theorem set_append (pre rest : List UInt8) (c d : UInt8) :
    (pre ++ c :: rest).set pre.length d = pre ++ d :: rest := by
  rw [set_append_right _ _ (Nat.le_refl _), Nat.sub_self, set_cons_zero]

theorem set_gap (pre gap s : List UInt8) (c d : UInt8) :
    ∃ gap', (pre ++ (gap ++ c :: s)).set pre.length d = pre ++ [d] ++ (gap' ++ s) ∧
      gap'.length = gap.length := by
  cases gap with
  | nil => exact ⟨[], by rw [nil_append, set_append]; simp, rfl⟩
  | cons x gap =>
    refine ⟨gap ++ [c], ?_, by simp⟩
    rw [cons_append, set_append]
    simp

theorem urlDecodeLoop_spec (s pre gap post : List UInt8) (c : UInt8) {fuel : Nat}
    (hfuel : s.length ≤ fuel) :
    ∃ junk : List UInt8, urlDecodeLoop fuel (pre ++ (gap ++ (s ++ c :: post))) pre.length
        (pre.length + gap.length) s.length =
        (pre ++ (urlDecode s ++ 0 :: (junk ++ post)), pre.length + (urlDecode s).length) ∧
      junk.length + (urlDecode s).length = gap.length + s.length := by
  induction fuel generalizing s pre gap with
  | zero =>
    obtain rfl : s = [] := length_eq_zero_iff.mp (by omega)
    obtain ⟨gap', hset, hlen⟩ := set_gap pre gap post c 0
    refine ⟨gap', ?_, by simp [urlDecode, hlen]⟩
    rw [urlDecodeLoop, nil_append, hset]
    simp [urlDecode]
  | succ fuel ih =>
    cases s with
    | nil =>
      obtain ⟨gap', hset, hlen⟩ := set_gap pre gap post c 0
      refine ⟨gap', ?_, by simp [urlDecode, hlen]⟩
      rw [urlDecodeLoop, nil_append, hset]
      simp [urlDecode]
    | cons b s =>
      have hread : ∀ (t : List UInt8) (x : UInt8) (rest : List UInt8), b :: s = t ++ x :: rest →
          byteAt (pre ++ (gap ++ (b :: s ++ c :: post))) (pre.length + gap.length + t.length) =
            x := by
        intro t x rest hs
        rw [hs]
        have h := byteAt_append (pre ++ gap ++ t) (rest ++ c :: post) x
        simp only [length_append] at h
        simpa using h
      -- `d` is written for `b` and the bytes of `t`
      have step : ∀ (d : UInt8) (t rest : List UInt8), s = t ++ rest →
          ∃ junk : List UInt8, urlDecodeLoop fuel ((pre ++ (gap ++ (b :: s ++ c :: post))).set pre.length d)
              (pre.length + 1) (pre.length + gap.length + (1 + t.length)) rest.length =
              (pre ++ (d :: urlDecode rest ++ 0 :: (junk ++ post)),
                pre.length + (d :: urlDecode rest).length) ∧
            junk.length + (d :: urlDecode rest).length = gap.length + (b :: s).length := by
        rintro d t rest rfl
        obtain ⟨gap', hset, hlen⟩ := set_gap pre gap (t ++ rest ++ c :: post) b d
        rw [length_cons, length_append] at hfuel
        obtain ⟨junk, hloop, hjunk⟩ := ih rest (pre ++ [d]) (gap' ++ t) (by omega)
        refine ⟨junk, ?_, ?_⟩
        · rw [cons_append, hset]
          simp only [append_assoc, length_append, length_cons, length_nil,
            hlen] at hloop ⊢
          rw [show pre.length + gap.length + (1 + t.length) =
            pre.length + (0 + 1) + (gap.length + t.length) by omega, hloop]
          simp only [cons_append, nil_append, Prod.mk.injEq, true_and]
          omega
        · simp only [length_append, length_cons, hlen] at hjunk ⊢
          omega
      have hb := hread [] b s rfl
      rw [urlDecodeLoop, if_neg (by simp)]
      simp only [length_cons, Nat.add_sub_cancel, length_nil, Nat.add_zero] at hb ⊢
      rw [hb]
      by_cases hplus : b = ch '+'
      · rw [if_pos hplus, hplus, urlDecode_plus]
        rw [hplus] at step
        exact step (ch ' ') [] s rfl
      · rw [if_neg hplus]
        have hother := step b [] s rfl
        rcases s with _ | ⟨x, _ | ⟨y, s⟩⟩
        · rw [if_neg (by simp), urlDecode_one, if_neg hplus]
          exact hother
        · rw [if_neg (by simp), urlDecode_two, if_neg hplus]
          exact hother
        · have hx := hread [b] x (y :: s) rfl
          have hy := hread [b, x] y s rfl
          simp only [length_cons, length_nil] at hx hy
          rw [hx, hy, urlDecode, if_neg hplus]
          by_cases hhex : b = ch '%' ∧ isxdigit x = true ∧ isxdigit y = true
          · rw [if_pos ⟨hhex.1, by simp, hhex.2.1, hhex.2.2⟩, if_pos hhex]
            exact step (phpHtoi x y) [x, y] s rfl
          · rw [if_neg fun h => hhex ⟨h.1, h.2.2⟩, if_neg hhex]
            exact hother

theorem phpUrlDecode_spec (pre s post : List UInt8) (c : UInt8) :
    ∃ junk : List UInt8, phpUrlDecode (pre ++ (s ++ c :: post)) pre.length s.length =
        (pre ++ (urlDecode s ++ 0 :: (junk ++ post)), (urlDecode s).length) ∧
      junk.length + (urlDecode s).length = s.length := by
  obtain ⟨junk, hloop, hlen⟩ := urlDecodeLoop_spec s pre [] post c (Nat.le_refl _)
  rw [nil_append, length_nil, Nat.add_zero] at hloop
  rw [length_nil, Nat.zero_add] at hlen
  refine ⟨junk, ?_, hlen⟩
  rw [phpUrlDecode, hloop]
  simp only [Nat.add_sub_cancel_left]

end Php53.Main
