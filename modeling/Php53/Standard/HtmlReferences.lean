import Php53.Standard.HtmlDecode

/-!
# HtmlReferences — numbers and references

`strtol` takes more than digits in front of a `;`, and an `int` has less than what it takes.  Where it
takes digits and they are a number of 31 bits, the loop decodes what is a reference.
-/

open Reasoning

namespace Php53.Standard.Html

open Zend List

def isNumberByte (c : UInt8) : Bool :=
  isBlankByte c || Zend.isSign c || isDigitIn 16 c || c = ch 'x' || c = ch 'X'

variable {c : UInt8}

theorem isNumberByte_ne (h : isNumberByte c = true) : c ≠ ch '&' ∧ c ≠ 0 := by
  constructor <;> intro hc <;> rw [hc] at h <;> exact absurd h (by decide)

theorem isNumberByte_blank (h : isBlankByte c = true) : isNumberByte c = true := by
  unfold isNumberByte
  rw [h]
  rfl

theorem isNumberByte_digit (base : Nat) (h : isDigitIn base c = true) :
    isNumberByte c = true := by
  have hsixteen : isDigitIn 16 c = true := by
    unfold isDigitIn at *
    simp only [Bool.or_eq_true, Bool.and_eq_true, decide_eq_true_eq] at *
    exact h.imp_right fun hx => ⟨trivial, hx.2⟩
  unfold isNumberByte
  rw [hsixteen, Bool.or_true]
  rfl

def Taken (n : Nat) (s : List UInt8) : Prop :=
  n ≤ s.length ∧ ∀ c ∈ s.take n, isNumberByte c = true

theorem taken_zero (s : List UInt8) : Taken 0 s := ⟨Nat.zero_le _, fun _ hc => nomatch hc⟩

theorem taken_add {n m : Nat} {s : List UInt8} (hn : Taken n s) (hm : Taken m (s.drop n)) :
    Taken (n + m) s := by
  have hlen := hm.1
  rw [length_drop] at hlen
  have hle := hn.1
  constructor
  · omega
  · intro c hc
    rw [take_add] at hc
    rcases mem_append.mp hc with hfirst | hsecond
    · exact hn.2 c hfirst
    · exact hm.2 c hsecond

theorem taken_takeWhile {f : UInt8 → Bool} (hf : ∀ c, f c = true → isNumberByte c = true)
    (s : List UInt8) : Taken (s.takeWhile f).length s := by
  have hprefix := List.takeWhile_prefix (l := s) f
  constructor
  · exact hprefix.length_le
  · intro c hc
    rw [← prefix_iff_eq_take.mp hprefix] at hc
    exact hf c (mem_takeWhile_imp hc)

theorem taken_sign (s : List UInt8) : Taken (if Zend.isSign (s.headD 0) = true then 1 else 0) s := by
  split
  · next hsign =>
    cases s with
    | nil => exact absurd hsign (by decide)
    | cons c s =>
      constructor
      · exact Nat.le_add_left 1 s.length
      · intro x hx
        rw [mem_singleton.mp hx]
        unfold isNumberByte
        rw [show Zend.isSign c = true from hsign, Bool.or_true]
        rfl
  · exact taken_zero s

theorem taken_radix (base : Nat) (s : List UInt8) :
    Taken (if base = 16 ∧ s.headD 0 = ch '0' ∧ (s.tail.headD 0 = ch 'x' ∨ s.tail.headD 0 = ch 'X') ∧
      isDigitIn 16 ((s.drop 2).headD 0) = true then 2 else 0) s := by
  split
  · next hradix =>
    have ⟨_, hzero, hx, _⟩ := hradix
    cases s with
    | nil => exact absurd hzero (by decide)
    | cons c s =>
      cases s with
      | nil =>
        have hnone : ¬((0 : UInt8) = ch 'x' ∨ (0 : UInt8) = ch 'X') := by decide
        exact absurd hx hnone
      | cons d s =>
        constructor
        · exact Nat.le_add_left 2 s.length
        · intro y hy
          have hmem : y = c ∨ y = d := by
            rcases mem_cons.mp hy with hc | hd
            · exact .inl hc
            · exact .inr (mem_singleton.mp hd)
          have hc : c = ch '0' := hzero
          have hd : d = ch 'x' ∨ d = ch 'X' := hx
          rcases hmem with rfl | rfl
          · rw [hc]
            decide
          · rcases hd with rfl | rfl <;> decide
  · exact taken_zero s

theorem taken_strtolLength (base : Nat) (nptr : List UInt8) :
    Taken (strtolLength base nptr) nptr := by
  have hblanks := taken_takeWhile (fun _ => isNumberByte_blank) nptr
  unfold strtolLength
  dsimp only
  generalize (nptr.takeWhile isBlankByte).length = blanks at *
  have hsign := taken_sign (nptr.drop blanks)
  generalize (if Zend.isSign ((nptr.drop blanks).headD 0) = true then 1 else 0) = sign at *
  have hradix := taken_radix base ((nptr.drop blanks).drop sign)
  generalize (if base = 16 ∧ ((nptr.drop blanks).drop sign).headD 0 = ch '0' ∧
      (((nptr.drop blanks).drop sign).tail.headD 0 = ch 'x' ∨
        ((nptr.drop blanks).drop sign).tail.headD 0 = ch 'X') ∧
      isDigitIn 16 ((((nptr.drop blanks).drop sign).drop 2).headD 0) = true then 2 else 0) = radix at *
  split
  · exact taken_zero nptr
  · have hdigits := taken_takeWhile (fun _ => isNumberByte_digit base)
      (((nptr.drop blanks).drop sign).drop radix)
    rw [drop_drop, drop_drop, ← Nat.add_assoc] at hdigits
    rw [drop_drop] at hradix
    rw [drop_drop, drop_drop, ← Nat.add_assoc]
    exact taken_add (taken_add (taken_add hblanks hsign) hradix) hdigits

theorem isDigitIn_sixteen_ne (h : isDigitIn 16 c = true) :
    isBlankByte c = false ∧ Zend.isSign c = false ∧ c ≠ ch 'x' ∧ c ≠ ch 'X' := by
  have hne : ∀ x, isDigitIn 16 x = false → c ≠ x := by
    intro x hx heq
    rw [heq, hx] at h
    exact nomatch h
  refine ⟨?_, ?_, hne _ (by decide), hne _ (by decide)⟩
  · simp only [isBlankByte, Bool.or_eq_false_iff, decide_eq_false_iff_not]
    exact ⟨⟨⟨⟨⟨hne _ (by decide), hne _ (by decide)⟩, hne _ (by decide)⟩, hne _ (by decide)⟩,
      hne _ (by decide)⟩, hne _ (by decide)⟩
  · simp only [Zend.isSign, Bool.or_eq_false_iff, decide_eq_false_iff_not]
    exact ⟨hne _ (by decide), hne _ (by decide)⟩

theorem isDigitIn_sixteen {base : Nat} (h : isDigitIn base c = true) :
    isDigitIn 16 c = true := by
  unfold isDigitIn at *
  simp only [Bool.or_eq_true, Bool.and_eq_true, decide_eq_true_eq] at *
  exact h.imp_right fun hx => ⟨trivial, hx.2⟩

section

variable {base : Nat} {ds rest : List UInt8}

variable (rest) in
theorem takeWhile_digits (hdigits : ∀ c ∈ ds, isDigitIn base c = true) :
    (ds ++ ch ';' :: rest).takeWhile (isDigitIn base) = ds := by
  have hsemicolon : isDigitIn base (ch ';') = false := by
    unfold isDigitIn
    rw [show isXdigit (ch ';') = false by decide, Bool.and_false]
    decide
  rw [takeWhile_append_of_pos hdigits, takeWhile_cons, hsemicolon]
  exact List.append_nil ds

variable (rest) in
theorem no_prefix (hne : ds ≠ []) (hdigits : ∀ c ∈ ds, isDigitIn base c = true) :
    isBlankByte ((ds ++ ch ';' :: rest).headD 0) = false ∧
      Zend.isSign ((ds ++ ch ';' :: rest).headD 0) = false ∧
      ¬(base = 16 ∧ (ds ++ ch ';' :: rest).headD 0 = ch '0' ∧
        ((ds ++ ch ';' :: rest).tail.headD 0 = ch 'x' ∨ (ds ++ ch ';' :: rest).tail.headD 0 = ch 'X') ∧
          isDigitIn 16 (((ds ++ ch ';' :: rest).drop 2).headD 0) = true) := by
  cases ds with
  | nil => exact absurd rfl hne
  | cons c ds =>
    have ⟨hblank, hsign, _⟩ :=
      isDigitIn_sixteen_ne (isDigitIn_sixteen (hdigits c mem_cons_self))
    refine ⟨hblank, hsign, fun hradix => absurd hradix.2.2.1 ?_⟩
    cases ds with
    | nil =>
      show ¬(ch ';' = ch 'x' ∨ ch ';' = ch 'X')
      decide
    | cons d ds =>
      have ⟨_, _, hlow, hup⟩ := isDigitIn_sixteen_ne
        (isDigitIn_sixteen (hdigits d (mem_cons_of_mem _ mem_cons_self)))
      exact fun hx => hx.elim hlow hup

theorem strtolLength_digits (hne : ds ≠ []) (hdigits : ∀ c ∈ ds, isDigitIn base c = true) :
    strtolLength base (ds ++ ch ';' :: rest) = ds.length := by
  have ⟨hblank, hsign, hradix⟩ := no_prefix rest hne hdigits
  have htake := takeWhile_digits rest hdigits
  generalize ds ++ ch ';' :: rest = s at *
  have hblanks : s.takeWhile isBlankByte = [] := by
    cases s with
    | nil => rfl
    | cons c s => rw [takeWhile_cons, show isBlankByte c = false from hblank]; rfl
  unfold strtolLength
  dsimp only
  rw [hblanks, length_nil, drop_zero, hsign, if_neg Bool.false_ne_true, drop_zero,
    if_neg hradix, drop_zero, htake, if_neg hne]
  omega

theorem strtol_digits (hne : ds ≠ []) (hdigits : ∀ c ∈ ds, isDigitIn base c = true) :
    strtol base ((ds ++ ch ';' :: rest).dropWhile isBlankByte) =
      min (2 ^ 63 - 1) (numberIn base ds : Int) := by
  have ⟨hblank, hsign, hradix⟩ := no_prefix rest hne hdigits
  have htake := takeWhile_digits rest hdigits
  generalize ds ++ ch ';' :: rest = s at *
  have hblanks : s.dropWhile isBlankByte = s := by
    cases s with
    | nil => rfl
    | cons c s => rw [dropWhile_cons, show isBlankByte c = false from hblank]; rfl
  have hminus : s.headD 0 ≠ ch '-' := by
    intro h
    rw [h] at hsign
    exact absurd hsign (by decide)
  rw [hblanks]
  unfold strtol
  dsimp only
  rw [hsign, if_neg Bool.false_ne_true, if_neg hradix, htake, if_neg hminus]

end

/-- What `strtol` takes. -/
def numberTaken (s : List UInt8) : List UInt8 :=
  (numberText s).take (strtolLength (numberBase s) (numberText s))

def Plain (base : Nat) (ds : List UInt8) : Prop :=
  ds ≠ [] ∧ (∀ c ∈ ds, isDigitIn base c = true) ∧ numberIn base ds < 2 ^ 31

section

variable {charset : EntityCharset} {quoteStyle : BitVec 32} {t : List UInt8} {n : Nat}

theorem split_at {k : Nat} {s : List UInt8} (h : s[k]? = some c) :
    s = s.take k ++ c :: s.drop (k + 1) ∧ (s.take k).length = k := by
  have ⟨hlt, hget⟩ := List.getElem?_eq_some_iff.mp h
  constructor
  · rw [← hget, getElem_cons_drop, take_append_drop]
  · rw [length_take]
    omega

theorem nextOffset_getElem? : t[nextOffset t]? =
    (numberText t)[strtolLength (numberBase t) (numberText t)]? := by
  unfold nextOffset numberText
  rw [List.getElem?_drop]

theorem allowed_lt (h : allowed charset quoteStyle n = true) : n < 2 ^ 31 := by
  unfold allowed at h
  have hmatch := (Bool.and_eq_true_iff.mp h).2
  cases charset <;> simp at hmatch <;> omega

theorem numberText_eq (h : t[nextOffset t]? = some (ch ';')) :
    ∃ rest, numberText t = numberTaken t ++ ch ';' :: rest ∧
      (numberTaken t).length = strtolLength (numberBase t) (numberText t) := by
  rw [nextOffset_getElem?] at h
  have ⟨heq, hlen⟩ := split_at h
  exact ⟨_, heq, hlen⟩

theorem code_plain (h : t[nextOffset t]? = some (ch ';'))
    (hplain : Plain (numberBase t) (numberTaken t)) :
    code t = numberIn (numberBase t) (numberTaken t) := by
  have ⟨rest, htext, _⟩ := numberText_eq h
  have ⟨hne, hdigits, hlt⟩ := hplain
  unfold code
  rw [htext, strtol_digits hne hdigits, BitVec.toInt_ofInt]
  generalize numberIn (numberBase t) (numberTaken t) = n at *
  have hmin : min (2 ^ 63 - 1) (n : Int) = n := by omega
  rw [hmin, Int.bmod_def]
  omega

theorem referenceAt_number {length : Nat} (ht : t.take 2 = [ch '&', ch '#']) :
    referenceAt charset quoteStyle t = some (length, n) ↔
      t[nextOffset t]? = some (ch ';') ∧ Plain (numberBase t) (numberTaken t) ∧
        numberIn (numberBase t) (numberTaken t) = n ∧ allowed charset quoteStyle n = true ∧
        length = nextOffset t + 1 := by
  have hamp : t.take 5 ≠ [ch '&', ch 'a', ch 'm', ch 'p', ch ';'] := by
    intro h
    have htwo : (t.take 5).take 2 = [ch '&', ch 'a'] := by
      rw [h]
      rfl
    rw [take_take, show min 2 5 = 2 by rfl, ht] at htwo
    exact absurd htwo (by decide)
  unfold referenceAt
  rw [if_neg hamp]
  constructor
  · intro h
    split at h
    · next hnumber =>
      have ⟨_, hne, hsemicolon, hallowed⟩ := hnumber
      cases h
      have hdigits : ∀ c ∈ numberDigits t, isDigitIn (numberBase t) c = true :=
        fun c hc => mem_takeWhile_imp hc
      have ⟨heq, hlen⟩ := split_at hsemicolon
      have htake : (numberText t).take (numberDigits t).length = numberDigits t :=
        (prefix_iff_eq_take.mp (List.takeWhile_prefix _)).symm
      rw [htake] at heq
      have hlength : strtolLength (numberBase t) (numberText t) = (numberDigits t).length := by
        rw [heq]
        exact strtolLength_digits hne hdigits
      have htaken : numberTaken t = numberDigits t := by
        unfold numberTaken
        rw [hlength, htake]
      rw [nextOffset_getElem?, hlength, htaken]
      unfold nextOffset
      rw [hlength]
      exact ⟨hsemicolon, ⟨hne, hdigits, allowed_lt hallowed⟩, rfl, hallowed, rfl⟩
    · exact nomatch h
  · intro ⟨hnext, hplain, hnumber, hallowed, hlength⟩
    have ⟨rest, htext, hlen⟩ := numberText_eq hnext
    have ⟨hne, hdigits, _⟩ := hplain
    have htaken : numberDigits t = numberTaken t := by
      unfold numberDigits
      rw [htext, takeWhile_digits _ hdigits]
    rw [nextOffset_getElem?] at hnext
    rw [htaken, hlen, hnumber, if_pos ⟨ht, hne, hnext, hallowed⟩, hlength]
    rfl

theorem replacement_encode {bytes nul : List UInt8}
    (h : replacement charset n = some (bytes, nul)) :
    bytes = encode charset n ∧ nul.length ≤ 1 := by
  have hbyte : ∀ (invalid : Prop) [Decidable invalid],
      (if invalid then none else some ([UInt8.ofBitVec (BitVec.ofInt 8 n)], [])) =
        some (bytes, nul) → bytes = [UInt8.ofNat n] ∧ nul.length ≤ 1 := by
    intro invalid _ heq
    split at heq
    · exact nomatch heq
    · cases heq
      exact ⟨rfl, Nat.zero_le 1⟩
  unfold replacement at h
  cases charset
  case utf8 =>
    cases h
    exact ⟨rfl, le_refl 1⟩
  case koi8r => exact nomatch h
  case macroman => exact nomatch h
  all_goals exact hbyte _ h

theorem allowed_iff (hn : n < 2 ^ 31) : allowed charset quoteStyle n = true ↔
    isQuoted quoteStyle n = false ∧ (replacement charset n).isSome = true := by
  have hbyte : ∀ (valid invalid : Prop) [Decidable valid] [Decidable invalid] (x : List UInt8 × List UInt8),
      (valid ↔ ¬invalid) →
        (decide valid = true ↔ (if invalid then none else some x).isSome = true) := by
    intro valid invalid _ _ x hiff
    rw [decide_eq_true_eq, hiff]
    split
    · next hinvalid => exact iff_of_false (not_not_intro hinvalid) Bool.false_ne_true
    · next hinvalid => exact iff_of_true hinvalid rfl
  unfold allowed replacement
  rw [Bool.and_eq_true, Bool.not_eq_true']
  apply and_congr_right
  intro _
  cases charset
  case utf8 => exact iff_of_true (decide_eq_true hn) rfl
  case koi8r => exact iff_of_false Bool.false_ne_true Bool.false_ne_true
  case macroman => exact iff_of_false Bool.false_ne_true Bool.false_ne_true
  all_goals
    simp only [← Bool.decide_or, ← Bool.decide_and]
    exact hbyte _ _ _ (by omega)

theorem length_phpUtf32Utf8 (k : BitVec 32) :
    (phpUtf32Utf8 k).length ≤ 6 ∧ (k.toNat < 0x10000 → (phpUtf32Utf8 k).length ≤ 3) ∧
      (k.toNat < 0x800 → (phpUtf32Utf8 k).length ≤ 2) ∧
      (k.toNat < 0x80 → (phpUtf32Utf8 k).length ≤ 1) := by
  unfold phpUtf32Utf8
  dsimp only
  split_ifs <;> simp only [length_cons, length_nil] <;> omega

variable (charset) in
theorem length_encode {base : Nat} {ds : List UInt8} (hplain : Plain base ds)
    (hbase : base = 10 ∨ base = 16) :
    (encode charset (numberIn base ds)).length + 1 ≤ ds.length + (if base = 16 then 4 else 3) := by
  have ⟨hne, hdigits, hlt⟩ := hplain
  have hpos : 0 < ds.length := length_pos_iff.mpr hne
  have hbound := numberIn_lt hbase hdigits
  have hutf : (phpUtf32Utf8 (BitVec.ofNat 32 (numberIn base ds))).length + 1 ≤
      ds.length + (if base = 16 then 4 else 3) := by
    have hspec := length_phpUtf32Utf8 (BitVec.ofNat 32 (numberIn base ds))
    rw [BitVec.toNat_ofNat, Nat.mod_eq_of_lt (by omega)] at hspec
    -- up to three digits count, more of them make room for all six bytes
    by_cases hlong : 4 ≤ ds.length
    · split <;> omega
    · have hcases : ds.length = 1 ∨ ds.length = 2 ∨ ds.length = 3 := by omega
      rcases hbase with hten | hsixteen
      · rw [hten, if_neg (by decide)]
        rw [hten] at hbound hspec
        rcases hcases with hlen | hlen | hlen <;> rw [hlen] at hbound ⊢ <;> omega
      · rw [hsixteen, if_pos rfl]
        rw [hsixteen] at hbound hspec
        rcases hcases with hlen | hlen | hlen <;> rw [hlen] at hbound ⊢ <;> omega
  have hbyte : ∀ b : UInt8, [b].length + 1 ≤ ds.length + (if base = 16 then 4 else 3) := by
    intro b
    rw [length_singleton]
    split <;> omega
  unfold encode
  cases charset
  case utf8 => exact hutf
  all_goals exact hbyte _

end

section

variable {charset : EntityCharset} {quoteStyle : BitVec 32} {s : List UInt8}

theorem getD_nul (s : List UInt8) (k : Nat) : (s ++ [0]).getD k 0 = s.getD k 0 := by
  rw [List.getD_eq_getElem?_getD, List.getD_eq_getElem?_getD]
  rcases Nat.lt_trichotomy k s.length with hlt | heq | hgt
  · rw [List.getElem?_append_left hlt]
  · rw [heq, List.getElem?_concat_length, List.getElem?_eq_none (le_refl _)]
    rfl
  · rw [List.getElem?_eq_none (by rw [length_append, length_singleton]; omega),
      List.getElem?_eq_none hgt.le]

theorem take_nul {l : List UInt8} (hl : 0 ∉ l) :
    (s ++ [0]).take l.length = l ↔ s.take l.length = l := by
  by_cases hlen : l.length ≤ s.length
  · rw [take_append_of_le_length hlen]
  · apply iff_of_false
    · intro h
      rw [take_of_length_le (by rw [length_append, length_singleton]; omega)] at h
      rw [← h] at hl
      exact hl (mem_append_right _ mem_cons_self)
    · intro h
      have hlength := congrArg List.length h
      rw [length_take] at hlength
      omega

theorem getElem?_nul {k : Nat} (hc : c ≠ 0) :
    (s ++ [0])[k]? = some c ↔ s[k]? = some c := by
  rcases Nat.lt_trichotomy k s.length with hlt | heq | hgt
  · rw [List.getElem?_append_left hlt]
  · rw [heq, List.getElem?_concat_length, List.getElem?_eq_none (le_refl _)]
    apply iff_of_false
    · intro h
      exact hc (Option.some.inj h).symm
    · exact nofun
  · rw [List.getElem?_eq_none (by rw [length_append, length_singleton]; omega),
      List.getElem?_eq_none hgt.le]

theorem numberBase_nul (s : List UInt8) : numberBase (s ++ [0]) = numberBase s := by
  unfold numberBase
  rw [getD_nul]

theorem numberText_nul (h : s.take 2 = [ch '&', ch '#']) :
    numberText (s ++ [0]) = numberText s ++ [0] := by
  have hstart : numberStart (s ++ [0]) = numberStart s := by
    unfold numberStart
    rw [getD_nul]
  have hle : numberStart s ≤ s.length := by
    have hlen := congrArg List.length h
    rw [length_take, length_cons, length_singleton] at hlen
    unfold numberStart
    split
    · next hx =>
      by_contra hshort
      rw [List.getD_eq_getElem?_getD, List.getElem?_eq_none (by omega)] at hx
      exact absurd hx (by decide)
    · omega
  unfold numberText
  rw [hstart, drop_append_of_le_length hle]

theorem referenceAt_nul : referenceAt charset quoteStyle (s ++ [0]) = referenceAt charset quoteStyle s := by
  have hamp := take_nul (s := s) (l := [ch '&', ch 'a', ch 'm', ch 'p', ch ';']) (by decide)
  have hhash := take_nul (s := s) (l := [ch '&', ch '#']) (by decide)
  rw [show [ch '&', ch 'a', ch 'm', ch 'p', ch ';'].length = 5 by rfl] at hamp
  rw [show [ch '&', ch '#'].length = 2 by rfl] at hhash
  unfold referenceAt
  rw [if_congr hamp rfl rfl]
  by_cases htwo : s.take 2 = [ch '&', ch '#']
  · have hdigits : numberDigits (s ++ [0]) = numberDigits s := by
      have hzero : isDigitIn (numberBase s) 0 = false := by
        unfold isDigitIn
        rw [show isXdigit 0 = false by decide, Bool.and_false]
        decide
      unfold numberDigits
      rw [numberBase_nul, numberText_nul htwo, takeWhile_append, takeWhile_cons, hzero]
      split
      · next hall =>
        rw [if_neg Bool.false_ne_true, List.append_nil]
        exact ((List.takeWhile_prefix _).eq_of_length hall).symm
      · rfl
    have hstart : numberStart (s ++ [0]) = numberStart s := by
      unfold numberStart
      rw [getD_nul]
    rw [hdigits, numberBase_nul, numberText_nul htwo, hstart]
    apply if_congr Iff.rfl rfl
    apply if_congr _ rfl rfl
    rw [hhash, getElem?_nul (by decide)]
  · apply if_congr Iff.rfl rfl
    rw [if_neg, if_neg]
    · exact fun h => htwo h.1
    · exact fun h => htwo (hhash.mp h.1)

end

end Php53.Standard.Html
