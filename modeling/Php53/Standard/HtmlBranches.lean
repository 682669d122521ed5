import Php53.Standard.HtmlReferences

/-!
# HtmlBranches — what the last pass does at a byte

A reference is decoded, and so is a number that `strtol` takes though it is not written with digits.
What is neither is copied, two bytes at a time behind an ampersand.
-/

open Reasoning

namespace Php53.Standard.Html

open Zend

variable {charset : EntityCharset} {quoteStyle : BitVec 32}

/-- A number that `strtol` takes and the charset takes, but that is not written with digits only or has more
than 31 bits. -/
def Misread (charset : EntityCharset) (quoteStyle : BitVec 32) (s : List UInt8) : Prop :=
  let t := s ++ [0]
  s.take 2 = [ch '&', ch '#'] ∧ t[nextOffset t]? = some (ch ';') ∧
    isQuoted quoteStyle (code t) = false ∧ (replacement charset (code t)).isSome = true ∧
    ¬Plain (numberBase t) (numberTaken t)

def Whole (s : List UInt8) (length : Nat) : Prop :=
  2 < length ∧ length ≤ s.length ∧ ch '&' ∉ (s.take length).tail

section

variable {s : List UInt8}

theorem take_two (h : s.take 2 = [ch '&', ch '#']) : ∃ u, s = ch '&' :: ch '#' :: u := by
  refine ⟨s.drop 2, ?_⟩
  have heq := List.take_append_drop 2 s
  rw [h] at heq
  exact heq.symm

theorem referenceAt_head (h : s.getD 0 0 ≠ ch '&') : referenceAt charset quoteStyle s = none := by
  have hhead : ∀ k l, s.take (k + 1) ≠ ch '&' :: l := by
    intro k l heq
    cases s with
    | nil => exact nomatch heq
    | cons c s => exact h (List.cons.inj heq).1
  unfold referenceAt
  rw [if_neg (hhead _ _), if_neg fun hn => hhead _ _ hn.1]

theorem whole_number (h : s.take 2 = [ch '&', ch '#'])
    (hnext : (s ++ [0])[nextOffset (s ++ [0])]? = some (ch ';')) :
    Whole s (nextOffset (s ++ [0]) + 1) := by
  have ⟨hlt, _⟩ := List.getElem?_eq_some_iff.mp ((getElem?_nul (by decide)).mp hnext)
  have ⟨u, hu⟩ := take_two h
  have htaken := (taken_strtolLength (numberBase (s ++ [0])) (numberText (s ++ [0]))).2
  have hstart : numberStart (s ++ [0]) = 2 ∨ numberStart (s ++ [0]) = 3 ∧
      (s.getD 2 0 = ch 'x' ∨ s.getD 2 0 = ch 'X') := by
    unfold numberStart
    rw [getD_nul]
    split
    · next hx => exact .inr ⟨rfl, hx⟩
    · exact .inl rfl
  unfold Whole
  refine ⟨?_, hlt, ?_⟩
  · unfold nextOffset
    omega
  · intro hmem
    have ⟨i, hi⟩ := List.mem_iff_getElem?.mp hmem
    rw [List.getElem?_tail, List.getElem?_take] at hi
    split at hi
    · next hle =>
      -- the byte is the hash, the letter, one of the number or the semicolon
      by_cases hfirst : i = 0
      · rw [hfirst, hu] at hi
        exact absurd (Option.some.inj hi) (by decide)
      · by_cases hletter : i + 1 < numberStart (s ++ [0])
        · have ⟨hthree, hx⟩ := hstart.resolve_left (by omega)
          have htwo : i + 1 = 2 := by omega
          rw [htwo] at hi
          rw [List.getD_eq_getElem?_getD, hi] at hx
          exact absurd hx (by decide)
        · have hnul := (getElem?_nul (by decide)).mpr hi
          by_cases hlast : i + 1 = nextOffset (s ++ [0])
          · rw [hlast, hnext] at hnul
            exact absurd (Option.some.inj hnul) (by decide)
          · have hamp : ch '&' ∈ (numberText (s ++ [0])).take
                (strtolLength (numberBase (s ++ [0])) (numberText (s ++ [0]))) := by
              apply List.mem_iff_getElem?.mpr
              refine ⟨i + 1 - numberStart (s ++ [0]), ?_⟩
              unfold nextOffset at hle hlast
              rw [List.getElem?_take_of_lt (by omega)]
              unfold numberText
              rw [List.getElem?_drop, ← hnul]
              congr 1
              omega
            exact (isNumberByte_ne (htaken _ hamp)).1 rfl
    · exact nomatch hi

theorem referenceAt_whole {length n : Nat} (h : referenceAt charset quoteStyle s = some (length, n)) :
    Whole s length ∧ s.getD 0 0 = ch '&' := by
  have hhead : s.getD 0 0 = ch '&' := by
    by_contra hne
    rw [referenceAt_head hne] at h
    exact nomatch h
  refine ⟨?_, hhead⟩
  by_cases hamp : s.take 5 = [ch '&', ch 'a', ch 'm', ch 'p', ch ';']
  · unfold referenceAt at h
    rw [if_pos hamp] at h
    cases h
    have hlen := congrArg List.length hamp
    rw [List.length_take] at hlen
    unfold Whole
    rw [hamp]
    refine ⟨by decide, ?_, by decide⟩
    change min 5 s.length = 5 at hlen
    omega
  · have htwo : s.take 2 = [ch '&', ch '#'] := by
      unfold referenceAt at h
      rw [if_neg hamp] at h
      split at h
      · next hnumber => exact hnumber.1
      · exact nomatch h
    have hnul : (s ++ [0]).take 2 = [ch '&', ch '#'] := (take_nul (l := [ch '&', ch '#']) (by decide)).mpr htwo
    rw [← referenceAt_nul, referenceAt_number hnul] at h
    have ⟨hnext, _, _, _, hlength⟩ := h
    rw [hlength]
    exact whole_number htwo hnext

theorem misread_whole (h : Misread charset quoteStyle s) :
    Whole s (nextOffset (s ++ [0]) + 1) ∧ s.getD 0 0 = ch '&' := by
  have ⟨u, hu⟩ := take_two h.1
  refine ⟨whole_number h.1 h.2.1, ?_⟩
  rw [hu]
  rfl

variable (charset quoteStyle) in
theorem actionAt_copy (h : s.getD 0 0 ≠ ch '&' ∨ s.length ≤ 2) :
    actionAt charset quoteStyle s.length (s ++ [0]) = some (.copy 1) ∧
      referenceAt charset quoteStyle s = none ∧ ¬Misread charset quoteStyle s := by
  have hwhole : ∀ length, Whole s length → s.getD 0 0 = ch '&' → False := by
    intro length hlen hhead
    have hshort := h.resolve_left (not_not_intro hhead)
    unfold Whole at hlen
    omega
  refine ⟨?_, ?_, fun hmisread => hwhole _ (misread_whole hmisread).1 (misread_whole hmisread).2⟩
  · unfold actionAt
    rw [getD_nul]
    split
    · next hhead => rw [if_neg (by have hshort := h.resolve_left (not_not_intro hhead); omega)]
    · rfl
  · cases href : referenceAt charset quoteStyle s with
    | none => rfl
    | some x => exact (hwhole _ (referenceAt_whole href).1 (referenceAt_whole href).2).elim

variable (charset quoteStyle) in
theorem actionAt_amp (hhead : s.getD 0 0 = ch '&') (hlen : 2 < s.length) (hhash : s.getD 1 0 ≠ ch '#') :
    ¬Misread charset quoteStyle s ∧
      ((actionAt charset quoteStyle s.length (s ++ [0]) = some (.write 5 [ch '&'] []) ∧
        referenceAt charset quoteStyle s = some (5, 38)) ∨
      (actionAt charset quoteStyle s.length (s ++ [0]) = some (.copy 2) ∧
        referenceAt charset quoteStyle s = none)) := by
  have htwo : s.take 2 ≠ [ch '&', ch '#'] := by
    intro heq
    have ⟨u, hu⟩ := take_two heq
    exact hhash (by rw [hu]; rfl)
  have hfive : s.take 5 = [ch '&', ch 'a', ch 'm', ch 'p', ch ';'] ↔
      4 < s.length ∧ ((s ++ [0]).drop 1).take 4 = [ch 'a', ch 'm', ch 'p', ch ';'] := by
    cases s with
    | nil => exact absurd hlen (by decide)
    | cons c u =>
      have hc : c = ch '&' := hhead
      have hu := take_nul (s := u) (l := [ch 'a', ch 'm', ch 'p', ch ';']) (by decide)
      constructor
      · intro h
        have htake : u.take 4 = [ch 'a', ch 'm', ch 'p', ch ';'] := (List.cons.inj h).2
        have hlength := congrArg List.length htake
        rw [List.length_take] at hlength
        change min 4 u.length = 4 at hlength
        rw [List.length_cons]
        exact ⟨by omega, hu.mpr htake⟩
      · intro h
        have htake : u.take 4 = [ch 'a', ch 'm', ch 'p', ch ';'] := hu.mp h.2
        rw [List.take_succ_cons, htake, hc]
  refine ⟨fun hmisread => htwo hmisread.1, ?_⟩
  unfold actionAt referenceAt
  rw [getD_nul, if_pos hhead, if_pos hlen, getD_nul, if_neg hhash]
  by_cases hamp : s.take 5 = [ch '&', ch 'a', ch 'm', ch 'p', ch ';']
  · rw [if_pos (hfive.mp hamp), if_pos hamp]
    exact .inl ⟨rfl, rfl⟩
  · rw [if_neg fun h => hamp (hfive.mpr h), if_neg hamp, if_neg fun h => htwo h.1]
    exact .inr ⟨rfl, rfl⟩

theorem numberBase_cases (t : List UInt8) : numberBase t = 10 ∨ numberBase t = 16 := by
  unfold numberBase
  split
  · exact .inr rfl
  · exact .inl rfl

theorem numberStart_eq (t : List UInt8) :
    numberStart t = if numberBase t = 16 then 3 else 2 := by
  unfold numberStart numberBase
  split <;> rfl

theorem exists_next (htwo : s.take 2 = [ch '&', ch '#']) :
    ∃ next, (s ++ [0])[nextOffset (s ++ [0])]? = some next := by
  have htaken := taken_strtolLength (numberBase (s ++ [0])) (numberText (s ++ [0]))
  rw [nextOffset_getElem?]
  generalize strtolLength (numberBase (s ++ [0])) (numberText (s ++ [0])) = k at *
  cases hnext : (numberText (s ++ [0]))[k]? with
  | some next => exact ⟨next, rfl⟩
  | none =>
    have hzero : (0 : UInt8) ∈ (numberText (s ++ [0])).take k := by
      rw [List.take_of_length_le (List.getElem?_eq_none_iff.mp hnext), numberText_nul htwo]
      exact List.mem_append_right _ List.mem_cons_self
    exact absurd rfl (isNumberByte_ne (htaken.2 0 hzero)).2

/-- A reference is written, or what is none is copied, or a number is misread. -/
def Decided (charset : EntityCharset) (quoteStyle : BitVec 32) (s : List UInt8) : Prop :=
  (∃ length n nul, actionAt charset quoteStyle s.length (s ++ [0]) =
      some (.write length (encode charset n) nul) ∧
    referenceAt charset quoteStyle s = some (length, n) ∧
    (encode charset n ++ nul).length ≤ length ∧ ¬Misread charset quoteStyle s) ∨
  (∃ length, actionAt charset quoteStyle s.length (s ++ [0]) = some (.copy length) ∧
    referenceAt charset quoteStyle s = none ∧ (Whole s length ∨ length = 2) ∧
    ¬Misread charset quoteStyle s) ∨
  (∃ length bytes nul, actionAt charset quoteStyle s.length (s ++ [0]) =
      some (.write length bytes nul) ∧
    referenceAt charset quoteStyle s = none ∧ Misread charset quoteStyle s)

theorem actionAt_number (htwo : s.take 2 = [ch '&', ch '#']) (hlen : 2 < s.length) :
    Decided charset quoteStyle s := by
  unfold Decided
  obtain ⟨u, hu⟩ := take_two htwo
  have hnul : (s ++ [0]).take 2 = [ch '&', ch '#'] := (take_nul (l := [ch '&', ch '#']) (by decide)).mpr htwo
  have hiff : ∀ length n, referenceAt charset quoteStyle (s ++ [0]) = some (length, n) ↔ _ :=
    fun _ _ => referenceAt_number hnul
  rw [referenceAt_nul] at hiff
  have hact : actionAt charset quoteStyle s.length (s ++ [0]) =
      (s ++ [0])[nextOffset (s ++ [0])]?.map fun next =>
        if next = ch ';' ∧ isQuoted quoteStyle (code (s ++ [0])) = false then
          (replacement charset (code (s ++ [0]))).elim (.copy (nextOffset (s ++ [0]) + 1))
            fun x => .write (nextOffset (s ++ [0]) + 1) x.1 x.2
        else .copy 2 := by
    have hamp : s.getD 0 0 = ch '&' := by rw [hu]; rfl
    have hnumber : s.getD 1 0 = ch '#' := by rw [hu]; rfl
    unfold actionAt
    rw [getD_nul, getD_nul, if_pos hamp, if_pos hlen]
    refine (if_pos hnumber).trans ?_
    cases replacement charset (code (s ++ [0])) with
    | none => rfl
    | some x => rfl
  have hnone : ∀ P : Prop, (∀ length n, referenceAt charset quoteStyle s = some (length, n) → P) →
      ¬P → referenceAt charset quoteStyle s = none := by
    intro P himp hnot
    cases href : referenceAt charset quoteStyle s with
    | none => rfl
    | some x => exact absurd (himp x.1 x.2 href) hnot
  obtain ⟨next, hnext⟩ : ∃ next, (s ++ [0])[nextOffset (s ++ [0])]? = some next := exists_next htwo
  rw [hact, hnext, Option.map_some]
  by_cases hsemicolon : next = ch ';' ∧ isQuoted quoteStyle (code (s ++ [0])) = false
  · rw [if_pos hsemicolon]
    rw [hsemicolon.1] at hnext
    cases hrep : replacement charset (code (s ++ [0])) with
    | none =>
      right
      left
      refine ⟨_, rfl, ?_, .inl (whole_number htwo hnext), ?_⟩
      · apply hnone (replacement charset (code (s ++ [0])) ≠ none)
        · intro length n href
          obtain ⟨_, hplain, hn, hallowed, _⟩ := (hiff length n).mp href
          rw [code_plain hnext hplain, hn]
          exact Option.isSome_iff_ne_none.mp ((allowed_iff (hn ▸ hplain.2.2)).mp hallowed).2
        · exact not_not_intro hrep
      · intro hmisread
        have hsome := hmisread.2.2.2.1
        rw [hrep] at hsome
        cases hsome
    | some x =>
      obtain ⟨bytes, nul⟩ := x
      by_cases hplain : Plain (numberBase (s ++ [0])) (numberTaken (s ++ [0]))
      · left
        have hcode := code_plain hnext hplain
        rw [hcode] at hrep
        obtain ⟨hbytes, hone⟩ := replacement_encode hrep
        rw [hcode] at hsemicolon
        have hallowed := (allowed_iff hplain.2.2).mpr
          ⟨hsemicolon.2, Option.isSome_iff_exists.mpr ⟨_, hrep⟩⟩
        refine ⟨_, _, nul, by rw [← hbytes]; rfl, ?_, ?_, fun hmisread => hmisread.2.2.2.2 hplain⟩
        · exact (hiff _ _).mpr ⟨hnext, hplain, rfl, hallowed, rfl⟩
        · have hlength := length_encode charset hplain (numberBase_cases _)
          obtain ⟨_, _, htaken⟩ := numberText_eq hnext
          have hstart := numberStart_eq (s ++ [0])
          rw [List.length_append]
          unfold nextOffset
          rw [hstart]
          split at hlength
          · next hbase =>
            rw [if_pos hbase]
            omega
          · next hbase =>
            rw [if_neg hbase]
            omega
      · right
        right
        refine ⟨_, bytes, nul, rfl, ?_, ?_⟩
        · exact hnone _ (fun length n href => ((hiff length n).mp href).2.1) hplain
        · exact ⟨htwo, hnext, hsemicolon.2, Option.isSome_iff_exists.mpr ⟨_, hrep⟩, hplain⟩
  · rw [if_neg hsemicolon]
    right
    left
    refine ⟨2, rfl, ?_, .inr rfl, ?_⟩
    · apply hnone (next = ch ';' ∧ isQuoted quoteStyle (code (s ++ [0])) = false) _ hsemicolon
      intro length n href
      obtain ⟨hsome, hplain, hn, hallowed, _⟩ := (hiff length n).mp href
      rw [code_plain hsome hplain, hn]
      rw [hnext] at hsome
      exact ⟨Option.some.inj hsome, ((allowed_iff (hn ▸ hplain.2.2)).mp hallowed).1⟩
    · intro hmisread
      have hsome := hmisread.2.1
      rw [hnext] at hsome
      exact hsemicolon ⟨Option.some.inj hsome, hmisread.2.2.1⟩

variable (charset quoteStyle) in
theorem actionAt_cases (hhead : s.getD 0 0 = ch '&') (hlen : 2 < s.length) :
    Decided charset quoteStyle s := by
  by_cases hhash : s.getD 1 0 = ch '#'
  · apply actionAt_number _ hlen
    match s with
    | c :: d :: u =>
      have hc : c = ch '&' := hhead
      have hd : d = ch '#' := hhash
      rw [hc, hd]
      rfl
  · have ⟨hnot, hcases⟩ := actionAt_amp charset quoteStyle hhead hlen hhash
    rcases hcases with ⟨hact, href⟩ | ⟨hact, href⟩
    · have hencode : encode charset 38 = [ch '&'] := by cases charset <;> rfl
      refine .inl ⟨5, 38, [], ?_, href, by rw [hencode]; decide, hnot⟩
      rw [hact, ← hencode]
    · exact .inr (.inl ⟨2, hact, href, .inr rfl, hnot⟩)

end

end Php53.Standard.Html
