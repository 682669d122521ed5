import Php53.Standard.Unserialize

/-!
# Scanner — the rules on a terminated text

The scanner has no limit checks and needs none: no byte that a rule goes on from is a NUL.  The
same holds of the loops over digits and over the characters of a string.
-/

open Php53.Zend Reasoning

namespace Php53.Standard

variable {n : Nat} {buf : List UInt8}

section

variable (hnul : byteAt buf n = 0)

include hnul

theorem lt_of_byteAt {off : Nat} (hle : off ≤ n) {c : Char} (hc : ch c ≠ 0)
    (h : byteAt buf off = ch c) : off < n := by
  rcases Nat.lt_or_eq_of_le hle with hlt | rfl
  · exact hlt
  · exact absurd (h.symm.trans hnul) hc

theorem stays_lit {c : Char} (hc : ch c ≠ 0) :
    (lit buf c).Stays n :=
  Scanner.stays_byte (by rw [hnul]; exact beq_false_of_ne (Ne.symm hc))

theorem stays_iv : (iv buf).Stays n :=
  (Scanner.stays_opt (by rw [hnul]; rfl)).seq (Scanner.stays_many1 (by rw [hnul]; rfl))

theorem stays_uiv : (uiv buf).Stays n :=
  (Scanner.stays_opt (by rw [hnul]; rfl)).seq (Scanner.stays_many1 (by rw [hnul]; rfl))

theorem stays_mantissa : (mantissa buf).Stays n := by
  have hdigit : isDigit (byteAt buf n) = false := by rw [hnul]; rfl
  have hpoint := stays_lit hnul (c := '.') (by decide)
  exact Scanner.Stays.branch
    ((Scanner.stays_many hdigit).seq
      ((hpoint.seq (Scanner.stays_many hdigit)).branch Scanner.stays_skip))
    (hpoint.seq (Scanner.stays_many1 hdigit))

theorem stays_double : (double buf).Stays n := by
  have hexp : (exponent buf).Stays n :=
    Scanner.Stays.branch
      ((Scanner.stays_byte (by rw [hnul]; rfl)).seq
        ((Scanner.stays_opt (by rw [hnul]; rfl)).seq (stays_iv hnul)))
      Scanner.stays_skip
  exact (Scanner.stays_opt (by rw [hnul]; rfl)).seq
    ((stays_mantissa hnul).seq (hexp.seq (stays_lit hnul (by decide))))

theorem stays_ruleTail (rule : Rule) : (ruleTail buf rule).Stays n := by
  have hlit : ∀ {c : Char}, ch c ≠ 0 → (lit buf c).Stays n := fun hc => stays_lit hnul hc
  have hnumber : ((lit buf ':').seq ((iv buf).seq (lit buf ';'))).Stays n :=
    (hlit (by decide)).seq ((stays_iv hnul).seq (hlit (by decide)))
  have hquoted : ((lit buf ':').seq ((uiv buf).seq ((lit buf ':').seq (lit buf '"')))).Stays n :=
    (hlit (by decide)).seq ((stays_uiv hnul).seq ((hlit (by decide)).seq (hlit (by decide))))
  have hinf : (inf buf).Stays n :=
    (hlit (by decide)).seq ((hlit (by decide)).seq ((hlit (by decide)).seq (hlit (by decide))))
  have hnan : (nan buf).Stays n :=
    (hlit (by decide)).seq ((hlit (by decide)).seq ((hlit (by decide)).seq (hlit (by decide))))
  cases rule with
  | reference => exact hnumber
  | copy => exact hnumber
  | long => exact hnumber
  | null => exact hlit (by decide)
  | bool =>
    exact (hlit (by decide)).seq
      ((Scanner.stays_byte (by rw [hnul]; rfl)).seq (hlit (by decide)))
  | infNan =>
    exact (hlit (by decide)).seq
      (hnan.branch (((hlit (by decide)).seq hinf).branch hinf))
  | double => exact (hlit (by decide)).seq (stays_double hnul)
  | string => exact hquoted
  | escapedString => exact hquoted
  | object => exact hquoted
  | array =>
    exact (hlit (by decide)).seq ((stays_uiv hnul).seq ((hlit (by decide)).seq (hlit (by decide))))
  | plainObject =>
    exact (hlit (by decide)).seq ((stays_iv hnul).seq ((hlit (by decide)).seq (hlit (by decide))))
  | brace => exact Scanner.stays_skip
  | any => exact Scanner.stays_skip

theorem plainObject_colon {start cursor last : Nat} (hlt : start < n)
    (h : ruleTail buf .plainObject (start + 1) = (some cursor, last)) : start + 2 ≤ n := by
  obtain ⟨colon, hcolon, -⟩ := Scanner.seq_eq_some.mp (congrArg Prod.fst h)
  obtain ⟨hc, -⟩ := Scanner.byte_eq_some.mp hcolon
  exact lt_of_byteAt hnul hlt (c := ':') (by decide) (beq_iff_eq.mp hc)

end

/-- What the scanner leaves, unless no rule matches. -/
structure Scanned (n : Nat) (start cursor : Nat) (rule : Rule) : Prop where
  lt_cursor : start < cursor
  cursor_le : cursor ≤ n
  colon : rule = .plainObject → start + 2 ≤ n

theorem scanRule_stays (hnul : byteAt buf n = 0) {start : Nat} (hlt : start < n)
    (rules : List Rule) :
    (scanRule buf start rules).2.2 ≤ n ∧
      Scanned n start (scanRule buf start rules).2.1 (scanRule buf start rules).1 := by
  induction rules with
  | nil => exact ⟨Nat.le_of_lt hlt, Nat.lt_succ_self _, hlt, nofun⟩
  | cons rule rules ih =>
    have hs := stays_ruleTail hnul rule (start + 1) hlt
    rw [scanRule]
    cases hr : ruleTail buf rule (start + 1) with
    | mk cursor last =>
      rw [hr] at hs
      cases cursor with
      | none => exact ⟨Nat.max_le.mpr ⟨hs.2.1, ih.1⟩, ih.2⟩
      | some cursor =>
        obtain ⟨hge, hle⟩ := hs.2.2 cursor rfl
        refine ⟨Nat.max_le.mpr ⟨Nat.le_of_lt hlt, hs.2.1⟩, hge, hle, ?_⟩
        rintro rfl
        exact plainObject_colon hnul hlt hr

theorem scanRule_mem (buf : List UInt8) (start : Nat) (rules : List Rule) :
    (scanRule buf start rules).1 ∈ rules ∨ (scanRule buf start rules).1 = .any := by
  induction rules with
  | nil => exact Or.inr rfl
  | cons rule rules ih =>
    rw [scanRule]
    cases ruleTail buf rule (start + 1) with
    | mk cursor last =>
      cases cursor with
      | none => exact ih.imp_left (List.mem_cons_of_mem _)
      | some cursor => exact Or.inl (List.mem_cons_self ..)

theorem reference_not_mem {c : UInt8} (h : c ≠ ch 'R') : Rule.reference ∉ candidates c := by
  rw [candidates, if_neg h]
  have hite : ∀ {p : Prop} [Decidable p] {l l' : List Rule}, Rule.reference ∉ l →
      Rule.reference ∉ l' → Rule.reference ∉ if p then l else l' := by
    intro p _ l l' hl hl'
    split
    · exact hl
    · exact hl'
  repeat apply hite (by decide)
  decide

theorem scanRule_nul (start : Nat) : scanRule buf start (candidates 0) = (.any, start + 1, start) :=
  rfl

theorem parseIv2_le (hnul : byteAt buf n = 0) {off : Nat} (hle : off ≤ n) :
    (parseIv2 buf off).2 ≤ n := by
  have hopt := Scanner.stays_opt (p := isSign) (by rw [hnul]; rfl) off hle
  have hstart : (if isSign (byteAt buf off) then off + 1 else off) ≤ n := (hopt.2.2 _ rfl).2
  exact Scanner.runLength_le (by rw [hnul]; rfl) hstart

theorem add_le_of_sizeDiff {cursor len : Nat} (hle : cursor ≤ n) (hlen : ¬ sizeDiff n cursor < len) :
    cursor + len ≤ n := by
  rw [sizeDiff, if_pos hle] at hlen
  omega

theorem le_parseIv2 (buf : List UInt8) (off : Nat) : off ≤ (parseIv2 buf off).2 := by
  unfold parseIv2
  dsimp only
  split <;> omega

theorem le_unserializeStr {stop len off : Nat} {str : List UInt8 × Nat}
    (h : (unserializeStr buf stop len off).1 = some str) : off ≤ str.2 := by
  induction len generalizing off str with
  | zero =>
    obtain rfl := Option.some.inj h
    exact Nat.le_refl _
  | succ len ih =>
    have hmap : ∀ (c : UInt8) (i : Nat),
        (unserializeStr buf stop len i).1.map (fun x => (c :: x.1, x.2)) = some str →
          i ≤ str.2 := by
      intro c i hi
      obtain ⟨x, hx, rfl⟩ := Option.map_eq_some_iff.mp hi
      have hle := ih hx
      exact hle
    rw [unserializeStr] at h
    by_cases hend : off ≥ stop
    · rw [if_pos hend] at h
      exact nomatch h
    rw [if_neg hend] at h
    by_cases hesc : byteAt buf off ≠ ch '\\'
    · rw [if_pos hesc] at h
      exact Nat.le_of_succ_le (hmap _ _ h)
    rw [if_neg hesc] at h
    cases hhi : hexValue (byteAt buf (off + 1)) with
    | none => exact nomatch hhi ▸ h
    | some hi =>
      rw [hhi] at h
      dsimp only at h
      cases hlo : hexValue (byteAt buf (off + 2)) with
      | none => exact nomatch hlo ▸ h
      | some lo =>
        rw [hlo] at h
        exact Nat.le_trans (Nat.le_add_right _ _) (hmap _ _ h)

theorem hexValue_zero : hexValue 0 = none := by decide

theorem unserializeStr_le (hnul : byteAt buf n = 0) (len : Nat) {off : Nat} (hle : off ≤ n) :
    (unserializeStr buf n len off).2 ≤ n ∧
      ∀ str ∈ (unserializeStr buf n len off).1, str.2 ≤ n := by
  induction len generalizing off with
  | zero =>
    refine ⟨Nat.zero_le _, fun str hstr => ?_⟩
    obtain rfl := Option.mem_some_iff.mp hstr
    exact hle
  | succ len ih =>
    have hhex : ∀ {i : Nat}, i ≤ n → ∀ {v}, hexValue (byteAt buf i) = some v → i < n := by
      intro i hi v hv
      rcases Nat.lt_or_eq_of_le hi with hlt | rfl
      · exact hlt
      · rw [hnul, hexValue_zero] at hv
        exact nomatch hv
    have hmap : ∀ {r : Option (List UInt8 × Nat)} {c : UInt8}, (∀ str ∈ r, str.2 ≤ n) →
        ∀ str ∈ r.map (fun x => (c :: x.1, x.2)), str.2 ≤ n := by
      intro r c hr str hstr
      obtain ⟨x, hx, rfl⟩ := Option.map_eq_some_iff.mp hstr
      exact hr x hx
    rw [unserializeStr]
    by_cases hend : off ≥ n
    · rw [if_pos hend]
      exact ⟨Nat.zero_le _, nofun⟩
    rw [if_neg hend]
    by_cases hesc : byteAt buf off ≠ ch '\\'
    · rw [if_pos hesc]
      obtain ⟨h1, h2⟩ := ih (by omega : off + 1 ≤ n)
      exact ⟨Nat.max_le.mpr ⟨hle, h1⟩, hmap h2⟩
    rw [if_neg hesc]
    cases hhi : hexValue (byteAt buf (off + 1)) with
    | none => exact ⟨by dsimp only; omega, nofun⟩
    | some hi =>
      have hlt1 := hhex (by omega) hhi
      dsimp only
      cases hlo : hexValue (byteAt buf (off + 2)) with
      | none => exact ⟨by dsimp only; omega, nofun⟩
      | some lo =>
        have hlt2 := hhex (by omega) hlo
        obtain ⟨h1, h2⟩ := ih (by omega : off + 3 ≤ n)
        exact ⟨Nat.max_le.mpr ⟨by omega, h1⟩, hmap h2⟩

end Php53.Standard
