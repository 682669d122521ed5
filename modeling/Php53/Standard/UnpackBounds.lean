import Php53.Standard.UnpackValues

/-!
# UnpackBounds — what `unpack` reads, and when a code stops

A code reads inside of the input and stops at its end, except for an `X` with a negative repeat
argument, which goes through all values of the counter, and where an `int` wraps around.
-/

open Reasoning

namespace Php53.Standard.Unpack

open Zend

variable {input : List UInt8} {cs : List (Option Code)} {inputpos : Int}

/-- A code that reads inside of the input from a position on, and stops at its end. -/
def CodeOk (input : List UInt8) (c : Code) (inputpos : Int) : Prop :=
  match c.kind with
  | .back => 0 ≤ c.arg ∨ (c.arg = -2 ^ 31 ∧ (input.length : Int) = intMax)
  | .position => True
  | .string _ => True
  | .hex _ => HexOk input.length c.argb inputpos
  | .fixed none => 0 ≤ c.arg ∨ (input.length : Int) < intMax ∨ c.arg = -2 ^ 31
  | .fixed (some _) => FixedOk input.length c.size c.arg inputpos

section

variable {input : List UInt8} {c : Code} {inputpos : Int}

theorem stops_iff (hc : c.WellFormed) (hfits : (input.length : Int) ≤ intMax)
    (h : Inside input inputpos) : Stops input c inputpos ↔ CodeOk input c inputpos := by
  unfold CodeOk
  cases hkind : c.kind with
  | back => exact stops_back hc hfits h hkind
  | position => exact iff_of_true (stops_position hc hfits h hkind) trivial
  | string pad => exact iff_of_true (stops_string hc h hkind) trivial
  | hex nibbleshift => exact stops_hex hc hfits h hkind
  | fixed value =>
    cases value with
    | none => exact stops_skip hc hfits h hkind
    | some value => exact stops_values hc hfits h hkind

end

def reached (input : List UInt8) : List (Option Code) → Int → List (Code × Int)
  | [], _ => []
  | none :: _, _ => []
  | some c :: cs, inputpos =>
    (c, inputpos) :: match unpackCode input c inputpos with
      | some (s, .done) => reached input cs s.inputpos
      | _ => []

theorem reached_spec (hfits : (input.length : Int) ≤ intMax) (hcs : ∀ c, some c ∈ cs → c.WellFormed)
    (h : Inside input inputpos) :
    ∀ at' ∈ reached input cs inputpos, at'.1.WellFormed ∧ Inside input at'.2 := by
  induction cs generalizing inputpos with
  | nil => exact fun _ hat => absurd hat List.not_mem_nil
  | cons c cs ih =>
    cases c with
    | none => exact fun _ hat => absurd hat List.not_mem_nil
    | some c =>
      have hc := hcs c List.mem_cons_self
      intro at' hat
      rw [reached] at hat
      rcases List.mem_cons.mp hat with rfl | hrest
      · exact ⟨hc, h⟩
      · split at hrest
        · next s hs =>
          exact ih (fun c hmem => hcs c (List.mem_cons_of_mem _ hmem)) (loop_inside hc hfits h hs)
            at' hrest
        · exact absurd hrest List.not_mem_nil

/-- A call reads outside of the input, or does not end, exactly where a code that it reaches does. -/
theorem unpackLoop_eq_none_iff {values : List (List UInt8 × Element)} :
    unpackLoop input cs inputpos values = none ↔
      ∃ at' ∈ reached input cs inputpos, unpackCode input at'.1 at'.2 = none := by
  induction cs generalizing inputpos values with
  | nil => simp [unpackLoop, reached]
  | cons c cs ih =>
    cases c with
    | none => simp [unpackLoop, reached]
    | some c =>
      rw [unpackLoop, reached, List.exists_mem_cons_iff]
      cases hcode : unpackCode input c inputpos with
      | none => simp
      | some r =>
        obtain ⟨s, ending⟩ := r
        cases ending with
        | done => simpa using ih
        | failed => simp
        | bailout => simp

theorem codes_reached {format : List UInt8} {input : Input} :
    ∀ at' ∈ reached input.bytes (codes format) 0, at'.1.WellFormed ∧ Inside input.bytes at'.2 :=
  reached_spec input.fits (fun _ hc => codesLoop_wellFormed hc) ⟨le_refl 0, Int.natCast_nonneg _⟩

/-- So a call returns where no code that it reaches is one that goes wrong. -/
theorem unpack_returns {format : List UInt8} {input : Input}
    (h : ∀ at' ∈ reached input.bytes (codes format) 0, CodeOk input.bytes at'.1 at'.2) :
    ∃ r, unpack format input = some r := by
  rw [← Option.ne_none_iff_exists', unpack, Ne, unpackLoop_eq_none_iff]
  rintro ⟨at', hat, hnone⟩
  have ⟨hc, hinside⟩ := codes_reached at' hat
  have ⟨s, ending, hcode, _⟩ := (stops_iff hc input.fits hinside).mpr (h at' hat)
  rw [hcode] at hnone
  cases hnone

/-- Every code of a call reads inside of the input and stops at its end, exactly where none of them is
one that goes wrong. -/
theorem unpack_bounded_iff (format : List UInt8) (input : Input) :
    (∀ at' ∈ reached input.bytes (codes format) 0,
      Inside input.bytes at'.2 ∧ Stops input.bytes at'.1 at'.2) ↔
      ∀ at' ∈ reached input.bytes (codes format) 0, CodeOk input.bytes at'.1 at'.2 := by
  constructor
  · intro h at' hat
    have ⟨hc, hinside⟩ := codes_reached at' hat
    exact (stops_iff hc input.fits hinside).mp (h at' hat).2
  · intro h at' hat
    have ⟨hc, hinside⟩ := codes_reached at' hat
    exact ⟨hinside, (stops_iff hc input.fits hinside).mpr (h at' hat)⟩

theorem reached_head {c : Code} :
    (c, inputpos) ∈ reached input (some c :: cs) inputpos := by
  rw [reached]
  exact List.mem_cons_self

/-- `X*` at the end of an empty input. -/
theorem unpack_goes_on :
    ¬∀ at' ∈ reached [] (codes ([ch 'X', ch '*'])) 0, Inside [] at'.2 ∧ Stops [] at'.1 at'.2 := by
  intro h
  have hcodes : codes ([ch 'X', ch '*']) = [some ⟨.back, -1, -1, -1, []⟩] := by rfl
  rw [hcodes] at h
  have ⟨hinside, hstops⟩ := h (⟨.back, -1, -1, -1, []⟩, 0) reached_head
  have hc : Code.WellFormed ⟨.back, -1, -1, -1, []⟩ := ⟨⟨by decide, by decide⟩, rfl, rfl⟩
  rcases (stops_iff hc (by decide) hinside).mp hstops with hnonneg | ⟨hmin, _⟩
  · exact absurd hnonneg (by decide)
  · exact absurd hmin (by decide)

end Php53.Standard.Unpack
