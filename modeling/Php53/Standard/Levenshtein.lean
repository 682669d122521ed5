import Php53.Reasoning.EditScripts
import Mathlib.Tactic.Common
import Mathlib.Algebra.Order.Ring.Int
import Mathlib.Algebra.Ring.Int.Defs
import Mathlib.Data.Nat.Cast.Basic

/-!
# Levenshtein — `reference_levdist`

The two rows of the table are functions from the index to the `int` stored there, `fresh` is what
the two new allocations hold.  Every sum and product of costs is an `int`: one that does not fit
makes the call undefined, written `none`.
-/

namespace Php53.Standard

open Reasoning List

def levenshteinMaxLength : Nat := 255

/-- An `int` that the code computes. -/
def intSum (n : ℤ) : Option ℤ := if -2 ^ 31 ≤ n ∧ n < 2 ^ 31 then some n else none

/-- One of the two rows `p1` and `p2`. -/
abbrev LevRow := ℕ → ℤ

/-- The body of the inner loop: `c0`, `c1` and `c2`. -/
def levCell (cost_ins cost_rep cost_del : ℤ) (p1 p2 : LevRow) (same : Bool) (i2 : ℕ) :
    Option ℤ := do
  let c0 ← intSum (p1 i2 + if same then 0 else cost_rep)
  let c1 ← intSum (p1 (i2 + 1) + cost_del)
  let c0 := if c1 < c0 then c1 else c0
  let c2 ← intSum (p2 i2 + cost_ins)
  return if c2 < c0 then c2 else c0

/-- The row `p2` after the inner loop for `s1[i1] = c`, with `n` of the letters of `s2` done. -/
def levInner (cost_ins cost_rep cost_del : ℤ) (c : UInt8) (p1 : LevRow) :
    List UInt8 → ℕ → LevRow → Option LevRow
  | [], _, p2 => some p2
  | d :: s2, i2, p2 => do
    let c0 ← levCell cost_ins cost_rep cost_del p1 p2 (c == d) i2
    levInner cost_ins cost_rep cost_del c p1 s2 (i2 + 1) (Function.update p2 (i2 + 1) c0)

/-- The outer loop: the rows change places after each letter of `s1`. -/
def levOuter (cost_ins cost_rep cost_del : ℤ) (s2 : List UInt8) :
    List UInt8 → LevRow → LevRow → Option LevRow
  | [], p1, _ => some p1
  | c :: s1, p1, p2 => do
    let first ← intSum (p1 0 + cost_del)
    let p2 ← levInner cost_ins cost_rep cost_del c p1 s2 0 (Function.update p2 0 first)
    levOuter cost_ins cost_rep cost_del s2 s1 p2 p1

/-- `for (i2 = 0; i2 <= l2; i2++) p1[i2] = i2 * cost_ins`, with `n` entries still to fill. -/
def levFirstRow (cost_ins : ℤ) : ℕ → ℕ → LevRow → Option LevRow
  | 0, _, p1 => some p1
  | n + 1, i2, p1 => do
    let c ← intSum (i2 * cost_ins)
    levFirstRow cost_ins n (i2 + 1) (Function.update p1 i2 c)

def reference_levdist (fresh : LevRow × LevRow) (s1 s2 : List UInt8)
    (cost_ins cost_rep cost_del : ℤ) : Option ℤ :=
  if s1.length = 0 then intSum (s2.length * cost_ins)
  else if s2.length = 0 then intSum (s1.length * cost_del)
  else if s1.length > levenshteinMaxLength ∨ s2.length > levenshteinMaxLength then some (-1)
  else do
    let p1 ← levFirstRow cost_ins (s2.length + 1) 0 fresh.1
    let p1 ← levOuter cost_ins cost_rep cost_del s2 s1 p1 fresh.2
    return p1 s2.length

theorem intSum_eq_some {n m : ℤ} (h : intSum n = some m) : m = n := by
  unfold intSum at h
  split at h
  · cases h
    rfl
  · cases h

theorem intSum_of_fits {n : ℤ} (hlo : -2 ^ 31 ≤ n) (hhi : n < 2 ^ 31) : intSum n = some n := by
  unfold intSum
  rw [if_pos ⟨hlo, hhi⟩]

variable {costs : EditCosts ℤ} {c d : UInt8} {xs ys : List UInt8} {p1 p2 : LevRow} {i2 : ℕ} {v : ℤ}

theorem levCell_eq_some {cost_ins cost_rep cost_del : ℤ} {same : Bool}
    (h : levCell cost_ins cost_rep cost_del p1 p2 same i2 = some v) :
    v = min (min (p1 i2 + if same then 0 else cost_rep) (p1 (i2 + 1) + cost_del))
      (p2 i2 + cost_ins) := by
  unfold levCell at h
  have ⟨c0, h0, h⟩ := Option.bind_eq_some_iff.mp h
  have ⟨c1, h1, h⟩ := Option.bind_eq_some_iff.mp h
  have ⟨c2, h2, h⟩ := Option.bind_eq_some_iff.mp h
  cases h
  rw [← intSum_eq_some h0, ← intSum_eq_some h1, ← intSum_eq_some h2, min_def, min_def]
  split <;> split <;> split <;> split <;> omega

theorem levCell_least (hsub : LeastCost costs xs ys (p1 i2))
    (hdel : LeastCost costs xs (d :: ys) (p1 (i2 + 1)))
    (hins : LeastCost costs (c :: xs) ys (p2 i2))
    (h : levCell costs.ins costs.rep costs.del p1 p2 (c == d) i2 = some v) :
    LeastCost costs (c :: xs) (d :: ys) v := by
  have hleast := hsub.cons hdel hins
  rw [levCell_eq_some h]
  simpa only [beq_iff_eq] using hleast

/-- Sums up to the whole cost of `n` deletions and `m` insertions and of one replacement fit. -/
def LevFits (costs : EditCosts ℤ) (n m : ℕ) : Prop :=
  n * costs.del + m * costs.ins + costs.rep < 2 ^ 31

theorem LevFits.mono {n n' m m' : ℕ} (h : LevFits costs n' m') (hn : n ≤ n') (hm : m ≤ m') :
    LevFits costs n m := by
  unfold LevFits at h ⊢
  have hdel : (n : ℤ) * costs.del ≤ n' * costs.del :=
    mul_le_mul_of_nonneg_right (Int.ofNat_le.mpr hn) costs.del_nonneg
  have hins : (m : ℤ) * costs.ins ≤ m' * costs.ins :=
    mul_le_mul_of_nonneg_right (Int.ofNat_le.mpr hm) costs.ins_nonneg
  omega

theorem leastCost_le_sums (h : LeastCost costs xs ys v) :
    0 ≤ v ∧ v ≤ xs.length * costs.del + ys.length * costs.ins := by
  have hle := h.le_trivial
  rw [nsmul_eq_mul, nsmul_eq_mul] at hle
  exact ⟨h.1.nonneg, hle⟩

theorem levCell_fits (hsub : LeastCost costs xs ys (p1 i2))
    (hdel : LeastCost costs xs (d :: ys) (p1 (i2 + 1)))
    (hins : LeastCost costs (c :: xs) ys (p2 i2))
    (hfits : LevFits costs (xs.length + 1) (ys.length + 1)) (same : Bool) :
    ∃ v, levCell costs.ins costs.rep costs.del p1 p2 same i2 = some v := by
  have ⟨hsub0, hsub1⟩ := leastCost_le_sums hsub
  have ⟨hdel0, hdel1⟩ := leastCost_le_sums hdel
  have ⟨hins0, hins1⟩ := leastCost_le_sums hins
  have hci := costs.ins_nonneg
  have hcr := costs.rep_nonneg
  have hcd := costs.del_nonneg
  unfold LevFits at hfits
  rw [length_cons] at hdel1 hins1
  push_cast at hdel1 hins1 hfits
  rw [add_mul, one_mul] at hdel1 hins1
  rw [add_mul, add_mul, one_mul, one_mul] at hfits
  have h0 : intSum (p1 i2 + if same then 0 else costs.rep) = some _ :=
    intSum_of_fits (by split <;> omega) (by split <;> omega)
  have h1 : intSum (p1 (i2 + 1) + costs.del) = some _ := intSum_of_fits (by omega) (by omega)
  have h2 : intSum (p2 i2 + costs.ins) = some _ := intSum_of_fits (by omega) (by omega)
  unfold levCell
  rw [h0, h1, h2]
  exact ⟨_, rfl⟩

/-- The first `n + 1` cells of the row hold the least costs from `xs` (read backwards) to the
beginnings of `s2`. -/
def RowHolds (costs : EditCosts ℤ) (xs s2 : List UInt8) (n : ℕ) (p : LevRow) : Prop :=
  ∀ j ≤ n, LeastCost costs xs (s2.take j).reverse (p j)

theorem take_succ_reverse {pre rest : List UInt8} {d : UInt8} :
    ((pre ++ d :: rest).take (pre.length + 1)).reverse = d :: pre.reverse := by
  rw [take_append, take_of_length_le (by omega), Nat.add_sub_cancel_left, take_one]
  simp

theorem take_length_reverse {pre rest : List UInt8} :
    ((pre ++ rest).take pre.length).reverse = pre.reverse := by
  rw [take_left]

theorem RowHolds.next {pre rest : List UInt8}
    (h1 : RowHolds costs xs (pre ++ d :: rest) (pre ++ d :: rest).length p1)
    (h2 : RowHolds costs (c :: xs) (pre ++ d :: rest) pre.length p2)
    (hcell : levCell costs.ins costs.rep costs.del p1 p2 (c == d) pre.length = some v) :
    RowHolds costs (c :: xs) (pre ++ d :: rest) (pre.length + 1)
      (Function.update p2 (pre.length + 1) v) := by
  intro j hj
  have hsub := h1 pre.length (by simp)
  have hdel := h1 (pre.length + 1) (by simp)
  have hins := h2 pre.length le_rfl
  rw [take_length_reverse] at hsub hins
  rw [take_succ_reverse] at hdel
  by_cases hlast : j = pre.length + 1
  · rw [hlast, take_succ_reverse, Function.update_self]
    exact levCell_least hsub hdel hins hcell
  · rw [Function.update_of_ne hlast]
    exact h2 j (by omega)

theorem levInner_holds {rest pre : List UInt8} {p2' : LevRow}
    (h1 : RowHolds costs xs (pre ++ rest) (pre ++ rest).length p1)
    (h2 : RowHolds costs (c :: xs) (pre ++ rest) pre.length p2)
    (h : levInner costs.ins costs.rep costs.del c p1 rest pre.length p2 = some p2') :
    RowHolds costs (c :: xs) (pre ++ rest) (pre ++ rest).length p2' := by
  -- the loop moves the letters of `rest` to `pre`
  induction rest generalizing pre p2 with
  | nil =>
    cases h
    rwa [List.append_nil] at h2 ⊢
  | cons d rest ih =>
    have ⟨v, hcell, hrest⟩ := Option.bind_eq_some_iff.mp h
    have hnext := h1.next h2 hcell
    have happend : pre ++ d :: rest = (pre ++ [d]) ++ rest := by simp
    have hlength : pre.length + 1 = (pre ++ [d]).length := by simp
    rw [happend, hlength] at hnext
    rw [hlength] at hrest
    rw [happend] at h1 ⊢
    exact ih h1 hnext hrest

theorem levInner_fits {rest pre : List UInt8}
    (h1 : RowHolds costs xs (pre ++ rest) (pre ++ rest).length p1)
    (h2 : RowHolds costs (c :: xs) (pre ++ rest) pre.length p2)
    (hfits : LevFits costs (xs.length + 1) (pre ++ rest).length) :
    ∃ p2', levInner costs.ins costs.rep costs.del c p1 rest pre.length p2 = some p2' := by
  induction rest generalizing pre p2 with
  | nil => exact ⟨p2, rfl⟩
  | cons d rest ih =>
    have hsub := h1 pre.length (by simp)
    have hdel := h1 (pre.length + 1) (by simp)
    have hins := h2 pre.length le_rfl
    rw [take_length_reverse] at hsub hins
    rw [take_succ_reverse] at hdel
    have hcells : LevFits costs (xs.length + 1) (pre.reverse.length + 1) :=
      hfits.mono le_rfl (by simp)
    have ⟨v, hcell⟩ := levCell_fits hsub hdel hins hcells (c == d)
    have hnext := h1.next h2 hcell
    have happend : pre ++ d :: rest = (pre ++ [d]) ++ rest := by simp
    have hlength : pre.length + 1 = (pre ++ [d]).length := by simp
    rw [happend, hlength] at hnext
    rw [happend] at h1 hfits
    have ⟨p2', hrest⟩ := ih h1 hnext hfits
    rw [← hlength] at hrest
    rw [levInner, hcell]
    exact ⟨p2', hrest⟩

theorem RowHolds.first {s2 : List UInt8} {n : ℕ} {first : ℤ} (h1 : RowHolds costs xs s2 n p1)
    (hfirst : first = p1 0 + costs.del) :
    RowHolds costs (c :: xs) s2 0 (Function.update p2 0 first) := by
  intro j hj
  have hj0 : j = 0 := by omega
  have hdeleted := (h1 0 (Nat.zero_le n)).1.of_nil_right
  have hleast : LeastCost costs (c :: xs) [] _ := .nil_right (c :: xs)
  rw [length_cons, succ_nsmul, ← hdeleted, ← hfirst] at hleast
  rw [hj0, Function.update_self]
  exact hleast

theorem levOuter_holds {s1 s2 : List UInt8} {p1' : LevRow}
    (h1 : RowHolds costs xs s2 s2.length p1)
    (h : levOuter costs.ins costs.rep costs.del s2 s1 p1 p2 = some p1') :
    RowHolds costs (s1.reverse ++ xs) s2 s2.length p1' := by
  induction s1 generalizing xs p1 p2 with
  | nil =>
    cases h
    exact h1
  | cons c s1 ih =>
    have ⟨first, hfirst, h⟩ := Option.bind_eq_some_iff.mp h
    have ⟨row, hrow, hrest⟩ := Option.bind_eq_some_iff.mp h
    have hnew := @levInner_holds _ c xs p1 _ s2 [] row h1 (h1.first (intSum_eq_some hfirst)) hrow
    rw [reverse_cons, append_assoc]
    exact ih hnew hrest

theorem levOuter_fits {s1 s2 : List UInt8} (h1 : RowHolds costs xs s2 s2.length p1)
    (hfits : LevFits costs (xs.length + s1.length) s2.length) :
    ∃ p1', levOuter costs.ins costs.rep costs.del s2 s1 p1 p2 = some p1' := by
  induction s1 generalizing xs p1 p2 with
  | nil => exact ⟨p1, rfl⟩
  | cons c s1 ih =>
    have hone : LevFits costs (xs.length + 1) s2.length :=
      hfits.mono (by rw [length_cons]; omega) le_rfl
    have hrest : LevFits costs ((c :: xs).length + s1.length) s2.length :=
      hfits.mono (by rw [length_cons, length_cons]; omega) le_rfl
    have hfirst : intSum (p1 0 + costs.del) = some (p1 0 + costs.del) := by
      have hsum := leastCost_le_sums (h1 0 (Nat.zero_le _))
      have hdel := costs.del_nonneg
      have hrep := costs.rep_nonneg
      have hcell : LevFits costs (xs.length + 1) 0 := hone.mono le_rfl (Nat.zero_le _)
      unfold LevFits at hcell
      push_cast at hcell
      rw [add_mul, one_mul] at hcell
      rw [take_zero, reverse_nil, length_nil] at hsum
      exact intSum_of_fits (by omega) (by omega)
    have hcells := @RowHolds.first costs c xs p1 p2 s2 s2.length _ h1 rfl
    have ⟨row, hrow⟩ := @levInner_fits _ c xs p1 _ s2 [] h1 hcells hone
    have hnew := @levInner_holds _ c xs p1 _ s2 [] row h1 hcells hrow
    rw [levOuter, hfirst]
    show ∃ p1', (levInner _ _ _ c p1 s2 0 _).bind _ = some p1'
    rw [show levInner costs.ins costs.rep costs.del c p1 s2 0 _ = some row from hrow]
    exact ih hnew hrest

theorem levFirstRow_eq_some {cost_ins : ℤ} {n i2 : ℕ} {p1' : LevRow}
    (h1 : ∀ j < i2, p1 j = j * cost_ins) (h : levFirstRow cost_ins n i2 p1 = some p1') :
    ∀ j < i2 + n, p1' j = j * cost_ins := by
  induction n generalizing i2 p1 with
  | zero =>
    cases h
    exact h1
  | succ n ih =>
    have ⟨v, hv, hrest⟩ := Option.bind_eq_some_iff.mp h
    have hcell : ∀ j < i2 + 1, Function.update p1 i2 v j = j * cost_ins := by
      intro j hj
      by_cases hlast : j = i2
      · rw [hlast, Function.update_self]
        exact intSum_eq_some hv
      · rw [Function.update_of_ne hlast]
        exact h1 j (by omega)
    have hall := ih hcell hrest
    intro j hj
    exact hall j (by omega)

theorem levFirstRow_fits {n i2 m : ℕ} (hn : i2 + n ≤ m + 1) (hfits : LevFits costs 0 m) :
    ∃ p1', levFirstRow costs.ins n i2 p1 = some p1' := by
  induction n generalizing i2 p1 with
  | zero => exact ⟨p1, rfl⟩
  | succ n ih =>
    have hone : LevFits costs 0 i2 := hfits.mono le_rfl (by omega)
    have hv : intSum (i2 * costs.ins) = some (i2 * costs.ins) := by
      have hrep := costs.rep_nonneg
      have hnonneg : 0 ≤ (i2 : ℤ) * costs.ins := mul_nonneg (Int.natCast_nonneg i2) costs.ins_nonneg
      unfold LevFits at hone
      exact intSum_of_fits (by omega) (by omega)
    rw [levFirstRow, hv]
    exact ih (by omega)

theorem firstRow_holds {s2 : List UInt8} (h : ∀ j < s2.length + 1, p1 j = j * costs.ins) :
    RowHolds costs [] s2 s2.length p1 := by
  intro j hj
  have hleast : LeastCost costs [] (s2.take j).reverse _ := .nil_left _
  rw [length_reverse, length_take, Nat.min_eq_left hj, nsmul_eq_mul,
    ← h j (by omega)] at hleast
  exact hleast

theorem reference_levdist_least {fresh : LevRow × LevRow} {s1 s2 : List UInt8}
    (hl1 : s1.length ≤ levenshteinMaxLength) (hl2 : s2.length ≤ levenshteinMaxLength)
    (h : reference_levdist fresh s1 s2 costs.ins costs.rep costs.del = some v) :
    LeastCost costs s1.reverse s2.reverse v := by
  unfold reference_levdist at h
  by_cases h1 : s1.length = 0
  · rw [if_pos h1] at h
    have hleast : LeastCost costs [] s2.reverse _ := .nil_left _
    rw [length_reverse, nsmul_eq_mul, ← intSum_eq_some h] at hleast
    rw [length_eq_zero_iff.mp h1]
    exact hleast
  · rw [if_neg h1] at h
    by_cases h2 : s2.length = 0
    · rw [if_pos h2] at h
      have hleast : LeastCost costs s1.reverse [] _ := .nil_right _
      rw [length_reverse, nsmul_eq_mul, ← intSum_eq_some h] at hleast
      rw [length_eq_zero_iff.mp h2]
      exact hleast
    · rw [if_neg h2, if_neg (by omega)] at h
      have ⟨row, hrow, h⟩ := Option.bind_eq_some_iff.mp h
      have ⟨last, hlast, h⟩ := Option.bind_eq_some_iff.mp h
      cases h
      have hfilled := levFirstRow_eq_some (by omega) hrow
      rw [Nat.zero_add] at hfilled
      have hholds := levOuter_holds (firstRow_holds hfilled) hlast s2.length le_rfl
      rw [List.append_nil, take_length] at hholds
      exact hholds

theorem reference_levdist_fits {fresh : LevRow × LevRow} {s1 s2 : List UInt8}
    (hfits : LevFits costs s1.length s2.length) :
    ∃ v, reference_levdist fresh s1 s2 costs.ins costs.rep costs.del = some v := by
  have hrep := costs.rep_nonneg
  have hdel0 : 0 ≤ (s1.length : ℤ) * costs.del :=
    mul_nonneg (Int.natCast_nonneg _) costs.del_nonneg
  have hins0 : 0 ≤ (s2.length : ℤ) * costs.ins :=
    mul_nonneg (Int.natCast_nonneg _) costs.ins_nonneg
  have hsum := hfits
  unfold LevFits at hsum
  unfold reference_levdist
  split
  · exact ⟨_, intSum_of_fits (by omega) (by omega)⟩
  · split
    · exact ⟨_, intSum_of_fits (by omega) (by omega)⟩
    · split
      · exact ⟨-1, rfl⟩
      · have hempty : LevFits costs 0 s2.length := hfits.mono (Nat.zero_le _) le_rfl
        have ⟨row, hrow⟩ := @levFirstRow_fits _ fresh.1 (s2.length + 1) 0 _ (by omega) hempty
        have hfilled := levFirstRow_eq_some (by omega) hrow
        rw [Nat.zero_add] at hfilled
        have hfirst : RowHolds costs [] s2 s2.length row := firstRow_holds hfilled
        have ⟨last, hlast⟩ := @levOuter_fits _ _ _ fresh.2 s1 s2 hfirst
          (hfits.mono (by simp) le_rfl)
        rw [hrow]
        show ∃ v, (levOuter _ _ _ s2 s1 row fresh.2).bind _ = some v
        rw [hlast]
        exact ⟨_, rfl⟩

/-- What the call returns is the least total cost of the scripts that turn `s1` into `s2`, and it
returns when the sums of the costs fit an `int`. -/
theorem levdist_is_least_script_cost (costs : EditCosts ℤ) (fresh : LevRow × LevRow)
    (s1 s2 : List UInt8) (hl1 : s1.length ≤ levenshteinMaxLength)
    (hl2 : s2.length ≤ levenshteinMaxLength) :
    (∀ v, reference_levdist fresh s1 s2 costs.ins costs.rep costs.del = some v →
      IsLeast (scriptCosts costs s1 s2) v) ∧
    (s1.length * costs.del + s2.length * costs.ins + costs.rep < 2 ^ 31 →
      ∃ v, reference_levdist fresh s1 s2 costs.ins costs.rep costs.del = some v) := by
  constructor
  · intro v h
    exact (reference_levdist_least hl1 hl2 h).scripts
  · exact reference_levdist_fits

def unitCosts : EditCosts ℤ := ⟨1, 1, 1, by decide, by decide, by decide⟩

theorem levdist_is_least_script_cost_kitten :
    IsLeast (scriptCosts unitCosts ([107, 105, 116] : List UInt8) [115, 105, 116, 116]) 2 :=
  (levdist_is_least_script_cost unitCosts (0, 0) [107, 105, 116] [115, 105, 116, 116] (by decide)
    (by decide)).1 2 (by decide)

/-- The distances are those of a metric: the way over a third string is never shorter, the way back
is as long when the costs of insertions and deletions change places, and with positive costs only
equal strings have the distance 0. -/
theorem levdist_is_metric (costs : EditCosts ℤ) (fresh : LevRow × LevRow) {s t u : List UInt8}
    (hs : s.length ≤ levenshteinMaxLength) (ht : t.length ≤ levenshteinMaxLength)
    (hu : u.length ≤ levenshteinMaxLength) {a b c d : ℤ}
    (hst : reference_levdist fresh s t costs.ins costs.rep costs.del = some a)
    (htu : reference_levdist fresh t u costs.ins costs.rep costs.del = some b)
    (hsu : reference_levdist fresh s u costs.ins costs.rep costs.del = some c)
    (hts : reference_levdist fresh t s costs.del costs.rep costs.ins = some d) :
    c ≤ a + b ∧ d = a ∧ 0 ≤ a ∧
      (0 < costs.ins → 0 < costs.rep → 0 < costs.del → (a = 0 ↔ s = t)) := by
  have hleast := reference_levdist_least hs ht hst
  have hback : LeastCost costs.swap t.reverse s.reverse d := reference_levdist_least ht hs hts
  refine ⟨?_, hback.unique hleast.swap, hleast.1.nonneg, ?_⟩
  -- two scripts one after the other are a script
  · have hway := scriptCosts_add hleast.scripts.1 (reference_levdist_least ht hu htu).scripts.1
    exact (reference_levdist_least hs hu hsu).scripts.2 hway
  · intro hins hrep hdel
    rw [hleast.eq_zero_iff hins hrep hdel, reverse_inj]

theorem levdist_is_metric_kitten : (2 : ℤ) ≤ 1 + 1 ∧ (1 : ℤ) = 1 ∧ (0 : ℤ) ≤ 1 ∧
    (0 < unitCosts.ins → 0 < unitCosts.rep → 0 < unitCosts.del →
      ((1 : ℤ) = 0 ↔ ([107, 105, 116] : List UInt8) = [115, 105, 116])) :=
  levdist_is_metric unitCosts (0, 0) (s := [107, 105, 116]) (t := [115, 105, 116])
    (u := [115, 105, 116, 116]) (by decide) (by decide) (by decide) (by decide) (by decide)
    (by decide) (by decide)

end Php53.Standard
