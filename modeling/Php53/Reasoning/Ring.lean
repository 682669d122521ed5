import Mathlib.Data.List.Cycle
import Mathlib.Logic.Function.Basic

/-!
# Ring — circular doubly linked lists over field maps

A heap of nodes is given by two total maps, `next` and `prev`.  `Ring next prev l` says that
following `next` from the first node of `l` visits `l` once and comes back, and that `prev` undoes
`next` on the way.  The order inside a ring is only a matter of where one starts, so the links are
stated on Mathlib's cycles and a rotation of `l` is again a ring.
-/

namespace Reasoning

open List

variable {P : Type}

variable {next prev : P → P} {l : List P} {b x : P}

/-- `b` stands right after `a`, and both nodes know it. -/
def Link (next prev : P → P) (a b : P) : Prop := next a = b ∧ prev b = a

/-- `l` is a circular doubly linked list. -/
structure Ring (next prev : P → P) (l : List P) : Prop where
  nodup : l.Nodup
  linked : (l : Cycle P).Chain (Link next prev)

theorem dropLast_cons_concat (x y : P) (l : List P) : (x :: (l ++ [y])).dropLast = x :: l := by
  rw [← cons_append, dropLast_concat]

theorem isChain_link_congr {next' prev' : P → P} (h : l.IsChain (Link next prev))
    (hn : ∀ x ∈ l.dropLast, next' x = next x) (hp : ∀ x ∈ l.tail, prev' x = prev x)
    : l.IsChain (Link next' prev') := by
  induction l with
  | nil => simp
  | cons a l ih =>
    cases l with
    | nil => simp
    | cons b l =>
      rw [isChain_cons_cons] at h ⊢
      constructor
      · constructor
        · rw [hn a (by simp)]
          exact h.1.1
        · rw [hp b (by simp)]
          exact h.1.2
      · apply ih h.2
        · intro x hx
          exact hn x (by simp [hx])
        · intro x hx
          exact hp x (mem_of_mem_tail hx)

theorem ring_cons :
    Ring next prev (x :: l) ↔ (x :: l).Nodup ∧ (x :: (l ++ [x])).IsChain (Link next prev) := by
  constructor
  · intro h
    exact ⟨h.nodup, (Cycle.chain_coe_cons _ x l).mp h.linked⟩
  · intro h
    exact ⟨h.1, (Cycle.chain_coe_cons _ x l).mpr h.2⟩

theorem Ring.rotate {l' : List P} (h : Ring next prev l) (hr : l ~r l') :
    Ring next prev l' := by
  constructor
  · exact hr.nodup_iff.mp h.nodup
  · rw [← Cycle.coe_eq_coe.mpr hr]
    exact h.linked

theorem ring_singleton :
    Ring next prev [x] ↔ next x = x ∧ prev x = x := by
  rw [ring_cons]
  simp [Link]

theorem Ring.congr {next' prev' : P → P} (h : Ring next prev l) (hn : ∀ x ∈ l, next' x = next x)
    (hp : ∀ x ∈ l, prev' x = prev x) : Ring next' prev' l := by
  constructor
  · exact h.nodup
  · cases l with
    | nil => exact Cycle.Chain.nil _
    | cons x l =>
      have hl := (Cycle.chain_coe_cons _ x l).mp h.linked
      apply (Cycle.chain_coe_cons _ x l).mpr
      apply isChain_link_congr hl
      · intro y hy
        rw [dropLast_cons_concat] at hy
        exact hn y hy
      · intro y hy
        apply hp y
        simp at hy ⊢
        tauto

theorem Ring.link_head {y : P} (h : Ring next prev (x :: y :: l)) : next x = y ∧ prev y = x := by
  have hl := (ring_cons.mp h).2
  rw [cons_append, isChain_cons_cons] at hl
  exact hl.1

theorem Ring.link_last {y : P} (h : Ring next prev (x :: (l ++ [y])))
    : next y = x ∧ prev x = y := by
  have hr : (x :: (l ++ [y])) ~r (y :: x :: l) := by
    rw [← cons_append]
    exact isRotated_append
  exact (h.rotate hr).link_head

theorem Ring.link_mem (h : Ring next prev l) (hx : x ∈ l)
    : prev (next x) = x ∧ next (prev x) = x ∧ next x ∈ l ∧ prev x ∈ l := by
  obtain ⟨a, b, rfl⟩ := append_of_mem hx
  have hr : (a ++ x :: b) ~r (x :: (b ++ a)) := isRotated_append
  have h' := h.rotate hr
  have hmem : ∀ y ∈ x :: (b ++ a), y ∈ a ++ x :: b := fun y hy => hr.mem_iff.mpr hy
  generalize b ++ a = l at h' hmem
  cases hl : l using reverseRecOn with
  | nil =>
    subst hl
    have hs := ring_singleton.mp h'
    simp [hs]
  | append_singleton l y _ =>
    subst hl
    have hlast := h'.link_last
    have hhead : ∃ z ∈ l ++ [y], next x = z ∧ prev z = x := by
      cases l with
      | nil => exact ⟨y, by simp, h'.link_head⟩
      | cons z l => exact ⟨z, by simp, h'.link_head⟩
    obtain ⟨z, hz, hnext, hprev⟩ := hhead
    rw [hnext, hlast.2, hprev, hlast.1]
    exact ⟨rfl, rfl, hmem z (mem_cons_of_mem x hz), hmem y (by simp)⟩

theorem Ring.prev_eq_self (h : Ring next prev (x :: l)) : prev x = x ↔ l = [] := by
  constructor
  · intro hx
    cases hl : l using reverseRecOn with
    | nil => rfl
    | append_singleton l y _ =>
      subst hl
      have hy : y = x := by rw [← h.link_last.2, hx]
      have hnd := h.nodup
      simp [hy] at hnd
  · intro hl
    subst hl
    exact (ring_singleton.mp h).2

variable [DecidableEq P]

theorem Ring.insert (h : Ring next prev (x :: l)) (hb : b ∉ x :: l) :
    Ring (Function.update (Function.update next x b) b (next x))
      (Function.update (Function.update prev (next x) b) b x) (x :: b :: l) := by
  have hnd := h.nodup
  have hbx : b ≠ x := fun he => hb (by simp [he])
  rw [ring_cons]
  constructor
  · simp only [nodup_cons, mem_cons, not_or] at hnd hb ⊢
    exact ⟨⟨Ne.symm hb.1, hnd.1⟩, hb.2, hnd.2⟩
  · cases l with
    | nil =>
      have hs := ring_singleton.mp h
      simp [Link, hs, Ne.symm hbx]
    | cons y l =>
      obtain ⟨hxy, -⟩ := h.link_head
      have hl := (ring_cons.mp h).2
      rw [cons_append, isChain_cons_cons] at hl
      have hby : b ≠ y := fun he => hb (by simp [he])
      rw [hxy]
      -- only the link from the first node to the second is replaced, by two new ones
      rw [cons_append, cons_append, isChain_cons_cons, isChain_cons_cons]
      constructor
      · constructor
        · rw [Function.update_of_ne (Ne.symm hbx), Function.update_self]
        · rw [Function.update_self]
      · constructor
        · constructor
          · rw [Function.update_self]
          · rw [Function.update_of_ne (Ne.symm hby), Function.update_self]
        · apply isChain_link_congr hl.2
          · intro z hz
            rw [dropLast_cons_concat] at hz
            have hzx : z ≠ x := fun he => (nodup_cons.mp hnd).1 (he ▸ hz)
            have hzb : z ≠ b := fun he => hb (mem_cons_of_mem x (he ▸ hz))
            rw [Function.update_of_ne hzb, Function.update_of_ne hzx]
          · intro z hz
            have hz : z ∈ l ∨ z = x := by simpa using hz
            have hzb : z ≠ b := by
              intro he
              apply hb
              subst he
              simp only [mem_cons]
              tauto
            have hzy : z ≠ y := by
              intro he
              subst he
              simp at hnd
              tauto
            rw [Function.update_of_ne hzb, Function.update_of_ne hzy]

theorem Ring.remove (h : Ring next prev (b :: l)) (hl : l ≠ []) :
    Ring (Function.update next (prev b) (next b)) (Function.update prev (next b) (prev b)) l := by
  have hnd := h.nodup
  have hch := (ring_cons.mp h).2
  cases l with
  | nil => exact absurd rfl hl
  | cons n l =>
    obtain ⟨hbn, -⟩ := h.link_head
    rw [ring_cons]
    constructor
    · exact (nodup_cons.mp hnd).2
    · rw [hbn]
      cases hl' : l using reverseRecOn with
      | nil =>
        subst hl'
        obtain ⟨-, hp⟩ := Ring.link_last (l := []) h
        rw [hp]
        simp [Link]
      | append_singleton l p _ =>
        subst hl'
        obtain ⟨-, hp⟩ := Ring.link_last (l := n :: l) h
        rw [hp]
        -- the segment from the first node left to the last one is untouched
        have hmid : (n :: (l ++ [p])).IsChain (Link next prev) := by
          apply hch.infix
          exact ⟨[b], [b], by simp⟩
        have hpn : p ≠ n := by
          intro he
          subst he
          simp at hnd
        have hkeep : (n :: (l ++ [p])).IsChain
            (Link (Function.update next p n) (Function.update prev n p)) := by
          apply isChain_link_congr hmid
          · intro z hz
            rw [dropLast_cons_concat] at hz
            have hzp : z ≠ p := by
              intro he
              subst he
              simp at hnd hz
              rcases hz with hz | hz
              · exact hnd.2.1.2 hz.symm
              · exact (nodup_append.mp hnd.2.2).2.2 z hz z (by simp) rfl
            rw [Function.update_of_ne hzp]
          · intro z hz
            have hz : z ∈ l ++ [p] := by simpa using hz
            have hzn : z ≠ n := by
              intro he
              subst he
              simp at hnd hz
              tauto
            rw [Function.update_of_ne hzn]
        rw [← cons_append]
        apply hkeep.append (by simp)
        intro x hx y hy
        have hx : p = x := by simpa [List.getLast?_cons] using hx
        have hy : n = y := by simpa using hy
        subst hx hy
        exact ⟨Function.update_self .., Function.update_self ..⟩

theorem Ring.remove_mid {l' : List P} (h : Ring next prev (l ++ b :: l')) (hl : l ++ l' ≠ []) :
    Ring (Function.update next (prev b) (next b)) (Function.update prev (next b) (prev b))
      (l ++ l') := by
  have h' : Ring next prev (b :: (l' ++ l)) := h.rotate isRotated_append
  have hl' : l' ++ l ≠ [] := by
    intro he
    rw [append_eq_nil_iff] at he
    exact hl (append_eq_nil_iff.mpr ⟨he.2, he.1⟩)
  exact (h'.remove hl').rotate isRotated_append

omit [DecidableEq P] in
theorem Ring.prev_eq_next (h : Ring next prev (b :: l)) (hl : l ≠ [])
    : prev b = next b ↔ ∃ p, l = [p] := by
  cases l with
  | nil => exact absurd rfl hl
  | cons n l =>
    have hn := h.link_head.1
    cases hlast : l using reverseRecOn with
    | nil =>
      subst hlast
      have hp := (Ring.link_last (l := []) h).2
      rw [hp, hn]
      simp
    | append_singleton l y _ =>
      subst hlast
      have hp := (Ring.link_last (l := n :: l) h).2
      have hnd := h.nodup
      rw [hp, hn]
      constructor
      · intro he
        subst he
        simp at hnd
      · rintro ⟨p, he⟩
        simp at he

end Reasoning
