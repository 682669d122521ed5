import Php53.Reasoning.BitTrie

/-!
# BitTrieWalks — walks through an ordered trie

`way key n k t` is the way the bits of a number `n` take through a trie, up to a node whose key is
`n`, and `aside key n k t u` the last right subtree it leaves aside, `u` if there is none.  The
least key from `n` up is on the way or in that subtree.  `spine t` is the walk that goes right below
every node with a left subtree and stops at the others; it misses the least key of a trie unless
the root has it.
-/

namespace Reasoning.BitTrie

open List

variable {B : Type}

variable {t u : BitTrie B}

def root? : BitTrie B → Option B
  | .empty => none
  | .node x _ _ _ => some x

theorem root?_eq_none : t.root? = none ↔ t = .empty := by
  cases t <;> simp [root?]

theorem root?_mem {x : B} (h : t.root? = some x) : x ∈ t.heads := by
  cases t with
  | empty => exact nomatch h
  | node y rest left right =>
    obtain rfl := Option.some.inj h
    exact mem_cons_self

/-- `u` is a subtree of the trie. -/
def Within (u : BitTrie B) : BitTrie B → Prop
  | .empty => u = .empty
  | .node x rest left right =>
      u = .node x rest left right ∨ Within u left ∨ Within u right

theorem within_refl (t : BitTrie B) : Within t t := by
  cases t with
  | empty => rfl
  | node x rest left right => exact Or.inl rfl

theorem Within.heads_subset (h : Within u t) : u.heads ⊆ t.heads := by
  induction t with
  | empty =>
    rw [show u = .empty from h]
    exact fun y hy => hy
  | node x rest left right ihl ihr =>
    intro y hy
    rw [heads_node, mem_cons, mem_append]
    rcases h with rfl | h | h
    · simpa using hy
    · exact Or.inr (Or.inl (ihl h hy))
    · exact Or.inr (Or.inr (ihr h hy))

theorem Within.blocks_subset (h : Within u t) : u.blocks ⊆ t.blocks := by
  induction t with
  | empty =>
    rw [show u = .empty from h]
    exact fun y hy => hy
  | node x rest left right ihl ihr =>
    rcases h with rfl | h | h
    · exact fun y hy => hy
    · exact fun y hy => left_subset x rest left right (ihl h hy)
    · exact fun y hy => right_subset x rest left right (ihr h hy)

theorem Within.ordered {key : B → ℕ} {k p : ℕ} (h : Within u t) (ho : Ordered key k p t)
    : ∃ k' p', k' ≤ k ∧ Ordered key k' p' u := by
  induction t generalizing k p with
  | empty =>
    rw [show u = .empty from h]
    exact ⟨k, p, Nat.le_refl k, ho⟩
  | node x rest left right ihl ihr =>
    rcases h with rfl | h | h
    · exact ⟨k, p, Nat.le_refl k, ho⟩
    · obtain ⟨k', p', hk, ho'⟩ := ihl h ho.2.2.2.2.1
      exact ⟨k', p', by omega, ho'⟩
    · obtain ⟨k', p', hk, ho'⟩ := ihr h ho.2.2.2.2.2
      exact ⟨k', p', by omega, ho'⟩

section Way

variable (key : B → ℕ) (n : ℕ)

def way : ℕ → BitTrie B → List B
  | _, .empty => []
  | k, .node x _ left right =>
      x :: (if key x = n then []
        else if n.testBit (k - 1) then way (k - 1) right else way (k - 1) left)

def aside : ℕ → BitTrie B → BitTrie B → BitTrie B
  | _, .empty, u => u
  | k, .node x _ left right, u =>
      if key x = n then u
      else if n.testBit (k - 1) then aside (k - 1) right u
      else aside (k - 1) left (if right.isEmpty then u else right)

variable {key} {n}

theorem way_subset (k : ℕ) (t : BitTrie B) : way key n k t ⊆ t.heads := by
  induction t generalizing k with
  | empty => simp [way]
  | node x rest left right ihl ihr =>
    intro y hy
    unfold way at hy
    rw [heads_node, mem_cons, mem_append]
    rcases mem_cons.mp hy with rfl | hy
    · exact Or.inl rfl
    · split at hy
      · simp at hy
      · split at hy
        · exact Or.inr (Or.inr (ihr (k - 1) hy))
        · exact Or.inr (Or.inl (ihl (k - 1) hy))

theorem aside_cases {k p : ℕ} {t : BitTrie B} (h : Ordered key k p t) (hn : n / 2 ^ k = p)
    (u : BitTrie B) : aside key n k t u = u ∨ aside key n k t u ≠ .empty ∧
      Within (aside key n k t u) t ∧ ∀ z ∈ (aside key n k t u).blocks, n < key z := by
  induction t generalizing k p u with
  | empty => exact Or.inl rfl
  | node x rest left right ihl ihr =>
    have hright := h.testBit_right
    obtain ⟨hx, -, -, hzero, hl, hr⟩ := h
    unfold aside
    by_cases hkey : key x = n
    · exact Or.inl (if_pos hkey)
    · rw [if_neg hkey]
      have hk : k ≠ 0 := by
        intro hk
        subst hk
        simp only [Nat.pow_zero, Nat.div_one] at hx hn
        exact hkey (hx.trans hn.symm)
      have hbits := div_two_pow_pred (n := n) hk
      rw [hn] at hbits
      cases hbit : n.testBit (k - 1) with
      | true =>
        rw [if_pos (rfl : true = true)]
        rw [hbit] at hbits
        rcases ihr hr hbits u with hu | ⟨hne, hsub, hlt⟩
        · exact Or.inl hu
        · exact Or.inr ⟨hne, Or.inr (Or.inr hsub), hlt⟩
      | false =>
        rw [if_neg Bool.false_ne_true]
        rw [hbit] at hbits
        rcases ihl hl hbits (if right.isEmpty then u else right) with hu | ⟨hne, hsub, hlt⟩
        · by_cases hre : right = .empty
          · subst hre
            exact Or.inl hu
          · rw [isEmpty_eq_false hre, if_neg Bool.false_ne_true] at hu ⊢
            rw [hu]
            refine Or.inr ⟨hre, Or.inr (Or.inr (within_refl right)), ?_⟩
            intro z hz
            apply lt_of_div_lt (k := k - 1)
            rw [hr.div_eq z hz, hbits]
            simp
        · exact Or.inr ⟨hne, Or.inr (Or.inl hsub), hlt⟩

theorem way_or_aside {k p : ℕ} {t : BitTrie B} (h : Ordered key k p t) (hn : n / 2 ^ k = p)
    (hmiss : ∀ x ∈ way key n k t, key x ≠ n) (u : BitTrie B) {y : B} (hy : y ∈ t.blocks)
    (hny : n ≤ key y) : (∃ x ∈ way key n k t, key x = key y) ∨
      aside key n k t u ≠ .empty ∧ (y ∈ (aside key n k t u).blocks ∨
        ∀ z ∈ (aside key n k t u).blocks, key z < key y) := by
  induction t generalizing k p u with
  | empty => simp at hy
  | node x rest left right ihl ihr =>
    have hlr := h.left_lt_right
    obtain ⟨hx, hrest, -, hzero, hl, hr⟩ := h
    have hkey : key x ≠ n := hmiss x mem_cons_self
    have hk : k ≠ 0 := by
      intro hk
      subst hk
      simp only [Nat.pow_zero, Nat.div_one] at hx hn
      exact hkey (hx.trans hn.symm)
    have hbits := div_two_pow_pred (n := n) hk
    rw [hn] at hbits
    unfold way at hmiss ⊢
    unfold aside
    rw [if_neg hkey] at hmiss ⊢
    rw [if_neg hkey]
    simp only [blocks_node, mem_cons, mem_append] at hy
    have hroot : y = x ∨ y ∈ rest → ∃ z ∈ x :: (if n.testBit (k - 1) then way key n (k - 1) right
        else way key n (k - 1) left), key z = key y := by
      rintro (rfl | hy)
      · exact ⟨y, mem_cons_self, rfl⟩
      · exact ⟨x, mem_cons_self, (hrest y hy).symm⟩
    cases hbit : n.testBit (k - 1) with
    | true =>
      rw [hbit] at hbits hroot hmiss
      simp only [if_true] at hroot hmiss ⊢
      rcases hy with hy | hy | hy | hy
      · exact Or.inl (hroot (Or.inl hy))
      · exact Or.inl (hroot (Or.inr hy))
      · -- the keys on the left are smaller than the number
        have hlt : key y < n := by
          apply lt_of_div_lt (k := k - 1)
          rw [hl.div_eq y hy, hbits]
          simp
        omega
      · rcases ihr hr hbits (fun z hz => hmiss z (mem_cons_of_mem x hz)) u hy with
          ⟨z, hz, he⟩ | hu
        · exact Or.inl ⟨z, mem_cons_of_mem x hz, he⟩
        · exact Or.inr hu
    | false =>
      rw [hbit] at hbits hroot hmiss
      simp only [Bool.false_eq_true, if_false] at hroot hmiss ⊢
      rcases hy with hy | hy | hy | hy
      · exact Or.inl (hroot (Or.inl hy))
      · exact Or.inl (hroot (Or.inr hy))
      · rcases ihl hl hbits (fun z hz => hmiss z (mem_cons_of_mem x hz))
          (if right.isEmpty then u else right) hy with ⟨z, hz, he⟩ | hu
        · exact Or.inl ⟨z, mem_cons_of_mem x hz, he⟩
        · exact Or.inr hu
      · -- the right subtree is left aside here, or one further down with smaller keys
        have hre : right ≠ .empty := by
          intro he
          rw [he] at hy
          simp at hy
        rw [isEmpty_eq_false hre, if_neg Bool.false_ne_true]
        right
        rcases aside_cases hl hbits right with hu | ⟨hne, hsub, -⟩
        · rw [hu]
          exact ⟨hre, Or.inl hy⟩
        · exact ⟨hne, Or.inr fun z hz => hlr z (hsub.blocks_subset hz) y hy⟩

end Way

def spine : BitTrie B → List B
  | .empty => []
  | .node x _ left right => x :: (if left.isEmpty then [] else spine right)

theorem spine_subset (t : BitTrie B) : t.spine ⊆ t.heads := by
  induction t with
  | empty => simp [spine]
  | node x rest left right _ ihr =>
    intro y hy
    unfold spine at hy
    rw [heads_node, mem_cons, mem_append]
    rcases mem_cons.mp hy with rfl | hy
    · exact Or.inl rfl
    · split at hy
      · simp at hy
      · exact Or.inr (Or.inr (ihr hy))

theorem root?_mem_spine {x : B} (h : t.root? = some x) : x ∈ t.spine := by
  cases t with
  | empty => exact nomatch h
  | node y rest left right =>
    obtain rfl := Option.some.inj h
    exact mem_cons_self

theorem Ordered.exists_lt_spine {key : B → ℕ} {k p : ℕ} (h : Ordered key k p t) {y : B}
    (hy : y ∈ t.spine) (hroot : t.root? ≠ some y) : ∃ z ∈ t.heads, key z < key y := by
  cases t with
  | empty => simp [spine] at hy
  | node x rest left right =>
    have hlr := h.left_lt_right
    unfold spine at hy
    rcases mem_cons.mp hy with rfl | hy
    · exact absurd rfl hroot
    · cases left with
      | empty => simp at hy
      | node z s l r =>
        have hyr := heads_subset right (spine_subset right hy)
        exact ⟨z, by simp, hlr z (by simp) y hyr⟩

end Reasoning.BitTrie
