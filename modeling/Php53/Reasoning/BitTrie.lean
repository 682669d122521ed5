import Mathlib.Data.Nat.Bitwise
import Mathlib.Data.List.Perm.Basic
import Mathlib.Data.List.Nodup
import Mathlib.Data.List.Pairwise

/-!
# BitTrie — binary tries over numeric keys, with a class of equals at each node

A node holds one element of every key it stands for (`head`) and the list of the others that have
the same key (`rest`).  Below the node the two subtrees split on the next bit of the key, so that
the inner nodes hold keys as well as the leaves.  `Ordered key k p t` says that `t` is such a trie
for the keys whose bits from position `k` up are the number `p`.
-/

namespace Reasoning

open List

inductive BitTrie (B : Type)
  | empty
  | node (head : B) (rest : List B) (left right : BitTrie B)

namespace BitTrie

variable {B : Type}

variable {t : BitTrie B} {k n : ℕ} {c : B × List B} {rest : List B}

def heads : BitTrie B → List B
  | .empty => []
  | .node x _ left right => x :: (left.heads ++ right.heads)

def blocks : BitTrie B → List B
  | .empty => []
  | .node x rest left right => x :: (rest ++ (left.blocks ++ right.blocks))

def rings : BitTrie B → List (B × List B)
  | .empty => []
  | .node x rest left right => (x, rest) :: (left.rings ++ right.rings)

@[simp] theorem heads_empty : (empty : BitTrie B).heads = [] := rfl

@[simp] theorem blocks_empty : (empty : BitTrie B).blocks = [] := rfl

@[simp] theorem rings_empty : (empty : BitTrie B).rings = [] := rfl

@[simp] theorem heads_node (x : B) (rest : List B) (left right : BitTrie B) :
    (node x rest left right).heads = x :: (left.heads ++ right.heads) := rfl

@[simp] theorem blocks_node (x : B) (rest : List B) (left right : BitTrie B) :
    (node x rest left right).blocks = x :: (rest ++ (left.blocks ++ right.blocks)) := rfl

@[simp] theorem rings_node (x : B) (rest : List B) (left right : BitTrie B) :
    (node x rest left right).rings = (x, rest) :: (left.rings ++ right.rings) := rfl

theorem heads_subset (t : BitTrie B) : t.heads ⊆ t.blocks := by
  induction t with
  | empty => simp
  | node x rest left right ihl ihr =>
    intro y hy
    simp only [heads_node, blocks_node, mem_cons, mem_append] at hy ⊢
    rcases hy with hy | hy | hy
    · exact Or.inl hy
    · exact Or.inr (Or.inr (Or.inl (ihl hy)))
    · exact Or.inr (Or.inr (Or.inr (ihr hy)))

theorem mem_blocks_iff {y : B} :
    y ∈ t.blocks ↔ ∃ c ∈ t.rings, y ∈ c.1 :: c.2 := by
  induction t with
  | empty => simp
  | node x rest left right ihl ihr =>
    simp only [blocks_node, rings_node, mem_cons, mem_append, ihl, ihr]
    constructor
    · rintro (h | h | ⟨c, hc, h⟩ | ⟨c, hc, h⟩)
      · exact ⟨(x, rest), Or.inl rfl, Or.inl h⟩
      · exact ⟨(x, rest), Or.inl rfl, Or.inr h⟩
      · exact ⟨c, Or.inr (Or.inl hc), h⟩
      · exact ⟨c, Or.inr (Or.inr hc), h⟩
    · rintro ⟨c, rfl | hc | hc, h⟩
      · exact h.imp_right Or.inl
      · exact Or.inr (Or.inr (Or.inl ⟨c, hc, h⟩))
      · exact Or.inr (Or.inr (Or.inr ⟨c, hc, h⟩))

theorem heads_eq_map (t : BitTrie B) : t.heads = t.rings.map Prod.fst := by
  induction t with
  | empty => rfl
  | node x rest left right ihl ihr => simp [ihl, ihr]

theorem mem_heads_of_ring {t : BitTrie B} (hc : c ∈ t.rings) : c.1 ∈ t.heads := by
  rw [heads_eq_map]
  exact mem_map_of_mem hc

theorem left_subset (x : B) (rest : List B) (left right : BitTrie B) :
    left.blocks ⊆ (node x rest left right).blocks := by
  intro y hy
  simp [hy]

theorem right_subset (x : B) (rest : List B) (left right : BitTrie B) :
    right.blocks ⊆ (node x rest left right).blocks := by
  intro y hy
  simp [hy]

theorem blocks_perm_flatMap (t : BitTrie B) :
    t.blocks.Perm (t.rings.flatMap fun c => c.1 :: c.2) := by
  induction t with
  | empty => simp
  | node x rest left right ihl ihr =>
    simp only [blocks_node, rings_node, flatMap_cons, flatMap_append, cons_append]
    exact ((ihl.append ihr).append_left rest).cons x

theorem rings_disjoint (hnd : t.blocks.Nodup) {d : B × List B} (hc : c ∈ t.rings) (hd : d ∈ t.rings)
    {y : B} (hyc : y ∈ c.1 :: c.2) (hyd : y ∈ d.1 :: d.2) :
    c = d := by
  rw [(blocks_perm_flatMap t).nodup_iff, nodup_flatMap] at hnd
  have hsymm : Std.Symm (Function.onFun List.Disjoint fun c : B × List B => c.1 :: c.2) :=
    ⟨fun _ _ h _ hy hx => h hx hy⟩
  by_contra hne
  exact hnd.2.forall hc hd hne hyc hyd

theorem nodup_ring (hnd : t.blocks.Nodup) (hc : c ∈ t.rings) :
    (c.1 :: c.2).Nodup := by
  rw [(blocks_perm_flatMap t).nodup_iff, nodup_flatMap] at hnd
  exact hnd.1 c hc

theorem nodup_node {x : B} {left right : BitTrie B} (h : (node x rest left right).blocks.Nodup) :
    x ∉ rest ∧ x ∉ left.blocks ∧ x ∉ right.blocks ∧ rest.Nodup ∧ left.blocks.Nodup ∧
      right.blocks.Nodup ∧ (∀ y ∈ left.blocks, y ∉ right.blocks) ∧
      ∀ y ∈ rest, y ∉ left.blocks ∧ y ∉ right.blocks := by
  simp only [blocks_node, nodup_cons, nodup_append', mem_append, not_or,
    disjoint_left] at h
  obtain ⟨⟨h1, h2, h3⟩, h4, ⟨h5, h6, h7⟩, h8⟩ := h
  exact ⟨h1, h2, h3, h4, h5, h6, fun y hy => h7 hy, fun y hy => h8 hy⟩

theorem div_two_pow_pred (hk : k ≠ 0) :
    n / 2 ^ (k - 1) = 2 * (n / 2 ^ k) + (n.testBit (k - 1)).toNat := by
  obtain ⟨k, rfl⟩ := Nat.exists_eq_succ_of_ne_zero hk
  rw [Nat.succ_sub_one, Nat.testBit_eq_decide_div_mod_eq, Nat.pow_succ, ← Nat.div_div_eq_div_mul]
  have hm := Nat.div_add_mod (n / 2 ^ k) 2
  have hb : n / 2 ^ k % 2 = 0 ∨ n / 2 ^ k % 2 = 1 := Nat.mod_two_eq_zero_or_one _
  rcases hb with hb | hb
  · simp [hb]
    omega
  · simp [hb]
    omega

theorem testBit_of_div {p : ℕ} {c : Bool} (hk : k ≠ 0) (h : n / 2 ^ (k - 1) = 2 * p + c.toNat)
    : n.testBit (k - 1) = c ∧ n / 2 ^ k = p := by
  rw [div_two_pow_pred hk] at h
  cases c <;> cases hb : n.testBit (k - 1) <;> simp [hb] at h ⊢ <;> omega

theorem lt_of_div_lt {m : ℕ} (h : m / 2 ^ k < n / 2 ^ k) : m < n := by
  by_contra hle
  exact absurd (Nat.div_le_div_right (c := 2 ^ k) (Nat.le_of_not_lt hle)) (Nat.not_le.mpr h)

section Ordered

variable (key : B → ℕ)

variable {left right t : BitTrie B} {x : B} {rest : List B}

/-- `t` holds keys with `key / 2 ^ k = p`; equal keys share a node, and bit `k - 1` chooses the
    side. -/
def Ordered : ℕ → ℕ → BitTrie B → Prop
  | _, _, .empty => True
  | k, p, .node x rest left right =>
      key x / 2 ^ k = p ∧ (∀ y ∈ rest, key y = key x) ∧
        (∀ y ∈ left.blocks ++ right.blocks, key y ≠ key x) ∧
        (k = 0 → left = .empty ∧ right = .empty) ∧
        Ordered (k - 1) (2 * p) left ∧ Ordered (k - 1) (2 * p + 1) right

variable {key} {k p : ℕ}

@[simp] theorem ordered_empty : Ordered key k p (.empty : BitTrie B) := trivial

theorem Ordered.div_eq (h : Ordered key k p t) :
    ∀ y ∈ t.blocks, key y / 2 ^ k = p := by
  induction t generalizing k p with
  | empty => simp
  | node x rest left right ihl ihr =>
    obtain ⟨hx, hrest, -, hzero, hl, hr⟩ := h
    intro y hy
    simp only [blocks_node, mem_cons, mem_append] at hy
    by_cases hk : k = 0
    · obtain ⟨rfl, rfl⟩ := hzero hk
      rcases hy with rfl | hy | hy | hy
      · exact hx
      · rw [hrest y hy, hx]
      · simp at hy
      · simp at hy
    · rcases hy with rfl | hy | hy | hy
      · exact hx
      · rw [hrest y hy, hx]
      · exact (testBit_of_div (c := false) hk (ihl hl y hy)).2
      · exact (testBit_of_div (c := true) hk (ihr hr y hy)).2

theorem Ordered.congr {key' : B → ℕ} (h : Ordered key k p t) (hkey : ∀ y ∈ t.blocks, key' y = key y)
    : Ordered key' k p t := by
  induction t generalizing k p with
  | empty => exact h
  | node x rest left right ihl ihr =>
    obtain ⟨hx, hrest, hapart, hzero, hl, hr⟩ := h
    have hkx := hkey x (by simp)
    refine ⟨hkx ▸ hx, ?_, ?_, hzero, ihl hl ?_, ihr hr ?_⟩
    · intro y hy
      rw [hkx, hkey y (by simp [hy])]
      exact hrest y hy
    · intro y hy
      rw [hkx, hkey y (by simp [mem_append.mp hy])]
      exact hapart y hy
    · exact fun y hy => hkey y (by simp [hy])
    · exact fun y hy => hkey y (by simp [hy])

theorem Ordered.testBit_left (h : Ordered key k p (.node x rest left right)) :
    ∀ y ∈ left.blocks, (key y).testBit (k - 1) = false := by
  obtain ⟨-, -, -, hzero, hl, -⟩ := h
  intro y hy
  by_cases hk : k = 0
  · rw [(hzero hk).1] at hy
    simp at hy
  · exact (testBit_of_div (c := false) hk (hl.div_eq y hy)).1

theorem Ordered.testBit_right (h : Ordered key k p (.node x rest left right)) :
    ∀ y ∈ right.blocks, (key y).testBit (k - 1) = true := by
  obtain ⟨-, -, -, hzero, -, hr⟩ := h
  intro y hy
  by_cases hk : k = 0
  · rw [(hzero hk).2] at hy
    simp at hy
  · exact (testBit_of_div (c := true) hk (hr.div_eq y hy)).1

theorem Ordered.left_lt_right (h : Ordered key k p (.node x rest left right)) :
    ∀ y ∈ left.blocks, ∀ z ∈ right.blocks, key y < key z := by
  obtain ⟨-, -, -, -, hl, hr⟩ := h
  intro y hy z hz
  apply lt_of_div_lt (k := k - 1)
  rw [hl.div_eq y hy, hr.div_eq z hz]
  omega

theorem Ordered.ring_eq (h : Ordered key k p t) :
    ∀ c ∈ t.rings, ∀ y ∈ c.2, key y = key c.1 := by
  induction t generalizing k p with
  | empty => simp
  | node x rest left right ihl ihr =>
    obtain ⟨-, hrest, -, -, hl, hr⟩ := h
    intro c hc
    simp only [rings_node, mem_cons, mem_append] at hc
    rcases hc with rfl | hc | hc
    · exact hrest
    · exact ihl hl c hc
    · exact ihr hr c hc

theorem Ordered.keys_nodup (h : Ordered key k p t) :
    (t.heads.map key).Nodup := by
  induction t generalizing k p with
  | empty => simp
  | node x rest left right ihl ihr =>
    have hlt := h.left_lt_right
    obtain ⟨-, -, hapart, -, hl, hr⟩ := h
    simp only [heads_node, map_cons, map_append, nodup_cons, nodup_append']
    constructor
    · simp only [mem_append, mem_map, not_or, not_exists, not_and]
      constructor
      · intro y hy
        exact hapart y (mem_append_left _ (heads_subset left hy))
      · intro y hy
        exact hapart y (mem_append_right _ (heads_subset right hy))
    · refine ⟨ihl hl, ihr hr, ?_⟩
      intro n hn hn'
      simp only [mem_map] at hn hn'
      obtain ⟨y, hy, rfl⟩ := hn
      obtain ⟨z, hz, hyz⟩ := hn'
      have := hlt y (heads_subset left hy) z (heads_subset right hz)
      omega

end Ordered

section Insert

variable (key : B → ℕ) (b : B)

/-- `b` joins the class of its key, or becomes a leaf where its bits lead. -/
def insert : ℕ → BitTrie B → BitTrie B
  | _, .empty => .node b [] .empty .empty
  | k, .node x rest left right =>
      if key x = key b then .node x (b :: rest) left right
      else if (key b).testBit (k - 1) then .node x rest left (insert (k - 1) right)
      else .node x rest (insert (k - 1) left) right

variable {key} {b}

theorem blocks_insert (k : ℕ) (t : BitTrie B) : (t.insert key b k).blocks.Perm (b :: t.blocks) := by
  induction t generalizing k with
  | empty => simp [insert]
  | node x rest left right ihl ihr =>
    unfold insert
    split
    · exact List.Perm.swap _ _ _
    · split
      · apply List.Perm.trans _ (List.Perm.swap _ _ _)
        apply List.Perm.cons
        have h := (ihr (k - 1)).append_left (rest ++ left.blocks)
        simp only [append_assoc] at h
        apply h.trans
        rw [← append_assoc, ← append_assoc]
        exact perm_middle
      · apply List.Perm.trans _ (List.Perm.swap _ _ _)
        apply List.Perm.cons
        have h := ((ihl (k - 1)).append_right right.blocks).append_left rest
        apply h.trans
        exact perm_middle

theorem Ordered.insert {k p : ℕ} {t : BitTrie B} (h : Ordered key k p t)
    (hb : key b / 2 ^ k = p) : Ordered key k p (t.insert key b k) := by
  induction t generalizing k p with
  | empty => exact ⟨hb, by simp, by simp, by simp, trivial, trivial⟩
  | node x rest left right ihl ihr =>
    obtain ⟨hx, hrest, hapart, hzero, hl, hr⟩ := h
    unfold BitTrie.insert
    by_cases hxb : key x = key b
    · rw [if_pos hxb]
      refine ⟨hx, ?_, hapart, hzero, hl, hr⟩
      intro y hy
      rcases mem_cons.mp hy with rfl | hy
      · exact hxb.symm
      · exact hrest y hy
    · rw [if_neg hxb]
      have hk : k ≠ 0 := by
        intro hk
        subst hk
        simp only [Nat.pow_zero, Nat.div_one] at hx hb
        exact hxb (hx.trans hb.symm)
      have hbits := div_two_pow_pred (n := key b) hk
      rw [hb] at hbits
      cases hbit : (key b).testBit (k - 1) with
      | true =>
        rw [if_pos rfl]
        rw [hbit] at hbits
        refine ⟨hx, hrest, ?_, fun he => absurd he hk, hl, ihr hr hbits⟩
        intro y hy
        rcases mem_append.mp hy with hy | hy
        · exact hapart y (mem_append_left _ hy)
        · rcases mem_cons.mp ((blocks_insert (k - 1) right).mem_iff.mp hy) with rfl | hy
          · exact fun he => hxb he.symm
          · exact hapart y (mem_append_right _ hy)
      | false =>
        rw [if_neg Bool.false_ne_true]
        rw [hbit] at hbits
        refine ⟨hx, hrest, ?_, fun he => absurd he hk, ihl hl hbits, hr⟩
        intro y hy
        rcases mem_append.mp hy with hy | hy
        · rcases mem_cons.mp ((blocks_insert (k - 1) left).mem_iff.mp hy) with rfl | hy
          · exact fun he => hxb he.symm
          · exact hapart y (mem_append_left _ hy)
        · exact hapart y (mem_append_right _ hy)

end Insert

section Replace

variable [DecidableEq B]

variable {b : B} {t u : BitTrie B}

/-- The subtree whose node is `b`. -/
def find (b : B) : BitTrie B → BitTrie B
  | .empty => .empty
  | .node x rest left right =>
      if x = b then .node x rest left right
      else if b ∈ left.heads then find b left else find b right

/-- `u` in the place of the subtree whose node is `b`. -/
def replace (t : BitTrie B) (b : B) (u : BitTrie B) : BitTrie B :=
  match t with
  | .empty => .empty
  | .node x rest left right =>
      if x = b then u else .node x rest (left.replace b u) (right.replace b u)

@[simp] theorem find_here (b : B) (rest : List B) (left right : BitTrie B) :
    (node b rest left right).find b = .node b rest left right := if_pos rfl

@[simp] theorem replace_here (b : B) (rest : List B) (left right u : BitTrie B) :
    (node b rest left right).replace b u = u := if_pos rfl

theorem replace_of_not_mem (h : b ∉ t.heads) : t.replace b u = t := by
  induction t with
  | empty => rfl
  | node x rest left right ihl ihr =>
    simp only [heads_node, mem_cons, mem_append, not_or] at h
    unfold replace
    rw [if_neg (Ne.symm h.1), ihl h.2.1, ihr h.2.2]

theorem find_eq (h : b ∈ t.heads) :
    ∃ rest left right, t.find b = .node b rest left right ∧ (b, rest) ∈ t.rings := by
  induction t with
  | empty => simp at h
  | node x rest left right ihl ihr =>
    unfold find
    by_cases hx : x = b
    · subst hx
      exact ⟨rest, left, right, if_pos rfl, by simp⟩
    · rw [if_neg hx]
      by_cases hl : b ∈ left.heads
      · rw [if_pos hl]
        obtain ⟨r, l', r', he, hm⟩ := ihl hl
        exact ⟨r, l', r', he, by simp [hm]⟩
      · rw [if_neg hl]
        have hr : b ∈ right.heads := by
          simp only [heads_node, mem_cons, mem_append] at h
          rcases h with h | h | h
          · exact absurd h.symm hx
          · exact absurd h hl
          · exact h
        obtain ⟨r, l', r', he, hm⟩ := ihr hr
        exact ⟨r, l', r', he, by simp [hm]⟩

theorem find_of_ring {s : List B} (hnd : t.blocks.Nodup) (hc : (b, s) ∈ t.rings) :
    ∃ left right, t.find b = .node b s left right := by
  obtain ⟨rest, left, right, hfind, hr⟩ := find_eq (mem_heads_of_ring hc)
  obtain rfl : rest = s :=
    (Prod.mk.inj (rings_disjoint hnd hr hc mem_cons_self mem_cons_self)).2
  exact ⟨left, right, hfind⟩

theorem find_sublist (b : B) (t : BitTrie B) : (t.find b).blocks.Sublist t.blocks := by
  induction t with
  | empty => simp [find]
  | node x rest left right ihl ihr =>
    unfold find
    split
    · exact List.Sublist.refl _
    · apply List.Sublist.cons
      apply List.Sublist.trans _ (sublist_append_right _ _)
      split
      · exact ihl.trans (sublist_append_left _ _)
      · exact ihr.trans (sublist_append_right _ _)

theorem find_replace_side {x : B} {left right : BitTrie B}
    (hnd : (node x rest left right).blocks.Nodup) (hx : x ≠ b)
    (hb : b ∈ (node x rest left right).heads) :
    (b ∈ left.heads ∧ (node x rest left right).find b = left.find b ∧
      (node x rest left right).replace b u = .node x rest (left.replace b u) right) ∨
    (b ∈ right.heads ∧ (node x rest left right).find b = right.find b ∧
      (node x rest left right).replace b u = .node x rest left (right.replace b u)) := by
  obtain ⟨-, -, -, -, -, -, hdisj, -⟩ := nodup_node hnd
  by_cases hl : b ∈ left.heads
  · left
    have hr : b ∉ right.heads := fun hr => hdisj b (heads_subset left hl) (heads_subset right hr)
    refine ⟨hl, ?_, ?_⟩
    · rw [find, if_neg hx, if_pos hl]
    · rw [replace, if_neg hx, replace_of_not_mem hr]
  · right
    have hr : b ∈ right.heads := by
      simp only [heads_node, mem_cons, mem_append] at hb
      rcases hb with hb | hb | hb
      · exact absurd hb.symm hx
      · exact absurd hb hl
      · exact hb
    refine ⟨hr, ?_, ?_⟩
    · rw [find, if_neg hx, if_neg hl]
    · rw [replace, if_neg hx, replace_of_not_mem hl]

theorem blocks_replace {gone : List B} (hnd : t.blocks.Nodup) (hb : b ∈ t.heads)
    (hu : (t.find b).blocks.Perm (gone ++ u.blocks)) :
    t.blocks.Perm (gone ++ (t.replace b u).blocks) := by
  induction t with
  | empty => simp at hb
  | node x rest left right ihl ihr =>
    by_cases hx : x = b
    · subst hx
      rw [find_here] at hu
      rw [replace_here]
      exact hu
    · obtain ⟨-, -, -, -, hndl, hndr, -, -⟩ := nodup_node hnd
      rcases find_replace_side (u := u) hnd hx hb with ⟨hm, hf, hr⟩ | ⟨hm, hf, hr⟩
      · rw [hr]
        rw [hf] at hu
        have h := ihl hndl hm hu
        calc (node x rest left right).blocks
            _ = (x :: rest) ++ (left.blocks ++ right.blocks) := rfl
            _ |>.Perm ((x :: rest) ++ ((gone ++ (left.replace b u).blocks) ++ right.blocks)) :=
                (h.append_right _).append_left _
            _ |>.Perm (gone ++ ((x :: rest) ++ ((left.replace b u).blocks ++ right.blocks))) := by
                rw [append_assoc, ← append_assoc (x :: rest),
                  ← append_assoc gone]
                exact perm_append_comm.append_right _
      · rw [hr]
        rw [hf] at hu
        have h := ihr hndr hm hu
        calc (node x rest left right).blocks
            _ = (x :: rest) ++ (left.blocks ++ right.blocks) := rfl
            _ |>.Perm ((x :: rest) ++ (left.blocks ++ (gone ++ (right.replace b u).blocks))) :=
                (h.append_left _).append_left _
            _ |>.Perm (gone ++ ((x :: rest) ++ (left.blocks ++ (right.replace b u).blocks))) := by
                rw [← append_assoc (x :: rest), ← append_assoc (x :: rest) left.blocks,
                  ← append_assoc, ← append_assoc gone]
                exact perm_append_comm.append_right _

theorem replace_subset (hsub : u.blocks ⊆ (t.find b).blocks) :
    (t.replace b u).blocks ⊆ t.blocks := by
  have hmem : ∀ (v : BitTrie B) (y : B), y ∈ (v.replace b u).blocks →
      y ∈ v.blocks ∨ y ∈ u.blocks := by
    intro v y
    induction v with
    | empty => exact Or.inl
    | node z r left right ihl ihr =>
      unfold replace
      split
      · exact Or.inr
      · intro hy
        simp only [blocks_node, mem_cons, mem_append] at hy ⊢
        tauto
  intro y hy
  rcases hmem t y hy with hy | hy
  · exact hy
  · exact (find_sublist b t).subset (hsub hy)

theorem Ordered.find {key : B → ℕ} {k p : ℕ} (h : Ordered key k p t) (b : B) :
    ∃ k' p', k' ≤ k ∧ Ordered key k' p' (t.find b) := by
  induction t generalizing k p with
  | empty => exact ⟨k, p, Nat.le_refl k, h⟩
  | node x rest left right ihl ihr =>
    unfold BitTrie.find
    split
    · exact ⟨k, p, Nat.le_refl k, h⟩
    · obtain ⟨-, -, -, -, hl, hr⟩ := h
      split
      · obtain ⟨k', p', hk, ho⟩ := ihl hl
        exact ⟨k', p', by omega, ho⟩
      · obtain ⟨k', p', hk, ho⟩ := ihr hr
        exact ⟨k', p', by omega, ho⟩

theorem mem_rings_replace (hnd : t.blocks.Nodup) (hb : b ∈ t.heads)
    (hc : c ∈ (t.replace b u).rings) :
    c ∈ u.rings ∨ c ∈ t.rings ∧ c.1 ∉ (t.find b).blocks := by
  induction t with
  | empty => simp at hb
  | node x rest left right ihl ihr =>
    by_cases hx : x = b
    · subst hx
      rw [replace_here] at hc
      exact Or.inl hc
    · obtain ⟨-, hxl, hxr, -, hndl, hndr, hdisj, -⟩ := nodup_node hnd
      rcases find_replace_side (u := u) hnd hx hb with ⟨hm, hf, hrep⟩ | ⟨hm, hf, hrep⟩
      · have hsub := (find_sublist b left).subset
        rw [hrep, rings_node, mem_cons, mem_append] at hc
        rw [hf, rings_node, mem_cons, mem_append]
        rcases hc with rfl | hc | hc
        · exact Or.inr ⟨Or.inl rfl, fun hmem => hxl (hsub hmem)⟩
        · rcases ihl hndl hm hc with h | ⟨h, h'⟩
          · exact Or.inl h
          · exact Or.inr ⟨Or.inr (Or.inl h), h'⟩
        · have hcr : c.1 ∈ right.blocks := mem_blocks_iff.mpr ⟨c, hc, mem_cons_self⟩
          exact Or.inr ⟨Or.inr (Or.inr hc), fun hmem => hdisj c.1 (hsub hmem) hcr⟩
      · have hsub := (find_sublist b right).subset
        rw [hrep, rings_node, mem_cons, mem_append] at hc
        rw [hf, rings_node, mem_cons, mem_append]
        rcases hc with rfl | hc | hc
        · exact Or.inr ⟨Or.inl rfl, fun hmem => hxr (hsub hmem)⟩
        · have hcl : c.1 ∈ left.blocks := mem_blocks_iff.mpr ⟨c, hc, mem_cons_self⟩
          exact Or.inr ⟨Or.inr (Or.inl hc), fun hmem => hdisj c.1 hcl (hsub hmem)⟩
        · rcases ihr hndr hm hc with h | ⟨h, h'⟩
          · exact Or.inl h
          · exact Or.inr ⟨Or.inr (Or.inr h), h'⟩

theorem find_rings_subset (b : B) (t : BitTrie B) : (t.find b).rings ⊆ t.rings := by
  induction t with
  | empty => simp [find]
  | node x rest left right ihl ihr =>
    unfold find
    split
    · exact fun c hc => hc
    · intro c hc
      rw [rings_node, mem_cons, mem_append]
      split at hc
      · exact Or.inr (Or.inl (ihl hc))
      · exact Or.inr (Or.inr (ihr hc))

theorem Ordered.replace {key : B → ℕ} {k p : ℕ} (h : Ordered key k p t) (hnd : t.blocks.Nodup)
    (hb : b ∈ t.heads) (hsub : u.blocks ⊆ (t.find b).blocks)
    (hu : ∀ k p, Ordered key k p (t.find b) → Ordered key k p u) :
    Ordered key k p (t.replace b u) := by
  induction t generalizing k p with
  | empty => simp at hb
  | node x rest left right ihl ihr =>
    by_cases hx : x = b
    · subst hx
      rw [find_here] at hu
      rw [replace_here]
      exact hu k p h
    · obtain ⟨-, -, -, -, hndl, hndr, -, -⟩ := nodup_node hnd
      obtain ⟨hpx, hrest, hapart, hzero, hl, hr⟩ := h
      rcases find_replace_side (u := u) hnd hx hb with ⟨hm, hf, hrep⟩ | ⟨hm, hf, hrep⟩
      · rw [hrep]
        rw [hf] at hu hsub
        refine ⟨hpx, hrest, ?_, ?_, ihl hl hndl hm hsub hu, hr⟩
        · intro y hy
          apply hapart y
          rcases mem_append.mp hy with hy | hy
          · exact mem_append_left _ (replace_subset hsub hy)
          · exact mem_append_right _ hy
        · intro hk
          rw [(hzero hk).1] at hm
          simp at hm
      · rw [hrep]
        rw [hf] at hu hsub
        refine ⟨hpx, hrest, ?_, ?_, hl, ihr hr hndr hm hsub hu⟩
        · intro y hy
          apply hapart y
          rcases mem_append.mp hy with hy | hy
          · exact mem_append_left _ hy
          · exact mem_append_right _ (replace_subset hsub hy)
        · intro hk
          rw [(hzero hk).2] at hm
          simp at hm

end Replace

section Leaf

variable {t : BitTrie B} {key : B → ℕ}

def isEmpty : BitTrie B → Bool
  | .empty => true
  | .node .. => false

@[simp] theorem isEmpty_empty : (empty : BitTrie B).isEmpty = true := rfl

theorem isEmpty_eq_false (h : t ≠ .empty) : t.isEmpty = false := by
  cases t with
  | empty => exact absurd rfl h
  | node x rest left right => rfl

def lastLeaf : BitTrie B → Option (B × List B)
  | .empty => none
  | .node x rest left right =>
      if right.isEmpty then if left.isEmpty then some (x, rest) else left.lastLeaf
      else right.lastLeaf

theorem lastLeaf_cases (x : B) (rest : List B) (left right : BitTrie B) :
    (left = .empty ∧ right = .empty ∧ (node x rest left right).lastLeaf = some (x, rest)) ∨
    (left ≠ .empty ∧ right = .empty ∧ (node x rest left right).lastLeaf = left.lastLeaf) ∨
    (right ≠ .empty ∧ (node x rest left right).lastLeaf = right.lastLeaf) := by
  by_cases hr : right = .empty
  · by_cases hl : left = .empty
    · subst hl hr
      exact Or.inl ⟨rfl, rfl, rfl⟩
    · right
      left
      subst hr
      have hl' := isEmpty_eq_false hl
      exact ⟨hl, rfl, by simp [lastLeaf, hl']⟩
  · right
    right
    have hr' := isEmpty_eq_false hr
    exact ⟨hr, by simp [lastLeaf, hr']⟩

theorem lastLeaf_mem (h : t.lastLeaf = some c) :
    c ∈ t.rings := by
  induction t with
  | empty => simp [lastLeaf] at h
  | node x rest left right ihl ihr =>
    rcases lastLeaf_cases x rest left right with ⟨-, -, hc⟩ | ⟨-, -, hc⟩ | ⟨-, hc⟩
    · rw [hc] at h
      simp [← Option.some.inj h]
    · rw [hc] at h
      simp [ihl h]
    · rw [hc] at h
      simp [ihr h]

theorem find_lastLeaf [DecidableEq B] {y : B} {s : List B} (hnd : t.blocks.Nodup)
    (h : t.lastLeaf = some (y, s)) :
    t.find y = .node y s .empty .empty := by
  induction t with
  | empty => simp [lastLeaf] at h
  | node x rest left right ihl ihr =>
    obtain ⟨-, hxl, hxr, -, hndl, hndr, hdisj, -⟩ := nodup_node hnd
    have hmem : ∀ t : BitTrie B, t.lastLeaf = some (y, s) → y ∈ t.heads := fun t ht =>
      mem_heads_of_ring (lastLeaf_mem ht)
    rcases lastLeaf_cases x rest left right with ⟨hl, hr, hc⟩ | ⟨-, -, hc⟩ | ⟨-, hc⟩
    · rw [hc] at h
      obtain ⟨rfl, rfl⟩ := Prod.mk.inj (Option.some.inj h)
      rw [find_here, hl, hr]
    · rw [hc] at h
      have hy := hmem left h
      have hxy : x ≠ y := fun he => hxl (he ▸ heads_subset left hy)
      rw [find, if_neg hxy, if_pos hy]
      exact ihl hndl h
    · rw [hc] at h
      have hy := hmem right h
      have hxy : x ≠ y := fun he => hxr (he ▸ heads_subset right hy)
      have hyl : y ∉ left.heads := fun hyl =>
        hdisj y (heads_subset left hyl) (heads_subset right hy)
      rw [find, if_neg hxy, if_neg hyl]
      exact ihr hndr h

theorem Ordered.mem_ring {k p : ℕ} (h : Ordered key k p t) (hc : c ∈ t.rings) {z : B}
    (hz : z ∈ t.blocks) (hkey : key z = key c.1) :
    z ∈ c.1 :: c.2 := by
  obtain ⟨d, hd, hzd⟩ := mem_blocks_iff.mp hz
  have hkd : key z = key d.1 := by
    rcases mem_cons.mp hzd with rfl | hzd
    · rfl
    · exact h.ring_eq d hd z hzd
  have hnd := h.keys_nodup
  rw [heads_eq_map, map_map] at hnd
  have hcd : d = c := inj_on_of_nodup_map hnd hd hc (hkd.symm.trans hkey)
  rw [← hcd]
  exact hzd

theorem Ordered.exchange {k p : ℕ} {x y : B} {s : List B} {left right : BitTrie B}
    (h : Ordered key k p (.node x rest left right)) (hy : key y / 2 ^ k = p)
    (hs : ∀ z ∈ s, key z = key y) (hapart : ∀ z ∈ left.blocks ++ right.blocks, key z ≠ key y) :
    Ordered key k p (.node y s left right) := by
  obtain ⟨-, -, -, hzero, hl, hr⟩ := h
  exact ⟨hy, hs, hapart, hzero, hl, hr⟩

/-! The last leaf `y` is cut off and takes the place of the root `b`. -/

section LeafUp

variable [DecidableEq B] {b y : B} {ys : List B} {left right : BitTrie B}

theorem blocks_cutLeaf (hnd : t.blocks.Nodup) (hl : t.lastLeaf = some (y, ys)) :
    t.blocks.Perm ((y :: ys) ++ (t.replace y .empty).blocks) := by
  apply blocks_replace hnd (mem_heads_of_ring (lastLeaf_mem hl))
  rw [find_lastLeaf hnd hl]
  simp

theorem not_mem_cutLeaf (hnd : t.blocks.Nodup) (hl : t.lastLeaf = some (y, ys)) {z : B}
    (hz : z ∈ y :: ys) : z ∉ (t.replace y .empty).blocks :=
  (nodup_append'.mp ((blocks_cutLeaf hnd hl).nodup_iff.mp hnd)).2.2 hz

theorem replace_below {u : BitTrie B} (hyb : y ≠ b) :
    (node b rest left right).replace y u =
      .node b rest (left.replace y u) (right.replace y u) := by
  rw [BitTrie.replace, if_neg (Ne.symm hyb)]

section

variable (hnd : (node b [] left right).blocks.Nodup)
  (hl : (node b [] left right).lastLeaf = some (y, ys)) (hyb : y ≠ b)

include hnd hl hyb

theorem blocks_leafUp :
    (node b [] left right).blocks.Perm
      (b :: (node y ys (left.replace y .empty) (right.replace y .empty)).blocks) := by
  have hperm := blocks_cutLeaf hnd hl
  rw [replace_below hyb] at hperm
  apply hperm.trans
  simp only [blocks_node, nil_append, cons_append]
  exact (perm_middle.cons y).trans (List.Perm.swap b y _)

theorem rings_leafUp :
    (node y ys (left.replace y .empty) (right.replace y .empty)).rings ⊆
      (node b [] left right).rings := by
  intro c hc
  rw [rings_node, mem_cons] at hc
  rcases hc with rfl | hc
  · exact lastLeaf_mem hl
  · have hcc : c ∈ ((node b [] left right).replace y .empty).rings := by
      rw [replace_below hyb, rings_node]
      exact mem_cons_of_mem _ hc
    rcases mem_rings_replace hnd (mem_heads_of_ring (lastLeaf_mem hl)) hcc with hcc | ⟨hcc, -⟩
    · simp at hcc
    · exact hcc

end

theorem Ordered.leafUp {k p : ℕ} (h : Ordered key k p (node b [] left right))
    (hnd : (node b [] left right).blocks.Nodup)
    (hl : (node b [] left right).lastLeaf = some (y, ys)) (hyb : y ≠ b) :
    Ordered key k p (node y ys (left.replace y .empty) (right.replace y .empty)) := by
  have hyr := lastLeaf_mem hl
  have hyh := mem_heads_of_ring hyr
  have hcut : Ordered key k p ((node b [] left right).replace y .empty) :=
    h.replace hnd hyh (by simp) fun _ _ _ => trivial
  rw [replace_below hyb] at hcut
  apply hcut.exchange (h.div_eq y (heads_subset _ hyh)) (h.ring_eq _ hyr)
  intro z hz he
  have hzm : z ∈ ((node b [] left right).replace y .empty).blocks := by
    rw [replace_below hyb, blocks_node]
    exact mem_cons_of_mem b hz
  have hzt := (blocks_cutLeaf hnd hl).mem_iff.mpr (mem_append_right _ hzm)
  exact not_mem_cutLeaf hnd hl (h.mem_ring hyr hzt he) hzm

end LeafUp

end Leaf

end BitTrie

end Reasoning
