import Php53.Reasoning.BitTrie
import Php53.Reasoning.LinkedList

/-!
# SlotTrie — a trie stored in slots, each node knowing the slot that holds it

A slot is a root or one of the two child fields of a block.  `slots` gives the block a slot points
to (`none` for a null pointer) and `parent` the slot a block was hung into.  `Rep slots parent s t`
says that the slot `s` is the root of a stored copy of `t`; the members of a class other than its
representative carry a null parent.  Such a tree is changed in one place at a time, and `Stored`
collects what makes the change stay there: no block occurs twice and the slot the tree hangs in is
not one of its own.
-/

namespace Reasoning

open List

/-- A place that holds a pointer to a block: a root, or a child field of a block. -/
inductive Slot (R B : Type)
  | root (r : R)
  | child (b : B) (side : Bool)
  deriving DecidableEq

namespace BitTrie

variable {R B : Type}

/-- The slot `s` holds a stored copy of the trie. -/
def Rep (slots : Slot R B → Option B) (parent : B → Option (Slot R B)) :
    Slot R B → BitTrie B → Prop
  | s, .empty => slots s = none
  | s, .node x rest left right =>
      slots s = some x ∧ parent x = some s ∧ (∀ y ∈ rest, parent y = none) ∧
        Rep slots parent (.child x false) left ∧ Rep slots parent (.child x true) right

def Outside (s : Slot R B) (t : BitTrie B) : Prop :=
  ∀ y ∈ t.blocks, ∀ side, s ≠ .child y side

/-- A stored trie, apart from the slot that holds it. -/
structure Stored (slots : Slot R B → Option B) (parent : B → Option (Slot R B)) (s : Slot R B)
    (t : BitTrie B) : Prop where
  rep : Rep slots parent s t
  nodup : t.blocks.Nodup
  outside : Outside s t

section Stored

variable {slots slots' : Slot R B → Option B} {parent parent' : B → Option (Slot R B)}
variable {s q : Slot R B} {t : BitTrie B} {b : B} {key : B → ℕ} {k : ℕ} {rest : List B}
  {r : Slot R B} {x y : B} {c : B × List B}

theorem outside_root (r : R) (t : BitTrie B) : Outside (.root r : Slot R B) t := by
  intro y _ side h
  exact nomatch h

theorem outside_child {side : Bool} (h : b ∉ t.blocks) :
    Outside (.child b side : Slot R B) t := by
  intro y hy c hc
  exact h ((Slot.child.inj hc).1 ▸ hy)

theorem Outside.mono {t u : BitTrie B} (h : Outside s t) (hsub : u.blocks ⊆ t.blocks) :
    Outside s u := fun y hy => h y (hsub hy)

theorem Stored.left {left right : BitTrie B} (h : Stored slots parent s (.node x rest left right)) :
    Stored slots parent (.child x false) left := by
  obtain ⟨-, hx, -, -, hnd, -, -, -⟩ := nodup_node h.nodup
  exact ⟨h.rep.2.2.2.1, hnd, outside_child hx⟩

theorem Stored.right {left right : BitTrie B}
    (h : Stored slots parent s (.node x rest left right)) :
    Stored slots parent (.child x true) right := by
  obtain ⟨-, -, hx, -, -, hnd, -, -⟩ := nodup_node h.nodup
  exact ⟨h.rep.2.2.2.2, hnd, outside_child hx⟩

section

variable (h : Rep slots parent s t)

include h

theorem Rep.eq_empty (hs : slots s = none) : t = .empty := by
  cases t with
  | empty => rfl
  | node x rest left right => exact nomatch hs.symm.trans h.1

theorem Rep.mem_of_slot (hs : slots s = some x) :
    x ∈ t.heads := by
  cases t with
  | empty => exact nomatch hs.symm.trans h
  | node z rest left right =>
    rw [Option.some.inj (hs.symm.trans h.1)]
    simp

theorem Rep.parent_of_slot (hs : slots s = some x) :
    parent x = some s := by
  cases t with
  | empty => exact nomatch hs.symm.trans h
  | node z rest left right =>
    rw [Option.some.inj (hs.symm.trans h.1)]
    exact h.2.1

theorem Rep.slot_isSome : (slots s).isSome = !t.isEmpty := by
  cases t with
  | empty => rw [show slots s = none from h]; rfl
  | node x rest left right => rw [h.1]; rfl

theorem Rep.frame (hs : slots' s = slots s)
    (hslots : ∀ y ∈ t.heads, ∀ side, slots' (.child y side) = slots (.child y side))
    (hparent : ∀ y ∈ t.blocks, parent' y = parent y) : Rep slots' parent' s t := by
  induction t generalizing s with
  | empty => exact hs.trans h
  | node x rest left right ihl ihr =>
    obtain ⟨hx, hpx, hrest, hl, hr⟩ := h
    refine ⟨hs.trans hx, ?_, ?_, ihl hl ?_ ?_ ?_, ihr hr ?_ ?_ ?_⟩
    · rw [hparent x (by simp)]
      exact hpx
    · intro y hy
      rw [hparent y (by simp [hy])]
      exact hrest y hy
    · exact hslots x (by simp) false
    · exact fun y hy => hslots y (by simp [hy])
    · exact fun y hy => hparent y (by simp [hy])
    · exact hslots x (by simp) true
    · exact fun y hy => hslots y (by simp [hy])
    · exact fun y hy => hparent y (by simp [hy])

end

theorem Stored.parent_of_head (h : Stored slots parent s t) (hb : b ∈ t.heads) :
    ∃ q, parent b = some q ∧ slots q = some b ∧
      (q = s ∨ ∃ y ∈ t.heads, y ≠ b ∧ ∃ side, q = .child y side) := by
  induction t generalizing s with
  | empty => simp at hb
  | node x rest left right ihl ihr =>
    obtain ⟨-, hxl, hxr, -, -, -, -, -⟩ := nodup_node h.nodup
    simp only [heads_node, mem_cons, mem_append] at hb ⊢
    rcases hb with rfl | hb | hb
    · exact ⟨s, h.rep.2.1, h.rep.1, Or.inl rfl⟩
    · obtain ⟨q, hpq, hsq, hq⟩ := ihl h.left hb
      refine ⟨q, hpq, hsq, Or.inr ?_⟩
      rcases hq with rfl | ⟨y, hy, hne, side, rfl⟩
      · exact ⟨x, Or.inl rfl, fun he => hxl (he ▸ heads_subset left hb), false, rfl⟩
      · exact ⟨y, Or.inr (Or.inl hy), hne, side, rfl⟩
    · obtain ⟨q, hpq, hsq, hq⟩ := ihr h.right hb
      refine ⟨q, hpq, hsq, Or.inr ?_⟩
      rcases hq with rfl | ⟨y, hy, hne, side, rfl⟩
      · exact ⟨x, Or.inl rfl, fun he => hxr (he ▸ heads_subset right hb), true, rfl⟩
      · exact ⟨y, Or.inr (Or.inr hy), hne, side, rfl⟩

theorem Rep.parent_of_rest (h : Rep slots parent s t) (hc : c ∈ t.rings)
    (hy : y ∈ c.2) : parent y = none := by
  induction t generalizing s with
  | empty => simp at hc
  | node x rest left right ihl ihr =>
    simp only [rings_node, mem_cons, mem_append] at hc
    rcases hc with rfl | hc | hc
    · exact h.2.2.1 y hy
    · exact ihl h.2.2.2.1 hc
    · exact ihr h.2.2.2.2 hc

def spot (key : B → ℕ) (b : B) : ℕ → Slot R B → BitTrie B → Slot R B ⊕ B
  | _, s, .empty => .inl s
  | k, _, .node x _ left right =>
      if key x = key b then .inr x
      else if (key b).testBit (k - 1) then spot key b (k - 1) (.child x true) right
      else spot key b (k - 1) (.child x false) left

theorem spot_inl (h : Rep slots parent s t) (hp : spot key b k s t = .inl q) :
    slots q = none ∧ (q = s ∨ ∃ y ∈ t.heads, ∃ side, q = .child y side) := by
  induction t generalizing k s with
  | empty =>
    obtain rfl := Sum.inl.inj hp
    exact ⟨h, Or.inl rfl⟩
  | node x rest left right ihl ihr =>
    unfold spot at hp
    split at hp
    · exact nomatch hp
    · split at hp
      · obtain ⟨hq, h'⟩ := ihr h.2.2.2.2 hp
        refine ⟨hq, Or.inr ?_⟩
        rcases h' with rfl | ⟨y, hy, side, rfl⟩
        · exact ⟨x, by simp, true, rfl⟩
        · exact ⟨y, by simp [hy], side, rfl⟩
      · obtain ⟨hq, h'⟩ := ihl h.2.2.2.1 hp
        refine ⟨hq, Or.inr ?_⟩
        rcases h' with rfl | ⟨y, hy, side, rfl⟩
        · exact ⟨x, by simp, false, rfl⟩
        · exact ⟨y, by simp [hy], side, rfl⟩

theorem spot_ne (h : Rep slots parent s t) (hp : spot key b k s t = .inl q) (hr : r ≠ s)
    (hout : Outside r t) : r ≠ q := by
  intro he
  rcases (spot_inl h hp).2 with hq | ⟨y, hy, side, hq⟩
  · exact hr (he.trans hq)
  · exact hout y (heads_subset t hy) side (he.trans hq)

theorem spot_inr (hp : spot key b k s t = .inr x) :
    x ∈ t.heads ∧ key x = key b := by
  induction t generalizing k s with
  | empty => exact nomatch hp
  | node z rest left right ihl ihr =>
    unfold spot at hp
    split at hp
    · rename_i hz
      obtain rfl := Sum.inr.inj hp
      exact ⟨by simp, hz⟩
    · split at hp
      · obtain ⟨hx, hk⟩ := ihr hp
        exact ⟨by simp [hx], hk⟩
      · obtain ⟨hx, hk⟩ := ihl hp
        exact ⟨by simp [hx], hk⟩

theorem mem_rings_plant (hp : spot key b k s t = .inl q)
    (hc : c ∈ (t.insert key b k).rings) : c = (b, []) ∨ c ∈ t.rings := by
  induction t generalizing k s with
  | empty => simpa [BitTrie.insert] using hc
  | node x rest left right ihl ihr =>
    unfold spot at hp
    unfold BitTrie.insert at hc
    split at hp
    · cases hp
    · rename_i hx
      rw [if_neg hx] at hc
      split at hp
      · rename_i hbit
        rw [if_pos hbit, rings_node, mem_cons, mem_append] at hc
        rw [rings_node, mem_cons, mem_append]
        have := ihr hp
        tauto
      · rename_i hbit
        rw [if_neg hbit, rings_node, mem_cons, mem_append] at hc
        rw [rings_node, mem_cons, mem_append]
        have := ihl hp
        tauto

theorem mem_rings_join (hnd : t.blocks.Nodup) (hp : spot key b k s t = .inr x)
    (hc : c ∈ (t.insert key b k).rings) :
    (∃ rest, (x, rest) ∈ t.rings ∧ c = (x, b :: rest)) ∨ c ∈ t.rings ∧ c.1 ≠ x := by
  induction t generalizing k s with
  | empty => exact nomatch hp
  | node z rest left right ihl ihr =>
    obtain ⟨-, hzl, hzr, -, hndl, hndr, hdisj, -⟩ := nodup_node hnd
    have hhead : ∀ {t : BitTrie B}, c ∈ t.rings → c.1 ∈ t.blocks := fun hm =>
      mem_blocks_iff.mpr ⟨c, hm, mem_cons_self⟩
    unfold spot at hp
    unfold BitTrie.insert at hc
    split at hp
    · rename_i hz
      obtain rfl := Sum.inr.inj hp
      rw [if_pos hz, rings_node, mem_cons, mem_append] at hc
      rcases hc with rfl | hc | hc
      · exact Or.inl ⟨rest, by simp, rfl⟩
      · exact Or.inr ⟨by simp [hc], fun he => hzl (he ▸ hhead hc)⟩
      · exact Or.inr ⟨by simp [hc], fun he => hzr (he ▸ hhead hc)⟩
    · rename_i hz
      rw [if_neg hz] at hc
      split at hp
      · rename_i hbit
        have hxr := heads_subset right (spot_inr hp).1
        rw [if_pos hbit, rings_node, mem_cons, mem_append] at hc
        rcases hc with rfl | hc | hc
        · exact Or.inr ⟨by simp, fun he : z = x => hzr (he ▸ hxr)⟩
        · exact Or.inr ⟨by simp [hc], fun he => hdisj x (he ▸ hhead hc) hxr⟩
        · rcases ihr hndr hp hc with ⟨r, hr, he⟩ | ⟨hm, hne⟩
          · exact Or.inl ⟨r, by simp [hr], he⟩
          · exact Or.inr ⟨by simp [hm], hne⟩
      · rename_i hbit
        have hxl := heads_subset left (spot_inr hp).1
        rw [if_neg hbit, rings_node, mem_cons, mem_append] at hc
        rcases hc with rfl | hc | hc
        · exact Or.inr ⟨by simp, fun he : z = x => hzl (he ▸ hxl)⟩
        · rcases ihl hndl hp hc with ⟨r, hr, he⟩ | ⟨hm, hne⟩
          · exact Or.inl ⟨r, by simp [hr], he⟩
          · exact Or.inr ⟨by simp [hm], hne⟩
        · exact Or.inr ⟨by simp [hc], fun he => hdisj x hxl (he ▸ hhead hc)⟩

variable [DecidableEq B]

section

variable (h : Stored slots parent s t) (hb : b ∈ t.heads) (hq : parent b = some q)

include h hb hq

theorem Stored.find : Stored slots parent q (t.find b) := by
  induction t generalizing s with
  | empty => simp at hb
  | node x rest left right ihl ihr =>
    by_cases hx : x = b
    · subst hx
      rw [find_here]
      have hqs : q = s := Option.some.inj (hq.symm.trans h.rep.2.1)
      rw [hqs]
      exact h
    · rcases find_replace_side (u := .empty) h.nodup hx hb with ⟨hm, hf, -⟩ | ⟨hm, hf, -⟩
      · rw [hf]
        exact ihl h.left hm
      · rw [hf]
        exact ihr h.right hm

omit [DecidableEq B] in
theorem Stored.ne_parent (hr : r ≠ s) (hout : Outside r t) : r ≠ q := by
  intro he
  obtain ⟨q', hpq, -, hq'⟩ := h.parent_of_head hb
  obtain rfl : q' = q := Option.some.inj (hpq.symm.trans hq)
  rcases hq' with hq' | ⟨y, hy, -, side, hq'⟩
  · exact hr (he.trans hq')
  · exact hout y (heads_subset t hy) side (he.trans hq')

theorem Stored.unchanged (hslots : ∀ r, r ≠ q → Outside r (t.find b) → slots' r = slots r)
    (hr : r ≠ s) (hout : Outside r t) : slots' r = slots r :=
  hslots r (h.ne_parent hb hq hr hout) (hout.mono (find_sublist b t).subset)

theorem Stored.replace {u : BitTrie B}
    (hslots : ∀ r, r ≠ q → Outside r (t.find b) → slots' r = slots r)
    (hparent : ∀ y, y ∉ (t.find b).blocks → parent' y = parent y)
    (hu : Rep slots' parent' q u) : Rep slots' parent' s (t.replace b u) := by
  induction t generalizing s with
  | empty => simp at hb
  | node x rest left right ihl ihr =>
    by_cases hx : x = b
    · subst hx
      rw [replace_here]
      have hqs : q = s := Option.some.inj (hq.symm.trans h.rep.2.1)
      rw [← hqs]
      exact hu
    · obtain ⟨-, hxl, hxr, -, -, -, hdisj, hrestd⟩ := nodup_node h.nodup
      obtain ⟨hsx, hpx, hprest, hrl, hrr⟩ := h.rep
      -- the root, its class and the other side lie outside the side that changes
      rcases find_replace_side (u := u) h.nodup hx hb with ⟨hm, hf, hrep⟩ | ⟨hm, hf, hrep⟩
      · rw [hf] at hslots hparent
        rw [hrep]
        have hsub := (find_sublist b left).subset
        refine ⟨?_, ?_, ?_, ihl h.left hm hslots hparent, ?_⟩
        · rw [h.left.unchanged hm hq hslots (h.outside x (by simp) false)
            (h.outside.mono (left_subset x rest left right))]
          exact hsx
        · rw [hparent x fun hmem => hxl (hsub hmem)]
          exact hpx
        · intro y hy
          rw [hparent y fun hmem => (hrestd y hy).1 (hsub hmem)]
          exact hprest y hy
        · apply hrr.frame
          · exact h.left.unchanged hm hq hslots (by simp) (outside_child hxl)
          · intro y hy c
            have hyr := heads_subset right hy
            have hyl : y ∉ left.blocks := fun hyl => hdisj y hyl hyr
            apply h.left.unchanged hm hq hslots _ (outside_child hyl)
            intro he
            exact hxr ((Slot.child.inj he).1 ▸ hyr)
          · intro y hy
            exact hparent y fun hmem => hdisj y (hsub hmem) hy
      · rw [hf] at hslots hparent
        rw [hrep]
        have hsub := (find_sublist b right).subset
        refine ⟨?_, ?_, ?_, ?_, ihr h.right hm hslots hparent⟩
        · rw [h.right.unchanged hm hq hslots (h.outside x (by simp) true)
            (h.outside.mono (right_subset x rest left right))]
          exact hsx
        · rw [hparent x fun hmem => hxr (hsub hmem)]
          exact hpx
        · intro y hy
          rw [hparent y fun hmem => (hrestd y hy).2 (hsub hmem)]
          exact hprest y hy
        · apply hrl.frame
          · exact h.right.unchanged hm hq hslots (by simp) (outside_child hxr)
          · intro y hy c
            have hyl := heads_subset left hy
            have hyr : y ∉ right.blocks := hdisj y hyl
            apply h.right.unchanged hm hq hslots _ (outside_child hyr)
            intro he
            exact hxl ((Slot.child.inj he).1 ▸ hyl)
          · intro y hy
            exact hparent y fun hmem => hdisj y hy (hsub hmem)

end

variable [DecidableEq R]

theorem Stored.plant (h : Stored slots parent s t) (hp : spot key b k s t = .inl q)
    (hb : b ∉ t.blocks) (hc : ∀ side, slots (.child b side) = none)
    (hsb : ∀ side, s ≠ .child b side) :
    Rep (Function.update slots q (some b)) (Function.update parent b (some q)) s
      (t.insert key b k) := by
  have hqb : ∀ side, q ≠ .child b side := by
    intro side he
    rcases (spot_inl h.rep hp).2 with hq | ⟨y, hy, c, hq⟩
    · exact hsb side (hq.symm.trans he)
    · exact hb ((Slot.child.inj (hq.symm.trans he)).1 ▸ heads_subset t hy)
  induction t generalizing k s with
  | empty =>
    obtain rfl := Sum.inl.inj hp
    refine ⟨Function.update_self .., Function.update_self .., by simp, ?_, ?_⟩
    · exact (Function.update_of_ne (Ne.symm (hqb false)) _ _).trans (hc false)
    · exact (Function.update_of_ne (Ne.symm (hqb true)) _ _).trans (hc true)
  | node x rest left right ihl ihr =>
    obtain ⟨-, hxl, hxr, -, -, -, hdisj, -⟩ := nodup_node h.nodup
    obtain ⟨hsx, hpx, hprest, hrl, hrr⟩ := h.rep
    simp only [blocks_node, mem_cons, mem_append, not_or] at hb
    obtain ⟨hbx, hbrest, hbl, hbr⟩ := hb
    have hqs : s ≠ q := by
      -- the slot that is filled is a free one
      intro he
      have hfree := (spot_inl h.rep hp).1
      rw [← he, hsx] at hfree
      cases hfree
    have hroot : Function.update slots q (some b) s = some x :=
      (Function.update_of_ne hqs _ _).trans hsx
    have hparx : Function.update parent b (some q) x = some s :=
      (Function.update_of_ne (Ne.symm hbx) _ _).trans hpx
    have hparr : ∀ y ∈ rest, Function.update parent b (some q) y = none := fun y hy =>
      (Function.update_of_ne (fun he : y = b => hbrest (he ▸ hy)) _ _).trans (hprest y hy)
    unfold spot at hp
    unfold BitTrie.insert
    by_cases hkey : key x = key b
    · rw [if_pos hkey] at hp
      cases hp
    · rw [if_neg hkey] at hp ⊢
      cases hbit : (key b).testBit (k - 1) with
      | true =>
        rw [hbit, if_pos rfl] at hp
        rw [if_pos rfl]
        refine ⟨hroot, hparx, hparr, ?_, ihr h.right hp hbr ?_⟩
        · apply hrl.frame
          · apply Function.update_of_ne
            exact spot_ne hrr hp (by simp) (outside_child hxr)
          · intro y hy c
            have hyl := heads_subset left hy
            apply Function.update_of_ne
            apply spot_ne hrr hp _ (outside_child (hdisj y hyl))
            intro he
            exact hxl ((Slot.child.inj he).1 ▸ hyl)
          · intro y hy
            exact Function.update_of_ne (fun he : y = b => hbl (he ▸ hy)) _ _
        · intro side he
          exact hbx (Slot.child.inj he).1.symm
      | false =>
        rw [hbit, if_neg Bool.false_ne_true] at hp
        rw [if_neg Bool.false_ne_true]
        refine ⟨hroot, hparx, hparr, ihl h.left hp hbl ?_, ?_⟩
        · intro side he
          exact hbx (Slot.child.inj he).1.symm
        · apply hrr.frame
          · apply Function.update_of_ne
            exact spot_ne hrl hp (by simp) (outside_child hxl)
          · intro y hy c
            have hyr := heads_subset right hy
            apply Function.update_of_ne
            apply spot_ne hrl hp _ (outside_child fun hyl => hdisj y hyl hyr)
            intro he
            exact hxr ((Slot.child.inj he).1 ▸ hyr)
          · intro y hy
            exact Function.update_of_ne (fun he : y = b => hbr (he ▸ hy)) _ _

omit [DecidableEq R] in
theorem Stored.join (h : Stored slots parent s t) (hp : spot key b k s t = .inr x)
    (hb : b ∉ t.blocks) :
    Rep slots (Function.update parent b none) s (t.insert key b k) := by
  have hkeep : ∀ {q : Slot R B} {u : BitTrie B}, b ∉ u.blocks → Rep slots parent q u →
      Rep slots (Function.update parent b none) q u := by
    intro q u hu hrep
    apply hrep.frame rfl (fun _ _ _ => rfl)
    intro y hy
    exact Function.update_of_ne (fun he : y = b => hu (he ▸ hy)) _ _
  induction t generalizing k s with
  | empty => exact nomatch hp
  | node z rest left right ihl ihr =>
    obtain ⟨hsz, hpz, hprest, hrl, hrr⟩ := h.rep
    simp only [blocks_node, mem_cons, mem_append, not_or] at hb
    obtain ⟨hbz, hbrest, hbl, hbr⟩ := hb
    have hparz : Function.update parent b none z = some s :=
      (Function.update_of_ne (Ne.symm hbz) _ _).trans hpz
    have hparr : ∀ y ∈ rest, Function.update parent b none y = none := fun y hy =>
      (Function.update_of_ne (fun he : y = b => hbrest (he ▸ hy)) _ _).trans (hprest y hy)
    unfold spot at hp
    unfold BitTrie.insert
    by_cases hkey : key z = key b
    · rw [if_pos hkey]
      refine ⟨hsz, hparz, ?_, hkeep hbl hrl, hkeep hbr hrr⟩
      intro y hy
      rcases mem_cons.mp hy with rfl | hy
      · exact Function.update_self ..
      · exact hparr y hy
    · rw [if_neg hkey] at hp ⊢
      cases hbit : (key b).testBit (k - 1) with
      | true =>
        rw [hbit, if_pos rfl] at hp
        rw [if_pos rfl]
        exact ⟨hsz, hparz, hparr, hkeep hbl hrl, ihr h.right hp hbr⟩
      | false =>
        rw [hbit, if_neg Bool.false_ne_true] at hp
        rw [if_neg Bool.false_ne_true]
        exact ⟨hsz, hparz, hparr, ihl h.left hp hbl, hkeep hbr hrr⟩

omit [DecidableEq B] [DecidableEq R] in
theorem Rep.move (h : Rep slots parent s t) (hnd : t.blocks.Nodup) (hs : slots' q = slots s)
    (hslots : ∀ y ∈ t.heads, ∀ side, slots' (.child y side) = slots (.child y side))
    (hroot : ∀ x, slots s = some x → parent' x = some q)
    (hparent : ∀ y ∈ t.blocks, slots s ≠ some y → parent' y = parent y) :
    Rep slots' parent' q t := by
  cases t with
  | empty => exact hs.trans h
  | node x rest left right =>
    obtain ⟨hx, -, hrest, hl, hr⟩ := h
    obtain ⟨hxrest, hxl, hxr, -, -, -, -, -⟩ := nodup_node hnd
    have hpar : ∀ y ∈ (node x rest left right).blocks, y ≠ x → parent' y = parent y := by
      intro y hy hne
      apply hparent y hy
      intro he
      exact hne (Option.some.inj (he.symm.trans hx))
    refine ⟨hs.trans hx, hroot x hx, ?_, hl.frame ?_ ?_ ?_, hr.frame ?_ ?_ ?_⟩
    · intro y hy
      rw [hpar y (by simp [hy]) fun he => hxrest (he ▸ hy)]
      exact hrest y hy
    · exact hslots x (by simp) false
    · exact fun y hy => hslots y (by simp [hy])
    · exact fun y hy => hpar y (by simp [hy]) fun he => hxl (he ▸ hy)
    · exact hslots x (by simp) true
    · exact fun y hy => hslots y (by simp [hy])
    · exact fun y hy => hpar y (by simp [hy]) fun he => hxr (he ▸ hy)

/-- The slots after `y` has taken the position of `b`, which hangs in `q`. -/
def exchangeSlots (slots : Slot R B → Option B) (q : Slot R B) (b y : B) : Slot R B → Option B :=
  Function.update
    (Function.update (Function.update slots q (some y)) (.child y false) (slots (.child b false)))
    (.child y true) (slots (.child b true))

/-- The parent fields after `y` has taken the position of `b`. -/
def exchangeParent (slots : Slot R B → Option B) (parent : B → Option (Slot R B)) (q : Slot R B)
    (b y : B) : B → Option (Slot R B) :=
  updateAt
    (updateAt (Function.update parent y (some q)) (slots (.child b false))
      (some (.child y false)))
    (slots (.child b true)) (some (.child y true))

theorem exchangeSlots_of_ne (hq : r ≠ q)
    (hy : ∀ side, r ≠ .child y side) : exchangeSlots slots q b y r = slots r := by
  unfold exchangeSlots
  rw [Function.update_of_ne (hy true), Function.update_of_ne (hy false), Function.update_of_ne hq]

omit [DecidableEq R] in
theorem exchangeParent_of_ne {z : B} (hy : z ≠ y) (hl : slots (.child b false) ≠ some z)
    (hr : slots (.child b true) ≠ some z) :
    exchangeParent slots parent q b y z = parent z := by
  unfold exchangeParent
  rw [updateAt_of_ne _ _ _ hr, updateAt_of_ne _ _ _ hl, Function.update_of_ne hy]

theorem Stored.exchange {left right : BitTrie B}
    (h : Stored slots parent q (.node b rest left right)) (ys : List B) (hyl : y ∉ left.blocks)
    (hyr : y ∉ right.blocks) (hq : ∀ side, q ≠ .child y side)
    (hys : ∀ z ∈ ys, z ≠ y ∧ z ∉ left.blocks ∧ z ∉ right.blocks ∧ parent z = none) :
    Rep (exchangeSlots slots q b y) (exchangeParent slots parent q b y) q
      (.node y ys left right) := by
  obtain ⟨-, hbl, hbr, -, hndl, hndr, hdisj, -⟩ := nodup_node h.nodup
  have houtl : Outside q left := h.outside.mono (left_subset b rest left right)
  have houtr : Outside q right := h.outside.mono (right_subset b rest left right)
  -- the roots of the two subtrees lie in them
  have hmeml : ∀ z, slots (.child b false) = some z → z ∈ left.blocks := fun z hz =>
    heads_subset left (h.left.rep.mem_of_slot hz)
  have hmemr : ∀ z, slots (.child b true) = some z → z ∈ right.blocks := fun z hz =>
    heads_subset right (h.right.rep.mem_of_slot hz)
  refine ⟨?_, ?_, ?_, ?_, ?_⟩
  · unfold exchangeSlots
    rw [Function.update_of_ne (hq true), Function.update_of_ne (hq false), Function.update_self]
  · unfold exchangeParent
    rw [updateAt_of_ne _ _ _ fun hz => hyr (hmemr y hz),
      updateAt_of_ne _ _ _ fun hz => hyl (hmeml y hz), Function.update_self]
  · intro z hz
    obtain ⟨hzy, hzl, hzr, hzn⟩ := hys z hz
    rw [exchangeParent_of_ne hzy (fun hm => hzl (hmeml z hm)) fun hm => hzr (hmemr z hm)]
    exact hzn
  · apply h.left.rep.move hndl
    · unfold exchangeSlots
      rw [Function.update_of_ne (by simp), Function.update_self]
    · intro z hz c
      have hzl := heads_subset left hz
      apply exchangeSlots_of_ne (houtl z hzl c).symm
      intro side he
      exact hyl ((Slot.child.inj he).1 ▸ hzl)
    · intro x hx
      unfold exchangeParent
      rw [updateAt_of_ne _ _ _ fun hz => hdisj x (hmeml x hx) (hmemr x hz), hx, updateAt_some,
        Function.update_self]
    · intro z hz hne
      apply exchangeParent_of_ne (fun he : z = y => hyl (he ▸ hz)) hne
      exact fun hm => hdisj z hz (hmemr z hm)
  · apply h.right.rep.move hndr
    · unfold exchangeSlots
      rw [Function.update_self]
    · intro z hz c
      have hzr := heads_subset right hz
      apply exchangeSlots_of_ne (houtr z hzr c).symm
      intro side he
      exact hyr ((Slot.child.inj he).1 ▸ hzr)
    · intro x hx
      unfold exchangeParent
      rw [hx, updateAt_some, Function.update_self]
    · intro z hz hne
      apply exchangeParent_of_ne (fun he : z = y => hyr (he ▸ hz)) _ hne
      exact fun hm => hdisj z (hmeml z hm) hz

omit [DecidableEq R] in
theorem Stored.exchangeParent_eq {z : B} {left right : BitTrie B}
    (h : Stored slots parent q (.node b rest left right)) (hy : z ≠ y)
    (hz : z ∉ (node b rest left right).blocks) :
    exchangeParent slots parent q b y z = parent z := by
  apply exchangeParent_of_ne hy
  · exact fun he => hz (left_subset _ _ _ _ (heads_subset _ (h.left.rep.mem_of_slot he)))
  · exact fun he => hz (right_subset _ _ _ _ (heads_subset _ (h.right.rep.mem_of_slot he)))

theorem Stored.cutLeaf {ys : List B} (h : Stored slots parent s t) (hl : t.lastLeaf = some (y, ys))
    (hq : parent y = some q) :
    Stored (Function.update slots q none) parent s (t.replace y .empty) := by
  have hperm := blocks_cutLeaf h.nodup hl
  refine ⟨?_, (nodup_append'.mp (hperm.nodup_iff.mp h.nodup)).2.1, ?_⟩
  · apply h.replace (mem_heads_of_ring (lastLeaf_mem hl)) hq
    · exact fun r hr _ => Function.update_of_ne hr _ _
    · exact fun _ _ => rfl
    · exact Function.update_self ..
  · exact h.outside.mono fun z hz => hperm.mem_iff.mpr (mem_append_right _ hz)

/-- The last leaf `y`, which hung in `q`, takes the place of the root `b`, which hangs in `p`:
the trie is stored again, and nothing else has changed. -/
theorem Stored.leafUp {p : Slot R B} {ys : List B} {left right : BitTrie B}
    (h : Stored slots parent p (.node b [] left right))
    (hl : (node b [] left right).lastLeaf = some (y, ys)) (hq : parent y = some q) (hyb : y ≠ b) :
    Rep (exchangeSlots (Function.update slots q none) p b y)
        (exchangeParent (Function.update slots q none) parent p b y) p
        (.node y ys (left.replace y .empty) (right.replace y .empty)) ∧
      (∀ r, r ≠ p → Outside r (node b [] left right) →
        exchangeSlots (Function.update slots q none) p b y r = slots r) ∧
      ∀ z, z ∉ (node b [] left right).blocks →
        exchangeParent (Function.update slots q none) parent p b y z = parent z := by
  have hyr := lastLeaf_mem hl
  have hyh := mem_heads_of_ring hyr
  have hcut := h.cutLeaf hl hq
  have hout : ∀ z ∈ y :: ys, z ∉ (left.replace y .empty).blocks ∧
      z ∉ (right.replace y .empty).blocks := by
    intro z hz
    have hzt := not_mem_cutLeaf h.nodup hl hz
    rw [replace_below hyb] at hzt
    exact ⟨fun hm => hzt (left_subset _ _ _ _ hm), fun hm => hzt (right_subset _ _ _ _ hm)⟩
  have hsub : ((node b [] left right).replace y .empty).blocks ⊆
      (node b [] left right).blocks := fun z hz =>
    (blocks_cutLeaf h.nodup hl).mem_iff.mpr (mem_append_right _ hz)
  rw [replace_below hyb] at hcut hsub
  refine ⟨?_, ?_, ?_⟩
  · apply hcut.exchange ys (hout y mem_cons_self).1 (hout y mem_cons_self).2
      (h.outside y (heads_subset _ hyh))
    intro z hz
    have hzy : z ≠ y := by
      rintro rfl
      exact (nodup_cons.mp (nodup_ring h.nodup hyr)).1 hz
    have hzd := hout z (mem_cons_of_mem y hz)
    exact ⟨hzy, hzd.1, hzd.2, h.rep.parent_of_rest hyr hz⟩
  · intro r hr hro
    rw [exchangeSlots_of_ne hr (hro y (heads_subset _ hyh))]
    exact Function.update_of_ne (h.ne_parent hyh hq hr hro) _ _
  · intro z hz
    exact hcut.exchangeParent_eq (fun he => hz (he ▸ heads_subset _ hyh)) fun hm => hz (hsub hm)

end Stored

end BitTrie

end Reasoning
