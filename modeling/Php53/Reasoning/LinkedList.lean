import Mathlib.Algebra.GroupWithZero.Nat
import Mathlib.Data.List.Induction
import Mathlib.Data.List.Nodup
import Mathlib.Logic.Function.Basic

/-!
# LinkedList — doubly linked lists over field maps

A heap of list nodes is given by two maps, `next` and `last`, from a node to its neighbour
(`none` for a null pointer).  `Linked next last prev l stop` says that `l` is a segment of such a
list: the predecessor of its first node is `prev`, the successor of its last node is `stop`, and
inside the segment the two maps are inverse to each other.  The surgery rules below are stated on
the maps alone, so they serve any record that stores its links in two fields.
-/

namespace Reasoning

open List

variable {P : Type} [DecidableEq P]

variable {β : Type} {p q x : P} {last next : P → Option P} {a b l : List P}
  {head prev stop tail : Option P} {n : Nat} {heads : Nat → Option P} {idx : P → Nat}

def updateAt {β : Type} (f : P → β) : Option P → β → P → β
  | none, _ => f
  | some p, v => Function.update f p v

@[simp] theorem updateAt_none (f : P → β) (v : β) : updateAt f none v = f := rfl

@[simp] theorem updateAt_some (f : P → β) (p : P) (v : β) :
    updateAt f (some p) v = Function.update f p v := rfl

theorem updateAt_of_ne (f : P → β) (o : Option P) (v : β) (h : o ≠ some x) :
    updateAt f o v x = f x := by
  cases o with
  | none => rfl
  | some p => exact Function.update_of_ne (fun he => h (by rw [he])) _ _

theorem updateAt_ne_self {f : P → Option P} {o v : Option P} (hv : o = some x → v ≠ some x)
    (hf : f x ≠ some x) : updateAt f o v x ≠ some x := by
  by_cases ho : o = some x
  · rw [ho, updateAt_some, Function.update_self]
    exact hv ho
  · rw [updateAt_of_ne _ _ _ ho]
    exact hf

/-- `l` is a doubly linked segment between `prev` and `stop`. -/
def Linked (next last : P → Option P) (prev : Option P) : List P → Option P → Prop
  | [], _ => True
  | x :: l, stop =>
      last x = prev ∧ next x = l.head?.or stop ∧ Linked next last (some x) l stop

/-- Following `next` from `p` visits exactly `l` and then stops. -/
def Walk (next : P → Option P) : Option P → List P → Prop
  | p, [] => p = none
  | p, x :: l => p = some x ∧ Walk next (next x) l

omit [DecidableEq P] in
theorem Walk.unique {p : Option P} {l' : List P} (h : Walk next p l) (h' : Walk next p l')
    : l = l' := by
  induction l generalizing p l' with
  | nil =>
    cases l' with
    | nil => rfl
    | cons y l' => exact nomatch h.symm.trans h'.1
  | cons x l ih =>
    obtain ⟨rfl, h⟩ := h
    cases l' with
    | nil => exact nomatch h'
    | cons y l' =>
      obtain ⟨hy, h'⟩ := h'
      obtain rfl := Option.some.inj hy
      rw [ih h h']

omit [DecidableEq P] in
theorem Walk.congr {next' : P → Option P} {p : Option P} (h : Walk next p l)
    (heq : ∀ x ∈ l, next' x = next x) : Walk next' p l := by
  induction l generalizing p with
  | nil => exact h
  | cons x l ih =>
    obtain ⟨rfl, h⟩ := h
    refine ⟨rfl, ih ?_ fun y hy => heq y (mem_cons_of_mem x hy)⟩
    rwa [heq x mem_cons_self]

omit [DecidableEq P] in
theorem Linked.append_iff :
    Linked next last prev (a ++ b) stop ↔
      Linked next last prev a (b.head?.or stop) ∧
        Linked next last (a.getLast?.or prev) b stop := by
  induction a generalizing prev with
  | nil => simp [Linked]
  | cons x a ih =>
    have hhead : (a ++ b).head?.or stop = a.head?.or (b.head?.or stop) := by
      cases a <;> simp
    have hlast : (x :: a).getLast?.or prev = a.getLast?.or (some x) := by
      cases a <;> simp [List.getLast?_cons]
    simp only [cons_append, Linked, hhead, hlast, ih]
    tauto

omit [DecidableEq P] in
theorem Linked.split (h : Linked next last prev (a ++ b) stop) :
    Linked next last prev a (b.head?.or stop) ∧ Linked next last (a.getLast?.or prev) b stop :=
  Linked.append_iff.mp h

omit [DecidableEq P] in
theorem Linked.congr {next' last' : P → Option P} (h : Linked next last prev l stop)
    (hn : ∀ x ∈ l, next' x = next x) (hl : ∀ x ∈ l, last' x = last x)
    : Linked next' last' prev l stop := by
  induction l generalizing prev with
  | nil => trivial
  | cons x l ih =>
    obtain ⟨h1, h2, h3⟩ := h
    refine ⟨(hl x (by simp)).trans h1, (hn x (by simp)).trans h2, ?_⟩
    exact ih h3 (fun y hy => hn y (by simp [hy])) (fun y hy => hl y (by simp [hy]))

omit [DecidableEq P] in
theorem Linked.walk (h : Linked next last prev l none) : Walk next l.head? l := by
  induction l generalizing prev with
  | nil => rfl
  | cons x l ih =>
    refine ⟨rfl, ?_⟩
    have hx : next x = l.head? := by simpa using h.2.1
    rw [hx]
    exact ih h.2.2

omit [DecidableEq P] in
theorem Linked.walk_reverse (h : Linked next last none l stop)
    : Walk last l.getLast? l.reverse := by
  induction l using reverseRecOn generalizing stop with
  | nil => rfl
  | append_singleton l x ih =>
    obtain ⟨h1, h2⟩ := h.split
    have hx : last x = l.getLast? := by simpa using h2.1
    simp only [reverse_append, reverse_singleton, singleton_append,
      List.getLast?_append, List.getLast?_singleton]
    refine ⟨by simp, ?_⟩
    rw [hx]
    exact ih h1

omit [DecidableEq P] in
theorem Linked.next_eq_iff (h : Linked next last none l none) (hnd : l.Nodup) (hp : p ∈ l)
    (hq : q ∈ l) :
    next p = some q ↔ last q = some p := by
  induction l using reverseRecOn generalizing p q with
  | nil => simp at hp
  | append_singleton a x _ =>
    constructor
    · intro hn
      obtain ⟨b, c, he⟩ := append_of_mem hp
      rw [he] at h hnd
      have hn' : next p = c.head? := by simpa using h.split.2.2.1
      obtain ⟨d, rfl⟩ : ∃ d, c = q :: d := by
        cases c with
        | nil => simp [hn] at hn'
        | cons y d => exact ⟨d, by simp_all⟩
      exact h.split.2.2.2.1
    · intro hl
      obtain ⟨b, c, he⟩ := append_of_mem hq
      rw [he] at h hnd
      have hl' : last q = b.getLast? := by simpa using h.split.2.1
      obtain ⟨d, rfl⟩ : ∃ d, b = d ++ [p] :=
        List.getLast?_eq_some_iff.mp (hl'.symm.trans hl)
      rw [append_assoc] at h
      simpa using h.split.2.2.1

theorem Linked.set_stop (h : Linked next last prev l stop) (hnd : l.Nodup) (stop' : Option P) :
    Linked (updateAt next l.getLast? stop') last prev l stop' := by
  induction l using reverseRecOn with
  | nil => trivial
  | append_singleton a x _ =>
    obtain ⟨h1, h2⟩ := h.split
    have hne : ∀ y ∈ a, y ≠ x := fun y hy he => by
      rw [nodup_append] at hnd
      exact hnd.2.2 y hy x (by simp) he
    rw [Linked.append_iff]
    simp only [List.getLast?_append, List.getLast?_singleton, Option.some_or, updateAt_some]
    constructor
    · exact h1.congr (fun y hy => Function.update_of_ne (hne y hy) _ _) (fun _ _ => rfl)
    · exact ⟨h2.1, by simp, trivial⟩

theorem Linked.set_prev (h : Linked next last prev l stop) (hnd : l.Nodup) (prev' : Option P) :
    Linked next (updateAt last l.head? prev') prev' l stop := by
  cases l with
  | nil => trivial
  | cons x l =>
    have hne : ∀ y ∈ l, y ≠ x := fun y hy he => (nodup_cons.mp hnd).1 (he ▸ hy)
    refine ⟨by simp, h.2.1, ?_⟩
    exact h.2.2.congr (fun _ _ => rfl) (fun y hy => Function.update_of_ne (hne y hy) _ _)

omit [DecidableEq P] in
theorem Linked.next_mid (h : Linked next last prev (a ++ x :: b) stop) : next x = b.head?.or stop :=
  h.split.2.2.1

omit [DecidableEq P] in
theorem Linked.last_mid (h : Linked next last prev (a ++ x :: b) stop)
    : last x = a.getLast?.or prev :=
  h.split.2.1

theorem Linked.unlink (h : Linked next last none (a ++ x :: b) none) (hnd : (a ++ x :: b).Nodup) :
    Linked (updateAt next (last x) (next x)) (updateAt last (next x) (last x)) none
      (a ++ b) none := by
  have hn : next x = b.head? := by simpa using h.next_mid
  have hl : last x = a.getLast? := by simpa using h.last_mid
  obtain ⟨ha, hb⟩ := h.split
  have hb := hb.2.2
  have hdisj : ∀ y ∈ a, y ∉ b := fun y hy hyb => by
    rw [nodup_append] at hnd
    exact hnd.2.2 y hy y (by simp [hyb]) rfl
  have hna : a.Nodup := hnd.of_append_left
  have hnb : b.Nodup := (nodup_cons.mp hnd.of_append_right).2
  rw [hn, hl, Linked.append_iff]
  constructor
  · refine (ha.set_stop hna _).congr (fun y hy => ?_) (fun y hy => ?_)
    · simp
    · exact updateAt_of_ne _ _ _ (fun he => hdisj y hy (mem_of_head? he))
  · refine (hb.set_prev hnb _).congr (fun y hy => ?_) (fun y hy => ?_)
    · exact updateAt_of_ne _ _ _ (fun he => hdisj y (mem_of_getLast? he) hy)
    · simp

theorem Linked.push_front (h : Linked next last none l none) (hnd : l.Nodup) (hx : x ∉ l) :
    Linked (Function.update next x l.head?)
      (updateAt (Function.update last x none) l.head? (some x)) none (x :: l) none := by
  have hne : ∀ y ∈ l, y ≠ x := fun y hy he => hx (he ▸ hy)
  refine ⟨?_, by simp, ?_⟩
  · rw [updateAt_of_ne _ _ _ (fun he => hx (mem_of_head? he))]
    simp
  · have h' : Linked (Function.update next x l.head?) (Function.update last x none) none l none :=
      h.congr (fun y hy => Function.update_of_ne (hne y hy) _ _)
        (fun y hy => Function.update_of_ne (hne y hy) _ _)
    exact h'.set_prev hnd _

theorem Linked.push_back (h : Linked next last none l none) (hnd : l.Nodup) (hx : x ∉ l) :
    Linked (updateAt (Function.update next x none) l.getLast? (some x))
      (Function.update last x l.getLast?) none (l ++ [x]) none := by
  have hne : ∀ y ∈ l, y ≠ x := fun y hy he => hx (he ▸ hy)
  rw [Linked.append_iff]
  constructor
  · have h' : Linked (Function.update next x none) (Function.update last x l.getLast?) none l none :=
      h.congr (fun y hy => Function.update_of_ne (hne y hy) _ _)
        (fun y hy => Function.update_of_ne (hne y hy) _ _)
    simpa using h'.set_stop hnd (some x)
  · refine ⟨by simp, ?_, trivial⟩
    rw [updateAt_of_ne _ _ _ (fun he => hx (mem_of_getLast? he))]
    simp

theorem Linked.replace {y : P} (h : Linked next last none (a ++ x :: b) none)
    (hnd : (a ++ x :: b).Nodup) (hy : y ∉ a ++ x :: b) :
    Linked (updateAt (Function.update next y (next x)) (last x) (some y))
      (updateAt (Function.update last y (last x)) (next x) (some y)) none (a ++ y :: b) none := by
  have hn : next x = b.head? := by simpa using h.next_mid
  have hl : last x = a.getLast? := by simpa using h.last_mid
  obtain ⟨ha, hb⟩ := h.split
  have hb := hb.2.2
  have hya : ∀ z ∈ a, z ≠ y := fun z hz he => hy (by simp [← he, hz])
  have hyb : ∀ z ∈ b, z ≠ y := fun z hz he => hy (by simp [← he, hz])
  have hdisj : ∀ z ∈ a, z ∉ b := fun z hz hzb => by
    rw [nodup_append] at hnd
    exact hnd.2.2 z hz z (by simp [hzb]) rfl
  have hna : a.Nodup := hnd.of_append_left
  have hnb : b.Nodup := (nodup_cons.mp hnd.of_append_right).2
  rw [hn, hl, Linked.append_iff]
  refine ⟨?_, ?_, ?_, ?_⟩
  · have h' : Linked (Function.update next y b.head?) last none a (some x) := by
      refine Linked.congr (by simpa using ha) (fun z hz => ?_) (fun _ _ => rfl)
      exact Function.update_of_ne (hya z hz) _ _
    refine (h'.set_stop hna (some y)).congr (fun _ _ => rfl) (fun z hz => ?_)
    rw [updateAt_of_ne _ _ _ (fun he => hdisj z hz (mem_of_head? he)),
      Function.update_of_ne (hya z hz)]
  · rw [updateAt_of_ne _ _ _ (fun he => hyb y (mem_of_head? he) rfl)]
    simp
  · rw [updateAt_of_ne _ _ _ (fun he => hya y (mem_of_getLast? he) rfl)]
    simp
  · have h' : Linked next (Function.update last y a.getLast?) (some x) b none := by
      refine hb.congr (fun _ _ => rfl) (fun z hz => ?_)
      exact Function.update_of_ne (hyb z hz) _ _
    refine (h'.set_prev hnb (some y)).congr (fun z hz => ?_) (fun _ _ => rfl)
    rw [updateAt_of_ne _ _ _ (fun he => hdisj z (mem_of_getLast? he) hz),
      Function.update_of_ne (hyb z hz)]

/-- `l` is the doubly linked list that `head` and `tail` point to. -/
structure DList (next last : P → Option P) (head tail : Option P) (l : List P) : Prop where
  nodup : l.Nodup
  linked : Linked next last none l none
  head_eq : head = l.head?
  tail_eq : tail = l.getLast?

omit [DecidableEq P] in
theorem DList.nil (next last : P → Option P) : DList next last none none [] :=
  ⟨nodup_nil, trivial, rfl, rfl⟩

section

variable (h : DList next last head tail l)

include h

omit [DecidableEq P] in
omit [DecidableEq P] in
theorem DList.next_mem (hp : p ∈ l) (hq : next p = some q) :
    q ∈ l ∧ q ≠ p := by
  obtain ⟨a, b, rfl⟩ := append_of_mem hp
  rw [h.linked.next_mid, Option.or_none] at hq
  have hqb : q ∈ b := mem_of_head? hq
  refine ⟨by simp [hqb], fun he => ?_⟩
  exact (nodup_cons.mp h.nodup.of_append_right).1 (he ▸ hqb)

omit [DecidableEq P] in
theorem DList.last_mem (hp : p ∈ l) (hq : last p = some q) : q ∈ l := by
  obtain ⟨a, b, rfl⟩ := append_of_mem hp
  rw [h.linked.last_mid, Option.or_none] at hq
  exact mem_append_left _ (mem_of_getLast? hq)

omit [DecidableEq P] in
theorem DList.prev_ne_next (hp : p ∈ l) (hl : last p = some q) (hn : next p = some q) : False := by
  obtain ⟨a, b, rfl⟩ := append_of_mem hp
  rw [h.linked.last_mid, Option.or_none] at hl
  rw [h.linked.next_mid, Option.or_none] at hn
  have hnd := h.nodup
  rw [nodup_append] at hnd
  exact hnd.2.2 q (mem_of_getLast? hl) q (by simp [mem_of_head? hn]) rfl

theorem DList.unlink (hp : p ∈ l) :
    DList (updateAt next (last p) (next p)) (updateAt last (next p) (last p))
      (if last p = none then next p else head) (if next p = none then last p else tail)
      (l.erase p) := by
  obtain ⟨a, b, rfl⟩ := append_of_mem hp
  have hn : next p = b.head? := by simpa using h.linked.next_mid
  have hl : last p = a.getLast? := by simpa using h.linked.last_mid
  have hpa : p ∉ a := fun hm => by
    have hnd := h.nodup
    rw [nodup_append] at hnd
    exact hnd.2.2 p hm p (by simp) rfl
  have he : (a ++ p :: b).erase p = a ++ b := by
    rw [erase_append_right _ hpa, erase_cons_head]
  rw [he]
  refine ⟨?_, h.linked.unlink h.nodup, ?_, ?_⟩
  · exact he ▸ h.nodup.erase p
  · rw [hl, hn, h.head_eq]
    cases a <;> simp
  · rw [hl, hn, h.tail_eq]
    cases b <;> simp

theorem DList.push_front (hp : p ∉ l) :
    DList (Function.update next p head) (updateAt (Function.update last p none) head (some p))
      (some p) (tail.or (some p)) (p :: l) := by
  refine ⟨nodup_cons.mpr ⟨hp, h.nodup⟩, ?_, by simp, ?_⟩
  · rw [h.head_eq]
    exact h.linked.push_front h.nodup hp
  · rw [h.tail_eq]
    cases l <;> simp [List.getLast?_cons]

omit [DecidableEq P] in
theorem DList.head_iff (hp : p ∈ l) : head = some p ↔ last p = none := by
  obtain ⟨a, b, rfl⟩ := append_of_mem hp
  rw [h.head_eq, h.linked.last_mid]
  cases a with
  | nil => simp
  | cons x a =>
    have hxp : x ≠ p := fun he => (nodup_cons.mp h.nodup).1 (by simp [he])
    simp [hxp, List.getLast?_cons]

omit [DecidableEq P] in
theorem DList.tail_iff (hp : p ∈ l) : tail = some p ↔ next p = none := by
  obtain ⟨a, b, rfl⟩ := append_of_mem hp
  rw [h.tail_eq, h.linked.next_mid]
  cases b using reverseRecOn with
  | nil => simp
  | append_singleton b x =>
    have hxp : x ≠ p := fun he => by
      have hnd := (nodup_cons.mp h.nodup.of_append_right).1
      exact hnd (by simp [he])
    rw [← cons_append, ← append_assoc, List.getLast?_append]
    simp [hxp]

theorem DList.push_back (hp : p ∉ l) :
    DList (updateAt (Function.update next p none) tail (some p)) (Function.update last p tail)
      (head.or (some p)) (some p) (l ++ [p]) := by
  refine ⟨?_, ?_, ?_, by simp⟩
  · rw [nodup_append]
    refine ⟨h.nodup, nodup_singleton p, fun x hx y hy he => hp ?_⟩
    rw [mem_singleton] at hy
    exact hy ▸ he ▸ hx
  · rw [h.tail_eq]
    exact h.linked.push_back h.nodup hp
  · rw [h.head_eq]
    cases l <;> simp

end

theorem DList.replace (h : DList next last head tail (a ++ p :: b)) (hq : q ∉ a ++ p :: b) :
    DList (updateAt (Function.update next q (next p)) (last p) (some q))
      (updateAt (Function.update last q (last p)) (next p) (some q))
      (if last p = none then some q else head) (if next p = none then some q else tail)
      (a ++ q :: b) := by
  have hn : next p = b.head? := by simpa using h.linked.next_mid
  have hl : last p = a.getLast? := by simpa using h.linked.last_mid
  refine ⟨?_, h.linked.replace h.nodup hq, ?_, ?_⟩
  · have hnd := h.nodup
    rw [nodup_middle] at hnd ⊢
    refine nodup_cons.mpr ⟨fun hm => hq ?_, (nodup_cons.mp hnd).2⟩
    rcases mem_append.mp hm with hm | hm
    · exact mem_append_left _ hm
    · exact mem_append_right _ (mem_cons_of_mem _ hm)
  · rw [hl, h.head_eq]
    cases a <;> simp
  · rw [hn, h.tail_eq]
    cases b <;> simp

/-- The nodes of `l` are spread over `n` doubly linked chains: `p` is on the chain with number
`idx p`, and a chain holds nothing else. -/
def Chained (n : Nat) (heads : Nat → Option P) (next last : P → Option P) (idx : P → Nat)
    (l : List P) : Prop :=
  ∀ i < n, ∃ c : List P, c.Nodup ∧ (∀ p, p ∈ c ↔ p ∈ l ∧ idx p = i) ∧
    Linked next last none c none ∧ heads i = c.head?

omit [DecidableEq P] in
theorem Chained.nil (n : Nat) (next last : P → Option P) (idx : P → Nat) :
    Chained n (fun _ => none) next last idx [] :=
  fun _ _ => ⟨[], nodup_nil, by simp, trivial, rfl⟩

section

variable (h : Chained n heads next last idx l)

include h

omit [DecidableEq P] in
theorem Chained.congr {idx' : P → Nat} {l' : List P} (hl : ∀ p, p ∈ l' ↔ p ∈ l)
    (hi : ∀ p ∈ l, idx' p = idx p) :
    Chained n heads next last idx' l' := by
  intro i hin
  obtain ⟨c, hnd, hmem, hlink, hhead⟩ := h i hin
  refine ⟨c, hnd, fun p => ?_, hlink, hhead⟩
  rw [hmem, hl]
  exact and_congr_right fun hp => by rw [hi p hp]

theorem Chained.unlink (hnd : l.Nodup) (hp : p ∈ l) (hi : idx p < n) :
    Chained n (if last p = none then Function.update heads (idx p) (next p) else heads)
      (updateAt next (last p) (next p)) (updateAt last (next p) (last p)) idx (l.erase p) := by
  obtain ⟨c, hcnd, hcmem, hclink, hchead⟩ := h (idx p) hi
  have hpc : p ∈ c := (hcmem p).mpr ⟨hp, rfl⟩
  have hdc : DList next last (heads (idx p)) c.getLast? c := ⟨hcnd, hclink, hchead, rfl⟩
  have hd := hdc.unlink hpc
  intro i hin
  by_cases hip : i = idx p
  · subst hip
    refine ⟨c.erase p, hd.nodup, fun q => ?_, hd.linked, ?_⟩
    · rw [hcnd.mem_erase_iff, hnd.mem_erase_iff, hcmem]
      tauto
    · rw [← hd.head_eq]
      split <;> simp
  · -- a chain without `p`: its nodes are no neighbours of `p`
    obtain ⟨e, hend, hemem, helink, hehead⟩ := h i hin
    have hne : ∀ q ∈ e, q ∉ c := fun q hq hqc =>
      hip (((hemem q).mp hq).2.symm.trans ((hcmem q).mp hqc).2)
    obtain ⟨a, b, rfl⟩ := append_of_mem hpc
    have hn : next p = b.head? := by simpa using hclink.next_mid
    have hl : last p = a.getLast? := by simpa using hclink.last_mid
    refine ⟨e, hend, fun q => ?_, helink.congr (fun q hq => ?_) (fun q hq => ?_), ?_⟩
    · rw [hemem, hnd.mem_erase_iff]
      constructor
      · exact fun hq => ⟨⟨fun he => hip (he ▸ hq.2).symm, hq.1⟩, hq.2⟩
      · exact fun hq => ⟨hq.1.2, hq.2⟩
    · refine updateAt_of_ne _ _ _ fun he => hne q hq ?_
      simp [mem_of_getLast? (hl ▸ he)]
    · refine updateAt_of_ne _ _ _ fun he => hne q hq ?_
      simp [mem_of_head? (hn ▸ he)]
    · split
      · rw [Function.update_of_ne hip, hehead]
      · exact hehead

theorem Chained.push (hp : p ∉ l) (hi : idx p < n) :
    Chained n (Function.update heads (idx p) (some p))
      (Function.update next p (heads (idx p)))
      (updateAt (Function.update last p none) (heads (idx p)) (some p)) idx (p :: l) := by
  obtain ⟨c, hcnd, hcmem, hclink, hchead⟩ := h (idx p) hi
  have hpc : p ∉ c := fun hm => hp ((hcmem p).mp hm).1
  rw [hchead]
  intro i hin
  by_cases hip : i = idx p
  · subst hip
    refine ⟨p :: c, nodup_cons.mpr ⟨hpc, hcnd⟩, fun q => ?_,
      hclink.push_front hcnd hpc, by simp⟩
    simp only [mem_cons, hcmem]
    constructor
    · rintro (rfl | hq)
      · exact ⟨Or.inl rfl, rfl⟩
      · exact ⟨Or.inr hq.1, hq.2⟩
    · rintro ⟨rfl | hq, hqi⟩
      · exact Or.inl rfl
      · exact Or.inr ⟨hq, hqi⟩
  · obtain ⟨e, hend, hemem, helink, hehead⟩ := h i hin
    have hep : ∀ q ∈ e, q ≠ p := fun q hq he => hp (he ▸ ((hemem q).mp hq).1)
    have hne : ∀ q ∈ e, q ∉ c := fun q hq hqc =>
      hip (((hemem q).mp hq).2.symm.trans ((hcmem q).mp hqc).2)
    refine ⟨e, hend, fun q => ?_, helink.congr (fun q hq => ?_) (fun q hq => ?_), ?_⟩
    · rw [hemem]
      simp only [mem_cons]
      constructor
      · exact fun hq => ⟨Or.inr hq.1, hq.2⟩
      · rintro ⟨rfl | hq, hqi⟩
        · exact (hip hqi.symm).elim
        · exact ⟨hq, hqi⟩
    · exact Function.update_of_ne (hep q hq) _ _
    · rw [updateAt_of_ne _ _ _ fun he => hne q hq (mem_of_head? he),
        Function.update_of_ne (hep q hq)]
    · rw [Function.update_of_ne hip, hehead]

omit [DecidableEq P] in
theorem Chained.head_iff (hp : p ∈ l)
    (hi : idx p < n) : heads (idx p) = some p ↔ last p = none := by
  obtain ⟨c, hcnd, hcmem, hclink, hchead⟩ := h (idx p) hi
  obtain ⟨a, b, rfl⟩ := append_of_mem ((hcmem p).mpr ⟨hp, rfl⟩)
  rw [hchead, hclink.last_mid]
  cases a with
  | nil => simp
  | cons x a =>
    have hxp : x ≠ p := fun he => (nodup_cons.mp hcnd).1 (by simp [he])
    simp [hxp, List.getLast?_cons]

end

end Reasoning
