import Php53.Standard.Progress

/-!
# Bounds — where the unserializer reads

The scanner stays inside the text.  Two actions move the cursor two bytes on without having looked
at both of them.  `Mark` records where they do, and the text is read out of bounds exactly when
one of the marks does not fit.
-/

open Php53.Zend Reasoning

namespace Php53.Standard

variable {n : Nat} {buf : List UInt8} {env : Env}

variable {A B : Prop} {rval : ZvalPtr} {p : Nat} {α : Type}
  {unserialize : Role → Nat → ZvalPtr → Bool → Unser Ret} {Q : Except Stop α → State → Prop}

def Mark.Fits (n : Nat) : Mark → Prop
  | .quote off role => off + 2 ≤ n ∨ role = .data false
  | .count off => off + 2 ≤ n

def MarksFit (n : Nat) (marks : List Mark) : Prop := ∀ mark ∈ marks, mark.Fits n

def LastMisfits (n : Nat) (s : State) : Prop :=
  s.unread = true ∧ ∃ (init : List Mark) (mark : Mark),
    s.marks = init ++ [mark] ∧ MarksFit n init ∧ ¬ mark.Fits n

/-- Everything in bounds and every mark fitting, with the cursor where `A` says; or a read out of
bounds after a mark that does not fit; or such a mark, and by `B` the next read out of bounds. -/
def Held (n : Nat) (A B : Prop) (s : State) : Prop :=
  (s.lastRead ≤ n ∧ MarksFit n s.marks ∧ A) ∨
    (n < s.lastRead ∧ ¬ MarksFit n s.marks ∧ ¬ LastMisfits n s) ∨
      (s.lastRead ≤ n ∧ LastMisfits n s ∧ B)

theorem Held.mono {A' B' : Prop} {s : State} (h : Held n A B s) (hA : A → A') (hB : B → B') :
    Held n A' B' s := by
  rcases h with ⟨h1, h2, h3⟩ | h | ⟨h1, h2, h3⟩
  · exact Or.inl ⟨h1, h2, hA h3⟩
  · exact Or.inr (Or.inl h)
  · exact Or.inr (Or.inr ⟨h1, h2, hB h3⟩)

section Rules

variable {A B : Prop} {α : Type} {Q : Except Stop α → State → Prop}

variable {off : Nat} {g : Unit → Unser α}

theorem held_perform_bind {op : MemOp} (hg : Fallible.Triple (Held n A B) (g ()) Q) :
    Fallible.Triple (Held n A B) (perform env op >>= g) Q :=
  Fallible.Triple.update_bind (R := Held n A B) (fun _ h => h) hg

theorem LastMisfits.not_marksFit {s : State} (h : LastMisfits n s) : ¬ MarksFit n s.marks := by
  obtain ⟨-, init, mark, hmarks, -, hmark⟩ := h
  rw [hmarks]
  exact fun h => hmark (h mark (List.mem_append_right _ (List.mem_singleton_self _)))

theorem held_touch {s : State} (h : Held n A B s) (hA : A → off ≤ n) (hB : B → n < off) :
    Held n A False { s with lastRead := max s.lastRead off, unread := false } := by
  rcases h with ⟨h1, h2, h3⟩ | ⟨h1, h2, -⟩ | ⟨-, h1, h2⟩
  · exact Or.inl ⟨Nat.max_le.mpr ⟨h1, hA h3⟩, h2, h3⟩
  · exact Or.inr (Or.inl ⟨Nat.lt_of_lt_of_le h1 (Nat.le_max_left _ _), h2, fun h => nomatch h.1⟩)
  · have hlt := Nat.lt_of_lt_of_le (hB h2) (Nat.le_max_right s.lastRead off)
    exact Or.inr (Or.inl ⟨hlt, h1.not_marksFit, fun h => nomatch h.1⟩)

theorem held_touch_bind (hA : A → off ≤ n) (hB : B → n < off)
    (hg : Fallible.Triple (Held n A False) (g ()) Q) :
    Fallible.Triple (Held n A B) (touch off >>= g) Q :=
  Fallible.Triple.update_bind (R := Held n A False) (fun _ h => held_touch h hA hB) hg

theorem peek_bind (off : Nat) (g : UInt8 → Unser α) :
    peek buf off >>= g = touch off >>= fun _ => g (byteAt buf off) := rfl

theorem held_peek_bind {g : UInt8 → Unser α} (hA : A → off ≤ n) (hB : B → n < off)
    (hg : Fallible.Triple (Held n A False) (g (byteAt buf off)) Q) :
    Fallible.Triple (Held n A B) (peek buf off >>= g) Q := by
  rw [peek_bind]
  exact held_touch_bind hA hB hg

theorem held_addMark_bind {mark : Mark} {A' B' : Prop} (hA : A → mark.Fits n → A')
    (hB : A → ¬ mark.Fits n → B') (hg : Fallible.Triple (Held n A' B') (g ()) Q) :
    Fallible.Triple (Held n A False) (addMark mark >>= g) Q := by
  refine Fallible.Triple.update_bind (R := Held n A' B') (fun s h => ?_) hg
  rcases h with ⟨h1, h2, h3⟩ | ⟨h1, h2, -⟩ | ⟨-, -, h⟩
  · by_cases hfit : mark.Fits n
    · refine Or.inl ⟨h1, fun x hx => ?_, hA h3 hfit⟩
      rcases List.mem_append.mp hx with hx | hx
      · exact h2 x hx
      · exact List.mem_singleton.mp hx ▸ hfit
    · exact Or.inr (Or.inr ⟨h1, ⟨rfl, s.marks, mark, rfl, h2, hfit⟩, hB h3 hfit⟩)
  · refine Or.inr (Or.inl ⟨h1, fun h => h2 fun x hx => h x (List.mem_append_left _ hx), ?_⟩)
    rintro ⟨-, init, last, hmarks, hinit, -⟩
    exact h2 ((List.append_inj' hmarks rfl).1 ▸ hinit)
  · exact h.elim

end Rules

def ValuePost (n : Nat) (role : Role) : Except Stop Ret → State → Prop
  | .ok ret, s =>
    Held n (ret.ok = true → ret.p ≤ n ∨ role = .data false ∧ ret.p = n + 1)
      (ret.ok = true ∧ role ≠ .data false ∧ n < ret.p ∧
        ∃ str, (s.mem.zvals ret.rval).value = .string str) s
  | .error e, s => e = .nullPointer → Held n True True s

def NestedPost (n : Nat) : Except Stop (Bool × Nat) → State → Prop
  | .ok nested, s =>
    Held n (nested.1 = true → nested.2 ≤ n) (nested.1 = true ∧ n < nested.2) s
  | .error e, s => e = .nullPointer → Held n True True s

/-- A cursor at `p`, past the end only after a mark that does not fit. -/
def AtCursor (n p : Nat) (s : State) : Prop := Held n (p ≤ n) (n < p) s

def KeepsBounds (n : Nat) (unserialize : Role → Nat → ZvalPtr → Bool → Unser Ret) : Prop :=
  ∀ role p rval varHash,
    Fallible.Triple (AtCursor n p) (unserialize role p rval varHash) (ValuePost n role)

def FinishedPost (n : Nat) : Except Stop Ret → State → Prop
  | .ok ret, s => Held n (ret.ok = true → ret.p ≤ n) False s
  | .error e, s => e = .nullPointer → Held n True True s

theorem FinishedPost.valuePost {P : State → Prop} {m : Unser Ret}
    (h : Fallible.Triple P m (FinishedPost n)) (role : Role) :
    Fallible.Triple P m (ValuePost n role) := by
  refine h.conseq (fun _ h => h) fun r s h => ?_
  cases r with
  | ok ret => exact Held.mono h (fun h hok => Or.inl (h hok)) False.elim
  | error e => exact h

theorem triple_failed (hB : ¬ B) :
    Fallible.Triple (Held n A B) (pure ⟨false, rval, p⟩ : Unser Ret) (FinishedPost n) :=
  Fallible.Triple.pure fun _ h => h.mono (fun _ h => nomatch h) fun h => (hB h).elim

theorem triple_succeeded (rval : ZvalPtr) (hp : A → p ≤ n) :
    Fallible.Triple (Held n A False) (pure ⟨true, rval, p⟩ : Unser Ret) (FinishedPost n) :=
  Fallible.Triple.pure fun _ h => h.mono (fun hA _ => hp hA) False.elim

theorem triple_finishNestedData (hnul : byteAt buf n = 0) (rval : ZvalPtr) (p : Nat) :
    Fallible.Triple (AtCursor n p) (finishNestedData buf rval p) (FinishedPost n) := by
  refine held_peek_bind id id (Fallible.Triple.pure fun s h => ?_)
  refine h.mono (fun hle hok => ?_) False.elim
  exact lt_of_byteAt hnul hle (by decide) (of_decide_eq_true hok)

theorem held_storeData_bind {ht : Container} {k : HashKey} {data : ZvalPtr} {varHash : Bool}
    {g : Unit → Unser α} (hQ : ∀ e s, Held n True True s → Q (.error e) s)
    (hg : Fallible.Triple (Held n A B) (g ()) Q) :
    Fallible.Triple (Held n A B) (storeData env ht k data varHash >>= g) Q := by
  refine Fallible.Triple.bind (R := fun _ => Held n A B) ?_ fun _ => hg
  refine Fallible.Triple.getState_bind_any fun s => ?_
  cases ht with
  | array z =>
    dsimp only
    cases replaced s.mem (.array z) k with
    | none => exact Fallible.Triple.update fun _ h => h
    | some old =>
      dsimp only
      refine Fallible.Triple.ite (fun _ => ?_) fun _ => ?_
      · exact held_perform_bind (Fallible.Triple.update fun _ h => h)
      · refine Fallible.Triple.stop fun s h => hQ _ s ?_
        exact h.mono (fun _ => trivial) fun _ => trivial
  | properties handle => exact Fallible.Triple.update fun _ h => h

theorem KeepsBounds.bind (hu : KeepsBounds n unserialize) {g : Ret → Unser α} {role : Role}
    {varHash : Bool} (hQ : ∀ e s, (e = .nullPointer → Held n True True s) → Q (.error e) s)
    (hg : ∀ ret, Fallible.Triple (ValuePost n role (.ok ret)) (g ret) Q) :
    Fallible.Triple (AtCursor n p) (unserialize role p rval varHash >>= g) Q := by
  refine Fallible.Triple.bind (R := fun ret => ValuePost n role (.ok ret)) ?_ hg
  refine (hu role p rval varHash).conseq (fun _ h => h) fun r s h => ?_
  cases r with
  | ok ret => exact h
  | error e => exact hQ e s h

theorem triple_processNestedData (hnul : byteAt buf n = 0) (hu : KeepsBounds n unserialize)
    (ht : Container) (varHash : Bool) (fuel : Nat) (elements : Int) (p : Nat) :
    Fallible.Triple (AtCursor n p)
      (processNestedData env buf unserialize ht varHash fuel elements p) (NestedPost n) := by
  have hfailed : ∀ {A : Prop} {q : Nat}, Fallible.Triple (Held n A False)
      (pure (false, q) : Unser (Bool × Nat)) (NestedPost n) := fun {_ _} =>
    Fallible.Triple.pure fun _ h => h.mono (fun _ h => absurd h Bool.false_ne_true) False.elim
  have hdone : ∀ {q : Nat}, Fallible.Triple (AtCursor n q)
      (pure (true, q) : Unser (Bool × Nat)) (NestedPost n) := fun {_} =>
    Fallible.Triple.pure fun _ h => h.mono (fun h _ => h) fun h => ⟨rfl, h⟩
  induction fuel generalizing elements p with
  | zero =>
    unfold processNestedData
    exact Fallible.Triple.ite (fun _ => hdone) fun _ => Fallible.Triple.stop fun _ _ he => by cases he
  | succ fuel ih =>
    unfold processNestedData
    refine Fallible.Triple.ite (fun _ => hdone) fun _ => ?_
    refine Fallible.Triple.getState_bind_any fun s => held_perform_bind (hu.bind ?_ fun key => ?_)
    · exact fun _ _ h => h
    refine Fallible.Triple.getState_bind fun s => ?_
    -- a key that ends past the text is a string, and so can be a key of both kinds of tables
    have hkey : ∀ k, (if key.ok then containerKey ht (s.mem.zvals key.rval).value else none) = k →
        ∀ t, ValuePost n .key (.ok key) t ∧ t = s →
          Held n (k.isSome → key.p ≤ n) (k.isSome ∧ n < key.p) t := by
      rintro k rfl t ⟨h, rfl⟩
      refine Held.mono h (fun h hk => ?_) ?_
      · have hok : key.ok = true := by
          by_contra hno
          rw [if_neg hno] at hk
          cases hk
        exact (h hok).resolve_right fun h => by cases h.1
      · rintro ⟨hok, -, hlt, str, hstr⟩
        refine ⟨?_, hlt⟩
        rw [if_pos hok, hstr]
        cases ht <;> rfl
    revert hkey
    generalize (if key.ok then containerKey ht (s.mem.zvals key.rval).value else none) = k
    intro hkey
    cases k with
    | none =>
      have hnone : ∀ t, ValuePost n .key (.ok key) t ∧ t = s → Held n True False t := fun t h =>
        (hkey none rfl t h).mono (fun _ => trivial) fun h => Bool.false_ne_true h.1
      exact Fallible.Triple.conseq (held_perform_bind hfailed) hnone fun _ _ h => h
    | some k =>
      have hcursor := fun t h => (hkey (some k) rfl t h).mono (fun h => h rfl) fun h => h.2
      refine Fallible.Triple.conseq ?_ hcursor fun _ _ h => h
      refine Fallible.Triple.getState_bind_any fun s => held_perform_bind (hu.bind ?_ fun data => ?_)
      · exact fun _ _ h => h
      refine Fallible.Triple.ite (fun hok => ?_) fun hok => ?_
      · have hdata : ∀ t, ValuePost n (.data (decide (elements - 1 = 0))) (.ok data) t →
            Held n (data.p ≤ n ∨ elements - 1 ≠ 0 ∧ data.p = n + 1)
              (elements - 1 = 0 ∧ n < data.p) t := by
          refine fun t h => Held.mono h (fun h => (h hok).imp_right ?_) fun h => ?_
          · simp
          · exact ⟨by simpa using h.2.1, h.2.2.1⟩
        refine Fallible.Triple.conseq (held_storeData_bind (fun _ _ h _ => h)
          (held_perform_bind ?_)) hdata fun _ _ h => h
        by_cases hlast : elements - 1 = 0
        · -- the container goes on with `finish_nested_data` at the cursor
          rw [if_neg (not_not.mpr hlast)]
          refine Fallible.Triple.conseq hdone (fun t h => h.mono (fun h => ?_) And.right) fun _ _ h => h
          exact h.resolve_right fun h => h.1 hlast
        · -- a cursor behind the NUL is found out by the byte in front of it
          rw [if_pos hlast]
          refine held_peek_bind (by omega) (fun h => absurd h.1 hlast) ?_
          refine Fallible.Triple.ite (fun _ => hfailed) fun hc => ?_
          refine (ih (elements - 1) data.p).conseq (fun t h => h.mono ?_ False.elim) fun _ _ h => h
          rintro (hle | ⟨-, hend⟩)
          · exact hle
          · rw [hend, Nat.add_sub_cancel, hnul] at hc
            exact absurd (by decide) hc
      · have hno : ∀ t, ValuePost n (.data (decide (elements - 1 = 0))) (.ok data) t →
            Held n True False t := fun t h => Held.mono h (fun _ => trivial) fun h => hok h.1
        exact Fallible.Triple.conseq (held_perform_bind (held_perform_bind hfailed)) hno
          fun _ _ h => h

theorem triple_objectCommon2 (hnul : byteAt buf n = 0) (hu : KeepsBounds n unserialize) (fuel : Nat)
    (rval : ZvalPtr) (elements : Int) (p : Nat) (varHash : Bool) :
    Fallible.Triple (AtCursor n p) (objectCommon2 env buf unserialize fuel rval elements p varHash)
      (FinishedPost n) := by
  refine Fallible.Triple.getState_bind_any fun s => ?_
  refine Fallible.Triple.bind (R := fun nested => NestedPost n (.ok nested)) ?_ fun nested => ?_
  · refine (triple_processNestedData hnul hu _ varHash fuel elements p).conseq (fun _ h => h)
      fun r s h => ?_
    cases r with
    | ok _ => exact h
    | error _ => exact h
  refine Fallible.Triple.ite (fun hok => ?_) fun hok => ?_
  · have hcursor : ∀ t, NestedPost n (.ok nested) t → AtCursor n nested.2 t := fun t h =>
      Held.mono h (fun h => h hok) And.right
    refine Fallible.Triple.conseq (Fallible.Triple.getState_bind_any fun s => ?_) hcursor
      fun _ _ h => h
    refine Fallible.Triple.ite (fun _ => held_perform_bind ?_) fun _ => ?_
    · exact triple_finishNestedData hnul rval nested.2
    · exact triple_finishNestedData hnul rval nested.2
  · exact (triple_failed fun h => hok h.1).conseq (fun _ h => h) fun _ _ h => h

theorem held_objectCommon1_bind (hnul : byteAt buf n = 0) {ce : ClassPtr} {g : Int × Nat → Unser α}
    (hp : A → p + 2 ≤ n) (hg : ∀ elements p, Fallible.Triple (AtCursor n p) (g (elements, p)) Q) :
    Fallible.Triple (Held n A False) (objectCommon1 env buf ce rval p >>= g) Q := by
  have hgoal : objectCommon1 env buf ce rval p >>= g =
      (touch (parseIv2 buf (p + 2)).2 >>= fun _ => addMark (.count (parseIv2 buf (p + 2)).2) >>=
        fun _ => perform env (.objectInit rval ce) >>= fun _ =>
          g ((parseIv2 buf (p + 2)).1.toInt, (parseIv2 buf (p + 2)).2 + 2)) := by
    unfold objectCommon1
    simp only [Fallible.bind_assoc, Fallible.pure_bind]
  rw [hgoal]
  refine held_touch_bind (fun h => parseIv2_le hnul (hp h)) False.elim ?_
  refine held_addMark_bind (fun _ h => h) (fun _ h => Nat.lt_of_not_le h) ?_
  exact held_perform_bind (hg _ _)

theorem triple_objectCustom (hnul : byteAt buf n = 0) (ce : ClassPtr) (rval : ZvalPtr)
    (hp : A → p + 2 ≤ n) :
    Fallible.Triple (Held n A False) (objectCustom env buf n ce rval p) (FinishedPost n) := by
  refine held_touch_bind (fun h => parseIv2_le hnul (hp h)) False.elim ?_
  refine Fallible.Triple.ite (fun _ => triple_failed id) fun hlen => ?_
  have hend : (parseIv2 buf (p + 2)).2 + 2 + (parseIv2 buf (p + 2)).1.toNat ≤ n := by omega
  have hfinish : Fallible.Triple (Held n A False) (finishNestedData buf rval
      ((parseIv2 buf (p + 2)).2 + 2 + (parseIv2 buf (p + 2)).1.toNat)) (FinishedPost n) :=
    (triple_finishNestedData hnul rval _).conseq
      (fun _ h => h.mono (fun _ => hend) False.elim) fun _ _ h => h
  refine Fallible.Triple.ite (fun _ => ?_) fun _ => held_perform_bind hfinish
  refine Fallible.Triple.getState_bind_any fun s => held_perform_bind ?_
  exact Fallible.Triple.ite (fun _ => hfinish) fun _ => triple_failed id

theorem initZval_value (m : Mem) (z : ZvalPtr) (v : Value) :
    ((m.initZval z v).zvals z).value = v := by
  simp [Mem.initZval, Mem.setZval]

theorem triple_closeString (hnul : byteAt buf n = 0) (role : Role) (rval : ZvalPtr)
    (str : List UInt8) {close : Nat} (hclose : A → close ≤ n) :
    Fallible.Triple (Held n A False) (closeString env buf role rval str close)
      (ValuePost n role) := by
  refine held_peek_bind hclose False.elim (Fallible.Triple.ite (fun _ => ?_) fun hquote => ?_)
  · exact FinishedPost.valuePost (triple_failed id) role
  have hlt : A → close < n := fun h =>
    lt_of_byteAt hnul (hclose h) (by decide) (not_not.mp hquote)
  have hfits : A → (Mark.quote close role).Fits n →
      close + 2 ≤ n ∨ role = .data false ∧ close + 2 = n + 1 := by
    intro h hfit
    have hlt := hlt h
    by_cases hle : close + 2 ≤ n
    · exact Or.inl hle
    · exact Or.inr ⟨hfit.resolve_left hle, by omega⟩
  have hmisfits : A → ¬ (Mark.quote close role).Fits n → role ≠ .data false ∧ n < close + 2 :=
    fun _ h => ⟨fun hrole => h (Or.inr hrole), Nat.lt_of_not_le fun hle => h (Or.inl hle)⟩
  refine held_addMark_bind hfits hmisfits ?_
  refine fun s h => Held.mono h (fun h _ => h) fun h => ⟨rfl, h.1, h.2, str, ?_⟩
  exact initZval_value _ _ _

theorem held_phpStoreClassName_bind {z : ZvalPtr} {name : List UInt8} {g : Unit → Unser α}
    (hg : Fallible.Triple (Held n A B) (g ()) Q) :
    Fallible.Triple (Held n A B) (phpStoreClassName env z name >>= g) Q := by
  refine Fallible.Triple.bind (R := fun _ => Held n A B) ?_ fun _ => hg
  refine Fallible.Triple.getState_bind_any fun s => held_perform_bind (held_perform_bind ?_)
  exact Fallible.Triple.update fun _ h => h

theorem triple_objectRule (hnul : byteAt buf n = 0) (hu : KeepsBounds n unserialize)
    (fuel start : Nat) {cursor : Nat} (rval : ZvalPtr) (varHash : Bool) (hcursor : A → cursor ≤ n) :
    Fallible.Triple (Held n A False)
      (objectRule env buf n unserialize fuel start cursor rval varHash) (FinishedPost n) := by
  refine held_perform_bind (Fallible.Triple.ite (fun _ => triple_failed id) fun hlen => ?_)
  rw [not_or] at hlen
  have hname := fun h => add_le_of_sizeDiff (hcursor h) hlen.1
  refine held_peek_bind hname False.elim (Fallible.Triple.ite (fun _ => triple_failed id) ?_)
  intro hquote
  rw [not_not] at hquote
  have hlt := fun h => lt_of_byteAt hnul (hname h) (by decide) hquote
  refine held_peek_bind hlt False.elim (Fallible.Triple.ite (fun _ => triple_failed id) ?_)
  intro hcolon
  rw [not_not] at hcolon
  have hnumber := fun h => lt_of_byteAt hnul (hlt h) (by decide) hcolon
  refine held_touch_bind ?_ False.elim (Fallible.Triple.ite (fun _ => triple_failed id) fun _ => ?_)
  · exact fun h => Scanner.runLength_le (by rw [hnul]; rfl) (hcursor h)
  refine Fallible.Triple.getState_bind_any fun s => held_perform_bind ?_
  refine Fallible.Triple.ite (fun _ => ?_) fun _ => ?_
  · refine Fallible.Triple.bind (R := fun ret => FinishedPost n (.ok ret)) ?_ fun ret => ?_
    · refine (triple_objectCustom hnul _ rval hnumber).conseq (fun _ h => h) fun r s h => ?_
      cases r with
      | ok _ => exact h
      | error _ => exact h
    refine Fallible.Triple.ite (fun _ => ?_) fun _ => Fallible.Triple.pure fun _ h => h
    exact held_phpStoreClassName_bind (Fallible.Triple.pure fun _ h => h)
  · refine held_objectCommon1_bind hnul hnumber fun elements p => ?_
    refine Fallible.Triple.ite (fun _ => held_phpStoreClassName_bind ?_) fun _ => ?_
    · exact triple_objectCommon2 hnul hu fuel rval elements p varHash
    · exact triple_objectCommon2 hnul hu fuel rval elements p varHash

theorem triple_backReference (rval : ZvalPtr) (varHash isRef : Bool) (number : BitVec 64)
    {cursor : Nat} (hcursor : A → cursor ≤ n) :
    Fallible.Triple (Held n A False) (backReference env rval varHash isRef number cursor)
      (FinishedPost n) := by
  refine Fallible.Triple.ite (fun _ => ?_) fun _ => triple_failed id
  refine Fallible.Triple.getState_bind_any fun s => ?_
  dsimp only
  cases if number - 1 = -1 then none else s.mem.varAccess (number - 1) with
  | none => exact triple_failed id
  | some z =>
    have hdone := triple_succeeded (n := n) z hcursor
    refine Fallible.Triple.ite (fun _ => held_perform_bind (held_perform_bind hdone)) fun _ => ?_
    refine Fallible.Triple.ite (fun _ => triple_failed id) fun _ => ?_
    exact held_perform_bind (held_perform_bind hdone)

theorem triple_action (hnul : byteAt buf n = 0) (hu : KeepsBounds n unserialize) (fuel : Nat)
    (role : Role) (start cursor : Nat) (rval : ZvalPtr) (varHash : Bool) (rule : Rule)
    (hscan : A → rule ≠ .any → Scanned n start cursor rule) :
    Fallible.Triple (Held n A False)
      (action env buf n unserialize fuel role start cursor rval varHash rule)
      (ValuePost n role) := by
  have hcursor : rule ≠ .any → A → cursor ≤ n := fun hrule h => (hscan h hrule).cursor_le
  have hscalar : rule ≠ .any → ∀ v, Fallible.Triple (Held n A False)
      (perform env (.initZval rval v) >>= fun _ => pure ⟨true, rval, cursor⟩) (ValuePost n role) :=
    fun hrule _ =>
      FinishedPost.valuePost (held_perform_bind (triple_succeeded rval (hcursor hrule))) role
  have hfailed : ∀ {q : Nat}, Fallible.Triple (Held n A False)
      (pure ⟨false, rval, q⟩ : Unser Ret) (ValuePost n role) := fun {_} =>
    FinishedPost.valuePost (triple_failed id) role
  cases rule with
  | reference =>
    exact FinishedPost.valuePost (triple_backReference _ _ _ _ (hcursor nofun)) role
  | copy => exact FinishedPost.valuePost (triple_backReference _ _ _ _ (hcursor nofun)) role
  | null => exact hscalar nofun _
  | bool => exact hscalar nofun _
  | long => exact hscalar nofun _
  | infNan => exact hscalar nofun _
  | double => exact hscalar nofun _
  | string =>
    refine Fallible.Triple.ite (fun _ => hfailed) fun hlen => ?_
    exact triple_closeString hnul role rval _ fun h => add_le_of_sizeDiff (hcursor nofun h) hlen
  | escapedString =>
    refine Fallible.Triple.ite (fun _ => hfailed) fun hlen => ?_
    refine Fallible.Triple.ite (fun _ => hfailed) fun hle => ?_
    have hstr := unserializeStr_le hnul (parseUiv buf (start + 2)) (Nat.le_of_not_lt hle)
    refine held_touch_bind (fun _ => hstr.1) False.elim ?_
    revert hstr
    generalize unserializeStr buf n (parseUiv buf (start + 2)) cursor = r
    intro hstr
    obtain ⟨_ | str, last⟩ := r
    · exact hfailed
    · exact triple_closeString hnul role rval _ fun _ => hstr.2 str rfl
  | array =>
    refine Fallible.Triple.ite (fun _ => hfailed) fun _ => held_perform_bind ?_
    refine Fallible.Triple.bind (R := fun nested => NestedPost n (.ok nested)) ?_ fun nested => ?_
    · refine (triple_processNestedData hnul hu _ varHash fuel _ cursor).conseq (fun _ h => ?_)
        fun r s h => ?_
      · exact Held.mono h (hcursor nofun) False.elim
      · cases r with
        | ok _ => exact h
        | error _ => exact h
    refine Fallible.Triple.ite (fun hok => ?_) fun hok => ?_
    · refine (FinishedPost.valuePost (triple_finishNestedData hnul rval nested.2) role).conseq
        (fun t h => ?_) fun _ _ h => h
      exact Held.mono h (fun h => h hok) And.right
    · exact FinishedPost.valuePost (triple_failed fun h => hok h.1) role
  | plainObject =>
    refine held_perform_bind (held_objectCommon1_bind hnul (fun h => ?_) fun elements p => ?_)
    · exact (hscan h nofun).colon rfl
    · exact FinishedPost.valuePost (triple_objectCommon2 hnul hu fuel rval elements p varHash) role
  | object =>
    exact FinishedPost.valuePost (triple_objectRule hnul hu fuel start rval varHash
      (hcursor nofun)) role
  | brace => exact hfailed
  | any => exact hfailed

theorem keepsBounds_unserialize (hnul : byteAt buf n = 0) (fuel : Nat) :
    KeepsBounds n (unserializeFuel env buf n fuel) := by
  induction fuel with
  | zero => exact fun _ _ _ _ => Fallible.Triple.stop fun _ _ he => by cases he
  | succ fuel ih =>
    intro role p rval varHash
    have hscan : p ≤ n → (scanRule buf p (candidates (byteAt buf p))).2.2 ≤ n ∧
        ((scanRule buf p (candidates (byteAt buf p))).1 ≠ .any →
          Scanned n p (scanRule buf p (candidates (byteAt buf p))).2.1
            (scanRule buf p (candidates (byteAt buf p))).1) := by
      intro hle
      rcases Nat.lt_or_eq_of_le hle with hlt | rfl
      · exact ⟨(scanRule_stays hnul hlt _).1, fun _ => (scanRule_stays hnul hlt _).2⟩
      · rw [hnul, scanRule_nul]
        exact ⟨Nat.le_refl _, fun h => absurd rfl h⟩
    refine held_peek_bind id id ?_
    have hrest : Fallible.Triple (Held n (p ≤ n) False)
        (touch (scanRule buf p (candidates (byteAt buf p))).2.2 >>= fun _ =>
          action env buf n (unserializeFuel env buf n fuel) fuel role p
            (scanRule buf p (candidates (byteAt buf p))).2.1 rval varHash
            (scanRule buf p (candidates (byteAt buf p))).1) (ValuePost n role) :=
      held_touch_bind (fun hle => (hscan hle).1) False.elim
        (triple_action hnul ih fuel role p _ rval varHash _ fun hle => (hscan hle).2)
    exact Fallible.Triple.ite (fun _ => held_perform_bind hrest) fun _ => hrest

def State.start (mem : Mem) : State := ⟨mem, 0, [], false, []⟩

/-- No byte behind offset `n` was read, and a cursor that comes with success is not behind it. -/
def InBounds (n : Nat) (run : Except Stop Ret × State) : Prop :=
  run.2.lastRead ≤ n ∧ ∀ ret, run.1 = .ok ret → ret.ok = true → ret.p ≤ n

/-- Every mark fits.  The only other way to stay inside is that `var_push_dtor` dereferences NULL
right behind the first mark that does not. -/
def CursorsFit (n : Nat) (run : Except Stop Ret × State) : Prop :=
  MarksFit n run.2.marks ∨ (run.1 = .error .nullPointer ∧ LastMisfits n run.2)

theorem inBounds_iff_of_held {run : Except Stop Ret × State} (hsteps : run.1 ≠ .error .steps)
    (h : ValuePost n .whole run.1 run.2) : InBounds n run ↔ CursorsFit n run := by
  obtain ⟨r, s⟩ := run
  cases r with
  | ok ret =>
    have hfit : CursorsFit n (.ok ret, s) ↔ MarksFit n s.marks :=
      or_iff_left fun h => nomatch h.1
    rw [hfit]
    rcases h with ⟨h1, h2, h3⟩ | ⟨h1, h2, -⟩ | ⟨-, h1, h2, -, h3, -⟩
    · refine iff_of_true ⟨h1, fun ret' hret hok => ?_⟩ h2
      obtain rfl := Except.ok.inj hret
      exact (h3 hok).resolve_right fun h => nomatch h.1
    · exact iff_of_false (fun h => Nat.not_le_of_lt h1 h.1) h2
    · exact iff_of_false (fun h => Nat.not_le_of_lt h3 (h.2 ret rfl h2)) h1.not_marksFit
  | error e =>
    obtain rfl : e = .nullPointer := by
      cases e with
      | steps => exact absurd rfl hsteps
      | nullPointer => rfl
    rcases h rfl with ⟨h1, h2, -⟩ | ⟨h1, h2, h3⟩ | ⟨h1, h2, -⟩
    · exact iff_of_true ⟨h1, nofun⟩ (Or.inl h2)
    · refine iff_of_false (fun h => Nat.not_le_of_lt h1 h.1) ?_
      rintro (h | h)
      · exact h2 h
      · exact h3 h.2
    · exact iff_of_true ⟨h1, nofun⟩ (Or.inr ⟨rfl, h2⟩)

/-- The text is read inside its bounds, and left inside them, exactly when the cursor skips no
bytes that are not there. -/
theorem inBounds_iff_cursorsFit (env : Env) (text rest : List UInt8) (rval : ZvalPtr) (mem : Mem) :
    (phpVarUnserialize env text rest rval (.start mem)).1 ≠ .error .steps ∧
      (InBounds text.length (phpVarUnserialize env text rest rval (.start mem)) ↔
        CursorsFit text.length (phpVarUnserialize env text rest rval (.start mem))) := by
  have hsteps := unserialize_ends env text rest rval (.start mem)
  have hnul : byteAt (text ++ 0 :: rest) text.length = 0 := by
    rw [byteAt, List.getD_eq_getElem?_getD, List.getElem?_append_right (Nat.le_refl _)]
    simp
  have hstart : AtCursor text.length 0 (.start mem) :=
    Or.inl ⟨Nat.zero_le _, (fun _ he => by cases he), Nat.zero_le _⟩
  refine ⟨hsteps, inBounds_iff_of_held hsteps ?_⟩
  exact keepsBounds_unserialize hnul _ .whole 0 rval true _ hstart

/-- `s:0:""` -/
theorem cursor_behind_end : ¬ ∀ (env : Env) (text rest : List UInt8) (rval : ZvalPtr) (mem : Mem),
    InBounds text.length (phpVarUnserialize env text rest rval (.start mem)) := by
  intro h
  have hrun : (phpVarUnserialize .bare ("s:0:\"\"".toList.map ch) [] 0 (.start .fresh)).1 =
      .ok ⟨true, 0, 7⟩ := by
    rfl
  have hle := (h .bare ("s:0:\"\"".toList.map ch) [] 0 .fresh).2 _ hrun rfl
  exact absurd hle (by decide)

end Php53.Standard
