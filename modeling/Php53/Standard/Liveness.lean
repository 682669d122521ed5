import Php53.Standard.Bounds
import Php53.Standard.Slots

/-!
# Liveness — the zvals that back-references can return

Every change of the heap that `php_var_unserialize` makes keeps the slots apart, except three: the
rule `r:` releases the zval that it has just put into a slot, storing a property releases the one
it replaces, and an element that fails is freed without regard to its slot.  `StepOk` says when
these do no harm, and then every back-reference finds a zval that is alive.
-/

open Php53.Zend Reasoning

namespace Php53.Standard

def StepOk (m : Mem) : MemOp → Prop
  | .releaseForCopy z => Spares m z
  | .discardData z => z ∉ m.slots
  | .updateProperty h k _ => ∀ old, findKey (m.objects h).properties k = some old → Spares m old
  | _ => True

/-- As long as every step was harmless, the slots have been alive throughout, and `P` holds. -/
def Guarded (P : Mem → Prop) (s : State) : Prop :=
  (∀ x ∈ s.trace, StepOk x.1 x.2) → (∀ x ∈ s.trace, x.1.SlotsLive) ∧ P s.mem

theorem Guarded.mono {P O : Mem → Prop} {s : State} (h : Guarded P s) (hP : ∀ m, P m → O m) :
    Guarded O s := fun hok => ⟨(h hok).1, hP _ (h hok).2⟩

section Rules

variable {env : Env} {α : Type} {Q : Except Stop α → State → Prop} {P O : Mem → Prop}
  {g : Unit → Unser α}

theorem Guarded.perform {s : State} (h : Guarded P s) {op : MemOp}
    (hop : P s.mem → StepOk s.mem op → s.mem.SlotsLive ∧ O (op.apply env s.mem)) :
    Guarded O { s with mem := op.apply env s.mem, trace := s.trace ++ [(s.mem, op)] } := by
  intro hok
  have hlast : StepOk s.mem op := hok (s.mem, op) (List.mem_append_right _ (List.mem_singleton_self _))
  obtain ⟨hlive, hP⟩ := h fun x hx => hok x (List.mem_append_left _ hx)
  refine ⟨fun x hx => ?_, (hop hP hlast).2⟩
  rcases List.mem_append.mp hx with hx | hx
  · exact hlive x hx
  · rw [List.mem_singleton.mp hx]
    exact (hop hP hlast).1

theorem guarded_perform_bind {op : MemOp}
    (hop : ∀ m, P m → StepOk m op → m.SlotsLive ∧ O (op.apply env m))
    (hg : Fallible.Triple (Guarded O) (g ()) Q) :
    Fallible.Triple (Guarded P) (perform env op >>= g) Q :=
  Fallible.Triple.update_bind (fun s h => h.perform (hop s.mem)) hg

theorem guarded_touch_bind {off : Nat} (hg : Fallible.Triple (Guarded P) (g ()) Q) :
    Fallible.Triple (Guarded P) (touch off >>= g) Q :=
  Fallible.Triple.update_bind (R := Guarded P) (fun _ h => h) hg

theorem guarded_addMark_bind {mark : Mark} (hg : Fallible.Triple (Guarded P) (g ()) Q) :
    Fallible.Triple (Guarded P) (addMark mark >>= g) Q :=
  Fallible.Triple.update_bind (R := Guarded P) (fun _ h => h) hg

theorem guarded_peek_bind {buf : List UInt8} {off : Nat} {g : UInt8 → Unser α}
    (hg : Fallible.Triple (Guarded P) (g (byteAt buf off)) Q) :
    Fallible.Triple (Guarded P) (peek buf off >>= g) Q :=
  guarded_touch_bind (g := fun _ => g (byteAt buf off)) hg

theorem guarded_getState_bind {g : State → Unser α}
    (hg : ∀ s, Fallible.Triple (Guarded fun m => P m ∧ m = s.mem) (g s) Q) :
    Fallible.Triple (Guarded P) (Fallible.getState >>= g) Q := by
  refine Fallible.Triple.getState_bind fun s => (hg s).conseq ?_ fun _ _ h => h
  rintro t ⟨h, rfl⟩ hok
  exact ⟨(h hok).1, (h hok).2, rfl⟩

end Rules

/-- Zvals in slots, zvals outside that will stay there, and objects of the inside. -/
structure Known where
  slot : ZvalPtr → Prop
  other : ZvalPtr → Prop
  object : Nat → Prop

structure Known.HoldsFor (env : Env) (H : Nat → Prop) (k : Known) (m : Mem) : Prop where
  apart : Apart env H m
  slot : ∀ z, k.slot z → z ∈ m.slots
  other : ∀ z, k.other z → z ∉ m.slots ∧ z < m.nextZval
  object : ∀ h, k.object h → H h

def Known.Holds (env : Env) (k : Known) (m : Mem) : Prop := ∃ H, k.HoldsFor env H m

def Known.addSlot (k : Known) (z : ZvalPtr) : Known := { k with slot := fun y => k.slot y ∨ y = z }

def Known.addOther (k : Known) (z : ZvalPtr) : Known :=
  { k with other := fun y => k.other y ∨ y = z }

def Known.addObject (k : Known) (h : Nat) : Known :=
  { k with object := fun x => k.object x ∨ x = h }

section Known

variable {env : Env} {H : Nat → Prop} {k : Known} {m m' : Mem} {z : ZvalPtr}

theorem Known.Holds.live (h : k.Holds env m) : m.SlotsLive := h.elim fun _ h => h.apart.live

theorem Known.HoldsFor.leaves (h : k.HoldsFor env H m) (hl : Leaves env H m m') :
    k.HoldsFor env H m' := by
  refine ⟨hl.apart, fun z hz => ?_, fun z hz => ?_, h.object⟩
  · rw [hl.slots]
    exact h.slot z hz
  · rw [hl.slots]
    exact ⟨(h.other z hz).1, Nat.lt_of_lt_of_le (h.other z hz).2 hl.nextZval⟩

theorem Known.Holds.leaves (h : k.Holds env m) (hl : ∀ H, Apart env H m → Leaves env H m m') :
    k.Holds env m' :=
  h.imp fun H h => h.leaves (hl H h.apart)

theorem Known.Holds.addSlot (h : k.Holds env m) (hz : z ∈ m.slots) : (k.addSlot z).Holds env m := by
  obtain ⟨H, h⟩ := h
  refine ⟨H, h.apart, ?_, h.other, h.object⟩
  rintro y (hy | rfl)
  · exact h.slot y hy
  · exact hz

theorem Known.Holds.addOther (h : k.Holds env m) (hz : z ∉ m.slots) (hlt : z < m.nextZval) :
    (k.addOther z).Holds env m := by
  obtain ⟨H, h⟩ := h
  refine ⟨H, h.apart, h.slot, ?_, h.object⟩
  rintro y (hy | rfl)
  · exact h.other y hy
  · exact ⟨hz, hlt⟩

theorem Known.Holds.of_addSlot (h : (k.addSlot z).Holds env m) : k.Holds env m :=
  h.imp fun _ h => ⟨h.apart, fun y hy => h.slot y (Or.inl hy), h.other, h.object⟩

theorem Known.Holds.of_addOther (h : (k.addOther z).Holds env m) : k.Holds env m :=
  h.imp fun _ h => ⟨h.apart, h.slot, fun y hy => h.other y (Or.inl hy), h.object⟩

theorem Known.Holds.of_addObject {o : Nat} (h : (k.addObject o).Holds env m) : k.Holds env m :=
  h.imp fun _ h => ⟨h.apart, h.slot, h.other, fun y hy => h.object y (Or.inl hy)⟩

theorem Known.Holds.slot (h : k.Holds env m) (hz : k.slot z) : z ∈ m.slots :=
  h.elim fun _ h => h.slot z hz

theorem Known.Holds.other (h : k.Holds env m) (hz : k.other z) : z ∉ m.slots ∧ z < m.nextZval :=
  h.elim fun _ h => h.other z hz

theorem Known.Holds.below (h : k.Holds env m) (hz : z ∈ m.slots) : z < m.nextZval :=
  h.elim fun _ h => h.apart.below z hz

theorem Known.Holds.allocInitZval (h : k.Holds env m) :
    k.Holds env m.allocInitZval ∧ Fresh env m.allocInitZval m.nextZval ∧ ¬ k.other m.nextZval := by
  obtain ⟨H, h⟩ := h
  have halloc := h.apart.allocInitZval
  exact ⟨⟨H, h.leaves halloc.1.toLeaves⟩, halloc.2,
    fun ho => Nat.lt_irrefl _ (h.other _ ho).2⟩

theorem Known.Holds.varPush (h : k.Holds env m) (hz : Fresh env m z) (hother : ¬ k.other z) :
    (k.addSlot z).Holds env (m.varPush z) := by
  obtain ⟨H, h⟩ := h
  have hmem : ∀ y, y ∈ (m.varPush z).slots ↔ y ∈ m.slots ∨ y = z := by
    intro y
    rw [Mem.varPush, List.mem_append, List.mem_singleton]
  refine ⟨H, h.apart.varPush hz, ?_, fun y hy => ?_, h.object⟩
  · rintro y (hy | rfl)
    · exact (hmem y).mpr (Or.inl (h.slot y hy))
    · exact (hmem y).mpr (Or.inr rfl)
  · refine ⟨fun hin => ?_, (h.other y hy).2⟩
    rcases (hmem y).mp hin with hin | rfl
    · exact (h.other y hy).1 hin
    · exact hother hy

theorem Known.Holds.objectInit (h : k.Holds env m) (ce : ClassPtr) :
    k.Holds env (m.objectInit env z ce) ∧
      ((m.objectInit env z ce).zvals z).value = .object m.nextObject ∧
      (z ∈ m.slots → (k.addObject m.nextObject).Holds env (m.objectInit env z ce)) := by
  obtain ⟨H, h⟩ := h
  obtain ⟨hl, hv⟩ := h.apart.objectInit z ce
  have hholds : k.HoldsFor env (withObject H m z) (m.objectInit env z ce) := by
    refine ⟨hl.apart, fun y hy => ?_, fun y hy => ?_, fun o ho => Or.inl (h.object o ho)⟩
    · rw [hl.slots]
      exact h.slot y hy
    · rw [hl.slots]
      exact ⟨(h.other y hy).1, Nat.lt_of_lt_of_le (h.other y hy).2 hl.nextZval⟩
  refine ⟨⟨_, hholds⟩, hv, fun hz => ⟨_, hholds.apart, hholds.slot, hholds.other, ?_⟩⟩
  rintro o (ho | rfl)
  · exact hholds.object o ho
  · exact Or.inr ⟨hz, rfl⟩

end Known

section Functions

variable {env : Env} {k : Known} {buf : List UInt8}

variable {m : Mem} {rval z : ZvalPtr} {varHash : Bool} {α : Type} {P : Mem → Prop}
  {unserialize : Role → Nat → ZvalPtr → Bool → Unser Ret} {Q : Except Stop α → State → Prop}
  {g : Unit → Unser α}

/-- `*rval` behind a value: without slots, a zval outside. -/
def AtEnd (env : Env) (k : Known) (rval : ZvalPtr) (varHash : Bool) (m : Mem) : Prop :=
  k.Holds env m ∧ rval < m.nextZval ∧ (varHash = false → rval ∉ m.slots)

def ValueDone (env : Env) (k : Known) (varHash : Bool) : Except Stop Ret → State → Prop
  | .ok ret, s => Guarded (AtEnd env k ret.rval varHash) s
  | .error _, s => Guarded Mem.SlotsLive s

def NestedDone (env : Env) (k : Known) : Except Stop (Bool × Nat) → State → Prop
  | .ok _, s => Guarded (k.Holds env) s
  | .error _, s => Guarded Mem.SlotsLive s

/-- `*rval` at the start of a value: a new zval, which with slots is still to be pushed. -/
def AtStart (env : Env) (k : Known) (rval : ZvalPtr) (varHash : Bool) (m : Mem) : Prop :=
  k.Holds env m ∧
    if varHash then Fresh env m rval ∧ ¬ k.other rval else rval ∉ m.slots ∧ rval < m.nextZval

def KeepsSlots (env : Env) (unserialize : Role → Nat → ZvalPtr → Bool → Unser Ret) : Prop :=
  ∀ k role p rval varHash, Fallible.Triple (Guarded (AtStart env k rval varHash))
    (unserialize role p rval varHash) (ValueDone env k varHash)

def Container.Fits (k : Known) (varHash : Bool) : Container → Prop
  | .array z => varHash = true → k.slot z
  | .properties h => varHash = true → k.object h

theorem spares_varPushDtor (h : m.SlotsLive) :
    Spares (m.varPushDtor z) z := by
  intro hz
  have hlive := h z hz
  change 2 ≤ ((m.addref z).zvals z).refcount
  rw [Mem.addref, setZval_same]
  change 2 ≤ (m.zvals z).refcount + 1
  omega

theorem elements_varPushDtor (m : Mem) (y z : ZvalPtr) :
    (m.varPushDtor y).elements z = m.elements z := by
  change ((m.addref y).zvals z).value.elements = _
  by_cases hyz : z = y
  · subst hyz
    rw [Mem.addref, setZval_same]
    rfl
  · rw [Mem.addref, setZval_other _ _ hyz]
    rfl

theorem guarded_storeData_bind (henv : env.KeepsApart) {ht : Container} (hht : ht.Fits k varHash)
    {key : HashKey} {data : ZvalPtr} (hQ : ∀ e s, Guarded Mem.SlotsLive s → Q (.error e) s)
    (hg : Fallible.Triple (Guarded (k.Holds env)) (g ()) Q) :
    Fallible.Triple (Guarded (AtEnd env k data varHash)) (storeData env ht key data varHash >>= g)
      Q := by
  refine Fallible.Triple.bind (R := fun _ => Guarded (k.Holds env)) ?_ fun _ => hg
  refine guarded_getState_bind fun s => ?_
  have hin : ∀ {m : Mem} {z : ZvalPtr}, (varHash = true → k.slot z) → k.Holds env m →
      (varHash = false → data ∉ m.slots) → z ∉ m.slots → data ∉ m.slots := by
    intro m z hz h hdata hout
    cases varHash with
    | false => exact hdata rfl
    | true => exact absurd (h.slot (hz rfl)) hout
  cases ht with
  | array z =>
    dsimp only
    cases hrep : replaced s.mem (.array z) key with
    | none =>
      intro t ht
      refine ht.perform ?_
      rintro ⟨⟨h, hlt, hdata⟩, hm⟩ -
      refine ⟨h.live, h.leaves fun H ha => ha.updateArray henv ?_ (hin hht h hdata) hlt⟩
      intro old hold
      rw [hm] at hold
      exact nomatch hold.symm.trans hrep
    | some old =>
      dsimp only
      refine Fallible.Triple.ite (fun hvar => ?_) fun hvar => ?_
      · refine guarded_perform_bind (O := fun m => k.Holds env m ∧ data < m.nextZval ∧
          (∀ old, findKey (m.elements z) key = some old → Spares m old)) ?_ ?_
        · rintro m ⟨⟨h, hlt, hdata⟩, rfl⟩ -
          refine ⟨h.live, h.leaves fun H ha => (ha.varPushDtor old).toLeaves, hlt, ?_⟩
          intro old' hold
          change findKey ((s.mem.varPushDtor old).elements z) key = some old' at hold
          rw [elements_varPushDtor] at hold
          obtain rfl := Option.some.inj (hrep.symm.trans hold)
          exact spares_varPushDtor h.live
        · intro t ht
          refine ht.perform ?_
          rintro ⟨h, hlt, hold⟩ -
          refine ⟨h.live, h.leaves fun H ha => ha.updateArray henv hold ?_ hlt⟩
          exact fun hout => absurd (h.slot (hht hvar)) hout
      · intro t ht
        exact hQ _ _ (ht.mono fun m h => h.1.1.live)
  | properties o =>
    intro t ht
    refine ht.perform ?_
    rintro ⟨⟨h, hlt, hdata⟩, -⟩ hold
    refine ⟨h.live, ?_⟩
    obtain ⟨H, h⟩ := h
    refine ⟨H, h.leaves (h.apart.updateProperty henv hold ?_ hlt).toLeaves⟩
    intro hout
    cases varHash with
    | false => exact hdata rfl
    | true => exact absurd (h.object o (hht rfl)) hout

theorem guarded_discardKey_bind (henv : env.KeepsApart)
    (hP : ∀ m, P m → k.Holds env m ∧ z ∉ m.slots)
    (hg : Fallible.Triple (Guarded (k.Holds env)) (g ()) Q) :
    Fallible.Triple (Guarded P) (perform env (.discardKey z) >>= g) Q := by
  refine guarded_perform_bind (fun m h _ => ?_) hg
  obtain ⟨hk, hz⟩ := hP m h
  exact ⟨hk.live, hk.leaves fun H ha => (ha.discard henv hz).toLeaves⟩

theorem KeepsSlots.bind (hu : KeepsSlots env unserialize) {g : Ret → Unser α} {role : Role}
    {p : Nat} (hQ : ∀ e s, Guarded Mem.SlotsLive s → Q (.error e) s)
    (hg : ∀ ret, Fallible.Triple (Guarded (AtEnd env k ret.rval varHash)) (g ret) Q) :
    Fallible.Triple (Guarded (AtStart env k rval varHash))
      (unserialize role p rval varHash >>= g) Q := by
  refine Fallible.Triple.bind (R := fun ret => ValueDone env k varHash (.ok ret)) ?_ hg
  refine (hu k role p rval varHash).conseq (fun _ h => h) fun r s h => ?_
  cases r with
  | ok ret => exact h
  | error e => exact hQ e s h

theorem guarded_alloc_bind {g : ZvalPtr → Unser α}
    (hg : ∀ z, Fallible.Triple (Guarded (AtStart env k z varHash)) (g z) Q) :
    Fallible.Triple (Guarded (k.Holds env))
      (Fallible.getState >>= fun s => perform env .allocInitZval >>= fun _ => g s.mem.nextZval)
      Q := by
  refine guarded_getState_bind fun s => guarded_perform_bind ?_ (hg _)
  rintro m ⟨h, rfl⟩ -
  obtain ⟨hk, hfresh, hother⟩ := h.allocInitZval
  refine ⟨h.live, hk, ?_⟩
  split
  · exact ⟨hfresh, hother⟩
  · exact ⟨hfresh.outside, hfresh.lt⟩

theorem guarded_processNestedData (henv : env.KeepsApart) (hu : KeepsSlots env unserialize)
    {ht : Container} (hht : ht.Fits k varHash) (fuel : Nat) (elements : Int) (p : Nat) :
    Fallible.Triple (Guarded (k.Holds env))
      (processNestedData env buf unserialize ht varHash fuel elements p) (NestedDone env k) := by
  have hstop : ∀ e s, Guarded Mem.SlotsLive s → NestedDone env k (.error e) s := fun _ _ h => h
  induction fuel generalizing elements p with
  | zero =>
    unfold processNestedData
    refine Fallible.Triple.ite (fun _ _ h => h) fun _ s h => ?_
    exact h.mono fun m h => h.live
  | succ fuel ih =>
    unfold processNestedData
    refine Fallible.Triple.ite (fun _ _ h => h) fun _ => ?_
    refine guarded_alloc_bind fun z => hu.bind hstop fun key => ?_
    refine Fallible.Triple.getState_bind_any fun s => ?_
    have hkey : ∀ t, Guarded (AtEnd env k key.rval false) t →
        Guarded ((k.addOther key.rval).Holds env) t := fun t h =>
      h.mono fun m h => h.1.addOther (h.2.2 rfl) h.2.1
    -- the key stays outside while the element is parsed
    refine Fallible.Triple.conseq ?_ hkey fun _ _ h => h
    have hdiscard : ∀ m, (k.addOther key.rval).Holds env m → k.Holds env m ∧ key.rval ∉ m.slots :=
      fun m h => ⟨h.of_addOther, (h.other (Or.inr rfl)).1⟩
    cases (if key.ok then containerKey ht (s.mem.zvals key.rval).value else none) with
    | none => exact guarded_discardKey_bind henv hdiscard fun _ h => h
    | some k' =>
      refine guarded_alloc_bind fun z => hu.bind hstop fun data => ?_
      refine Fallible.Triple.ite (fun _ => ?_) fun _ => ?_
      · have hfits : ht.Fits (k.addOther key.rval) varHash := by
          cases ht with
          | array z => exact hht
          | properties h => exact hht
        refine guarded_storeData_bind henv hfits hstop (guarded_discardKey_bind henv hdiscard ?_)
        refine Fallible.Triple.ite (fun _ => ?_) fun _ _ h => h
        exact guarded_peek_bind (Fallible.Triple.ite (fun _ _ h => h) fun _ => ih _ _)
      · -- only an element that starts with `R` is in no slot
        refine guarded_discardKey_bind henv (fun m h => hdiscard m h.1) ?_
        refine guarded_perform_bind (fun m h hz => ?_) fun _ h => h
        exact ⟨h.live, h.leaves fun H ha => (ha.discard henv hz).toLeaves⟩

/-- `*rval` in the actions: in a slot, or without slots outside. -/
def Known.Places (k : Known) (rval : ZvalPtr) (varHash : Bool) : Prop :=
  if varHash then k.slot rval else k.other rval

theorem atEnd_of_places (hr : k.Places rval varHash) (h : k.Holds env m)
    : AtEnd env k rval varHash m := by
  cases varHash with
  | true => exact ⟨h, h.below (h.slot hr), nofun⟩
  | false => exact ⟨h, (h.other hr).2, fun _ => (h.other hr).1⟩

theorem atEnd_of_other (hr : k.other rval) (varHash : Bool) (h : k.Holds env m)
    : AtEnd env k rval varHash m :=
  ⟨h, (h.other hr).2, fun _ => (h.other hr).1⟩

theorem guarded_returned (hr : k.Places rval varHash) (ok : Bool) (p : Nat) :
    Fallible.Triple (Guarded (k.Holds env)) (pure ⟨ok, rval, p⟩ : Unser Ret)
      (ValueDone env k varHash) :=
  Fallible.Triple.pure fun _ h => h.mono fun _ h => atEnd_of_places hr h

theorem guarded_finishNestedData (hr : k.Places rval varHash) (p : Nat) :
    Fallible.Triple (Guarded (k.Holds env)) (finishNestedData buf rval p)
      (ValueDone env k varHash) :=
  guarded_peek_bind (guarded_returned hr _ _)

theorem guarded_initZval_bind {v : Value} (hv : v.Plain)
    (hg : Fallible.Triple (Guarded (k.Holds env)) (g ()) Q) :
    Fallible.Triple (Guarded (k.Holds env)) (perform env (.initZval rval v) >>= g) Q :=
  guarded_perform_bind
    (fun _ h _ => ⟨h.live, h.leaves fun _ ha => ha.setPlain hv fun _ => Nat.zero_lt_one⟩) hg

theorem guarded_initPzval_bind (hg : Fallible.Triple (Guarded (k.Holds env)) (g ()) Q) :
    Fallible.Triple (Guarded (k.Holds env)) (perform env (.initPzval rval) >>= g) Q :=
  guarded_perform_bind
    (fun _ h _ => ⟨h.live, h.leaves fun _ ha =>
      (ha.setRefcount rval 1 false fun _ => Nat.zero_lt_one).toLeaves⟩) hg

theorem guarded_user_bind {code : Mem → Mem}
    (hcode : ∀ H m, Apart env H m → Leaves env H m (code m)) (hP : ∀ m, P m → k.Holds env m)
    (hg : Fallible.Triple (Guarded (k.Holds env)) (g ()) Q) :
    Fallible.Triple (Guarded P) (perform env (.user code) >>= g) Q :=
  guarded_perform_bind
    (fun m h _ => ⟨(hP m h).live, (hP m h).leaves fun H ha => hcode H m ha⟩) hg

/-- `*rval` holds an object, which with slots belongs to the inside. -/
def ObjectReady (env : Env) (k : Known) (rval : ZvalPtr) (varHash : Bool) (m : Mem) : Prop :=
  k.Holds env m ∧ (varHash = true →
    ∃ h, (m.zvals rval).value = .object h ∧ (k.addObject h).Holds env m)

theorem ObjectReady.undisturbed (hr : k.Places rval varHash) {m' : Mem}
    (h : ObjectReady env k rval varHash m) (hu : ∀ H, Apart env H m → Undisturbed env H m m')
    : ObjectReady env k rval varHash m' := by
  refine ⟨h.1.leaves fun H ha => (hu H ha).toLeaves, ?_⟩
  rintro rfl
  obtain ⟨o, ho, hk⟩ := h.2 rfl
  refine ⟨o, ?_, hk.leaves fun H ha => (hu H ha).toLeaves⟩
  obtain ⟨H, hH⟩ := h.1
  exact (hu H hH.apart).objects rval (hH.slot rval hr) o ho

theorem guarded_objectCommon2 (henv : env.KeepsApart) (hu : KeepsSlots env unserialize)
    (buf : List UInt8) (fuel : Nat) (elements : Int) (p : Nat) (hr : k.Places rval varHash) :
    Fallible.Triple (Guarded (ObjectReady env k rval varHash))
      (objectCommon2 env buf unserialize fuel rval elements p varHash)
      (ValueDone env k varHash) := by
  refine guarded_getState_bind fun s => ?_
  let k' := if varHash then k.addObject (objectHandle s.mem rval) else k
  have hfits : Container.Fits k' varHash (.properties (objectHandle s.mem rval)) := by
    rintro rfl
    exact Or.inr rfl
  have hholds : ∀ m, ObjectReady env k rval varHash m ∧ m = s.mem → k'.Holds env m := by
    rintro m ⟨⟨h, hobj⟩, rfl⟩
    cases varHash with
    | false => exact h
    | true =>
      obtain ⟨o, ho, hk⟩ := hobj rfl
      have hhandle : objectHandle s.mem rval = o := by
        rw [objectHandle, ho]
      change (k.addObject (objectHandle s.mem rval)).Holds env s.mem
      rw [hhandle]
      exact hk
  have hback : ∀ m, k'.Holds env m → k.Holds env m := by
    intro m h
    cases varHash with
    | false => exact h
    | true => exact h.of_addObject
  refine Fallible.Triple.bind (R := fun _ => Guarded (k.Holds env)) ?_ fun nested => ?_
  · refine (guarded_processNestedData henv hu hfits fuel elements p).conseq
      (fun t h => h.mono hholds) fun r t h => ?_
    cases r with
    | ok nested => exact Guarded.mono (P := k'.Holds env) h hback
    | error e => exact h
  refine Fallible.Triple.ite (fun _ => ?_) fun _ => guarded_returned hr _ _
  refine Fallible.Triple.getState_bind_any fun s => ?_
  refine Fallible.Triple.ite (fun _ => ?_) fun _ => guarded_finishNestedData hr _
  exact guarded_user_bind (henv.wakeup rval) (fun _ h => h) (guarded_finishNestedData hr _)

theorem AtEnd.undisturbed {m' : Mem} (h : AtEnd env k rval varHash m)
    (hu : ∀ H, Apart env H m → Undisturbed env H m m') :
    AtEnd env k rval varHash m' := by
  obtain ⟨⟨H, hH⟩, hlt, hout⟩ := h
  have hl := (hu H hH.apart).toLeaves
  refine ⟨⟨H, hH.leaves hl⟩, Nat.lt_of_lt_of_le hlt hl.nextZval, fun hv => ?_⟩
  rw [hl.slots]
  exact hout hv

theorem guarded_phpStoreClassName_bind (henv : env.KeepsApart) (hP : ∀ m, P m → k.Holds env m)
    (hstable : ∀ m m', P m → (∀ H, Apart env H m → Undisturbed env H m m') → P m')
    {name : List UInt8} (hg : Fallible.Triple (Guarded P) (g ()) Q) :
    Fallible.Triple (Guarded P) (phpStoreClassName env z name >>= g) Q := by
  refine Fallible.Triple.bind (R := fun _ => Guarded P) ?_ fun _ => hg
  refine guarded_getState_bind fun s => ?_
  refine guarded_perform_bind
    (O := fun m => P m ∧ s.mem.nextZval ∉ m.slots ∧ s.mem.nextZval < m.nextZval) ?_ ?_
  · rintro m ⟨h, rfl⟩ -
    obtain ⟨H, hH⟩ := hP _ h
    have hfresh := hH.apart.allocInitZval.2
    exact ⟨hH.apart.live, hstable _ _ h fun H ha => ha.allocInitZval.1, hfresh.outside, hfresh.lt⟩
  refine guarded_perform_bind
    (O := fun m => P m ∧ s.mem.nextZval ∉ m.slots ∧ s.mem.nextZval < m.nextZval) ?_ ?_
  · rintro m ⟨h, hout, hlt⟩ -
    exact ⟨(hP _ h).live, hstable _ _ h fun H ha => ha.setOutside trivial hout, hout, hlt⟩
  · intro t ht
    refine ht.perform ?_
    rintro ⟨h, hout, hlt⟩ hold
    refine ⟨(hP _ h).live, hstable _ _ h fun H ha => ?_⟩
    exact ha.updateProperty henv hold (fun _ => hout) hlt

theorem guarded_objectCommon1_bind {ce : ClassPtr} (hr : k.Places rval varHash) {p : Nat}
    {g : Int × Nat → Unser α}
    (hg : ∀ header, Fallible.Triple (Guarded (ObjectReady env k rval varHash)) (g header) Q) :
    Fallible.Triple (Guarded (k.Holds env)) (objectCommon1 env buf ce rval p >>= g) Q := by
  refine Fallible.Triple.bind (R := fun _ => Guarded (ObjectReady env k rval varHash)) ?_ hg
  refine guarded_touch_bind (guarded_addMark_bind (guarded_perform_bind ?_ fun _ h => h))
  intro m h _
  obtain ⟨hk, hv, hobj⟩ := h.objectInit (z := rval) ce
  refine ⟨h.live, hk, ?_⟩
  rintro rfl
  exact ⟨m.nextObject, hv, hobj (h.slot hr)⟩

theorem guarded_objectCustom (henv : env.KeepsApart) (max : Nat) (ce : ClassPtr) (p : Nat)
    (hr : k.Places rval varHash) :
    Fallible.Triple (Guarded (k.Holds env)) (objectCustom env buf max ce rval p)
      (ValueDone env k varHash) := by
  refine guarded_touch_bind (Fallible.Triple.ite (fun _ => guarded_returned hr _ _) fun _ => ?_)
  refine Fallible.Triple.ite (fun _ => ?_) fun _ => ?_
  · refine guarded_getState_bind fun s => guarded_user_bind (henv.unserialize ce rval _)
      (fun _ h => h.1) ?_
    refine Fallible.Triple.ite (fun _ => ?_) fun _ => guarded_returned hr _ _
    exact guarded_finishNestedData hr _
  · refine guarded_perform_bind (fun m h _ => ⟨h.live, ?_⟩) (guarded_finishNestedData hr _)
    exact (h.objectInit (z := rval) ce).1

theorem guarded_closeString (role : Role) (str : List UInt8) (close : Nat)
    (hr : k.Places rval varHash) :
    Fallible.Triple (Guarded (k.Holds env)) (closeString env buf role rval str close)
      (ValueDone env k varHash) := by
  refine guarded_peek_bind (Fallible.Triple.ite (fun _ => guarded_returned hr _ _) fun _ => ?_)
  refine guarded_addMark_bind (guarded_initZval_bind (v := .string str) trivial ?_)
  exact guarded_returned hr _ _

theorem guarded_objectRule (henv : env.KeepsApart) (hu : KeepsSlots env unserialize)
    (max fuel start cursor : Nat) (hr : k.Places rval varHash) :
    Fallible.Triple (Guarded (k.Holds env))
      (objectRule env buf max unserialize fuel start cursor rval varHash)
      (ValueDone env k varHash) := by
  refine guarded_initPzval_bind (Fallible.Triple.ite (fun _ => guarded_returned hr _ _) fun _ => ?_)
  refine guarded_peek_bind (Fallible.Triple.ite (fun _ => guarded_returned hr _ _) fun _ => ?_)
  refine guarded_peek_bind (Fallible.Triple.ite (fun _ => guarded_returned hr _ _) fun _ => ?_)
  refine guarded_touch_bind (Fallible.Triple.ite (fun _ => guarded_returned hr _ _) fun _ => ?_)
  refine guarded_getState_bind fun s => guarded_user_bind (henv.lookupClass _) (fun _ h => h.1) ?_
  refine Fallible.Triple.ite (fun _ => ?_) fun _ => ?_
  · refine Fallible.Triple.bind (R := fun ret => Guarded (AtEnd env k ret.rval varHash)) ?_
      fun ret => ?_
    · refine (guarded_objectCustom henv max _ _ hr).conseq (fun _ h => h) fun r s h => ?_
      cases r with
      | ok _ => exact h
      | error _ => exact h
    refine Fallible.Triple.ite (fun _ => ?_) fun _ _ h => h
    exact guarded_phpStoreClassName_bind henv (fun _ h => h.1) (fun _ _ h hu => h.undisturbed hu)
      fun _ h => h
  · refine guarded_objectCommon1_bind hr fun header => ?_
    have hrest := guarded_objectCommon2 henv hu buf fuel header.1 header.2 hr
    refine Fallible.Triple.ite (fun _ => ?_) fun _ => hrest
    exact guarded_phpStoreClassName_bind henv (fun _ h => h.1)
      (fun _ _ h hu => h.undisturbed hr hu) hrest

theorem varAccess_mem {id : BitVec 64} (h : m.varAccess id = some z) :
    z ∈ m.slots := by
  unfold Mem.varAccess at h
  split at h
  · exact nomatch h
  · exact List.mem_of_getElem? h

theorem guarded_backReference (henv : env.KeepsApart) {isRef : Bool} (number : BitVec 64)
    (cursor : Nat) (hr : if isRef then k.other rval else k.Places rval varHash) :
    Fallible.Triple (Guarded (k.Holds env)) (backReference env rval varHash isRef number cursor)
      (ValueDone env k varHash) := by
  have hend : ∀ m, k.Holds env m → AtEnd env k rval varHash m := by
    intro m h
    cases isRef with
    | true => exact atEnd_of_other hr varHash h
    | false => exact atEnd_of_places hr h
  have hfailed : ∀ {P : Mem → Prop}, (∀ m, P m → k.Holds env m) →
      Fallible.Triple (Guarded P) (pure ⟨false, rval, cursor⟩ : Unser Ret)
        (ValueDone env k varHash) := fun {_} hP =>
    Fallible.Triple.pure fun _ h => h.mono fun m h => hend m (hP m h)
  refine Fallible.Triple.ite (fun hvar => ?_) fun _ => hfailed fun _ h => h
  refine guarded_getState_bind fun s => ?_
  dsimp only
  cases hz : if number - 1 = -1 then none else s.mem.varAccess (number - 1) with
  | none => exact hfailed fun _ h => h.1
  | some z =>
    have hmem : z ∈ s.mem.slots := by
      split at hz
      · exact nomatch hz
      · exact varAccess_mem hz
    have hshare : ∀ b : Bool, Fallible.Triple (Guarded ((k.addSlot z).Holds env))
        (perform env (.share z b) >>= fun _ => pure ⟨true, z, cursor⟩)
        (ValueDone env k varHash) := by
      intro b
      refine guarded_perform_bind (O := (k.addSlot z).Holds env) (fun m h _ => ?_) ?_
      · exact ⟨h.live, h.leaves fun H ha =>
          (ha.setRefcount z _ b fun _ => Nat.succ_pos _).toLeaves⟩
      · refine Fallible.Triple.pure fun _ h => h.mono fun m h => ?_
        exact ⟨h.of_addSlot, h.below (h.slot (Or.inr rfl)), fun hno => nomatch hvar.symm.trans hno⟩
    have hrelease : ∀ m, (k.Holds env m ∧ m = s.mem) → Spares m rval →
        m.SlotsLive ∧ (k.addSlot z).Holds env (m.zvalPtrDtor env rval) := by
      rintro m ⟨h, rfl⟩ hspares
      refine ⟨h.live, (h.addSlot hmem).leaves fun H ha => ?_⟩
      exact (ha.zvalPtrDtor henv hspares (hend _ h).2.1).toLeaves
    refine Fallible.Triple.ite (fun href => ?_) fun _ => ?_
    · subst href
      refine guarded_perform_bind (fun m h _ => hrelease m h fun hin => ?_) (hshare true)
      exact absurd hin (h.1.other hr).1
    · refine Fallible.Triple.ite (fun _ => hfailed fun _ h => h.1) fun _ => ?_
      exact guarded_perform_bind hrelease (hshare false)

/-- `*rval` in the action of a rule: `R:` leaves it outside. -/
def PlacedFor (k : Known) (rval : ZvalPtr) (varHash : Bool) (rule : Rule) : Prop :=
  k.other rval ∧ (varHash = false ∨ rule = .reference ∨ rule = .any) ∨
    k.slot rval ∧ varHash = true ∧ rule ≠ .reference

theorem PlacedFor.places {rule : Rule} (h : PlacedFor k rval varHash rule)
    (hrule : rule ≠ .reference) (hany : rule ≠ .any) :
    k.Places rval varHash := by
  rcases h with ⟨hr, rfl | h | h⟩ | ⟨hr, rfl, -⟩
  · exact hr
  · exact absurd h hrule
  · exact absurd h hany
  · exact hr

theorem guarded_action (henv : env.KeepsApart) (hu : KeepsSlots env unserialize) (max fuel : Nat)
    (role : Role) (start cursor : Nat) (rule : Rule) (hplaced : PlacedFor k rval varHash rule) :
    Fallible.Triple (Guarded (k.Holds env))
      (action env buf max unserialize fuel role start cursor rval varHash rule)
      (ValueDone env k varHash) := by
  have hplain : ∀ {v : Value}, v.Plain → k.Places rval varHash →
      Fallible.Triple (Guarded (k.Holds env))
        (perform env (.initZval rval v) >>= fun _ => pure ⟨true, rval, cursor⟩)
        (ValueDone env k varHash) := fun {_} hv hr =>
    guarded_initZval_bind hv (guarded_returned hr _ _)
  cases rule with
  | reference =>
    rcases hplaced with ⟨hr, -⟩ | ⟨-, -, h⟩
    · exact guarded_backReference henv _ _ hr
    · exact absurd rfl h
  | copy => exact guarded_backReference henv _ _ (hplaced.places nofun nofun)
  | null => exact hplain trivial (hplaced.places nofun nofun)
  | bool => exact hplain trivial (hplaced.places nofun nofun)
  | long => exact hplain trivial (hplaced.places nofun nofun)
  | infNan => exact hplain trivial (hplaced.places nofun nofun)
  | double => exact hplain trivial (hplaced.places nofun nofun)
  | string =>
    have hr := hplaced.places nofun nofun
    refine Fallible.Triple.ite (fun _ => guarded_returned hr _ _) fun _ => ?_
    exact guarded_closeString role _ _ hr
  | escapedString =>
    have hr := hplaced.places nofun nofun
    refine Fallible.Triple.ite (fun _ => guarded_returned hr _ _) fun _ => ?_
    refine Fallible.Triple.ite (fun _ => guarded_returned hr _ _) fun _ => guarded_touch_bind ?_
    cases (unserializeStr buf max (parseUiv buf (start + 2)) cursor).1 with
    | none => exact guarded_returned hr _ _
    | some str => exact guarded_closeString role _ _ hr
  | array =>
    have hr := hplaced.places nofun nofun
    refine Fallible.Triple.ite (fun _ => guarded_returned hr _ _) fun _ => ?_
    refine guarded_initZval_bind (v := .array []) rfl ?_
    have hfits : Container.Fits k varHash (.array rval) := by
      rintro rfl
      exact hr
    refine Fallible.Triple.bind (R := fun _ => Guarded (k.Holds env)) ?_ fun nested => ?_
    · refine (guarded_processNestedData henv hu hfits fuel _ cursor).conseq
        (fun _ h => h) fun r s h => ?_
      cases r with
      | ok _ => exact h
      | error _ => exact h
    exact Fallible.Triple.ite (fun _ => guarded_finishNestedData hr _) fun _ =>
      guarded_returned hr _ _
  | plainObject =>
    have hr := hplaced.places nofun nofun
    refine guarded_initPzval_bind (guarded_objectCommon1_bind hr fun header => ?_)
    exact guarded_objectCommon2 henv hu buf fuel header.1 header.2 hr
  | object => exact guarded_objectRule henv hu max fuel start cursor (hplaced.places nofun nofun)
  | brace => exact guarded_returned (hplaced.places nofun nofun) _ _
  | any =>
    refine Fallible.Triple.pure fun _ h => h.mono fun m h => ?_
    rcases hplaced with ⟨hr, -⟩ | ⟨hr, rfl, -⟩
    · exact atEnd_of_other hr varHash h
    · exact ⟨h, h.below (h.slot hr), nofun⟩

/-- What is known once `var_push` has had its turn. -/
def pushed (k : Known) (rval : ZvalPtr) (varHash : Bool) (c : UInt8) : Known :=
  if varHash ∧ c ≠ ch 'R' then k.addSlot rval else k.addOther rval

theorem pushed_placedFor (k : Known) (rval : ZvalPtr) (varHash : Bool) (p : Nat) :
    PlacedFor (pushed k rval varHash (byteAt buf p)) rval varHash
      (scanRule buf p (candidates (byteAt buf p))).1 := by
  have hrule := scanRule_mem buf p (candidates (byteAt buf p))
  by_cases hc : varHash ∧ byteAt buf p ≠ ch 'R'
  · rw [pushed, if_pos hc]
    refine Or.inr ⟨Or.inr rfl, hc.1, fun href => ?_⟩
    rw [href] at hrule
    exact reference_not_mem hc.2 (hrule.resolve_right nofun)
  · rw [pushed, if_neg hc]
    refine Or.inl ⟨Or.inr rfl, ?_⟩
    rw [not_and_or, not_not, Bool.not_eq_true] at hc
    refine hc.imp_right fun hR => ?_
    rw [hR] at hrule
    rcases hrule with hrule | hrule
    · exact Or.inl (List.mem_singleton.mp (hR ▸ hrule))
    · exact Or.inr (hR ▸ hrule)

theorem keepsSlots_unserialize (henv : env.KeepsApart) (max fuel : Nat) :
    KeepsSlots env (unserializeFuel env buf max fuel) := by
  induction fuel with
  | zero => exact fun _ _ _ _ _ => Fallible.Triple.stop fun _ h => h.mono fun m h => h.1.live
  | succ fuel ih =>
    intro k role p rval varHash
    have hback : ∀ r s, ValueDone env (pushed k rval varHash (byteAt buf p)) varHash r s →
        ValueDone env k varHash r s := by
      intro r s h
      cases r with
      | error e => exact h
      | ok ret =>
        refine Guarded.mono (P := AtEnd env (pushed k rval varHash (byteAt buf p)) ret.rval
          varHash) h fun m h => ⟨?_, h.2⟩
        have hk := h.1
        unfold pushed at hk
        split at hk
        · exact hk.of_addSlot
        · exact hk.of_addOther
    have hrest : Fallible.Triple
        (Guarded ((pushed k rval varHash (byteAt buf p)).Holds env))
        (touch (scanRule buf p (candidates (byteAt buf p))).2.2 >>= fun _ =>
          action env buf max (unserializeFuel env buf max fuel) fuel role p
            (scanRule buf p (candidates (byteAt buf p))).2.1 rval varHash
            (scanRule buf p (candidates (byteAt buf p))).1) (ValueDone env k varHash) := by
      refine guarded_touch_bind (Fallible.Triple.conseq ?_ (fun _ h => h) hback)
      exact guarded_action henv ih max fuel role p _ _ (pushed_placedFor k rval varHash p)
    refine guarded_peek_bind (Fallible.Triple.ite (fun hc => ?_) fun hc => ?_)
    · refine guarded_perform_bind (fun m h _ => ?_) hrest
      obtain ⟨hk, hfresh⟩ := h
      rw [if_pos hc.1] at hfresh
      rw [pushed, if_pos hc]
      exact ⟨hk.live, hk.varPush hfresh.1 hfresh.2⟩
    · refine Fallible.Triple.conseq hrest (fun s h => h.mono fun m h => ?_) fun _ _ h => h
      obtain ⟨hk, hfresh⟩ := h
      rw [pushed, if_neg hc]
      split at hfresh
      · exact hk.addOther hfresh.1.outside hfresh.1.lt
      · exact hk.addOther hfresh.1 hfresh.2

end Functions

def SlotsLiveThroughout (s : State) : Prop :=
  (∀ x ∈ s.trace, x.1.SlotsLive) ∧ s.mem.SlotsLive

theorem keepsApart_bare : Env.bare.KeepsApart :=
  ⟨fun _ _ _ h => .refl h, fun _ _ _ _ _ h => .refl h, fun _ _ _ h => .refl h,
    fun _ _ _ h => .refl h⟩

theorem value_fresh (z : ZvalPtr) : (Mem.fresh.zvals z).value = .null := by
  change (if z = 0 then (⟨1, false, .null⟩ : Zval) else ⟨0, false, .null⟩).value = .null
  split <;> rfl

theorem elements_fresh (z : ZvalPtr) : Mem.fresh.elements z = [] := by
  rw [Mem.elements, value_fresh]
  rfl

theorem apart_fresh : Apart .bare (fun _ => False) .fresh := by
  refine ⟨nofun, nofun, fun z _ e he => ?_, fun z _ h hv => ?_, nofun, nofun, fun z e he => ?_,
    nofun, nofun, fun z h hv => ?_, nofun⟩
  · exact nomatch elements_fresh z ▸ he
  · exact nomatch (value_fresh z).symm.trans hv
  · exact nomatch elements_fresh z ▸ he
  · exact nomatch (value_fresh z).symm.trans hv

theorem fresh_fresh : Fresh .bare .fresh 0 := by
  refine ⟨nofun, by decide, by decide, fun y e he => ?_, nofun, nofun⟩
  exact nomatch elements_fresh y ▸ he

def MemOp.releases : MemOp → Bool
  | .releaseForCopy _ | .discardData _ | .updateProperty .. => true
  | _ => false

theorem stepOk_of_not_releases {m : Mem} {op : MemOp} (h : op.releases = false) : StepOk m op := by
  cases op <;> trivial

end Php53.Standard
