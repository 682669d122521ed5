import Php53.Standard.Zval

/-!
# Slots — a heap in which the slots stand apart

The slots of an unserializer borrow their zvals: nothing counts the reference.  What keeps those
zvals alive is that only zvals in slots, and the objects made for them, lead to them.  Releasing
any other zval then never reaches a slot, and what is released in a slot must have a second
reference.
-/

open Php53.Zend

namespace Php53.Standard

variable {z : ZvalPtr} {h : Nat} {v : Zval} {k : HashKey}

def Mem.SlotsLive (m : Mem) : Prop := ∀ z ∈ m.slots, 0 < (m.zvals z).refcount

/-- The zvals in the slots are alive, and nothing outside leads to them; `H` says which objects
belong to the inside. -/
structure Apart (env : Env) (H : Nat → Prop) (m : Mem) : Prop where
  live : m.SlotsLive
  below : ∀ z ∈ m.slots, z < m.nextZval
  elements : ∀ z, z ∉ m.slots → ∀ e ∈ m.elements z, e.2 ∉ m.slots
  handles : ∀ z, z ∉ m.slots → ∀ h, (m.zvals z).value = .object h → ¬ H h
  properties : ∀ h, ¬ H h → ∀ e ∈ (m.objects h).properties, e.2 ∉ m.slots
  defaults : ∀ ce, ∀ e ∈ (env.classes ce).defaultProperties, e.2 ∉ m.slots
  elements_lt : ∀ z, ∀ e ∈ m.elements z, e.2 < m.nextZval
  properties_lt : ∀ h, ∀ e ∈ (m.objects h).properties, e.2 < m.nextZval
  defaults_lt : ∀ ce, ∀ e ∈ (env.classes ce).defaultProperties, e.2 < m.nextZval
  handles_lt : ∀ z h, (m.zvals z).value = .object h → h < m.nextObject
  inside_lt : ∀ h, H h → h < m.nextObject

/-- What may happen to a heap whose slots stand apart. -/
structure Leaves (env : Env) (H : Nat → Prop) (m m' : Mem) : Prop where
  apart : Apart env H m'
  slots : m'.slots = m.slots
  nextZval : m.nextZval ≤ m'.nextZval

def SameObjects (m m' : Mem) : Prop :=
  ∀ z ∈ m.slots, ∀ h, (m.zvals z).value = .object h → (m'.zvals z).value = .object h

/-- The same, when moreover no object is taken out of a slot. -/
structure Undisturbed (env : Env) (H : Nat → Prop) (m m' : Mem) : Prop extends
    Leaves env H m m' where
  objects : SameObjects m m'

/-- The code of scripts and extensions keeps the slots apart: it releases no zval in a slot, and
makes nothing else refer to one or share its object. -/
structure Env.KeepsApart (env : Env) : Prop where
  lookupClass : ∀ name H m, Apart env H m → Leaves env H m (env.lookupClass name m).2
  unserialize : ∀ ce z text H m, Apart env H m → Leaves env H m (env.unserialize ce z text m).2
  wakeup : ∀ z H m, Apart env H m → Leaves env H m (env.wakeup z m)
  destruct : ∀ h H m, Apart env H m → Undisturbed env H m (env.destruct h m)

variable {env : Env} {H : Nat → Prop} {m m' m'' : Mem}

theorem Leaves.refl (h : Apart env H m) : Leaves env H m m := ⟨h, rfl, Nat.le_refl _⟩

theorem Leaves.trans (h : Leaves env H m m') (h' : Leaves env H m' m'') : Leaves env H m m'' :=
  ⟨h'.apart, h'.slots.trans h.slots, Nat.le_trans h.nextZval h'.nextZval⟩

theorem Undisturbed.refl (h : Apart env H m) : Undisturbed env H m m :=
  ⟨Leaves.refl h, fun _ _ _ h => h⟩

theorem Undisturbed.trans (h : Undisturbed env H m m') (h' : Undisturbed env H m' m'') :
    Undisturbed env H m m'' :=
  ⟨h.toLeaves.trans h'.toLeaves,
    fun z hz o ho => h'.objects z (h.slots ▸ hz) o (h.objects z hz o ho)⟩

theorem setZval_same (m : Mem) (z : ZvalPtr) (v : Zval) : (m.setZval z v).zvals z = v :=
  Function.update_self ..

theorem setZval_other (m : Mem) {y : ZvalPtr} (v : Zval) (h : y ≠ z) :
    (m.setZval z v).zvals y = m.zvals y :=
  Function.update_of_ne h ..

theorem setObject_same (m : Mem) (h : Nat) (o : ObjectBucket) : (m.setObject h o).objects h = o :=
  Function.update_self ..

theorem setObject_other (m : Mem) {h' : Nat} (o : ObjectBucket) (hne : h ≠ h') :
    (m.setObject h' o).objects h = m.objects h :=
  Function.update_of_ne hne ..

theorem Apart.setZval (ha : Apart env H m) (hlive : z ∈ m.slots → 0 < v.refcount)
    (helements : ∀ e ∈ v.value.elements, e.2 < m.nextZval ∧ (z ∉ m.slots → e.2 ∉ m.slots))
    (hhandle : ∀ h, v.value = .object h → h < m.nextObject ∧ (z ∉ m.slots → ¬ H h)) :
    Leaves env H m (m.setZval z v) := by
  have hzvals : ∀ (P : ZvalPtr → Zval → Prop), P z v → (∀ y, y ≠ z → P y (m.zvals y)) →
      ∀ y, P y ((m.setZval z v).zvals y) := by
    intro P hz hy y
    by_cases hyz : y = z
    · subst hyz
      rw [setZval_same]
      exact hz
    · rw [setZval_other _ _ hyz]
      exact hy y hyz
  refine ⟨⟨?_, ha.below, ?_, ?_, ha.properties, ha.defaults, ?_, ha.properties_lt, ha.defaults_lt,
    ?_, ha.inside_lt⟩, rfl, Nat.le_refl _⟩
  · exact hzvals (fun y x => y ∈ m.slots → 0 < x.refcount) hlive fun y _ => ha.live y
  · exact hzvals (fun y x => y ∉ m.slots → ∀ e ∈ x.value.elements, e.2 ∉ m.slots)
      (fun hz e he => (helements e he).2 hz) fun y _ => ha.elements y
  · exact hzvals (fun y x => y ∉ m.slots → ∀ h, x.value = .object h → ¬ H h)
      (fun hz h hv => (hhandle h hv).2 hz) fun y _ => ha.handles y
  · exact hzvals (fun _ x => ∀ e ∈ x.value.elements, e.2 < m.nextZval)
      (fun e he => (helements e he).1) fun y _ => ha.elements_lt y
  · exact hzvals (fun _ x => ∀ h, x.value = .object h → h < m.nextObject)
      (fun h hv => (hhandle h hv).1) fun y _ => ha.handles_lt y

theorem Apart.setRefcount (ha : Apart env H m) (z : ZvalPtr) (refcount : Nat) (isRef : Bool)
    (hlive : z ∈ m.slots → 0 < refcount) :
    Undisturbed env H m (m.setZval z ⟨refcount, isRef, (m.zvals z).value⟩) := by
  refine ⟨ha.setZval hlive ?_ ?_, fun y _ h hv => ?_⟩
  · exact fun e he => ⟨ha.elements_lt z e he, fun hz => ha.elements z hz e he⟩
  · exact fun h hv => ⟨ha.handles_lt z h hv, fun hz => ha.handles z hz h hv⟩
  · by_cases hyz : y = z
    · subst hyz
      rw [setZval_same]
      exact hv
    · rw [setZval_other _ _ hyz]
      exact hv

def Value.Plain : Value → Prop
  | .array elements => elements = []
  | .object _ => False
  | _ => True

theorem Value.Plain.elements {v : Value} (h : v.Plain) : v.elements = [] := by
  cases v with
  | array elements => exact h
  | _ => rfl

theorem Value.Plain.not_object {v : Value} (h : v.Plain) (o : Nat) : v ≠ .object o := by
  rintro rfl
  exact h

theorem Apart.setPlain (ha : Apart env H m) (hv : v.value.Plain)
    (hlive : z ∈ m.slots → 0 < v.refcount) : Leaves env H m (m.setZval z v) := by
  refine ha.setZval hlive (fun e he => ?_) fun h ho => absurd ho (hv.not_object h)
  rw [hv.elements] at he
  exact nomatch he

theorem Apart.setOutside (ha : Apart env H m) (hv : v.value.Plain) (hz : z ∉ m.slots)
    : Undisturbed env H m (m.setZval z v) := by
  refine ⟨ha.setPlain hv fun h => absurd h hz, fun y hy h ho => ?_⟩
  rw [setZval_other _ _ fun (hyz : y = z) => hz (hyz ▸ hy)]
  exact ho

theorem Apart.freeZval (ha : Apart env H m) (hz : z ∉ m.slots) :
    Undisturbed env H m (m.freeZval z) :=
  ha.setOutside trivial hz

theorem Apart.setObject (ha : Apart env H m) {o : ObjectBucket}
    (hprops : ∀ e ∈ o.properties, e.2 < m.nextZval ∧ (¬ H h → e.2 ∉ m.slots)) :
    Undisturbed env H m (m.setObject h o) := by
  have hobjects : ∀ (P : Nat → ObjectBucket → Prop), P h o → (∀ x, x ≠ h → P x (m.objects x)) →
      ∀ x, P x ((m.setObject h o).objects x) := by
    intro P hh hx x
    by_cases hxh : x = h
    · subst hxh
      rw [setObject_same]
      exact hh
    · rw [setObject_other _ _ hxh]
      exact hx x hxh
  refine ⟨⟨⟨ha.live, ha.below, ha.elements, ha.handles, ?_, ha.defaults, ha.elements_lt, ?_,
    ha.defaults_lt, ha.handles_lt, ha.inside_lt⟩, rfl, Nat.le_refl _⟩, fun _ _ _ h => h⟩
  · exact hobjects (fun x y => ¬ H x → ∀ e ∈ y.properties, e.2 ∉ m.slots)
      (fun hh e he => (hprops e he).2 hh) fun x _ => ha.properties x
  · exact hobjects (fun _ y => ∀ e ∈ y.properties, e.2 < m.nextZval)
      (fun e he => (hprops e he).1) fun x _ => ha.properties_lt x

def Outside (m : Mem) (zs : List ZvalPtr) : Prop := ∀ z ∈ zs, z ∉ m.slots ∧ z < m.nextZval

theorem Outside.leaves {zs : List ZvalPtr} (h : Outside m zs) (hl : Leaves env H m m') :
    Outside m' zs := by
  intro z hz
  rw [hl.slots]
  exact ⟨(h z hz).1, Nat.lt_of_lt_of_le (h z hz).2 hl.nextZval⟩

def Spares (m : Mem) (z : ZvalPtr) : Prop := z ∈ m.slots → 2 ≤ (m.zvals z).refcount

theorem Apart.dtorValue (henv : env.KeepsApart) (ha : Apart env H m) (v : Value)
    (helements : ∀ e ∈ v.elements, e.2 ∉ m.slots ∧ e.2 < m.nextZval)
    (hhandle : ∀ h, v = .object h → ¬ H h) :
    Undisturbed env H m (m.dtorValue env v).2 ∧
      Outside (m.dtorValue env v).2 (m.dtorValue env v).1 := by
  cases v with
  | array elements =>
    refine ⟨Undisturbed.refl ha, fun z hz => ?_⟩
    obtain ⟨e, he, rfl⟩ := List.mem_map.mp hz
    exact helements e he
  | object handle =>
    have hout := hhandle handle rfl
    have hmark : Undisturbed env H m
        (m.setObject handle { m.objects handle with destructorCalled := true }) :=
      ha.setObject fun e he => ⟨ha.properties_lt handle e he, fun h => ha.properties handle h e he⟩
    -- the heap after the destructor, if it is called
    have hdtor : Undisturbed env H m
        (if (m.objects handle).refcount = 1 ∧ (m.objects handle).destructorCalled = false then
          env.destruct handle
            (m.setObject handle { m.objects handle with destructorCalled := true })
        else m) := by
      split
      · exact hmark.trans (henv.destruct handle H _ hmark.apart)
      · exact Undisturbed.refl ha
    rw [Mem.dtorValue]
    dsimp only
    revert hdtor
    generalize (if (m.objects handle).refcount = 1 ∧
      (m.objects handle).destructorCalled = false then _ else m) = m₁
    intro hdtor
    have ha₁ := hdtor.apart
    split
    · refine ⟨hdtor.trans (ha₁.setObject nofun), fun z hz => ?_⟩
      obtain ⟨e, he, rfl⟩ := List.mem_map.mp hz
      exact ⟨ha₁.properties handle hout e he, ha₁.properties_lt handle e he⟩
    · refine ⟨hdtor.trans (ha₁.setObject fun e he => ?_), nofun⟩
      exact ⟨ha₁.properties_lt handle e he, fun h => ha₁.properties handle h e he⟩
  | _ => exact ⟨Undisturbed.refl ha, nofun⟩

theorem Apart.releaseLoop (henv : env.KeepsApart) (n : Nat) {zs : List ZvalPtr} {m : Mem}
    (ha : Apart env H m) (hzs : Outside m zs) : Undisturbed env H m (Mem.releaseLoop env n zs m) := by
  induction n generalizing zs m with
  | zero => exact Undisturbed.refl ha
  | succ n ih =>
    cases zs with
    | nil => exact Undisturbed.refl ha
    | cons z zs =>
      have hz : z ∉ m.slots := (hzs z (List.mem_cons_self ..)).1
      have hrest : Outside m zs := fun y hy => hzs y (List.mem_cons_of_mem _ hy)
      rw [Mem.releaseLoop]
      dsimp only
      split
      · have hfree := ha.freeZval hz
        have hdtor := hfree.apart.dtorValue henv (m.zvals z).value
          (fun e he => ⟨ha.elements z hz e he, ha.elements_lt z e he⟩) (ha.handles z hz)
        refine (hfree.trans hdtor.1).trans (ih hdtor.1.apart fun y hy => ?_)
        rcases List.mem_append.mp hy with hy | hy
        · exact hdtor.2 y hy
        · exact (hrest.leaves (hfree.trans hdtor.1).toLeaves) y hy
      · have hdec := ha.setRefcount z ((m.zvals z).refcount - 1)
          (if (m.zvals z).refcount - 1 = 1 then false else (m.zvals z).isRef) fun h => absurd h hz
        exact hdec.trans (ih hdec.apart (hrest.leaves hdec.toLeaves))

theorem Apart.zvalPtrDtor (henv : env.KeepsApart) (ha : Apart env H m) (hz : Spares m z)
    (hlt : z < m.nextZval) : Undisturbed env H m (m.zvalPtrDtor env z) := by
  by_cases hslot : z ∈ m.slots
  · have h2 := hz hslot
    have hne : ¬ (m.zvals z).refcount - 1 = 0 := by omega
    rw [Mem.zvalPtrDtor, Mem.releaseLoop]
    simp only [hne, if_false]
    have hdec := ha.setRefcount z ((m.zvals z).refcount - 1)
      (if (m.zvals z).refcount - 1 = 1 then false else (m.zvals z).isRef) (by omega)
    exact hdec.trans (hdec.apart.releaseLoop henv _ nofun)
  · exact ha.releaseLoop henv _ fun y hy => List.mem_singleton.mp hy ▸ ⟨hslot, hlt⟩

theorem Apart.discard (henv : env.KeepsApart) (ha : Apart env H m) (hz : z ∉ m.slots)
    : Undisturbed env H m (m.discard env z) := by
  have hfree := ha.freeZval hz
  have hdtor := hfree.apart.dtorValue henv (m.zvals z).value
    (fun e he => ⟨ha.elements z hz e he, ha.elements_lt z e he⟩) (ha.handles z hz)
  exact (hfree.trans hdtor.1).trans (hdtor.1.apart.releaseLoop henv _ hdtor.2)

theorem mem_storeKey {l : List (HashKey × ZvalPtr)} {e : HashKey × ZvalPtr} (h : e ∈ storeKey k z l)
    : e ∈ l ∨ e = (k, z) := by
  induction l with
  | nil => exact Or.inr (List.mem_singleton.mp h)
  | cons e' l ih =>
    rw [storeKey] at h
    split at h
    · rcases List.mem_cons.mp h with rfl | h
      · exact Or.inr rfl
      · exact Or.inl (List.mem_cons_of_mem _ h)
    · rcases List.mem_cons.mp h with rfl | h
      · exact Or.inl (List.mem_cons_self ..)
      · exact (ih h).imp_left (List.mem_cons_of_mem _)

theorem mem_of_findKey {l : List (HashKey × ZvalPtr)} (h : findKey l k = some z)
    : ∃ e ∈ l, e.2 = z := by
  obtain ⟨e, he, rfl⟩ := Option.map_eq_some_iff.mp h
  exact ⟨e, List.mem_of_find?_eq_some he, rfl⟩

theorem Apart.releaseOld (henv : env.KeepsApart) (ha : Apart env H m) (old : Option ZvalPtr)
    (hold : ∀ z ∈ old, Spares m z ∧ z < m.nextZval) :
    Undisturbed env H m (m.releaseOld env old) := by
  cases old with
  | none => exact Undisturbed.refl ha
  | some z => exact ha.zvalPtrDtor henv (hold z rfl).1 (hold z rfl).2

theorem Apart.updateArray (henv : env.KeepsApart) (ha : Apart env H m) {data : ZvalPtr}
    (hold : ∀ old, findKey (m.elements z) k = some old → Spares m old)
    (hdata : z ∉ m.slots → data ∉ m.slots) (hlt : data < m.nextZval) :
    Leaves env H m (m.updateArray env z k data) := by
  have hrel := ha.releaseOld henv (findKey (m.elements z) k) fun y hy => by
    obtain ⟨e, he, rfl⟩ := mem_of_findKey hy
    exact ⟨hold _ hy, ha.elements_lt z e he⟩
  refine hrel.toLeaves.trans (hrel.apart.setZval (fun h => hrel.apart.live z h) ?_ nofun)
  intro e he
  rcases mem_storeKey he with he | rfl
  · exact ⟨hrel.apart.elements_lt z e he, fun hz => hrel.apart.elements z hz e he⟩
  · rw [hrel.slots]
    exact ⟨Nat.lt_of_lt_of_le hlt hrel.nextZval, hdata⟩

theorem Apart.updateProperty (henv : env.KeepsApart) (ha : Apart env H m) {data : ZvalPtr}
    (hold : ∀ old, findKey (m.objects h).properties k = some old → Spares m old)
    (hdata : ¬ H h → data ∉ m.slots) (hlt : data < m.nextZval) :
    Undisturbed env H m (m.updateProperty env h k data) := by
  have hrel := ha.releaseOld henv (findKey (m.objects h).properties k) fun y hy => by
    obtain ⟨e, he, rfl⟩ := mem_of_findKey hy
    exact ⟨hold _ hy, ha.properties_lt h e he⟩
  refine hrel.trans (hrel.apart.setObject fun e he => ?_)
  rcases mem_storeKey he with he | rfl
  · exact ⟨hrel.apart.properties_lt h e he, fun hh => hrel.apart.properties h hh e he⟩
  · rw [hrel.slots]
    exact ⟨Nat.lt_of_lt_of_le hlt hrel.nextZval, hdata⟩

/-- A zval outside the slots that nothing refers to. -/
structure Fresh (env : Env) (m : Mem) (z : ZvalPtr) : Prop where
  outside : z ∉ m.slots
  lt : z < m.nextZval
  live : 0 < (m.zvals z).refcount
  elements : ∀ y, ∀ e ∈ m.elements y, e.2 ≠ z
  properties : ∀ h, ∀ e ∈ (m.objects h).properties, e.2 ≠ z
  defaults : ∀ ce, ∀ e ∈ (env.classes ce).defaultProperties, e.2 ≠ z

theorem Apart.allocInitZval (ha : Apart env H m) :
    Undisturbed env H m m.allocInitZval ∧ Fresh env m.allocInitZval m.nextZval := by
  have hout : m.nextZval ∉ m.slots := fun h => Nat.lt_irrefl _ (ha.below _ h)
  have hset : Undisturbed env H m (m.setZval m.nextZval ⟨1, false, .null⟩) :=
    ha.setOutside trivial hout
  have hs := hset.apart
  refine ⟨⟨⟨⟨hs.live, fun z hz => Nat.lt_succ_of_lt (hs.below z hz), hs.elements, hs.handles,
    hs.properties, hs.defaults, fun z e he => Nat.lt_succ_of_lt (hs.elements_lt z e he),
    fun h e he => Nat.lt_succ_of_lt (hs.properties_lt h e he),
    fun ce e he => Nat.lt_succ_of_lt (hs.defaults_lt ce e he), hs.handles_lt, hs.inside_lt⟩, rfl,
    Nat.le_succ _⟩, hset.objects⟩, hout, Nat.lt_succ_self _, ?_, ?_, ?_, ?_⟩
  · change 0 < ((m.setZval m.nextZval ⟨1, false, .null⟩).zvals m.nextZval).refcount
    rw [setZval_same]
    exact Nat.zero_lt_one
  · exact fun y e he => Nat.ne_of_lt (hs.elements_lt y e he)
  · exact fun h e he => Nat.ne_of_lt (hs.properties_lt h e he)
  · exact fun ce e he => Nat.ne_of_lt (hs.defaults_lt ce e he)

theorem Apart.varPush (ha : Apart env H m) (hz : Fresh env m z) :
    Apart env H (m.varPush z) := by
  have hmem : ∀ y, y ∈ (m.varPush z).slots ↔ y ∈ m.slots ∨ y = z := by
    intro y
    rw [Mem.varPush, List.mem_append, List.mem_singleton]
  have hout : ∀ y, y ∉ (m.varPush z).slots → y ∉ m.slots := fun y hy h =>
    hy ((hmem y).mpr (Or.inl h))
  have hnew : ∀ y, y ∉ m.slots → y ≠ z → y ∉ (m.varPush z).slots := fun y hy hne h =>
    ((hmem y).mp h).elim hy hne
  refine ⟨fun y hy => ?_, fun y hy => ?_, fun y hy e he => ?_, fun y hy => ?_, fun h hh e he => ?_,
    fun ce e he => ?_, ha.elements_lt, ha.properties_lt, ha.defaults_lt, ha.handles_lt,
    ha.inside_lt⟩
  · rcases (hmem y).mp hy with hy | rfl
    · exact ha.live y hy
    · exact hz.live
  · rcases (hmem y).mp hy with hy | rfl
    · exact ha.below y hy
    · exact hz.lt
  · exact hnew _ (ha.elements y (hout y hy) e he) (hz.elements y e he)
  · exact ha.handles y (hout y hy)
  · exact hnew _ (ha.properties h hh e he) (hz.properties h e he)
  · exact hnew _ (ha.defaults ce e he) (hz.defaults ce e he)

theorem Apart.addref (ha : Apart env H m) (z : ZvalPtr) : Undisturbed env H m (m.addref z) :=
  ha.setRefcount z _ _ fun _ => Nat.succ_pos _

theorem Apart.varPushDtor (ha : Apart env H m) (z : ZvalPtr) :
    Undisturbed env H m (m.varPushDtor z) := by
  have h := ha.addref z
  exact ⟨⟨⟨h.apart.live, h.apart.below, h.apart.elements, h.apart.handles, h.apart.properties,
    h.apart.defaults, h.apart.elements_lt, h.apart.properties_lt, h.apart.defaults_lt,
    h.apart.handles_lt, h.apart.inside_lt⟩, h.slots, h.nextZval⟩, h.objects⟩

theorem Apart.addrefs (l : List (HashKey × ZvalPtr)) {m : Mem} (ha : Apart env H m) :
    Undisturbed env H m (l.foldl (fun m e => m.addref e.2) m) := by
  induction l generalizing m with
  | nil => exact Undisturbed.refl ha
  | cons e l ih => exact (ha.addref e.2).trans (ih (ha.addref e.2).apart)

/-- The objects of the inside, once `z` holds the next object. -/
def withObject (H : Nat → Prop) (m : Mem) (z : ZvalPtr) (h : Nat) : Prop :=
  H h ∨ z ∈ m.slots ∧ h = m.nextObject

theorem Apart.reserveObject (ha : Apart env H m) (z : ZvalPtr) :
    Apart env (withObject H m z) { m with nextObject := m.nextObject + 1 } := by
  refine ⟨ha.live, ha.below, ha.elements, ?_, ?_, ha.defaults, ha.elements_lt, ha.properties_lt,
    ha.defaults_lt, fun y h hv => Nat.lt_succ_of_lt (ha.handles_lt y h hv), ?_⟩
  · rintro y hy h hv (hH | ⟨-, rfl⟩)
    · exact ha.handles y hy h hv hH
    · exact Nat.lt_irrefl _ (ha.handles_lt y _ hv)
  · exact fun h hh => ha.properties h fun hH => hh (Or.inl hH)
  · rintro h (hH | ⟨-, rfl⟩)
    · exact Nat.lt_succ_of_lt (ha.inside_lt h hH)
    · exact Nat.lt_succ_self _

theorem addrefs_nextObject (l : List (HashKey × ZvalPtr)) (m : Mem) :
    (l.foldl (fun m e => m.addref e.2) m).nextObject = m.nextObject := by
  induction l generalizing m with
  | nil => rfl
  | cons e l ih => exact ih (m.addref e.2)

theorem Apart.objectInit (ha : Apart env H m) (z : ZvalPtr) (ce : ClassPtr) :
    Leaves env (withObject H m z) m (m.objectInit env z ce) ∧
      ((m.objectInit env z ce).zvals z).value = .object m.nextObject := by
  have hrefs := ha.addrefs (env.classes ce).defaultProperties
  have hnext := addrefs_nextObject (env.classes ce).defaultProperties m
  rw [Mem.objectInit]
  dsimp only
  revert hrefs hnext
  generalize (env.classes ce).defaultProperties.foldl (fun m e => m.addref e.2) m = m₁
  intro hrefs hnext
  have hH : withObject H m z = withObject H m₁ z := by
    funext h
    rw [withObject, withObject, hrefs.slots, hnext]
  have hobj := (hrefs.apart.reserveObject z).setObject (h := m₁.nextObject)
    (o := ⟨1, false, ce, (env.classes ce).defaultProperties⟩)
    fun e he => ⟨hrefs.apart.defaults_lt ce e he, fun _ => hrefs.apart.defaults ce e he⟩
  have hset := hobj.toLeaves.trans (hobj.apart.setZval (z := z)
    (v := { m₁.zvals z with value := .object m₁.nextObject }) (fun hz => hobj.apart.live z hz)
    nofun fun h hv => by
      obtain rfl := Value.object.inj hv
      refine ⟨Nat.lt_succ_self _, ?_⟩
      rintro hz (hH | ⟨hz', -⟩)
      · exact Nat.lt_irrefl _ (hrefs.apart.inside_lt _ hH)
      · exact hz hz')
  refine ⟨⟨hH ▸ hset.apart, hset.slots.trans hrefs.slots, hrefs.nextZval⟩, ?_⟩
  rw [← hnext]
  exact congrArg Zval.value (setZval_same _ z _)

end Php53.Standard
