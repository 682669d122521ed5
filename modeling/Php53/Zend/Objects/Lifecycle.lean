import Mathlib.Tactic.Common
import Php53.Zend.Objects.Store

/-!
# Lifecycle — what holds of the object store in every run

`Sound` is the invariant.  Its parameter says whose storage is being freed, because
`zend_objects_store_del_ref_by_handle_ex` frees the storage of an object in two steps and other
code may run in between.
-/

open Reasoning

namespace Php53.Zend

open List

variable {log : List ObjectEvent} {e : ObjectEvent} {i : Nat}

def link (i : BitVec 32) : Option (BitVec 32) := if i = -1 then none else some i

namespace ObjectsStore

/-- The free list visits exactly the handles that no object has. -/
structure FreeList (s : ObjectsStore) (l : List (BitVec 32)) : Prop where
  walk : Walk (fun i => link (s.objectBuckets i).next) (link s.freeListHead) l
  nodup : l.Nodup
  mem_iff : ∀ h, h ∈ l ↔ h ≠ 0 ∧ h < s.top ∧ (s.objectBuckets h).valid = false

@[simp] theorem set_self (s : ObjectsStore) (h : BitVec 32) (b : ObjectStoreBucket) :
    (s.set h b).objectBuckets h = b := by
  show Function.update s.objectBuckets h b h = b
  rw [Function.update_self]

theorem set_of_ne (s : ObjectsStore) {h x : BitVec 32} (b : ObjectStoreBucket) (hne : x ≠ h) :
    (s.set h b).objectBuckets x = s.objectBuckets x := by
  show Function.update s.objectBuckets h b x = s.objectBuckets x
  rw [Function.update_of_ne hne]

variable {s : ObjectsStore} {l : List (BitVec 32)}

theorem FreeList.congr {s' : ObjectsStore} (h : s.FreeList l) (hhead : s'.freeListHead = s.freeListHead)
    (htop : s'.top = s.top) (hvalid : ∀ x, (s'.objectBuckets x).valid = (s.objectBuckets x).valid)
    (hnext : ∀ x, (s.objectBuckets x).valid = false →
      (s'.objectBuckets x).next = (s.objectBuckets x).next) : s'.FreeList l := by
  refine ⟨?_, h.nodup, fun x => ?_⟩
  · rw [hhead]
    exact h.walk.congr fun x hx => congrArg link (hnext x ((h.mem_iff x).mp hx).2.2)
  · rw [h.mem_iff, htop, hvalid]

theorem ne_neg_one_of_lt {h top : BitVec 32} (hlt : h < top) : h ≠ -1 := by
  rintro rfl
  have hlt := BitVec.lt_def.mp hlt
  have htop := top.isLt
  rw [show (-1 : BitVec 32).toNat = 2 ^ 32 - 1 from rfl] at hlt
  omega

theorem FreeList.push (h : s.FreeList l) {handle : BitVec 32} (hne : handle ≠ 0)
    (hlt : handle < s.top) (hvalid : (s.objectBuckets handle).valid = true) :
    (s.addToFreeList handle).FreeList (handle :: l) := by
  have hmem : handle ∉ l := fun hmem => by
    have hfree := ((h.mem_iff handle).mp hmem).2.2
    rw [hvalid] at hfree
    exact nomatch hfree
  have hother : ∀ x ∈ l, (s.addToFreeList handle).objectBuckets x = s.objectBuckets x :=
    fun x hx => set_of_ne s _ fun heq => hmem (heq ▸ hx)
  refine ⟨⟨if_neg (ne_neg_one_of_lt hlt), ?_⟩, nodup_cons.mpr ⟨hmem, h.nodup⟩, fun x => ?_⟩
  · have hnext : ((s.addToFreeList handle).objectBuckets handle).next = s.freeListHead := by
      show ((s.set handle _).objectBuckets handle).next = _
      rw [set_self]
      exact ObjectStoreBucket.next_setNext _ _
    show Walk _ (link ((s.addToFreeList handle).objectBuckets handle).next) l
    rw [hnext]
    exact h.walk.congr fun x hx => by rw [hother x hx]
  · rw [mem_cons]
    by_cases hx : x = handle
    · subst hx
      have hinvalid : ((s.addToFreeList x).objectBuckets x).valid = false := by
        show ((s.set x _).objectBuckets x).valid = false
        rw [set_self]
      exact ⟨fun _ => ⟨hne, hlt, hinvalid⟩, fun _ => .inl rfl⟩
    · have hsame : (s.addToFreeList handle).objectBuckets x = s.objectBuckets x := set_of_ne s _ hx
      rw [hsame, h.mem_iff]
      exact ⟨fun hor => hor.resolve_left hx, .inr⟩

theorem FreeList.place (h : s.FreeList l) (htop : s.top ≤ s.size) (hpos : s.top ≠ 0)
    {b : ObjectStoreBucket} (hb : b.valid = true) (hlt : s.place.handle < s.place.store.size) :
    s.place.handle ≠ 0 ∧
      ¬ (s.place.handle < s.top ∧ (s.objectBuckets s.place.handle).valid = true) ∧
      s.place.handle < s.place.store.top ∧
      s.place.store.top ≤ s.place.store.size ∧
      (∀ x, x < s.place.store.top ↔ x < s.top ∨ x = s.place.handle) ∧
      ∃ l', (s.place.store.set s.place.handle b).FreeList l' := by
  rw [ObjectsStore.place] at hlt ⊢
  split at hlt
  · -- a bucket from the free list
    rename_i hhead
    rw [if_pos hhead]
    have hwalk := h.walk
    rw [link, if_neg hhead] at hwalk
    cases l with
    | nil => exact nomatch hwalk
    | cons y l =>
      obtain ⟨hy, hwalk⟩ := hwalk
      obtain rfl := Option.some.inj hy
      obtain ⟨hne, hrange, hfree⟩ := (h.mem_iff _).mp mem_cons_self
      obtain ⟨hmem, hnodup⟩ := nodup_cons.mp h.nodup
      refine ⟨hne, fun hboth => ?_, hrange, htop, fun x => ⟨.inl, ?_⟩, l, ?_, hnodup, fun x => ?_⟩
      · rw [hfree] at hboth
        exact nomatch hboth.2
      · rintro (hx | rfl)
        · exact hx
        · exact hrange
      · exact hwalk.congr fun x hx => by
          rw [set_of_ne _ _ fun heq : x = s.freeListHead => hmem (heq ▸ hx)]
      · by_cases hx : x = s.freeListHead
        · subst hx
          refine ⟨fun hin => absurd hin hmem, fun hin => ?_⟩
          rw [set_self, hb] at hin
          exact nomatch hin.2.2
        · rw [set_of_ne _ _ hx]
          show x ∈ l ↔ x ≠ 0 ∧ x < s.top ∧ (s.objectBuckets x).valid = false
          rw [← h.mem_iff, mem_cons]
          exact ⟨.inr, fun hor => hor.resolve_left hx⟩
  · -- the bucket at `top`
    rename_i hhead
    have hnil : l = [] := by
      have hwalk := h.walk
      rw [link, if_pos (not_not.mp hhead)] at hwalk
      cases l with
      | nil => rfl
      | cons y l => exact nomatch hwalk.1
    subst hnil
    have hall : ∀ x, x ≠ 0 → x < s.top → (s.objectBuckets x).valid = true := by
      intro x hx hlt
      cases hvalid : (s.objectBuckets x).valid with
      | true => rfl
      | false => exact absurd ((h.mem_iff x).mpr ⟨hx, hlt, hvalid⟩) not_mem_nil
    rw [if_neg hhead]
    have key : ∀ size : BitVec 32, s.top < size →
        s.top < s.top + 1 ∧ s.top + 1 ≤ size ∧ ∀ x, x < s.top + 1 ↔ x < s.top ∨ x = s.top := by
      intro size hsize
      have hsize := BitVec.lt_def.mp hsize
      have hbound := size.isLt
      have hsucc : (s.top + 1).toNat = s.top.toNat + 1 := by
        rw [BitVec.toNat_add]
        exact Nat.mod_eq_of_lt (by show s.top.toNat + 1 < _; omega)
      refine ⟨BitVec.lt_def.mpr (by omega), BitVec.le_def.mpr (by omega), fun x => ?_⟩
      rw [BitVec.lt_def, BitVec.lt_def, hsucc, ← BitVec.toNat_inj]
      omega
    have hlist : ∀ (s' : ObjectsStore) (size : BitVec 32), s.top < size →
        s'.freeListHead = s.freeListHead → s'.top = s.top + 1 →
        (∀ x, x ≠ s.top → s'.objectBuckets x = s.objectBuckets x) →
        (s'.objectBuckets s.top).valid = true → s'.FreeList [] := by
      intro s' size hsize hhead' htop' hother hself
      refine ⟨?_, nodup_nil, fun x => ⟨fun hin => absurd hin not_mem_nil, fun hin => ?_⟩⟩
      · rw [hhead', link, if_pos (not_not.mp hhead)]
        rfl
      · obtain ⟨hx, hlt, hfree⟩ := hin
        rw [htop', (key size hsize).2.2] at hlt
        by_cases heq : x = s.top
        · rw [heq, hself] at hfree
          exact nomatch hfree
        · rw [hother x heq, hall x hx (hlt.resolve_right heq)] at hfree
          exact nomatch hfree
    split at hlt
    · rename_i hfull
      rw [if_pos hfull]
      obtain ⟨h1, h2, h3⟩ := key _ hlt
      exact ⟨hpos, fun hboth => BitVec.lt_irrefl _ hboth.1, h1, h2, h3, [],
        hlist _ _ hlt rfl rfl (fun x hx => set_of_ne _ _ hx) (by rw [set_self]; exact hb)⟩
    · rename_i hfull
      rw [if_neg hfull]
      obtain ⟨h1, h2, h3⟩ := key _ hlt
      exact ⟨hpos, fun hboth => BitVec.lt_irrefl _ hboth.1, h1, h2, h3, [],
        hlist _ _ hlt rfl rfl (fun x hx => set_of_ne _ _ hx) (by rw [set_self]; exact hb)⟩

end ObjectsStore

def Frame.handle : Frame → BitVec 32
  | .destructing handle | .freeing handle _ _ | .cloning handle _ => handle

def Frame.freed : Frame → Option (BitVec 32)
  | .freeing handle _ _ => some handle
  | _ => none

/-- What happened to an object that is in the store; `f`: its storage is being freed. -/
structure Present (log : List ObjectEvent) (i : Nat) (f : Prop) (destructorCalled : Bool) : Prop where
  dtor : log.count (.dtor i) ≤ 1
  new : destructorCalled = false → log.count (.dtor i) = 0
  freeing : f → log.count (.freeStorage i) = 1
  kept : ¬ f → log.count (.freeStorage i) = 0
  released : log.count (.released i) = 0

/-- What happened to an object that was in the store. -/
structure Gone (log : List ObjectEvent) (i : Nat) : Prop where
  dtor : log.count (.dtor i) ≤ 1
  freeStorage : log.count (.freeStorage i) = 1
  released : log.count (.released i) = 1

def ObjectEvent.object : ObjectEvent → Nat
  | .dtor i | .freeStorage i | .released i => i

theorem count_event_cons (hne : i ≠ e.object) (e' : ObjectEvent) (h : e'.object = i)
    : (e :: log).count e' = log.count e' :=
  count_cons_of_ne fun heq => hne (by rw [← h, ← heq])

theorem Present.cons {f : Prop} {called : Bool} (h : Present log i f called) (hne : i ≠ e.object) :
    Present (e :: log) i f called := by
  have hcount := @count_event_cons log e i hne
  refine ⟨?_, fun hnew => ?_, fun hf => ?_, fun hf => ?_, ?_⟩
  · rw [hcount _ rfl]
    exact h.dtor
  · rw [hcount _ rfl]
    exact h.new hnew
  · rw [hcount _ rfl]
    exact h.freeing hf
  · rw [hcount _ rfl]
    exact h.kept hf
  · rw [hcount _ rfl]
    exact h.released

theorem Gone.cons (h : Gone log i) (hne : i ≠ e.object) : Gone (e :: log) i := by
  have hcount := @count_event_cons log e i hne
  refine ⟨?_, ?_, ?_⟩
  · rw [hcount _ rfl]
    exact h.dtor
  · rw [hcount _ rfl]
    exact h.freeStorage
  · rw [hcount _ rfl]
    exact h.released

/-- The stack has room for this many calls; a `refcount` cannot tell more of them apart. -/
def maxDepth : Nat := 2 ^ 32 - 2

namespace Machine

variable {f : Frame} {stack : List Frame}

/-- The destructor calls that wait for an object at `handle`, be it there or not. -/
def waiting (m : Machine) (handle : BitVec 32) : Nat := m.stack.count (.destructing handle)

/-- The invariant; `F`: the objects whose storage is being freed. -/
structure Sound (m : Machine) (F : BitVec 32 → Prop) : Prop where
  top : m.store.top ≠ 0
  size : m.store.top ≤ m.store.size
  list : ∃ l, m.store.FreeList l
  depth : m.stack.length ≤ maxDepth
  frame : ∀ f ∈ m.stack, f.handle ≠ 0 ∧ f.handle < m.store.top
  /-- No call above one that frees the storage of an object is about that object. -/
  order : m.stack.Pairwise fun above below => ∀ h, below.freed = some h → above.handle ≠ h
  freeing : ∀ h, F h → m.Valid h ∧ (m.bucket h).refcount = 1
  /-- The refcount of a free bucket is 0 when it becomes free, and one less for each destructor
  call that returns afterwards. -/
  free : ∀ h, h ≠ 0 → h < m.store.top → (m.bucket h).valid = false →
    ∃ j, (m.bucket h).refcount = -(BitVec.ofNat 32 j) ∧ j + m.waiting h ≤ maxDepth
  occupant : ∀ h h', m.Valid h → m.Valid h' → m.occupant h = m.occupant h' → h = h'
  born : ∀ h, m.Valid h → m.occupant h < m.born
  present : ∀ h, m.Valid h → Present m.log (m.occupant h) (F h) (m.bucket h).destructorCalled
  gone : ∀ i, i < m.born → (∀ h, m.Valid h → m.occupant h ≠ i) → Gone m.log i
  unborn : ∀ e : ObjectEvent, m.born ≤ e.object → m.log.count e = 0

variable {m : Machine} {F : BitVec 32 → Prop} {h : BitVec 32} {b : ObjectStoreBucket}
  {h : BitVec 32}

@[simp] theorem bucket_set (h : BitVec 32) (b : ObjectStoreBucket) (stack : List Frame)
    (bailout : Bool) (log : List ObjectEvent) :
    ({ m with store := m.store.set h b, stack, bailout, log } : Machine).bucket h = b :=
  ObjectsStore.set_self _ _ _

theorem bucket_set_of_ne {x : BitVec 32} (hne : x ≠ h) :
    ({ m with store := m.store.set h b } : Machine).bucket x = m.bucket x :=
  ObjectsStore.set_of_ne _ _ hne

theorem valid_set (hb : b.valid = (m.bucket h).valid) (x : BitVec 32) :
    ({ m with store := m.store.set h b } : Machine).Valid x ↔ m.Valid x := by
  have hvalid : (({ m with store := m.store.set h b } : Machine).bucket x).valid =
      (m.bucket x).valid := by
    by_cases hx : x = h
    · subst hx
      rw [show ({ m with store := m.store.set x b } : Machine).bucket x = b from
        ObjectsStore.set_self _ _ _, hb]
    · rw [bucket_set_of_ne hx]
  rw [Valid, Valid, hvalid]
  rfl

theorem Valid.touch (hv : m.Valid h) (hb : b.valid = true) :
    ({ m with store := m.store.set h b } : Machine).Valid h := by
  refine ⟨hv.1, hv.2.1, ?_⟩
  rw [show ({ m with store := m.store.set h b } : Machine).bucket h = b from
    ObjectsStore.set_self _ _ _]
  exact hb

theorem Sound.touch (hs : m.Sound F) (hv : m.Valid h) (hb : b.valid = true)
    (hcount : F h → b.refcount = 1)
    (hcalled : b.destructorCalled = false → (m.bucket h).destructorCalled = false) :
    Sound { m with store := m.store.set h b } F := by
  have hvalid := valid_set (hb.trans hv.2.2.symm)
  have hself : ({ m with store := m.store.set h b } : Machine).bucket h = b :=
    ObjectsStore.set_self _ _ _
  obtain ⟨l, hl⟩ := hs.list
  refine ⟨hs.top, hs.size, ⟨l, hl.congr rfl rfl (fun x => ?_) fun x hx => ?_⟩, hs.depth, hs.frame,
    hs.order, fun x hx => ?_, fun x hne hlt hfree => ?_, fun x y hx hy => ?_, fun x hx => ?_,
    fun x hx => ?_, fun i hi hno => ?_, hs.unborn⟩
  · by_cases hx : x = h
    · subst hx
      rw [ObjectsStore.set_self]
      exact hb.trans hv.2.2.symm
    · rw [ObjectsStore.set_of_ne _ _ hx]
  · rw [ObjectsStore.set_of_ne _ _ fun heq => ?_]
    subst heq
    rw [show (m.store.objectBuckets x).valid = true from hv.2.2] at hx
    exact nomatch hx
  · refine ⟨(hvalid x).mpr (hs.freeing x hx).1, ?_⟩
    by_cases hxh : x = h
    · subst hxh
      rw [hself]
      exact hcount hx
    · rw [bucket_set_of_ne hxh]
      exact (hs.freeing x hx).2
  · have hxh : x ≠ h := by
      rintro rfl
      rw [hself, hb] at hfree
      exact nomatch hfree
    rw [bucket_set_of_ne hxh] at hfree ⊢
    exact hs.free x hne hlt hfree
  · exact hs.occupant x y ((hvalid x).mp hx) ((hvalid y).mp hy)
  · exact hs.born x ((hvalid x).mp hx)
  · have hp := hs.present x ((hvalid x).mp hx)
    by_cases hxh : x = h
    · subst hxh
      rw [hself]
      exact ⟨hp.dtor, fun hc => hp.new (hcalled hc), hp.freeing, hp.kept, hp.released⟩
    · rw [bucket_set_of_ne hxh]
      exact hp
  · exact hs.gone i hi fun x hx => hno x ((hvalid x).mpr hx)

theorem Sound.event (hs : m.Sound F) (hv : m.Valid h) {e : ObjectEvent}
    (he : e.object = m.occupant h) {F' : BitVec 32 → Prop} (hother : ∀ x, x ≠ h → (F' x ↔ F x))
    (hself : F' h → (m.bucket h).refcount = 1)
    (hp : Present (e :: m.log) (m.occupant h) (F' h) (m.bucket h).destructorCalled) :
    Sound { m with log := e :: m.log } F' := by
  refine ⟨hs.top, hs.size, hs.list, hs.depth, hs.frame, hs.order, fun x hx => ?_, hs.free,
    hs.occupant, hs.born, fun x hx => ?_, fun i hi hno => ?_, fun e' he' => ?_⟩
  · by_cases hxh : x = h
    · subst hxh
      exact ⟨hv, hself hx⟩
    · exact hs.freeing x ((hother x hxh).mp hx)
  · by_cases hxh : x = h
    · subst hxh
      exact hp
    · have hne : m.occupant x ≠ e.object := fun heq => hxh (hs.occupant x h hx hv (heq.trans he))
      have hold := (hs.present x hx).cons hne
      exact ⟨hold.dtor, hold.new, fun hf => hold.freeing ((hother x hxh).mp hf),
        fun hf => hold.kept fun hf' => hf ((hother x hxh).mpr hf'), hold.released⟩
  · exact (hs.gone i hi hno).cons fun heq => hno h hv (he.symm.trans heq.symm)
  · have hborn := hs.born h hv
    have he' : m.born ≤ e'.object := he'
    show count e' (e :: m.log) = 0
    rw [@count_event_cons _ _ e'.object (by omega) e' rfl]
    exact hs.unborn e' he'

theorem Sound.congr {F' : BitVec 32 → Prop} (hs : m.Sound F) (h : ∀ x, F' x ↔ F x) : m.Sound F' := by
  have heq : F' = F := funext fun x => propext (h x)
  rwa [heq]

theorem Sound.bailout (hs : m.Sound F) (bailout : Bool) : Sound { m with bailout } F :=
  ⟨hs.top, hs.size, hs.list, hs.depth, hs.frame, hs.order, hs.freeing, hs.free, hs.occupant, hs.born,
    hs.present, hs.gone, hs.unborn⟩

theorem mem_of_freed (hf : f ∈ m.stack) (h : f.freed = some h') : m.Freeing h' := by
  cases f with
  | destructing => exact nomatch h
  | cloning => exact nomatch h
  | freeing handle failure inPlace =>
    obtain rfl := Option.some.inj h
    exact ⟨failure, inPlace, hf⟩

theorem Sound.push (hs : m.Sound F) (hv : m.Valid f.handle) (hno : ¬ m.Freeing f.handle)
    (hdepth : m.stack.length < maxDepth) : Sound { m with stack := f :: m.stack } F := by
  refine ⟨hs.top, hs.size, hs.list, hdepth, fun g hg => ?_, ?_, hs.freeing, fun x hne hlt hfree => ?_,
    hs.occupant, hs.born, hs.present, hs.gone, hs.unborn⟩
  · rcases mem_cons.mp hg with rfl | hg
    · exact ⟨hv.1, hv.2.1⟩
    · exact hs.frame g hg
  · refine pairwise_cons.mpr ⟨fun g hg x hx heq => ?_, hs.order⟩
    rw [heq] at hno
    exact hno (mem_of_freed hg hx)
  · obtain ⟨j, hj, hle⟩ := hs.free x hne hlt hfree
    refine ⟨j, hj, ?_⟩
    have hdiff : f ≠ .destructing x := by
      rintro rfl
      have hvalid : (m.bucket x).valid = true := hv.2.2
      rw [show (m.bucket x).valid = false from hfree] at hvalid
      exact nomatch hvalid
    rw [waiting, count_cons_of_ne hdiff]
    exact hle

theorem Sound.pop (hs : m.Sound F) (hstack : m.stack = f :: stack) :
    Sound { m with stack } F := by
  have hdepth := hs.depth
  have horder := hs.order
  have hframe := hs.frame
  rw [hstack] at hdepth horder hframe
  refine ⟨hs.top, hs.size, hs.list, Nat.le_trans (Nat.le_succ _) hdepth,
    fun g hg => hframe g (mem_cons_of_mem f hg), (pairwise_cons.mp horder).2, hs.freeing,
    fun x hne hlt hfree => ?_, hs.occupant, hs.born, hs.present, hs.gone, hs.unborn⟩
  obtain ⟨j, hj, hle⟩ := hs.free x hne hlt hfree
  refine ⟨j, hj, Nat.le_trans (Nat.add_le_add_left ?_ j) hle⟩
  rw [waiting, waiting, hstack]
  exact count_le_count_cons

theorem Sound.decref (hs : m.Sound F) (hv : m.Valid h) (hF : ¬ F h) (hcount : (m.bucket h).refcount ≠ 1)
    (failure : Bool) : (m.decref h failure).Sound F := by
  have htouch := hs.touch (b := { m.bucket h with refcount := (m.bucket h).refcount - 1 }) hv hv.2.2
    (fun hf => absurd hf hF) id
  rw [Machine.decref, if_neg hcount]
  exact htouch.bailout failure

theorem neg_ofNat_ne_one {j : Nat} (hj : j < maxDepth) : -(BitVec.ofNat 32 j) ≠ 1 := by
  intro heq
  have hneg : BitVec.ofNat 32 j = -1 := by rw [← heq, BitVec.neg_neg]
  have hnat := congrArg BitVec.toNat hneg
  rw [BitVec.toNat_ofNat, show (-1 : BitVec 32).toNat = 2 ^ 32 - 1 from rfl] at hnat
  rw [maxDepth] at hj
  omega

theorem Sound.decref_free (hs : m.Sound F) (hne : h ≠ 0) (hlt : h < m.store.top)
    (hfree : (m.bucket h).valid = false) {j : Nat} (hj : (m.bucket h).refcount = -(BitVec.ofNat 32 j))
    (hle : j + m.waiting h < maxDepth) (failure : Bool) : (m.decref h failure).Sound F := by
  have hcount : (m.bucket h).refcount ≠ 1 := by
    rw [hj]
    exact neg_ofNat_ne_one (by omega)
  have hself : (({ m with store := m.store.set h _ } : Machine).bucket h) = _ :=
    ObjectsStore.set_self m.store h { m.bucket h with refcount := (m.bucket h).refcount - 1 }
  have hvalid := valid_set (m := m) (h := h)
    (b := { m.bucket h with refcount := (m.bucket h).refcount - 1 }) rfl
  have hnv : ∀ x, m.Valid x → x ≠ h := by
    rintro x hx rfl
    have hvalid := hx.2.2
    rw [hfree] at hvalid
    exact nomatch hvalid
  obtain ⟨l, hl⟩ := hs.list
  rw [Machine.decref, if_neg hcount]
  refine Sound.bailout (m := { m with store := m.store.set h _ }) ?_ failure
  refine ⟨hs.top, hs.size, ⟨l, hl.congr rfl rfl (fun x => ?_) fun x _ => ?_⟩, hs.depth, hs.frame,
    hs.order, fun x hx => ?_, fun x hne hlt hfree => ?_, fun x y hx hy => ?_, fun x hx => ?_,
    fun x hx => ?_, fun i hi hno => ?_, hs.unborn⟩
  · by_cases hx : x = h
    · subst hx
      rw [ObjectsStore.set_self]
      rfl
    · rw [ObjectsStore.set_of_ne _ _ hx]
  · by_cases hx : x = h
    · subst hx
      rw [ObjectsStore.set_self]
      rfl
    · rw [ObjectsStore.set_of_ne _ _ hx]
  · obtain ⟨hv, hone⟩ := hs.freeing x hx
    refine ⟨(hvalid x).mpr hv, ?_⟩
    rw [bucket_set_of_ne (hnv x hv)]
    exact hone
  · by_cases hx : x = h
    · subst hx
      refine ⟨j + 1, ?_, by rw [Nat.succ_add]; exact hle⟩
      rw [hself, hj, BitVec.ofNat_add, BitVec.neg_add]
      rfl
    · rw [bucket_set_of_ne hx] at hfree ⊢
      exact hs.free x hne hlt hfree
  · exact hs.occupant x y ((hvalid x).mp hx) ((hvalid y).mp hy)
  · exact hs.born x ((hvalid x).mp hx)
  · have hv := (hvalid x).mp hx
    rw [bucket_set_of_ne (hnv x hv)]
    exact hs.present x hv
  · exact hs.gone i hi fun x hx => hno x ((hvalid x).mpr hx)

def emptied (m : Machine) (h : BitVec 32) : ObjectStoreBucket :=
  let b := (m.bucket h).setNext m.store.freeListHead
  { b with valid := false, refcount := b.refcount - 1 }

theorem release_eq (hone : (m.bucket h).refcount = 1) (failure : Bool) :
    m.release h failure =
      { m with
        store := (m.store.addToFreeList h).set h (m.emptied h)
        log := .released (m.occupant h) :: m.log
        bailout := failure } := by
  have hbucket : ({ m with store := m.store.addToFreeList h } : Machine).bucket h =
      { (m.bucket h).setNext m.store.freeListHead with valid := false } :=
    ObjectsStore.set_self _ _ _
  have hcount : ((m.bucket h).setNext m.store.freeListHead).refcount = 1 := hone
  rw [Machine.release, Machine.decref, hbucket]
  simp only [hcount, if_true, emptied]

theorem Sound.release {G : BitVec 32 → Prop} (hs : m.Sound F) (hv : m.Valid h)
    (hF : ∀ x, F x ↔ G x ∨ x = h) (hG : ¬ G h) (failure : Bool) :
    (m.release h failure).Sound G := by
  obtain ⟨-, hone⟩ := hs.freeing h ((hF h).mpr (.inr rfl))
  have hp := hs.present h hv
  have hself : (m.release h failure).bucket h = m.emptied h := by
    rw [release_eq hone]
    exact ObjectsStore.set_self _ _ _
  have hother : ∀ x, x ≠ h → (m.release h failure).bucket x = m.bucket x := by
    intro x hx
    rw [release_eq hone]
    show ((m.store.addToFreeList h).set h _).objectBuckets x = _
    rw [ObjectsStore.set_of_ne _ _ hx]
    exact ObjectsStore.set_of_ne _ _ hx
  have hvalid : ∀ x, (m.release h failure).Valid x ↔ m.Valid x ∧ x ≠ h := by
    intro x
    have htop : (m.release h failure).store.top = m.store.top := by rw [release_eq hone]; rfl
    rw [Valid, Valid, htop]
    by_cases hx : x = h
    · subst hx
      rw [hself]
      exact ⟨fun hx => absurd hx.2.2 Bool.false_ne_true, fun hx => absurd rfl hx.2⟩
    · rw [hother x hx]
      exact ⟨fun hv => ⟨hv, hx⟩, fun hv => hv.1⟩
  obtain ⟨l, hl⟩ := hs.list
  have hlist := hl.push hv.1 hv.2.1 hv.2.2
  have hfreed : (m.store.addToFreeList h).objectBuckets h =
      { (m.bucket h).setNext m.store.freeListHead with valid := false } :=
    ObjectsStore.set_self _ _ _
  rw [release_eq hone] at hself hother hvalid ⊢
  refine ⟨hs.top, hs.size, ⟨h :: l, hlist.congr rfl rfl (fun x => ?_) fun x _ => ?_⟩, hs.depth,
    hs.frame, hs.order, fun x hx => ?_, fun x hne hlt hfree => ?_, fun x y hx hy => ?_,
    fun x hx => ?_, fun x hx => ?_, fun i hi hno => ?_, fun e he => ?_⟩
  · by_cases hx : x = h
    · subst hx
      rw [ObjectsStore.set_self, hfreed]
      rfl
    · rw [ObjectsStore.set_of_ne _ _ hx]
  · by_cases hx : x = h
    · subst hx
      rw [ObjectsStore.set_self, hfreed]
      rfl
    · rw [ObjectsStore.set_of_ne _ _ hx]
  · have hxh : x ≠ h := fun heq => hG (heq ▸ hx)
    obtain ⟨hvx, honex⟩ := hs.freeing x ((hF x).mpr (.inl hx))
    refine ⟨(hvalid x).mpr ⟨hvx, hxh⟩, ?_⟩
    rw [hother x hxh]
    exact honex
  · by_cases hx : x = h
    · subst hx
      refine ⟨0, ?_, ?_⟩
      · rw [hself]
        show (m.bucket x).refcount - 1 = _
        rw [hone]
        rfl
      · rw [Nat.zero_add]
        exact Nat.le_trans count_le_length hs.depth
    · rw [hother x hx] at hfree ⊢
      exact hs.free x hne hlt hfree
  · exact hs.occupant x y ((hvalid x).mp hx).1 ((hvalid y).mp hy).1
  · exact hs.born x ((hvalid x).mp hx).1
  · obtain ⟨hvx, hxh⟩ := (hvalid x).mp hx
    have hne : m.occupant x ≠ m.occupant h := fun heq => hxh (hs.occupant x h hvx hv heq)
    have hold := (hs.present x hvx).cons (e := .released (m.occupant h)) hne
    rw [hother x hxh]
    exact ⟨hold.dtor, hold.new, fun hf => hold.freeing ((hF x).mpr (.inl hf)),
      fun hf => hold.kept fun hf' => hf (((hF x).mp hf').resolve_right hxh), hold.released⟩
  · show Gone (.released (m.occupant h) :: m.log) i
    by_cases hi' : i = m.occupant h
    · subst hi'
      refine ⟨?_, ?_, ?_⟩
      · simpa [count_cons] using hp.dtor
      · simpa [count_cons] using hp.freeing ((hF h).mpr (.inr rfl))
      · rw [count_cons_self, hp.released]
    · refine (hs.gone i hi fun x hx heq => ?_).cons hi'
      exact hno x ((hvalid x).mpr ⟨hx, fun hxh => hi' (by rw [← heq, hxh])⟩) heq
  · have hborn := hs.born h hv
    have he : m.born ≤ e.object := he
    have hne : e.object ≠ (ObjectEvent.released (m.occupant h)).object := fun heq => by
      have heq : e.object = m.occupant h := heq
      omega
    show count e (.released (m.occupant h) :: m.log) = 0
    rw [count_event_cons hne e rfl]
    exact hs.unborn e he

def Good (m : Machine) : Prop := m.Sound m.Freeing

theorem Good.dropStorage (hm : m.Good) (hv : m.Valid h) (hno : ¬ m.Freeing h)
    (hdepth : m.stack.length < maxDepth) (failure : Bool) : (m.dropStorage h failure).Good := by
  rw [Machine.dropStorage]
  split
  · rename_i hone
    have hp := hm.present h hv
    -- the storage of this object is being freed now as well
    have hs : Sound { m with log := .freeStorage (m.occupant h) :: m.log }
        (fun x => m.Freeing x ∨ x = h) := by
      refine hm.event hv rfl (fun x hx => ⟨fun hf => hf.resolve_right hx, .inl⟩) (fun _ => hone)
        ⟨?_, fun hnew => ?_, fun _ => ?_, fun hf => absurd (.inr rfl) hf, ?_⟩
      · simpa [count_cons] using hp.dtor
      · simpa [count_cons] using hp.new hnew
      · rw [count_cons_self, hp.kept hno]
      · simpa [count_cons] using hp.released
    split
    · refine Sound.congr (hs.push (f := .freeing h failure true) hv hno hdepth) fun x => ?_
      constructor
      · rintro ⟨failure', inPlace, hmem⟩
        rcases mem_cons.mp hmem with heq | hmem
        · exact .inr (Frame.freeing.inj heq).1
        · exact .inl ⟨failure', inPlace, hmem⟩
      · rintro (⟨failure', inPlace, hmem⟩ | rfl)
        · exact ⟨failure', inPlace, mem_cons_of_mem _ hmem⟩
        · exact ⟨failure, true, mem_cons_self⟩
    · exact hs.release hv (fun _ => Iff.rfl) hno failure
  · exact hm.decref hv hno ‹_› failure

theorem Good.addRef (hm : m.Good) (hv : m.Valid h) (hno : ¬ m.Freeing h) :
    Good { m with store := m.store.addRef h } :=
  Sound.touch hm hv hv.2.2 (fun hf => absurd hf hno) id

theorem freeing_push (hf : f.freed = none) (x : BitVec 32) :
    ({ m with stack := f :: m.stack } : Machine).Freeing x ↔ m.Freeing x := by
  constructor
  · rintro ⟨failure, inPlace, hmem⟩
    rcases mem_cons.mp hmem with rfl | hmem
    · exact nomatch hf
    · exact ⟨failure, inPlace, hmem⟩
  · rintro ⟨failure, inPlace, hmem⟩
    exact ⟨failure, inPlace, mem_cons_of_mem _ hmem⟩

theorem Good.delRefByHandleEx (hm : m.Good) (hv : m.Valid h) (hno : ¬ m.Freeing h)
    (hdepth : m.stack.length < maxDepth) (handlers : Option FnPtr) :
    (m.delRefByHandleEx h handlers).Good := by
  rw [Machine.delRefByHandleEx]
  dsimp only
  rw [if_pos hv.2.2]
  split
  · split
    · rename_i hone hnew
      split
      · -- the destructor runs
        have hp := hm.present h hv
        have htouch := Sound.touch (b := { m.bucket h with
            destructorCalled := true
            handlers := (m.bucket h).handlers.or handlers }) hm hv hv.2.2
          (fun hf => absurd hf hno) nofun
        have hv' : ({ m with store := m.store.set h { m.bucket h with
            destructorCalled := true
            handlers := (m.bucket h).handlers.or handlers } } : Machine).Valid h :=
          hv.touch hv.2.2
        refine Sound.congr (Sound.push (f := .destructing h) (htouch.event (e := .dtor (m.occupant h))
          hv' rfl (fun _ _ => Iff.rfl) (fun hf => absurd hf hno) ⟨?_, ?_, ?_, ?_, ?_⟩) hv' hno hdepth)
          (freeing_push rfl)
        · rw [count_cons_self]
          exact Nat.succ_le_succ (Nat.le_of_eq (hp.new hnew))
        · rw [show (({ m with store := m.store.set h _ } : Machine).bucket h) = _ from
            ObjectsStore.set_self _ _ _]
          exact nofun
        · exact fun hf => absurd hf hno
        · simpa [count_cons] using hp.kept
        · simpa [count_cons] using hp.released
      · have htouch := Sound.touch (b := { m.bucket h with destructorCalled := true }) hm hv hv.2.2
          (fun hf => absurd hf hno) nofun
        exact Good.dropStorage htouch (hv.touch hv.2.2) hno hdepth false
    · exact hm.dropStorage hv hno hdepth false
  · exact hm.decref hv hno ‹_› false

theorem Sound.relabel (hs : m.Sound F) {store : ObjectsStore} (htop : store.top = m.store.top)
    (hsize : store.size = m.store.size) (hhead : store.freeListHead = m.store.freeListHead)
    (hbucket : ∀ x, ∃ destructorCalled handlers,
      store.objectBuckets x = { m.bucket x with destructorCalled, handlers } ∧
      (destructorCalled = false → (m.bucket x).destructorCalled = false)) :
    Sound { m with store } F := by
  have hvalid : ∀ x, (store.objectBuckets x).valid = (m.bucket x).valid := fun x => by
    obtain ⟨_, _, heq, -⟩ := hbucket x
    rw [heq]
  have hcount : ∀ x, (store.objectBuckets x).refcount = (m.bucket x).refcount := fun x => by
    obtain ⟨_, _, heq, -⟩ := hbucket x
    rw [heq]
  have hnext : ∀ x, (store.objectBuckets x).next = (m.bucket x).next := fun x => by
    obtain ⟨_, _, heq, -⟩ := hbucket x
    rw [heq]
    rfl
  have hcalled : ∀ x, (store.objectBuckets x).destructorCalled = false →
      (m.bucket x).destructorCalled = false := fun x hnew => by
    obtain ⟨_, _, heq, hcalled⟩ := hbucket x
    rw [heq] at hnew
    exact hcalled hnew
  have hiff : ∀ x, ({ m with store } : Machine).Valid x ↔ m.Valid x := by
    intro x
    show (x ≠ 0 ∧ x < store.top ∧ (store.objectBuckets x).valid = true) ↔ _
    rw [htop, hvalid]
    rfl
  obtain ⟨l, hl⟩ := hs.list
  refine ⟨?_, ?_, ⟨l, hl.congr hhead htop hvalid fun x _ => hnext x⟩, hs.depth, ?_, hs.order,
    fun x hx => ?_, fun x hne hlt hfree => ?_, fun x y hx hy => ?_, fun x hx => ?_, fun x hx => ?_,
    fun i hi hno => ?_, hs.unborn⟩
  · show store.top ≠ 0
    rw [htop]
    exact hs.top
  · show store.top ≤ store.size
    rw [htop, hsize]
    exact hs.size
  · show ∀ f ∈ m.stack, f.handle ≠ 0 ∧ f.handle < store.top
    rw [htop]
    exact hs.frame
  · obtain ⟨hv, hone⟩ := hs.freeing x hx
    exact ⟨(hiff x).mpr hv, (hcount x).trans hone⟩
  · have hlt : x < store.top := hlt
    rw [htop] at hlt
    obtain ⟨j, hj, hle⟩ := hs.free x hne hlt ((hvalid x).symm.trans hfree)
    exact ⟨j, (hcount x).trans hj, hle⟩
  · exact hs.occupant x y ((hiff x).mp hx) ((hiff y).mp hy)
  · exact hs.born x ((hiff x).mp hx)
  · have hp := hs.present x ((hiff x).mp hx)
    exact ⟨hp.dtor, fun hnew => hp.new (hcalled x hnew), hp.freeing, hp.kept, hp.released⟩
  · exact hs.gone i hi fun x hx => hno x ((hiff x).mpr hx)

theorem Good.markDestructed (hm : m.Good) : Good { m with store := m.store.markDestructed } := by
  refine Sound.relabel hm rfl rfl rfl fun x => ?_
  show ∃ destructorCalled handlers,
    (if 1 ≤ x ∧ x < m.store.top ∧ (m.bucket x).valid = true then
      { m.bucket x with destructorCalled := true } else m.bucket x) = _ ∧ _
  split
  · exact ⟨true, _, rfl, nofun⟩
  · exact ⟨_, _, rfl, id⟩

theorem Sound.handlers (hs : m.Sound F) (h : BitVec 32) (handlers : Option FnPtr) :
    Sound { m with store := m.store.set h { m.bucket h with handlers } } F := by
  refine hs.relabel rfl rfl rfl fun x => ?_
  by_cases hx : x = h
  · subst hx
    exact ⟨_, handlers, ObjectsStore.set_self _ _ _, id⟩
  · exact ⟨_, _, ObjectsStore.set_of_ne _ _ hx, id⟩

theorem strand_freed (f : Frame) : f.strand.freed = f.freed := by
  cases f <;> rfl

theorem strand_handle (f : Frame) : f.strand.handle = f.handle := by
  cases f <;> rfl

theorem count_map_strand (stack : List Frame) (h : BitVec 32) :
    (stack.map Frame.strand).count (.destructing h) = stack.count (.destructing h) := by
  induction stack with
  | nil => rfl
  | cons f stack ih =>
    rw [map_cons, count_cons, count_cons, ih]
    cases f <;> rfl

theorem Sound.strand (hs : m.Sound F) : Sound { m with stack := m.stack.map Frame.strand } F := by
  refine ⟨hs.top, hs.size, hs.list, by rw [length_map]; exact hs.depth, fun f hf => ?_, ?_,
    hs.freeing, fun x hne hlt hfree => ?_, hs.occupant, hs.born, hs.present, hs.gone, hs.unborn⟩
  · obtain ⟨g, hg, rfl⟩ := mem_map.mp hf
    rw [strand_handle]
    exact hs.frame g hg
  · refine pairwise_map.mpr (hs.order.imp fun hfg x hx => ?_)
    rw [strand_freed] at hx
    rw [strand_handle]
    exact hfg x hx
  · obtain ⟨j, hj, hle⟩ := hs.free x hne hlt hfree
    refine ⟨j, hj, ?_⟩
    rw [waiting, count_map_strand]
    exact hle

theorem freeing_strand (x : BitVec 32) :
    ({ m with stack := m.stack.map Frame.strand } : Machine).Freeing x ↔ m.Freeing x := by
  constructor
  · rintro ⟨failure, inPlace, hmem⟩
    obtain ⟨f, hf, heq⟩ := mem_map.mp hmem
    exact mem_of_freed hf (by rw [← strand_freed, heq]; rfl)
  · rintro ⟨failure, inPlace, hmem⟩
    exact ⟨failure, false, mem_map.mpr ⟨_, hmem, rfl⟩⟩

theorem Sound.put (hs : m.Sound F) {b : ObjectStoreBucket} (hb : b.valid = true)
    (hlt : m.store.place.handle < m.store.place.store.size) :
    Sound
      { m with
        store := m.store.place.store.set m.store.place.handle b
        born := m.born + 1
        occupant := Function.update m.occupant m.store.place.handle m.born } F := by
  obtain ⟨l, hl⟩ := hs.list
  obtain ⟨hne, hold, hrange, hsize, htop, hlist⟩ := hl.place hs.size hs.top hb hlt
  generalize hm' : ({ m with
    store := m.store.place.store.set m.store.place.handle b
    born := m.born + 1
    occupant := Function.update m.occupant m.store.place.handle m.born } : Machine) = m'
  generalize hnewHandle : m.store.place.handle = new at *
  have hbuckets : m.store.place.store.objectBuckets = m.store.objectBuckets := by
    rw [ObjectsStore.place]
    split
    · rfl
    · split <;> rfl
  have hself : m'.bucket new = b := by
    rw [← hm']
    exact ObjectsStore.set_self _ _ _
  have hother : ∀ x, x ≠ new → m'.bucket x = m.bucket x := by
    intro x hx
    rw [← hm']
    show (m.store.place.store.set new b).objectBuckets x = _
    rw [ObjectsStore.set_of_ne _ _ hx, hbuckets]
    rfl
  have htop' : ∀ x, x < m'.store.top ↔ x < m.store.top ∨ x = new := by
    rw [← hm']
    exact htop
  have hvalid : ∀ x, m'.Valid x ↔ m.Valid x ∨ x = new := by
    intro x
    rw [Valid, Valid, htop']
    by_cases hx : x = new
    · subst hx
      rw [hself]
      exact ⟨fun _ => .inr rfl, fun _ => ⟨hne, .inr rfl, hb⟩⟩
    · rw [hother x hx]
      exact ⟨fun hv => .inl ⟨hv.1, hv.2.1.resolve_right hx, hv.2.2⟩, fun hv => by
        have hv := hv.resolve_right hx
        exact ⟨hv.1, .inl hv.2.1, hv.2.2⟩⟩
  have hnotValid : ¬ m.Valid new := fun hv => hold hv.2
  have hoccupant : ∀ x, m.Valid x → m'.occupant x = m.occupant x := by
    intro x hx
    rw [← hm']
    exact Function.update_of_ne (fun heq : x = new => hnotValid (heq ▸ hx)) _ _
  have hoccupantNew : m'.occupant new = m.born := by
    rw [← hm']
    exact Function.update_self _ _ _
  have hborn : m'.born = m.born + 1 := by rw [← hm']
  have hlog : m'.log = m.log := by rw [← hm']
  have hstack : m'.stack = m.stack := by rw [← hm']
  refine ⟨?_, ?_, ?_, ?_, fun f hf => ?_, ?_, fun x hx => ?_, fun x hxne hxlt hfree => ?_,
    fun x y hx hy hxy => ?_, fun x hx => ?_, fun x hx => ?_, fun i hi hno => ?_, fun e he => ?_⟩
  · intro hzero
    have hlt : new < m'.store.top := (htop' new).mpr (.inr rfl)
    rw [hzero] at hlt
    exact BitVec.not_lt_zero hlt
  · rw [← hm']
    exact hsize
  · rw [← hm']
    exact hlist
  · rw [hstack]
    exact hs.depth
  · rw [hstack] at hf
    exact ⟨(hs.frame f hf).1, (htop' _).mpr (.inl (hs.frame f hf).2)⟩
  · rw [hstack]
    exact hs.order
  · obtain ⟨hv, hone⟩ := hs.freeing x hx
    rw [hother x fun heq => hnotValid (heq ▸ hv)]
    exact ⟨(hvalid x).mpr (.inl hv), hone⟩
  · have hx : x ≠ new := by
      rintro rfl
      rw [hself, hb] at hfree
      exact nomatch hfree
    rw [hother x hx] at hfree ⊢
    rw [waiting, hstack]
    exact hs.free x hxne (((htop' x).mp hxlt).resolve_right hx) hfree
  · rcases (hvalid x).mp hx with hx | rfl
    · rcases (hvalid y).mp hy with hy | rfl
      · rw [hoccupant x hx, hoccupant y hy] at hxy
        exact hs.occupant x y hx hy hxy
      · rw [hoccupant x hx, hoccupantNew] at hxy
        exact absurd hxy (Nat.ne_of_lt (hs.born x hx))
    · rcases (hvalid y).mp hy with hy | rfl
      · rw [hoccupantNew, hoccupant y hy] at hxy
        exact absurd hxy.symm (Nat.ne_of_lt (hs.born y hy))
      · rfl
  · rw [hborn]
    rcases (hvalid x).mp hx with hx | rfl
    · rw [hoccupant x hx]
      exact Nat.lt_succ_of_lt (hs.born x hx)
    · rw [hoccupantNew]
      exact Nat.lt_succ_self _
  · rw [hlog]
    rcases (hvalid x).mp hx with hx | rfl
    · rw [hoccupant x hx, hother x fun heq => hnotValid (heq ▸ hx)]
      exact hs.present x hx
    · have hzero := fun e (he : e.object = m.born) => hs.unborn e (Nat.le_of_eq he.symm)
      rw [hoccupantNew]
      exact ⟨by rw [hzero _ rfl]; exact Nat.zero_le 1, fun _ => hzero _ rfl,
        fun hf => absurd (hs.freeing x hf).1 hnotValid, fun _ => hzero _ rfl, hzero _ rfl⟩
  · rw [hborn] at hi
    rw [hlog]
    have hi : i < m.born := Nat.lt_of_le_of_ne (Nat.le_of_lt_succ hi) fun heq =>
      hno new ((hvalid new).mpr (.inr rfl)) (by rw [hoccupantNew, heq])
    exact hs.gone i hi fun x hx heq => hno x ((hvalid x).mpr (.inl hx)) (by rw [hoccupant x hx, heq])
  · rw [hborn] at he
    rw [hlog]
    exact hs.unborn e (Nat.le_of_succ_le he)

theorem Good.put (hm : m.Good) {object : BitVec 64} {dtor freeStorage clone : Option FnPtr}
    {moved : Bool} {m' : Machine} (h : m.put object dtor freeStorage clone moved = some m') :
    m'.Good ∧ m'.stack.length = m.stack.length := by
  obtain ⟨p, hp, rfl⟩ := Option.map_eq_some_iff.mp h
  rw [ObjectsStore.put] at hp
  split at hp
  · rename_i hlt
    obtain rfl := Option.some.inj hp
    have hput := Sound.put (b := {
      destructorCalled := false
      valid := true
      object
      dtor := some (dtor.getD zendObjectsDestroyObject)
      freeStorage
      clone
      handlers := none
      refcount := 1 }) hm rfl hlt
    dsimp only
    split
    · exact ⟨hput.strand.congr freeing_strand, length_map _⟩
    · exact ⟨hput, rfl⟩
  · exact nomatch hp

theorem freeing_of_stack (hstack : m.stack = f :: stack) (x : BitVec 32)
    : m.Freeing x ↔ ({ m with stack } : Machine).Freeing x ∨ f.freed = some x := by
  constructor
  · rintro ⟨failure, inPlace, hmem⟩
    rw [hstack] at hmem
    rcases mem_cons.mp hmem with rfl | hmem
    · exact .inr rfl
    · exact .inl ⟨failure, inPlace, hmem⟩
  · rintro (⟨failure, inPlace, hmem⟩ | hf)
    · exact ⟨failure, inPlace, by rw [hstack]; exact mem_cons_of_mem _ hmem⟩
    · exact mem_of_freed (by rw [hstack]; exact mem_cons_self) hf

theorem Sound.not_freeing_below (hs : m.Sound F) (hstack : m.stack = f :: stack)
    : ¬ ({ m with stack } : Machine).Freeing f.handle := by
  rintro ⟨failure, inPlace, hmem⟩
  have horder := hs.order
  rw [hstack] at horder
  exact (pairwise_cons.mp horder).1 _ hmem f.handle rfl rfl

theorem Good.returnDtor (hm : m.Good) (hstack : m.stack = .destructing h :: stack) (failed : Bool) :
    (({ m with stack, bailout := false } : Machine).dropStorage h failed).Good := by
  have hdepth : stack.length < maxDepth := by
    have hdepth := hm.depth
    rw [hstack] at hdepth
    exact hdepth
  have hframe := hm.frame (.destructing h) (by rw [hstack]; exact mem_cons_self)
  have hgood : Good { m with stack, bailout := false } :=
    Sound.congr ((Sound.pop hm hstack).bailout false) fun x =>
      ⟨fun hx => (freeing_of_stack hstack x).mpr (.inl hx),
        fun hx => ((freeing_of_stack hstack x).mp hx).resolve_right nofun⟩
  cases hvalid : (m.bucket h).valid with
  | true =>
    exact hgood.dropStorage ⟨hframe.1, hframe.2, hvalid⟩ (hm.not_freeing_below hstack) hdepth failed
  | false =>
    obtain ⟨j, hj, hle⟩ := hm.free h hframe.1 hframe.2 hvalid
    have hwait : m.waiting h = ({ m with stack, bailout := false } : Machine).waiting h + 1 := by
      rw [waiting, hstack, count_cons_self]
      rfl
    have hcount : ¬ (({ m with stack, bailout := false } : Machine).bucket h).refcount = 1 := by
      rw [show (({ m with stack, bailout := false } : Machine).bucket h).refcount = _ from hj]
      exact neg_ofNat_ne_one (by omega)
    rw [Machine.dropStorage, if_neg hcount]
    have hlt : j + ({ m with stack, bailout := false } : Machine).waiting h < maxDepth := by omega
    exact Sound.decref_free hgood hframe.1 hframe.2 hvalid hj hlt failed

theorem Good.returnFreeStorage (hm : m.Good) {failure inPlace : Bool}
    (hstack : m.stack = .freeing h failure inPlace :: stack) (failed : Bool) :
    (({ m with stack, bailout := false } : Machine).release h failed).Good := by
  have hv := (hm.freeing h ((freeing_of_stack hstack h).mpr (.inr rfl))).1
  refine Sound.release ((Sound.pop hm hstack).bailout false) hv (fun x => ?_)
    (hm.not_freeing_below hstack) failed
  rw [freeing_of_stack hstack]
  exact or_congr Iff.rfl ⟨fun hx => (Option.some.inj hx).symm, fun hx => by rw [hx]; rfl⟩

theorem Good.returnClone (hm : m.Good) {handlers : Option FnPtr}
    (hstack : m.stack = .cloning h handlers :: stack) :
    Good { m with stack } :=
  Sound.congr (Sound.pop hm hstack) fun x =>
    ⟨fun hx => (freeing_of_stack hstack x).mpr (.inl hx),
      fun hx => ((freeing_of_stack hstack x).mp hx).resolve_right nofun⟩

end Machine

/-- `size` cannot be doubled any more. -/
def ObjectsStore.Full (s : ObjectsStore) : Prop :=
  s.freeListHead = -1 ∧ s.top = s.size ∧ 2 ^ 31 ≤ s.size.toNat

theorem ObjectsStore.FreeList.place_lt {s : ObjectsStore} {l : List (BitVec 32)} (h : s.FreeList l)
    (htop : s.top ≤ s.size) (hpos : s.top ≠ 0) (hfull : ¬ s.Full) :
    s.place.handle < s.place.store.size := by
  rw [ObjectsStore.place]
  split
  · rename_i hhead
    have hwalk := h.walk
    rw [link, if_neg hhead] at hwalk
    cases l with
    | nil => exact nomatch hwalk
    | cons y l =>
      obtain rfl := Option.some.inj hwalk.1
      have hlt := BitVec.lt_def.mp ((h.mem_iff _).mp mem_cons_self).2.1
      exact BitVec.lt_def.mpr (Nat.lt_of_lt_of_le hlt (BitVec.le_def.mp htop))
  · rename_i hhead
    split
    · rename_i heq
      have hlt : s.size.toNat < 2 ^ 31 :=
        Nat.lt_of_not_le fun hle => hfull ⟨not_not.mp hhead, heq, hle⟩
      have hzero : s.size.toNat ≠ 0 := fun hz => hpos (by
        rw [heq]
        exact BitVec.eq_of_toNat_eq hz)
      show s.top < s.size <<< 1
      rw [heq, BitVec.lt_def, BitVec.toNat_shiftLeft, Nat.shiftLeft_eq]
      omega
    · rename_i hne
      exact BitVec.lt_def.mpr (Nat.lt_of_le_of_ne (BitVec.le_def.mp htop)
        fun heq => hne (BitVec.eq_of_toNat_eq heq))

namespace Machine

variable {m : Machine}

variable {s : Machine} {ops : List StoreOp}

/-- The condition: the array can grow when it has to, the stack has room, and `erealloc` has not
moved the array during the `free_storage` that returns. -/
def Meets (m : Machine) : StoreOp → Prop
  | .put .. => ¬ m.store.Full
  | .delRefByHandleEx .. | .cloneObj .. => m.stack.length < maxDepth
  | .ret failed _ _ =>
    match m.stack with
    | .freeing _ _ inPlace :: _ => inPlace = true
    | .cloning .. :: _ => failed = false → ¬ m.store.Full
    | _ => True
  | _ => True

theorem put_isSome (hm : m.Good) (hfull : ¬ m.store.Full) (object : BitVec 64)
    (dtor freeStorage clone : Option FnPtr) (moved : Bool) :
    ∃ m', m.put object dtor freeStorage clone moved = some m' := by
  obtain ⟨l, hl⟩ := hm.list
  have hlt := hl.place_lt hm.size hm.top hfull
  rw [put, ObjectsStore.put, if_pos hlt]
  exact ⟨_, rfl⟩

theorem finishClone_good (hm : m.Good) (hfull : ¬ m.store.Full) (h : BitVec 32)
    (handlers : Option FnPtr) (newObject : BitVec 64) (moved : Bool) :
    ∃ m', m.finishClone h handlers newObject moved = some m' ∧ m'.Good := by
  obtain ⟨m', hput⟩ := put_isSome hm hfull newObject (m.bucket h).dtor (m.bucket h).freeStorage
    (m.bucket h).clone moved
  have hgood := (hm.put hput).1
  rw [finishClone]
  dsimp only
  rw [hput]
  exact ⟨_, rfl, Sound.handlers hgood h handlers⟩

theorem Good.step (hm : m.Good) {op : StoreOp} (hok : m.OpOk op) (hmeets : m.Meets op) :
    ∃ m', m.step op = some m' ∧ m'.Good := by
  cases op with
  | put object dtor freeStorage clone moved =>
    obtain ⟨m', hput⟩ := put_isSome hm hmeets object dtor freeStorage clone moved
    exact ⟨m', hput, (hm.put hput).1⟩
  | addRef handle => exact ⟨_, rfl, hm.addRef hok.2.1 hok.2.2⟩
  | delRefByHandleEx handle handlers =>
    exact ⟨_, rfl, hm.delRefByHandleEx hok.2.1 hok.2.2 hmeets handlers⟩
  | cloneObj handle handlers =>
    refine ⟨_, rfl, ?_⟩
    rw [Machine.cloneObj]
    split
    · exact Sound.congr (Sound.push (f := .cloning handle handlers) hm hok.2.1 hok.2.2 hmeets)
        (freeing_push rfl)
    · exact Sound.bailout hm.markDestructed true
  | markDestructed => exact ⟨_, rfl, hm.markDestructed⟩
  | caught => exact ⟨_, rfl, Sound.bailout hm false⟩
  | ret failed newObject moved =>
    rw [Meets] at hmeets
    show ∃ m', m.ret failed newObject moved = some m' ∧ m'.Good
    rw [Machine.ret]
    cases hstack : m.stack with
    | nil => exact absurd hstack hok.1
    | cons f stack =>
      rw [hstack] at hmeets
      cases f with
      | destructing h => exact ⟨_, rfl, hm.returnDtor hstack failed⟩
      | freeing h failure inPlace =>
        obtain rfl : inPlace = true := hmeets
        exact ⟨_, rfl, hm.returnFreeStorage hstack (failure || failed)⟩
      | cloning h handlers =>
        have hgood := hm.returnClone hstack
        cases failed with
        | true => exact ⟨_, rfl, Sound.bailout hgood true⟩
        | false => exact finishClone_good hgood (hmeets rfl) h handlers newObject moved

theorem start_good (memory : BitVec 32 → ObjectStoreBucket) {initSize : BitVec 32}
    (hsize : initSize ≠ 0) : (start memory initSize).Good := by
  have hone : ∀ x : BitVec 32, x ≠ 0 → ¬ x < 1 := by
    intro x hx hlt
    have hlt := BitVec.lt_def.mp hlt
    have hzero : x.toNat = 0 := Nat.lt_one_iff.mp hlt
    exact hx (BitVec.eq_of_toNat_eq hzero)
  have hnone : ∀ x, ¬ (start memory initSize).Valid x := fun x hv => hone x hv.1 hv.2.1
  refine ⟨(by decide : (1 : BitVec 32) ≠ 0), ?_, ⟨[], ?_, nodup_nil, fun x => ?_⟩, Nat.zero_le _,
    nofun, .nil, fun x hx => ?_, fun x hne hlt => absurd hlt (hone x hne),
    fun x _ hx => absurd hx (hnone x), fun x hx => absurd hx (hnone x),
    fun x hx => absurd hx (hnone x), nofun, fun _ _ => rfl⟩
  · exact BitVec.not_lt.mp (hone initSize hsize)
  · rfl
  · exact ⟨fun hx => absurd hx not_mem_nil, fun hx => absurd hx.2.1 (hone x hx.1)⟩
  · obtain ⟨failure, inPlace, hmem⟩ := hx
    exact absurd hmem not_mem_nil

/-- What the store promises between two operations. -/
structure Lifecycle (m : Machine) : Prop where
  /-- The free list ends, without a repetition, and has every handle below `top` that is not
  valid. -/
  freeList : ∃ l, Walk (fun i => link (m.bucket i).next) (link m.store.freeListHead) l ∧ l.Nodup ∧
    ∀ h, h ∈ l ↔ h ≠ 0 ∧ h < m.store.top ∧ (m.bucket h).valid = false
  put : ∀ object dtor freeStorage clone p, m.store.put object dtor freeStorage clone = some p →
    ¬ m.Valid p.handle
  dtor : ∀ i, m.log.count (.dtor i) ≤ 1
  /-- An object is in the store, or its storage is being freed while its refcount is 1, or it has
  been freed and its refcount has gone from 1 to 0. -/
  freeStorage : ∀ i, i < m.born →
    (∃ h, m.Valid h ∧ m.occupant h = i ∧ ¬ m.Freeing h) ∧
        m.log.count (.freeStorage i) = 0 ∧ m.log.count (.released i) = 0 ∨
    (∃ h, m.Valid h ∧ m.occupant h = i ∧ m.Freeing h ∧ (m.bucket h).refcount = 1) ∧
        m.log.count (.freeStorage i) = 1 ∧ m.log.count (.released i) = 0 ∨
    (∀ h, m.Valid h → m.occupant h ≠ i) ∧
        m.log.count (.freeStorage i) = 1 ∧ m.log.count (.released i) = 1

theorem Good.lifecycle (hm : m.Good) : m.Lifecycle := by
  obtain ⟨l, hl⟩ := hm.list
  refine ⟨⟨l, hl.walk, hl.nodup, hl.mem_iff⟩, fun object dtor freeStorage clone p hp => ?_,
    fun i => ?_, fun i hi => ?_⟩
  · rw [ObjectsStore.put] at hp
    split at hp
    · rename_i hlt
      obtain rfl := Option.some.inj hp
      have hplace := hl.place hm.size hm.top (b := { m.bucket 0 with valid := true }) rfl hlt
      exact fun hv => hplace.2.1 hv.2
    · exact nomatch hp
  · by_cases hi : i < m.born
    · by_cases hex : ∃ h, m.Valid h ∧ m.occupant h = i
      · obtain ⟨h, hv, rfl⟩ := hex
        exact (hm.present h hv).dtor
      · exact (hm.gone i hi fun h hv heq => hex ⟨h, hv, heq⟩).dtor
    · rw [hm.unborn (.dtor i) (Nat.le_of_not_lt hi)]
      exact Nat.zero_le 1
  · by_cases hex : ∃ h, m.Valid h ∧ m.occupant h = i
    · obtain ⟨h, hv, rfl⟩ := hex
      have hp := hm.present h hv
      by_cases hf : m.Freeing h
      · exact .inr (.inl ⟨⟨h, hv, rfl, hf, (hm.freeing h hf).2⟩, hp.freeing hf, hp.released⟩)
      · exact .inl ⟨⟨h, hv, rfl, hf⟩, hp.kept hf, hp.released⟩
    · have hgone : ∀ h, m.Valid h → m.occupant h ≠ i := fun h hv heq => hex ⟨h, hv, heq⟩
      have hg := hm.gone i hi hgone
      exact .inr (.inr ⟨hgone, hg.freeStorage, hg.released⟩)

/-- In every run whose operations meet the condition, the store keeps its promises, and no
operation that meets it is undefined. -/
theorem lifecycle_of_run {memory : BitVec 32 → ObjectStoreBucket} {initSize : BitVec 32}
    (hsize : initSize ≠ 0) {ops : List StoreOp} {m : Machine}
    (hrun : Run step (fun m op => m.OpOk op ∧ m.Meets op) (start memory initSize) ops m) :
    m.Lifecycle ∧ ∀ op, m.OpOk op → m.Meets op → ∃ m', m.step op = some m' := by
  have hgood : m.Good := hrun.invariant (start_good memory hsize) fun s op t hs hok hst => by
    obtain ⟨t', ht', hgood⟩ := hs.step hok.1 hok.2
    obtain rfl := Option.some.inj (ht'.symm.trans hst)
    exact hgood
  refine ⟨hgood.lifecycle, fun op hok hmeets => ?_⟩
  obtain ⟨m', hm', -⟩ := hgood.step hok hmeets
  exact ⟨m', hm'⟩

instance (m : Machine) (h : BitVec 32) : Decidable (m.Valid h) :=
  inferInstanceAs (Decidable (_ ∧ _ ∧ _))

theorem freeing_iff (m : Machine) (h : BitVec 32) :
    m.Freeing h ↔ ∃ f ∈ m.stack, f.freed = some h :=
  ⟨fun ⟨_, _, hmem⟩ => ⟨_, hmem, rfl⟩, fun ⟨_, hf, hfreed⟩ => mem_of_freed hf hfreed⟩

instance (m : Machine) (h : BitVec 32) : Decidable (m.Freeing h) :=
  decidable_of_iff _ (freeing_iff m h).symm

instance (m : Machine) (op : StoreOp) : Decidable (m.OpOk op) :=
  match op with
  | .put .. => inferInstanceAs (Decidable (_ = _))
  | .addRef _ | .delRefByHandleEx .. | .cloneObj .. => inferInstanceAs (Decidable (_ ∧ _ ∧ ¬ _))
  | .markDestructed => inferInstanceAs (Decidable True)
  | .ret .. => inferInstanceAs (Decidable (_ ≠ _ ∧ _))
  | .caught => inferInstanceAs (Decidable (_ = _))

instance (m : Machine) (op : StoreOp) : Decidable (m.Meets op) :=
  match op with
  | .put .. => inferInstanceAs (Decidable (¬ (_ ∧ _ ∧ _)))
  | .delRefByHandleEx .. | .cloneObj .. => inferInstanceAs (Decidable (_ < _))
  | .ret failed _ _ =>
    match hstack : m.stack with
    | [] => isTrue (by simp only [Meets, hstack])
    | .destructing _ :: _ => isTrue (by simp only [Meets, hstack])
    | .freeing _ _ inPlace :: _ =>
      decidable_of_iff (inPlace = true) (by simp only [Meets, hstack])
    | .cloning .. :: _ =>
      decidable_of_iff (failed = false → ¬ (m.store.freeListHead = -1 ∧ m.store.top = m.store.size ∧
        2 ^ 31 ≤ m.store.size.toNat)) (by simp only [Meets, hstack, ObjectsStore.Full])
  | .addRef _ | .markDestructed | .caught => isTrue trivial

theorem run_put {m m' : Machine} (hrun : Run step OpOk s ops m) (hbailout : m.bailout = false)
    {object : BitVec 64} {dtor freeStorage clone : Option FnPtr} {moved : Bool}
    (hput : m.put object dtor freeStorage clone moved = some m') :
    Run step OpOk s (ops ++ [StoreOp.put object dtor freeStorage clone moved]) m' :=
  Run.snoc hrun hbailout hput

theorem run_ret {m m' : Machine} (hrun : Run step OpOk s ops m) (hstack : m.stack ≠ [])
    (hbailout : m.bailout = false) {newObject : BitVec 64} {moved : Bool}
    (hret : m.ret false newObject moved = some m') :
    Run step OpOk s (ops ++ [StoreOp.ret false newObject moved]) m' :=
  Run.snoc hrun ⟨hstack, by rw [hbailout]; exact nofun⟩ hret

theorem dropStorage_of_none {h : BitVec 32} (hone : (m.bucket h).refcount = 1)
    (hnone : (m.bucket h).freeStorage = none) (failure : Bool) :
    (m.dropStorage h failure).stack = m.stack ∧ (m.dropStorage h failure).bailout = failure := by
  have hsome : ¬ (m.bucket h).freeStorage.isSome = true := by rw [hnone]; exact nofun
  rw [dropStorage, if_pos hone]
  dsimp only
  rw [if_neg hsome]
  exact ⟨rfl, rfl⟩

theorem fill {m : Machine} (hrun : Run step OpOk s ops m) (hbailout : m.bailout = false)
    (hhead : m.store.freeListHead = -1) (n : Nat)
    (hroom : m.store.top.toNat + n ≤ m.store.size.toNat) :
    ∃ ops' m', Run step OpOk s ops' m' ∧ m'.bailout = false ∧ m'.store.freeListHead = -1 ∧
      m'.store.top.toNat = m.store.top.toNat + n ∧ m'.store.size = m.store.size ∧
      m'.stack = m.stack ∧ ∀ x, x < m.store.top → m'.bucket x = m.bucket x := by
  induction n with
  | zero => exact ⟨ops, m, hrun, hbailout, hhead, rfl, rfl, rfl, fun _ _ => rfl⟩
  | succ n ih =>
    obtain ⟨ops', m', hrun', hbailout', hhead', htop', hsize', hstack', hbucket'⟩ := ih (by omega)
    have hne : m'.store.top ≠ m'.store.size := fun heq => by
      have hnat := congrArg BitVec.toNat heq
      rw [hsize'] at hnat
      omega
    have hlt : m'.store.top < m'.store.size := by
      rw [BitVec.lt_def, hsize']
      omega
    have hplace : m'.store.place =
        { store := { m'.store with top := m'.store.top + 1 }, handle := m'.store.top, grown := false } := by
      rw [ObjectsStore.place, if_neg (not_not.mpr hhead'), if_neg hne]
    have hput : ∃ b, m'.put 0 none none none false = some
        { m' with
          store := ObjectsStore.set { m'.store with top := m'.store.top + 1 } m'.store.top b
          born := m'.born + 1
          occupant := Function.update m'.occupant m'.store.top m'.born } := by
      rw [put, ObjectsStore.put, hplace]
      dsimp only
      rw [if_pos hlt]
      exact ⟨_, rfl⟩
    obtain ⟨b, hput⟩ := hput
    refine ⟨_, _, run_put hrun' hbailout' hput, hbailout',
      hhead', ?_, hsize', hstack', fun x hx => ?_⟩
    · show (m'.store.top + 1).toNat = _
      have hbound := m.store.size.isLt
      rw [BitVec.toNat_add, show (1 : BitVec 32).toNat = 1 from rfl, htop', Nat.mod_eq_of_lt (by omega)]
      rfl
    · refine (ObjectsStore.set_of_ne _ _ fun heq => ?_).trans (hbucket' x hx)
      have hnat := congrArg BitVec.toNat heq
      have hx := BitVec.lt_def.mp hx
      omega

/-- What `emalloc` returns. -/
def zeroed (_ : BitVec 32) : ObjectStoreBucket :=
  { destructorCalled := false, valid := false, object := 0, dtor := none, freeStorage := none
    clone := none, handlers := none, refcount := 0 }

/-- A destructor that keeps its object and makes another one; later both go. -/
theorem lifecycle_of_resurrection : ∃ m,
    exec step (fun m op => m.OpOk op ∧ m.Meets op) (start zeroed 1024)
      [.put 1 none (some 1) none false, .delRefByHandleEx 1 none, .addRef 1,
        .put 2 none (some 1) none false, .ret false 0 false, .delRefByHandleEx 1 none,
        .delRefByHandleEx 2 none, .ret false 0 false, .ret false 0 false, .ret false 0 false] =
      some m ∧ m.Lifecycle ∧ ∀ op, m.OpOk op → m.Meets op → ∃ m', m.step op = some m' := by
  obtain ⟨m, hm⟩ := Option.isSome_iff_exists.mp (show (exec step (fun m op => m.OpOk op ∧ m.Meets op)
    (start zeroed 1024) [.put 1 none (some 1) none false, .delRefByHandleEx 1 none, .addRef 1,
      .put 2 none (some 1) none false, .ret false 0 false, .delRefByHandleEx 1 none,
      .delRefByHandleEx 2 none, .ret false 0 false, .ret false 0 false, .ret false 0 false]).isSome =
        true from by decide +kernel)
  exact ⟨m, hm, lifecycle_of_run (by decide : (1024 : BitVec 32) ≠ 0) (Run.append_exec (Run.nil _) hm)⟩

/-- An object with a second one as its property gives up its last reference.  The destructor of
the second object makes 1022 objects; for the last of them `erealloc` moves the array, and the
decrement behind `free_storage` goes to where the array was. -/
theorem array_moved : ∃ ops m, Run step OpOk (start zeroed 1024) ops m ∧
    m.OpOk (.ret false 0 false) ∧ m.step (.ret false 0 false) = none := by
  have hfirst : (exec step OpOk (start zeroed 1024)
      [.put 1 none (some 1) none false, .put 2 none none none false, .delRefByHandleEx 1 none,
        .ret false 0 false, .delRefByHandleEx 2 none]).map (fun m => (m.bailout,
          m.store.freeListHead, m.store.top, m.store.size, m.stack, (m.bucket 2).refcount,
          (m.bucket 2).freeStorage)) =
      some (false, -1, 3, 1024, [.destructing 2, .freeing 1 false true], 1, none) := rfl
  obtain ⟨m₁, hexec, hm₁⟩ := Option.map_eq_some_iff.mp hfirst
  simp only [Prod.mk.injEq] at hm₁
  obtain ⟨hbailout₁, hhead₁, htop₁, hsize₁, hstack₁, hcount₁, hstorage₁⟩ := hm₁
  obtain ⟨ops, m₂, hrun₂, hbailout₂, hhead₂, htop₂, hsize₂, hstack₂, hbucket₂⟩ :=
    fill (Run.append_exec (Run.nil _) hexec) hbailout₁ hhead₁ 1021 (by rw [htop₁, hsize₁]; decide)
  have htop : m₂.store.top = 1024 := BitVec.eq_of_toNat_eq (by rw [htop₂, htop₁]; rfl)
  have hsize : m₂.store.size = 1024 := hsize₂.trans hsize₁
  have hplace : m₂.store.place =
      { store := { m₂.store with size := 2048, top := 1025 }, handle := 1024, grown := true } := by
    rw [ObjectsStore.place, if_neg (not_not.mpr hhead₂), if_pos (htop.trans hsize.symm), htop, hsize]
    rfl
  have hput : ∃ b, m₂.put 0 none none none true = some
      { m₂ with
        store := ObjectsStore.set { m₂.store with size := 2048, top := 1025 } 1024 b
        stack := [.destructing 2, .freeing 1 false false]
        born := m₂.born + 1
        occupant := Function.update m₂.occupant 1024 m₂.born } := by
    rw [put, ObjectsStore.put, hplace]
    dsimp only
    rw [if_pos (by decide), hstack₂, hstack₁]
    exact ⟨_, rfl⟩
  obtain ⟨b, hput⟩ := hput
  have hrun₃ := run_put hrun₂ hbailout₂ hput
  generalize hm₃ : ({ m₂ with
    store := ObjectsStore.set { m₂.store with size := 2048, top := 1025 } 1024 b
    stack := [.destructing 2, .freeing 1 false false]
    born := m₂.born + 1
    occupant := Function.update m₂.occupant 1024 m₂.born } : Machine) = m₃ at hrun₃
  have hbucket₃ : m₃.bucket 2 = m₁.bucket 2 := by
    rw [← hm₃]
    refine (ObjectsStore.set_of_ne _ _ (by decide)).trans (hbucket₂ 2 ?_)
    rw [htop₁]
    decide
  have hstack₃ : m₃.stack = [.destructing 2, .freeing 1 false false] := by rw [← hm₃]
  have hret : ∃ m₄, m₃.ret false 0 false = some m₄ ∧ m₄.bailout = false ∧
      m₄.stack = [.freeing 1 false false] := by
    rw [ret, hstack₃]
    obtain ⟨hstack, hbailout⟩ := dropStorage_of_none
      (m := { m₃ with stack := [.freeing 1 false false], bailout := false }) (h := 2)
      ((congrArg ObjectStoreBucket.refcount hbucket₃).trans hcount₁)
      ((congrArg ObjectStoreBucket.freeStorage hbucket₃).trans hstorage₁) false
    exact ⟨_, rfl, hbailout, hstack⟩
  obtain ⟨m₄, hm₄, hbailout₄, hstack₄⟩ := hret
  have hbailout₃ : m₃.bailout = false := by rw [← hm₃]; exact hbailout₂
  have hrun₄ := run_ret hrun₃ (by rw [hstack₃]; exact List.cons_ne_nil _ _) hbailout₃ hm₄
  refine ⟨_, m₄, hrun₄, ⟨by rw [hstack₄]; exact List.cons_ne_nil _ _, by rw [hbailout₄]; exact nofun⟩, ?_⟩
  show m₄.ret false 0 false = none
  rw [ret, hstack₄]
  rfl

end Machine

end Php53.Zend
