import Mathlib.Data.List.Perm.Basic
import Mathlib.Data.List.Nodup
import Mathlib.Data.List.Range

/-!
# Strings — the values that ini entries point at

An entry points at a string that outlives the request, or at a duplicate that
`zend_alter_ini_entry_ex` has made.  The duplicates live in the request's heap, where every one of
them has the number of the `estrndup` call that made it; the addresses the heap gives out come from
an `Allocator`.
-/

namespace Php53.Zend

open List

abbrev Address := Nat

/-- `char *`; `none` is `NULL`. -/
abbrev StringPtr := Option Address

/-- What `emalloc` answers to its `n`th call while the strings at `live` are in use. -/
structure Allocator where
  next (n : Nat) (live : List Address) : Address
  fresh (n : Nat) (live : List Address) : next n live ∉ live

/-- A string that `estrndup` has made and that nobody has freed. -/
structure Duplicate where
  address : Address
  text : List UInt8
  serial : Nat
  deriving DecidableEq

structure Strings where
  /-- The strings that are not in the request's heap. -/
  persistent : List (Address × List UInt8)
  duplicates : List Duplicate
  /-- How often `estrndup` was called. -/
  duplicated : Nat
  /-- The numbers of the duplicates that `efree` was called with, in this order. -/
  freed : List Nat
  deriving DecidableEq

inductive IniError where
  /-- An `on_modify` handler has left `zend_alter_ini_entry_ex` by a `longjmp`. -/
  | bailout
  /-- `efree` of what is not a duplicate in use, or an entry that is not there. -/
  | badPointer
  deriving DecidableEq

namespace Strings

def live (m : Strings) : List Address := m.persistent.map (·.1) ++ m.duplicates.map (·.address)

def estrndup (alloc : Allocator) (text : List UInt8) (m : Strings) : Address × Strings :=
  let address := alloc.next m.duplicated m.live
  (address, { m with
    duplicates := m.duplicates ++ [{ address, text, serial := m.duplicated }]
    duplicated := m.duplicated + 1 })

def efree (p : StringPtr) (m : Strings) : Except IniError Strings :=
  match m.duplicates.find? (some ·.address = p) with
  | none => .error .badPointer
  | some d => .ok { m with duplicates := m.duplicates.erase d, freed := m.freed ++ [d.serial] }

/-- The string at `p`. -/
def text (m : Strings) (p : StringPtr) : Option (List UInt8) :=
  ((m.duplicates.map fun d => (d.address, d.text)) ++ m.persistent).findSome? fun s =>
    if some s.1 = p then some s.2 else none

end Strings

namespace Strings

variable {m m' : Strings} {a b : Address}

/-- A duplicate is in use at `a`. -/
def Live (m : Strings) (a : Address) : Prop := a ∈ m.duplicates.map (·.address)

/-- The duplicates in use lie apart, and every duplicate ever made is in use or was freed once. -/
structure WellFormed (m : Strings) : Prop where
  nodup : (m.duplicates.map (·.address)).Nodup
  serials : (m.freed ++ m.duplicates.map (·.serial)).Perm (List.range m.duplicated)

theorem estrndup_not_live (alloc : Allocator) (text : List UInt8) (m : Strings) :
    ¬ m.Live (m.estrndup alloc text).1 := by
  intro h
  exact alloc.fresh m.duplicated m.live (mem_append_right _ h)

theorem estrndup_not_persistent (alloc : Allocator) (text : List UInt8) (m : Strings) :
    (m.estrndup alloc text).1 ∉ m.persistent.map (·.1) := by
  intro h
  exact alloc.fresh m.duplicated m.live (mem_append_left _ h)

theorem live_estrndup (alloc : Allocator) (text : List UInt8) (m : Strings) :
    (m.estrndup alloc text).2.Live a ↔ a = (m.estrndup alloc text).1 ∨ m.Live a := by
  simp only [Live, estrndup, map_append, mem_append, map_cons, map_nil,
    mem_singleton]
  exact or_comm

theorem WellFormed.estrndup (h : m.WellFormed) (alloc : Allocator) (text : List UInt8) :
    (m.estrndup alloc text).2.WellFormed where
  nodup := by
    simp only [Strings.estrndup, map_append, map_cons, map_nil]
    rw [nodup_append]
    refine ⟨h.nodup, nodup_singleton _, fun a ha b hb => ?_⟩
    rw [mem_singleton.mp hb]
    rintro rfl
    exact estrndup_not_live alloc text m ha
  serials := by
    simp only [Strings.estrndup, map_append, map_cons, map_nil, range_succ]
    rw [← append_assoc]
    exact h.serials.append_right _

theorem efree_eq (h : m.Live a) : ∃ d ∈ m.duplicates, d.address = a ∧
    m.efree (some a) =
      .ok { m with duplicates := m.duplicates.erase d, freed := m.freed ++ [d.serial] } := by
  obtain ⟨d₀, hd₀, ha₀⟩ := mem_map.mp h
  cases hfind : m.duplicates.find? (some ·.address = some a) with
  | none =>
    have hne := List.find?_eq_none.mp hfind d₀ hd₀
    simp [ha₀] at hne
  | some d =>
    have hd := List.find?_some hfind
    refine ⟨d, List.mem_of_find?_eq_some hfind, by simpa using hd, ?_⟩
    unfold efree
    rw [hfind]

theorem WellFormed.efree (h : m.WellFormed) (ha : m.Live a) : ∃ m', m.efree (some a) = .ok m' ∧
    m'.WellFormed ∧ m'.persistent = m.persistent ∧ ∀ b, m'.Live b ↔ b ≠ a ∧ m.Live b := by
  obtain ⟨d, hd, rfl, hm'⟩ := efree_eq ha
  have hperm := perm_cons_erase hd
  have haddresses := hperm.map (·.address)
  have hnodup := (nodup_cons.mp (haddresses.nodup_iff.mp h.nodup))
  refine ⟨_, hm', ⟨hnodup.2, ?_⟩, rfl, fun b => ?_⟩
  · have hserials := (hperm.map (·.serial)).append_left m.freed
    simp only [append_assoc, singleton_append]
    exact hserials.symm.trans h.serials
  · have hb : m.Live b ↔ b = d.address ∨ b ∈ (m.duplicates.erase d).map (·.address) := by
      rw [Live, haddresses.mem_iff, map_cons, mem_cons]
    rw [hb]
    constructor
    · intro hmem
      refine ⟨?_, Or.inr hmem⟩
      rintro rfl
      exact hnodup.1 hmem
    · rintro ⟨hne, heq | hmem⟩
      · exact absurd heq hne
      · exact hmem

theorem WellFormed.all_freed (h : m.WellFormed) (hnone : ∀ a, ¬ m.Live a) :
    m.duplicates = [] ∧ m.freed.Perm (range m.duplicated) := by
  have hnil : m.duplicates = [] := by
    apply eq_nil_iff_forall_not_mem.mpr
    intro d hd
    exact hnone d.address (mem_map_of_mem hd)
  have hserials := h.serials
  rw [hnil, map_nil, List.append_nil] at hserials
  exact ⟨hnil, hserials⟩

end Strings

end Php53.Zend
