import Mathlib.Data.List.Basic

/-!
# OrderedMap — maps that keep the order of their first insertions

A map is the list of its entries.  A new value for a key takes the place of the old one; a new key
goes to the end.
-/

namespace Reasoning.OrderedMap

variable {κ β : Type*} [DecidableEq κ]

def find (k : κ) (m : List (κ × β)) : Option β := (m.find? fun e => e.1 = k).map (·.2)

def put (k : κ) (v : β) (m : List (κ × β)) : List (κ × β) :=
  if k ∈ m.map (·.1) then m.map fun e => if e.1 = k then (k, v) else e else m ++ [(k, v)]

def remove (k : κ) (m : List (κ × β)) : List (κ × β) := m.filter fun e => e.1 ≠ k

variable {k k' : κ} {v : β} {m : List (κ × β)}

theorem find_eq_none_iff : find k m = none ↔ k ∉ m.map (·.1) := by
  unfold find
  rw [Option.map_eq_none_iff, List.find?_eq_none]
  constructor
  · intro h hk
    obtain ⟨e, he, hek⟩ := List.mem_map.mp hk
    exact h e he (decide_eq_true hek)
  · intro h e he hek
    exact h (of_decide_eq_true hek ▸ List.mem_map_of_mem he)

theorem put_of_mem (h : k ∈ m.map (·.1)) :
    put k v m = m.map fun e => if e.1 = k then (k, v) else e := if_pos h

theorem put_of_not_mem (h : k ∉ m.map (·.1)) : put k v m = m ++ [(k, v)] := if_neg h

theorem find_append_of_ne (hne : k' ≠ k) : find k' (m ++ [(k, v)]) = find k' m := by
  have hlast : ([(k, v)].find? fun e => e.1 = k') = none := by
    apply List.find?_eq_none.mpr
    intro e he
    rw [List.mem_singleton.mp he]
    simpa using hne.symm
  unfold find
  rw [List.find?_append, hlast, Option.or_none]

theorem find_put_of_ne (hne : k' ≠ k) : find k' (put k v m) = find k' m := by
  unfold put
  split
  · clear * - hne
    induction m with
    | nil => rfl
    | cons e m ih =>
      unfold find at ih ⊢
      by_cases hk : e.1 = k
      · have hk' : e.1 ≠ k' := fun he => hne (he.symm.trans hk)
        rw [List.map_cons, if_pos hk, List.find?_cons_of_neg (by simpa using hne.symm),
          List.find?_cons_of_neg (by simpa using hk'), ih]
      · rw [List.map_cons, if_neg hk, List.find?_cons, List.find?_cons]
        split
        · rfl
        · exact ih
  · exact find_append_of_ne hne

theorem find_put_self : find k (put k v m) = some v := by
  by_cases hk : k ∈ m.map (·.1)
  · rw [put_of_mem hk]
    induction m with
    | nil => cases hk
    | cons e m ih =>
      unfold find at ih ⊢
      by_cases he : e.1 = k
      · rw [List.map_cons, if_pos he, List.find?_cons_of_pos (by simp)]
        rfl
      · have htail : k ∈ m.map (·.1) := (List.mem_cons.mp hk).resolve_left fun hek => he hek.symm
        rw [List.map_cons, if_neg he, List.find?_cons_of_neg (by simpa using he)]
        exact ih htail
  · have hnone : (m.find? fun e => e.1 = k) = none := Option.map_eq_none_iff.mp (find_eq_none_iff.mpr hk)
    rw [put_of_not_mem hk, find, List.find?_append, hnone, Option.none_or,
      List.find?_cons_of_pos (by simp)]
    rfl

theorem find_remove_of_ne (hne : k' ≠ k) : find k' (remove k m) = find k' m := by
  unfold find remove
  rw [List.find?_filter]
  congr 2
  funext e
  by_cases he : e.1 = k'
  · have hk : e.1 ≠ k := fun hk => hne (he.symm.trans hk)
    simp [he, hne]
  · simp [he]

end Reasoning.OrderedMap
