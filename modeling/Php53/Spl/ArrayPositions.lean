import Php53.Spl.ArrayObject

/-!
# ArrayPositions — what the functions on a position need and leave

A function that starts at a listed position, or checks the position first, ends at a listed one and
never follows a stale pointer.
-/

open Reasoning Php53.Zend

namespace Php53.Spl

variable {ht : HashTable ZvalPtr} {pos : Option BucketPtr} {l : List BucketPtr}

/-- The position is `NULL` or a bucket on the list of the table. -/
def Listed (ht : HashTable ZvalPtr) (pos : Option BucketPtr) : Prop := ∀ p ∈ pos, p ∈ ht.buckets

theorem listed_none (ht : HashTable ZvalPtr) : Listed ht none := fun _ hp => nomatch hp

theorem Listed.mem {p : BucketPtr} (h : Listed ht (some p)) :
    p ∈ ht.buckets := h p rfl

theorem follow_eq {p : BucketPtr} (h : p ∈ ht.buckets) :
    follow ht p = .ok () := if_pos h

@[simp] theorem ok_bind {α β : Type} (a : α) (f : α → Except Fault β) :
    (Except.ok a >>= f) = f a := rfl

@[simp] theorem pure_eq_ok {α : Type} (a : α) : (pure a : Except Fault α) = .ok a := rfl

theorem getCurrentKeyEx_eq (h : Listed ht pos) :
    zendHashGetCurrentKeyEx ht pos = .ok (pos.map ht.key) := by
  cases pos with
  | none => rfl
  | some p => simp [zendHashGetCurrentKeyEx, follow_eq h.mem]

theorem getCurrentDataEx_eq (h : Listed ht pos)
    : zendHashGetCurrentDataEx ht pos = .ok (pos.map ht.pData) := by
  cases pos with
  | none => rfl
  | some p => simp [zendHashGetCurrentDataEx, follow_eq h.mem]

theorem hasMoreElementsEx_eq (h : Listed ht pos) :
    zendHashHasMoreElementsEx ht pos = .ok (if pos.isSome then .success else .failure) := by
  unfold zendHashHasMoreElementsEx
  rw [getCurrentKeyEx_eq h]
  cases pos <;> rfl

theorem moveForwardEx_eq (h : Listed ht pos) :
    zendHashMoveForwardEx ht pos = .ok (pos.bind ht.pListNext) := by
  cases pos with
  | none => rfl
  | some p => simp [zendHashMoveForwardEx, follow_eq h.mem]

theorem Listed.next (hv : ht.Valid l) (h : Listed ht pos) : Listed ht (pos.bind ht.pListNext) := by
  intro q hq
  obtain ⟨p, rfl, hpq⟩ := Option.bind_eq_some_iff.mp hq
  have hp := h.mem
  rw [hv.buckets_eq] at hp ⊢
  exact (hv.list.next_mem hp hpq).1

theorem listed_head (hv : ht.Valid l) :
    Listed ht ht.pListHead := by
  intro p hp
  rw [hv.buckets_eq]
  exact List.mem_of_mem_head? (hv.list.head_eq ▸ hp)

theorem Listed.walk (hv : ht.Valid l) (h : Listed ht pos) :
    ∃ b, Walk ht.pListNext pos b ∧ b.length ≤ ht.live.length := by
  cases pos with
  | none => exact ⟨[], rfl, Nat.zero_le _⟩
  | some p =>
    have hp := h.mem
    rw [hv.buckets_eq] at hp
    obtain ⟨a, b, hab⟩ := List.append_of_mem hp
    have hlink := hv.list.linked
    rw [hab] at hlink
    have hsuffix := (Linked.append_iff.mp hlink).2
    rw [Linked] at hsuffix
    refine ⟨p :: b, ⟨rfl, ?_⟩, ?_⟩
    · rw [hsuffix.2.1, Option.or_none]
      exact hsuffix.2.2.walk
    · have hlen := hv.live.length_eq
      rw [hlen, hab, List.length_append]
      omega

namespace SplArrayObject

variable {intern' : SplArrayObject} {β : Type} {ht : HashTable ZvalPtr} {intern : SplArrayObject}
  {l : List BucketPtr} {s : Store} {t : Nat}

/-- `intern'` is `intern` at another position. -/
def Moved (intern intern' : SplArrayObject) : Prop :=
  ∃ pos posH, intern' = { intern with pos := pos, posH := posH }

theorem Moved.refl (intern : SplArrayObject) : intern.Moved intern := ⟨_, _, rfl⟩

theorem Moved.trans {a b c : SplArrayObject} (h : a.Moved b) (h' : b.Moved c) : a.Moved c := by
  obtain ⟨pos, posH, rfl⟩ := h
  obtain ⟨pos', posH', rfl⟩ := h'
  exact ⟨pos', posH', rfl⟩

theorem Moved.hashTable_eq (h : intern.Moved intern')
    (s : Store) : s.hashTable intern' = s.hashTable intern := by
  obtain ⟨pos, posH, rfl⟩ := h
  rfl

/-- `r` is a result, and its object is `intern` at a position that `ht` lists. -/
def Settles {β : Type} (intern : SplArrayObject) (ht : HashTable ZvalPtr)
    (r : Except Fault (SplArrayObject × β)) : Prop :=
  ∃ intern' answer, r = .ok (intern', answer) ∧ intern.Moved intern' ∧ Listed ht intern'.pos

theorem Settles.of_moved {r : Except Fault (SplArrayObject × β)} (hm : intern.Moved intern')
    (h : intern'.Settles ht r) : intern.Settles ht r := by
  obtain ⟨intern'', answer, hr, hm', hl⟩ := h
  exact ⟨intern'', answer, hr, hm.trans hm', hl⟩

theorem settles_ok (h : Listed ht intern.pos)
    (answer : β) : intern.Settles ht (.ok (intern, answer)) :=
  ⟨intern, answer, rfl, Moved.refl _, h⟩

theorem updatePos_spec (intern : SplArrayObject) (h : Listed ht intern.pos) :
    ∃ posH, intern.splArrayUpdatePos ht = .ok { intern with posH := posH } := by
  unfold splArrayUpdatePos
  obtain ⟨properties, array, pos, posH, arFlags⟩ := intern
  cases pos with
  | none => exact ⟨posH, rfl⟩
  | some p => exact ⟨ht.h p, by simp [follow_eq h.mem]⟩

theorem skipLoop_settles (hv : ht.Valid l) {b : List BucketPtr} {n : Nat}
    (hw : Walk ht.pListNext intern.pos b) (h : Listed ht intern.pos) (hn : b.length < n) :
    intern.Settles ht (skipLoop ht n intern) := by
  induction b generalizing n intern with
  | nil =>
    have hpos : intern.pos = none := hw
    obtain ⟨m, rfl⟩ : ∃ m, n = m + 1 := ⟨n - 1, by simp at hn; omega⟩
    unfold skipLoop
    rw [hpos]
    exact settles_ok h _
  | cons x b ih =>
    obtain ⟨hpos, hw⟩ := hw
    obtain ⟨m, rfl⟩ : ∃ m, n = m + 1 := ⟨n - 1, by omega⟩
    unfold skipLoop
    rw [getCurrentKeyEx_eq h, hpos, Option.map_some, ok_bind]
    cases hkey : ht.key x with
    | index k => exact settles_ok h _
    | str stringKey =>
      dsimp only
      by_cases hm : mangled stringKey = true
      · rw [if_pos hm, hasMoreElementsEx_eq (hpos ▸ h), ok_bind, moveForwardEx_eq (hpos ▸ h)]
        have hnext : Listed ht (ht.pListNext x) := by simpa [hpos] using h.next hv
        obtain ⟨posH, hup⟩ := updatePos_spec { intern with pos := ht.pListNext x } hnext
        simp only [Option.isSome_some, if_true, Option.bind_some, ok_bind, hup]
        let moved : SplArrayObject := { intern with pos := ht.pListNext x, posH := posH }
        have hrest : moved.Settles ht (skipLoop ht m moved) := ih hw hnext (by simpa using hn)
        exact hrest.of_moved ⟨_, _, rfl⟩
      · rw [if_neg hm]
        exact settles_ok h _

theorem skipProtected_settles (hv : ht.Valid l) (s : Store) (intern : SplArrayObject)
    (h : Listed ht intern.pos) :
    intern.Settles ht (intern.splArraySkipProtected s ht) := by
  unfold splArraySkipProtected
  split
  · obtain ⟨b, hw, hlen⟩ := h.walk hv
    exact skipLoop_settles hv hw h (by omega)
  · exact settles_ok h _

theorem rewindEx_spec (hv : ht.Valid l) (s : Store) (intern : SplArrayObject) :
    ∃ intern', intern.splArrayRewindEx s ht = .ok intern' ∧ intern.Moved intern' ∧
      Listed ht intern'.pos := by
  unfold splArrayRewindEx
  have hhead : Listed ht ht.pListHead := listed_head hv
  obtain ⟨posH, hup⟩ := updatePos_spec { intern with pos := ht.pListHead } hhead
  obtain ⟨intern', result, hskip, hm, hl⟩ := skipProtected_settles hv s
    { intern with pos := ht.pListHead, posH := posH } hhead
  refine ⟨intern', ?_, (Moved.trans ⟨_, _, rfl⟩ hm), hl⟩
  rw [hup, ok_bind, hskip]
  rfl

/-- `intern` iterates over `ht`, the table with the index `t`. -/
structure Iterates (s : Store) (intern : SplArrayObject) (t : Nat) (ht : HashTable ZvalPtr) :
    Prop where
  hashTable : s.hashTable intern = .ok (some t)
  table : s.tables[t]? = some ht

theorem Iterates.table_eq (h : Iterates s intern t ht) : s.table t = .ok ht := by
  unfold Store.table
  rw [h.table]

theorem Iterates.moved (h : Iterates s intern t ht) (hm : intern.Moved intern') :
    Iterates s intern' t ht :=
  ⟨(hm.hashTable_eq s).trans h.hashTable, h.table⟩

theorem rewind_spec (hi : Iterates s intern t ht) (hv : ht.Valid l) :
    ∃ intern', intern.splArrayRewind s = .ok intern' ∧ intern.Moved intern' ∧
      Listed ht intern'.pos := by
  unfold splArrayRewind
  rw [hi.hashTable, ok_bind]
  dsimp only
  rw [hi.table_eq, ok_bind]
  exact rewindEx_spec hv s intern

theorem listed_of_inChain (hv : ht.Valid l)
    (h : intern.inChain ht = some true) : Listed ht intern.pos := by
  unfold inChain at h
  obtain ⟨o, ho, hsome⟩ := Option.map_eq_some_iff.mp h
  obtain ⟨o', ho', hmem⟩ := hv.chainFind_mem (fun p => some p == intern.pos) intern.posH
  obtain rfl := Option.some.inj (ho.symm.trans ho')
  obtain ⟨q, rfl⟩ := Option.isSome_iff_exists.mp hsome
  obtain ⟨hq, hhit⟩ := hmem q rfl
  intro p hp
  have hqp : some q = some p := (beq_iff_eq.mp hhit).trans hp
  rw [hv.buckets_eq, ← Option.some.inj hqp]
  exact hq

theorem inChain_defined (hv : ht.Valid l)
    (intern : SplArrayObject) : ∃ found, intern.inChain ht = some found := by
  obtain ⟨o, ho, -⟩ := hv.chainFind_mem (fun p => some p == intern.pos) intern.posH
  exact ⟨o.isSome, congrArg (Option.map Option.isSome) ho⟩

theorem verifyPosEx_settles (hi : Iterates s intern t ht)
    (hv : ht.Valid l) : intern.Settles ht (intern.splHashVerifyPosEx s ht) := by
  unfold splHashVerifyPosEx
  obtain ⟨found, hfound⟩ := inChain_defined hv intern
  rw [hfound]
  cases found with
  | true => exact settles_ok (listed_of_inChain hv hfound) _
  | false =>
    obtain ⟨intern', hr, hm, hl⟩ := rewind_spec hi hv
    exact ⟨intern', .failure, by rw [hr]; rfl, hm, hl⟩

def Guarded (ht : HashTable ZvalPtr) (intern : SplArrayObject) : Prop :=
  anyFlag intern.arFlags splArrayIsRef = true ∨ Listed ht intern.pos

theorem verifyIfRef_settles (hi : Iterates s intern t ht) (hv : ht.Valid l)
    (hg : Guarded ht intern) :
    intern.Settles ht (intern.verifyIfRef s ht) := by
  unfold verifyIfRef
  split
  · exact verifyPosEx_settles hi hv
  · exact settles_ok (hg.resolve_left (by assumption)) _

theorem verifyIfPos_settles (hi : Iterates s intern t ht) (hv : ht.Valid l)
    (hg : Guarded ht intern) :
    intern.Settles ht (intern.verifyIfPos s ht) := by
  unfold verifyIfPos
  by_cases hpos : intern.pos.isSome = true
  · rw [if_pos hpos]
    exact verifyIfRef_settles hi hv hg
  · rw [if_neg hpos]
    have hnone : intern.pos = none := by simpa using hpos
    exact settles_ok (hnone ▸ listed_none ht) _

theorem nextNoVerify_settles (hv : ht.Valid l) (s : Store) (h : Listed ht intern.pos) :
    intern.Settles ht (intern.splArrayNextNoVerify s ht) := by
  unfold splArrayNextNoVerify
  have hnext := h.next hv
  obtain ⟨posH, hup⟩ := updatePos_spec { intern with pos := intern.pos.bind ht.pListNext } hnext
  rw [moveForwardEx_eq h, ok_bind, hup, ok_bind]
  split
  · have hskip := skipProtected_settles hv s
      { intern with pos := intern.pos.bind ht.pListNext, posH := posH } hnext
    exact hskip.of_moved ⟨_, _, rfl⟩
  · rw [hasMoreElementsEx_eq hnext]
    exact ⟨_, _, rfl, ⟨_, _, rfl⟩, hnext⟩

theorem withTable_eq (hi : Iterates s intern t ht) (answer : β)
    (body : HashTable ZvalPtr → Except Fault (SplArrayObject × β)) :
    intern.withTable s answer body = body ht := by
  unfold withTable
  rw [hi.hashTable, ok_bind]
  dsimp only
  rw [hi.table_eq, ok_bind]

variable {s : Store} {intern : SplArrayObject} {t : Nat} {ht : HashTable ZvalPtr}
  {l : List BucketPtr}

section

variable (hi : Iterates s intern t ht) (hv : ht.Valid l) (hg : Guarded ht intern)

include hi hv hg

theorem valid_settles :
    intern.Settles ht (intern.valid s) := by
  unfold valid
  rw [withTable_eq hi]
  obtain ⟨intern', result, hr, hm, hl⟩ := verifyIfPos_settles hi hv hg
  rw [hr, ok_bind]
  cases result with
  | failure => exact ⟨intern', false, rfl, hm, hl⟩
  | success =>
    dsimp only
    rw [hasMoreElementsEx_eq hl]
    exact ⟨intern', _, rfl, hm, hl⟩

theorem current_settles : intern.Settles ht (intern.current s) := by
  unfold current
  rw [withTable_eq hi]
  obtain ⟨intern', result, hr, hm, hl⟩ := verifyIfRef_settles hi hv hg
  rw [hr, ok_bind]
  cases result with
  | failure => exact ⟨intern', none, rfl, hm, hl⟩
  | success =>
    dsimp only
    rw [getCurrentDataEx_eq hl]
    exact ⟨intern', _, rfl, hm, hl⟩

theorem key_settles :
    intern.Settles ht (intern.key s) := by
  unfold key
  rw [withTable_eq hi]
  obtain ⟨intern', result, hr, hm, hl⟩ := verifyIfRef_settles hi hv hg
  rw [hr, ok_bind]
  cases result with
  | failure => exact ⟨intern', none, rfl, hm, hl⟩
  | success =>
    dsimp only
    rw [getCurrentKeyEx_eq hl]
    exact ⟨intern', _, rfl, hm, hl⟩

theorem next_settles :
    intern.Settles ht (intern.next s) := by
  unfold next
  rw [withTable_eq hi]
  obtain ⟨intern', result, hr, hm, hl⟩ := verifyIfRef_settles hi hv hg
  rw [hr, ok_bind]
  cases result with
  | failure => exact ⟨intern', .failure, rfl, hm, hl⟩
  | success => exact (nextNoVerify_settles hv s hl).of_moved hm

end

theorem itGetCurrentData_settles (hi : Iterates s intern t ht) (h : Listed ht intern.pos) :
    intern.Settles ht (intern.splArrayItGetCurrentData s) := by
  unfold splArrayItGetCurrentData
  rw [hi.hashTable, ok_bind]
  split
  · exact settles_ok h _
  · dsimp only
    rw [hi.table_eq, ok_bind, getCurrentDataEx_eq h]
    exact settles_ok h _

end SplArrayObject

end Php53.Spl
