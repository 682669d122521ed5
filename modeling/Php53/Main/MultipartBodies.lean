import Php53.Main.MultipartLines
import Php53.Reasoning.Search

/-!
# MultipartBodies — reading up to the boundary

The boundary may begin in the buffer and end behind it, so `php_ap_memstr` stops where it may occur.
One call of `multipart_buffer_read` returns a first part of what is in front of the boundary, and
nothing only where nothing is in front of it.
-/

open Reasoning

namespace Php53.Main

open Zend List

namespace MultipartBuffer

variable {self : MultipartBuffer} {bytes : List UInt8} {boundaryNext body : List UInt8}

theorem memcmp_iff {needle haystack : List UInt8} {ptr : Nat} :
    (needle.take (haystack.length - ptr) = (haystack.drop ptr).take needle.length ∧
        (true = true ∨ needle.length ≤ haystack.length - ptr)) ↔ MayOccurAt needle haystack ptr := by
  rw [← length_drop, prefix_or_prefix_iff]
  simp [MayOccurAt]

theorem phpApMemstr_spec {haystack tail : List UInt8} {first : UInt8} (fuel ptr : Nat)
    (hfuel : haystack.length < ptr + fuel) :
    match phpApMemstr haystack first (first :: tail) true fuel ptr with
    | none => ∀ i, ptr ≤ i → i < haystack.length → ¬ MayOccurAt (first :: tail) haystack i
    | some i => ptr ≤ i ∧ i < haystack.length ∧ MayOccurAt (first :: tail) haystack i ∧
        ∀ j, ptr ≤ j → j < i → ¬ MayOccurAt (first :: tail) haystack j := by
  induction fuel generalizing ptr with
  | zero =>
    intro i hptr hi
    omega
  | succ fuel ih =>
    rw [phpApMemstr]
    have htake : (haystack.drop ptr).take (haystack.length - ptr) = haystack.drop ptr := by
      rw [take_of_length_le]
      rw [length_drop]
    cases hfind : (haystack.drop ptr).findIdx? (· = first) with
    | none =>
      have hchr : memchr haystack ptr first (haystack.length - ptr) = none := by
        rw [memchr, htake, hfind]
        rfl
      rw [hchr]
      intro i hptr hi hmay
      rw [List.findIdx?_eq_none_iff] at hfind
      have hmem : first ∈ haystack.drop ptr := by
        apply mem_of_getElem? (i := i - ptr)
        rw [List.getElem?_drop, Nat.add_sub_cancel' hptr, hmay.head hi]
      simpa using hfind first hmem
    | some q =>
      have hchr : memchr haystack ptr first (haystack.length - ptr) = some (ptr + q) := by
        rw [memchr, htake, hfind]
        rfl
      rw [hchr]
      dsimp only
      obtain ⟨hq, -, hbefore⟩ := List.findIdx?_eq_some_iff_getElem.mp hfind
      rw [length_drop] at hq
      -- the needle does not begin before the first byte is found
      have hskip : ∀ j, ptr ≤ j → j < ptr + q → ¬ MayOccurAt (first :: tail) haystack j := by
        intro j hptr hj hmay
        have hbyte := hbefore (j - ptr) (by omega)
        have hhead := hmay.head (by omega)
        rw [List.getElem?_eq_getElem (by omega), Option.some.injEq] at hhead
        simp [Nat.add_sub_cancel' hptr, hhead] at hbyte
      by_cases hmay : MayOccurAt (first :: tail) haystack (ptr + q)
      · rw [if_pos (memcmp_iff.mpr hmay)]
        exact ⟨Nat.le_add_right _ _, by omega, hmay, hskip⟩
      · rw [if_neg fun h => hmay (memcmp_iff.mp h)]
        have hrec := ih (ptr + q + 1) (by omega)
        have hskip' : ∀ j, ptr ≤ j → j < ptr + q + 1 → ¬ MayOccurAt (first :: tail) haystack j := by
          intro j hptr hj
          rcases Nat.lt_succ_iff_lt_or_eq.mp hj with hlt | rfl
          · exact hskip j hptr hlt
          · exact hmay
        generalize phpApMemstr haystack first (first :: tail) true fuel (ptr + q + 1) = r at hrec
        cases r with
        | none =>
          intro i hptr hi
          by_cases hlt : i < ptr + q + 1
          · exact hskip' i hptr hlt
          · exact hrec i (by omega) hi
        | some i =>
          obtain ⟨hle, hi, hmayi, hfirst⟩ := hrec
          refine ⟨by omega, hi, hmayi, fun j hptr hj => ?_⟩
          by_cases hlt : j < ptr + q + 1
          · exact hskip' j hptr hlt
          · exact hfirst j (by omega) hj

/-- The body, a CR and the boundary are next, and the boundary does not begin before that. -/
structure InFront (boundaryNext body bytes : List UInt8) : Prop where
  split : ∃ tail, bytes = body ++ 13 :: (boundaryNext ++ tail)
  first : ∀ j ≤ body.length, ¬ OccursAt boundaryNext bytes j

theorem InFront.drop (h : InFront boundaryNext body bytes) {k : Nat}
    (hk : k ≤ body.length) : InFront boundaryNext (body.drop k) (bytes.drop k) := by
  constructor
  · obtain ⟨tail, htail⟩ := h.split
    refine ⟨tail, ?_⟩
    rw [htail, drop_append_of_le_length hk]
  · intro j hj
    rw [length_drop] at hj
    rw [occursAt_drop]
    exact h.first (k + j) (by omega)

theorem InFront.of_notInfix {tail : List UInt8} (hne : boundaryNext ≠ []) (hcr : 13 ∉ boundaryNext)
    (h : ¬ boundaryNext <:+: body) :
    InFront boundaryNext body (body ++ 13 :: (boundaryNext ++ tail)) :=
  ⟨⟨tail, rfl⟩, fun _ hj => not_occursAt_of_separator hne hcr h hj⟩

section Read

variable {n : Nat} {tl body : List UInt8}

theorem InFront.occursAt (h : InFront boundaryNext body bytes) :
    OccursAt boundaryNext bytes (body.length + 1) ∧
      body.length + 1 + boundaryNext.length ≤ bytes.length ∧ bytes[body.length]? = some 13 := by
  obtain ⟨tail, rfl⟩ := h.split
  refine ⟨?_, ?_, ?_⟩
  · refine ⟨tail, ?_⟩
    rw [drop_append, drop_eq_nil_of_le (by omega), Nat.add_sub_cancel_left]
    rfl
  · simp only [length_append, length_cons]
    omega
  · simp

theorem InFront.mayOccurAt (h : InFront (10 :: tl) body bytes) {i : Nat} (hi : i ≤ body.length + 1)
    (hmay : MayOccurAt (10 :: tl) (bytes.take n) i) :
    i = body.length + 1 ∨ n < i + (tl.length + 1) := by
  by_contra hnot
  rw [not_or] at hnot
  obtain ⟨-, hlen, -⟩ := h.occursAt
  rw [length_cons] at hlen
  have hoccurs : OccursAt (10 :: tl) (bytes.take n) i := by
    apply hmay.occursAt
    rw [length_take, length_cons]
    omega
  have happend := hoccurs.append (by rw [length_take]; omega) (bytes.drop n)
  rw [take_append_drop] at happend
  exact h.first i (by omega) happend

def readLength (boundaryNext : List UInt8) (bytes : Nat) (window : List UInt8) : Nat :=
  let bound := phpApMemstr window 10 boundaryNext true (window.length + 1) 0
  let max := bound.getD window.length
  let len := if max < bytes - 1 then max else bytes - 1
  if bound.isSome ∧ (window.take len).getLast? = some 13 then len - 1 else len

theorem InFront.readLength (h : InFront (10 :: tl) body bytes) (hn : tl.length + 3 ≤ n) :
    readLength (10 :: tl) n (bytes.take n) ≤ (bytes.take n).length ∧
      readLength (10 :: tl) n (bytes.take n) ≤ body.length ∧
      (readLength (10 :: tl) n (bytes.take n) = 0 → body = []) := by
  obtain ⟨hoccurs, hlen, hcr⟩ := h.occursAt
  have hmay := hoccurs.mayOccurAt n
  have hwlen : (bytes.take n).length = min n bytes.length := length_take
  have hspec := @phpApMemstr_spec (bytes.take n) tl 10 ((bytes.take n).length + 1) 0 (by omega)
  unfold MultipartBuffer.readLength
  rw [length_cons] at hlen
  generalize phpApMemstr (bytes.take n) 10 (10 :: tl) true ((bytes.take n).length + 1) 0 = bound at hspec
  cases bound with
  | none =>
    -- the boundary is not in the window, which is full then
    have hout : (bytes.take n).length ≤ body.length + 1 := by
      by_contra hlt
      exact hspec (body.length + 1) (Nat.zero_le _) (by omega) hmay
    simp only [Option.getD_none, Option.isSome_none, Bool.false_eq_true, false_and, if_false]
    refine ⟨by split <;> omega, by split <;> omega, fun hzero => ?_⟩
    exfalso
    split at hzero <;> omega
  | some i =>
    obtain ⟨-, hi, hmayi, hfirst⟩ := hspec
    have hle : i ≤ body.length + 1 := by
      by_contra hlt
      exact hfirst (body.length + 1) (Nat.zero_le _) (by omega) hmay
    have hmin : (if i < n - 1 then i else n - 1) = i := by
      split <;> omega
    simp only [Option.getD_some, Option.isSome_some, true_and, hmin]
    by_cases hend : i = body.length + 1
    · subst hend
      -- the CR in front of the boundary is left
      have hlast : ((bytes.take n).take (body.length + 1)).getLast? = some 13 := by
        rw [List.getLast?_eq_getElem?, length_take, Nat.min_eq_left (by omega),
          Nat.add_sub_cancel, List.getElem?_take, if_pos (by omega), List.getElem?_take,
          if_pos (by omega), hcr]
      rw [if_pos hlast, Nat.add_sub_cancel]
      exact ⟨by omega, Nat.le_refl _, fun hzero => eq_nil_of_length_eq_zero hzero⟩
    · have hnear := (h.mayOccurAt hle hmayi).resolve_left hend
      refine ⟨by split <;> omega, by split <;> omega, fun hzero => ?_⟩
      exfalso
      split at hzero <;> omega

theorem Valid.refill (hv : self.Valid n) :
    Valid n (if n > self.window.length then self.fillBuffer n else self) ∧
      rest (if n > self.window.length then self.fillBuffer n else self) = self.rest ∧
      window (if n > self.window.length then self.fillBuffer n else self) = self.rest.take n := by
  by_cases hlt : n > self.window.length
  · rw [if_pos hlt]
    exact hv.fillBuffer
  · rw [if_neg hlt]
    refine ⟨hv, rfl, ?_⟩
    have hle := hv.length_window
    rw [prefix_iff_eq_take.mp (Valid.window_prefix self)]
    congr 1
    omega

theorem multipartBufferRead_spec (hv : self.Valid n) (hn : tl.length + 3 ≤ n)
    (h : InFront (10 :: tl) body self.rest) :
    ∃ k self', self.multipartBufferRead n (10 :: tl) n = (body.take k, self') ∧ k ≤ body.length ∧
      (k = 0 → body = []) ∧ self'.Valid n ∧ self'.rest = self.rest.drop k := by
  obtain ⟨hvalid, hrest, hwindow⟩ := hv.refill
  obtain ⟨hfits, hle, hzero⟩ := h.readLength hn
  have hcall : self.multipartBufferRead n (10 :: tl) n =
      let mbuff := if n > self.window.length then self.fillBuffer n else self
      (mbuff.window.take (readLength (10 :: tl) n mbuff.window),
        { mbuff with window := mbuff.window.drop (readLength (10 :: tl) n mbuff.window) }) := rfl
  rw [hcall]
  generalize (if n > self.window.length then self.fillBuffer n else self) = mbuff at hvalid hrest hwindow
  dsimp only
  rw [← hwindow] at hfits hle hzero
  generalize readLength (10 :: tl) n mbuff.window = k at hfits hle hzero
  refine ⟨k, { mbuff with window := mbuff.window.drop k }, ?_, hle, hzero, hvalid.drop k, ?_⟩
  · obtain ⟨tail, htail⟩ := h.split
    have hk : k ≤ n := Nat.le_trans hfits hvalid.length_window
    rw [hwindow, take_take, Nat.min_eq_left hk, htail, take_append_of_le_length hle]
  · rw [rest_drop hfits, hrest]

end Read

theorem readBodyLoop_spec {tl : List UInt8} (hn : tl.length + 3 ≤ fillUnit) (fuel : Nat)
    (hv : self.Valid fillUnit) (h : InFront (10 :: tl) body self.rest)
    (hfuel : body.length < fuel) :
    ∃ self', readBodyLoop fillUnit (10 :: tl) fuel self = (body, self') ∧ self'.Valid fillUnit ∧
      self'.rest = self.rest.drop body.length := by
  induction fuel generalizing self body with
  | zero => omega
  | succ fuel ih =>
    obtain ⟨k, mbuff, hread, hk, hzero, hvalid, hrest⟩ := multipartBufferRead_spec hv hn h
    rw [readBodyLoop, hread]
    by_cases hbody : body = []
    · subst hbody
      rw [take_nil]
      refine ⟨mbuff, rfl, hvalid, ?_⟩
      rw [hrest, Nat.le_zero.mp hk]
      rfl
    · have hpos : k ≠ 0 := fun hk0 => hbody (hzero hk0)
      have hne : body.take k ≠ [] := by
        rw [Ne, take_eq_nil_iff]
        exact fun hor => hor.elim hpos hbody
      have hdrop := h.drop hk
      rw [← hrest] at hdrop
      obtain ⟨self', hloop, hvalid', hrest'⟩ := ih hvalid hdrop (by rw [length_drop]; omega)
      refine ⟨self', ?_, hvalid', ?_⟩
      · split
        · rename_i heq
          exact absurd (congrArg Prod.fst heq) hne
        · rename_i heq
          obtain ⟨hbuf, hself⟩ := Prod.mk.inj heq
          rw [← hself, hloop, ← hbuf]
          simp
      · rw [hrest', hrest, drop_drop, length_drop, Nat.add_sub_cancel' hk]

theorem multipartBufferReadBody_spec {tl tail : List UInt8} (hn : tl.length + 3 ≤ fillUnit)
    (hv : self.Valid fillUnit) (hrest : self.rest = body ++ 13 :: 10 :: (tl ++ tail))
    (hcr : 13 ∉ tl) (hbody : ¬ (10 :: tl) <:+: body) :
    ∃ self', self.multipartBufferReadBody fillUnit (10 :: tl) = (body, self') ∧
      self'.Valid fillUnit ∧ self'.rest = 13 :: 10 :: (tl ++ tail) := by
  have h : InFront (10 :: tl) body self.rest := by
    rw [hrest]
    exact .of_notInfix (by simp) (by simp [hcr]) hbody
  obtain ⟨self', hloop, hvalid, hdrop⟩ := readBodyLoop_spec hn self.fuel hv h (by
    show body.length < self.rest.length + 1
    rw [hrest, length_append]
    omega)
  refine ⟨self', hloop, hvalid, ?_⟩
  rw [hdrop, hrest, drop_left]

end MultipartBuffer

end Php53.Main
