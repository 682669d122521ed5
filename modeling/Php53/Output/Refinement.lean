import Mathlib.Data.List.Forall2
import Php53.Output.Levels

/-!
# Refinement — the output layer is a stack of strings

Lengths are `uint`s.  What is appended to a buffer has room there when the length stays below
`2^32` and the size, counted up by the block size modulo `2^32`, comes to a value above it for
which a block can be allocated.
-/

namespace Php53.Output

variable {blockSize k n size : Nat} {b : ObBuffer} {l : Level} {str : List UInt8}

/-- `n` more bytes have room. -/
def ObBuffer.Fits (b : ObBuffer) (n : Nat) : Prop :=
  b.textLength + n < 2 ^ 32 ∧
    (b.size < b.textLength + n → ∃ k,
      b.textLength + n < uint (b.size + k * b.blockSize) ∧
      uint (b.size + k * b.blockSize) + 1 < 2 ^ 32 ∧
      ∀ j < k, uint (b.size + j * b.blockSize) ≤ b.textLength + n)

def Room : List ObBuffer → List UInt8 → Prop
  | [], _ => True
  | b :: bs, str => b.Fits str.length ∧
      (b.chunkSize ≠ 0 → b.textLength + str.length ≥ b.chunkSize → Room bs (b.text ++ str))

theorem uint_lt (n : Nat) : uint n < 2 ^ 32 := Nat.mod_lt _ (by decide)

theorem uint_of_lt (h : n < 2 ^ 32) : uint n = n := Nat.mod_eq_of_lt h

theorem uint_uint_add (m n : Nat) : uint (uint m + n) = uint (m + n) := Nat.mod_add_mod _ _ _

theorem uint_block_sub (hk : 2 ^ 32 ≤ k) :
    uint (size + (k - 2 ^ 32) * blockSize) = uint (size + k * blockSize) := by
  obtain ⟨j, rfl⟩ : ∃ j, k = j + 2 ^ 32 := ⟨k - 2 ^ 32, by omega⟩
  rw [Nat.add_sub_cancel, Nat.add_mul, ← Nat.add_assoc, uint, uint, Nat.add_mul_mod_self_left]

theorem grow_eq {newLen : Nat} (hlast : newLen < uint (size + k * blockSize))
    (hfirst : ∀ j < k, uint (size + j * blockSize) ≤ newLen) {i : Nat} (hi : i ≤ k) (fuel : Nat)
    (hfuel : k - i < fuel) : grow blockSize newLen fuel (uint (size + i * blockSize)) =
      some (uint (size + k * blockSize)) := by
  induction fuel generalizing i with
  | zero => omega
  | succ fuel ih =>
    rw [grow]
    by_cases hik : i = k
    · rw [hik, if_neg (by omega)]
    · have hnext := ih (by omega : i + 1 ≤ k) (by omega)
      rw [if_pos (hfirst i (by omega)), uint_uint_add, Nat.add_assoc, ← Nat.succ_mul]
      exact hnext

theorem grow_of_fits {newLen : Nat} (hsize : size < 2 ^ 32)
    (hlast : newLen < uint (size + k * blockSize))
    (hfirst : ∀ j < k, uint (size + j * blockSize) ≤ newLen) :
    grow blockSize newLen (2 ^ 32 + 1) size = some (uint (size + k * blockSize)) := by
  have hk : k < 2 ^ 32 := by
    by_contra hle
    have h := hfirst (k - 2 ^ 32) (by omega)
    rw [uint_block_sub (by omega)] at h
    omega
  have h := grow_eq hlast hfirst (Nat.zero_le k) (2 ^ 32 + 1) (by omega)
  rwa [Nat.zero_mul, Nat.add_zero size, uint_of_lt hsize] at h

/-- The buffer of a level. -/
structure Represents (b : ObBuffer) (l : Level) : Prop where
  chunk : b.chunkSize = l.chunkSize
  text : b.text = l.text
  length : b.textLength = l.text.length
  fits : b.textLength ≤ b.size
  allocated : b.capacity = b.size + 1
  size_lt : b.size + 1 < 2 ^ 32

theorem Represents.clear (h : Represents b l) :
    Represents { b with textLength := 0 } { l with text := [] } where
  chunk := h.chunk
  text := rfl
  length := rfl
  fits := Nat.zero_le _
  allocated := h.allocated
  size_lt := h.size_lt

theorem phpObAllocate_grow (hlt : b.textLength + n < 2 ^ 32) (hgrow : b.size < b.textLength + n)
    (hsize : grow b.blockSize (b.textLength + n) (2 ^ 32 + 1) b.size = some size) :
    phpObAllocate b n = .ok { b with
      capacity := uint (size + 1), size := size, textLength := b.textLength + n } := by
  rw [phpObAllocate, uint_of_lt hlt]
  simp only [if_pos hgrow]
  rw [hsize]

theorem phpObAllocate_spec (h : Represents b l) (hfits : b.Fits n) : ∃ size, phpObAllocate b n =
        .ok { b with capacity := size + 1, size := size, textLength := b.textLength + n } ∧
      b.textLength + n ≤ size ∧ size + 1 < 2 ^ 32 := by
  have hsize := h.size_lt
  by_cases hgrow : b.size < b.textLength + n
  · obtain ⟨k, hlast, hlt, hfirst⟩ := hfits.2 hgrow
    rw [phpObAllocate_grow hfits.1 hgrow (grow_of_fits (by omega) hlast hfirst), uint_of_lt hlt]
    exact ⟨_, rfl, Nat.le_of_lt hlast, hlt⟩
  · rw [phpObAllocate, uint_of_lt hfits.1]
    simp only [if_neg hgrow]
    refine ⟨b.size, ?_, by omega, h.size_lt⟩
    rw [← h.allocated]

theorem phpObAppend_spec (h : Represents b l) (hfits : b.Fits str.length)
    : ∃ b', phpObAppend b str = .ok b' ∧
      Represents b' { l with text := l.text ++ str } := by
  obtain ⟨size, halloc, hle, hlt⟩ := phpObAllocate_spec h hfits
  have htext : b.buffer.take b.textLength = l.text := h.text
  have hlen : (l.text ++ str).length = b.textLength + str.length := by
    rw [List.length_append, h.length]
  rw [phpObAppend, halloc]
  dsimp only [bind, Except.bind]
  rw [if_pos (by omega), htext]
  refine ⟨_, rfl, h.chunk, ?_, hlen.symm, hle, rfl, hlt⟩
  show (l.text ++ str).take (b.textLength + str.length) = l.text ++ str
  rw [← hlen, List.take_length]

/-- What `ob_buffers` is, with this value when there is at most one buffer. -/
def stackOf (idle : Option (List ObBuffer)) : List ObBuffer → Option (List ObBuffer)
  | _ :: b :: bs => some (b :: bs)
  | _ => idle

/-- These are the open buffers.  While a flush writes to the level below, the stack is there with
one buffer. -/
structure Opened (idle : Option (List ObBuffer)) (og : Globals) (bs : List ObBuffer) : Prop where
  nesting : og.obNestingLevel = bs.length
  active : ∀ b ∈ bs.head?, og.activeObBuffer = b
  stack : og.obBuffers = stackOf idle bs
  pointer : og.phpBodyWrite = .b ↔ bs ≠ []

theorem stackOf_some_nil (b : ObBuffer) (bs : List ObBuffer) :
    stackOf (some []) (b :: bs) = some bs := by
  cases bs <;> rfl

/-- What is expected of a write to the levels below: what it leaves satisfies `P`. -/
def Sends (send : Globals → Except Fault Globals) (bs : List ObBuffer) (out : List UInt8)
    (P : List ObBuffer → List UInt8 → Prop) : Prop :=
  ∀ idle og, Opened idle og bs → og.out = out → ∃ og' bs', send og = .ok og' ∧
    Opened idle og' bs' ∧ bs'.length = bs.length ∧ P bs' og'.out ∧
    (bs = [] → og'.activeObBuffer = og.activeObBuffer)

section End

variable {write : Globals → List UInt8 → Except Fault Globals} {sendBuffer : Bool}
  {a b : ObBuffer} {bs : List ObBuffer} {out : List UInt8}
  {P : List ObBuffer → List UInt8 → Prop} {idle : Option (List ObBuffer)} {og : Globals}

theorem leaveLevel_last (hopen : Opened idle og [a]) (justFlush : Bool) :
    ∃ below, leaveLevel justFlush og = .ok below ∧ Opened idle below [] ∧ below.out = og.out ∧
      below.activeObBuffer = og.activeObBuffer := by
  have hlevel : og.obNestingLevel = 1 := hopen.nesting
  rw [leaveLevel, if_pos hlevel]
  refine ⟨_, rfl, ⟨?_, by simp, hopen.stack, ?_⟩, rfl, rfl⟩
  · show og.obNestingLevel - 1 = 0
    rw [hlevel]
  · cases og.headersSent <;> simp

theorem leaveLevel_nested (hopen : Opened idle og (a :: b :: bs)) (justFlush : Bool) :
    ∃ below, leaveLevel justFlush og = .ok below ∧
      Opened (if justFlush then some [] else none) below (b :: bs) ∧ below.out = og.out := by
  have hlevel : og.obNestingLevel = bs.length + 2 := hopen.nesting
  have hpointer : og.phpBodyWrite = .b := hopen.pointer.mpr (List.cons_ne_nil _ _)
  rw [leaveLevel, if_neg (by omega), restorePrevious, hopen.stack]
  refine ⟨_, rfl, ⟨?_, ?_, ?_, ?_⟩, rfl⟩
  · show og.obNestingLevel - 1 = bs.length + 1
    omega
  · intro x hx
    exact Option.some.inj hx
  · rw [hlevel]
    cases justFlush <;> cases bs <;> rfl
  · simp [hpointer]

theorem phpEndObBuffer_flush
    (hsend : Sends (fun og => if sendBuffer then write og a.text else .ok og) bs out P)
    (hopen : Opened idle og (a :: bs)) (hout : og.out = out) :
    ∃ og' bs', phpEndObBuffer write sendBuffer true og = .ok og' ∧
      Opened idle og' ({ a with textLength := 0 } :: bs') ∧ bs'.length = bs.length ∧
      P bs' og'.out := by
  have hactive : og.activeObBuffer = a := hopen.active a rfl
  have hlevel : og.obNestingLevel = bs.length + 1 := hopen.nesting
  rw [phpEndObBuffer, if_neg (by omega), hactive]
  cases bs with
  | nil =>
    obtain ⟨below, hleave, hbelow, hbelowOut, hbelowActive⟩ := leaveLevel_last hopen true
    obtain ⟨og', bs', hsent, hopen', hlen, hP, hframe⟩ :=
      hsend idle below hbelow (hbelowOut.trans hout)
    obtain rfl : bs' = [] := List.length_eq_zero_iff.mp hlen
    have hactive' : og'.activeObBuffer = a := by rw [hframe rfl, hbelowActive, hactive]
    have hnested : decide (og.obNestingLevel > 1) = false := by
      rw [hlevel]
      rfl
    rw [hleave, hnested]
    dsimp only [bind, Except.bind] at hsent ⊢
    rw [hsent]
    refine ⟨og'.resume, [], rfl, ⟨?_, ?_, hopen'.stack, ?_⟩, rfl, hP⟩
    · show og'.obNestingLevel + 1 = 1
      rw [hopen'.nesting]
      rfl
    · intro x hx
      rw [← Option.some.inj hx, ← hactive']
      rfl
    · simp [Globals.resume]
  | cons b bs =>
    obtain ⟨below, hleave, hbelow, hbelowOut⟩ := leaveLevel_nested hopen true
    obtain ⟨og', bs', hsent, hopen', hlen, hP, -⟩ :=
      hsend _ below hbelow (hbelowOut.trans hout)
    obtain ⟨b', bs', rfl⟩ : ∃ x xs, bs' = x :: xs := List.exists_cons_of_length_eq_add_one hlen
    have hactive' : og'.activeObBuffer = b' := hopen'.active b' rfl
    have hstack' : og'.obBuffers = some bs' := hopen'.stack.trans (stackOf_some_nil b' bs')
    have hnested : decide (og.obNestingLevel > 1) = true := by
      rw [hlevel, List.length_cons, decide_eq_true_iff]
      omega
    rw [hleave, hnested]
    dsimp only [bind, Except.bind] at hsent ⊢
    rw [hsent]
    refine ⟨{ og' with
      activeObBuffer := a
      obBuffers := some (b' :: bs') }.resume, b' :: bs', ?_, ⟨?_, ?_, rfl, ?_⟩, hlen, hP⟩
    · simp only [if_true, returnToCurrent, pushActive, hstack', hactive']
      rfl
    · show og'.obNestingLevel + 1 = bs'.length + 2
      rw [hopen'.nesting]
      rfl
    · intro x hx
      rw [← Option.some.inj hx]
      rfl
    · simp [Globals.resume]

theorem phpEndObBuffer_finish
    (hsend : Sends (fun og => if sendBuffer then write og a.text else .ok og) bs out P)
    (hopen : Opened none og (a :: bs)) (hout : og.out = out) :
    ∃ og' bs', phpEndObBuffer write sendBuffer false og = .ok og' ∧ Opened none og' bs' ∧
      bs'.length = bs.length ∧ P bs' og'.out := by
  have hactive : og.activeObBuffer = a := hopen.active a rfl
  have hlevel : og.obNestingLevel = bs.length + 1 := hopen.nesting
  obtain ⟨below, hleave, hbelow, hbelowOut⟩ : ∃ below, leaveLevel false og = .ok below ∧
      Opened none below bs ∧ below.out = og.out := by
    cases bs with
    | nil =>
      obtain ⟨below, hleave, hbelow, hbelowOut, -⟩ := leaveLevel_last hopen false
      exact ⟨below, hleave, hbelow, hbelowOut⟩
    | cons b bs => exact leaveLevel_nested hopen false
  obtain ⟨og', bs', hsent, hopen', hlen, hP, -⟩ :=
    hsend none below hbelow (hbelowOut.trans hout)
  rw [phpEndObBuffer, if_neg (by omega), hactive, hleave]
  dsimp only [bind, Except.bind] at hsent ⊢
  rw [hsent]
  exact ⟨og', bs', rfl, hopen', hlen, hP⟩

end End

def Stack.RepresentedBy (s : Stack) (bs : List ObBuffer) (out : List UInt8) : Prop :=
  List.Forall₂ Represents bs s.levels ∧ out = s.out

theorem bodyWrite_buffer {og : Globals} (h : og.phpBodyWrite = .b)
    (happend : phpObAppend og.activeObBuffer str = .ok b) (fuel : Nat) :
    bodyWrite (fuel + 1) og str =
      if b.chunkSize ≠ 0 ∧ b.textLength ≥ b.chunkSize then
        phpEndObBuffer (bodyWrite fuel) true true { og with activeObBuffer := b }
      else .ok { og with activeObBuffer := b } := by
  rw [bodyWrite]
  split
  · next h' => exact nomatch h.symm.trans h'
  · next h' => exact nomatch h.symm.trans h'
  · dsimp only [bind, Except.bind]
    rw [happend]
    rfl

theorem bodyWrite_spec {bs : List ObBuffer} {ls : List Level} (hrep : List.Forall₂ Represents bs ls)
    (hroom : Room bs str) (out : List UInt8) (fuel : Nat) (hfuel : bs.length < fuel) :
    Sends (fun og => bodyWrite fuel og str) bs out (writeLevels ls out str).RepresentedBy := by
  induction hrep generalizing str fuel with
  | nil =>
    intro idle og hopen hout
    obtain ⟨fuel, rfl⟩ : ∃ k, fuel = k + 1 := ⟨fuel - 1, by omega⟩
    have hpointer : og.phpBodyWrite ≠ .b := fun h => hopen.pointer.mp h rfl
    dsimp only
    rw [bodyWrite]
    cases hwriter : og.phpBodyWrite with
    | b => exact absurd hwriter hpointer
    | ub =>
      refine ⟨_, [], rfl, ⟨hopen.nesting, by simp, hopen.stack, by simp [phpUbBodyWrite,
        phpUbBodyWriteNoHeader]⟩, rfl, ⟨.nil, ?_⟩, fun _ => rfl⟩
      rw [← hout]
      rfl
    | ubNoHeader =>
      refine ⟨_, [], rfl, ⟨hopen.nesting, by simp, hopen.stack, by simp [hwriter,
        phpUbBodyWriteNoHeader]⟩, rfl, ⟨.nil, ?_⟩, fun _ => rfl⟩
      rw [← hout]
      rfl
  | @cons b l bs ls hb hbs ih =>
    intro idle og hopen hout
    obtain ⟨fuel, rfl⟩ : ∃ k, fuel = k + 1 := ⟨fuel - 1, by omega⟩
    have hactive : og.activeObBuffer = b := hopen.active b rfl
    have hpointer : og.phpBodyWrite = .b := hopen.pointer.mpr (List.cons_ne_nil _ _)
    obtain ⟨b', happend, hb'⟩ := phpObAppend_spec hb hroom.1
    have hopen' : Opened idle { og with activeObBuffer := b' } (b' :: bs) := by
      refine ⟨hopen.nesting, fun x hx => Option.some.inj hx, ?_, by simp [hpointer]⟩
      exact hopen.stack.trans (by cases bs <;> rfl)
    dsimp only
    rw [bodyWrite_buffer hpointer (hactive ▸ happend), writeLevels, hb'.chunk, hb'.length]
    dsimp only
    split
    · next hchunk =>
      have hlow : Room bs b'.text := by
        have hlen := hb.length
        have hbelow := hroom.2 (hb.chunk ▸ hchunk.1) (by
          have h := hchunk.2
          rw [List.length_append] at h
          rw [hb.chunk, hlen]
          exact h)
        rw [hb'.text, ← hb.text]
        exact hbelow
      have hbelow : Sends (fun og => if true then bodyWrite fuel og b'.text else .ok og) bs out
          (writeLevels ls out b'.text).RepresentedBy :=
        ih hlow fuel (by
          rw [List.length_cons] at hfuel
          omega)
      obtain ⟨og', bs', hend, hended, hlen, hP⟩ := phpEndObBuffer_flush hbelow hopen' hout
      refine ⟨og', _, hend, hended, ?_, ⟨?_, ?_⟩, fun h => nomatch h⟩
      · rw [List.length_cons, hlen, List.length_cons]
      · rw [hb'.text] at hP
        exact .cons hb'.clear hP.1
      · rw [hb'.text] at hP
        exact hP.2
    · exact ⟨_, b' :: bs, rfl, hopen', rfl, ⟨.cons hb' hbs, hout⟩, fun h => nomatch h⟩

end Php53.Output
