import Php53.Output.Refinement

/-!
# Runs — every sequence of operations

The operations keep the levels and their buffers together as long as there is room for what is
written to a buffer.
-/

namespace Php53.Output

variable {og : Globals} {b : ObBuffer} {bs : List ObBuffer}

def Globals.buffers (og : Globals) : List ObBuffer :=
  if og.obNestingLevel = 0 then [] else og.activeObBuffer :: og.obBuffers.getD []

def SendHasRoom : List ObBuffer → Prop
  | [] => True
  | b :: bs => Room bs b.text

def FinishesHaveRoom (sendBuffer : Bool) : Nat → Globals → Prop
  | 0, _ => True
  | n + 1, og => (sendBuffer = true → SendHasRoom og.buffers) ∧
      ∀ og', og.endBuffer sendBuffer false = .ok og' → FinishesHaveRoom sendBuffer n og'

def Op.HasRoom : Op → Globals → Prop
  | .start _, _ => True
  | .write str, og => Room og.buffers str.bytes
  | .flush, og => SendHasRoom og.buffers
  | .clean, _ => True
  | .finish sendBuffer, og => sendBuffer = true → SendHasRoom og.buffers
  | .finishAll sendBuffer, og => FinishesHaveRoom sendBuffer og.obNestingLevel og

def RunHasRoom : Globals → List Op → Prop
  | _, [] => True
  | og, op :: ops => op.HasRoom og ∧ ∀ og', op.step og = .ok og' → RunHasRoom og' ops

theorem RunHasRoom.of_append {ops rest : List Op} (h : RunHasRoom og (ops ++ rest))
    : RunHasRoom og ops := by
  induction ops generalizing og with
  | nil => trivial
  | cons op ops ih => exact ⟨h.1, fun og' hstep => ih (h.2 og' hstep)⟩

theorem Opened.level_eq_zero {idle : Option (List ObBuffer)} (h : Opened idle og [])
    : og.obNestingLevel = 0 := h.nesting

theorem Opened.level_eq_one {idle : Option (List ObBuffer)} (h : Opened idle og [b])
    : og.obNestingLevel = 1 := h.nesting

theorem Opened.buffers_eq (h : Opened none og bs) :
    og.buffers = bs := by
  rw [Globals.buffers]
  cases bs with
  | nil => rw [if_pos h.level_eq_zero]
  | cons b bs =>
    rw [if_neg (by rw [h.nesting]; exact Nat.succ_ne_zero _), h.active b rfl, h.stack]
    cases bs <;> rfl

def Simulates (og : Globals) (s : Stack) : Prop :=
  ∃ bs, Opened none og bs ∧ s.RepresentedBy bs og.out

section Step

variable {og : Globals} {s : Stack}

theorem phpObInitNamed_spec {initialSize blockSize chunkSize : Nat}
    (hsize : initialSize + 1 < 2 ^ 32) (h : Simulates og s) :
    ∃ og', phpObInitNamed initialSize blockSize chunkSize og = .ok og' ∧
      Simulates og' (s.start chunkSize) := by
  obtain ⟨bs, hopen, hrep, hout⟩ := h
  have hnew : Represents
      { blockSize := blockSize, size := initialSize, capacity := uint (initialSize + 1),
        chunkSize := chunkSize } ⟨chunkSize, []⟩ :=
    ⟨rfl, rfl, rfl, Nat.zero_le _, uint_of_lt hsize, hsize⟩
  have hlevel := hopen.nesting
  have hstack := hopen.stack
  rw [phpObInitNamed]
  cases bs with
  | nil =>
    rw [if_neg (by simp [hlevel]), if_neg (by simp [hlevel])]
    refine ⟨_, rfl, [_], ⟨?_, ?_, hstack, ?_⟩, .cons hnew hrep, hout⟩
    · show og.obNestingLevel + 1 = 1
      rw [hlevel]
      rfl
    · intro x hx
      exact Option.some.inj hx
    · simp
  | cons b bs =>
    have hactive : og.activeObBuffer = b := hopen.active b rfl
    obtain ⟨og', hpush, hlevel', hstack', hout'⟩ : ∃ og', pushActive
        (if og.obNestingLevel = 1 then { og with obBuffers := some [] } else og) = .ok og' ∧
        og'.obNestingLevel = og.obNestingLevel ∧ og'.obBuffers = some (b :: bs) ∧
        og'.out = og.out := by
      cases bs with
      | nil =>
        rw [if_pos hopen.level_eq_one]
        exact ⟨_, rfl, rfl, by rw [← hactive], rfl⟩
      | cons b' bs =>
        rw [if_neg (by simp [hlevel])]
        rw [pushActive, hstack]
        exact ⟨_, rfl, rfl, by rw [← hactive], rfl⟩
    have hpos : (if og.obNestingLevel = 1 then { og with obBuffers := some [] }
        else og).obNestingLevel > 0 := by
      split <;> simp [hlevel]
    rw [if_pos hpos, hpush]
    refine ⟨_, rfl, _ :: b :: bs, ⟨?_, ?_, hstack', ?_⟩, .cons hnew hrep, hout'.trans hout⟩
    · show og'.obNestingLevel + 1 = bs.length + 2
      rw [hlevel', hlevel]
      rfl
    · intro x hx
      exact Option.some.inj hx
    · simp

theorem phpStartObBuffer_spec (h : Simulates og s) (chunkSize : UInt32) :
    ∃ og', phpStartObBuffer chunkSize og = .ok og' ∧
      Simulates og' (s.start (effectiveChunkSize chunkSize)) := by
  rw [phpStartObBuffer]
  split
  · apply phpObInitNamed_spec _ h
    have hlt := uint_lt (effectiveChunkSize chunkSize * 3)
    omega
  · next hzero =>
    obtain rfl : chunkSize = 0 := by
      by_contra hne
      exact hzero (UInt32.pos_iff_ne_zero.mpr hne)
    exact phpObInitNamed_spec (by decide) h

theorem write_spec (h : Simulates og s) {str : List UInt8} (hroom : Room og.buffers str) :
    ∃ og', og.write str = .ok og' ∧ Simulates og' (s.write str) := by
  obtain ⟨bs, hopen, hrep, hout⟩ := h
  rw [hopen.buffers_eq] at hroom
  obtain ⟨og', bs', hwrite, hopen', -, hP, -⟩ := bodyWrite_spec hrep hroom s.out
    (og.obNestingLevel + 1) (by rw [hopen.nesting]; omega) none og hopen hout
  exact ⟨og', hwrite, bs', hopen', hP⟩

theorem sends_below {bs : List ObBuffer} {ls : List Level}
    (hrep : List.Forall₂ Represents bs ls) (sendBuffer : Bool) {text : List UInt8}
    (hroom : sendBuffer = true → Room bs text) (out : List UInt8) (fuel : Nat)
    (hfuel : bs.length < fuel) :
    Sends (fun og => if sendBuffer then bodyWrite fuel og text else .ok og) bs out
      (if sendBuffer then writeLevels ls out text else ⟨ls, out⟩ : Stack).RepresentedBy := by
  cases sendBuffer with
  | true => exact bodyWrite_spec hrep (hroom rfl) out fuel hfuel
  | false =>
    intro idle og hopen hout
    exact ⟨og, bs, rfl, hopen, rfl, ⟨hrep, hout⟩, fun _ => rfl⟩

theorem endBuffer_none (hopen : Opened none og []) (sendBuffer justFlush : Bool) :
    og.endBuffer sendBuffer justFlush = .ok og := by
  rw [Globals.endBuffer, phpEndObBuffer, if_pos hopen.level_eq_zero]

theorem endBuffer_flush_spec (h : Simulates og s) (sendBuffer : Bool)
    (hroom : sendBuffer = true → SendHasRoom og.buffers) :
    ∃ og', og.endBuffer sendBuffer true = .ok og' ∧
      Simulates og' (if sendBuffer then s.flush else s.clean) := by
  obtain ⟨bs, hopen, hrep, hout⟩ := h
  rw [hopen.buffers_eq] at hroom
  obtain ⟨levels, out⟩ := s
  cases hrep with
  | nil =>
    refine ⟨og, endBuffer_none hopen _ _, [], hopen, ?_, ?_⟩
    · cases sendBuffer <;> exact .nil
    · cases sendBuffer <;> exact hout
  | @cons b l bs ls hb hbs =>
    obtain ⟨og', bs', hend, hopen', -, hP⟩ := phpEndObBuffer_flush
      (sends_below hbs sendBuffer hroom out (og.obNestingLevel + 1)
        (by rw [hopen.nesting, List.length_cons]; omega)) hopen hout
    refine ⟨og', hend, _, hopen', ?_⟩
    rw [hb.text] at hP
    cases sendBuffer with
    | true => exact ⟨.cons hb.clear hP.1, hP.2⟩
    | false => exact ⟨.cons hb.clear hP.1, hP.2⟩

theorem endBuffer_finish_spec (h : Simulates og s) (sendBuffer : Bool)
    (hroom : sendBuffer = true → SendHasRoom og.buffers) :
    ∃ og', og.endBuffer sendBuffer false = .ok og' ∧ Simulates og' (s.finish sendBuffer) ∧
      og'.obNestingLevel = og.obNestingLevel - 1 := by
  obtain ⟨bs, hopen, hrep, hout⟩ := h
  rw [hopen.buffers_eq] at hroom
  obtain ⟨levels, out⟩ := s
  cases hrep with
  | nil =>
    refine ⟨og, endBuffer_none hopen _ _, ⟨[], hopen, .nil, hout⟩, ?_⟩
    rw [hopen.nesting]
    rfl
  | @cons b l bs ls hb hbs =>
    obtain ⟨og', bs', hend, hopen', hlen, hP⟩ := phpEndObBuffer_finish
      (sends_below hbs sendBuffer hroom out (og.obNestingLevel + 1)
        (by rw [hopen.nesting, List.length_cons]; omega)) hopen hout
    refine ⟨og', hend, ⟨bs', hopen', ?_⟩, ?_⟩
    · rw [hb.text] at hP
      cases sendBuffer with
      | true => exact hP
      | false => exact hP
    · rw [hopen'.nesting, hopen.nesting, hlen]
      rfl

theorem phpEndObBuffers_spec (sendBuffer : Bool) {n : Nat} (h : Simulates og s)
    (hlevel : og.obNestingLevel = n) (hroom : FinishesHaveRoom sendBuffer n og) :
    ∃ og', phpEndObBuffers sendBuffer (n + 1) og = .ok og' ∧
      Simulates og' (Stack.finishTimes sendBuffer n s) := by
  induction n generalizing og s with
  | zero =>
    rw [phpEndObBuffers, if_neg (not_not.mpr hlevel)]
    exact ⟨og, rfl, h⟩
  | succ n ih =>
    obtain ⟨og', hend, h', hlevel'⟩ := endBuffer_finish_spec h sendBuffer hroom.1
    obtain ⟨og'', hrest, h''⟩ := ih h' (by omega) (hroom.2 og' hend)
    refine ⟨og'', ?_, h''⟩
    rw [phpEndObBuffers, if_pos (by omega), hend]
    exact hrest

theorem step_spec (h : Simulates og s) {op : Op} (hroom : op.HasRoom og) :
    ∃ og', op.step og = .ok og' ∧ Simulates og' (s.step op) := by
  cases op with
  | start chunkSize => exact phpStartObBuffer_spec h chunkSize
  | write str => exact write_spec h hroom
  | flush => exact endBuffer_flush_spec h true fun _ => hroom
  | clean => exact endBuffer_flush_spec h false fun h => nomatch h
  | finish sendBuffer =>
    obtain ⟨og', hend, h', -⟩ := endBuffer_finish_spec h sendBuffer hroom
    exact ⟨og', hend, h'⟩
  | finishAll sendBuffer =>
    have hlevel : og.obNestingLevel = s.levels.length := by
      obtain ⟨bs, hopen, hrep, -⟩ := h
      rw [hopen.nesting, hrep.length_eq]
    obtain ⟨og', hend, h'⟩ := phpEndObBuffers_spec sendBuffer h rfl hroom
    rw [hlevel] at h'
    exact ⟨og', hend, h'⟩

end Step

theorem run_spec {s : Stack} (h : Simulates og s) {ops : List Op} (hroom : RunHasRoom og ops)
    : ∃ og', og.run ops = .ok og' ∧ Simulates og' (s.run ops) := by
  induction ops generalizing og s with
  | nil => exact ⟨og, rfl, h⟩
  | cons op ops ih =>
    obtain ⟨og', hstep, h'⟩ := step_spec h hroom.1
    obtain ⟨og'', hrun, h''⟩ := ih h' (hroom.2 og' hstep)
    refine ⟨og'', ?_, h''⟩
    rw [Globals.run, hstep]
    exact hrun

theorem simulates_activate (noHeaders : Bool) : Simulates (activate noHeaders) {} :=
  ⟨[], ⟨rfl, by simp, rfl, by simp [activate]⟩, .nil, rfl⟩

theorem map_text_of_represents {ls : List Level} (h : List.Forall₂ Represents bs ls)
    : bs.map ObBuffer.text = ls.map Level.text := by
  induction h with
  | nil => rfl
  | cons hb _ ih => rw [List.map_cons, List.map_cons, hb.text, ih]

theorem fits_of_represents {ls : List Level} (h : List.Forall₂ Represents bs ls)
    : ∀ b ∈ bs, b.textLength ≤ b.size := by
  induction h with
  | nil => simp
  | cons hb _ ih =>
    intro b hmem
    rcases List.mem_cons.mp hmem with rfl | hmem
    · exact hb.fits
    · exact ih b hmem

/-- As long as there is room, whatever the operations, the SAPI is handed the bytes that the stack of
strings gives out, and the buffers hold its levels. -/
theorem output_layer_is_a_stack (noHeaders : Bool) {ops : List Op}
    (hroom : RunHasRoom (activate noHeaders) ops) {reached : List Op} (hreached : reached <+: ops) :
    ∃ og, (activate noHeaders).run reached = .ok og ∧
      og.out = (Stack.run {} reached).out ∧
      og.buffers.map ObBuffer.text = (Stack.run {} reached).levels.map Level.text ∧
      og.obNestingLevel = (Stack.run {} reached).levels.length ∧
      (og.phpBodyWrite = .b ↔ og.obNestingLevel ≠ 0) ∧
      ∀ b ∈ og.buffers, b.textLength ≤ b.size := by
  obtain ⟨rest, rfl⟩ := hreached
  obtain ⟨og, hrun, bs, hopen, hrep, hout⟩ :=
    run_spec (simulates_activate noHeaders) hroom.of_append
  have hpointer : og.phpBodyWrite = .b ↔ og.obNestingLevel ≠ 0 := by
    rw [hopen.pointer, hopen.nesting, ne_eq, ne_eq, List.length_eq_zero_iff]
  rw [← hopen.buffers_eq] at hrep
  refine ⟨og, hrun, hout, map_text_of_represents hrep, ?_, hpointer, fits_of_represents hrep⟩
  rw [hopen.nesting, ← hopen.buffers_eq, hrep.length_eq]

theorem ObBuffer.fits_of_le {n : Nat} (h : b.textLength + n ≤ b.size) (hsize : b.size < 2 ^ 32)
    : b.Fits n :=
  ⟨by omega, fun hlt => absurd hlt (by omega)⟩

/-- Three bytes in a buffer that is flushed into one of chunk size 2, which is flushed in turn. -/
theorem output_layer_is_a_stack_nested : ∃ og,
    (activate false).run [.start 2, .start 0, .write ⟨[97, 98, 99], by decide⟩, .flush] = .ok og ∧
      og.out = [97, 98, 99] ∧ og.buffers.map ObBuffer.text = [[], []] ∧ og.obNestingLevel = 2 := by
  have hroom : RunHasRoom (activate false)
      [.start 2, .start 0, .write ⟨[97, 98, 99], by decide⟩, .flush] := by
    refine ⟨trivial, fun og₁ hstart => ?_⟩
    injection hstart with hstart
    subst hstart
    refine ⟨trivial, fun og₂ hinner => ?_⟩
    injection hinner with hinner
    subst hinner
    refine ⟨⟨ObBuffer.fits_of_le (by decide) (by decide), fun h => absurd rfl h⟩,
      fun og₃ hwrite => ?_⟩
    injection hwrite with hwrite
    subst hwrite
    exact ⟨⟨ObBuffer.fits_of_le (by decide) (by decide), fun _ _ => trivial⟩, fun _ _ => trivial⟩
  obtain ⟨og, hrun, hout, htexts, hlevel, -⟩ :=
    output_layer_is_a_stack false hroom List.prefix_rfl
  exact ⟨og, hrun, hout, htexts, hlevel⟩

theorem grow_eq_none {blockSize newLen : Nat} (hblock : 2 ^ 11 ∣ blockSize)
    (hlen : 2 ^ 32 - 2 ^ 11 ≤ newLen) (fuel : Nat) {size : Nat} (hsize : 2 ^ 11 ∣ size)
    (hlt : size < 2 ^ 32) : grow blockSize newLen fuel size = none := by
  induction fuel generalizing size with
  | zero => rfl
  | succ fuel ih =>
    rw [grow, if_pos (by omega)]
    have hnext : 2 ^ 11 ∣ uint (size + blockSize) := by
      rw [uint]
      omega
    exact ih hnext (uint_lt _)

theorem phpObAllocate_endless {n : Nat} (hsize : 2 ^ 11 ∣ b.size) (hblock : 2 ^ 11 ∣ b.blockSize)
    (hlt : b.textLength + n < 2 ^ 32) (hlen : 2 ^ 32 - 2 ^ 11 ≤ b.textLength + n)
    (hgrow : b.size < b.textLength + n) :
    phpObAllocate b n = .error .endless := by
  rw [phpObAllocate, uint_of_lt hlt]
  simp only [if_pos hgrow]
  rw [grow_eq_none hblock hlen _ hsize (by omega)]

/-- A buffer as `php_start_ob_buffer` makes it for chunk size zero. -/
def unchunked : ObBuffer :=
  { blockSize := 10 * 1024, size := 40 * 1024, capacity := 40 * 1024 + 1 }

def half (bytes : List UInt8) : ObBuffer :=
  { unchunked with
    buffer := bytes
    textLength := 2 ^ 31 - 1
    size := 40 * 1024 + 209712 * (10 * 1024)
    capacity := 40 * 1024 + 209712 * (10 * 1024) + 1 }

theorem phpObAppend_half {bytes : List UInt8} (h : bytes.length = 2 ^ 31 - 1) :
    phpObAppend unchunked bytes = .ok (half bytes) := by
  have hsize : unchunked.size = 40 * 1024 := rfl
  have hblock : unchunked.blockSize = 10 * 1024 := rfl
  have hempty : unchunked.textLength = 0 := rfl
  have hlast : uint (unchunked.size + 209712 * unchunked.blockSize) =
      40 * 1024 + 209712 * (10 * 1024) := by
    rw [hsize, hblock]
    exact uint_of_lt (by decide)
  have hgrow : grow unchunked.blockSize (unchunked.textLength + (2 ^ 31 - 1)) (2 ^ 32 + 1)
      unchunked.size = some (40 * 1024 + 209712 * (10 * 1024)) := by
    rw [← hlast]
    refine grow_of_fits (by rw [hsize]; decide) (by rw [hlast, hempty]; decide) fun j hj => ?_
    rw [hsize, hblock, hempty, uint_of_lt (by omega)]
    omega
  have halloc := phpObAllocate_grow (b := unchunked) (n := 2 ^ 31 - 1) (by decide) (by decide)
    hgrow
  rw [phpObAppend, h, halloc]
  dsimp only [bind, Except.bind]
  rw [if_pos (by decide), uint_of_lt (by decide)]
  rfl

theorem phpObAppend_half_endless {bytes : List UInt8} (h : bytes.length = 2 ^ 31 - 1) :
    phpObAppend (half bytes) bytes = .error .endless := by
  have halloc : phpObAllocate (half bytes) (2 ^ 31 - 1) = .error .endless := by
    apply phpObAllocate_endless
    · show 2 ^ 11 ∣ 40 * 1024 + 209712 * (10 * 1024)
      omega
    · show 2 ^ 11 ∣ 10 * 1024
      omega
    · show 2 ^ 31 - 1 + (2 ^ 31 - 1) < 2 ^ 32
      omega
    · show 2 ^ 32 - 2 ^ 11 ≤ 2 ^ 31 - 1 + (2 ^ 31 - 1)
      omega
    · show 40 * 1024 + 209712 * (10 * 1024) < 2 ^ 31 - 1 + (2 ^ 31 - 1)
      omega
  rw [phpObAppend, h, halloc]
  rfl

theorem run_endless {str : Text} (h : str.bytes.length = 2 ^ 31 - 1) (noHeaders : Bool) :
    (activate noHeaders).run [.start 0, .write str, .write str] = .error .endless := by
  have hstart : Op.step (.start 0) (activate noHeaders) = .ok { activate noHeaders with
      obNestingLevel := 1, activeObBuffer := unchunked, phpBodyWrite := .b } := rfl
  have hfirst : Op.step (.write str) { activate noHeaders with
      obNestingLevel := 1, activeObBuffer := unchunked, phpBodyWrite := .b } =
        .ok { activate noHeaders with
          obNestingLevel := 1, activeObBuffer := half str.bytes, phpBodyWrite := .b } := by
    rw [Op.step, Globals.write, bodyWrite_buffer rfl (phpObAppend_half h)]
    rfl
  have hsecond : Op.step (.write str) { activate noHeaders with
      obNestingLevel := 1, activeObBuffer := half str.bytes, phpBodyWrite := .b } =
        .error .endless := by
    rw [Op.step, Globals.write, bodyWrite]
    simp only [phpObAppend_half_endless h]
    rfl
  rw [Globals.run, hstart]
  dsimp only [bind, Except.bind]
  rw [Globals.run, hfirst]
  dsimp only [bind, Except.bind]
  rw [Globals.run, hsecond]
  rfl

def longest : Text := ⟨List.replicate (2 ^ 31 - 1) 0, by rw [List.length_replicate]; decide⟩

/-- Written twice to a buffer, it is all on the level of the stack, and the code does not return. -/
theorem output_layer_does_not_return :
    (activate false).run [.start 0, .write longest, .write longest] = .error .endless ∧
      (Stack.run {} [.start 0, .write longest, .write longest]).levels.map Level.text =
        [longest.bytes ++ longest.bytes] := by
  refine ⟨run_endless List.length_replicate false, ?_⟩
  simp [Stack.run, Stack.step, Stack.start, Stack.write, writeLevels, effectiveChunkSize]

end Php53.Output
