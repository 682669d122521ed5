import Mathlib.Algebra.GroupWithZero.Nat
import Mathlib.Algebra.Group.Int.Defs

/-!
# Buffers — the output layer

The buffer of the innermost level lives outside of the stack, in `active_ob_buffer`; the stack
holds the buffers of the levels around it and exists from the second level on.  `php_body_write`
points at the function that takes what is written.  There are no handlers here, and output is not
disabled.
-/

namespace Php53.Output

/-- A value of C's `uint`. -/
def uint (n : Nat) : Nat := n % 2 ^ 32

/-- A string with a length that can be passed. -/
structure Text where
  bytes : List UInt8
  short : bytes.length < 2 ^ 32

/-- `php_ob_buffer`: `buffer` are the bytes that have been written, `capacity` is the size of the
allocated block. -/
structure ObBuffer where
  buffer : List UInt8 := []
  capacity : Nat := 0
  size : Nat := 0
  textLength : Nat := 0
  blockSize : Nat := 0
  chunkSize : Nat := 0

/-- What `php_body_write` points at. -/
inductive BodyWrite where
  | ub
  | ubNoHeader
  | b
  deriving DecidableEq, Repr

structure Globals where
  phpBodyWrite : BodyWrite := .ub
  obNestingLevel : Nat := 0
  activeObBuffer : ObBuffer := {}
  /-- None before `zend_stack_init` and after `zend_stack_destroy`. -/
  obBuffers : Option (List ObBuffer) := none
  headersSent : Bool := false
  /-- The request has no headers to send. -/
  noHeaders : Bool := false
  /-- The bytes handed to the SAPI. -/
  out : List UInt8 := []

inductive Fault where
  /-- The loop in `php_ob_allocate` comes around to a size that it has been at. -/
  | endless
  | outOfBounds
  | noStack
  | outOfFuel
  deriving DecidableEq, Repr

def ObBuffer.text (b : ObBuffer) : List UInt8 := b.buffer.take b.textLength

/-- `while (buf_size <= new_len) { buf_size += block_size; }` -/
def grow (blockSize newLen : Nat) : Nat → Nat → Option Nat
  | 0, _ => none
  | fuel + 1, bufSize =>
    if bufSize ≤ newLen then grow blockSize newLen fuel (uint (bufSize + blockSize))
    else some bufSize

/-- `php_ob_allocate`.  The sizes repeat after at most `2^32` rounds. -/
def phpObAllocate (b : ObBuffer) (textLength : Nat) : Except Fault ObBuffer :=
  let newLen := uint (b.textLength + textLength)
  if b.size < newLen then
    match grow b.blockSize newLen (2 ^ 32 + 1) b.size with
    | none => .error .endless
    | some bufSize =>
      .ok { b with capacity := uint (bufSize + 1), size := bufSize, textLength := newLen }
  else .ok { b with textLength := newLen }

/-- What `php_ob_append` writes, a NUL behind the text included. -/
def phpObAppend (b : ObBuffer) (text : List UInt8) : Except Fault ObBuffer := do
  let originalObTextLength := b.textLength
  let b ← phpObAllocate b text.length
  if originalObTextLength + text.length + 1 ≤ b.capacity then
    return { b with buffer := b.buffer.take originalObTextLength ++ text }
  else .error .outOfBounds

def phpUbBodyWriteNoHeader (og : Globals) (str : List UInt8) : Globals :=
  { og with out := og.out ++ str }

/-- `php_ub_body_write`: the headers are sent first, if there are any. -/
def phpUbBodyWrite (og : Globals) (str : List UInt8) : Globals :=
  phpUbBodyWriteNoHeader
    { og with headersSent := og.headersSent || !og.noHeaders, phpBodyWrite := .ubNoHeader } str

/-- `zend_stack_top` and `zend_stack_del_top`, and `zend_stack_destroy` if told so: the previous
buffer becomes the active one. -/
def restorePrevious (destroy : Bool) (og : Globals) : Except Fault Globals :=
  match og.obBuffers with
  | some (b :: bs) =>
    .ok { og with activeObBuffer := b, obBuffers := if destroy then none else some bs }
  | _ => .error .noStack

/-- `zend_stack_push` of the active buffer. -/
def pushActive (og : Globals) : Except Fault Globals :=
  match og.obBuffers with
  | some bs => .ok { og with obBuffers := some (og.activeObBuffer :: bs) }
  | none => .error .noStack

def leaveLevel (justFlush : Bool) (og : Globals) : Except Fault Globals :=
  let below := { og with obNestingLevel := og.obNestingLevel - 1 }
  if og.obNestingLevel = 1 then
    .ok { below with phpBodyWrite := if og.headersSent then .ubNoHeader else .ub }
  else restorePrevious (!justFlush && og.obNestingLevel == 2) below

def Globals.resume (og : Globals) : Globals :=
  { og with
    obNestingLevel := og.obNestingLevel + 1
    activeObBuffer := { og.activeObBuffer with textLength := 0 }
    phpBodyWrite := .b }

def returnToCurrent (nested : Bool) (origObBuffer : ObBuffer) (og : Globals) :
    Except Fault Globals :=
  if nested then
    (pushActive og).map fun og => { og with activeObBuffer := origObBuffer }.resume
  else .ok og.resume

/-- `php_end_ob_buffer`, with the function that it writes with. -/
def phpEndObBuffer (write : Globals → List UInt8 → Except Fault Globals)
    (sendBuffer justFlush : Bool) (og : Globals) : Except Fault Globals :=
  if og.obNestingLevel = 0 then .ok og
  else do
    let finalBuffer := og.activeObBuffer.text
    let below ← leaveLevel justFlush og
    let sent ← (if sendBuffer then write below finalBuffer else .ok below)
    if justFlush then returnToCurrent (og.obNestingLevel > 1) og.activeObBuffer sent
    else return sent

/-- `php_body_write`.  A buffer that has reached its chunk size is flushed, which writes to the level
below. -/
def bodyWrite : Nat → Globals → List UInt8 → Except Fault Globals
  | 0, _, _ => .error .outOfFuel
  | fuel + 1, og, str =>
    match og.phpBodyWrite with
    | .ub => .ok (phpUbBodyWrite og str)
    | .ubNoHeader => .ok (phpUbBodyWriteNoHeader og str)
    | .b => do
      let b ← phpObAppend og.activeObBuffer str
      let og := { og with activeObBuffer := b }
      if b.chunkSize ≠ 0 ∧ b.textLength ≥ b.chunkSize then
        phpEndObBuffer (bodyWrite fuel) true true og
      else return og

def Globals.write (og : Globals) (str : List UInt8) : Except Fault Globals :=
  bodyWrite (og.obNestingLevel + 1) og str

def Globals.endBuffer (og : Globals) (sendBuffer justFlush : Bool) : Except Fault Globals :=
  phpEndObBuffer (bodyWrite (og.obNestingLevel + 1)) sendBuffer justFlush og

/-- `php_ob_init_named`, without a handler. -/
def phpObInitNamed (initialSize blockSize chunkSize : Nat) (og : Globals) :
    Except Fault Globals := do
  let tmpBuf : ObBuffer := {
    blockSize := blockSize
    size := initialSize
    capacity := uint (initialSize + 1)
    chunkSize := chunkSize }
  let og := if og.obNestingLevel = 1 then { og with obBuffers := some [] } else og
  let og ← if og.obNestingLevel > 0 then pushActive og else .ok og
  return { og with
    obNestingLevel := og.obNestingLevel + 1
    activeObBuffer := tmpBuf
    phpBodyWrite := .b }

def effectiveChunkSize (chunkSize : UInt32) : Nat :=
  if chunkSize = 1 then 4096 else chunkSize.toNat

def phpStartObBuffer (chunkSize : UInt32) (og : Globals) : Except Fault Globals :=
  if chunkSize > 0 then
    let chunkSize := effectiveChunkSize chunkSize
    phpObInitNamed (uint (chunkSize * 3) / 2) (chunkSize / 2) chunkSize og
  else phpObInitNamed (40 * 1024) (10 * 1024) 0 og

def phpEndObBuffers (sendBuffer : Bool) : Nat → Globals → Except Fault Globals
  | 0, _ => .error .outOfFuel
  | fuel + 1, og =>
    if og.obNestingLevel ≠ 0 then do
      let og ← og.endBuffer sendBuffer false
      phpEndObBuffers sendBuffer fuel og
    else .ok og

inductive Op where
  | start (chunkSize : UInt32)
  | write (str : Text)
  | flush
  | clean
  | finish (sendBuffer : Bool)
  | finishAll (sendBuffer : Bool)

def Op.step : Op → Globals → Except Fault Globals
  | .start chunkSize, og => phpStartObBuffer chunkSize og
  | .write str, og => og.write str.bytes
  | .flush, og => og.endBuffer true true
  | .clean, og => og.endBuffer false true
  | .finish sendBuffer, og => og.endBuffer sendBuffer false
  | .finishAll sendBuffer, og => phpEndObBuffers sendBuffer (og.obNestingLevel + 1) og

def Globals.run (og : Globals) : List Op → Except Fault Globals
  | [] => .ok og
  | op :: ops => do
    let og ← op.step og
    og.run ops

/-- `php_output_activate`, for a request that has headers to send or none. -/
def activate (noHeaders : Bool) : Globals := { noHeaders := noHeaders }

end Php53.Output
