import Php53.Output.Buffers

/-!
# Levels — what the output layer is for

Every level is a string.  A write goes to the top level; a level that reaches its chunk size is
moved as a whole to the next one below.
-/

namespace Php53.Output

structure Level where
  /-- Zero for a level that is not moved by itself. -/
  chunkSize : Nat
  text : List UInt8

/-- The open levels, the top one first, and what has been handed to the SAPI. -/
structure Stack where
  levels : List Level := []
  out : List UInt8 := []

/-- A write to the top one of some levels. -/
def writeLevels : List Level → List UInt8 → List UInt8 → Stack
  | [], out, str => ⟨[], out ++ str⟩
  | l :: ls, out, str =>
    let text := l.text ++ str
    if l.chunkSize ≠ 0 ∧ text.length ≥ l.chunkSize then
      let below := writeLevels ls out text
      ⟨{ l with text := [] } :: below.levels, below.out⟩
    else ⟨{ l with text := text } :: ls, out⟩

namespace Stack

def write (s : Stack) (str : List UInt8) : Stack := writeLevels s.levels s.out str

def start (s : Stack) (chunkSize : Nat) : Stack :=
  { s with levels := ⟨chunkSize, []⟩ :: s.levels }

def flush (s : Stack) : Stack :=
  match s.levels with
  | [] => s
  | l :: ls =>
    let below := writeLevels ls s.out l.text
    { below with levels := { l with text := [] } :: below.levels }

def clean (s : Stack) : Stack :=
  match s.levels with
  | [] => s
  | l :: ls => { s with levels := { l with text := [] } :: ls }

def finish (s : Stack) (sendBuffer : Bool) : Stack :=
  match s.levels with
  | [] => s
  | l :: ls => if sendBuffer then writeLevels ls s.out l.text else { s with levels := ls }

def finishTimes (sendBuffer : Bool) : Nat → Stack → Stack
  | 0, s => s
  | n + 1, s => finishTimes sendBuffer n (s.finish sendBuffer)

def finishAll (s : Stack) (sendBuffer : Bool) : Stack :=
  finishTimes sendBuffer s.levels.length s

def step (s : Stack) : Op → Stack
  | .start chunkSize => s.start (effectiveChunkSize chunkSize)
  | .write str => s.write str.bytes
  | .flush => s.flush
  | .clean => s.clean
  | .finish sendBuffer => s.finish sendBuffer
  | .finishAll sendBuffer => s.finishAll sendBuffer

def run (s : Stack) (ops : List Op) : Stack := ops.foldl step s

end Stack

def Stack.bytes (s : Stack) : List UInt8 := s.out ++ (s.levels.reverse.flatMap Level.text)

end Php53.Output
