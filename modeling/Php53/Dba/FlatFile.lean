import Php53.Streams.Stream
import Php53.Zend.Decimal

/-!
# FlatFile — the database of `libflatfile`

A record is the length of the key as a line of text, the key, the length of the value as a line and
the value.  A record is deleted by writing a NUL over the first byte of its key.  The stream is the
file with a position; writes succeed.
-/

namespace Php53.Dba

open Zend

structure Stream where
  bytes : List UInt8
  pos : Nat
  deriving DecidableEq, Repr

/-- The bytes up to the first line feed and with it, at most `n`. -/
def takeLine : Nat → List UInt8 → List UInt8
  | 0, _ => []
  | _, [] => []
  | n + 1, c :: cs => if c = 10 then [c] else c :: takeLine n cs

namespace Stream

def rest (f : Stream) : List UInt8 := f.bytes.drop f.pos

def rewind (f : Stream) : Stream := { f with pos := 0 }

def seek (f : Stream) (pos : Nat) : Stream := { f with pos := pos }

def seekEnd (f : Stream) : Stream := { f with pos := f.bytes.length }

def eof (seen : Stream → Bool) (f : Stream) : Bool := f.rest.isEmpty && seen f

/-- `php_stream_gets`, none for `NULL`. -/
def gets (f : Stream) (maxlen : Nat) : Option (List UInt8 × Stream) :=
  let line := takeLine (maxlen - 1) f.rest
  if line = [] then none else some (line, { f with pos := f.pos + line.length })

def read (f : Stream) (size : Nat) : List UInt8 × Stream :=
  let data := f.rest.take size
  (data, { f with pos := f.pos + data.length })

def write (f : Stream) (data : List UInt8) : Stream :=
  { bytes := Streams.overlay f.bytes f.pos data, pos := f.pos + data.length }

end Stream

/-- `(int) strtol(s, NULL, 10)`, on a NUL-terminated text without leading space. -/
def atoi (s : List UInt8) : Int :=
  let neg := s.head? = some (ch '-')
  let n : Int := digitsNat ((if neg then s.tail else s).takeWhile isDigit)
  (BitVec.ofInt 32 (if neg then max (-2 ^ 63) (-n) else min (2 ^ 63 - 1) n)).toInt

/-- `num = atoi(buf)`, as a `size_t`. -/
def sizeOfLine (line : List UInt8) : Nat := (BitVec.ofInt 64 (atoi line)).toNat

/-- `"%zu\n"` -/
def lengthLine (size : Nat) : List UInt8 := (reversedDigits 20 size).reverse ++ [10]

/-- A length and as many bytes, which the source reads into `buf`. -/
structure Field where
  line : List UInt8
  /-- Where the bytes begin. -/
  start : Nat
  data : List UInt8
  after : Stream

def readField (f : Stream) : Option Field :=
  (f.gets 15).map fun (line, f) =>
    let (data, after) := f.read (sizeOfLine line)
    ⟨line, f.pos, data, after⟩

/-- `*(buf)`: no bytes leave the line in the buffer. -/
def Field.firstByte (x : Field) : UInt8 := (x.data ++ x.line).headD 0

section Scan

variable (seen : Stream → Bool)

/-- The loop over the records from the start of one on, up to a key that is looked for: its field,
or none where the loop ends.  Without enough `fuel` the outcome is unknown. -/
def scanKeys (found : Field → Bool) : Nat → Stream → Option (Except Stream Field)
  | 0, _ => none
  | fuel + 1, f =>
    if f.eof seen then some (.error f)
    else
      match readField f with
      | none => some (.error f)
      | some key =>
        if found key then some (.ok key)
        else
          match readField key.after with
          | none => some (.error key.after)
          | some value => scanKeys found fuel value.after

/-- The loop of `flatfile_nextkey`, from the start of a value on. -/
def scanValues (found : Field → Bool) : Nat → Stream → Option (Except Stream Field)
  | 0, _ => none
  | fuel + 1, f =>
    if f.eof seen then some (.error f)
    else
      match readField f with
      | none => some (.error f)
      | some value =>
        match readField value.after with
        | none => some (.error value.after)
        | some key => if found key then some (.ok key) else scanValues found fuel key.after

def Stream.fuel (f : Stream) : Nat := f.bytes.length + 1

def sameKey (key : List UInt8) (x : Field) : Bool := x.data = key

end Scan

structure FlatFile where
  fp : Stream
  currentFlatFilePos : Nat
  deriving DecidableEq, Repr

inductive StoreMode where
  | insert
  | replace
  deriving DecidableEq, Repr

section Operations

variable (seen : Stream → Bool)

def flatfileFindkey (dba : FlatFile) (key : List UInt8) : Option (Bool × FlatFile) :=
  (scanKeys seen (sameKey key) dba.fp.fuel dba.fp.rewind).map fun
    | .ok x => (true, { dba with fp := x.after })
    | .error f => (false, { dba with fp := f })

/-- Whether it is `SUCCESS`. -/
def flatfileDelete (dba : FlatFile) (key : List UInt8) : Option (Bool × FlatFile) :=
  (scanKeys seen (sameKey key) dba.fp.fuel dba.fp.rewind).map fun
    | .ok x => (true, { dba with fp := ((x.after.seek x.start).write [0]).seekEnd })
    | .error f => (false, { dba with fp := f })

def Stream.writeField (f : Stream) (data : List UInt8) : Stream :=
  (f.write (lengthLine data.length)).write data

/-- What it returns: `0`, or `1` for a key that exists. -/
def flatfileStore (dba : FlatFile) (key value : List UInt8) (mode : StoreMode) :
    Option (Int × FlatFile) :=
  match mode with
  | .insert => do
    let (found, dba) ← flatfileFindkey seen dba key
    if found then return (1, dba)
    else return (0, { dba with fp := (dba.fp.seekEnd.writeField key).writeField value })
  | .replace => do
    let (_, dba) ← flatfileDelete seen dba key
    return (0, { dba with fp := (dba.fp.writeField key).writeField value })

/-- `value_datum`, none for a null pointer. -/
def flatfileFetch (dba : FlatFile) (key : List UInt8) : Option (Option (List UInt8) × FlatFile) := do
  let (found, dba) ← flatfileFindkey seen dba key
  if found then
    match dba.fp.gets 16 with
    | some (line, fp) =>
      let (data, fp) := fp.read (sizeOfLine line)
      return (some data, { dba with fp := fp })
    | none => return (none, dba)
  else return (none, dba)

def returnKey (dba : FlatFile) : Except Stream Field → Option (List UInt8) × FlatFile
  | .ok x => (some x.data, { fp := x.after, currentFlatFilePos := x.after.pos })
  | .error f => (none, { dba with fp := f })

def flatfileFirstkey (dba : FlatFile) : Option (Option (List UInt8) × FlatFile) :=
  (scanKeys seen (fun x => x.firstByte ≠ 0) dba.fp.fuel dba.fp.rewind).map (returnKey dba)

def flatfileNextkey (dba : FlatFile) : Option (Option (List UInt8) × FlatFile) :=
  (scanValues seen (fun x => x.firstByte ≠ 0) dba.fp.fuel
    (dba.fp.seek dba.currentFlatFilePos)).map (returnKey dba)

end Operations

inductive Op where
  | insert (key value : List UInt8)
  | replace (key value : List UInt8)
  | delete (key : List UInt8)
  | fetch (key : List UInt8)
  | exist (key : List UInt8)
  deriving DecidableEq, Repr

inductive Reply where
  /-- `SUCCESS` or `FAILURE` -/
  | status (success : Bool)
  | value (v : Option (List UInt8))
  deriving DecidableEq, Repr

/-- `dba_update`, `dba_delete`, `dba_fetch` and `dba_exists` of the handler. -/
def FlatFile.step (seen : Stream → Bool) (dba : FlatFile) : Op → Option (Reply × FlatFile)
  | .insert key value => do
    let (code, dba) ← flatfileStore seen dba key value .insert
    return (.status (code = 0), dba)
  | .replace key value => do
    let (code, dba) ← flatfileStore seen dba key value .replace
    return (.status (code = 0), dba)
  | .delete key => do
    let (success, dba) ← flatfileDelete seen dba key
    return (.status success, dba)
  | .fetch key => do
    let (v, dba) ← flatfileFetch seen dba key
    return (.value v, dba)
  | .exist key => do
    let (v, dba) ← flatfileFetch seen dba key
    return (.status v.isSome, dba)

def FlatFile.run (seen : Stream → Bool) : FlatFile → List Op → Option (List Reply × FlatFile)
  | dba, [] => some ([], dba)
  | dba, op :: ops => do
    let (reply, dba) ← dba.step seen op
    let (replies, dba) ← dba.run seen ops
    return (reply :: replies, dba)

/-- The keys that `flatfile_nextkey` returns until it returns none.  Not known within `n` calls, the
outcome is none. -/
def FlatFile.nextKeys (seen : Stream → Bool) : Nat → FlatFile → Option (List (List UInt8))
  | 0, _ => none
  | n + 1, dba => do
    match ← flatfileNextkey seen dba with
    | (none, _) => return []
    | (some key, dba) => return key :: (← dba.nextKeys seen n)

def FlatFile.keys (seen : Stream → Bool) (n : Nat) (dba : FlatFile) : Option (List (List UInt8)) := do
  match ← flatfileFirstkey seen dba with
  | (none, _) => return []
  | (some key, dba) => return key :: (← dba.nextKeys seen n)

def FlatFile.empty : FlatFile := ⟨⟨[], 0⟩, 0⟩

end Php53.Dba
