import Php53.Dba.FlatFile
import Php53.Reasoning.ByteArea

/-!
# Unpack — `unpack`

An `int` has 32 bits and wraps around, a `long` has 64, and the machine is little-endian.  A step has
no result where a byte outside of the input would be read.
-/

open Reasoning

namespace Php53.Standard.Unpack

open Zend

def intMax : Int := 2 ^ 31 - 1

/-- An `int` that wraps around. -/
def wrapInt (x : Int) : Int := (BitVec.ofInt 32 x).toInt

/-- An element of the result; the bytes of a `float` and of a `double` are taken as they are. -/
inductive Element where
  | string (s : List UInt8)
  | long (v : BitVec 64)
  | float (bytes : List UInt8)
  | double (bytes : List UInt8)

/-- What a type of the format does with the input. -/
inductive Kind where
  /-- `X` -/
  | back
  /-- `@` -/
  | position
  /-- `a` and `A` -/
  | string (pad : UInt8)
  /-- `h` and `H` -/
  | hex (nibbleshift : Nat)
  /-- `x`, and the types of a fixed size -/
  | fixed (value : Option (List UInt8 → Element))

/-- `php_unpack`, with the bytes in the order of the machine or in the other one. -/
def phpUnpack (data : List UInt8) (issigned big : Bool) : BitVec 64 :=
  let result : BitVec 64 := if issigned then -1 <<< (8 * data.length) else 0
  result ||| BitVec.ofNat 64 (ofLittleEndian (if big then data.reverse else data))

/-- `issigned`, from the byte that has the sign. -/
def signBit (data : List UInt8) (big : Bool) : Bool :=
  (if big then data.head? else data.getLast?).any (128 ≤ ·)

/-- `c`, `C`, `s`, `S`, `n`, `v`, `i` and `I` -/
def unpackNumber (signed big : Bool) (data : List UInt8) : Element :=
  .long (phpUnpack data (signed && signBit data big) big)

/-- `l`, `L`, `N` and `V` -/
def unpackLong (signed big : Bool) (data : List UInt8) : Element :=
  let issigned := signBit data big
  let v := (if issigned then BitVec.ofInt 64 (-2 ^ 31) else 0) ||| phpUnpack data issigned big
  .long (if signed then (v.setWidth 32).signExtend 64 else (v.setWidth 32).setWidth 64)

/-- The types with a size of their own. -/
def fixedTypes : List (UInt8 × Int × Option (List UInt8 → Element)) :=
  [(ch 'c', 1, some (unpackNumber true false)), (ch 'C', 1, some (unpackNumber false false)),
    (ch 'x', 1, none), (ch 's', 2, some (unpackNumber true false)),
    (ch 'S', 2, some (unpackNumber false false)), (ch 'n', 2, some (unpackNumber false true)),
    (ch 'v', 2, some (unpackNumber false false)), (ch 'i', 4, some (unpackNumber true false)),
    (ch 'I', 4, some (unpackNumber false false)), (ch 'l', 4, some (unpackLong true false)),
    (ch 'L', 4, some (unpackLong false false)), (ch 'N', 4, some (unpackLong false true)),
    (ch 'V', 4, some (unpackLong false false)), (ch 'f', 4, some Element.float),
    (ch 'd', 8, some Element.double)]

/-- A code of the format, with `argb`, and `arg` as it is when the loop begins. -/
structure Code where
  kind : Kind
  size : Int
  arg : Int
  argb : Int
  name : List UInt8

/-- `size = (arg > 0) ? (arg + (arg % 2)) / 2 : arg` -/
def hexSize (arg : Int) : Int :=
  if 0 < arg then (wrapInt (arg + arg.tmod 2)).tdiv 2 else arg

/-- `switch ((int) type)`, none for an invalid type. -/
def codeOf (type : UInt8) (arg : Int) (name : List UInt8) : Option Code :=
  if type = ch 'X' then some ⟨.back, -1, arg, arg, name⟩
  else if type = ch '@' then some ⟨.position, 0, arg, arg, name⟩
  else if type = ch 'a' then some ⟨.string 0, arg, 1, arg, name⟩
  else if type = ch 'A' then some ⟨.string (ch ' '), arg, 1, arg, name⟩
  else if type = ch 'h' then some ⟨.hex 0, hexSize arg, 1, arg, name⟩
  else if type = ch 'H' then some ⟨.hex 4, hexSize arg, 1, arg, name⟩
  else (fixedTypes.find? (·.1 = type)).map fun t => ⟨.fixed t.2.2, t.2.1, arg, arg, name⟩

def repeatArg (format : List UInt8) : Int × List UInt8 :=
  match format with
  | [] => (1, [])
  | c :: rest =>
    if isDigit c then (Dba.atoi format, format.dropWhile isDigit)
    else if c = ch '*' then (-1, rest)
    else (1, format)

def codesLoop : Nat → List UInt8 → List (Option Code)
  | 0, _ => []
  | _, [] => []
  | fuel + 1, type :: format =>
    let (arg, format) := repeatArg format
    let name := format.takeWhile (· ≠ ch '/')
    codeOf type arg (name.take 200) :: codesLoop fuel (format.drop (name.length + 1))

def codes (format : List UInt8) : List (Option Code) := codesLoop format.length format

/-- `inputarg`, whose length is an `int`. -/
structure Input where
  bytes : List UInt8
  fits : bytes.length ≤ intMax

/-- What comes of one round: the next position and counter, or the end of the loop. -/
inductive Round where
  | next (inputpos i : Int) (value : Option Element)
  | endOfInput (inputpos : Int)
  | failed
  | bailout

/-- `inputpos += size`, with what follows it. -/
def advance (inputpos size i : Int) (value : Option Element) : Option Round :=
  let inputpos := wrapInt (inputpos + size)
  some (.next (if inputpos < 0 then 0 else inputpos) i value)

/-- `len` of `h` and `H`. -/
def hexLength (inputlen inputpos size argb : Int) : Int :=
  let len := wrapInt ((inputlen - inputpos) * 2)
  let len := if 0 ≤ size ∧ wrapInt (size * 2) < len then wrapInt (size * 2) else len
  if 0 < argb then wrapInt (len - argb.tmod 2) else len

def hexDigit (nibble : UInt8) : UInt8 :=
  if nibble < 10 then nibble + ch '0' else nibble + (ch 'a' - 10)

def nibbles (nibbleshift : Nat) (b : UInt8) : List UInt8 :=
  if nibbleshift = 0 then [hexDigit (b &&& 15), hexDigit (b >>> 4)]
  else [hexDigit (b >>> 4), hexDigit (b &&& 15)]

def overflowCheck (size inputpos : Int) : Int :=
  if size ≠ 0 ∧ size ≠ -1 ∧ wrapInt (wrapInt (intMax - size) + 1) < inputpos then 0 else inputpos

/-- The inner switch.  There is no memory for a negative length, and -1 is copied as `UINT_MAX`. -/
def switchKind (input : List UInt8) (c : Code) (inputpos i : Int) : Option Round :=
  match c.kind with
  | .back =>
    if inputpos < c.size then advance (-c.size) c.size (wrapInt (c.arg - 1)) none
    else advance inputpos c.size i none
  | .position =>
    advance (if c.arg ≤ input.length then c.arg else inputpos) c.size (wrapInt (c.arg - 1)) none
  | .string pad =>
    let len := input.length - inputpos
    let len := if 0 ≤ c.size ∧ c.size < len then c.size else len
    (loadAt input inputpos len).bind fun bs =>
      advance inputpos len i (some (.string (bs.reverse.dropWhile (· = pad)).reverse))
  | .hex nibbleshift =>
    let len := hexLength input.length inputpos c.size c.argb
    if wrapInt (len + 1) < 0 then some .bailout
    else if len < 0 then none
    else
      (loadAt input inputpos ((len + 1) / 2)).bind fun bs =>
        advance inputpos c.size i
          (some (.string ((bs.flatMap (nibbles nibbleshift)).take len.toNat)))
  | .fixed none => advance inputpos c.size i none
  | .fixed (some value) =>
    (loadAt input inputpos c.size).bind fun bs => advance inputpos c.size i (some (value bs))

def round (input : List UInt8) (c : Code) (inputpos i : Int) : Option Round :=
  let inputpos := overflowCheck c.size inputpos
  if wrapInt (inputpos + c.size) ≤ input.length then switchKind input c inputpos i
  else if c.arg < 0 then some (.endOfInput inputpos)
  else some .failed

/-- `n` -/
def elementName (c : Code) (i : Int) : List UInt8 :=
  if c.arg ≠ 1 ∨ c.name = [] then
    c.name.takeWhile (· ≠ 0) ++ printLong (BitVec.ofInt 64 (wrapInt (i + 1)))
  else c.name.takeWhile (· ≠ 0)

structure LoopState where
  inputpos : Int
  i : Int
  rounds : Nat
  values : List (List UInt8 × Element)

inductive Ending where
  | done
  | failed
  | bailout

/-- `for (i = 0; i != arg; i++)`, with the number of its rounds. -/
def loop (input : List UInt8) (c : Code) : Nat → LoopState → Option (LoopState × Ending)
  | 0, _ => none
  | fuel + 1, s =>
    if s.i = c.arg then some (s, .done)
    else
      (round input c s.inputpos s.i).bind fun
        | .next inputpos i value =>
          loop input c fuel {
            inputpos
            i := wrapInt (i + 1)
            rounds := s.rounds + 1
            values := s.values ++ (value.map fun v => (elementName c s.i, v)).toList }
        | .endOfInput inputpos => some ({ s with inputpos, rounds := s.rounds + 1 }, .done)
        | .failed => some ({ s with rounds := s.rounds + 1 }, .failed)
        | .bailout => some ({ s with rounds := s.rounds + 1 }, .bailout)

/-- A code from a position of the input on; the counter has come round after `2 ^ 32` rounds. -/
def unpackCode (input : List UInt8) (c : Code) (inputpos : Int) : Option (LoopState × Ending) :=
  loop input c (2 ^ 32) { inputpos, i := 0, rounds := 0, values := [] }

/-- What `unpack` returns: the elements, or `FALSE`. -/
def unpackLoop (input : List UInt8) : List (Option Code) → Int → List (List UInt8 × Element) →
    Option (Option (List (List UInt8 × Element)))
  | [], _, values => some (some values)
  | none :: _, _, _ => some none
  | some c :: cs, inputpos, values =>
    (unpackCode input c inputpos).bind fun (s, ending) => match ending with
      | .done => unpackLoop input cs s.inputpos (values ++ s.values)
      | .failed => some none
      | .bailout => some none

def unpack (format : List UInt8) (input : Input) : Option (Option (List (List UInt8 × Element))) :=
  unpackLoop input.bytes (codes format) 0 []

end Php53.Standard.Unpack
