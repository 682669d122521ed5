import Php53.Zend.Decimal

/-!
# Serializers — the session serializers `php` and `php_binary`

What a session holds is encoded as one string, entry by entry, and decoded entry by entry again.
The serializer of values and the names that the decoders refuse are parameters.  The decoders work
on offsets into the string, and every read of a byte is checked.  `PS_ENCODE_LOOP` looks each key of
the session array up in that array, so it never comes to the branch for a variable without a value.
-/

namespace Php53.Session

open Zend

variable {V : Type}

/-- What the serializers use of the rest of PHP. -/
structure Codec (V : Type) where
  /-- `php_var_serialize` -/
  serialize : V → List UInt8
  /-- `php_var_unserialize` on the bytes up to the end: the value, none if it fails, and how far the
  pointer moves.  There is no result where it reads behind the end. -/
  unserialize : List UInt8 → Option (Option V × Nat)
  /-- The global variable of this name is the symbol table or the session array. -/
  refused : List UInt8 → Bool

/-- Values are read back from the bytes that were written, wherever the value ends. -/
structure Codec.Lawful (c : Codec V) : Prop where
  unserialize_serialize : ∀ v rest,
    c.unserialize (c.serialize v ++ rest) = some (some v, (c.serialize v).length)
  serialize_ne_nil : ∀ v, c.serialize v ≠ []

abbrev Entry (V : Type) := List UInt8 × Option V

def psDelimiter : UInt8 := ch '|'
def psUndefMarker : UInt8 := ch '!'
def psBinUndef : Nat := 128
def psBinMax : Nat := psBinUndef - 1

section Encode

variable (c : Codec V)

/-- `PS_SERIALIZER_ENCODE_FUNC(php)`, none for `FAILURE`. -/
def encodePhp : List (Entry V) → Option (List UInt8)
  | [] => some []
  | (key, some v) :: es =>
    if psDelimiter ∈ key ∨ psUndefMarker ∈ key then none
    else (encodePhp es).map fun rest => key ++ psDelimiter :: (c.serialize v ++ rest)
  | (key, none) :: es => (encodePhp es).map fun rest => psUndefMarker :: (key ++ psDelimiter :: rest)

/-- What `PS_SERIALIZER_ENCODE_FUNC(php_binary)` writes for an entry.  Entries with longer keys are
left out. -/
def encodeBinaryEntry : Entry V → List UInt8
  | (key, some v) =>
    if key.length > psBinMax then [] else .ofNat key.length :: (key ++ c.serialize v)
  | (key, none) =>
    if key.length > psBinMax then [] else .ofNat (key.length &&& psBinUndef) :: key

def encodeBinary (es : List (Entry V)) : List UInt8 := es.flatMap (encodeBinaryEntry c)

end Encode

inductive Outcome (V : Type) where
  | refused
  | value (v : V)
  | undefined

/-- A round of a decoder: where it starts, the name that it reads and what comes of it. -/
structure Round (V : Type) where
  offset : Nat
  name : List UInt8
  outcome : Outcome V

inductive Fault where
  | outOfBounds
  | outOfFuel
  deriving DecidableEq, Repr

/-- The end of a decoder, with what it returns, or a round and the pointer behind it. -/
inductive Next (V : Type) where
  | stop (success : Bool)
  | round (r : Round V) (p : Nat)

def readByte (val : List UInt8) (p : Nat) : Except Fault UInt8 :=
  (val[p]?).elim (.error .outOfBounds) .ok

/-- `estrndup(val + p, n)` -/
def slice (val : List UInt8) (p n : Nat) : Except Fault (List UInt8) :=
  if p + n ≤ val.length then .ok ((val.drop p).take n) else .error .outOfBounds

section Decode

variable (c : Codec V) (val : List UInt8)

def decodeName (offset : Nat) (name : List UInt8) (hasValue : Bool) (p : Nat) :
    Except Fault (Next V) :=
  if c.refused name then .ok (.round ⟨offset, name, .refused⟩ p)
  else if hasValue then
    match c.unserialize (val.drop p) with
    | some (some v, n) => .ok (.round ⟨offset, name, .value v⟩ (p + n))
    | some (none, n) => .ok (.round ⟨offset, name, .undefined⟩ (p + n))
    | none => .error .outOfBounds
  else .ok (.round ⟨offset, name, .undefined⟩ p)

/-- `while (*q != PS_DELIMITER) { if (++q >= endptr) goto break_outer_loop; }` -/
def findDelimiter : Nat → Nat → Except Fault (Option Nat)
  | 0, _ => .error .outOfFuel
  | fuel + 1, q => do
    if (← readByte val q) = psDelimiter then return some q
    else if q + 1 ≥ val.length then return none
    else findDelimiter fuel (q + 1)

/-- A round of `PS_SERIALIZER_DECODE_FUNC(php)`. -/
def phpRound (p : Nat) : Except Fault (Next V) := do
  match ← findDelimiter val (val.length + 1) p with
  | none => return .stop true
  | some q =>
    let hasValue := decide ((← readByte val p) ≠ psUndefMarker)
    let start := if hasValue then p else p + 1
    let name ← slice val start (q - start)
    decodeName c val p name hasValue (q + 1)

/-- A round of `PS_SERIALIZER_DECODE_FUNC(php_binary)`. -/
def binaryRound (p : Nat) : Except Fault (Next V) := do
  let b ← readByte val p
  let namelen := b.toNat &&& psBinMax
  if namelen > psBinMax ∨ p + namelen ≥ val.length then return .stop false
  else
    let hasValue := b.toNat &&& psBinUndef = 0
    let name ← slice val (p + 1) namelen
    decodeName c val p name hasValue (p + namelen + 1)

/-- The rounds from `p` on, and whether the decoder returns `SUCCESS`. -/
def decodeLoop (round : Nat → Except Fault (Next V)) :
    Nat → Nat → Except Fault (List (Round V) × Bool)
  | 0, _ => .error .outOfFuel
  | fuel + 1, p =>
    if p < val.length then do
      match ← round p with
      | .stop success => return ([], success)
      | .round r p' =>
        let (rs, success) ← decodeLoop round fuel p'
        return (r :: rs, success)
    else .ok ([], true)

def decodePhp : Except Fault (List (Round V) × Bool) :=
  decodeLoop val (phpRound c val) (val.length + 1) 0

def decodeBinary : Except Fault (List (Round V) × Bool) :=
  decodeLoop val (binaryRound c val) (val.length + 1) 0

end Decode

def setSessionVar (name : List UInt8) (v : V) : List (Entry V) → List (Entry V)
  | [] => [(name, some v)]
  | e :: es => if e.1 = name then (name, some v) :: es else e :: setSessionVar name v es

def addSessionVar (name : List UInt8) (vars : List (Entry V)) : List (Entry V) :=
  if vars.any fun e => e.1 = name then vars else vars ++ [(name, none)]

def Round.apply (vars : List (Entry V)) (r : Round V) : List (Entry V) :=
  match r.outcome with
  | .refused => vars
  | .value v => setSessionVar r.name v vars
  | .undefined => addSessionVar r.name vars

def sessionOf (rounds : List (Round V)) : List (Entry V) := rounds.foldl Round.apply []

end Php53.Session
