import Php53.Reasoning.Fallible
import Php53.Standard.Zval
import Php53.Zend.Hash.Symtable

/-!
# Unserialize — `php_var_unserialize`

The unserializer of `var_unserializer.re`, from the scanner's rules down to each single change of
the heap.  Offsets stand for the pointers into the text; `max` is the offset of the text's end.
Besides the heap the state records what the bounds and the back-references are judged by: the last
offset read, the rules that move the cursor over bytes they have not looked at, and every heap
operation with the heap it was applied to.
-/

open Php53.Zend Reasoning

namespace Php53.Standard

def isSign (c : UInt8) : Bool := c == ch '+' || c == ch '-'

def slice (buf : List UInt8) (off len : Nat) : List UInt8 := (buf.drop off).take len

/-- `parse_iv2`: the value, and the offset behind the digits. -/
def parseIv2 (buf : List UInt8) (off : Nat) : BitVec 64 × Nat :=
  let start := if isSign (byteAt buf off) then off + 1 else off
  let len := runLength isDigit buf start
  let result := digitsValue (slice buf start len)
  (if byteAt buf off = ch '-' then -result else result, start + len)

def parseUiv (buf : List UInt8) (off : Nat) : Nat :=
  let start := if byteAt buf off = ch '+' then off + 1 else off
  (digitsValue (slice buf start (runLength isDigit buf start))).toNat

/-- The difference of two pointers as a `size_t`. -/
def sizeDiff (a b : Nat) : Nat := if b ≤ a then a - b else 2 ^ 64 - (b - a)

def hexValue (c : UInt8) : Option UInt8 :=
  if ch '0' ≤ c && c ≤ ch '9' then some (c - ch '0')
  else if ch 'a' ≤ c && c ≤ ch 'f' then some (c - ch 'a' + 10)
  else if ch 'A' ≤ c && c ≤ ch 'F' then some (c - ch 'A' + 10)
  else none

/-- The loop of `unserialize_str`: the string and the offset behind it, and the last offset it
reads. -/
def unserializeStr (buf : List UInt8) (stop : Nat) : Nat → Nat → Option (List UInt8 × Nat) × Nat
  | 0, off => (some ([], off), 0)
  | i + 1, off =>
    if off ≥ stop then (none, 0)
    else if byteAt buf off ≠ ch '\\' then
      let (r, last) := unserializeStr buf stop i (off + 1)
      (r.map fun (s, e) => (byteAt buf off :: s, e), max off last)
    else
      match hexValue (byteAt buf (off + 1)) with
      | none => (none, off + 1)
      | some hi =>
        match hexValue (byteAt buf (off + 2)) with
        | none => (none, off + 2)
        | some lo =>
          let (r, last) := unserializeStr buf stop i (off + 3)
          (r.map fun (s, e) => (((hi <<< 4) + lo) :: s, e), max (off + 2) last)

def isClassNameChar (c : UInt8) : Bool :=
  isDigit c || (ch 'a' ≤ c && c ≤ ch 'z') || (ch 'A' ≤ c && c ≤ ch 'Z') || c == ch '_' ||
    c == ch '\\' || 127 ≤ c

inductive Rule where
  | reference
  | copy
  | null
  | bool
  | long
  | infNan
  | double
  | string
  | escapedString
  | array
  | plainObject
  | object
  | brace
  | any
deriving DecidableEq, Repr

def lit (buf : List UInt8) (c : Char) : Scanner := Scanner.byte buf (· == ch c)

/-- `iv` -/
def iv (buf : List UInt8) : Scanner := (Scanner.opt buf isSign).seq (Scanner.many1 buf isDigit)

/-- `uiv` -/
def uiv (buf : List UInt8) : Scanner :=
  (Scanner.opt buf (· == ch '+')).seq (Scanner.many1 buf isDigit)

/-- What follows the sign in `iv` and `nv`: digits with at most one point among them. -/
def mantissa (buf : List UInt8) : Scanner :=
  Scanner.branch buf isDigit
    ((Scanner.many buf isDigit).seq (Scanner.branch buf (· == ch '.')
      ((lit buf '.').seq (Scanner.many buf isDigit)) Scanner.skip))
    ((lit buf '.').seq (Scanner.many1 buf isDigit))

/-- The exponent of `nvexp`; `iv` brings a sign of its own. -/
def exponent (buf : List UInt8) : Scanner :=
  Scanner.branch buf (fun c => c == ch 'e' || c == ch 'E')
    ((Scanner.byte buf fun c => c == ch 'e' || c == ch 'E').seq
      ((Scanner.opt buf isSign).seq (iv buf))) Scanner.skip

def double (buf : List UInt8) : Scanner :=
  (Scanner.opt buf isSign).seq ((mantissa buf).seq ((exponent buf).seq (lit buf ';')))

def inf (buf : List UInt8) : Scanner :=
  (lit buf 'I').seq ((lit buf 'N').seq ((lit buf 'F').seq (lit buf ';')))

def nan (buf : List UInt8) : Scanner :=
  (lit buf 'N').seq ((lit buf 'A').seq ((lit buf 'N').seq (lit buf ';')))

/-- What follows the first byte in a rule. -/
def ruleTail (buf : List UInt8) : Rule → Scanner
  | .reference | .copy | .long => (lit buf ':').seq ((iv buf).seq (lit buf ';'))
  | .null => lit buf ';'
  | .bool =>
    (lit buf ':').seq ((Scanner.byte buf fun c => c == ch '0' || c == ch '1').seq (lit buf ';'))
  | .infNan =>
    (lit buf ':').seq (Scanner.branch buf (· == ch 'N') (nan buf)
      (Scanner.branch buf (· == ch '-') ((lit buf '-').seq (inf buf)) (inf buf)))
  | .double => (lit buf ':').seq (double buf)
  | .string | .escapedString | .object =>
    (lit buf ':').seq ((uiv buf).seq ((lit buf ':').seq (lit buf '"')))
  | .array => (lit buf ':').seq ((uiv buf).seq ((lit buf ':').seq (lit buf '{')))
  | .plainObject => (lit buf ':').seq ((iv buf).seq ((lit buf ':').seq (lit buf '"')))
  | .brace | .any => Scanner.skip

/-- The rules that can match, by the first byte, in the order in which they are tried. -/
def candidates (c : UInt8) : List Rule :=
  if c = ch 'R' then [.reference]
  else if c = ch 'r' then [.copy]
  else if c = ch 'N' then [.null]
  else if c = ch 'b' then [.bool]
  else if c = ch 'i' then [.long]
  else if c = ch 'd' then [.infNan, .double]
  else if c = ch 's' then [.string]
  else if c = ch 'S' then [.escapedString]
  else if c = ch 'a' then [.array]
  else if c = ch 'o' then [.plainObject]
  else if c = ch 'O' ∨ c = ch 'C' then [.object]
  else if c = ch '}' then [.brace]
  else []

/-- The rule that matches at `start`, the cursor behind it, and the last offset looked at. -/
def scanRule (buf : List UInt8) (start : Nat) : List Rule → Rule × Nat × Nat
  | [] => (.any, start + 1, start)
  | rule :: rules =>
    match ruleTail buf rule (start + 1) with
    | (some cursor, last) => (rule, cursor, max start last)
    | (none, last) =>
      let (rule', cursor, last') := scanRule buf start rules
      (rule', cursor, max last last')

/-- One change of the heap. -/
inductive MemOp where
  | allocInitZval
  | varPush (z : ZvalPtr)
  | varPushDtor (z : ZvalPtr)
  | initZval (z : ZvalPtr) (v : Value)
  | initPzval (z : ZvalPtr)
  | objectInit (z : ZvalPtr) (ce : ClassPtr)
  /-- The `zval_ptr_dtor` of the rule `R:`. -/
  | releaseForReference (z : ZvalPtr)
  /-- The `zval_ptr_dtor` of the rule `r:`. -/
  | releaseForCopy (z : ZvalPtr)
  | share (z : ZvalPtr) (isRef : Bool)
  | discardKey (z : ZvalPtr)
  | discardData (z : ZvalPtr)
  | updateArray (z : ZvalPtr) (k : HashKey) (data : ZvalPtr)
  | updateProperty (handle : Nat) (k : HashKey) (data : ZvalPtr)
  /-- Code of scripts or extensions. -/
  | user (code : Mem → Mem)

def MemOp.apply (env : Env) (m : Mem) : MemOp → Mem
  | .allocInitZval => m.allocInitZval
  | .varPush z => m.varPush z
  | .varPushDtor z => m.varPushDtor z
  | .initZval z v => m.initZval z v
  | .initPzval z => m.initPzval z
  | .objectInit z ce => m.objectInit env z ce
  | .releaseForReference z => m.zvalPtrDtor env z
  | .releaseForCopy z => m.zvalPtrDtor env z
  | .share z isRef => m.share z isRef
  | .discardKey z => m.discard env z
  | .discardData z => m.discard env z
  | .updateArray z k data => m.updateArray env z k data
  | .updateProperty handle k data => m.updateProperty env handle k data
  | .user code => code m

/-- Where a value stands; no rule depends on it. -/
inductive Role where
  | whole
  | key
  /-- An element or property.  Behind one that is not the `last`, the code looks at the byte before
  the offset where it ends. -/
  | data (last : Bool)
deriving DecidableEq, Repr

/-- A rule has moved the cursor two bytes on, over bytes of which it has looked at one or none. -/
inductive Mark where
  /-- The quote that ends a string. -/
  | quote (off : Nat) (role : Role)
  /-- The end of the number of properties of an object. -/
  | count (off : Nat)
deriving DecidableEq, Repr

structure State where
  mem : Mem
  lastRead : Nat
  marks : List Mark
  /-- Nothing has been read since the last mark. -/
  unread : Bool
  trace : List (Mem × MemOp)

inductive Stop where
  /-- The bound on the number of steps was too small. -/
  | steps
  /-- `var_push_dtor` was called without slots. -/
  | nullPointer
deriving DecidableEq, Repr

abbrev Unser := Fallible State Stop

def touch (off : Nat) : Unser Unit :=
  Fallible.update fun s => { s with lastRead := max s.lastRead off, unread := false }

def addMark (mark : Mark) : Unser Unit :=
  Fallible.update fun s => { s with marks := s.marks ++ [mark], unread := true }

def perform (env : Env) (op : MemOp) : Unser Unit :=
  Fallible.update fun s =>
    { s with mem := op.apply env s.mem, trace := s.trace ++ [(s.mem, op)] }

def peek (buf : List UInt8) (off : Nat) : Unser UInt8 := do
  touch off
  return byteAt buf off

/-- What a call leaves: whether it succeeded, `*rval` and `*p`. -/
structure Ret where
  ok : Bool
  rval : ZvalPtr
  p : Nat

/-- The table that `process_nested_data` fills. -/
inductive Container where
  | array (z : ZvalPtr)
  | properties (handle : Nat)

/-- The key under which a value parsed as a key stores, if it can be one. -/
def containerKey (ht : Container) : Value → Option HashKey
  | .long l =>
    match ht with
    | .array _ => some (.index l)
    | .properties _ => some (.str (printLong l))
  | .string s =>
    match ht with
    | .array _ => some (symtableKey s)
    | .properties _ => some (.str s)
  | _ => none

/-- The element that storing under `k` will replace, where `process_nested_data` looks for one. -/
def replaced (m : Mem) (ht : Container) (k : HashKey) : Option ZvalPtr :=
  match ht with
  | .array z => findKey (m.elements z) k
  | .properties _ => none

/-- Storing an element in `process_nested_data`. -/
def storeData (env : Env) (ht : Container) (k : HashKey) (data : ZvalPtr) (varHash : Bool) :
    Unser Unit := do
  let s ← Fallible.getState
  match ht with
  | .array z =>
    match replaced s.mem ht k with
    | none => perform env (.updateArray z k data)
    | some old =>
      if varHash then do
        perform env (.varPushDtor old)
        perform env (.updateArray z k data)
      else Fallible.stop .nullPointer
  | .properties handle => perform env (.updateProperty handle k data)

/-- `process_nested_data`, given the unserializer for the keys and elements. -/
def processNestedData (env : Env) (buf : List UInt8)
    (unserialize : Role → Nat → ZvalPtr → Bool → Unser Ret) (ht : Container) (varHash : Bool) :
    Nat → Int → Nat → Unser (Bool × Nat)
  | fuel, elements, p =>
    if elements ≤ 0 then return (true, p)
    else
      match fuel with
      | 0 => Fallible.stop .steps
      | fuel + 1 => do
        let s ← Fallible.getState
        let key := s.mem.nextZval
        perform env .allocInitZval
        let keyRet ← unserialize .key p key false
        let s ← Fallible.getState
        match if keyRet.ok then containerKey ht (s.mem.zvals keyRet.rval).value else none with
        | none => do
          perform env (.discardKey keyRet.rval)
          return (false, keyRet.p)
        | some k => do
          let s ← Fallible.getState
          let data := s.mem.nextZval
          perform env .allocInitZval
          let dataRet ← unserialize (.data (elements - 1 = 0)) keyRet.p data varHash
          if dataRet.ok then do
            storeData env ht k dataRet.rval varHash
            perform env (.discardKey keyRet.rval)
            if elements - 1 ≠ 0 then do
              let c ← peek buf (dataRet.p - 1)
              if c ≠ ch ';' ∧ c ≠ ch '}' then return (false, dataRet.p - 1)
              else processNestedData env buf unserialize ht varHash fuel (elements - 1) dataRet.p
            else return (true, dataRet.p)
          else do
            perform env (.discardKey keyRet.rval)
            perform env (.discardData dataRet.rval)
            return (false, dataRet.p)

def finishNestedData (buf : List UInt8) (rval : ZvalPtr) (p : Nat) : Unser Ret := do
  let c ← peek buf p
  return ⟨c = ch '}', rval, p + 1⟩

def objectHandle (m : Mem) (z : ZvalPtr) : Nat :=
  match (m.zvals z).value with
  | .object handle => handle
  | _ => 0

def phpStoreClassName (env : Env) (object : ZvalPtr) (name : List UInt8) : Unser Unit := do
  let s ← Fallible.getState
  let val := s.mem.nextZval
  perform env .allocInitZval
  perform env (.initZval val (.string name))
  perform env (.updateProperty (objectHandle s.mem object)
    (.str ("__PHP_Incomplete_Class_Name".toList.map ch)) val)

def objectCustom (env : Env) (buf : List UInt8) (max : Nat) (ce : ClassPtr) (rval : ZvalPtr)
    (p : Nat) : Unser Ret := do
  let number := parseIv2 buf (p + 2)
  touch number.2
  let datalen := number.1
  let p := number.2 + 2
  if datalen.toInt < 0 ∨ p + datalen.toNat ≥ max then return ⟨false, rval, p⟩
  else if (env.classes ce).hasUnserialize then do
    let s ← Fallible.getState
    let text := slice buf p datalen.toNat
    perform env (.user fun m => (env.unserialize ce rval text m).2)
    if (env.unserialize ce rval text s.mem).1 then
      finishNestedData buf rval (p + datalen.toNat)
    else return ⟨false, rval, p⟩
  else do
    perform env (.objectInit rval ce)
    finishNestedData buf rval (p + datalen.toNat)

/-- `object_common1`: the number of properties, and the offset of the first one. -/
def objectCommon1 (env : Env) (buf : List UInt8) (ce : ClassPtr) (rval : ZvalPtr) (p : Nat) :
    Unser (Int × Nat) := do
  let number := parseIv2 buf (p + 2)
  touch number.2
  addMark (.count number.2)
  perform env (.objectInit rval ce)
  return (number.1.toInt, number.2 + 2)

def objectCommon2 (env : Env) (buf : List UInt8)
    (unserialize : Role → Nat → ZvalPtr → Bool → Unser Ret) (fuel : Nat) (rval : ZvalPtr)
    (elements : Int) (p : Nat) (varHash : Bool) : Unser Ret := do
  let s ← Fallible.getState
  let nested ← processNestedData env buf unserialize (.properties (objectHandle s.mem rval))
    varHash fuel elements p
  if nested.1 then do
    let s ← Fallible.getState
    let ce := (s.mem.objects (objectHandle s.mem rval)).ce
    if ce ≠ env.incompleteClass ∧ (env.classes ce).hasWakeup then do
      perform env (.user (env.wakeup rval))
      finishNestedData buf rval nested.2
    else finishNestedData buf rval nested.2
  else return ⟨false, rval, nested.2⟩

/-- The text between the quotes of `s:` and `S:`, once it is known. -/
def closeString (env : Env) (buf : List UInt8) (role : Role) (rval : ZvalPtr) (str : List UInt8)
    (close : Nat) : Unser Ret := do
  let c ← peek buf close
  if c ≠ ch '"' then return ⟨false, rval, close⟩
  else do
    addMark (.quote close role)
    perform env (.initZval rval (.string str))
    return ⟨true, rval, close + 2⟩

/-- The rules `R:` and `r:`. -/
def backReference (env : Env) (rval : ZvalPtr) (varHash : Bool) (isRef : Bool) (number : BitVec 64)
    (cursor : Nat) : Unser Ret := do
  if varHash then do
    let s ← Fallible.getState
    let id := number - 1
    match if id = -1 then none else s.mem.varAccess id with
    | none => return ⟨false, rval, cursor⟩
    | some z =>
      if isRef then do
        perform env (.releaseForReference rval)
        perform env (.share z true)
        return ⟨true, z, cursor⟩
      else if rval = z then return ⟨false, rval, cursor⟩
      else do
        perform env (.releaseForCopy rval)
        perform env (.share z false)
        return ⟨true, z, cursor⟩
  else return ⟨false, rval, cursor⟩

/-- The rule `object ":" uiv ":" ["]`. -/
def objectRule (env : Env) (buf : List UInt8) (max : Nat)
    (unserialize : Role → Nat → ZvalPtr → Bool → Unser Ret) (fuel : Nat) (start cursor : Nat)
    (rval : ZvalPtr) (varHash : Bool) : Unser Ret := do
  perform env (.initPzval rval)
  let len := parseUiv buf (start + 2)
  if sizeDiff max cursor < len ∨ len = 0 then return ⟨false, rval, start + 2⟩
  else do
    let q := cursor + len
    let c ← peek buf q
    if c ≠ ch '"' then return ⟨false, rval, q⟩
    else do
      let c ← peek buf (q + 1)
      if c ≠ ch ':' then return ⟨false, rval, q + 1⟩
      else do
        let len3 := runLength isClassNameChar buf cursor
        touch (cursor + len3)
        if len3 ≠ len then return ⟨false, rval, q + len3 - len⟩
        else do
          let name := slice buf cursor len
          let s ← Fallible.getState
          let found := (env.lookupClass name s.mem).1
          perform env (.user fun m => (env.lookupClass name m).2)
          let ce := found.getD env.incompleteClass
          if byteAt buf start = ch 'C' then do
            let ret ← objectCustom env buf max ce rval q
            if ret.ok ∧ found = none then do
              phpStoreClassName env rval name
              return ret
            else return ret
          else do
            let header ← objectCommon1 env buf ce rval q
            if found = none then do
              phpStoreClassName env rval name
              objectCommon2 env buf unserialize fuel rval header.1 header.2 varHash
            else objectCommon2 env buf unserialize fuel rval header.1 header.2 varHash

/-- The actions of `php_var_unserialize`. -/
def action (env : Env) (buf : List UInt8) (max : Nat)
    (unserialize : Role → Nat → ZvalPtr → Bool → Unser Ret) (fuel : Nat) (role : Role)
    (start cursor : Nat) (rval : ZvalPtr) (varHash : Bool) : Rule → Unser Ret
  | .reference =>
    backReference env rval varHash true (parseIv2 buf (start + 2)).1 cursor
  | .copy =>
    backReference env rval varHash false (parseIv2 buf (start + 2)).1 cursor
  | .null => do
    perform env (.initZval rval .null)
    return ⟨true, rval, cursor⟩
  | .bool => do
    let b := if (parseIv2 buf (start + 2)).1 = 0 then 0 else 1
    perform env (.initZval rval (.bool b))
    return ⟨true, rval, cursor⟩
  | .long => do
    perform env (.initZval rval (.long (parseIv2 buf (start + 2)).1))
    return ⟨true, rval, cursor⟩
  | .infNan | .double => do
    perform env (.initZval rval (.double (slice buf (start + 2) (cursor - 1 - (start + 2)))))
    return ⟨true, rval, cursor⟩
  | .string => do
    let len := parseUiv buf (start + 2)
    if sizeDiff max cursor < len then return ⟨false, rval, start + 2⟩
    else closeString env buf role rval (slice buf cursor len) (cursor + len)
  | .escapedString => do
    let len := parseUiv buf (start + 2)
    if sizeDiff max cursor < len then return ⟨false, rval, start + 2⟩
    else if max < cursor then return ⟨false, rval, start⟩
    else
      touch (unserializeStr buf max len cursor).2
      match (unserializeStr buf max len cursor).1 with
      | none => return ⟨false, rval, start⟩
      | some str => closeString env buf role rval str.1 str.2
  | .array => do
    let elements := (parseIv2 buf (start + 2)).1.toInt
    if elements < 0 then return ⟨false, rval, cursor⟩
    else do
      perform env (.initZval rval (.array []))
      let nested ← processNestedData env buf unserialize (.array rval) varHash fuel elements cursor
      if nested.1 then finishNestedData buf rval nested.2
      else return ⟨false, rval, nested.2⟩
  | .plainObject => do
    perform env (.initPzval rval)
    let header ← objectCommon1 env buf env.standardClass rval start
    objectCommon2 env buf unserialize fuel rval header.1 header.2 varHash
  | .object => objectRule env buf max unserialize fuel start cursor rval varHash
  | .brace => return ⟨false, rval, start⟩
  | .any => return ⟨false, rval, start⟩

/-- `php_var_unserialize`, with a bound on the nesting and on the length of each container. -/
def unserializeFuel (env : Env) (buf : List UInt8) (max : Nat) :
    Nat → Role → Nat → ZvalPtr → Bool → Unser Ret
  | 0, _, _, _, _ => Fallible.stop .steps
  | fuel + 1, role, p, rval, varHash => do
    let c ← peek buf p
    if varHash ∧ c ≠ ch 'R' then perform env (.varPush rval)
    let scan := scanRule buf p (candidates c)
    touch scan.2.2
    action env buf max (unserializeFuel env buf max fuel) fuel role p scan.2.1 rval varHash scan.1

/-- `php_var_unserialize` on a text that a NUL follows. -/
def phpVarUnserialize (env : Env) (text rest : List UInt8) (rval : ZvalPtr) : Unser Ret :=
  let buf := text ++ 0 :: rest
  unserializeFuel env buf text.length (buf.length + 2) .whole 0 rval true

end Php53.Standard
