import Php53.Reasoning.ByteArea
import Php53.Zend.NumericString

/-!
# HtmlDecode — the last pass of `php_unescape_html_entities`

Reader and writer share one buffer, which is the text and its NUL.  There is no result where a byte
outside of the buffer is read or written.  `int` has 32 bits.
-/

open Reasoning

namespace Php53.Standard.Html

open Zend

/-- `enum entity_charset` -/
inductive EntityCharset where
  | cs8859_1
  | cp1252
  | cs8859_15
  | utf8
  | big5
  | gb2312
  | big5hkscs
  | sjis
  | eucjp
  | koi8r
  | cp1251
  | cs8859_5
  | cp866
  | macroman

/-- `php_utf32_utf8`, without its NUL. -/
def phpUtf32Utf8 (k : BitVec 32) : List UInt8 :=
  let n := k.toNat
  let tail (shift : Nat) : UInt8 := UInt8.ofNat (0x80 ||| ((n >>> shift) &&& 0x3f))
  if n < 0x80 then [UInt8.ofNat n]
  else if n < 0x800 then [UInt8.ofNat (0xc0 ||| (n >>> 6)), tail 0]
  else if n < 0x10000 then [UInt8.ofNat (0xe0 ||| (n >>> 12)), tail 6, tail 0]
  else if n < 0x200000 then [UInt8.ofNat (0xf0 ||| (n >>> 18)), tail 12, tail 6, tail 0]
  else if n < 0x4000000 then [UInt8.ofNat (0xf8 ||| (n >>> 24)), tail 18, tail 12, tail 6, tail 0]
  else [UInt8.ofNat (0xfc ||| (n >>> 30)), tail 24, tail 18, tail 12, tail 6, tail 0]

/-- `next - nptr` of `strtol(nptr, &next, base)`. -/
def strtolLength (base : Nat) (nptr : List UInt8) : Nat :=
  let blanks := nptr.takeWhile isBlankByte
  let s := nptr.drop blanks.length
  let sign := if Zend.isSign (s.headD 0) then 1 else 0
  let s := s.drop sign
  let radix := if base = 16 ∧ s.headD 0 = ch '0' ∧ (s.tail.headD 0 = ch 'x' ∨ s.tail.headD 0 = ch 'X') ∧
    isDigitIn 16 ((s.drop 2).headD 0) then 2 else 0
  let digits := (s.drop radix).takeWhile (isDigitIn base)
  if digits = [] then 0 else blanks.length + sign + radix + digits.length

/-- A number stands behind `&#x` or behind `&#`; `s` begins with the ampersand. -/
def numberBase (s : List UInt8) : Nat :=
  if s.getD 2 0 = ch 'x' ∨ s.getD 2 0 = ch 'X' then 16 else 10

def numberStart (s : List UInt8) : Nat :=
  if s.getD 2 0 = ch 'x' ∨ s.getD 2 0 = ch 'X' then 3 else 2

def numberText (s : List UInt8) : List UInt8 := s.drop (numberStart s)

/-- `code` -/
def code (s : List UInt8) : Int :=
  (BitVec.ofInt 32 (strtol (numberBase s) ((numberText s).dropWhile isBlankByte))).toInt

/-- `next - p` -/
def nextOffset (s : List UInt8) : Nat := numberStart s + strtolLength (numberBase s) (numberText s)

def isQuoted (quoteStyle : BitVec 32) (code : Int) : Bool :=
  (code = 39 && quoteStyle &&& 1 = 0) || (code = 34 && quoteStyle &&& 2 = 0)

/-- What is written for a number, none for `invalid_code`, and the NUL behind it. -/
def replacement (charset : EntityCharset) (code : Int) : Option (List UInt8 × List UInt8) :=
  let byte : List UInt8 × List UInt8 := ([UInt8.ofBitVec (BitVec.ofInt 8 code)], [])
  match charset with
  | .utf8 => some (phpUtf32Utf8 (BitVec.ofInt 32 code), [0])
  | .cs8859_1 | .cs8859_5 | .cs8859_15 =>
    if (0x80 ≤ code ∧ code < 0xa0) ∨ 0xff < code then none else some byte
  | .cp1252 => if 0xff < code then none else some byte
  | .cp1251 | .cp866 | .big5 | .big5hkscs | .sjis | .eucjp => if 0x80 ≤ code then none else some byte
  | .gb2312 => if 0x81 ≤ code then none else some byte
  | .koi8r | .macroman => none

/-- What comes of some bytes of the text. -/
inductive Token where
  | copied (b : UInt8)
  | decoded (reference bytes : List UInt8)

def Token.bytes : Token → List UInt8
  | .copied b => [b]
  | .decoded _ bytes => bytes

/-- A token, with the read position behind it and the end of what was written for it, a NUL included. -/
structure Move where
  token : Token
  readTo : Nat
  writtenTo : Nat

structure State where
  buf : List UInt8
  p : Nat
  q : Nat

/-- `*(q++) = *(p++)`, several times. -/
def copyBytes : Nat → State → Option (State × List Move)
  | 0, s => some (s, [])
  | n + 1, s =>
    s.buf[s.p]?.bind fun b =>
      (storeAt s.buf s.q [b]).bind fun buf =>
        (copyBytes n ⟨buf, s.p + 1, s.q + 1⟩).map fun (s', moves) =>
          (s', ⟨.copied b, s.p + 1, s.q + 1⟩ :: moves)

/-- The bytes of a reference, and the NUL behind them, are written before `p` goes behind it. -/
def writeBytes (length : Nat) (bytes nul : List UInt8) (s : State) : Option (State × List Move) :=
  (storeAt s.buf s.q (bytes ++ nul)).map fun buf =>
    (⟨buf, s.p + length, s.q + bytes.length⟩,
      [⟨.decoded ((s.buf.drop s.p).take length) bytes, s.p + length,
        s.q + (bytes ++ nul).length⟩])

/-- What is done at `p`. -/
inductive Action where
  | copy (length : Nat)
  | write (length : Nat) (bytes nul : List UInt8)

def Action.perform : Action → State → Option (State × List Move)
  | .copy length => copyBytes length
  | .write length bytes nul => writeBytes length bytes nul

/-- The branches at `p`, where `left` bytes in front of `lim` and the NUL are still to be read. -/
def actionAt (charset : EntityCharset) (quoteStyle : BitVec 32) (left : Nat) (p : List UInt8) :
    Option Action :=
  if p.getD 0 0 = ch '&' then
    if 2 < left then
      if p.getD 1 0 = ch '#' then
        p[nextOffset p]?.map fun next =>
          if next = ch ';' ∧ isQuoted quoteStyle (code p) = false then
            match replacement charset (code p) with
            | some (bytes, nul) => .write (nextOffset p + 1) bytes nul
            | none => .copy (nextOffset p + 1)
          else .copy 2
      else if 4 < left ∧ (p.drop 1).take 4 = [ch 'a', ch 'm', ch 'p', ch ';'] then
        some (.write 5 [ch '&'] [])
      else some (.copy 2)
    else some (.copy 1)
  else some (.copy 1)

def loop (charset : EntityCharset) (quoteStyle : BitVec 32) (lim : Nat) :
    Nat → State → Option (State × List Move)
  | 0, _ => none
  | fuel + 1, s =>
    if s.p < lim then
      (actionAt charset quoteStyle (lim - s.p) (s.buf.drop s.p)).bind fun action =>
        (action.perform s).bind fun (s', moves) =>
          (loop charset quoteStyle lim fuel s').map fun (t, moves') => (t, moves ++ moves')
    else some (s, [])

/-- The result, and how it came about; every round moves `p`. -/
def unescapeNumeric (charset : EntityCharset) (quoteStyle : BitVec 32) (ret : List UInt8) :
    Option (List UInt8 × List Move) :=
  (loop charset quoteStyle ret.length (ret.length + 1) ⟨ret ++ [0], 0, 0⟩).bind fun (s, moves) =>
    (storeAt s.buf s.q [0]).map fun buf => (buf.take s.q, moves)

/-- The characters a charset and a quote style allow. -/
def allowed (charset : EntityCharset) (quoteStyle : BitVec 32) (n : Nat) : Bool :=
  !isQuoted quoteStyle n && match charset with
    | .utf8 => n < 2 ^ 31
    | .cs8859_1 | .cs8859_5 | .cs8859_15 => n < 0x80 || (0xa0 ≤ n && n ≤ 0xff)
    | .cp1252 => n ≤ 0xff
    | .cp1251 | .cp866 | .big5 | .big5hkscs | .sjis | .eucjp => n < 0x80
    | .gb2312 => n < 0x81
    | .koi8r | .macroman => false

def encode (charset : EntityCharset) (n : Nat) : List UInt8 :=
  match charset with
  | .utf8 => phpUtf32Utf8 (BitVec.ofNat 32 n)
  | _ => [UInt8.ofNat n]

/-- The digits behind `&#` or `&#x`. -/
def numberDigits (s : List UInt8) : List UInt8 := (numberText s).takeWhile (isDigitIn (numberBase s))

/-- The reference at the begin of a text: its length and its character. -/
def referenceAt (charset : EntityCharset) (quoteStyle : BitVec 32) (s : List UInt8) :
    Option (Nat × Nat) :=
  if s.take 5 = [ch '&', ch 'a', ch 'm', ch 'p', ch ';'] then some (5, 38)
  else if s.take 2 = [ch '&', ch '#'] ∧ numberDigits s ≠ [] ∧
      (numberText s)[(numberDigits s).length]? = some (ch ';') ∧
      allowed charset quoteStyle (numberIn (numberBase s) (numberDigits s)) then
    some (numberStart s + (numberDigits s).length + 1, numberIn (numberBase s) (numberDigits s))
  else none

/-- Every reference is decoded wherever it stands, and every other byte is copied. -/
inductive Tokens (charset : EntityCharset) (quoteStyle : BitVec 32) : List UInt8 → List Token → Prop
  | nil : Tokens charset quoteStyle [] []
  | decoded {s : List UInt8} {length n : Nat} {ts : List Token} :
    referenceAt charset quoteStyle s = some (length, n) →
    Tokens charset quoteStyle (s.drop length) ts →
    Tokens charset quoteStyle s (.decoded (s.take length) (encode charset n) :: ts)
  | copied {b : UInt8} {s : List UInt8} {ts : List Token} :
    referenceAt charset quoteStyle (b :: s) = none →
    Tokens charset quoteStyle s ts →
    Tokens charset quoteStyle (b :: s) (.copied b :: ts)

end Php53.Standard.Html
