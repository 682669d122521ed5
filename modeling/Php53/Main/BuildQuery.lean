import Php53.Main.UrlCode
import Php53.Main.Variables

/-!
# BuildQuery — `php_url_encode_hash_ex`

The query string of an array without objects, for `http_build_query` without a prefix for numbers.
-/

namespace Php53.Main

open Zend

def hexchars (n : Nat) : UInt8 := if n < 10 then .ofNat (48 + n) else .ofNat (55 + n)

def urlEncodeByte (c : UInt8) : List UInt8 :=
  if c = ch ' ' then [ch '+']
  else if (c < ch '0' ∧ c ≠ ch '-' ∧ c ≠ ch '.') ∨ (c < ch 'A' ∧ c > ch '9') ∨
      (c > ch 'Z' ∧ c < ch 'a' ∧ c ≠ ch '_') ∨ c > ch 'z' then
    [ch '%', hexchars (c.toNat >>> 4), hexchars (c.toNat &&& 15)]
  else [c]

def phpUrlEncode (s : List UInt8) : List UInt8 := s.flatMap urlEncodeByte

/-- The text of a key, an integer through `%ld`. -/
def keyText : HashKey → List UInt8
  | .index h => printLong h
  | .str s => s

def encodeKey : HashKey → List UInt8
  | .index h => printLong h
  | .str s => phpUrlEncode s

/-- `%5B` -/
def openBracket : List UInt8 := [ch '%', ch '5', ch 'B']

/-- `%5D` -/
def closeBracket : List UInt8 := [ch '%', ch '5', ch 'D']

mutual

/-- What the loop does with an element. -/
def encodeElement (argSep keyPrefix keySuffix : List UInt8) (key : HashKey) :
    Zval → List UInt8 → List UInt8
  | .string val, formstr =>
    (if formstr ≠ [] then formstr ++ argSep else formstr) ++
      (keyPrefix ++ encodeKey key ++ keySuffix ++ ch '=' :: phpUrlEncode val)
  | .long lval, formstr =>
    (if formstr ≠ [] then formstr ++ argSep else formstr) ++
      (keyPrefix ++ encodeKey key ++ keySuffix ++ ch '=' :: printLong lval)
  | .array elements _, formstr =>
    encodeElements argSep (keyPrefix ++ encodeKey key ++ keySuffix ++ openBracket) closeBracket
      elements formstr

def encodeElements (argSep keyPrefix keySuffix : List UInt8) :
    List (HashKey × Zval) → List UInt8 → List UInt8
  | [], formstr => formstr
  | (key, zdata) :: es, formstr =>
    encodeElements argSep keyPrefix keySuffix es
      (encodeElement argSep keyPrefix keySuffix key zdata formstr)

end

/-- `php_url_encode_hash_ex` as it is called first. -/
def phpUrlEncodeHashEx (argSep : List UInt8) (ht : Table) : List UInt8 :=
  encodeElements argSep [] [] ht.elements []

mutual

/-- The encoded path, the encoded leaf and the prefix have lengths that an `int` holds. -/
def lengthsFit (keyPrefix keySuffix : List UInt8) (key : HashKey) : Zval → Bool
  | .string val =>
    decide ((keyPrefix ++ encodeKey key ++ keySuffix).length < 2 ^ 31) &&
      decide ((phpUrlEncode val).length < 2 ^ 31)
  | .long _ => decide ((keyPrefix ++ encodeKey key ++ keySuffix).length < 2 ^ 31)
  | .array elements _ =>
    -- `emalloc(newprefix_len + 1)`
    decide ((keyPrefix ++ encodeKey key ++ keySuffix ++ openBracket).length + 1 < 2 ^ 31) &&
      elementsFit (keyPrefix ++ encodeKey key ++ keySuffix ++ openBracket) closeBracket elements

def elementsFit (keyPrefix keySuffix : List UInt8) : List (HashKey × Zval) → Bool
  | [] => true
  | (key, zdata) :: es => lengthsFit keyPrefix keySuffix key zdata && elementsFit keyPrefix keySuffix es

end

/-- `http_build_query`, none where the length of something that is encoded overflows an `int`. -/
def httpBuildQuery (argSep : List UInt8) (ht : Table) : Option (List UInt8) :=
  if elementsFit [] [] ht.elements then some (phpUrlEncodeHashEx argSep ht) else none

end Php53.Main
