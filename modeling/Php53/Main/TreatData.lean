import Php53.Main.UrlCode

/-!
# TreatData — the variables of form bodies and query strings

`php_std_post_handler` cuts a block of known length, `php_default_treat_data` a string that ends
with a NUL; both decode in place and pass the names on as strings that end with a NUL.  What they
register is kept in the order of the calls; the input filter is the default one, which changes
nothing.
-/

open Reasoning

namespace Php53.Main

open Zend

/-- The name and the value that `php_register_variable_safe` is called with. -/
abbrev Registration := List UInt8 × List UInt8

/-- What comes of the bytes between `s` and `p`. -/
inductive Field where
  /-- There are too many variables. -/
  | stop
  /-- The block, and what is registered. -/
  | next (mem : List UInt8) (count : Nat) (registered : List Registration)

/-- The body of the loop, from `last_value:` on. -/
def postField (maxInputVars : Nat) (mem : List UInt8) (s p count : Nat) : Field :=
  match memchr mem s (ch '=') (p - s) with
  | some val =>
    if count + 1 > maxInputVars then .stop
    else
      let (mem, _) := phpUrlDecode mem s (val - s)
      let (mem, valLen) := phpUrlDecode mem (val + 1) (p - (val + 1))
      .next mem (count + 1) [(cString mem s, bytesAt mem (val + 1) valLen)]
  | none => .next mem count []

/-- The loop, and the jump back into it for the last field, behind which `s` is past `e`. -/
def postLoop (maxInputVars e : Nat) : Nat → List UInt8 → Nat → Nat → List Registration
  | 0, _, _, _ => []
  | fuel + 1, mem, s, count =>
    if s < e then
      let p := (memchr mem s (ch '&') (e - s)).getD e
      match postField maxInputVars mem s p count with
      | .stop => []
      | .next mem count registered => registered ++ postLoop maxInputVars e fuel mem (p + 1) count
    else []

/-- `php_std_post_handler`.  A NUL has been put behind the data. -/
def phpStdPostHandler (maxInputVars : Nat) (postData : List UInt8) : List Registration :=
  postLoop maxInputVars postData.length (postData.length + 1) (postData ++ [0]) 0 0

/-- `php_strtok_r`: the token, the block with a NUL behind it, and what `*last` becomes. -/
def phpStrtokR (delim : List UInt8) (mem : List UInt8) (s : Nat) :
    Option (Nat × List UInt8 × Option Nat) :=
  let tok := s + ((mem.drop s).takeWhile (· ∈ delim)).length
  if byteAt mem tok = 0 then none
  else
    let w := tok + ((mem.drop tok).takeWhile fun c => c ≠ 0 ∧ c ∉ delim).length
    if byteAt mem w = 0 then some (tok, mem, none) else some (tok, mem.set w 0, some (w + 1))

/-- What is registered for the token at `var`, and the block then. -/
def treatField (mem : List UInt8) (var : Nat) : List UInt8 × Registration :=
  match strchr mem var (ch '=') with
  | some val =>
    let mem := mem.set val 0
    let (mem, _) := phpUrlDecode mem var (strlen mem var)
    let (mem, valLen) := phpUrlDecode mem (val + 1) (strlen mem (val + 1))
    (mem, cString mem var, bytesAt mem (val + 1) valLen)
  | none =>
    let (mem, _) := phpUrlDecode mem var (strlen mem var)
    (mem, cString mem var, [])

/-- `while (var)`, with the string that the next call of `php_strtok_r` goes on with. -/
def treatLoop (separator : List UInt8) (maxInputVars : Nat) :
    Nat → List UInt8 → Option Nat → Nat → List Registration
  | 0, _, _, _ => []
  | fuel + 1, mem, last, count =>
    match last.bind (phpStrtokR separator mem) with
    | none => []
    | some (var, mem, last) =>
      if count + 1 > maxInputVars then []
      else
        let (mem, registered) := treatField mem var
        registered :: treatLoop separator maxInputVars fuel mem last (count + 1)

/-- `php_default_treat_data` for `PARSE_GET` and `PARSE_STRING`, with `arg_separator.input`.  An
empty string has no token. -/
def phpDefaultTreatData (separator : List UInt8) (maxInputVars : Nat) (queryString : List UInt8) :
    List Registration :=
  treatLoop separator maxInputVars (queryString.length + 1) (queryString ++ [0]) (some 0) 0

end Php53.Main
