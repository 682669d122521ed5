import Php53.Reasoning.Reads
import Php53.Standard.QuotPrint

/-!
# Url — `php_url_parse_ex`

The parser walks over the text with a handful of pointers.  They are offsets here; a read that is
not of one of the bytes or of the NUL behind them is `none`.
-/

namespace Php53.Standard

open Reasoning
open Zend (ch isDigit digitsNat)

def urlAt (str : List UInt8) : ℕ → Option UInt8 := readAt str 0

/-- `memchr(s, c, ue - s)`; a negative length is that of all the memory. -/
def memchr (str : List UInt8) (c : UInt8) (s ue : ℕ) : Option (Option ℕ) :=
  if s ≤ ue then firstIn (urlAt str) (· == c) (ue - s) s else none

/-- The loop of `zend_memrchr` over the last `len` bytes in front of `e`. -/
def memrchrLoop (str : List UInt8) (c : UInt8) (s : ℕ) : ℕ → Option (Option ℕ)
  | 0 => some none
  | len + 1 => do
    let b ← urlAt str (s + len)
    if b = c then some (some (s + len)) else memrchrLoop str c s len

/-- `zend_memrchr(s, c, e - s)` -/
def zendMemrchr (str : List UInt8) (c : UInt8) (s e : ℕ) : Option (Option ℕ) :=
  if s ≤ e then memrchrLoop str c s (e - s) else none

def strchrLoop (str : List UInt8) (c : UInt8) : ℕ → ℕ → Option (Option ℕ)
  | 0, _ => none
  | fuel + 1, s => do
    let b ← urlAt str s
    if b = c then some (some s) else if b = 0 then some none else strchrLoop str c fuel (s + 1)

/-- `strchr(s, c)`; there are no more bytes than turns. -/
def strchr (str : List UInt8) (c : UInt8) (s : ℕ) : Option (Option ℕ) :=
  strchrLoop str c (str.length + 1) s

/-- `while (isdigit(*p)) p++`, at most `k` times. -/
def skipDigits (str : List UInt8) : ℕ → ℕ → Option ℕ
  | 0, p => some p
  | k + 1, p => do
    let b ← urlAt str p
    if isDigit b then skipDigits str k (p + 1) else some p

/-- `estrndup` of the bytes from `i` to `j`. -/
def estrndup (str : List UInt8) (i j : ℕ) : Option (List UInt8) :=
  if i ≤ j ∧ j ≤ str.length + 1 then some (rangeOf (str ++ [0]) i j) else none

/-- `php_replace_controlchars_ex`, for one byte. -/
def controlReplaced (c : UInt8) : UInt8 := if iscntrl c then ch '_' else c

def component (str : List UInt8) (i j : ℕ) : Option (List UInt8) := do
  let text ← estrndup str i j
  some (text.map controlReplaced)

/-- `php_url`. -/
structure Url where
  scheme : Option (List UInt8)
  user : Option (List UInt8)
  pass : Option (List UInt8)
  host : Option (List UInt8)
  port : ℕ
  path : Option (List UInt8)
  query : Option (List UInt8)
  fragment : Option (List UInt8)
  deriving DecidableEq, Repr

/-- `ecalloc(1, sizeof(php_url))` -/
def Url.blank : Url := ⟨none, none, none, none, 0, none, none, none⟩

/-- `isalpha` in the C locale. -/
def isAlpha (c : UInt8) : Bool := (ch 'a' ≤ c && c ≤ ch 'z') || (ch 'A' ≤ c && c ≤ ch 'Z')

def schemeChar (c : UInt8) : Bool :=
  isAlpha c || isDigit c || c == ch '+' || c == ch '.' || c == ch '-'

/-- `isspace` in the C locale. -/
def portBlank (c : UInt8) : Bool := c == 32 || (9 ≤ c && c ≤ 13)

/-- `strtol(port_buf, NULL, 10)`; there are five characters at most. -/
def strtolPort (buf : List UInt8) : ℤ :=
  match buf.dropWhile portBlank with
  | [] => 0
  | c :: cs =>
    if c = ch '-' then -digitsNat (cs.takeWhile isDigit)
    else if c = ch '+' then digitsNat (cs.takeWhile isDigit)
    else digitsNat ((c :: cs).takeWhile isDigit)

/-- `if (port > 0 && port <= 65535)` -/
def portValid (buf : List UInt8) : Bool := 0 < strtolPort buf && strtolPort buf ≤ 65535

/-- `!strncasecmp("file", scheme, sizeof("file"))` -/
def isFileScheme (scheme : List UInt8) : Bool :=
  ((scheme ++ [0]).take 5).map Main.tolower == [ch 'f', ch 'i', ch 'l', ch 'e', 0]

/-- `if (p - s)`: the path up to `p`. -/
def withPath (str : List UInt8) (ret : Url) (s p : ℕ) : Option Url :=
  if p ≠ s then do
    let path ← component str s p
    some { ret with path := path }
  else some ret

def withQuery (str : List UInt8) (ret : Url) (p e : ℕ) : Option Url :=
  if e ≠ p then do
    let query ← component str p e
    some { ret with query := query }
  else some ret

/-- From the label `label_parse` on, with `p` behind the '#'. -/
def withFragment (str : List UInt8) (ret : Url) (p ue : ℕ) : Option Url :=
  if ue ≠ p then do
    let fragment ← component str p ue
    some { ret with fragment := fragment }
  else some ret

/-- A query begins at `p`; `pp` is the next '#' behind `s`. -/
def urlQuery (str : List UInt8) (ret : Url) (s ue p : ℕ) : Option ℕ → Option Url
  | some pp =>
    if pp < p then do
      let ret ← withPath str ret s pp
      withFragment str ret (pp + 1) ue
    else do
      let ret ← withPath str ret s p
      let ret ← withQuery str ret (p + 1) pp
      withFragment str ret (pp + 1) ue
  | none => do
    let ret ← withPath str ret s p
    withQuery str ret (p + 1) ue

/-- There is no query; `p` is the first '#'. -/
def urlNoQuery (str : List UInt8) (ret : Url) (s ue : ℕ) : Option ℕ → Option Url
  | some p => do
    let ret ← withPath str ret s p
    withFragment str ret (p + 1) ue
  | none => do
    let path ← component str s ue
    some { ret with path := path }

/-- From the label `nohost` on. -/
def urlNohost (str : List UInt8) (ret : Url) (s ue : ℕ) : Option Url := do
  match ← memchr str (ch '?') s ue with
  | some p => do
    let pp ← strchr str (ch '#') s
    urlQuery str ret s ue p pp
  | none => do
    let p ← memchr str (ch '#') s ue
    urlNoQuery str ret s ue p

/-- From the label `just_path` on. -/
def justPath (str : List UInt8) (ret : Url) (s length : ℕ) : Option Url :=
  urlNohost str ret s (s + length)

/-- Where the authority that starts at `s` ends, if no '/' comes behind it. -/
def earlier (ue : ℕ) : Option ℕ → Option ℕ → ℕ
  | some query, some fragment => if query > fragment then fragment else query
  | some query, none => query
  | none, some fragment => fragment
  | none, none => ue

def authorityEnd (str : List UInt8) (s ue : ℕ) : Option ℕ := do
  match ← memchr str (ch '/') s ue with
  | some p => some p
  | none => do
    let query ← memchr str (ch '?') s ue
    let fragment ← memchr str (ch '#') s ue
    some (earlier ue query fragment)

def withUser (str : List UInt8) (ret : Url) (s pp : ℕ) : Option Url :=
  if s < pp then do
    let user ← component str s pp
    some { ret with user := user }
  else some ret

def withPass (str : List UInt8) (ret : Url) (pp p : ℕ) : Option Url :=
  if pp < p then do
    let pass ← component str pp p
    some { ret with pass := pass }
  else some ret

/-- The user and the password in front of the '@' at `p`; `pp` is the first ':'. -/
def urlUser (str : List UInt8) (ret : Url) (s p : ℕ) : Option ℕ → Option (Url × ℕ)
  | some pp => do
    let ret ← withUser str ret s pp
    let ret ← withPass str ret (pp + 1) p
    some (ret, p + 1)
  | none => do
    let user ← component str s p
    some ({ ret with user := user }, p + 1)

/-- `check for login and password`, and where the host starts. -/
def urlLogin (str : List UInt8) (ret : Url) (s e : ℕ) : Option (Url × ℕ) := do
  match ← zendMemrchr str (ch '@') s e with
  | some p => do
    let pp ← memchr str (ch ':') s p
    urlUser str ret s p pp
  | none => some (ret, s)

/-- `*(e - 1)` -/
def urlBefore (str : List UInt8) : ℕ → Option UInt8
  | 0 => none
  | e + 1 => urlAt str e

/-- `*s == '[' && *(e - 1) == ']'` -/
def bracketed (str : List UInt8) (s e : ℕ) : Option Bool := do
  let b ← urlAt str s
  if b = ch '[' then do
    let c ← urlBefore str e
    some (c == ch ']')
  else some false

/-- `for (p = e; *p != ':' && p >= s; p--)`; the argument is `p + 1`. -/
def portScan (str : List UInt8) (s : ℕ) : ℕ → Option ℕ
  | 0 => none
  | p + 1 => do
    let b ← urlAt str p
    if b ≠ ch ':' ∧ s ≤ p then portScan str s p else some p

/-- `check for port`: the pointer `p`. -/
def portPointer (str : List UInt8) (s e : ℕ) : Option ℕ := do
  let brackets ← bracketed str s e
  if brackets then some s else portScan str s (e + 1)

/-- The port behind the ':' at `p`; `none` inside where it is rejected. -/
def withPort (str : List UInt8) (ret : Url) (p e : ℕ) : Option (Option Url) :=
  if ret.port ≠ 0 then some ret
  else if e - p > 5 then some none
  else if e - p > 0 then do
    let buf ← estrndup str p e
    if portValid buf then some (some { ret with port := (strtolPort buf).toNat }) else some none
  else some ret

/-- The host ends at `p`, the authority at `e`. -/
def withHost (str : List UInt8) (s e ue p : ℕ) : Option Url → Option (Option Url)
  | none => some none
  | some ret =>
    if p < s + 1 then some none
    else do
      let host ← component str s p
      if e = ue then some (some { ret with host := host })
      else do
        let ret ← urlNohost str { ret with host := host } e ue
        some (some ret)

/-- `if (p >= s && *p == ':')` and all that follows. -/
def urlPort (str : List UInt8) (ret : Url) (s e ue p : ℕ) : Option (Option Url) :=
  if s ≤ p then do
    let b ← urlAt str p
    if b = ch ':' then do
      let ret ← withPort str ret (p + 1) e
      withHost str s e ue p ret
    else withHost str s e ue e ret
  else withHost str s e ue e ret

/-- From `e = ue` on. -/
def urlHost (str : List UInt8) (ret : Url) (s ue : ℕ) : Option (Option Url) := do
  let e ← authorityEnd str s ue
  let login ← urlLogin str ret s e
  let p ← portPointer str login.2 e
  urlPort str login.1 login.2 e ue p

/-- From the label `parse_port` on; the ':' is at `e` and nothing has been stored. -/
def parsePort (str : List UInt8) (e : ℕ) : Option (Option Url) := do
  let p := e + 1
  let pp ← skipDigits str 6 p
  if 0 < pp - p ∧ pp - p < 6 then do
    let b ← urlAt str pp
    if b = ch '/' ∨ b = 0 then do
      let buf ← estrndup str p pp
      if portValid buf then
        urlHost str { Url.blank with port := (strtolPort buf).toNat } 0 str.length
      else some none
    else (justPath str Url.blank 0 str.length).map some
  else if p = pp then do
    let b ← urlAt str pp
    if b = 0 then some none else (justPath str Url.blank 0 str.length).map some
  else (justPath str Url.blank 0 str.length).map some

/-- A scheme ends at `e` and a '/' follows the ':'. -/
def urlSlash (str : List UInt8) (e : ℕ) : Option (Option Url) := do
  let scheme ← component str 0 e
  let ret := { Url.blank with scheme := some scheme }
  let b ← urlAt str (e + 2)
  if b = ch '/' then
    if isFileScheme scheme then do
      let b ← urlAt str (e + 3)
      if b = ch '/' then do
        -- windows drive letters: file:///c:/somedir/file.txt
        let b ← urlAt str (e + 5)
        (urlNohost str ret (if b = ch ':' then e + 4 else e + 3) str.length).map some
      else urlHost str ret (e + 3) str.length
    else urlHost str ret (e + 3) str.length
  else if isFileScheme scheme then (urlNohost str ret (e + 1) str.length).map some
  else (justPath str ret (e + 1) (str.length - (e + 1))).map some

/-- The text in front of the ':' at `e` may be a scheme. -/
def urlScheme (str : List UInt8) (e : ℕ) : Option (Option Url) := do
  let b ← urlAt str (e + 1)
  if b = 0 then do
    let scheme ← component str 0 e
    some (some { Url.blank with scheme := some scheme })
  else if b ≠ ch '/' then do
    -- a.com:80
    let p ← skipDigits str (str.length + 1) (e + 1)
    let b ← urlAt str p
    if (b = 0 ∨ b = ch '/') ∧ p - e < 7 then parsePort str e
    else do
      let scheme ← component str 0 e
      (justPath str { Url.blank with scheme := some scheme } (e + 1)
        (str.length - (e + 1))).map some
  else urlSlash str e

/-- The first ':' is at `e`, behind other bytes. -/
def urlPrefixed (str : List UInt8) (e : ℕ) : Option (Option Url) := do
  let bad ← firstIn (urlAt str) (fun b => !schemeChar b) e 0
  if bad.isSome then
    if e + 1 < str.length then parsePort str e
    else (justPath str Url.blank 0 str.length).map some
  else urlScheme str e

/-- The `Url`, or `none` where NULL is returned; `none` for all that is a read outside. -/
def phpUrlParseEx (str : List UInt8) : Option (Option Url) := do
  match ← memchr str (ch ':') 0 str.length with
  | some e => if e = 0 then parsePort str 0 else urlPrefixed str e
  | none => (justPath str Url.blank 0 str.length).map some

end Php53.Standard
