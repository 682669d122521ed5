import Mathlib.Data.List.Basic
import Php53.Zend.Decimal

/-!
# StripTags — `php_strip_tags`, called on the pieces of a text

The function keeps nothing between two calls but the state, and it begins with a bracket counter of
0, no open quote and an empty tag buffer each time.
-/

namespace Php53.Standard

open Zend (ch)

/-- `isspace` and `tolower` in the locale of the process, as far as every locale agrees. -/
structure Ctype where
  isspace : UInt8 → Bool
  tolower : UInt8 → UInt8
  isspace_ascii : ∀ c, c < 128 → isspace c = decide (c = 32 ∨ 9 ≤ c ∧ c ≤ 13)
  tolower_ascii : ∀ c, c < 128 → ¬ (ch 'A' ≤ c ∧ c ≤ ch 'Z') → tolower c = c
  tolower_tolower : ∀ c, tolower (tolower c) = tolower c

/-- The "C" locale. -/
def Ctype.c : Ctype where
  isspace c := decide (c = 32 ∨ 9 ≤ c ∧ c ≤ 13)
  tolower c := if ch 'A' ≤ c ∧ c ≤ ch 'Z' then c + 32 else c
  isspace_ascii _ _ := rfl
  tolower_ascii _ _ hc := if_neg hc
  tolower_tolower c := by
    by_cases h : ch 'A' ≤ c ∧ c ≤ ch 'Z'
    · rw [if_pos h, if_neg]
      rintro ⟨-, hle⟩
      have hA : 65 ≤ c.toNat := UInt8.le_iff_toNat_le.mp h.1
      have hZ : c.toNat ≤ 90 := UInt8.le_iff_toNat_le.mp h.2
      have hlower : (c + 32).toNat ≤ 90 := UInt8.le_iff_toNat_le.mp hle
      rw [UInt8.toNat_add] at hlower
      have : (32 : UInt8).toNat = 32 := rfl
      omega
    · rw [if_neg h, if_neg h]

/-- The values 0 to 4 of `state`. -/
inductive StripState where
  | output | html | php | declaration | comment
  deriving DecidableEq, Repr

/-- The variables of `php_strip_tags_ex`; `in_q` is 0 or a quote, `tbuf` and `out` are what was
written to `tp` and `rp`. -/
structure StripVars where
  state : StripState
  depth : Nat
  inQ : UInt8
  lc : UInt8
  br : Int
  tbuf : List UInt8
  out : List UInt8
  deriving DecidableEq, Repr

/-- The loop of `php_tag_find`; `seen` is its state.  A tag ends with `>`. -/
def normalizeTag (t : Ctype) : Bool → List UInt8 → List UInt8
  | _, [] => []
  | seen, c :: tag =>
    let c := t.tolower c
    if c = ch '<' then c :: normalizeTag t seen tag
    else if c = ch '>' then []
    else if t.isspace c then if seen then [] else normalizeTag t seen tag
    else if c = ch '/' then normalizeTag t true tag
    else c :: normalizeTag t true tag

def strstr (set norm : List UInt8) : Bool := set.tails.any norm.isPrefixOf

def phpTagFind (t : Ctype) (tag set : List UInt8) : Bool :=
  if tag.length = 0 then false else strstr set (normalizeTag t false tag ++ [ch '>'])

namespace StripVars

/-- `if (allow) *(tp++) = c` -/
def keep (allow : Option (List UInt8)) (c : UInt8) (v : StripVars) : StripVars :=
  if allow.isSome then { v with tbuf := v.tbuf ++ [c] } else v

def regChar (allow : Option (List UInt8)) (c : UInt8) (v : StripVars) : StripVars :=
  match v.state with
  | .output => { v with out := v.out ++ [c] }
  | .html => v.keep allow c
  | _ => v

/-- `in_q = state = 0; tp = tbuf;` -/
def close (v : StripVars) : StripVars := { v with inQ := 0, state := .output, tbuf := [] }

/-- `case '<':` -/
def lessThan (t : Ctype) (spaces : Bool) (allow : Option (List UInt8)) (next : UInt8)
    (v : StripVars) : StripVars :=
  if v.inQ ≠ 0 then v
  else if t.isspace next ∧ spaces = false then v.regChar allow (ch '<')
  else
    match v.state with
    | .output => { v with lc := ch '<', state := .html }.keep allow (ch '<')
    | .html => { v with depth := v.depth + 1 }
    | _ => v

/-- `case '(':` and `case ')':` -/
def bracket (allow : Option (List UInt8)) (c : UInt8) (v : StripVars) : StripVars :=
  match v.state with
  | .php =>
    if v.lc ≠ ch '"' ∧ v.lc ≠ ch '\'' then
      { v with lc := c, br := if c = ch '(' then v.br + 1 else v.br - 1 }
    else v
  | _ => v.regChar allow c

/-- `case '>':`; `p1` and `p2` are the bytes in front of `p`, `pos` is `p - buf`. -/
def greaterThan (t : Ctype) (allow : Option (List UInt8)) (pos : Nat) (p1 p2 : UInt8)
    (v : StripVars) : StripVars :=
  if v.depth ≠ 0 then { v with depth := v.depth - 1 }
  else if v.inQ ≠ 0 then v
  else
    match v.state with
    | .html =>
      let v := { v with lc := ch '>', inQ := 0, state := .output }
      match allow with
      | some set =>
        let tbuf := v.tbuf ++ [ch '>']
        { v with out := if phpTagFind t tbuf set then v.out ++ tbuf else v.out, tbuf := [] }
      | none => v
    | .php => if v.br = 0 ∧ v.lc ≠ ch '"' ∧ p1 = ch '?' then v.close else v
    | .declaration => v.close
    | .comment => if 2 ≤ pos ∧ p1 = ch '-' ∧ p2 = ch '-' then v.close else v
    | .output => { v with out := v.out ++ [ch '>'] }

/-- `case '"':` and `case '\'':` -/
def quote (allow : Option (List UInt8)) (c : UInt8) (pos : Nat) (p1 : UInt8) (v : StripVars) :
    StripVars :=
  if v.state = .comment then v
  else
    let w :=
      if v.state = .php ∧ p1 ≠ ch '\\' then
        if v.lc = c then { v with lc := 0 } else if v.lc ≠ ch '\\' then { v with lc := c } else v
      else v.regChar allow c
    if v.state ≠ .output ∧ pos ≠ 0 ∧ (v.state = .html ∨ p1 ≠ ch '\\') ∧ (v.inQ = 0 ∨ c = v.inQ) then
      { w with inQ := if v.inQ ≠ 0 then 0 else c }
    else w

/-- `case 'l':` and `case 'L':`, where some other cases end as well. -/
def xml (t : Ctype) (allow : Option (List UInt8)) (c : UInt8) (pos : Nat) (p1 p2 : UInt8)
    (v : StripVars) : StripVars :=
  if v.state = .php ∧ 2 < pos ∧ t.tolower p2 = ch 'x' ∧ t.tolower p1 = ch 'm' then
    { v with state := .html }
  else v.regChar allow c

/-- The six bytes in front of `p`, the nearest first. -/
def isDoctyp (t : Ctype) (behind : List UInt8) : Prop :=
  (behind.take 6).map t.tolower = [ch 'p', ch 'y', ch 't', ch 'c', ch 'o', ch 'd']

instance (t : Ctype) (behind : List UInt8) : Decidable (isDoctyp t behind) :=
  inferInstanceAs (Decidable (_ = _))

/-- `case 'E':` and `case 'e':` -/
def doctype (t : Ctype) (allow : Option (List UInt8)) (c : UInt8) (behind : List UInt8)
    (p1 p2 : UInt8) (v : StripVars) : StripVars :=
  if v.state = .declaration ∧ 6 < behind.length ∧ isDoctyp t behind then { v with state := .html }
  else v.xml t allow c behind.length p1 p2

/-- One round of the loop: `c` is the byte at `p`, `next` the one behind it, `behind` are those in
front of it in the buffer, the nearest first, and `before` is the byte in front of the buffer. -/
def step (t : Ctype) (spaces : Bool) (allow : Option (List UInt8)) (before : UInt8)
    (behind : List UInt8) (c next : UInt8) (v : StripVars) : StripVars :=
  let pos := behind.length
  let p1 := behind.headD before
  let p2 := behind.tail.headD before
  if c = 0 then v
  else if c = ch '<' then v.lessThan t spaces allow next
  else if c = ch '(' ∨ c = ch ')' then v.bracket allow c
  else if c = ch '>' then v.greaterThan t allow pos p1 p2
  else if c = ch '"' ∨ c = ch '\'' then v.quote allow c pos p1
  else if c = ch '!' then
    if v.state = .html ∧ p1 = ch '<' then { v with state := .declaration, lc := c }
    else v.regChar allow c
  else if c = ch '-' then
    if v.state = .declaration ∧ 2 ≤ pos ∧ p1 = ch '-' ∧ p2 = ch '!' then { v with state := .comment }
    else v.regChar allow c
  else if c = ch '?' then
    if v.state = .html ∧ p1 = ch '<' then { v with br := 0, state := .php }
    else v.doctype t allow c behind p1 p2
  else if c = ch 'E' ∨ c = ch 'e' then v.doctype t allow c behind p1 p2
  else if c = ch 'l' ∨ c = ch 'L' then v.xml t allow c pos p1 p2
  else v.regChar allow c

/-- `while (i < len)`; `last` is the byte behind the buffer. -/
def scan (t : Ctype) (spaces : Bool) (allow : Option (List UInt8)) (before : UInt8) :
    List UInt8 → StripVars → List UInt8 → UInt8 → StripVars
  | _, v, [], _ => v
  | behind, v, c :: rest, last =>
    scan t spaces allow before (c :: behind)
      (v.step t spaces allow before behind c (rest.headD last)) rest last

def start (state : StripState) : StripVars :=
  { state, depth := 0, inQ := 0, lc := 0, br := 0, tbuf := [], out := [] }

end StripVars

/-- What `php_strip_tags_ex` leaves in `rbuf`, `*stateptr` and `allow`. -/
structure Stripped where
  out : List UInt8
  state : StripState
  allow : Option (List UInt8)

/-- `php_strip_tags_ex`; `len` is the length of `rbuf`, an `int`, `allow` ends at its NUL and is no
longer than `allow_len`. -/
def phpStripTagsEx (t : Ctype) (spaces : Bool) (before : UInt8) (rbuf : List UInt8)
    (state : StripState) (allow : Option (List UInt8)) : Stripped :=
  let allow := allow.map (·.map t.tolower)
  let v := StripVars.scan t spaces allow before [] (.start state) rbuf 0
  { out := v.out, state := v.state, allow }

/-- Calls on the pieces of a text, each with the byte in front of its buffer, with the same
`stateptr` and `allow`, as `strfilter_strip_tags_filter` and `fgetss` make them. -/
def stripPieces (t : Ctype) (spaces : Bool) :
    StripState → Option (List UInt8) → List (UInt8 × List UInt8) → List UInt8
  | _, _, [] => []
  | state, allow, (before, piece) :: pieces =>
    let r := phpStripTagsEx t spaces before piece state allow
    r.out ++ stripPieces t spaces r.state r.allow pieces

end Php53.Standard
