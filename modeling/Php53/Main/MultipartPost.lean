import Php53.Main.MultipartBuffer
import Php53.Reasoning.Search
import Php53.Standard.StripTags

/-!
# MultipartPost — the form fields of `rfc1867_post_handler`

The handler with `file_uploads` off, which skips the files, and without `mbstring`.
-/

open Reasoning

namespace Php53.Main

open Zend
open Standard (Ctype)

def str (s : String) : List UInt8 := s.toList.map ch

/-- `strcasecmp(a, b) == 0` -/
def strcaseeq (t : Ctype) (a b : List UInt8) : Bool := a.map t.tolower = b.map t.tolower

def phpMimeGetHdrValue (t : Ctype) (header : List MultipartBuffer.MimeHeaderEntry) (key : List UInt8) :
    Option (List UInt8) :=
  (header.find? fun entry => strcaseeq t entry.1 key).map (·.2)

/-- How far the loops of `php_ap_getword` go, inside a quote or outside. -/
def wordLength (stop : UInt8) : Option UInt8 → List UInt8 → Nat
  | _, [] => 0
  | none, c :: s =>
    if c = stop then 0
    else wordLength stop (if c = 34 ∨ c = 39 then some c else none) s + 1
  | some _, [_] => 1
  | some quote, c :: d :: s =>
    if c = quote then wordLength stop none (d :: s) + 1
    else if c = 92 ∧ d = quote then wordLength stop (some quote) s + 2
    else wordLength stop (some quote) (d :: s) + 1

/-- `php_ap_getword`: the word, and where `*line` is afterwards. -/
def phpApGetword (line : List UInt8) (stop : UInt8) : List UInt8 × List UInt8 :=
  let pos := wordLength stop none line
  if pos = line.length then (line, [])
  else (line.take pos, (line.drop pos).dropWhile (· = stop))

/-- `substring_conf`, with a quote of 0 for none. -/
def substringConf (quote : UInt8) : List UInt8 → Nat → List UInt8
  | _, 0 => []
  | [], _ => []
  | [c], _ => [c]
  | c :: d :: s, len + 1 =>
    if c = 92 ∧ (d = 92 ∨ quote ≠ 0 ∧ d = quote) then d :: substringConf quote s (len - 1)
    else c :: substringConf quote (d :: s) len

/-- `look_for_quote`: a quote ends the word only at the end of a line. -/
def quotedLength (quote : UInt8) : List UInt8 → Nat
  | [] => 0
  | [c] => if c = quote then 0 else 1
  | c :: d :: s =>
    if c = quote then if d = 13 ∨ d = 10 then 0 else quotedLength quote (d :: s) + 1
    else if c = 92 ∧ d = quote then quotedLength quote s + 2
    else quotedLength quote (d :: s) + 1

def phpApGetwordConf (isspace : UInt8 → Bool) (line : List UInt8) : List UInt8 × List UInt8 :=
  match line.dropWhile isspace with
  | [] => ([], [])
  | quote :: s =>
    if quote = 34 ∨ quote = 39 then
      let len := quotedLength quote s
      (substringConf quote s len, (s.drop (len + 1)).dropWhile isspace)
    else
      let len := ((quote :: s).takeWhile fun c => !isspace c).length
      (substringConf 0 (quote :: s) len, ((quote :: s).drop len).dropWhile isspace)

/-- `param` and `filename` -/
abbrev Disposition := Option (List UInt8) × Option (List UInt8)

/-- `while (*cd && (pair = php_ap_getword(&cd, ';')))` -/
def dispositionLoop (t : Ctype) : Nat → List UInt8 → Disposition → Disposition
  | 0, _, found => found
  | fuel + 1, cd, (param, filename) =>
    if cd = [] then (param, filename)
    else
      let (pair, cd) := phpApGetword cd (ch ';')
      let cd := cd.dropWhile t.isspace
      if ch '=' ∈ pair then
        let (key, pair) := phpApGetword pair (ch '=')
        if strcaseeq t key (str "name") then
          dispositionLoop t fuel cd (some (phpApGetwordConf t.isspace pair).1, filename)
        else if strcaseeq t key (str "filename") then
          dispositionLoop t fuel cd (param, some (phpApGetwordConf t.isspace pair).1)
        else dispositionLoop t fuel cd (param, filename)
      else dispositionLoop t fuel cd (param, filename)

def contentDisposition (t : Ctype) (cd : List UInt8) : Disposition :=
  let cd := cd.dropWhile t.isspace
  dispositionLoop t cd.length cd (none, none)

/-- The boundary that the content type names. -/
def getBoundary (t : Ctype) (contentTypeDup : List UInt8) : Except String (List UInt8) :=
  let boundary := match search (str "boundary") contentTypeDup with
    | some boundary => some boundary
    | none => search (str "boundary") (contentTypeDup.map t.tolower)
  match boundary.bind (strchr contentTypeDup · (ch '=')) with
  | none => .error "Missing boundary in multipart/form-data POST data"
  | some boundary =>
    let boundary := contentTypeDup.drop (boundary + 1)
    if boundary.head? = some 34 then
      match strchr boundary.tail 0 34 with
      | some boundaryEnd => .ok (boundary.tail.take boundaryEnd)
      | none => .error "Invalid boundary in multipart/form-data POST data"
    else .ok (boundary.takeWhile fun c => c ≠ ch ',' ∧ c ≠ ch ';')

/-- What the handler makes of a part: a variable, which it passes to `input_filter`, or an error. -/
inductive PostEvent where
  | variable (param value : List UInt8)
  | error (message : String)
  deriving DecidableEq, Repr

/-- `while (!multipart_buffer_eof(mbuff))` -/
def multipartLoop (t : Ctype) (bufsize : Nat) (boundary boundaryNext : List UInt8) :
    Nat → MultipartBuffer → List PostEvent
  | 0, _ => []
  | fuel + 1, mbuff =>
    let (eof, mbuff) := mbuff.multipartBufferEof bufsize
    if eof then []
    else
      let (header, mbuff) := mbuff.multipartBufferHeaders bufsize t.isspace boundary
      match header with
      | none => []
      | some header =>
        match phpMimeGetHdrValue t header (str "Content-Disposition") with
        | none => multipartLoop t bufsize boundary boundaryNext fuel mbuff
        | some cd =>
          match contentDisposition t cd with
          | (some param, none) =>
            let (value, mbuff) := mbuff.multipartBufferReadBody bufsize boundaryNext
            .variable param value :: multipartLoop t bufsize boundary boundaryNext fuel mbuff
          | (none, none) => [.error "File Upload Mime headers garbled"]
          | (_, some _) => multipartLoop t bufsize boundary boundaryNext fuel mbuff

/-- `rfc1867_post_handler`, with the pieces that `read_post` delivers. -/
def rfc1867PostHandler (t : Ctype) (contentTypeDup : List UInt8) (pieces : List (List UInt8)) :
    List PostEvent :=
  match getBoundary t contentTypeDup with
  | .error message => [.error message]
  | .ok boundary =>
    let minsize := boundary.length + 6
    let minsize := if minsize < fillUnit then fillUnit else minsize
    let mbuff : MultipartBuffer := { pieces }
    multipartLoop t minsize (str "--" ++ boundary) (10 :: (str "--" ++ boundary)) mbuff.fuel mbuff

end Php53.Main
