import Php53.Main.UrlCode

/-!
# MultipartBuffer — the read buffer of `rfc1867.c`

The bytes from `buf_begin` on are a window into what the client sends; `fill_buffer` moves them to the
start of the buffer and reads as much as there is room for.  What `read_post` delivers comes in pieces.
-/

open Reasoning

namespace Php53.Main

open Zend

def fillUnit : Nat := 1024 * 5

/-- `multipart_buffer`: the bytes that are in the buffer, and the ones that `read_post` has not
delivered yet. -/
structure MultipartBuffer where
  window : List UInt8 := []
  pieces : List (List UInt8)

namespace MultipartBuffer

/-- `sapi_module.read_post`: at most `n` bytes of the first piece. -/
def readPost (n : Nat) : List (List UInt8) → List UInt8 × List (List UInt8)
  | [] => ([], [])
  | piece :: pieces =>
    if piece.length ≤ n then (piece, pieces) else (piece.take n, piece.drop n :: pieces)

/-- `while (bytes_to_read > 0)` -/
def fillLoop : Nat → Nat → MultipartBuffer → MultipartBuffer
  | 0, _, self => self
  | fuel + 1, bytesToRead, self =>
    if bytesToRead = 0 then self
    else
      let (buf, pieces) := readPost bytesToRead self.pieces
      if buf = [] then { self with pieces }
      else fillLoop fuel (bytesToRead - buf.length) ⟨self.window ++ buf, pieces⟩

def fillBuffer (bufsize : Nat) (self : MultipartBuffer) : MultipartBuffer :=
  fillLoop (bufsize + 1) (bufsize - self.window.length) self

def multipartBufferEof (bufsize : Nat) (self : MultipartBuffer) : Bool × MultipartBuffer :=
  if self.window = [] then
    let self := self.fillBuffer bufsize
    (self.window = [], self)
  else (false, self)

/-- `next_line`: the line as a string, that is without what follows a NUL. -/
def nextLine (bufsize : Nat) (self : MultipartBuffer) : Option (List UInt8) × MultipartBuffer :=
  match memchr self.window 0 10 self.window.length with
  | some ptr =>
    let line := self.window.take ptr
    let line := if line.getLast? = some 13 then line.dropLast else line
    (some (cString line 0), { self with window := self.window.drop (ptr + 1) })
  | none =>
    if self.window.length < bufsize then (none, self)
    else (some (cString self.window 0), { self with window := [] })

def getLine (bufsize : Nat) (self : MultipartBuffer) : Option (List UInt8) × MultipartBuffer :=
  match self.nextLine bufsize with
  | (some line, self) => (some line, self)
  | (none, self) => (self.fillBuffer bufsize).nextLine bufsize

def findBoundary (bufsize : Nat) (boundary : List UInt8) :
    Nat → MultipartBuffer → Bool × MultipartBuffer
  | 0, self => (false, self)
  | fuel + 1, self =>
    match self.getLine bufsize with
    | (some line, self) =>
      if line = boundary then (true, self) else findBoundary bufsize boundary fuel self
    | (none, self) => (false, self)

/-- A `mime_header_entry`, the key and the value. -/
abbrev MimeHeaderEntry := List UInt8 × List UInt8

/-- What a line adds to the headers. -/
def headerLine (isspace : UInt8 → Bool) (line : List UInt8) (header : List MimeHeaderEntry) :
    List MimeHeaderEntry :=
  let value := if line.head?.any isspace then none else strchr line 0 (ch ':')
  match value with
  | some value => header ++ [(line.take value, (line.drop (value + 1)).dropWhile isspace)]
  | none =>
    match header.getLast? with
    | some prevEntry => header.dropLast ++ [(prevEntry.1, prevEntry.2 ++ line)]
    | none => header

/-- The loop over the lines of text. -/
def headerLoop (bufsize : Nat) (isspace : UInt8 → Bool) :
    Nat → List MimeHeaderEntry → MultipartBuffer → List MimeHeaderEntry × MultipartBuffer
  | 0, header, self => (header, self)
  | fuel + 1, header, self =>
    match self.getLine bufsize with
    | (some line, self) =>
      if line = [] then (header, self)
      else headerLoop bufsize isspace fuel (headerLine isspace line header) self
    | (none, self) => (header, self)

def fuel (self : MultipartBuffer) : Nat := (self.window ++ self.pieces.flatten).length + 1

def multipartBufferHeaders (bufsize : Nat) (isspace : UInt8 → Bool) (boundary : List UInt8)
    (self : MultipartBuffer) : Option (List MimeHeaderEntry) × MultipartBuffer :=
  let (found, self) := findBoundary bufsize boundary self.fuel self
  if found then
    let (header, self) := headerLoop bufsize isspace self.fuel [] self
    (some header, self)
  else (none, self)

/-- `php_ap_memstr`, from `ptr` on, with the first byte of the needle. -/
def phpApMemstr (haystack : List UInt8) (first : UInt8) (needle : List UInt8) (allowPart : Bool) :
    Nat → Nat → Option Nat
  | 0, _ => none
  | fuel + 1, ptr =>
    match memchr haystack ptr first (haystack.length - ptr) with
    | none => none
    | some ptr =>
      let len := haystack.length - ptr
      if needle.take len = (haystack.drop ptr).take needle.length ∧
          (allowPart = true ∨ needle.length ≤ len) then
        some ptr
      else phpApMemstr haystack first needle allowPart fuel (ptr + 1)

/-- `multipart_buffer_read` into a buffer of `bytes` bytes, without `end`. -/
def multipartBufferRead (bufsize : Nat) (boundaryNext : List UInt8) (bytes : Nat)
    (self : MultipartBuffer) : List UInt8 × MultipartBuffer :=
  let self := if bytes > self.window.length then self.fillBuffer bufsize else self
  let bound := phpApMemstr self.window 10 boundaryNext true (self.window.length + 1) 0
  let max := bound.getD self.window.length
  let len := if max < bytes - 1 then max else bytes - 1
  let buf := self.window.take len
  let len := if bound.isSome ∧ buf.getLast? = some 13 then len - 1 else len
  (self.window.take len, { self with window := self.window.drop len })

/-- `multipart_buffer_read_body` -/
def readBodyLoop (bufsize : Nat) (boundaryNext : List UInt8) :
    Nat → MultipartBuffer → List UInt8 × MultipartBuffer
  | 0, self => ([], self)
  | fuel + 1, self =>
    match self.multipartBufferRead bufsize boundaryNext fillUnit with
    | ([], self) => ([], self)
    | (buf, self) =>
      let (out, self) := readBodyLoop bufsize boundaryNext fuel self
      (buf ++ out, self)

def multipartBufferReadBody (bufsize : Nat) (boundaryNext : List UInt8) (self : MultipartBuffer) :
    List UInt8 × MultipartBuffer :=
  readBodyLoop bufsize boundaryNext self.fuel self

end MultipartBuffer

end Php53.Main
