import Mathlib.Algebra.GroupWithZero.Nat
import Mathlib.Algebra.Group.Int.Defs
import Mathlib.Data.List.Basic

/-!
# Stream — buffered streams and their read filters

A stream keeps what it has read ahead in `readbuf`, between `readpos` and `writepos`.  The file under
it is an array of bytes with a position.
-/

namespace Php53.Streams

structure File where
  bytes : List UInt8
  pos : Nat
  reads : Nat  -- the calls of `read` so far
  deriving DecidableEq, Repr

inductive Whence where
  | set
  | cur
  | fromEnd
  | other
  deriving DecidableEq, Repr

/-- `lseek` in a file of the given size, none if it fails. -/
def lseek (size pos : Nat) (offset : Int) (whence : Whence) : Option Nat :=
  let target := match whence with
    | .set => some offset
    | .cur => some (pos + offset)
    | .fromEnd => some (size + offset)
    | .other => none
  target.bind fun t => if 0 ≤ t then some t.toNat else none

def overlay (bytes : List UInt8) (pos : Nat) (data : List UInt8) : List UInt8 :=
  (bytes ++ List.replicate (pos - bytes.length) 0).take pos ++ data ++ bytes.drop (pos + data.length)

namespace File

/-- The call number `k` of `read` returns up to `sizes k` bytes. -/
def read (sizes : Nat → Nat) (f : File) (count : Nat) : List UInt8 × File :=
  let data := (f.bytes.drop f.pos).take (min (sizes f.reads) count)
  (data, { f with pos := f.pos + data.length, reads := f.reads + 1 })

def write (f : File) (data : List UInt8) : File :=
  { f with bytes := overlay f.bytes f.pos data, pos := f.pos + data.length }

end File

inductive FilterStatus where
  | errFatal
  | feedMe
  | passOn
  deriving DecidableEq, Repr

inductive FilterFlags where
  | normal
  | flushInc
  | flushClose
  deriving DecidableEq, Repr

abbrev Brigade := List (List UInt8)

/-- What `filter->fops->filter` does with a brigade, for a filter in a state. -/
abbrev FilterOps (F : Type) := F → Brigade → FilterFlags → FilterStatus × Brigade × F

/-- A chunk has a size that is set from an `int`. -/
abbrev ChunkSize := { n : Nat // 0 < n ∧ n < 2 ^ 31 }

structure PhpStream (F : Type) where
  file : File
  readfilters : List F
  readbuf : List UInt8
  readpos : Nat
  writepos : Nat
  position : Nat
  eof : Bool
  chunkSize : ChunkSize
  noBuffer : Bool
  detectEol : Bool
  eolMac : Bool
  seekable : Bool  -- `ops->seek`, and the flag for no seeking is not set
  plainFiles : Bool  -- `wrapper == &php_plain_files_wrapper`

/-- The calls of a user. -/
inductive StreamOp where
  | read (size : Nat)
  | getLine (maxlen : Option Nat)
  | getRecord (maxlen : Nat) (delim : List UInt8)
  | write (buf : List UInt8)
  | seek (offset : Int) (whence : Whence)
  | setNoBuffer (value : Bool)
  deriving DecidableEq, Repr

inductive StreamResult where
  | data (bytes : Option (List UInt8))
  | count (n : Nat)
  | code (ret : Int)
  deriving DecidableEq, Repr

namespace PhpStream

variable {F : Type}

/-- `writepos - readpos` -/
def avail (s : PhpStream F) : Nat := s.writepos - s.readpos

/-- The next `n` bytes of `readbuf`. -/
def peek (s : PhpStream F) (n : Nat) : List UInt8 := (s.readbuf.drop s.readpos).take n

/-- `ops->read` of a plain file.  No byte read means the end of the file, or no data yet. -/
def opsRead (sizes : Nat → Nat) (s : PhpStream F) (count : Nat) : List UInt8 × PhpStream F :=
  let r := s.file.read sizes count
  (r.1, { s with file := r.2, eof := decide (s.file.bytes.length ≤ s.file.pos) })

/-- `ops->seek`, with `&stream->position` for the new offset. -/
def opsSeek (s : PhpStream F) (offset : Int) (whence : Whence) : Int × PhpStream F :=
  match lseek s.file.bytes.length s.file.pos offset whence with
  | some pos => (0, { s with file := { s.file with pos := pos }, position := pos })
  | none => (-1, s)

/-- The filters of the chain in their order, until one of them does not pass its output on. -/
def windFilters (filter : FilterOps F) : List F → Brigade → FilterFlags →
    FilterStatus × Brigade × List F
  | [], brigade, _ => (.passOn, brigade, [])
  | f :: fs, brigade, flags =>
    match filter f brigade flags with
    | (.passOn, out, f) =>
      let r := windFilters filter fs out flags
      (r.1, r.2.1, f :: r.2.2)
    | (status, _, f) => (status, [], f :: fs)

/-- Bytes are stored at `writepos`. -/
def putBytes (s : PhpStream F) (data : List UInt8) : PhpStream F :=
  { s with
    readbuf := s.readbuf.take s.writepos ++ data ++ s.readbuf.drop (s.writepos + data.length)
    writepos := s.writepos + data.length }

def appendBucket (s : PhpStream F) (bucket : List UInt8) : PhpStream F :=
  if s.readbuf.length - s.writepos < bucket.length then
    ({ s with readbuf := s.readbuf ++ List.replicate bucket.length 0 } : PhpStream F).putBytes bucket
  else s.putBytes bucket

def brigadeOf (data : List UInt8) : Brigade := if data = [] then [] else [data]

def readFlags (data : List UInt8) (eof : Bool) : FilterFlags :=
  if data ≠ [] then .normal else if eof then .flushClose else .flushInc

def fillRound (filter : FilterOps F) (sizes : Nat → Nat) (s : PhpStream F) : Bool × PhpStream F :=
  let (data, s) := s.opsRead sizes s.chunkSize.val
  match windFilters filter s.readfilters (brigadeOf data) (readFlags data s.eof) with
  | (.passOn, out, fs) => (data ≠ [], out.foldl appendBucket { s with readfilters := fs })
  | (.feedMe, _, fs) => (data ≠ [], { s with readfilters := fs })
  | (.errFatal, _, fs) => (false, { s with readfilters := fs })

/-- Each round but the last one takes at least a byte from the file. -/
def fillFiltered (filter : FilterOps F) (sizes : Nat → Nat) :
    Nat → Nat → PhpStream F → PhpStream F
  | 0, _, s => s
  | fuel + 1, size, s =>
    if s.eof = false ∧ s.avail < size then
      let (more, s) := s.fillRound filter sizes
      if more then fillFiltered filter sizes fuel size s else s
    else s

/-- `memmove` of the buffer to its front; the bytes behind the moved ones stay as they are. -/
def compactBuffer (s : PhpStream F) : PhpStream F :=
  if s.readbuf.length - s.writepos < s.chunkSize.val then
    { s with
      readbuf := s.readbuf.drop s.readpos ++ s.readbuf.drop (s.readbuf.length - s.readpos)
      writepos := s.writepos - s.readpos, readpos := 0 }
  else s

def growBuffer (s : PhpStream F) : PhpStream F :=
  if s.readbuf.length - s.writepos < s.chunkSize.val then
    { s with readbuf := s.readbuf ++ List.replicate s.chunkSize.val 0 }
  else s

/-- Without filters, one read of the room behind `writepos`. -/
def fillUnfiltered (sizes : Nat → Nat) (size : Nat) (s : PhpStream F) : PhpStream F :=
  if s.avail < size then
    let s := s.compactBuffer.growBuffer
    let (data, s) := s.opsRead sizes (s.readbuf.length - s.writepos)
    s.putBytes data
  else s

def fillReadBuffer (filter : FilterOps F) (sizes : Nat → Nat) (size : Nat) (s : PhpStream F) :
    PhpStream F :=
  if s.readfilters = [] then fillUnfiltered sizes size s
  else
    fillFiltered filter sizes (s.file.bytes.length - s.file.pos + 1) size
      { s with readpos := 0, writepos := 0 }

/-- Up to `size` bytes of the buffer. -/
def drain (s : PhpStream F) (size : Nat) : List UInt8 × PhpStream F :=
  let toread := min s.avail size
  (s.peek toread, { s with readpos := s.readpos + toread })

/-- The loop of `_php_stream_read`; each round but the last one reads at least a byte. -/
def readLoop (filter : FilterOps F) (sizes : Nat → Nat) :
    Nat → Nat → PhpStream F → List UInt8 × PhpStream F
  | 0, _, s => ([], s)
  | fuel + 1, size, s =>
    if size = 0 then ([], s)
    else
      let (first, s) := s.drain size
      if size - first.length = 0 then (first, s)
      else
        let (more, s) :=
          if s.readfilters = [] ∧ (s.noBuffer ∨ s.chunkSize.val = 1) then
            s.opsRead sizes (size - first.length)
          else (s.fillReadBuffer filter sizes (size - first.length)).drain (size - first.length)
        if more = [] ∨ s.plainFiles = false then (first ++ more, s)
        else
          let r := readLoop filter sizes fuel (size - first.length - more.length) s
          (first ++ more ++ r.1, r.2)

def streamRead (filter : FilterOps F) (sizes : Nat → Nat) (size : Nat) (s : PhpStream F) :
    List UInt8 × PhpStream F :=
  let r := readLoop filter sizes size size s
  (r.1, { r.2 with position := r.2.position + r.1.length })

def memchr (c : UInt8) (l : List UInt8) : Option Nat := l.findIdx? (· = c)

/-- `php_stream_locate_eol` in the read buffer. -/
def locateEol (s : PhpStream F) : Option Nat × PhpStream F :=
  let window := s.peek s.avail
  if s.detectEol then
    match memchr 13 window, memchr 10 window with
    | some cr, some lf =>
      if lf ≠ cr + 1 ∧ ¬ lf < cr then (some cr, { s with detectEol := false, eolMac := true })
      else (some lf, { s with detectEol := false })
    | some cr, none => (some cr, { s with detectEol := false, eolMac := true })
    | none, some lf => (some lf, { s with detectEol := false })
    | none, none => (none, s)
  else (memchr (if s.eolMac then 13 else 10) window, s)

/-- How much of the window is copied, and whether this ends the line.  `maxlen` is none where the
    buffer of the caller grows. -/
def lineCopy (eol : Option Nat) (avail : Nat) (maxlen : Option Nat) : Nat × Bool :=
  let r := match eol with
    | some i => (i + 1, true)
    | none => (avail, false)
  match maxlen with
  | some m => if r.1 ≥ m - 1 then (m - 1, true) else r
  | none => r

/-- `toread` of a refill for a line. -/
def lineRequest (s : PhpStream F) : Option Nat → Nat
  | none => s.chunkSize.val
  | some m => min (m - 1) s.chunkSize.val

def getLineLoop (filter : FilterOps F) (sizes : Nat → Nat) :
    Nat → Option Nat → PhpStream F → Option (List UInt8 × PhpStream F)
  | 0, _, _ => none
  | fuel + 1, maxlen, s =>
    if 0 < s.avail then
      let (eol, s) := s.locateEol
      let (cpysz, done) := lineCopy eol s.avail maxlen
      let data := s.peek cpysz
      let s := { s with position := s.position + cpysz, readpos := s.readpos + cpysz }
      if done then some (data, s)
      else (getLineLoop filter sizes fuel (maxlen.map (· - cpysz)) s).map fun r => (data ++ r.1, r.2)
    else if s.eof then some ([], s)
    else
      let s := s.fillReadBuffer filter sizes (s.lineRequest maxlen)
      if s.avail = 0 then some ([], s) else getLineLoop filter sizes fuel maxlen s

/-- None for the returned line is `NULL`. -/
def getLine (filter : FilterOps F) (sizes : Nat → Nat) (fuel : Nat) (maxlen : Option Nat)
    (s : PhpStream F) : Option (Option (List UInt8) × PhpStream F) :=
  if maxlen = some 0 then some (none, s)
  else
    (getLineLoop filter sizes fuel maxlen s).map fun (data, s) =>
      (if data = [] then none else some data, s)

/-- The loop of `zend_memnstr`: `end` is `needle_len` before the end of the haystack. -/
def memnstrLoop (needle hay : List UInt8) : Nat → Nat → Option Nat
  | 0, _ => none
  | fuel + 1, p =>
    if p + needle.length ≤ hay.length then
      match memchr (needle.headD 0)
          ((hay.drop p).take (hay.length - needle.length - p + 1)) with
      | none => none
      | some q =>
        if hay[p + q + needle.length - 1]? = needle.getLast? ∧
            (hay.drop (p + q)).take (needle.length - 1) = needle.take (needle.length - 1) then
          some (p + q)
        else memnstrLoop needle hay fuel (p + q + 1)
    else none

def memnstr (needle hay : List UInt8) : Option Nat :=
  if needle.length = 1 then memchr (needle.headD 0) hay
  else memnstrLoop needle hay (hay.length + 1) 0

/-- `_php_stream_search_delim`; the place is relative to `readpos`. -/
def searchDelim (s : PhpStream F) (maxlen skiplen : Nat) (delim : List UInt8) : Option Nat :=
  let seekLen := min s.avail maxlen
  if seekLen ≤ skiplen then none
  else
    let hay := (s.readbuf.drop (s.readpos + skiplen)).take (seekLen - skiplen)
    (if delim.length = 1 then memchr (delim.headD 0) hay else memnstr delim hay).map (skiplen + ·)

/-- `has_delim`, then the search. -/
def findDelim (s : PhpStream F) (maxlen skiplen : Nat) (delim : List UInt8) : Option Nat :=
  if delim = [] then none else s.searchDelim maxlen skiplen delim

/-- The loop that reads until the delimiter is found. -/
def recordLoop (filter : FilterOps F) (sizes : Nat → Nat) (maxlen : Nat) (delim : List UInt8) :
    Nat → Nat → Option Nat → PhpStream F → Option (Option Nat × PhpStream F)
  | 0, _, _, _ => none
  | fuel + 1, bufferedLen, found, s =>
    if found = none ∧ bufferedLen < maxlen then
      let s := s.fillReadBuffer filter sizes (bufferedLen + min (maxlen - bufferedLen) s.chunkSize.val)
      if s.avail = bufferedLen then some (none, s)
      else
        recordLoop filter sizes maxlen delim fuel s.avail
          (s.findDelim maxlen (bufferedLen - (delim.length - 1)) delim) s
    else some (found, s)

/-- The length of the record, none where `NULL` is returned. -/
def recordLen (s : PhpStream F) (maxlen : Nat) (delim : List UInt8) (found : Option Nat) :
    Option Nat :=
  match found with
  | some i => some i
  | none =>
    if delim = [] ∧ s.avail ≥ maxlen then some maxlen
    else if s.avail < maxlen ∧ s.eof = false then none
    else if s.avail = 0 ∧ s.eof then none
    else some (min s.avail maxlen)

/-- The record is read from the buffer, and the delimiter is skipped. -/
def takeRecord (filter : FilterOps F) (sizes : Nat → Nat) (maxlen : Nat) (delim : List UInt8)
    (found : Option Nat) (s : PhpStream F) : Option (List UInt8) × PhpStream F :=
  match s.recordLen maxlen delim found with
  | none => (none, s)
  | some len =>
    let (data, s) := s.streamRead filter sizes len
    if found.isSome then
      (some data, { s with
        readpos := s.readpos + delim.length, position := s.position + delim.length })
    else (some data, s)

def getRecord (filter : FilterOps F) (sizes : Nat → Nat) (fuel maxlen : Nat) (delim : List UInt8)
    (s : PhpStream F) : Option (Option (List UInt8) × PhpStream F) :=
  if maxlen = 0 then some (none, s)
  else
    (recordLoop filter sizes maxlen delim fuel s.avail (s.findDelim maxlen 0 delim) s).map
      fun (found, s) => s.takeRecord filter sizes maxlen delim found

/-- The loop over the chunks to write. -/
def writeLoop : Nat → List UInt8 → PhpStream F → Nat × PhpStream F
  | 0, _, s => (0, s)
  | fuel + 1, buf, s =>
    if buf = [] then (0, s)
    else
      let chunk := buf.take s.chunkSize.val
      let position := if s.seekable then s.position + chunk.length else s.position
      let r := writeLoop fuel (buf.drop s.chunkSize.val)
        { s with file := s.file.write chunk, position := position }
      (chunk.length + r.1, r.2)

def writeBuffer (buf : List UInt8) (s : PhpStream F) : Nat × PhpStream F :=
  let s :=
    if s.seekable ∧ s.readpos ≠ s.writepos then
      (({ s with readpos := 0, writepos := 0 } : PhpStream F).opsSeek s.position .set).2
    else s
  writeLoop buf.length buf s

def streamWrite (buf : List UInt8) (s : PhpStream F) : Nat × PhpStream F :=
  if buf = [] then (0, s) else writeBuffer buf s

/-- A seek within the read buffer. -/
def seekBuffered (offset : Int) (whence : Whence) (s : PhpStream F) : Option (PhpStream F) :=
  if s.noBuffer then none
  else
    match whence with
    | .cur =>
      if 0 < offset ∧ offset ≤ s.avail then
        some { s with
          readpos := s.readpos + offset.toNat, position := s.position + offset.toNat, eof := false }
      else none
    | .set =>
      if s.position < offset ∧ offset ≤ s.position + s.avail then
        some { s with
          readpos := s.readpos + (offset.toNat - s.position), position := offset.toNat, eof := false }
      else none
    | _ => none

def emulateSeek (filter : FilterOps F) (sizes : Nat → Nat) : Nat → Nat → PhpStream F → Int × PhpStream F
  | 0, _, s => (0, { s with eof := false })
  | fuel + 1, offset, s =>
    if offset = 0 then (0, { s with eof := false })
    else
      let (data, s) := s.streamRead filter sizes (min offset 1024)
      if data = [] then (-1, s) else emulateSeek filter sizes fuel (offset - data.length) s

def streamSeek (filter : FilterOps F) (sizes : Nat → Nat) (offset : Int) (whence : Whence)
    (s : PhpStream F) : Int × PhpStream F :=
  match s.seekBuffered offset whence with
  | some s => (0, s)
  | none =>
    if s.seekable then
      let (offset, whence) :=
        if whence = .cur then (s.position + offset, Whence.set) else (offset, whence)
      let (ret, s) := s.opsSeek offset whence
      (ret, { s with eof := if ret = 0 then false else s.eof, readpos := 0, writepos := 0 })
    else if whence = .cur ∧ 0 ≤ offset then
      emulateSeek filter sizes offset.toNat offset.toNat s
    else (-1, s)

/-- A call; `fuel` bounds the rounds of the loops that read.  None where a loop has not ended. -/
def streamStep (filter : FilterOps F) (sizes : Nat → Nat) (fuel : PhpStream F → StreamOp → Nat)
    (s : PhpStream F) (op : StreamOp) : Option (StreamResult × PhpStream F) :=
  match op with
  | .read size =>
    let r := s.streamRead filter sizes size
    some (.data (some r.1), r.2)
  | .getLine maxlen =>
    (s.getLine filter sizes (fuel s op) maxlen).map fun r => (.data r.1, r.2)
  | .getRecord maxlen delim =>
    (s.getRecord filter sizes (fuel s op) maxlen delim).map fun r => (.data r.1, r.2)
  | .write buf =>
    let r := s.streamWrite buf
    some (.count r.1, r.2)
  | .seek offset whence =>
    let r := s.streamSeek filter sizes offset whence
    some (.code r.1, r.2)
  | .setNoBuffer value => some (.code 0, { s with noBuffer := value })

end PhpStream

end Php53.Streams
