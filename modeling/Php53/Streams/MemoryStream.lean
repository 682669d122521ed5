import Php53.Streams.Stream

/-!
# MemoryStream — the streams of `php://memory`

Such a stream is not buffered: it has the flag `PHP_STREAM_FLAG_NO_BUFFER` and no filters, so that
`readpos` and `writepos` stay 0 and are left out here.
-/

namespace Php53.Streams

/-- An integer as a `size_t`. -/
def sizeT (x : Int) : Nat := (x % 2 ^ 64).toNat

/-- An integer as an `off_t`. -/
def offT (x : Int) : Int := x.bmod (2 ^ 64)

abbrev Off := { x : Int // -2 ^ 63 ≤ x ∧ x < 2 ^ 63 }

abbrev BufferSize := { n : Nat // n < 2 ^ 63 }

/-- The allocator: a block has at most `limit` bytes, fresh ones have any value. -/
structure Allocator where
  limit : BufferSize
  fresh : Nat → UInt8

/-- `emalloc` for `NULL`; where there is no memory the request ends. -/
def erealloc (mem : Allocator) (data : Option (List UInt8)) (size : Nat) : Option (List UInt8) :=
  if size ≤ mem.limit.val then
    let kept := (data.getD []).take size
    some (kept ++ (List.range' kept.length (size - kept.length)).map mem.fresh)
  else none

def store (block : List UInt8) (pos : Nat) (bytes : List UInt8) : List UInt8 :=
  block.take pos ++ bytes ++ block.drop (pos + bytes.length)

/-- `php_stream_memory_data`, with `NULL` as none. -/
structure MemoryData where
  data : Option (List UInt8)
  fpos : Nat
  fsize : Nat
  readonly : Bool  -- `mode & TEMP_STREAM_READONLY`
  deriving DecidableEq

structure MemoryStream where
  ms : MemoryData
  position : Int
  eof : Bool
  chunkSize : ChunkSize
  deriving DecidableEq

/-- The bytes written, and the data after it. -/
def memoryWrite (mem : Allocator) (ms : MemoryData) (buf : List UInt8) :
    Option (Nat × MemoryData) :=
  if ms.readonly then some (0, ms)
  else do
    let ms ←
      (if sizeT (ms.fpos + buf.length) > ms.fsize then do
        let tmp ← erealloc mem ms.data (sizeT (ms.fpos + buf.length))
        pure { ms with data := some tmp, fsize := sizeT (ms.fpos + buf.length) }
      else pure ms)
    match ms.data with
    | none => pure (0, ms)
    | some data =>
      if buf = [] then pure (0, ms)
      else
        pure (buf.length,
          { ms with data := some (store data ms.fpos buf), fpos := sizeT (ms.fpos + buf.length) })

def memoryRead (s : MemoryStream) (count : Nat) : List UInt8 × MemoryStream :=
  let ms := s.ms
  let (count, eof) :=
    if sizeT (ms.fpos + count) ≥ ms.fsize then (sizeT (ms.fsize - ms.fpos), true)
    else (count, s.eof)
  (((ms.data.getD []).drop ms.fpos).take count,
    { s with ms := { ms with fpos := sizeT (ms.fpos + count) }, eof := eof })

namespace MemoryStream

def land (s : MemoryStream) (fpos : Nat) : Int × MemoryStream :=
  (0, { s with ms := { s.ms with fpos := fpos }, position := offT fpos, eof := false })

def miss (s : MemoryStream) (fpos : Nat) : Int × MemoryStream :=
  (-1, { s with ms := { s.ms with fpos := fpos }, position := -1 })

end MemoryStream

/-- `php_stream_memory_seek`, with `&stream->position` for the new offset. -/
def memorySeek (s : MemoryStream) (offset : Int) : Whence → Int × MemoryStream
  | .cur =>
    if offset < 0 then
      if s.ms.fpos < sizeT (-offset) then s.miss 0 else s.land (sizeT (s.ms.fpos + offset))
    else
      if sizeT (s.ms.fpos + sizeT offset) > s.ms.fsize then s.miss s.ms.fsize
      else s.land (sizeT (s.ms.fpos + offset))
  | .set =>
    if s.ms.fsize < sizeT offset then s.miss s.ms.fsize else s.land (sizeT offset)
  | .fromEnd =>
    if offset > 0 then s.miss s.ms.fsize
    else if s.ms.fsize < sizeT (-offset) then s.miss 0
    else s.land (sizeT (s.ms.fsize + offset))
  | .other => (-1, { s with position := offT s.ms.fpos })

/-- `php_stream_memory_set_option` for `PHP_STREAM_TRUNCATE_SET_SIZE`; 0 is
    `PHP_STREAM_OPTION_RETURN_OK`, -1 is `PHP_STREAM_OPTION_RETURN_ERR`. -/
def memoryTruncate (mem : Allocator) (ms : MemoryData) (newsize : Nat) :
    Option (Int × MemoryData) :=
  if ms.readonly then some (-1, ms)
  else if newsize ≤ ms.fsize then
    some (0, { ms with fpos := if newsize < ms.fpos then newsize else ms.fpos, fsize := newsize })
  else do
    let data ← erealloc mem ms.data newsize
    -- `memset` behind the old size
    let zeros := List.replicate (newsize - ms.fsize) 0
    pure (0, { ms with data := some (store data ms.fsize zeros), fsize := newsize })

def memoryCreate (readonly : Bool) (chunkSize : ChunkSize) : MemoryStream where
  ms := { data := none, fpos := 0, fsize := 0, readonly := readonly }
  position := 0
  eof := false
  chunkSize := chunkSize

namespace MemoryStream

/-- The loop of `_php_stream_write_buffer`; each round but the last one writes a byte. -/
def writeChunks (mem : Allocator) : Nat → List UInt8 → MemoryStream → Option (Nat × MemoryStream)
  | 0, _, s => some (0, s)
  | fuel + 1, buf, s =>
    if buf = [] then some (0, s)
    else do
      let (justwrote, ms) ← memoryWrite mem s.ms (buf.take s.chunkSize.val)
      if justwrote > 0 then do
        let (didwrite, s) ← writeChunks mem fuel (buf.drop justwrote)
          { s with ms := ms, position := offT (s.position + justwrote) }
        pure (justwrote + didwrite, s)
      else pure (0, { s with ms := ms })

def streamWrite (mem : Allocator) (s : MemoryStream) (buf : List UInt8) :
    Option (Nat × MemoryStream) :=
  writeChunks mem buf.length buf s

/-- `_php_stream_read`: the stream is not of plain files, so the loop ends after one round. -/
def streamRead (s : MemoryStream) (size : Nat) : List UInt8 × MemoryStream :=
  if size = 0 then ([], s)
  else
    let (data, s) := memoryRead s size
    (data, { s with position := offT (s.position + data.length) })

def streamSeek (s : MemoryStream) (offset : Int) (whence : Whence) : Int × MemoryStream :=
  let (offset, whence) :=
    if whence = .cur then (offT (s.position + offset), Whence.set) else (offset, whence)
  let (ret, s) := memorySeek s offset whence
  (ret, { s with eof := if ret = 0 then false else s.eof })

end MemoryStream

inductive MemoryOp where
  | read (size : BufferSize)
  | write (buf : List UInt8)
  | seek (offset : Off) (whence : Whence)
  | truncate (newsize : Nat)

def memoryStep (mem : Allocator) (s : MemoryStream) :
    MemoryOp → Option (StreamResult × MemoryStream)
  | .read size =>
    let (data, s) := s.streamRead size.val
    some (.data (some data), s)
  | .write buf => (s.streamWrite mem buf).map fun (n, s) => (.count n, s)
  | .seek offset whence =>
    let (ret, s) := s.streamSeek offset.val whence
    some (.code ret, s)
  | .truncate newsize =>
    (memoryTruncate mem s.ms newsize).map fun (ret, ms) => (.code ret, { s with ms := ms })

end Php53.Streams
