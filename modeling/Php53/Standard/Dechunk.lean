import Php53.Reasoning.Scan
import Php53.Reasoning.Stream
import Php53.Zend.Decimal

/-!
# Dechunk — the chunked transfer decoder of `ext/standard/filters.c`

`php_dechunk` rewrites a bucket in place: `p` runs over the bytes it reads and `out` over the ones
it keeps.  A `case` of its `switch` is a definition here, and a case that falls through ends with a
call of the next one.  The machine that reads one byte at a time is `chunkStep`.
-/

open Reasoning

namespace Php53.Standard

open Zend (ch isDigit)
open List

variable {dst n src : Nat} {buf : List UInt8}

inductive ChunkedFilterState where
  | chunkSizeStart | chunkSize | chunkSizeExt | chunkSizeCr | chunkSizeLf
  | chunkBody | chunkBodyCr | chunkBodyLf | chunkTrailer | chunkError
  deriving DecidableEq, Repr

open ChunkedFilterState

structure ChunkedFilterData where
  state : ChunkedFilterState
  chunkSize : BitVec 64
  deriving DecidableEq, Repr

/-- What `chunked_filter_create` stores. -/
def ChunkedFilterData.create : ChunkedFilterData := { state := chunkSizeStart, chunkSize := 0 }

/-- `memmove(buf + dst, buf + src, n)` -/
def memmove (buf : List UInt8) (dst src n : Nat) : List UInt8 :=
  buf.take dst ++ ((buf.drop src).take n ++ buf.drop (dst + n))

/-- The variables of `php_dechunk`. -/
structure Dechunk where
  data : ChunkedFilterData
  buf : List UInt8
  p : Nat
  out : Nat
  outLen : Nat

/-- How a `case` ends: with `continue`, or with `return out_len`. -/
inductive Dechunked where
  | again (c : Dechunk)
  | done (c : Dechunk)

open Dechunked

def hexDigit (c : UInt8) : Option Nat :=
  if ch '0' ≤ c ∧ c ≤ ch '9' then some (c.toNat - (ch '0').toNat)
  else if ch 'A' ≤ c ∧ c ≤ ch 'F' then some (c.toNat - (ch 'A').toNat + 10)
  else if ch 'a' ≤ c ∧ c ≤ ch 'f' then some (c.toNat - (ch 'a').toNat + 10)
  else none

namespace Dechunk

/-- `*p` -/
def cur (c : Dechunk) : UInt8 := byteAt c.buf c.p

def goto (c : Dechunk) (state : ChunkedFilterState) : Dechunk :=
  { c with data := { c.data with state } }

def advance (c : Dechunk) : Dechunk := { c with p := c.p + 1 }

def bodyLf (c : Dechunk) : Dechunked :=
  if c.cur = ch '\n' then again (c.advance.goto chunkSizeStart)
  else again (c.goto chunkError)

def bodyCr (stop : Nat) (c : Dechunk) : Dechunked :=
  if c.cur = ch '\r' then
    if c.p + 1 = stop then done (c.advance.goto chunkBodyLf)
    else c.advance.bodyLf
  else c.bodyLf

/-- `CHUNK_BODY` -/
def body (stop : Nat) (c : Dechunk) : Dechunked :=
  let n := c.data.chunkSize.toNat
  if stop - c.p ≥ n then
    let moved := { c with
      buf := if c.p ≠ c.out then memmove c.buf c.out c.p n else c.buf
      out := c.out + n
      outLen := c.outLen + n
      p := c.p + n }
    if moved.p = stop then done (moved.goto chunkBodyCr)
    else moved.bodyCr stop
  else
    done { c with
      buf := if c.p ≠ c.out then memmove c.buf c.out c.p (stop - c.p) else c.buf
      data := { state := chunkBody, chunkSize := c.data.chunkSize - BitVec.ofNat 64 (stop - c.p) }
      outLen := c.outLen + (stop - c.p) }

def sizeLf (stop : Nat) (c : Dechunk) : Dechunked :=
  if c.cur = ch '\n' then
    if c.data.chunkSize = 0 then again (c.advance.goto chunkTrailer)
    else if c.p + 1 = stop then done (c.advance.goto chunkBody)
    else c.advance.body stop
  else again (c.goto chunkError)

def sizeCr (stop : Nat) (c : Dechunk) : Dechunked :=
  if c.cur = ch '\r' then
    if c.p + 1 = stop then done (c.advance.goto chunkSizeLf)
    else c.advance.sizeLf stop
  else c.sizeLf stop

/-- `while (p < end && *p != '\r' && *p != '\n') p++;` -/
def skipExt (stop : Nat) : Nat → Dechunk → Dechunk
  | 0, c => c
  | fuel + 1, c =>
    if c.p < stop ∧ c.cur ≠ ch '\r' ∧ c.cur ≠ ch '\n' then skipExt stop fuel c.advance else c

def sizeExt (stop : Nat) (c : Dechunk) : Dechunked :=
  let c := skipExt stop (stop - c.p) c
  if c.p = stop then done c else c.sizeCr stop

/-- The loop of `CHUNK_SIZE`. -/
def sizeLoop (stop : Nat) : Nat → Dechunk → Dechunk
  | 0, c => c
  | fuel + 1, c =>
    if c.p < stop then
      match hexDigit c.cur with
      | some d =>
        let chunkSize := c.data.chunkSize * 16 + BitVec.ofNat 64 d
        sizeLoop stop fuel { c.advance with data := { state := .chunkSize, chunkSize } }
      | none =>
        if c.data.state = chunkSizeStart then c.goto chunkError else c.goto chunkSizeExt
    else c

/-- `CHUNK_SIZE` -/
def size (stop : Nat) (c : Dechunk) : Dechunked :=
  let c := sizeLoop stop (stop - c.p) c
  if c.data.state = chunkError then again c
  else if c.p = stop then done c
  else c.sizeExt stop

def sizeStart (stop : Nat) (c : Dechunk) : Dechunked :=
  { c with data := { c.data with chunkSize := 0 } }.size stop

def error (stop : Nat) (c : Dechunk) : Dechunked :=
  done { c with
    buf := if c.p ≠ c.out then memmove c.buf c.out c.p (stop - c.p) else c.buf
    outLen := c.outLen + (stop - c.p) }

/-- `switch (data->state)` -/
def dispatch (stop : Nat) (c : Dechunk) : Dechunked :=
  match c.data.state with
  | chunkSizeStart => c.sizeStart stop
  | .chunkSize => c.size stop
  | chunkSizeExt => c.sizeExt stop
  | chunkSizeCr => c.sizeCr stop
  | chunkSizeLf => c.sizeLf stop
  | chunkBody => c.body stop
  | chunkBodyCr => c.bodyCr stop
  | chunkBodyLf => c.bodyLf
  | chunkTrailer => again { c with p := stop }
  | chunkError => c.error stop

/-- `while (p < end)` -/
def loop (stop : Nat) : Nat → Dechunk → Dechunk
  | 0, c => c
  | fuel + 1, c =>
    if c.p < stop then
      match c.dispatch stop with
      | again c => loop stop fuel c
      | done c => c
    else c

end Dechunk

/-- `php_dechunk`: `data` and the buffer afterwards, and the length returned.  Every round of the
loop that does not read a byte is followed by the one that returns from `CHUNK_ERROR`. -/
def phpDechunk (buf : List UInt8) (len : BitVec 32) (data : ChunkedFilterData) :
    ChunkedFilterData × List UInt8 × Nat :=
  let stop := len.toInt.toNat
  let c := Dechunk.loop stop (stop + 1) { data, buf, p := 0, out := 0, outLen := 0 }
  (c.data, c.buf, c.outLen)

/-- `php_chunked_filter` on one bucket: the bytes that the bucket holds afterwards. -/
def phpChunkedFilter (data : ChunkedFilterData) (bucket : List UInt8) :
    ChunkedFilterData × List UInt8 :=
  let (data, buf, buflen) := phpDechunk bucket (BitVec.ofNat 32 bucket.length) data
  (data, buf.take buflen)

/-- Where the decoder is in a chunked body; the size is the one read so far, or what is left of the
chunk. -/
inductive ChunkPhase where
  | start
  | size (n : BitVec 64)
  | ext (n : BitVec 64)
  | cr (n : BitVec 64)
  | lf (n : BitVec 64)
  | body (n : BitVec 64)
  | bodyCr
  | bodyLf
  | trailer
  | error
  deriving DecidableEq, Repr

namespace ChunkPhase

/-- The phase with `n` bytes of a chunk to come. -/
def ofBody (n : BitVec 64) : ChunkPhase := if n = 0 then bodyCr else body n

def lfStep (n : BitVec 64) (b : UInt8) : ChunkPhase × List UInt8 :=
  if b = ch '\n' then (if n = 0 then trailer else body n, []) else (error, [b])

def crStep (n : BitVec 64) (b : UInt8) : ChunkPhase × List UInt8 :=
  if b = ch '\r' then (lf n, []) else lfStep n b

def extStep (n : BitVec 64) (b : UInt8) : ChunkPhase × List UInt8 :=
  if b ≠ ch '\r' ∧ b ≠ ch '\n' then (ext n, []) else crStep n b

def bodyLfStep (b : UInt8) : ChunkPhase × List UInt8 :=
  if b = ch '\n' then (start, []) else (error, [b])

/-- What a byte does. -/
def step : ChunkPhase → UInt8 → ChunkPhase × List UInt8
  | start, b =>
    match hexDigit b with
    | some d => (size (0 * 16 + BitVec.ofNat 64 d), [])
    | none => (error, [b])
  | size n, b =>
    match hexDigit b with
    | some d => (size (n * 16 + BitVec.ofNat 64 d), [])
    | none => extStep n b
  | ext n, b => extStep n b
  | cr n, b => crStep n b
  | lf n, b => lfStep n b
  | body n, b => (ofBody (n - 1), [b])
  | bodyCr, b => if b = ch '\r' then (bodyLf, []) else bodyLfStep b
  | bodyLf, b => bodyLfStep b
  | trailer, _ => (trailer, [])
  | error, b => (error, [b])

end ChunkPhase

/-- The phase that `data` stands for. -/
def ChunkedFilterData.phase (data : ChunkedFilterData) : ChunkPhase :=
  match data.state with
  | chunkSizeStart => .start
  | .chunkSize => .size data.chunkSize
  | chunkSizeExt => .ext data.chunkSize
  | chunkSizeCr => .cr data.chunkSize
  | chunkSizeLf => .lf data.chunkSize
  | chunkBody => .ofBody data.chunkSize
  | chunkBodyCr => .bodyCr
  | chunkBodyLf => .bodyLf
  | chunkTrailer => .trailer
  | chunkError => .error

theorem run_ofBody {n : BitVec 64} {xs : List UInt8} (h : xs.length ≤ n.toNat) :
    run ChunkPhase.step (.ofBody n) xs = (.ofBody (n - BitVec.ofNat 64 xs.length), xs) := by
  induction xs generalizing n with
  | nil => rw [run_nil, length_nil, BitVec.sub_zero]
  | cons b bs ih =>
    rw [length_cons] at h
    have hne : n ≠ 0 := by
      rintro rfl
      exact absurd h (Nat.not_succ_le_zero _)
    have hsub : (n - 1).toNat = n.toNat - 1 :=
      BitVec.toNat_sub_of_le (BitVec.le_def.mpr (Nat.le_trans (Nat.le_add_left 1 _) h))
    have hlen : BitVec.ofNat 64 (bs.length + 1) = 1 + BitVec.ofNat 64 bs.length := by
      rw [BitVec.ofNat_add, BitVec.add_comm]
      rfl
    rw [run_cons, ChunkPhase.ofBody, if_neg hne]
    show ((run ChunkPhase.step (.ofBody (n - 1)) bs).1,
      [b] ++ (run ChunkPhase.step (.ofBody (n - 1)) bs).2) = _
    rw [ih (by omega), length_cons, hlen, ← BitVec.sub_sub]
    rfl

theorem take_memmove (hd : dst ≤ src) (hs : src + n ≤ buf.length) :
    (memmove buf dst src n).take (dst + n) = buf.take dst ++ (buf.drop src).take n := by
  have hlen : (buf.take dst ++ (buf.drop src).take n).length = dst + n := by
    rw [length_append, length_take, length_take, length_drop]
    omega
  rw [memmove, ← append_assoc, ← hlen, take_left]

theorem drop_memmove {k : Nat} (hd : dst ≤ src) (hs : src + n ≤ buf.length) (hk : dst + n ≤ k)
    : (memmove buf dst src n).drop k = buf.drop k := by
  have hlen : (buf.take dst ++ (buf.drop src).take n).length = dst + n := by
    rw [length_append, length_take, length_take, length_drop]
    omega
  rw [memmove, ← append_assoc, drop_append, hlen, drop_eq_nil_of_le (by omega),
    nil_append, drop_drop]
  congr 1
  omega

theorem length_memmove (hd : dst ≤ src) (hs : src + n ≤ buf.length)
    : (memmove buf dst src n).length = buf.length := by
  rw [memmove, length_append, length_append, length_take, length_take,
    length_drop, length_drop]
  omega

theorem memmove_self (buf : List UInt8) (p n : Nat) : memmove buf p p n = buf := by
  rw [memmove, ← drop_drop, take_append_drop, take_append_drop]

namespace Dechunk

variable {a b : ChunkPhase} {r : Dechunked} {fuel n : Nat}

def rest (c : Dechunk) : List UInt8 := c.buf.drop c.p

def written (c : Dechunk) : List UInt8 := c.buf.take c.out

/-- The bytes kept are in front of those still to be read. -/
structure Ok (stop : Nat) (c : Dechunk) : Prop where
  length : c.buf.length = stop
  out_le : c.out ≤ c.p
  le : c.p ≤ stop
  outLen : c.outLen = c.out

/-- From the phase `a`, the machine does with the rest of the buffer what the decoder does: what the
decoder has kept by the end of the case, and then what the machine does from there. -/
def Follows (stop : Nat) (a : ChunkPhase) (c : Dechunk) : Dechunked → Prop
  | again c' => c'.Ok stop ∧ (c.p < c'.p ∨ c.p ≤ c'.p ∧ c'.data.state = chunkError) ∧
      ∃ o, c'.written = c.written ++ o ∧
        run ChunkPhase.step a c.rest = ((run ChunkPhase.step c'.data.phase c'.rest).1,
          o ++ (run ChunkPhase.step c'.data.phase c'.rest).2)
  | done c' => ∃ o, c'.buf.take c'.outLen = c.written ++ o ∧
      run ChunkPhase.step a c.rest = (c'.data.phase, o)

variable {stop : Nat} {c : Dechunk}

theorem rest_eq_cons (hc : c.Ok stop) (hp : c.p < stop) : c.rest = c.cur :: c.advance.rest := by
  have hlt : c.p < c.buf.length := by rw [hc.length]; exact hp
  rw [rest, drop_eq_getElem_cons hlt, cur, byteAt, getD_eq_getElem _ _ hlt]
  rfl

theorem rest_eq_nil (hc : c.Ok stop) (hp : c.p = stop) : c.rest = [] :=
  drop_eq_nil_of_le (by rw [hc.length, hp])

theorem Ok.advance (hc : c.Ok stop) (hp : c.p < stop) : c.advance.Ok stop :=
  ⟨hc.length, Nat.le_succ_of_le hc.out_le, hp, hc.outLen⟩

theorem Follows.through {d : Dechunk} {o : List UInt8} (hp : c.p ≤ d.p)
    (hout : d.written = c.written ++ o) (hrun : run ChunkPhase.step a c.rest =
      ((run ChunkPhase.step b d.rest).1, o ++ (run ChunkPhase.step b d.rest).2))
    (h : Follows stop b d r) : Follows stop a c r := by
  cases r with
  | again c'' =>
    obtain ⟨hok, hlt, o', hout', hrun'⟩ := h
    refine ⟨hok, hlt.imp (Nat.lt_of_le_of_lt hp) (And.imp_left (Nat.le_trans hp)), o ++ o', ?_, ?_⟩
    · rw [hout', hout, append_assoc]
    · rw [hrun, hrun', append_assoc]
  | done c'' =>
    obtain ⟨o', hout', hrun'⟩ := h
    refine ⟨o ++ o', ?_, ?_⟩
    · rw [hout', hout, append_assoc]
    · rw [hrun, hrun']

theorem Follows.cons (hc : c.Ok stop) (hp : c.p < stop) (hstep : a.step c.cur = (b, []))
    (h : Follows stop b c.advance r) : Follows stop a c r := by
  refine Follows.through (d := c.advance) (o := []) (Nat.le_succ _) (List.append_nil _).symm ?_ h
  rw [rest_eq_cons hc hp, run_cons, hstep]

theorem Follows.congr (hc : c.Ok stop) (hp : c.p < stop) (hstep : a.step c.cur = b.step c.cur)
    (h : Follows stop b c r) : Follows stop a c r := by
  refine Follows.through (Nat.le_refl _) (List.append_nil _).symm ?_ h
  rw [rest_eq_cons hc hp, run_cons, run_cons, hstep]
  rfl

theorem Follows.read {state : ChunkedFilterState} (hc : c.Ok stop) (hp : c.p < stop)
    (hstep : a.step c.cur = ((c.advance.goto state).data.phase, [])) :
    Follows stop a c (again (c.advance.goto state)) := by
  refine ⟨⟨hc.length, Nat.le_succ_of_le hc.out_le, hp, hc.outLen⟩, .inl (Nat.lt_succ_self _), [],
    (List.append_nil _).symm, ?_⟩
  rw [rest_eq_cons hc hp, run_cons, hstep]
  rfl

theorem Follows.last {state : ChunkedFilterState} (hc : c.Ok stop) (hp : c.p + 1 = stop)
    (hstep : a.step c.cur = ((c.advance.goto state).data.phase, [])) :
    Follows stop a c (done (c.advance.goto state)) := by
  have hlt : c.p < stop := by omega
  refine Follows.cons hc hlt hstep ⟨[], ?_, ?_⟩
  · rw [List.append_nil]
    exact congrArg c.buf.take hc.outLen
  · rw [rest_eq_nil (hc.advance hlt) hp]
    rfl

theorem Follows.unexpected (hc : c.Ok stop) (hp : c.p < stop)
    (hstep : a.step c.cur = (.error, [c.cur])) :
    Follows stop a c (again (c.goto chunkError)) := by
  refine ⟨⟨hc.length, hc.out_le, hc.le, hc.outLen⟩, .inr ⟨Nat.le_refl _, rfl⟩, [], (List.append_nil _).symm, ?_⟩
  show run ChunkPhase.step a c.rest = run ChunkPhase.step .error c.rest
  rw [rest_eq_cons hc hp, run_cons, run_cons, hstep]
  rfl

theorem bodyLf_follows (hc : c.Ok stop) (hp : c.p < stop) :
    Follows stop .bodyLf c c.bodyLf := by
  rw [bodyLf]
  split
  · rename_i h
    exact Follows.read hc hp (if_pos h)
  · rename_i h
    exact Follows.unexpected hc hp (if_neg h)

theorem bodyCr_follows (hc : c.Ok stop) (hp : c.p < stop) :
    Follows stop .bodyCr c (c.bodyCr stop) := by
  rw [bodyCr]
  by_cases h : c.cur = ch '\r'
  · have hstep : ChunkPhase.step .bodyCr c.cur = (.bodyLf, []) := if_pos h
    rw [if_pos h]
    split
    · exact Follows.last hc (by assumption) hstep
    · exact Follows.cons hc hp hstep (bodyLf_follows (hc.advance hp) (Nat.lt_of_le_of_ne hp ‹_›))
  · rw [if_neg h]
    exact Follows.congr (b := .bodyLf) hc hp (if_neg h) (bodyLf_follows hc hp)

/-- The cursor behind `n` bytes that were moved to the ones kept. -/
def moved (c : Dechunk) (n : Nat) : Dechunk :=
  { c with
    buf := if c.p ≠ c.out then memmove c.buf c.out c.p n else c.buf
    out := c.out + n
    outLen := c.outLen + n
    p := c.p + n }

theorem moved_buf (n : Nat) : (c.moved n).buf = memmove c.buf c.out c.p n := by
  rw [moved]
  show (if c.p ≠ c.out then memmove c.buf c.out c.p n else c.buf) = _
  split
  · rfl
  · rename_i h
    rw [not_not.mp h, memmove_self]

section

variable (hc : c.Ok stop)

include hc

theorem Ok.moved (hn : n ≤ stop - c.p) : (c.moved n).Ok stop := by
  have hle := hc.le
  refine ⟨?_, Nat.add_le_add_right hc.out_le n, ?_, congrArg (· + n) hc.outLen⟩
  · rw [moved_buf, length_memmove hc.out_le (by rw [hc.length]; omega), hc.length]
  · show c.p + n ≤ stop
    omega

theorem moved_rest (hn : n ≤ stop - c.p) :
    c.rest = c.rest.take n ++ (c.moved n).rest := by
  have hle := hc.le
  have hrest : (c.moved n).rest = c.rest.drop n := by
    rw [rest, moved_buf, rest, drop_drop]
    exact drop_memmove hc.out_le (by rw [hc.length]; omega) (Nat.add_le_add_right hc.out_le n)
  rw [hrest, take_append_drop]

theorem moved_written (hn : n ≤ stop - c.p) :
    (c.moved n).written = c.written ++ c.rest.take n := by
  have hle := hc.le
  rw [written, moved_buf]
  exact take_memmove hc.out_le (by rw [hc.length]; omega)

theorem body_follows :
    Follows stop (.ofBody c.data.chunkSize) c (c.body stop) := by
  have hlen : c.rest.length = stop - c.p := by rw [rest, length_drop, hc.length]
  rw [body]
  by_cases hn : stop - c.p ≥ c.data.chunkSize.toNat
  · -- the chunk ends in the buffer
    have htake : (c.rest.take c.data.chunkSize.toNat).length = c.data.chunkSize.toNat := by
      rw [length_take, hlen, Nat.min_eq_left hn]
    have hrun : run ChunkPhase.step (.ofBody c.data.chunkSize) (c.rest.take c.data.chunkSize.toNat) =
        (.bodyCr, c.rest.take c.data.chunkSize.toNat) := by
      rw [run_ofBody (Nat.le_of_eq htake), htake, BitVec.ofNat_toNat, BitVec.setWidth_eq,
        BitVec.sub_self]
      rfl
    have hmoved := hc.moved hn
    rw [if_pos hn]
    show Follows stop _ c (if (c.moved _).p = stop then done ((c.moved _).goto chunkBodyCr)
      else (c.moved _).bodyCr stop)
    refine Follows.through (d := c.moved c.data.chunkSize.toNat) (b := .bodyCr)
      (Nat.le_add_right _ _) (moved_written hc hn) ?_ ?_
    · conv_lhs => rw [moved_rest hc hn, run_append, hrun]
    · split
      · refine ⟨[], ?_, ?_⟩
        · rw [List.append_nil]
          exact congrArg (List.take · (c.moved _).buf) hmoved.outLen
        · rw [rest_eq_nil hmoved ‹_›]
          rfl
      · exact bodyCr_follows hmoved (Nat.lt_of_le_of_ne hmoved.le ‹_›)
  · -- the buffer ends in the chunk
    have hrest : c.rest.take (stop - c.p) = c.rest := take_of_length_le (Nat.le_of_eq hlen)
    have hmoved := moved_written hc (Nat.le_refl (stop - c.p))
    rw [if_neg hn]
    refine ⟨c.rest, ?_, ?_⟩
    · rw [hrest] at hmoved
      rw [← hmoved]
      exact congrArg (List.take · (c.moved _).buf) (hc.moved (Nat.le_refl _)).outLen
    · rw [run_ofBody (by rw [hlen]; omega), hlen]
      rfl

theorem sizeLf_follows (hp : c.p < stop) :
    Follows stop (.lf c.data.chunkSize) c (c.sizeLf stop) := by
  rw [sizeLf]
  by_cases h : c.cur = ch '\n'
  · rw [if_pos h]
    split
    · rename_i hzero
      refine Follows.read hc hp ?_
      rw [ChunkPhase.step, ChunkPhase.lfStep, if_pos h, if_pos hzero]
      rfl
    · rename_i hzero
      have hbody : ChunkPhase.ofBody c.data.chunkSize = .body c.data.chunkSize := if_neg hzero
      have hstep : ChunkPhase.step (.lf c.data.chunkSize) c.cur = (.ofBody c.data.chunkSize, []) := by
        rw [ChunkPhase.step, ChunkPhase.lfStep, if_pos h, if_neg hzero, hbody]
      split
      · exact Follows.last hc ‹_› hstep
      · exact Follows.cons hc hp hstep (body_follows (hc.advance hp))
  · rw [if_neg h]
    exact Follows.unexpected hc hp (if_neg h)

theorem sizeCr_follows (hp : c.p < stop) :
    Follows stop (.cr c.data.chunkSize) c (c.sizeCr stop) := by
  rw [sizeCr]
  by_cases h : c.cur = ch '\r'
  · have hstep : ChunkPhase.step (.cr c.data.chunkSize) c.cur = (.lf c.data.chunkSize, []) := if_pos h
    rw [if_pos h]
    split
    · exact Follows.last hc ‹_› hstep
    · exact Follows.cons hc hp hstep (sizeLf_follows (hc.advance hp) (Nat.lt_of_le_of_ne hp ‹_›))
  · rw [if_neg h]
    exact Follows.congr (b := .lf c.data.chunkSize) hc hp (if_neg h) (sizeLf_follows hc hp)

theorem skipExt_follows (hfuel : stop - c.p ≤ fuel) {r : Dechunk → Dechunked}
    (h : ∀ d : Dechunk, d.Ok stop → d.data = c.data →
      (d.p < stop → d.cur = ch '\r' ∨ d.cur = ch '\n') → Follows stop (.ext c.data.chunkSize) d (r d))
    :
    Follows stop (.ext c.data.chunkSize) c (r (skipExt stop fuel c)) := by
  induction fuel generalizing c with
  | zero => exact h c hc rfl fun hp => absurd hfuel (by omega)
  | succ fuel ih =>
    rw [skipExt]
    split
    · rename_i hcur
      have hstep : ChunkPhase.step (.ext c.data.chunkSize) c.cur = (.ext c.data.chunkSize, []) :=
        if_pos hcur.2
      refine Follows.cons hc hcur.1 hstep (ih (hc.advance hcur.1) ?_ h)
      show stop - (c.p + 1) ≤ fuel
      omega
    · rename_i hcur
      refine h c hc rfl fun hp => ?_
      by_contra hno
      exact hcur ⟨hp, fun hr => hno (.inl hr), fun hn => hno (.inr hn)⟩

theorem sizeExt_follows (hstate : c.data.state = chunkSizeExt) :
    Follows stop (.ext c.data.chunkSize) c (c.sizeExt stop) := by
  refine skipExt_follows (r := fun d => if d.p = stop then done d else d.sizeCr stop) hc
    (Nat.le_refl _) fun d hd hdata hend => ?_
  show Follows stop _ d (if d.p = stop then done d else d.sizeCr stop)
  by_cases hp : d.p = stop
  · rw [if_pos hp]
    refine ⟨[], ?_, ?_⟩
    · rw [List.append_nil]
      exact congrArg d.buf.take hd.outLen
    · rw [rest_eq_nil hd hp, run_nil, ChunkedFilterData.phase, hdata, hstate]
  · have hlt : d.p < stop := Nat.lt_of_le_of_ne hd.le hp
    have hstep : ChunkPhase.step (.ext d.data.chunkSize) d.cur =
        ChunkPhase.step (.cr d.data.chunkSize) d.cur :=
      if_neg fun hno => (hend hlt).elim hno.1 hno.2
    rw [if_neg hp, ← hdata]
    exact Follows.congr hd hlt hstep (sizeCr_follows hd hlt)

theorem sizeLoop_follows (hfuel : stop - c.p ≤ fuel) {r : Dechunk → Dechunked}
    (hsize : c.data.state = .chunkSize)
    (hdone : ∀ d : Dechunk, d.Ok stop → d.p = stop → d.data.state = .chunkSize →
      Follows stop d.data.phase d (r d))
    (hext : ∀ d : Dechunk, d.Ok stop → d.p < stop → d.data.state = chunkSizeExt →
      Follows stop d.data.phase d (r d)) :
    Follows stop c.data.phase c (r (sizeLoop stop fuel c)) := by
  induction fuel generalizing c with
  | zero => exact hdone c hc (Nat.le_antisymm hc.le (by omega)) hsize
  | succ fuel ih =>
    have hphase : c.data.phase = .size c.data.chunkSize := by rw [ChunkedFilterData.phase, hsize]
    rw [sizeLoop]
    by_cases hp : c.p < stop
    · rw [if_pos hp, hphase]
      cases hd : hexDigit c.cur with
      | some d =>
        have hstep : ChunkPhase.step (.size c.data.chunkSize) c.cur =
            (.size (c.data.chunkSize * 16 + BitVec.ofNat 64 d), []) := by
          rw [ChunkPhase.step, hd]
        let e : Dechunk := { c.advance with
          data := { state := .chunkSize, chunkSize := c.data.chunkSize * 16 + BitVec.ofNat 64 d } }
        have he : e.Ok stop := ⟨hc.length, Nat.le_succ_of_le hc.out_le, hp, hc.outLen⟩
        refine Follows.through (d := e) (o := []) (Nat.le_succ _) (List.append_nil _).symm ?_
          (ih he (by show stop - (c.p + 1) ≤ fuel; omega) rfl)
        rw [rest_eq_cons hc hp, run_cons, hstep]
        rfl
      | none =>
        have hext' := hext (c.goto chunkSizeExt) ⟨hc.length, hc.out_le, hc.le, hc.outLen⟩ hp rfl
        have hstep : ChunkPhase.step (.size c.data.chunkSize) c.cur =
            ChunkPhase.step (.ext c.data.chunkSize) c.cur := by
          rw [ChunkPhase.step, hd]
          rfl
        rw [hsize]
        refine Follows.through (d := c.goto chunkSizeExt) (o := []) (Nat.le_refl _)
          (List.append_nil _).symm ?_ hext'
        show run ChunkPhase.step (.size c.data.chunkSize) c.rest =
          run ChunkPhase.step (.ext c.data.chunkSize) c.rest
        rw [rest_eq_cons hc hp, run_cons, run_cons, hstep]
    · rw [if_neg hp]
      exact hdone c hc (Nat.le_antisymm hc.le (Nat.le_of_not_lt hp)) hsize

end

/-- What `CHUNK_SIZE` does after its loop. -/
def afterSize (stop : Nat) (c : Dechunk) : Dechunked :=
  if c.data.state = chunkError then again c
  else if c.p = stop then done c
  else c.sizeExt stop

theorem sizeLoop_size_follows (hc : c.Ok stop) (hfuel : stop - c.p ≤ fuel)
    (hsize : c.data.state = .chunkSize) :
    Follows stop c.data.phase c (afterSize stop (sizeLoop stop fuel c)) := by
  refine sizeLoop_follows hc hfuel hsize (fun d hd hp hstate => ?_) fun d hd hp hstate => ?_
  · have hne : d.data.state ≠ chunkError := by rw [hstate]; decide
    rw [afterSize, if_neg hne, if_pos hp]
    refine ⟨[], ?_, ?_⟩
    · rw [List.append_nil]
      exact congrArg d.buf.take hd.outLen
    · rw [rest_eq_nil hd hp, run_nil]
  · have hne : d.data.state ≠ chunkError := by rw [hstate]; decide
    have hphase : d.data.phase = .ext d.data.chunkSize := by rw [ChunkedFilterData.phase, hstate]
    rw [afterSize, if_neg hne, if_neg (Nat.ne_of_lt hp), hphase]
    exact sizeExt_follows hd hstate

theorem size_follows (hc : c.Ok stop) (hsize : c.data.state = .chunkSize) :
    Follows stop c.data.phase c (c.size stop) :=
  sizeLoop_size_follows hc (Nat.le_refl _) hsize

theorem sizeStart_follows (hc : c.Ok stop) (hp : c.p < stop)
    (hstart : c.data.state = chunkSizeStart) : Follows stop .start c (c.sizeStart stop) := by
  obtain ⟨fuel, hfuel⟩ : ∃ fuel, stop - c.p = fuel + 1 := ⟨stop - c.p - 1, by omega⟩
  let e : Dechunk := { c with data := { c.data with chunkSize := 0 } }
  show Follows stop .start c (afterSize stop (sizeLoop stop (stop - e.p) e))
  rw [show stop - e.p = fuel + 1 from hfuel, sizeLoop, if_pos (show e.p < stop from hp)]
  cases hd : hexDigit e.cur with
  | some d =>
    have hstep : ChunkPhase.step .start c.cur = (.size (0 * 16 + BitVec.ofNat 64 d), []) := by
      rw [ChunkPhase.step, show hexDigit c.cur = some d from hd]
    let f : Dechunk := { c.advance with
      data := { state := .chunkSize, chunkSize := 0 * 16 + BitVec.ofNat 64 d } }
    have hf : f.Ok stop := ⟨hc.length, Nat.le_succ_of_le hc.out_le, hp, hc.outLen⟩
    refine Follows.through (d := f) (o := []) (b := .size (0 * 16 + BitVec.ofNat 64 d))
      (Nat.le_succ _) (List.append_nil _).symm ?_
      (sizeLoop_size_follows hf (by show stop - (c.p + 1) ≤ fuel; omega) rfl)
    rw [rest_eq_cons hc hp, run_cons, hstep]
    rfl
  | none =>
    have hstep : ChunkPhase.step .start c.cur = (.error, [c.cur]) := by
      rw [ChunkPhase.step, show hexDigit c.cur = none from hd]
    have he : e.Ok stop := ⟨hc.length, hc.out_le, hc.le, hc.outLen⟩
    show Follows stop .start e
      (afterSize stop (if e.data.state = chunkSizeStart then e.goto chunkError else e.goto chunkSizeExt))
    rw [if_pos (show e.data.state = chunkSizeStart from hstart)]
    exact Follows.unexpected he hp hstep

theorem run_error (xs : List UInt8) : run ChunkPhase.step .error xs = (.error, xs) :=
  run_pass (fun _ => rfl) xs

theorem run_trailer (xs : List UInt8) : run ChunkPhase.step .trailer xs = (.trailer, []) :=
  run_drop (fun _ => rfl) xs

theorem error_follows (hc : c.Ok stop) (herror : c.data.state = chunkError) :
    Follows stop .error c (c.error stop) := by
  have hlen : c.rest.length = stop - c.p := by rw [rest, length_drop, hc.length]
  refine ⟨c.rest, ?_, ?_⟩
  · have hmoved := moved_written hc (Nat.le_refl (stop - c.p))
    rw [take_of_length_le (Nat.le_of_eq hlen)] at hmoved
    rw [← hmoved]
    exact congrArg (List.take · (c.moved _).buf) (hc.moved (Nat.le_refl _)).outLen
  · show _ = (c.data.phase, c.rest)
    rw [run_error, ChunkedFilterData.phase, herror]

theorem dispatch_follows (hc : c.Ok stop) (hp : c.p < stop) :
    Follows stop c.data.phase c (c.dispatch stop) := by
  rw [dispatch]
  cases hstate : c.data.state with
  | chunkSizeStart =>
    rw [ChunkedFilterData.phase, hstate]
    exact sizeStart_follows hc hp hstate
  | chunkSize => exact size_follows hc hstate
  | chunkSizeExt =>
    rw [ChunkedFilterData.phase, hstate]
    exact sizeExt_follows hc hstate
  | chunkSizeCr =>
    rw [ChunkedFilterData.phase, hstate]
    exact sizeCr_follows hc hp
  | chunkSizeLf =>
    rw [ChunkedFilterData.phase, hstate]
    exact sizeLf_follows hc hp
  | chunkBody =>
    rw [ChunkedFilterData.phase, hstate]
    exact body_follows hc
  | chunkBodyCr =>
    rw [ChunkedFilterData.phase, hstate]
    exact bodyCr_follows hc hp
  | chunkBodyLf =>
    rw [ChunkedFilterData.phase, hstate]
    exact bodyLf_follows hc hp
  | chunkTrailer =>
    let e : Dechunk := { c with p := stop }
    have he : e.Ok stop := ⟨hc.length, Nat.le_trans hc.out_le hc.le, Nat.le_refl _, hc.outLen⟩
    have hphase : c.data.phase = .trailer := by rw [ChunkedFilterData.phase, hstate]
    refine ⟨he, .inl hp, [], (List.append_nil _).symm, ?_⟩
    show _ = ((run ChunkPhase.step c.data.phase e.rest).1,
      [] ++ (run ChunkPhase.step c.data.phase e.rest).2)
    rw [hphase, run_trailer, run_trailer]
    rfl
  | chunkError =>
    rw [ChunkedFilterData.phase, hstate]
    exact error_follows hc hstate

theorem follows_end (hc : c.Ok stop) (hp : c.p = stop) :
    ∃ o, c.buf.take c.outLen = c.written ++ o ∧
      run ChunkPhase.step c.data.phase c.rest = (c.data.phase, o) :=
  ⟨[], by rw [List.append_nil, hc.outLen, written], by rw [rest_eq_nil hc hp, run_nil]⟩

def rounds (stop : Nat) (c : Dechunk) : Nat :=
  (stop - c.p) + if c.data.state = chunkError then 0 else 1

theorem loop_follows (hc : c.Ok stop) (hfuel : c.rounds stop ≤ fuel) :
    ∃ o, (loop stop fuel c).buf.take (loop stop fuel c).outLen = c.written ++ o ∧
      run ChunkPhase.step c.data.phase c.rest = ((loop stop fuel c).data.phase, o) := by
  induction fuel generalizing c with
  | zero =>
    rw [rounds] at hfuel
    have hp : c.p = stop := Nat.le_antisymm hc.le (by omega)
    exact follows_end hc hp
  | succ fuel ih =>
    rw [loop]
    by_cases hp : c.p < stop
    · rw [if_pos hp]
      have h := dispatch_follows hc hp
      cases hr : c.dispatch stop with
      | done d =>
        rw [hr] at h
        exact h
      | again d =>
        rw [hr] at h
        obtain ⟨hd, hlt, o, hout, hrun⟩ := h
        have herror : c.data.state ≠ chunkError := by
          intro herror
          rw [dispatch, herror] at hr
          exact nomatch hr
        have hrounds : d.rounds stop ≤ fuel := by
          have hle := hd.le
          rw [rounds, if_neg herror] at hfuel
          rw [rounds]
          rcases hlt with hlt | ⟨hle', hstate⟩
          · split <;> omega
          · rw [if_pos hstate]
            omega
        obtain ⟨o', hout', hrun'⟩ := ih hd hrounds
        refine ⟨o ++ o', ?_, ?_⟩
        · rw [hout', hout, append_assoc]
        · rw [hrun, hrun']
    · rw [if_neg hp]
      exact follows_end hc (Nat.le_antisymm hc.le (Nat.le_of_not_lt hp))

end Dechunk

/-- A bucket whose length an `int` holds. -/
def FitsInt (bucket : List UInt8) : Prop := bucket.length < 2 ^ 31

instance (bucket : List UInt8) : Decidable (FitsInt bucket) :=
  inferInstanceAs (Decidable (_ < _))

theorem toNat_toInt_ofNat (h : n < 2 ^ 31) : (BitVec.ofNat 32 n).toInt.toNat = n := by
  rw [BitVec.toInt_eq_toNat_of_lt (by rw [BitVec.toNat_ofNat]; omega), BitVec.toNat_ofNat,
    Int.toNat_natCast]
  omega

theorem phpChunkedFilter_eq_run (data : ChunkedFilterData) {bucket : List UInt8}
    (hfit : FitsInt bucket) :
    ((phpChunkedFilter data bucket).1.phase, (phpChunkedFilter data bucket).2) =
      run ChunkPhase.step data.phase bucket := by
  let c : Dechunk := { data, buf := bucket, p := 0, out := 0, outLen := 0 }
  have hc : c.Ok bucket.length := ⟨rfl, Nat.le_refl 0, Nat.zero_le _, rfl⟩
  have hrounds : c.rounds bucket.length ≤ bucket.length + 1 := by
    rw [Dechunk.rounds]
    split <;> omega
  obtain ⟨o, hout, hrun⟩ := Dechunk.loop_follows hc hrounds
  have hrest : c.rest = bucket := rfl
  rw [phpChunkedFilter, phpDechunk, toNat_toInt_ofNat hfit]
  rw [hrest] at hrun
  rw [hrun]
  exact congrArg (Prod.mk _) hout

theorem feed_phpChunkedFilter (data : ChunkedFilterData) {buckets : List (List UInt8)}
    (hfit : ∀ bucket ∈ buckets, FitsInt bucket) :
    (feed phpChunkedFilter data buckets).2 =
      (run ChunkPhase.step data.phase buckets.flatten).2 :=
  congrArg Prod.snd (feed_eq_run (fun _ _ => phpChunkedFilter_eq_run _) hfit data)

end Php53.Standard
