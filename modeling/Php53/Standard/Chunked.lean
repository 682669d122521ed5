import Mathlib.Data.Bool.AllAny
import Php53.Standard.Dechunk

/-!
# Chunked — chunked bodies and what the filter makes of them

A chunked body is a list of chunks, each with its size in front, and a last size of zero.
-/

open Reasoning

namespace Php53.Standard

open Zend (ch)

inductive Eol where
  | crlf
  | lf
  deriving DecidableEq, Repr

def Eol.print : Eol → List UInt8
  | crlf => [ch '\r', ch '\n']
  | lf => [ch '\n']

def sizeValue (digits : List UInt8) : Nat :=
  digits.foldl (fun n c => n * 16 + (hexDigit c).getD 0) 0

/-- The line in front of a chunk. -/
structure SizeLine where
  digits : List UInt8
  ext : List UInt8
  eol : Eol
  digits_ne : digits ≠ []
  digits_hex : ∀ c ∈ digits, (hexDigit c).isSome
  ext_head : ∀ c ∈ ext.head?, hexDigit c = none
  ext_line : ∀ c ∈ ext, c ≠ ch '\r' ∧ c ≠ ch '\n'

def SizeLine.size (line : SizeLine) : Nat := sizeValue line.digits

def SizeLine.print (line : SizeLine) : List UInt8 := line.digits ++ (line.ext ++ line.eol.print)

structure Chunk where
  line : SizeLine
  data : List UInt8
  eol : Eol
  size_eq : line.size = data.length
  size_pos : 0 < line.size
  size_lt : line.size < 2 ^ 63

def Chunk.print (chunk : Chunk) : List UInt8 := chunk.line.print ++ (chunk.data ++ chunk.eol.print)

structure ChunkedBody where
  chunks : List Chunk
  last : SizeLine
  trailer : List UInt8
  last_size : last.size = 0

def ChunkedBody.print (body : ChunkedBody) : List UInt8 :=
  body.chunks.flatMap Chunk.print ++ (body.last.print ++ body.trailer)

def ChunkedBody.data (body : ChunkedBody) : List UInt8 := body.chunks.flatMap Chunk.data

theorem run_sizeDigits {digits : List UInt8} (hhex : ∀ c ∈ digits, (hexDigit c).isSome) (n : Nat) :
    run ChunkPhase.step (.size (BitVec.ofNat 64 n)) digits =
      (.size (BitVec.ofNat 64 (digits.foldl (fun n c => n * 16 + (hexDigit c).getD 0) n)), []) := by
  induction digits generalizing n with
  | nil => rfl
  | cons c cs ih =>
    obtain ⟨d, hd⟩ := Option.isSome_iff_exists.mp (hhex c List.mem_cons_self)
    have hstep : ChunkPhase.step (.size (BitVec.ofNat 64 n)) c =
        (.size (BitVec.ofNat 64 (n * 16 + d)), []) := by
      rw [ChunkPhase.step, hd, BitVec.ofNat_add, BitVec.ofNat_mul]
      rfl
    rw [run_cons, hstep, ih fun b hb => hhex b (List.mem_cons_of_mem c hb), List.foldl_cons, hd]
    rfl

theorem run_digits (line : SizeLine) :
    run ChunkPhase.step .start line.digits = (.size (BitVec.ofNat 64 line.size), []) := by
  have hhex := line.digits_hex
  rw [SizeLine.size, sizeValue]
  cases hdigits : line.digits with
  | nil => exact absurd hdigits line.digits_ne
  | cons c cs =>
    rw [hdigits] at hhex
    obtain ⟨d, hd⟩ := Option.isSome_iff_exists.mp (hhex c List.mem_cons_self)
    have hstep : ChunkPhase.step .start c = ChunkPhase.step (.size (BitVec.ofNat 64 0)) c := by
      rw [ChunkPhase.step, ChunkPhase.step, hd]
      rfl
    rw [run_cons, hstep]
    exact run_sizeDigits hhex 0

def afterLine (n : BitVec 64) : ChunkPhase := if n = 0 then .trailer else .body n

theorem run_ext_eol (line : SizeLine) (n : BitVec 64) :
    run ChunkPhase.step (.ext n) (line.ext ++ line.eol.print) = (afterLine n, []) := by
  have hline := line.ext_line
  generalize line.ext = ext at hline
  induction ext with
  | nil =>
    cases line.eol with
    | crlf => rfl
    | lf => rfl
  | cons c cs ih =>
    have hstep : ChunkPhase.step (.ext n) c = (.ext n, []) := if_pos (hline c List.mem_cons_self)
    rw [List.cons_append, run_cons, hstep, ih fun b hb => hline b (List.mem_cons_of_mem c hb)]
    rfl

theorem run_size_eq_run_ext (n : BitVec 64) {c : UInt8} (hc : hexDigit c = none) (cs : List UInt8) :
    run ChunkPhase.step (.size n) (c :: cs) = run ChunkPhase.step (.ext n) (c :: cs) := by
  have hstep : ChunkPhase.step (.size n) c = ChunkPhase.step (.ext n) c := by
    rw [ChunkPhase.step, hc]
    rfl
  rw [run_cons, run_cons, hstep]

theorem run_sizeLine (line : SizeLine) :
    run ChunkPhase.step .start line.print = (afterLine (BitVec.ofNat 64 line.size), []) := by
  have hext : run ChunkPhase.step (.size (BitVec.ofNat 64 line.size)) (line.ext ++ line.eol.print) =
      run ChunkPhase.step (.ext (BitVec.ofNat 64 line.size)) (line.ext ++ line.eol.print) := by
    have hhead := line.ext_head
    generalize line.ext = ext at hhead
    cases ext with
    | nil =>
      cases line.eol with
      | crlf => exact run_size_eq_run_ext _ (by decide) _
      | lf => exact run_size_eq_run_ext _ (by decide) _
    | cons c cs => exact run_size_eq_run_ext _ (hhead c rfl) _
  rw [SizeLine.print, run_append, run_digits, hext, run_ext_eol]
  rfl

theorem run_bodyEol (eol : Eol) : run ChunkPhase.step .bodyCr eol.print = (.start, []) := by
  cases eol with
  | crlf => rfl
  | lf => rfl

theorem run_chunk (chunk : Chunk) :
    run ChunkPhase.step .start chunk.print = (.start, chunk.data) := by
  have hsize := chunk.size_eq
  have hpos := chunk.size_pos
  have hlt := chunk.size_lt
  have hmod : (BitVec.ofNat 64 chunk.line.size).toNat = chunk.data.length := by
    rw [BitVec.toNat_ofNat, Nat.mod_eq_of_lt (by omega), hsize]
  have hne : BitVec.ofNat 64 chunk.line.size ≠ 0 := by
    intro h
    rw [h] at hmod
    exact absurd hmod (by rw [← hsize]; exact Nat.ne_of_lt hpos)
  have hphase : afterLine (BitVec.ofNat 64 chunk.line.size) =
      .ofBody (BitVec.ofNat 64 chunk.line.size) := by
    rw [afterLine, ChunkPhase.ofBody, if_neg hne, if_neg hne]
  have hdata : run ChunkPhase.step (.ofBody (BitVec.ofNat 64 chunk.line.size)) chunk.data =
      (.bodyCr, chunk.data) := by
    rw [run_ofBody (Nat.le_of_eq hmod.symm), hsize, BitVec.sub_self]
    rfl
  rw [Chunk.print, run_append, run_sizeLine, hphase, run_append, hdata, run_bodyEol,
    List.append_nil, List.nil_append]

theorem run_chunks (chunks : List Chunk) :
    run ChunkPhase.step .start (chunks.flatMap Chunk.print) = (.start, chunks.flatMap Chunk.data) := by
  induction chunks with
  | nil => rfl
  | cons chunk chunks ih => rw [List.flatMap_cons, run_append, run_chunk, ih, List.flatMap_cons]

theorem run_chunkedBody (body : ChunkedBody) :
    (run ChunkPhase.step .start body.print).2 = body.data := by
  have hlast : run ChunkPhase.step .start body.last.print = (.trailer, []) := by
    rw [run_sizeLine, body.last_size]
    rfl
  rw [ChunkedBody.print, run_append, run_chunks, run_append, hlast, Dechunk.run_trailer,
    List.append_nil, List.append_nil, ChunkedBody.data]

def dechunked (buckets : List (List UInt8)) : List UInt8 :=
  (feed phpChunkedFilter .create buckets).2

theorem dechunked_eq {buckets : List (List UInt8)} (hfit : ∀ bucket ∈ buckets, FitsInt bucket) :
    dechunked buckets = (run ChunkPhase.step .start buckets.flatten).2 :=
  feed_phpChunkedFilter .create hfit

/-- The buckets do not matter, and of a chunked body the data of its chunks is left. -/
theorem dechunked_split :
    (∀ buckets buckets' : List (List UInt8), buckets.flatten = buckets'.flatten →
      (∀ bucket ∈ buckets, FitsInt bucket) → (∀ bucket ∈ buckets', FitsInt bucket) →
      dechunked buckets = dechunked buckets') ∧
    ∀ (body : ChunkedBody) (buckets : List (List UInt8)), buckets.flatten = body.print →
      (∀ bucket ∈ buckets, FitsInt bucket) → dechunked buckets = body.data := by
  constructor
  · intro buckets buckets' heq hfit hfit'
    rw [dechunked_eq hfit, dechunked_eq hfit', heq]
  · intro body buckets hbody hfit
    rw [dechunked_eq hfit, hbody, run_chunkedBody]

/-- A body of one chunk in buckets of one byte. -/
theorem dechunked_split_bytes :
    dechunked [[ch '1'], [ch '\n'], [ch 'a'], [ch '\n'], [ch '0'], [ch '\n']] = [ch 'a'] := by
  let line (digit : UInt8) (h : ∀ c ∈ [digit], (hexDigit c).isSome) : SizeLine :=
    { digits := [digit], ext := [], eol := .lf, digits_ne := nofun, digits_hex := h,
      ext_head := nofun, ext_line := nofun }
  let chunk : Chunk :=
    { line := line (ch '1') (List.all_iff_forall_prop.mp (by decide +kernel)), data := [ch 'a'], eol := .lf,
      size_eq := rfl, size_pos := by decide, size_lt := by decide }
  let body : ChunkedBody :=
    { chunks := [chunk], last := line (ch '0') (List.all_iff_forall_prop.mp (by decide +kernel)), trailer := [], last_size := rfl }
  exact dechunked_split.2 body _ rfl (by decide +kernel)

theorem length_dechunked_of_length {bucket : List UInt8} (h : bucket.length = 2 ^ 31) :
    (dechunked [bucket]).length = 0 := by
  have hstop : (BitVec.ofNat 32 bucket.length).toInt.toNat = 0 := by
    rw [h]
    decide
  rw [dechunked, feed_cons, phpChunkedFilter, phpDechunk, hstop]
  rfl

/-- A bucket of `2 ^ 31` bytes has a negative length for `php_dechunk`, and nothing is left of it. -/
theorem dechunked_bucket_too_long :
    ¬ ∀ buckets buckets' : List (List UInt8), buckets.flatten = buckets'.flatten →
      dechunked buckets = dechunked buckets' := by
  intro h
  obtain ⟨n, hn⟩ : ∃ n, n + 1 = 2 ^ 31 := ⟨2147483647, rfl⟩
  have hlong : (List.replicate (n + 1) (ch 'x')).length = 2 ^ 31 := by rw [List.length_replicate, hn]
  have hone := length_dechunked_of_length hlong
  have htwo : (dechunked [[ch 'x'], List.replicate n (ch 'x')]).length = n + 1 := by
    have hfit : ∀ bucket ∈ [[ch 'x'], List.replicate n (ch 'x')], FitsInt bucket := by
      intro bucket hbucket
      rcases List.mem_pair.mp hbucket with rfl | rfl
      · decide
      · rw [FitsInt, List.length_replicate]
        omega
    have hstep : ChunkPhase.step .start (ch 'x') = (.error, [ch 'x']) := by decide
    rw [dechunked_eq hfit, List.flatten_cons, List.flatten_singleton, List.singleton_append,
      run_cons, hstep, Dechunk.run_error, List.length_append, List.length_replicate,
      List.length_singleton, Nat.add_comm]
  have hsplit := h [List.replicate (n + 1) (ch 'x')] [[ch 'x'], List.replicate n (ch 'x')] rfl
  rw [hsplit, htwo] at hone
  exact nomatch hone

end Php53.Standard
