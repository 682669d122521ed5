import Php53.Sysvshm.Chunks
import Mathlib.Data.List.Induction

/-!
# Store — the segment as a map

A call keeps the chunks and does to what is stored what it reports, unless it removes the old value of
a key for a new one that has no room, or the length of its data overflows when it is rounded up.
-/

open Reasoning

namespace Php53.Sysvshm

open List

/-- The size of the chunk of a text fits a `long`, and where the key has a value already there is room
for the new one in its place. -/
def CallOk (ptr : ChunkHead) : ShmOp → Prop
  | .put key data => data.bytes.length < 2 ^ 63 - 39 ∧
      ∀ shmVarpos next, phpCheckShmData ptr key = some shmVarpos → 0 < shmVarpos →
        readLong ptr.area (shmVarpos + 16) = some next →
        totalSize data.bytes.length ≤ ptr.free + next.toInt
  | .check _ => True
  | .remove _ => True

section

variable {ptr ptr' : ChunkHead} {chunks : List Chunk} {key : BitVec 64} {data : ShmData}

theorem Tiled.free_nonneg (h : Tiled ptr chunks) : 0 ≤ ptr.free := by
  have ⟨rest, _, hfree⟩ := h.area
  omega

theorem Tiled.size (h : Tiled ptr chunks) : ptr.endPos + ptr.free = ptr.total := by
  have ⟨rest, harea, hfree⟩ := h.area
  rw [h.total, h.endPos, hfree, harea, length_append]
  push_cast
  omega

theorem phpRemoveShmData_total {pos : Int} (h : phpRemoveShmData ptr pos = some ptr') :
    ptr'.total = ptr.total := by
  rw [phpRemoveShmData, Option.bind_eq_some_iff] at h
  obtain ⟨next, _, hmap⟩ := h
  obtain ⟨area, _, heq⟩ := Option.map_eq_some_iff.mp hmap
  rw [← heq]

/-- The end of `php_put_shm_data`. -/
def append (ptr : ChunkHead) (key : BitVec 64) (data : List UInt8) : Option (Int × ChunkHead) :=
  if ptr.free < totalSize data.length then some (-1, ptr)
  else (storeChunk ptr key data (totalSize data.length)).map fun area =>
    (0, { ptr with
      endPos := ptr.endPos + totalSize data.length
      free := ptr.free - totalSize data.length
      area })

theorem append_eq (h : Tiled ptr chunks) (hkey : key ∉ chunks.map Chunk.key)
    (hfits : data.bytes.length < 2 ^ 63 - 39) (hroom : totalSize data.bytes.length ≤ ptr.free) :
    ∃ (ptr' : ChunkHead) (c : Chunk), append ptr key data.bytes = some (0, ptr') ∧ ptr'.total = ptr.total ∧
      Tiled ptr' (chunks ++ [c]) ∧ c.key = key ∧ c.data = data.bytes := by
  have ⟨rest, harea, hfree⟩ := h.area
  have hsize := totalSize_eq data.fits
  rw [if_pos hfits] at hsize
  have hchunk := le_chunkSize data.bytes.length
  have ⟨c, hckey, hcdata, hcsize, hstore⟩ := storeChunk_eq key data.bytes
    (chunkSize data.bytes.length) harea h.endPos (by omega) (by omega)
  have happend : append ptr key data.bytes = some (0, { ptr with
      endPos := ptr.endPos + chunkSize data.bytes.length
      free := ptr.free - chunkSize data.bytes.length
      area := bytesOf chunks ++ (c.bytes ++ rest.drop (chunkSize data.bytes.length)) }) := by
    rw [append, if_neg (by omega), hsize, hstore]
    rfl
  have hbytes : bytesOf (chunks ++ [c]) = bytesOf chunks ++ c.bytes := by
    rw [bytesOf_append, bytesOf_cons]
    exact congrArg (bytesOf chunks ++ ·) (append_nil _)
  refine ⟨_, c, happend, rfl, ⟨h.start, ⟨rest.drop (chunkSize data.bytes.length), ?_, ?_⟩, ?_, ?_,
    h.fits, ?_⟩, hckey, hcdata⟩
  · rw [hbytes, append_assoc]
  · rw [length_drop]
    dsimp only
    omega
  · have hend := h.endPos
    rw [hbytes, length_append, length_bytes]
    dsimp only
    omega
  · have htotal := h.total
    rw [harea, length_append] at htotal
    simp only [length_append, length_bytes, length_drop]
    omega
  · rw [map_append, nodup_append]
    refine ⟨h.keys, nodup_singleton _, ?_⟩
    intro a ha b hb heq
    rw [map_singleton, mem_singleton, hckey] at hb
    rw [heq, hb] at ha
    exact hkey ha

theorem append_overflow (h : Tiled ptr chunks)
    (hlong : 2 ^ 63 - 39 ≤ data.bytes.length) : append ptr key data.bytes = none := by
  have hneg := totalSize_neg data.fits hlong
  have hfree := h.free_nonneg
  have htotal := h.total
  have hfits := h.fits
  have hend := h.endPos
  have hnone : storeChunk ptr key data.bytes (totalSize data.bytes.length) = none := by
    rw [storeChunk, Option.bind_eq_none_iff]
    intro area harea
    rw [Option.bind_eq_none_iff]
    intro area' harea'
    rw [Option.bind_eq_none_iff]
    intro area'' harea''
    have hlen := length_storeAt harea
    have hlen' := length_storeAt harea'
    have hlen'' := length_storeAt harea''
    apply storeAt_eq_none
    unfold headSize at *
    omega
  rw [append, if_neg (by omega), hnone]
  rfl

theorem phpPutShmData_eq (h : Tiled ptr chunks) (key : BitVec 64) (data : ShmData) :
    (key ∉ chunks.map Chunk.key ∧ phpPutShmData ptr key data = append ptr key data.bytes) ∨
      ∃ (before : List Chunk) (c : Chunk) (behind : List Chunk) (ptr' : ChunkHead), chunks = before ++ c :: behind ∧ c.key = key ∧
        phpRemoveShmData ptr (headSize + (bytesOf before).length) = some ptr' ∧
        Tiled ptr' (before ++ behind) ∧ ptr'.free = ptr.free + c.size ∧
        phpPutShmData ptr key data = append ptr' key data.bytes := by
  have hput : ∀ pos ptr', phpCheckShmData ptr key = some pos →
      (if 0 < pos then phpRemoveShmData ptr pos else some ptr) = some ptr' →
      phpPutShmData ptr key data = append ptr' key data.bytes := by
    intro pos ptr' hcheck hremove
    rw [phpPutShmData, hcheck, Option.bind_some, hremove, Option.bind_some, append]
  have hcheck := phpCheckShmData_eq h key
  rcases locate_cases key chunks headSize with ⟨hmem, heq⟩ |
    ⟨before, c, behind, rfl, hckey, -, heq⟩
  · exact .inl ⟨hmem, hput (-1) ptr (heq ▸ hcheck) rfl⟩
  · have ⟨ptr', hremove, htiled, hfree⟩ := phpRemoveShmData_eq h
    have hpos : 0 < headSize + ((bytesOf before).length : Int) := by
      unfold headSize
      omega
    refine .inr ⟨before, c, behind, ptr', rfl, hckey, hremove, htiled, hfree,
      hput _ ptr' (heq ▸ hcheck) ?_⟩
    rw [if_pos hpos, hremove]

theorem found {before behind : List Chunk} {c : Chunk} (h : Tiled ptr (before ++ c :: behind)) :
    phpCheckShmData ptr c.key = some (headSize + (bytesOf before).length) ∧
      ∃ next, readLong ptr.area (headSize + (bytesOf before).length + 16) = some next ∧
        next.toInt = c.size := by
  have ⟨rest, harea, _⟩ := h.area
  rw [bytesOf_append, bytesOf_cons, append_assoc, append_assoc] at harea
  have hlen := congrArg List.length harea
  have hfits := h.length_area
  rw [length_append, length_append, length_bytes] at hlen
  refine ⟨?_, _, readLong_next harea, toInt_length (by omega)⟩
  have hmem : c.key ∉ before.map Chunk.key := by
    have hkeys := h.keys
    rw [map_append, map_cons] at hkeys
    intro hbefore
    exact (nodup_middle.mp hkeys).notMem (mem_append_left _ hbefore)
  rw [phpCheckShmData_eq h, locate_append hmem]

def Obeys (chunks : List Chunk) (op : ShmOp) (ptr : ChunkHead) (outcome : Option (Int × ChunkHead)) :
    Prop :=
  ∃ r ptr' chunks', outcome = some (r, ptr') ∧ ptr'.total = ptr.total ∧ Tiled ptr' chunks' ∧
    dataOf chunks' = storedBy (dataOf chunks) op r

theorem put_obeys (h : Tiled ptr chunks) (hok : CallOk ptr (.put key data)) :
    Obeys chunks (.put key data) ptr (phpPutShmData ptr key data) := by
  have ⟨hfits, hroom⟩ := hok
  rcases phpPutShmData_eq h key data with ⟨hmem, hput⟩ |
    ⟨before, c, behind, ptr₁, rfl, rfl, hremove, htiled, hfree, hput⟩
  · by_cases hlack : ptr.free < totalSize data.bytes.length
    · exact ⟨-1, ptr, chunks, by rw [hput, append, if_pos hlack], rfl, h, rfl⟩
    · have ⟨ptr', c, happend, htotal, htiled, hckey, hcdata⟩ :=
        append_eq h hmem hfits (not_lt.mp hlack)
      refine ⟨0, ptr', _, hput.trans happend, htotal, htiled, ?_⟩
      rw [dataOf_concat (hckey ▸ hmem), hckey, hcdata]
      rfl
  · -- the new value has room in the place of the old one
    have ⟨hcheck, next, hnext, hsize⟩ := found h
    have hpos : 0 < headSize + ((bytesOf before).length : Int) := by
      unfold headSize
      omega
    have hroom := hroom _ next hcheck hpos hnext
    have hkeys := h.keys
    rw [map_append, map_cons] at hkeys
    have hmem : c.key ∉ (before ++ behind).map Chunk.key := by
      rw [map_append]
      exact (nodup_middle.mp hkeys).notMem
    have ⟨ptr', d, happend, htotal, htiled', hdkey, hddata⟩ :=
      append_eq htiled hmem hfits (by omega)
    refine ⟨0, ptr', _, hput.trans happend, htotal.trans (phpRemoveShmData_total hremove), htiled',
      ?_⟩
    rw [dataOf_concat (hdkey ▸ hmem), hdkey, hddata, dataOf_erase h.keys, Function.update_idem]
    rfl

theorem put_fails (h : Tiled ptr chunks) (hok : ¬CallOk ptr (.put key data)) :
    phpPutShmData ptr key data = none ∨
      ∃ ptr' chunks', phpPutShmData ptr key data = some (-1, ptr') ∧ Tiled ptr' chunks' ∧
        dataOf chunks' ≠ dataOf chunks := by
  by_cases hfits : data.bytes.length < 2 ^ 63 - 39
  · rcases phpPutShmData_eq h key data with ⟨hmem, hput⟩ |
      ⟨before, c, behind, ptr₁, rfl, rfl, hremove, htiled, hfree, hput⟩
    · refine absurd ⟨hfits, fun shmVarpos next hcheck hpos _ => ?_⟩ hok
      rw [phpCheckShmData_eq h] at hcheck
      rcases locate_cases key chunks headSize with ⟨_, heq⟩ | ⟨before, c, behind, rfl, rfl, _⟩
      · rw [heq] at hcheck
        cases hcheck
        exact absurd hpos (by decide)
      · exact absurd (by simp) hmem
    · right
      have ⟨hcheck, next, hnext, hsize⟩ := found h
      have hlack : ptr₁.free < totalSize data.bytes.length := by
        by_contra hroom
        apply hok
        refine ⟨hfits, fun shmVarpos next' hcheck' hpos hnext' => ?_⟩
        rw [hcheck] at hcheck'
        cases hcheck'
        rw [hnext] at hnext'
        cases hnext'
        omega
      refine ⟨ptr₁, _, by rw [hput, append, if_pos hlack], htiled, fun heq => ?_⟩
      have hvalue := congrFun heq c.key
      have hmem : c.key ∉ before.map Chunk.key := by
        have hkeys := h.keys
        rw [map_append, map_cons] at hkeys
        intro hbefore
        exact (nodup_middle.mp hkeys).notMem (mem_append_left _ hbefore)
      rw [dataOf_erase h.keys, Function.update_self, dataOf_append hmem, dataOf_cons_self] at hvalue
      exact nomatch hvalue
  · left
    rcases phpPutShmData_eq h key data with ⟨_, hput⟩ | ⟨_, _, _, ptr₁, _, _, _, htiled, _, hput⟩
    · rw [hput]
      exact append_overflow h (by omega)
    · rw [hput]
      exact append_overflow htiled (by omega)

theorem call_obeys (h : Tiled ptr chunks) {op : ShmOp} (hok : CallOk ptr op) :
    Obeys chunks op ptr (call ptr op) := by
  cases op with
  | put key data => exact put_obeys h hok
  | check key =>
    refine ⟨locate key chunks headSize, ptr, chunks, ?_, rfl, h, rfl⟩
    rw [call, phpCheckShmData_eq h]
    rfl
  | remove key =>
    rw [call, phpCheckShmData_eq h, Option.bind_some]
    rcases locate_cases key chunks headSize with ⟨hmem, heq⟩ |
      ⟨before, c, behind, rfl, rfl, _, heq⟩
    · refine ⟨-1, ptr, chunks, by rw [heq, if_pos (by decide)], rfl, h, ?_⟩
      rw [storedBy, ← dataOf_eq_none hmem, Function.update_eq_self]
    · have ⟨ptr', hremove, htiled, _⟩ := phpRemoveShmData_eq h
      refine ⟨0, ptr', _, ?_, phpRemoveShmData_total hremove, htiled, dataOf_erase h.keys⟩
      rw [heq, if_neg (by unfold headSize; omega), hremove]
      rfl

theorem call_fails (h : Tiled ptr chunks) {op : ShmOp} (hok : ¬CallOk ptr op) :
    call ptr op = none ∨ ∃ ptr' chunks', call ptr op = some (-1, ptr') ∧ Tiled ptr' chunks' ∧
      dataOf chunks' ≠ storedBy (dataOf chunks) op (-1) := by
  cases op with
  | put key data => exact put_fails h hok
  | check key => exact absurd trivial hok
  | remove key => exact absurd trivial hok

end

/-- What holds behind the calls: the chunks tile the segment, and what is read under a key is what was
last put there. -/
structure Lawful (segment : List UInt8) (ptr : ChunkHead) (history : List (ShmOp × Int)) : Prop where
  tiled : ∃ chunks, Tiled ptr chunks
  size : ptr.endPos + ptr.free = segment.length
  read : ∀ key, shmGetVar ptr key = some (contents history key)

/-- A segment that `shm_attach` has initialised behaves as a map, whatever is called. -/
def StoresMap (segment : List UInt8) (shmSize : BitVec 64) (ops : List ShmOp) : Prop :=
  ∀ before after, ops = before ++ after → ∃ ptr results ptr', initialise segment shmSize = some ptr ∧
    calls ptr before = some (results, ptr') ∧ Lawful segment ptr' (before.zip results)

def CallsOk (segment : List UInt8) (shmSize : BitVec 64) (ops : List ShmOp) : Prop :=
  headSize ≤ segment.length ∧ shmSize.toInt = segment.length ∧
    ∀ before op after ptr results ptr', ops = before ++ op :: after →
      initialise segment shmSize = some ptr → calls ptr before = some (results, ptr') → CallOk ptr' op

section

variable {segment : List UInt8} {shmSize : BitVec 64} {ops : List ShmOp} {ptr ptr' : ChunkHead}

theorem calls_concat (ptr : ChunkHead) (before : List ShmOp) (op : ShmOp) :
    calls ptr (before ++ [op]) = (calls ptr before).bind fun (results, ptr') =>
      (call ptr' op).map fun (r, ptr'') => (results ++ [r], ptr'') := by
  rw [calls, foldlM_append]
  show (calls ptr before).bind _ = _
  congr 1
  funext (results, ptr')
  show ((call ptr' op).map fun (r, ptr'') => (results ++ [r], ptr'')).bind (fun s => some s) =
    (call ptr' op).map fun (r, ptr'') => (results ++ [r], ptr'')
  cases call ptr' op with
  | none => rfl
  | some outcome => rfl

theorem length_results {before : List ShmOp} {results : List Int}
    (h : calls ptr before = some (results, ptr')) : results.length = before.length := by
  induction before using reverseRecOn generalizing results ptr' with
  | nil =>
    cases h
    rfl
  | append_singleton before op ih =>
    rw [calls_concat, Option.bind_eq_some_iff] at h
    have ⟨(results', ptr₁), hcalls, hmap⟩ := h
    have ⟨(r, ptr₂), _, heq⟩ := Option.map_eq_some_iff.mp hmap
    cases heq
    rw [length_append, length_append, ih hcalls]
    rfl

theorem contents_concat (history : List (ShmOp × Int)) (op : ShmOp) (r : Int) :
    contents (history ++ [(op, r)]) = storedBy (contents history) op r := by
  rw [contents, foldl_append]
  rfl

theorem zip_concat {before : List ShmOp} {results : List Int}
    (h : results.length = before.length) (op : ShmOp) (r : Int) :
    (before ++ [op]).zip (results ++ [r]) = before.zip results ++ [(op, r)] := by
  rw [zip_append h.symm]
  rfl

theorem initialise_tiled (h : initialise segment shmSize = some ptr)
    (hsize : shmSize.toInt = segment.length) : Tiled ptr [] ∧ ptr.total = segment.length := by
  rw [initialise] at h
  split at h
  · exact nomatch h
  · next hlen =>
    cases h
    have hlong : shmSize.toInt < 2 ^ 63 := BitVec.toInt_lt
    have harea : ((segment.drop headSize.toNat).length : Int) = segment.length - headSize := by
      rw [length_drop]
      unfold headSize at *
      omega
    refine ⟨⟨rfl, ⟨segment.drop headSize.toNat, rfl, ?_⟩, rfl, ?_, hlong, nodup_nil⟩, hsize⟩
    · rw [harea]
      dsimp only
      omega
    · dsimp only
      omega

theorem calls_tiled (h : CallsOk segment shmSize ops) {before after : List ShmOp}
    (hops : ops = before ++ after) : ∃ ptr results ptr' chunks,
      initialise segment shmSize = some ptr ∧ calls ptr before = some (results, ptr') ∧
        ptr'.total = segment.length ∧ Tiled ptr' chunks ∧
        dataOf chunks = contents (before.zip results) := by
  have ⟨hlen, hsize, hcalls⟩ := h
  induction before using reverseRecOn generalizing after with
  | nil =>
    have hinit : ∃ ptr, initialise segment shmSize = some ptr := by
      rw [initialise, if_neg (by omega)]
      exact ⟨_, rfl⟩
    have ⟨ptr, hptr⟩ := hinit
    have ⟨htiled, htotal⟩ := initialise_tiled hptr hsize
    exact ⟨ptr, [], ptr, [], hptr, rfl, htotal, htiled, rfl⟩
  | append_singleton before op ih =>
    have hsplit : ops = before ++ op :: after := by
      rw [hops, append_assoc]
      rfl
    have ⟨ptr, results, ptr', chunks, hptr, hbefore, htotal, htiled, hdata⟩ := ih hsplit
    have hok := hcalls before op after ptr results ptr' hsplit hptr hbefore
    have ⟨r, ptr'', chunks', hcall, htotal', htiled', hdata'⟩ := call_obeys htiled hok
    refine ⟨ptr, results ++ [r], ptr'', chunks', hptr, ?_, htotal'.trans htotal, htiled', ?_⟩
    · rw [calls_concat, hbefore, Option.bind_some]
      dsimp only
      rw [hcall]
      rfl
    · rw [zip_concat (length_results hbefore), contents_concat, hdata', hdata]

/-- A segment behaves as a map in every sequence of calls if it has the size that it is given and,
whenever a value is put, its size fits a `long` and it has room in the place of an old one. -/
theorem storesMap_iff (segment : List UInt8) (shmSize : BitVec 64) (ops : List ShmOp) :
    StoresMap segment shmSize ops ↔ CallsOk segment shmSize ops := by
  constructor
  · intro h
    have ⟨ptr₀, _, ptr₀', hptr₀, hnone, hlawful⟩ := h [] ops rfl
    cases hnone
    have ⟨chunks₀, htiled₀⟩ := hlawful.tiled
    have hsize := htiled₀.size
    have htotal₀ : ptr₀.total = shmSize.toInt ∧ headSize ≤ segment.length := by
      rw [initialise] at hptr₀
      split at hptr₀
      · exact nomatch hptr₀
      · cases hptr₀
        exact ⟨rfl, by omega⟩
    refine ⟨htotal₀.2, by rw [← htotal₀.1, ← hsize, hlawful.size], ?_⟩
    intro before op after ptr results ptr' hops hptr hbefore
    -- behind the call everything would have to be as it says
    have ⟨ptr₁, results₁, ptr₁', hptr₁, hbefore₁, hlawful₁⟩ := h before (op :: after) hops
    rw [hptr] at hptr₁
    cases hptr₁
    rw [hbefore] at hbefore₁
    cases hbefore₁
    have ⟨chunks, htiled⟩ := hlawful₁.tiled
    have hdata : dataOf chunks = contents (before.zip results) := by
      funext key
      have hread := hlawful₁.read key
      rw [shmGetVar_eq htiled] at hread
      exact Option.some.inj hread
    have ⟨ptr₂, results₂, ptr₂', hptr₂, hbehind, hlawful₂⟩ :=
      h (before ++ [op]) after (by rw [hops, List.append_assoc]; rfl)
    rw [hptr] at hptr₂
    cases hptr₂
    rw [calls_concat, hbefore, Option.bind_some] at hbehind
    by_contra hok
    rcases call_fails htiled hok with hnone | ⟨ptr'', chunks', hcall, htiled', hne⟩
    · dsimp only at hbehind
      rw [hnone] at hbehind
      exact nomatch hbehind
    · dsimp only at hbehind
      rw [hcall] at hbehind
      cases hbehind
      apply hne
      funext key
      have hread := hlawful₂.read key
      rw [shmGetVar_eq htiled', zip_concat (length_results hbefore), contents_concat, ← hdata] at hread
      exact Option.some.inj hread
  · intro h before after hops
    have ⟨ptr, results, ptr', chunks, hptr, hbefore, htotal, htiled, hdata⟩ := calls_tiled h hops
    refine ⟨ptr, results, ptr', hptr, hbefore, ⟨chunks, htiled⟩, htiled.size.trans htotal, ?_⟩
    intro key
    rw [shmGetVar_eq htiled, hdata]

end

def putTwice : List ShmOp :=
  [.put 1 ⟨replicate 10 97, by decide⟩, .put 1 ⟨replicate 40 98, by decide⟩]

/-- The second `put` reports a lack of memory and loses the value of the first one. -/
theorem put_loses_value : ¬StoresMap (replicate 104 0) 104 putTwice := by
  intro h
  have ⟨ptr, results, ptr', hptr, hcalls, hlawful⟩ := h putTwice [] rfl
  have hread := hlawful.read 1
  cases hptr
  have hrun : (calls ⟨40, 40, 64, 104, replicate 64 0⟩ putTwice).map
      (fun s => (s.1, shmGetVar s.2 1)) = some ([0, -1], some none) := by
    decide +kernel
  have hstart : (⟨40, 40, 64, 104, replicate 64 0⟩ : ChunkHead) =
      ⟨headSize, headSize, (104 : BitVec 64).toInt - headSize, (104 : BitVec 64).toInt,
        (replicate 104 (0 : UInt8)).drop headSize.toNat⟩ := by
    rfl
  rw [hstart, hcalls, Option.map_some, Option.some.injEq, Prod.mk.injEq] at hrun
  have hresults : results = [0, -1] := hrun.1
  have hlost : shmGetVar ptr' 1 = some none := hrun.2
  rw [hlost, hresults] at hread
  have hput : contents (putTwice.zip [0, -1]) 1 = some (replicate 10 97) := rfl
  rw [hput] at hread
  exact nomatch hread

end Php53.Sysvshm
