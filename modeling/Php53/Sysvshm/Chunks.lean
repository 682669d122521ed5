import Php53.Sysvshm.Segment
import Mathlib.Data.List.Nodup
import Mathlib.Tactic.Linarith

/-!
# Chunks — the chunks tile the segment

The area between `start` and `end` is one chunk behind the other, with unique keys.  So the loop of
`php_check_shm_data` steps from chunk to chunk, a removal leaves the chunks before and behind, and a
new chunk is appended.
-/

open Reasoning

namespace Php53.Sysvshm

open List

variable {c : Chunk} {chunks : List Chunk} {key : BitVec 64}

structure Chunk where
  key : BitVec 64
  data : List UInt8
  padding : List UInt8

/-- `next` -/
def Chunk.size (c : Chunk) : Nat := 24 + c.data.length + c.padding.length

def Chunk.bytes (c : Chunk) : List UInt8 :=
  longBytes c.key ++ (longBytes (BitVec.ofNat 64 c.data.length) ++
    (longBytes (BitVec.ofNat 64 c.size) ++ (c.data ++ c.padding)))

def bytesOf (chunks : List Chunk) : List UInt8 := chunks.flatMap Chunk.bytes

@[simp] theorem length_longBytes (l : BitVec 64) : (longBytes l).length = 8 :=
  length_littleEndian 8 l.toNat

theorem length_bytes (c : Chunk) : c.bytes.length = c.size := by
  unfold Chunk.bytes Chunk.size
  simp only [length_append, length_longBytes]
  omega

@[simp] theorem bytesOf_cons (c : Chunk) (chunks : List Chunk) :
    bytesOf (c :: chunks) = c.bytes ++ bytesOf chunks := rfl

@[simp] theorem bytesOf_append (chunks chunks' : List Chunk) :
    bytesOf (chunks ++ chunks') = bytesOf chunks ++ bytesOf chunks' := flatMap_append

/-- The chunks tile the part of the segment from `start` to `end`, the rest of it is free. -/
structure Tiled (ptr : ChunkHead) (chunks : List Chunk) : Prop where
  start : ptr.start = headSize
  area : ∃ rest, ptr.area = bytesOf chunks ++ rest ∧ ptr.free = rest.length
  endPos : ptr.endPos = headSize + (bytesOf chunks).length
  total : ptr.total = headSize + ptr.area.length
  fits : ptr.total < 2 ^ 63
  keys : (chunks.map Chunk.key).Nodup

theorem readLong_longBytes {area a b : List UInt8} {l : BitVec 64} {pos : Int}
    (harea : area = a ++ (longBytes l ++ b)) (hpos : pos = headSize + a.length) :
    readLong area pos = some l := by
  have hload := loadAt_append a (longBytes l) b
  rw [length_longBytes] at hload
  have hsub : headSize + (a.length : Int) - headSize = a.length := by omega
  have hl := l.isLt
  rw [readLong, harea, hpos, hsub]
  show Option.map _ (loadAt (a ++ (longBytes l ++ b)) a.length ((8 : Nat) : Int)) = some l
  rw [hload, Option.map_some, longBytes, ofLittleEndian_littleEndian,
    Nat.mod_eq_of_lt (show l.toNat < 256 ^ 8 from hl),
    BitVec.ofNat_toNat, BitVec.setWidth_eq]

section Fields

variable {area before behind : List UInt8} {c : Chunk}

section

variable (harea : area = before ++ (c.bytes ++ behind))

include harea

theorem readLong_key :
    readLong area (headSize + before.length) = some c.key := by
  apply readLong_longBytes _ rfl
  · exact longBytes (BitVec.ofNat 64 c.data.length) ++
      (longBytes (BitVec.ofNat 64 c.size) ++ (c.data ++ c.padding)) ++ behind
  · rw [harea, Chunk.bytes, append_assoc (longBytes c.key)]

theorem readLong_length :
    readLong area (headSize + before.length + 8) = some (BitVec.ofNat 64 c.data.length) := by
  apply readLong_longBytes (a := before ++ longBytes c.key)
    (b := longBytes (BitVec.ofNat 64 c.size) ++ (c.data ++ (c.padding ++ behind)))
  · rw [harea, Chunk.bytes]
    simp only [append_assoc]
  · rw [length_append, length_longBytes]
    omega

theorem readLong_next :
    readLong area (headSize + before.length + 16) = some (BitVec.ofNat 64 c.size) := by
  apply readLong_longBytes
    (a := before ++ (longBytes c.key ++ longBytes (BitVec.ofNat 64 c.data.length)))
    (b := c.data ++ (c.padding ++ behind))
  · rw [harea, Chunk.bytes]
    simp only [append_assoc]
  · rw [length_append, length_append, length_longBytes, length_longBytes]
    omega

theorem loadAt_data :
    loadAt area (headSize + before.length + 24 - headSize) c.data.length = some c.data := by
  have hsplit : area = (before ++ (longBytes c.key ++ (longBytes (BitVec.ofNat 64 c.data.length) ++
      longBytes (BitVec.ofNat 64 c.size)))) ++ (c.data ++ (c.padding ++ behind)) := by
    rw [harea, Chunk.bytes]
    simp only [append_assoc]
  have hpos : headSize + (before.length : Int) + 24 - headSize = (before ++ (longBytes c.key ++
      (longBytes (BitVec.ofNat 64 c.data.length) ++ longBytes (BitVec.ofNat 64 c.size)))).length := by
    simp only [length_append, length_longBytes]
    omega
  rw [hpos, hsplit]
  exact loadAt_append _ _ _

end

end Fields

theorem toInt_length {n : Nat} (h : n < 2 ^ 63) : (BitVec.ofNat 64 n).toInt = n := by
  have hn : (BitVec.ofNat 64 n).toNat = n := Nat.mod_eq_of_lt (by omega)
  rw [BitVec.toInt_eq_toNat_of_lt (by omega), hn]

def locate (key : BitVec 64) : List Chunk → Int → Int
  | [], _ => -1
  | c :: chunks, pos => if c.key = key then pos else locate key chunks (pos + c.size)

theorem checkLoop_eq {ptr : ChunkHead} (key : BitVec 64) {rest : List UInt8}
    (hstart : ptr.start = headSize) (hfits : ptr.area.length < 2 ^ 63) (chunks : List Chunk)
    (before : List UInt8) (harea : ptr.area = before ++ (bytesOf chunks ++ rest))
    (hend : ptr.endPos = headSize + before.length + (bytesOf chunks).length) (fuel : Nat)
    (hfuel : (bytesOf chunks).length < fuel) :
    checkLoop ptr key fuel (headSize + before.length) =
      some (locate key chunks (headSize + before.length)) := by
  induction chunks generalizing before fuel with
  | nil =>
    obtain ⟨fuel, rfl⟩ : ∃ n, fuel = n + 1 := ⟨fuel - 1, by omega⟩
    have hdone : ptr.endPos ≤ headSize + before.length := by
      rw [hend]
      exact le_of_eq (add_zero _)
    rw [checkLoop, if_pos hdone, locate]
  | cons c chunks ih =>
    obtain ⟨fuel, rfl⟩ : ∃ n, fuel = n + 1 := ⟨fuel - 1, by omega⟩
    rw [bytesOf_cons, append_assoc] at harea
    rw [bytesOf_cons, length_append, length_bytes] at hend hfuel
    have hsize : 24 ≤ c.size := by
      unfold Chunk.size
      omega
    have hlen := congrArg List.length harea
    rw [length_append, length_append, length_bytes] at hlen
    have hnext := toInt_length (n := c.size) (by omega)
    rw [checkLoop, if_neg (by omega), readLong_key harea, Option.bind_some, locate]
    by_cases hkey : c.key = key
    · rw [if_pos hkey, if_pos hkey]
    · have hpos : headSize + (before.length : Int) + c.size = headSize + (before ++ c.bytes).length := by
        rw [length_append, length_bytes]
        omega
      rw [if_neg hkey, if_neg hkey, readLong_next harea, Option.bind_some]
      dsimp only
      rw [hnext, if_neg (by unfold headSize at *; omega), hpos]
      apply ih
      · rw [harea, append_assoc]
      · rw [hend, length_append, length_bytes]
        omega
      · omega

theorem locate_cases (key : BitVec 64) (chunks : List Chunk) (pos : Int) :
    (key ∉ chunks.map Chunk.key ∧ locate key chunks pos = -1) ∨
      ∃ (before : List Chunk) (c : Chunk) (behind : List Chunk),
        chunks = before ++ c :: behind ∧ c.key = key ∧
        key ∉ before.map Chunk.key ∧ locate key chunks pos = pos + (bytesOf before).length := by
  induction chunks generalizing pos with
  | nil => exact .inl ⟨not_mem_nil, rfl⟩
  | cons c chunks ih =>
    rw [locate]
    by_cases hkey : c.key = key
    · rw [if_pos hkey]
      exact .inr ⟨[], c, chunks, rfl, hkey, not_mem_nil, (add_zero pos).symm⟩
    · rw [if_neg hkey]
      rcases ih (pos + c.size) with ⟨hmem, heq⟩ | ⟨before, d, behind, rfl, hd, hmem, heq⟩
      · refine .inl ⟨?_, heq⟩
        rw [map_cons, mem_cons, not_or]
        exact ⟨Ne.symm hkey, hmem⟩
      · refine .inr ⟨c :: before, d, behind, rfl, hd, ?_, ?_⟩
        · rw [map_cons, mem_cons, not_or]
          exact ⟨Ne.symm hkey, hmem⟩
        · rw [heq, bytesOf_cons, length_append, length_bytes]
          omega

theorem locate_append {before behind : List Chunk} (h : c.key ∉ before.map Chunk.key) (pos : Int) :
    locate c.key (before ++ c :: behind) pos = pos + (bytesOf before).length := by
  induction before generalizing pos with
  | nil =>
    rw [nil_append, locate, if_pos rfl]
    exact (add_zero pos).symm
  | cons d before ih =>
    rw [map_cons, mem_cons, not_or] at h
    rw [cons_append, locate, if_neg (Ne.symm h.1), ih h.2, bytesOf_cons, length_append,
      length_bytes]
    omega

def dataOf (chunks : List Chunk) (key : BitVec 64) : Option (List UInt8) :=
  (chunks.find? fun c => c.key = key).map Chunk.data

theorem find?_key (h : key ∉ chunks.map Chunk.key) :
    chunks.find? (fun c => c.key = key) = none := by
  rw [List.find?_eq_none]
  intro c hc heq
  exact h (mem_map.mpr ⟨c, hc, of_decide_eq_true heq⟩)

theorem dataOf_eq_none (h : key ∉ chunks.map Chunk.key) :
    dataOf chunks key = none := by
  rw [dataOf, find?_key h]
  rfl

theorem dataOf_append {chunks' : List Chunk} (h : key ∉ chunks.map Chunk.key)
    : dataOf (chunks ++ chunks') key = dataOf chunks' key := by
  rw [dataOf, dataOf, List.find?_append, find?_key h, Option.none_or]

theorem dataOf_erase {before behind : List Chunk}
    (h : ((before ++ c :: behind).map Chunk.key).Nodup) :
    dataOf (before ++ behind) = Function.update (dataOf (before ++ c :: behind)) c.key none := by
  funext key
  by_cases hkey : key = c.key
  · rw [hkey, Function.update_self]
    apply dataOf_eq_none
    rw [map_append, map_cons] at h
    rw [map_append]
    exact (nodup_middle.mp h).notMem
  · rw [Function.update_of_ne hkey]
    unfold dataOf
    rw [List.find?_append, List.find?_append,
      List.find?_cons_of_neg (by simpa using Ne.symm hkey)]

theorem dataOf_concat (h : c.key ∉ chunks.map Chunk.key) :
    dataOf (chunks ++ [c]) = Function.update (dataOf chunks) c.key (some c.data) := by
  funext key
  by_cases hkey : key = c.key
  · rw [hkey, Function.update_self, dataOf_append h]
    unfold dataOf
    rw [List.find?_cons_of_pos (by simp)]
    rfl
  · rw [Function.update_of_ne hkey]
    unfold dataOf
    rw [List.find?_append, List.find?_cons_of_neg (by simpa using Ne.symm hkey), List.find?_nil,
      Option.or_none]

@[simp] theorem dataOf_cons_self (c : Chunk) (chunks : List Chunk) :
    dataOf (c :: chunks) c.key = some c.data := by
  unfold dataOf
  rw [List.find?_cons_of_pos (by simp)]
  rfl

section

variable {ptr : ChunkHead} {chunks : List Chunk} {key : BitVec 64}

theorem Tiled.length_area (h : Tiled ptr chunks) : ptr.area.length < 2 ^ 63 := by
  have htotal := h.total
  have hfits := h.fits
  unfold headSize at htotal
  omega

theorem phpCheckShmData_eq (h : Tiled ptr chunks) (key : BitVec 64) :
    phpCheckShmData ptr key = some (locate key chunks headSize) := by
  have ⟨rest, harea, _⟩ := h.area
  have hend := h.endPos
  have hstart := h.start
  rw [phpCheckShmData, hstart]
  have hloop := checkLoop_eq key hstart h.length_area chunks [] harea
    (by rw [hend]; simp) ((ptr.endPos - headSize).toNat + 1) (by omega)
  simpa using hloop

theorem shmGetVar_eq (h : Tiled ptr chunks) (key : BitVec 64) :
    shmGetVar ptr key = some (dataOf chunks key) := by
  have ⟨rest, harea, _⟩ := h.area
  rw [shmGetVar, phpCheckShmData_eq h, Option.bind_some]
  rcases locate_cases key chunks headSize with ⟨hmem, heq⟩ |
    ⟨before, c, behind, rfl, rfl, hmem, heq⟩
  · rw [heq, if_pos (by decide), dataOf_eq_none hmem]
  · rw [bytesOf_append, bytesOf_cons, append_assoc, append_assoc] at harea
    have hlen := congrArg List.length harea
    have hfits := h.length_area
    rw [length_append, length_append, length_bytes] at hlen
    have hsize : c.data.length ≤ c.size := by
      unfold Chunk.size
      omega
    rw [heq, if_neg (by unfold headSize; omega), readLong_length harea, Option.bind_some,
      toInt_length (by omega), loadAt_data harea, dataOf_append hmem, dataOf_cons_self]
    rfl

theorem phpRemoveShmData_eq {before behind : List Chunk} {c : Chunk}
    (h : Tiled ptr (before ++ c :: behind)) :
    ∃ ptr', phpRemoveShmData ptr (headSize + (bytesOf before).length) = some ptr' ∧
      Tiled ptr' (before ++ behind) ∧ ptr'.free = ptr.free + c.size := by
  have ⟨rest, harea, hfree⟩ := h.area
  rw [bytesOf_append, bytesOf_cons, append_assoc, append_assoc] at harea
  have hend := h.endPos
  rw [bytesOf_append, bytesOf_cons, length_append, length_append, length_bytes] at hend
  have hlen := congrArg List.length harea
  have hfits := h.length_area
  simp only [length_append, length_bytes] at hlen
  have hnext := toInt_length (n := c.size) (by omega)
  have hkeys : ((before ++ behind).map Chunk.key).Nodup := by
    have hsub : (before ++ behind).Sublist (before ++ c :: behind) :=
      (sublist_cons_self c behind).append_left before
    exact h.keys.sublist (hsub.map _)
  have hcount : ptr.endPos - (headSize + (bytesOf before).length) - c.size =
      (bytesOf behind).length := by
    omega
  -- whether there are chunks behind or not, the area holds what is left
  have hmoved : ∃ area, (if 0 < ((bytesOf behind).length : Int) then
      (loadAt ptr.area (headSize + (bytesOf before).length + c.size - headSize)
        (bytesOf behind).length).bind fun bs =>
          writeBytes ptr.area (headSize + (bytesOf before).length) bs
      else some ptr.area) = some area ∧ area.length = ptr.area.length ∧
        ∃ rest', area = bytesOf before ++ (bytesOf behind ++ rest') := by
    by_cases hbehind : 0 < ((bytesOf behind).length : Int)
    · have hload : loadAt ptr.area (headSize + (bytesOf before).length + c.size - headSize)
          (bytesOf behind).length = some (bytesOf behind) := by
        have hpos : headSize + ((bytesOf before).length : Int) + c.size - headSize =
            (bytesOf before ++ c.bytes).length := by
          rw [length_append, length_bytes]
          omega
        rw [hpos, harea, ← append_assoc]
        exact loadAt_append _ _ _
      have hsub : headSize + ((bytesOf before).length : Int) - headSize =
          (bytesOf before).length := by
        omega
      rw [if_pos hbehind, hload, Option.bind_some, writeBytes, hsub, harea, storeAt_append]
      · refine ⟨_, rfl, ?_, _, rfl⟩
        simp only [length_append, length_drop]
        omega
      · rw [length_append, length_append]
        omega
    · have hnil : bytesOf behind = [] := length_eq_zero_iff.mp (by omega)
      rw [if_neg hbehind]
      exact ⟨ptr.area, rfl, rfl, c.bytes ++ rest, by rw [harea, hnil]; rfl⟩
  have ⟨area, hif, harea', rest', hrest'⟩ := hmoved
  refine ⟨{ ptr with
      free := ptr.free + c.size
      endPos := ptr.endPos - c.size
      area }, ?_, ⟨h.start, ⟨rest', ?_, ?_⟩, ?_, ?_, h.fits, hkeys⟩, rfl⟩
  · rw [phpRemoveShmData, readLong_next harea, Option.bind_some]
    dsimp only
    rw [hnext, hcount, hif]
    rfl
  · rw [hrest', bytesOf_append, append_assoc]
  · have hlen' := congrArg List.length hrest'
    simp only [length_append] at hlen'
    dsimp only
    omega
  · rw [bytesOf_append, length_append]
    dsimp only
    omega
  · have htotal := h.total
    dsimp only
    omega

def chunkSize (len : Nat) : Nat := (len + 31) / 8 * 8 + 8

theorem totalSize_eq {len : Nat} (h : len < 2 ^ 63) :
    totalSize len = if len < 2 ^ 63 - 39 then (chunkSize len : Int) else chunkSize len - 2 ^ 64 := by
  have hcast : (len : Int) + 32 - 1 = ((len + 31 : Nat) : Int) := by omega
  have hnat : (BitVec.ofInt 64 (len + 32 - 1) / 8 * 8 + 8 : BitVec 64).toNat = chunkSize len := by
    rw [hcast, BitVec.ofInt_natCast, BitVec.toNat_add, BitVec.toNat_mul, BitVec.toNat_udiv,
      BitVec.toNat_ofNat]
    have height : (8 : BitVec 64).toNat = 8 := rfl
    unfold chunkSize
    rw [height]
    omega
  unfold totalSize
  rw [BitVec.toInt_eq_toNat_cond, hnat]
  unfold chunkSize
  split <;> split <;> omega

theorem le_chunkSize (len : Nat) : len + 24 ≤ chunkSize len := by
  unfold chunkSize
  omega

theorem totalSize_neg {len : Nat} (h : len < 2 ^ 63) (hlong : 2 ^ 63 - 39 ≤ len) :
    totalSize len < 0 := by
  rw [totalSize_eq h, if_neg (by omega)]
  unfold chunkSize
  omega

theorem length_storeAt {mem mem' bs : List UInt8} {pos : Int} (h : storeAt mem pos bs = some mem') :
    mem'.length = mem.length := by
  unfold storeAt at h
  split at h
  · cases h
    simp only [length_append, length_take, length_drop]
    omega
  · cases h

variable (key) in
theorem storeChunk_eq {bytes rest : List UInt8} (data : List UInt8) (size : Nat)
    (harea : ptr.area = bytes ++ rest) (hend : ptr.endPos = headSize + bytes.length)
    (hdata : data.length + 24 ≤ size) (hsize : size ≤ rest.length) :
    ∃ c : Chunk, c.key = key ∧ c.data = data ∧ c.size = size ∧
      storeChunk ptr key data size = some (bytes ++ (c.bytes ++ rest.drop size)) := by
  have hstore : ∀ {area pre old bs : List UInt8} {pos : Int}, area = pre ++ old →
      pos = headSize + pre.length → bs.length ≤ old.length →
      writeBytes area pos bs = some ((pre ++ bs) ++ old.drop bs.length) := by
    intro area pre old bs pos harea hpos hle
    have hsub : pos - headSize = pre.length := by omega
    rw [writeBytes, hsub, harea, storeAt_append hle, append_assoc]
  have hsplit : (((rest.drop 8).drop 8).drop 8).drop data.length =
      (rest.drop (data.length + 24)).take (size - (data.length + 24)) ++ rest.drop size := by
    have htail : (rest.drop (data.length + 24)).drop (size - (data.length + 24)) = rest.drop size := by
      rw [drop_drop]
      congr 1
      omega
    rw [← htail, take_append_drop, drop_drop, drop_drop, drop_drop]
    congr 1
    omega
  have hcsize : (Chunk.mk key data
      ((rest.drop (data.length + 24)).take (size - (data.length + 24)))).size = size := by
    unfold Chunk.size
    dsimp only
    rw [length_take, length_drop]
    omega
  refine ⟨_, rfl, rfl, hcsize, ?_⟩
  rw [Chunk.bytes, hcsize, storeChunk, BitVec.ofInt_natCast, BitVec.ofInt_natCast,
    hstore harea hend (by rw [length_longBytes]; omega), Option.bind_some,
    hstore rfl (by simp only [length_append, length_longBytes]; omega)
      (by simp only [length_drop, length_longBytes]; omega), Option.bind_some,
    hstore rfl (by simp only [length_append, length_longBytes]; omega)
      (by simp only [length_drop, length_longBytes]; omega), Option.bind_some,
    hstore rfl (by simp only [length_append, length_longBytes]; omega)
      (by simp only [length_drop, length_longBytes]; omega)]
  simp only [length_longBytes, hsplit, append_assoc]

end

end Php53.Sysvshm
