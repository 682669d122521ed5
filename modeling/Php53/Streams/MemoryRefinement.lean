import Php53.Reasoning.ByteFile
import Php53.Reasoning.Calls
import Php53.Streams.MemoryStream

/-!
# MemoryRefinement — a memory stream as an array of bytes with a position
-/

namespace Php53.Streams

open Reasoning List

variable {x : Int}

theorem sizeT_eq (hx : 0 ≤ x ∧ x < 2 ^ 64) : sizeT x = x.toNat := by
  unfold sizeT
  rw [Int.emod_eq_of_lt hx.1 hx.2]

theorem sizeT_neg (hx : -2 ^ 63 ≤ x ∧ x < 0) : (sizeT x : Int) = x + 2 ^ 64 := by
  unfold sizeT
  omega

theorem offT_eq (hx : -2 ^ 63 ≤ x ∧ x < 2 ^ 63) : offT x = x := by
  unfold offT
  rw [Int.bmod_def]
  omega

variable {mem : Allocator} {block : List UInt8} {size : Nat}

theorem erealloc_some {data : Option (List UInt8)} (h : erealloc mem data size = some block) :
    size ≤ mem.limit.val ∧ block.length = size ∧
      ∀ n, n ≤ size → n ≤ (data.getD []).length → block.take n = (data.getD []).take n := by
  unfold erealloc at h
  split at h
  · next hfits =>
    injection h with h
    subst h
    refine ⟨hfits, ?_, fun n hn hdata => ?_⟩
    · rw [length_append, length_map, length_range', length_take]
      omega
    · rw [take_append_of_le_length (by rw [length_take]; omega), take_take,
        Nat.min_eq_left hn]
  · cases h

theorem store_take {bytes : List UInt8} {pos : Nat} (hsize : pos + bytes.length ≤ size)
    (hblock : size ≤ block.length) :
    (store block pos bytes).take size =
      (block.take size).take pos ++ bytes ++ (block.take size).drop (pos + bytes.length) := by
  have hpos : (block.take pos ++ bytes).length = pos + bytes.length := by
    rw [length_append, length_take]
    omega
  have hsplit : size = (block.take pos ++ bytes).length + (size - (pos + bytes.length)) := by
    omega
  unfold store
  rw [take_take, Nat.min_eq_left (by omega), drop_take]
  conv_lhs => rw [hsplit]
  rw [take_length_add_append]

/-- The stream holds the bytes of the file, at the position of the file. -/
structure Holds (mem : Allocator) (readonly : Bool) (s : MemoryStream) (f : ByteFile) : Prop where
  contents : (s.ms.data.getD []).take s.ms.fsize = f.bytes
  fsize : s.ms.fsize = f.bytes.length
  fpos : s.ms.fpos = f.pos
  position : s.position = s.ms.fpos
  limit : s.ms.fsize ≤ mem.limit.val
  readonly : s.ms.readonly = readonly

namespace Holds

variable {readonly : Bool} {s : MemoryStream} {f : ByteFile}

theorem bounds (h : Holds mem readonly s f) : s.ms.fpos ≤ s.ms.fsize ∧ s.ms.fsize < 2 ^ 63 := by
  have hin := f.inside
  have hlimit := h.limit
  have hmax := mem.limit.property
  rw [h.fpos, h.fsize] at *
  omega

theorem fsize_le (h : Holds mem readonly s f) : s.ms.fsize ≤ (s.ms.data.getD []).length := by
  have hlen := congrArg List.length h.contents
  rw [length_take, ← h.fsize] at hlen
  omega

theorem create (chunkSize : ChunkSize) :
    Holds mem readonly (memoryCreate readonly chunkSize) ByteFile.empty :=
  ⟨rfl, rfl, rfl, rfl, Nat.zero_le _, rfl⟩

theorem stored (h : Holds mem readonly s f) (buf : List UInt8)
    (hsize : size = max s.ms.fsize (s.ms.fpos + buf.length)) (hblock : size ≤ block.length)
    (hkept : block.take s.ms.fsize = f.bytes) (hlimit : size ≤ mem.limit.val) :
    Holds mem readonly
      { s with
        ms := { s.ms with
          data := some (store block s.ms.fpos buf), fpos := s.ms.fpos + buf.length, fsize := size }
        position := s.position + buf.length } (f.write buf) := by
  obtain ⟨hpos, hmax⟩ := h.bounds
  have hposition := h.position
  have hfsize := h.fsize
  have hfpos := h.fpos
  have hfront : (block.take size).take s.ms.fpos = f.bytes.take f.pos := by
    rw [← hkept, take_take, take_take, hfpos]
    congr 1
    omega
  have hback : (block.take size).drop (s.ms.fpos + buf.length) =
      f.bytes.drop (f.pos + buf.length) := by
    by_cases hinside : s.ms.fpos + buf.length ≤ s.ms.fsize
    · rw [show size = s.ms.fsize by omega, hkept, hfpos]
    · rw [drop_of_length_le (by rw [length_take]; omega),
        drop_of_length_le (by omega)]
  refine ⟨?_, ?_, ?_, ?_, hlimit, h.readonly⟩
  · show (store block s.ms.fpos buf).take size = _
    rw [store_take (by omega) hblock, hfront, hback]
    rfl
  · show size = (f.bytes.take f.pos ++ buf ++ f.bytes.drop (f.pos + buf.length)).length
    rw [length_append, length_append, length_take, length_drop]
    omega
  · show s.ms.fpos + buf.length = f.pos + buf.length
    rw [hfpos]
  · show s.position + buf.length = ((s.ms.fpos + buf.length : Nat) : Int)
    omega

theorem memoryWrite (h : Holds mem false s f) {buf : List UInt8} (hbuf : buf ≠ [])
    (hlen : buf.length < 2 ^ 31) {n : Nat} {ms : MemoryData}
    (hrun : memoryWrite mem s.ms buf = some (n, ms)) :
    n = buf.length ∧
      Holds mem false { s with ms := ms, position := offT (s.position + n) } (f.write buf) := by
  obtain ⟨hpos, hmax⟩ := h.bounds
  have hblock := h.fsize_le
  have hposition := h.position
  have hlimit := mem.limit.property
  have hsum : sizeT (s.ms.fpos + buf.length) = s.ms.fpos + buf.length := by
    rw [sizeT_eq (by omega)]
    omega
  have hoff : s.ms.fpos + buf.length < 2 ^ 63 →
      offT (s.position + buf.length) = s.position + buf.length := fun hfits => offT_eq (by omega)
  unfold Streams.memoryWrite at hrun
  rw [if_neg (by rw [h.readonly]; decide), hsum] at hrun
  by_cases hgrow : s.ms.fpos + buf.length > s.ms.fsize
  · rw [if_pos hgrow] at hrun
    cases hrealloc : erealloc mem s.ms.data (s.ms.fpos + buf.length) with
    | none =>
      rw [hrealloc] at hrun
      cases hrun
    | some block =>
      obtain ⟨hfits, hlength, hkept⟩ := erealloc_some hrealloc
      rw [hrealloc] at hrun
      simp only [Option.bind_eq_bind, Option.bind_some, Option.pure_def, if_neg hbuf, hsum] at hrun
      obtain ⟨rfl, rfl⟩ := Prod.mk.inj (Option.some.inj hrun)
      refine ⟨rfl, ?_⟩
      rw [hoff (by omega)]
      exact h.stored buf (by omega) (by omega) ((hkept _ (by omega) hblock).trans h.contents) hfits
  · rw [if_neg hgrow] at hrun
    cases hdata : s.ms.data with
    | none =>
      -- there is no room in a block that is not there
      have hpos' : 0 < buf.length := length_pos_iff.mpr hbuf
      rw [hdata] at hblock
      change s.ms.fsize ≤ 0 at hblock
      omega
    | some block =>
      have hcontents := h.contents
      rw [hdata] at hblock hcontents
      simp only [Option.bind_eq_bind, Option.bind_some, Option.pure_def, hdata, if_neg hbuf, hsum]
        at hrun
      obtain ⟨rfl, rfl⟩ := Prod.mk.inj (Option.some.inj hrun)
      refine ⟨rfl, ?_⟩
      rw [hoff (by omega)]
      exact h.stored buf (by omega) hblock hcontents h.limit

theorem writeChunks (fuel : Nat) {buf : List UInt8} (hfuel : buf.length ≤ fuel)
    (h : Holds mem false s f) {n : Nat} {s' : MemoryStream}
    (hrun : MemoryStream.writeChunks mem fuel buf s = some (n, s')) :
    n = buf.length ∧ Holds mem false s' (f.write buf) := by
  induction fuel generalizing buf s f n s' with
  | zero =>
    obtain rfl : buf = [] := length_eq_zero_iff.mp (by omega)
    obtain ⟨rfl, rfl⟩ := Prod.mk.inj (Option.some.inj hrun)
    rw [ByteFile.write_nil]
    exact ⟨rfl, h⟩
  | succ fuel ih =>
    unfold MemoryStream.writeChunks at hrun
    by_cases hbuf : buf = []
    · rw [if_pos hbuf] at hrun
      obtain ⟨rfl, rfl⟩ := Prod.mk.inj (Option.some.inj hrun)
      rw [hbuf, ByteFile.write_nil]
      exact ⟨rfl, h⟩
    · rw [if_neg hbuf] at hrun
      obtain ⟨⟨justwrote, ms⟩, hwrite, hrun⟩ := Option.bind_eq_some_iff.mp hrun
      have hchunk := s.chunkSize.property
      have hpos : 0 < buf.length := length_pos_iff.mpr hbuf
      have htake : (buf.take s.chunkSize.val).length = min s.chunkSize.val buf.length :=
        length_take
      obtain ⟨hn, hholds⟩ := h.memoryWrite
        (fun he => by rw [he, length_nil] at htake; omega) (by omega) hwrite
      dsimp only at hrun
      rw [if_pos (by omega)] at hrun
      obtain ⟨⟨didwrite, t⟩, hrest, hrun⟩ := Option.bind_eq_some_iff.mp hrun
      obtain ⟨rfl, rfl⟩ := Prod.mk.inj (Option.some.inj hrun)
      obtain ⟨hdid, hfinal⟩ := ih (by rw [length_drop]; omega) hholds hrest
      have hdrop : buf.drop justwrote = buf.drop s.chunkSize.val := by
        by_cases hlast : s.chunkSize.val ≤ buf.length
        · rw [show justwrote = s.chunkSize.val by omega]
        · rw [drop_of_length_le (by omega), drop_of_length_le (by omega)]
      rw [ByteFile.write_write, hdrop, take_append_drop] at hfinal
      rw [length_drop] at hdid
      exact ⟨by omega, hfinal⟩

theorem writeChunks_readonly (fuel : Nat) (buf : List UInt8) (h : Holds mem true s f) :
    MemoryStream.writeChunks mem fuel buf s = some (0, s) := by
  cases fuel with
  | zero => rfl
  | succ fuel =>
    unfold MemoryStream.writeChunks
    split
    · rfl
    · have hwrite : Streams.memoryWrite mem s.ms (buf.take s.chunkSize.val) = some (0, s.ms) :=
        if_pos h.readonly
      rw [hwrite]
      rfl

theorem memoryRead (h : Holds mem readonly s f) (size : BufferSize) :
    ∃ eof, memoryRead s size.val = ((f.bytes.drop f.pos).take size.val,
      { s with
        ms := { s.ms with fpos := min (s.ms.fpos + size.val) s.ms.fsize }
        eof := eof }) := by
  obtain ⟨hpos, hmax⟩ := h.bounds
  have hsize := size.property
  have hwindow : ∀ n, n ≤ s.ms.fsize - s.ms.fpos →
      ((s.ms.data.getD []).drop s.ms.fpos).take n = (f.bytes.drop f.pos).take n := by
    intro n hn
    rw [← h.contents, ← h.fpos, drop_take, take_take, Nat.min_eq_left hn]
  have hsum : sizeT (s.ms.fpos + size.val) = s.ms.fpos + size.val := by
    rw [sizeT_eq (by omega)]
    omega
  unfold Streams.memoryRead
  dsimp only
  rw [hsum]
  by_cases hend : s.ms.fpos + size.val ≥ s.ms.fsize
  · have hrest : sizeT (s.ms.fsize - s.ms.fpos) = s.ms.fsize - s.ms.fpos := by
      rw [sizeT_eq (by omega)]
      omega
    have hall : (f.bytes.drop f.pos).length = s.ms.fsize - s.ms.fpos := by
      rw [length_drop, ← h.fsize, ← h.fpos]
    have hback : sizeT (s.ms.fpos + (s.ms.fsize - s.ms.fpos : Nat)) = s.ms.fsize := by
      rw [sizeT_eq (by omega)]
      omega
    refine ⟨true, ?_⟩
    simp only [if_pos hend, hrest, hback]
    rw [hwindow _ (Nat.le_refl _), Nat.min_eq_right hend, ← hall, take_length,
      take_of_length_le (by omega)]
  · refine ⟨s.eof, ?_⟩
    simp only [if_neg hend, hsum]
    rw [hwindow _ (by omega), Nat.min_eq_left (by omega)]

theorem streamRead (h : Holds mem readonly s f) (size : BufferSize) :
    (s.streamRead size.val).1 = (f.read size.val).1 ∧
      Holds mem readonly (s.streamRead size.val).2 (f.read size.val).2 := by
  unfold MemoryStream.streamRead
  by_cases hzero : size.val = 0
  · rw [if_pos hzero, hzero, ByteFile.read_zero]
    exact ⟨rfl, h⟩
  · obtain ⟨hpos, hmax⟩ := h.bounds
    obtain ⟨eof, hread⟩ := h.memoryRead size
    have hposition := h.position
    have hfsize := h.fsize
    have hfpos := h.fpos
    have hlen : ((f.bytes.drop f.pos).take size.val).length =
        min size.val (s.ms.fsize - s.ms.fpos) := by
      rw [length_take, length_drop, hfsize, hfpos]
    have hoff : offT (s.position + ((f.bytes.drop f.pos).take size.val).length) =
        (min (s.ms.fpos + size.val) s.ms.fsize : Nat) := by
      rw [offT_eq (by omega)]
      omega
    rw [if_neg hzero, hread]
    simp only [hoff]
    refine ⟨rfl, h.contents, hfsize, ?_, rfl, h.limit, h.readonly⟩
    show min (s.ms.fpos + size.val) s.ms.fsize = min (f.pos + size.val) f.bytes.length
    rw [hfpos, hfsize]

theorem land (h : Holds mem readonly s f) {target : Int}
    (htarget : 0 ≤ target ∧ target ≤ s.ms.fsize) {fpos : Nat} (hfpos : (fpos : Int) = target) :
    (s.land fpos).1 = (f.seek target).1 ∧
      Holds mem readonly (s.land fpos).2 (f.seek target).2 := by
  obtain ⟨hpos, hmax⟩ := h.bounds
  have hfsize := h.fsize
  have hseek : f.seek target = (0, ⟨f.bytes, target.toNat, by omega⟩) := dif_pos (by omega)
  have hoff : offT (fpos : Int) = fpos := offT_eq (by omega)
  have hland : s.land fpos =
      (0, { s with ms := { s.ms with fpos := fpos }, position := fpos, eof := false }) := by
    unfold MemoryStream.land
    rw [hoff]
  rw [hseek, hland]
  refine ⟨rfl, h.contents, hfsize, ?_, rfl, h.limit, h.readonly⟩
  show fpos = target.toNat
  omega

end Holds

/-- The call on the file. -/
def fileCall (readonly : Bool) (f : ByteFile) : MemoryOp → StreamResult × ByteFile
  | .read size => (.data (some (f.read size.val).1), (f.read size.val).2)
  | .write buf => if readonly then (.count 0, f) else (.count buf.length, f.write buf)
  | .seek offset .set => (.code (f.seek offset.val).1, (f.seek offset.val).2)
  | .seek offset .cur => (.code (f.seek (f.pos + offset.val)).1, (f.seek (f.pos + offset.val)).2)
  | .seek offset .fromEnd =>
    (.code (f.seek (f.bytes.length + offset.val)).1, (f.seek (f.bytes.length + offset.val)).2)
  | .seek _ .other => (.code (-1), f)
  | .truncate newsize => if readonly then (.code (-1), f) else (.code 0, f.truncate newsize)

def Lands (s : MemoryStream) : MemoryOp → Prop
  | .seek offset .set => 0 ≤ offset.val ∧ offset.val ≤ s.ms.fsize
  | .seek offset .cur => 0 ≤ s.position + offset.val ∧ s.position + offset.val ≤ s.ms.fsize
  | .seek offset .fromEnd => 0 ≤ s.ms.fsize + offset.val ∧ offset.val ≤ 0
  | .truncate newsize => s.ms.readonly = true ∨ s.ms.fpos ≤ newsize
  | _ => True

variable {readonly : Bool} {s : MemoryStream} {f : ByteFile}

section

variable (h : Holds mem readonly s f)

include h

theorem memorySeek_set (offset : Off) :
    memorySeek s offset.val .set =
      if 0 ≤ offset.val ∧ offset.val ≤ s.ms.fsize then s.land offset.val.toNat
      else s.miss s.ms.fsize := by
  have hrange := offset.property
  obtain ⟨hpos, hmax⟩ := h.bounds
  show (if s.ms.fsize < sizeT offset.val then s.miss s.ms.fsize else s.land (sizeT offset.val)) = _
  by_cases hneg : offset.val < 0
  · have hwrapped := sizeT_neg ⟨hrange.1, hneg⟩
    rw [if_pos (by omega), if_neg (by omega)]
  · rw [sizeT_eq (by omega)]
    by_cases hbeyond : s.ms.fsize < offset.val.toNat
    · rw [if_pos hbeyond, if_neg (by omega)]
    · rw [if_neg hbeyond, if_pos (by omega)]

theorem memorySeek_fromEnd (offset : Off) :
    memorySeek s offset.val .fromEnd =
      if 0 ≤ s.ms.fsize + offset.val ∧ offset.val ≤ 0 then
        s.land (s.ms.fsize + offset.val).toNat
      else s.miss (if offset.val > 0 then s.ms.fsize else 0) := by
  have hrange := offset.property
  obtain ⟨hpos, hmax⟩ := h.bounds
  show (if offset.val > 0 then s.miss s.ms.fsize
    else if s.ms.fsize < sizeT (-offset.val) then s.miss 0
    else s.land (sizeT (s.ms.fsize + offset.val))) = _
  by_cases hbehind : offset.val > 0
  · rw [if_pos hbehind, if_neg (by omega), if_pos hbehind]
  · rw [if_neg hbehind, sizeT_eq (by omega)]
    by_cases hfar : s.ms.fsize < (-offset.val).toNat
    · rw [if_pos hfar, if_neg (by omega), if_neg hbehind]
    · rw [if_neg hfar, if_pos (by omega), sizeT_eq (by omega)]

theorem streamSeek_cur (offset : Off) :
    ∃ target : Off, s.streamSeek offset.val .cur = s.streamSeek target.val .set ∧
      (0 ≤ s.position + offset.val ∧ s.position + offset.val ≤ s.ms.fsize ↔
        0 ≤ target.val ∧ target.val ≤ s.ms.fsize) ∧
      (0 ≤ target.val ∧ target.val ≤ s.ms.fsize → target.val = s.position + offset.val) := by
  have hrange := offset.property
  obtain ⟨hpos, hmax⟩ := h.bounds
  have hposition := h.position
  have hwrap : -2 ^ 63 ≤ offT (s.position + offset.val) ∧
      offT (s.position + offset.val) < 2 ^ 63 := by
    unfold offT
    rw [Int.bmod_def]
    omega
  obtain ⟨target, htarget⟩ : ∃ t : Off, t.val = offT (s.position + offset.val) :=
    ⟨⟨_, hwrap⟩, rfl⟩
  refine ⟨target, ?_, ?_⟩
  · rw [htarget]
    rfl
  · by_cases hfits : s.position + offset.val < 2 ^ 63
    · rw [offT_eq (by omega)] at htarget
      omega
    · -- the sum overflows, so the target is negative
      have hneg : target.val < 0 := by
        unfold offT at htarget
        rw [Int.bmod_def] at htarget
        omega
      omega

theorem Holds.withEof (eof : Bool) :
    Holds mem readonly { s with eof := eof } f :=
  ⟨h.contents, h.fsize, h.fpos, h.position, h.limit, h.readonly⟩

theorem Holds.landed {offset : Int} {whence : Whence} (hcur : whence ≠ .cur) {target : Int}
    (htarget : 0 ≤ target ∧ target ≤ s.ms.fsize)
    (hseek : memorySeek s offset whence = s.land target.toNat) :
    (s.streamSeek offset whence).1 = (f.seek target).1 ∧
      Holds mem readonly (s.streamSeek offset whence).2 (f.seek target).2 := by
  obtain ⟨hret, hholds⟩ := h.land htarget (by omega : ((target.toNat : Nat) : Int) = target)
  unfold MemoryStream.streamSeek
  rw [if_neg hcur]
  dsimp only
  rw [hseek]
  exact ⟨hret, hholds.withEof _⟩

end

theorem Holds.missed {offset : Int} {whence : Whence} (hcur : whence ≠ .cur) {fpos : Nat}
    (hseek : memorySeek s offset whence = s.miss fpos) (g : ByteFile) :
    ¬ Holds mem readonly (s.streamSeek offset whence).2 g := by
  intro h
  have hposition := h.position
  unfold MemoryStream.streamSeek at hposition
  rw [if_neg hcur] at hposition
  dsimp only at hposition
  rw [hseek] at hposition
  change (-1 : Int) = (fpos : Int) at hposition
  omega

theorem Holds.seek (h : Holds mem readonly s f) (offset : Off) (whence : Whence)
    (hok : Lands s (.seek offset whence)) :
    .code (s.streamSeek offset.val whence).1 = (fileCall readonly f (.seek offset whence)).1 ∧
      Holds mem readonly (s.streamSeek offset.val whence).2
        (fileCall readonly f (.seek offset whence)).2 := by
  have hset : ∀ target : Off, 0 ≤ target.val ∧ target.val ≤ s.ms.fsize →
      (s.streamSeek target.val .set).1 = (f.seek target.val).1 ∧
        Holds mem readonly (s.streamSeek target.val .set).2 (f.seek target.val).2 :=
    fun target htarget => h.landed (by decide) htarget
      ((memorySeek_set h target).trans (if_pos htarget))
  cases whence with
  | set =>
    obtain ⟨hret, hholds⟩ := hset offset hok
    exact ⟨congrArg _ hret, hholds⟩
  | cur =>
    obtain ⟨target, hsame, hiff, htarget⟩ := streamSeek_cur h offset
    obtain ⟨hret, hholds⟩ := hset target (hiff.mp hok)
    have hpos : target.val = f.pos + offset.val := by
      rw [htarget (hiff.mp hok), h.position, h.fpos]
    rw [hpos] at hret hholds
    rw [hsame, hpos]
    exact ⟨congrArg _ hret, hholds⟩
  | fromEnd =>
    have hseek := (memorySeek_fromEnd h offset).trans (if_pos hok)
    obtain ⟨hlow, hhigh⟩ := hok
    obtain ⟨hret, hholds⟩ := h.landed (by decide) ⟨hlow, by omega⟩ hseek
    rw [h.fsize] at hret hholds
    exact ⟨congrArg _ hret, hholds⟩
  | other =>
    have hoff : offT (s.ms.fpos : Int) = s.position := by
      rw [h.position]
      have hbounds := h.bounds
      exact offT_eq (by omega)
    unfold MemoryStream.streamSeek memorySeek
    rw [if_neg (by decide)]
    dsimp only
    rw [hoff]
    exact ⟨rfl, h.withEof _⟩

theorem Holds.seek_breaks (h : Holds mem readonly s f) (offset : Off) (whence : Whence)
    (hnot : ¬ Lands s (.seek offset whence)) (g : ByteFile) :
    ¬ Holds mem readonly (s.streamSeek offset.val whence).2 g := by
  cases whence with
  | set => exact Holds.missed (by decide) ((memorySeek_set h offset).trans (if_neg hnot)) g
  | cur =>
    obtain ⟨target, hsame, hiff, -⟩ := streamSeek_cur h offset
    rw [hsame]
    exact Holds.missed (by decide)
      ((memorySeek_set h target).trans (if_neg fun ht => hnot (hiff.mpr ht))) g
  | fromEnd => exact Holds.missed (by decide) ((memorySeek_fromEnd h offset).trans (if_neg hnot)) g
  | other => exact (hnot trivial).elim

theorem Holds.truncate (h : Holds mem readonly s f) {newsize : Nat}
    (hok : Lands s (.truncate newsize)) {ret : Int} {ms : MemoryData}
    (hrun : memoryTruncate mem s.ms newsize = some (ret, ms)) :
    .code ret = (fileCall readonly f (.truncate newsize)).1 ∧
      Holds mem readonly { s with ms := ms } (fileCall readonly f (.truncate newsize)).2 := by
  have hposition := h.position
  have hfsize := h.fsize
  have hfpos := h.fpos
  obtain ⟨hpos, hmax⟩ := h.bounds
  have hblock := h.fsize_le
  unfold memoryTruncate at hrun
  by_cases hreadonly : s.ms.readonly = true
  · rw [if_pos hreadonly] at hrun
    obtain ⟨rfl, rfl⟩ := Prod.mk.inj (Option.some.inj hrun)
    have hcall : fileCall readonly f (.truncate newsize) = (.code (-1), f) :=
      if_pos (h.readonly ▸ hreadonly)
    rw [hcall]
    exact ⟨rfl, h⟩
  · have hin : s.ms.fpos ≤ newsize := hok.resolve_left hreadonly
    have hkeep : min f.pos newsize = f.pos := Nat.min_eq_left (by omega)
    have hcall : fileCall readonly f (.truncate newsize) = (.code 0, f.truncate newsize) :=
      if_neg (h.readonly ▸ hreadonly)
    rw [if_neg hreadonly] at hrun
    rw [hcall]
    by_cases hcut : newsize ≤ s.ms.fsize
    · rw [if_pos hcut, if_neg (by omega)] at hrun
      obtain ⟨rfl, rfl⟩ := Prod.mk.inj (Option.some.inj hrun)
      have hnone : newsize - f.bytes.length = 0 := by omega
      refine ⟨rfl, ?_, ?_, ?_, hposition, Nat.le_trans hcut h.limit, h.readonly⟩
      · show (s.ms.data.getD []).take newsize =
          f.bytes.take newsize ++ replicate (newsize - f.bytes.length) 0
        rw [hnone, replicate_zero, List.append_nil, ← h.contents, take_take,
          Nat.min_eq_left hcut]
      · show newsize = (f.bytes.take newsize ++ replicate (newsize - f.bytes.length) 0).length
        rw [length_append, length_take, length_replicate]
        omega
      · show s.ms.fpos = min f.pos newsize
        rw [hkeep, hfpos]
    · rw [if_neg hcut] at hrun
      obtain ⟨block, hrealloc, hrun⟩ := Option.bind_eq_some_iff.mp hrun
      obtain ⟨rfl, rfl⟩ := Prod.mk.inj (Option.some.inj hrun)
      obtain ⟨hfits, hlength, hkept⟩ := erealloc_some hrealloc
      have hold : block.take s.ms.fsize = f.bytes :=
        (hkept _ (by omega) hblock).trans h.contents
      have hzeros : (replicate (newsize - s.ms.fsize) (0 : UInt8)).length =
          newsize - s.ms.fsize := length_replicate
      refine ⟨rfl, ?_, ?_, ?_, hposition, hfits, h.readonly⟩
      · show (store block s.ms.fsize (replicate (newsize - s.ms.fsize) 0)).take newsize =
          f.bytes.take newsize ++ replicate (newsize - f.bytes.length) 0
        rw [store_take (by omega) (by omega), take_take, Nat.min_eq_left (by omega), hold,
          drop_of_length_le (by rw [length_take]; omega), List.append_nil, hfsize,
          take_of_length_le (by omega)]
      · show newsize = (f.bytes.take newsize ++ replicate (newsize - f.bytes.length) 0).length
        rw [length_append, length_take, length_replicate]
        omega
      · show s.ms.fpos = min f.pos newsize
        rw [hkeep, hfpos]

theorem Holds.truncate_breaks (h : Holds mem readonly s f) {newsize : Nat}
    (hnot : ¬ Lands s (.truncate newsize)) :
    ∃ ret ms, memoryTruncate mem s.ms newsize = some (ret, ms) ∧
      ∀ g, ¬ Holds mem readonly { s with ms := ms } g := by
  have hposition := h.position
  obtain ⟨hpos, hmax⟩ := h.bounds
  obtain ⟨hreadonly, hcut⟩ := not_or.mp hnot
  refine ⟨0, { s.ms with fpos := newsize, fsize := newsize }, ?_, fun g hg => ?_⟩
  · unfold memoryTruncate
    rw [if_neg hreadonly, if_pos (by omega), if_pos (by omega)]
  · have hposition' := hg.position
    dsimp only at hposition'
    omega

theorem memoryStep_keeps (op : MemoryOp) {s' : MemoryStream} {r : StreamResult}
    (h : Holds mem readonly s f) (hok : Lands s op) (hrun : memoryStep mem s op = some (r, s')) :
    r = (fileCall readonly f op).1 ∧ Holds mem readonly s' (fileCall readonly f op).2 := by
  cases op with
  | read size =>
    have hstep : memoryStep mem s (.read size) =
        some (.data (some (s.streamRead size.val).1), (s.streamRead size.val).2) := rfl
    obtain ⟨hdata, hholds⟩ := h.streamRead size
    rw [hstep, hdata] at hrun
    obtain ⟨rfl, rfl⟩ := Prod.mk.inj (Option.some.inj hrun)
    exact ⟨rfl, hholds⟩
  | write buf =>
    obtain ⟨⟨n, t⟩, hwrite, hrun⟩ := Option.map_eq_some_iff.mp hrun
    obtain ⟨rfl, rfl⟩ := Prod.mk.inj hrun
    cases readonly with
    | false =>
      obtain ⟨rfl, hholds⟩ := h.writeChunks buf.length (Nat.le_refl _) hwrite
      exact ⟨rfl, hholds⟩
    | true =>
      unfold MemoryStream.streamWrite at hwrite
      rw [h.writeChunks_readonly] at hwrite
      obtain ⟨rfl, rfl⟩ := Prod.mk.inj (Option.some.inj hwrite)
      exact ⟨rfl, h⟩
  | seek offset whence =>
    obtain ⟨rfl, rfl⟩ := Prod.mk.inj (Option.some.inj hrun)
    exact h.seek offset whence hok
  | truncate newsize =>
    obtain ⟨⟨ret, ms⟩, hcut, hrun⟩ := Option.map_eq_some_iff.mp hrun
    obtain ⟨rfl, rfl⟩ := Prod.mk.inj hrun
    exact h.truncate hok hcut

theorem memoryStep_breaks (op : MemoryOp) (h : Holds mem readonly s f) (hnot : ¬ Lands s op) :
    ∃ r s', memoryStep mem s op = some (r, s') ∧
      ¬ Holds mem readonly s' (fileCall readonly f op).2 := by
  cases op with
  | read size => exact (hnot trivial).elim
  | write buf => exact (hnot trivial).elim
  | seek offset whence => exact ⟨_, _, rfl, h.seek_breaks offset whence hnot _⟩
  | truncate newsize =>
    obtain ⟨ret, ms, hrun, hbroken⟩ := h.truncate_breaks hnot
    refine ⟨.code ret, { s with ms := ms }, ?_, hbroken _⟩
    show (memoryTruncate mem s.ms newsize).map _ = _
    rw [hrun]
    rfl

/-- A run agrees with the file, in its replies and in every state, exactly when each seek in it ends
    within the data and none of the data before the position is cut. -/
theorem memory_follows_iff (mem : Allocator) (readonly : Bool) (chunkSize : ChunkSize)
    (ops : List MemoryOp) :
    Follows (memoryStep mem) (fileCall readonly) (Holds mem readonly)
        (memoryCreate readonly chunkSize) ByteFile.empty ops ↔
      Meets (memoryStep mem) Lands (memoryCreate readonly chunkSize) ops :=
  follows_iff_meets (fun _ _ op _ _ h hok hrun => memoryStep_keeps op h hok hrun)
    (fun _ _ op h hnot => memoryStep_breaks op h hnot) (Holds.create chunkSize) ops

/-- A seek beyond the end of an empty stream. -/
theorem seek_one_breaks :
    ¬ ∀ mem readonly chunkSize ops, Follows (memoryStep mem) (fileCall readonly)
      (Holds mem readonly) (memoryCreate readonly chunkSize) ByteFile.empty ops := by
  intro h
  obtain ⟨mem, -⟩ : ∃ mem : Allocator, mem.limit.val = 8192 :=
    ⟨⟨⟨8192, by decide⟩, fun _ => 0⟩, rfl⟩
  have hseek : memoryStep mem (memoryCreate false ⟨8192, by decide⟩) (.seek ⟨1, by decide⟩ .set) =
      some (.code (-1), { memoryCreate false ⟨8192, by decide⟩ with position := -1 }) := rfl
  obtain ⟨-, hnext⟩ := (h mem false _ [.seek ⟨1, by decide⟩ .set]).2 _ _ hseek
  have hposition : (-1 : Int) = 0 := hnext.position
  exact absurd hposition (by decide)

end Php53.Streams
