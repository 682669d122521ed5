import Php53.Streams.Stream

/-!
# Buffer — the bytes that are read ahead

Every operation is specified on `buffered`, the bytes between `readpos` and `writepos`.  Where they lie
in `readbuf` does not matter.
-/

namespace Php53.Streams

open List

variable {α : Type} {n : Nat} {l : List α}

def window (l : List α) (r w : Nat) : List α := (l.drop r).take (w - r)

theorem length_window {r w : Nat} (hw : w ≤ l.length) : (window l r w).length = w - r := by
  unfold window
  rw [length_take, length_drop]
  omega

theorem window_append {l' : List α} {r w : Nat} (hr : r ≤ w) (hw : w ≤ l.length) :
    window (l ++ l') r w = window l r w := by
  unfold window
  rw [drop_append_of_le_length (by omega), take_append_of_le_length]
  rw [length_drop]
  omega

theorem window_put {data rest : List α} {r w : Nat} (hr : r ≤ w) (hw : w ≤ l.length) :
    window (l.take w ++ data ++ rest) r (w + data.length) = window l r w ++ data := by
  unfold window
  have hlen : (l.take w).length = w := length_take_of_le hw
  rw [append_assoc, drop_append_of_le_length (by omega), drop_take]
  have htake : ((l.drop r).take (w - r)).length = w - r := by
    rw [length_take, length_drop]
    omega
  have hsum : w + data.length - r = ((l.drop r).take (w - r)).length + data.length := by omega
  rw [hsum, take_length_add_append, take_left]

theorem window_move {tail : List α} {r w : Nat} (hw : w ≤ l.length) :
    window (l.drop r ++ tail) 0 (w - r) = window l r w := by
  unfold window
  rw [drop_zero, Nat.sub_zero, take_append_of_le_length]
  rw [length_drop]
  omega

theorem window_drop {r w : Nat} : window l (r + n) w = (window l r w).drop n := by
  unfold window
  rw [drop_take, drop_drop, Nat.sub_sub]

namespace PhpStream

variable {F : Type} {s : PhpStream F}

/-- The bytes between `readpos` and `writepos`. -/
def buffered (s : PhpStream F) : List UInt8 := window s.readbuf s.readpos s.writepos

/-- The positions lie in `readbuf`. -/
structure Fits (s : PhpStream F) : Prop where
  read_le : s.readpos ≤ s.writepos
  write_le : s.writepos ≤ s.readbuf.length

theorem Fits.length_buffered (h : s.Fits) : s.buffered.length = s.avail := length_window h.write_le

theorem peek_avail (s : PhpStream F) : s.peek s.avail = s.buffered := rfl

theorem peek_eq (hn : n ≤ s.avail) : s.peek n = s.buffered.take n := by
  unfold avail at hn
  unfold peek buffered window
  rw [take_take, Nat.min_eq_left hn]

theorem Fits.length_peek (h : s.Fits) (hn : n ≤ s.avail) : (s.peek n).length = n := by
  rw [peek_eq hn, length_take, h.length_buffered, Nat.min_eq_left hn]

theorem Fits.take {t : PhpStream F} (h : s.Fits) (hn : n ≤ s.avail) (hbuf : t.readbuf = s.readbuf)
    (hread : t.readpos = s.readpos + n) (hwrite : t.writepos = s.writepos) :
    t.Fits ∧ t.buffered = s.buffered.drop n ∧ t.avail = s.avail - n := by
  have hle := h.read_le
  unfold avail at hn ⊢
  refine ⟨⟨by omega, by rw [hbuf, hwrite]; exact h.write_le⟩, ?_, by omega⟩
  unfold buffered
  rw [hbuf, hread, hwrite, window_drop]

theorem fits_reset {t : PhpStream F} (hread : t.readpos = 0) (hwrite : t.writepos = 0) :
    t.Fits ∧ t.buffered = [] ∧ t.avail = 0 := by
  refine ⟨⟨by omega, by omega⟩, ?_, by unfold avail; omega⟩
  unfold buffered window
  rw [hread, hwrite]
  rfl

theorem Fits.putBytes (h : s.Fits) (data : List UInt8) :
    (s.putBytes data).Fits ∧ (s.putBytes data).buffered = s.buffered ++ data ∧
      (s.putBytes data).avail = s.avail + data.length := by
  have hle := h.read_le
  have hwrite := h.write_le
  refine ⟨⟨?_, ?_⟩, window_put hle hwrite, ?_⟩
  · exact Nat.le_trans hle (Nat.le_add_right _ _)
  · show s.writepos + data.length ≤ _
    unfold PhpStream.putBytes
    simp only [length_append, length_take, length_drop]
    omega
  · show s.writepos + data.length - s.readpos = _
    unfold avail
    omega

theorem Fits.compactBuffer (h : s.Fits) : ∃ b r w,
    s.compactBuffer = { s with readbuf := b, readpos := r, writepos := w } ∧
      r ≤ w ∧ w ≤ b.length ∧ window b r w = s.buffered := by
  have hle := h.read_le
  have hwrite := h.write_le
  unfold PhpStream.compactBuffer
  by_cases hroom : s.readbuf.length - s.writepos < s.chunkSize.val
  · rw [if_pos hroom]
    refine ⟨_, _, _, rfl, Nat.zero_le _, ?_, window_move hwrite⟩
    simp only [length_append, length_drop]
    omega
  · rw [if_neg hroom]
    exact ⟨_, _, _, rfl, hle, hwrite, rfl⟩

theorem Fits.growBuffer (h : s.Fits) : ∃ b, s.growBuffer = { s with readbuf := b } ∧
    s.writepos ≤ b.length ∧ window b s.readpos s.writepos = s.buffered ∧
      s.chunkSize.val ≤ b.length - s.writepos := by
  have hle := h.read_le
  have hwrite := h.write_le
  unfold PhpStream.growBuffer
  by_cases hroom : s.readbuf.length - s.writepos < s.chunkSize.val
  · rw [if_pos hroom]
    refine ⟨_, rfl, ?_, window_append hle hwrite, ?_⟩
    · simp only [length_append]
      omega
    · simp only [length_append, length_replicate]
      omega
  · rw [if_neg hroom]
    exact ⟨_, rfl, hwrite, rfl, by omega⟩

theorem Fits.fillUnfiltered (h : s.Fits) (sizes : Nat → Nat) {size : Nat} (hsize : s.avail < size) :
    ∃ b r w count, s.chunkSize.val ≤ count ∧ r ≤ w ∧ w ≤ b.length ∧
      window b r w = s.buffered ++ (s.file.read sizes count).1 ∧
      s.fillUnfiltered sizes size =
        { s with
          readbuf := b, readpos := r, writepos := w, file := (s.file.read sizes count).2
          eof := decide (s.file.bytes.length ≤ s.file.pos) } := by
  unfold PhpStream.fillUnfiltered
  rw [if_pos hsize]
  obtain ⟨b, r, w, hcompact, hrw, hwb, hbuf⟩ := h.compactBuffer
  rw [hcompact]
  have hfits : Fits ({ s with readbuf := b, readpos := r, writepos := w } : PhpStream F) := ⟨hrw, hwb⟩
  obtain ⟨b', hgrow, hwb', hbuf', hroom⟩ := hfits.growBuffer
  rw [hgrow]
  have hfits' : Fits ({ s with readbuf := b', readpos := r, writepos := w } : PhpStream F) :=
    ⟨hrw, hwb'⟩
  obtain ⟨hput, hputbuf, -⟩ := hfits'.putBytes (s.file.read sizes (b'.length - w)).1
  refine ⟨_, r, _, b'.length - w, hroom, hput.read_le, hput.write_le, ?_, rfl⟩
  have hsame : window b' r w = s.buffered := hbuf'.trans hbuf
  exact hputbuf.trans (congrArg (· ++ _) hsame)

theorem fillUnfiltered_of_le (sizes : Nat → Nat) {size : Nat} (hsize : size ≤ s.avail) :
    s.fillUnfiltered sizes size = s := by
  unfold fillUnfiltered
  rw [if_neg (by omega)]

end PhpStream

end Php53.Streams
