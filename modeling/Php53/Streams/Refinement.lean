import Php53.Streams.Delimiter

/-!
# Refinement — a stream against an unbuffered file

The stream reads ahead, seeks in its buffer and drops the buffer before a write.  For its user it is a
file with one position: the place `q` that the buffer begins at.
-/

namespace Php53.Streams

open Reasoning List

structure Reference where
  bytes : List UInt8
  pos : Nat
  deriving DecidableEq, Repr

def Reference.rest (r : Reference) : List UInt8 := r.bytes.drop r.pos

def lineOf (eol : UInt8) (maxlen : Option Nat) (rest : List UInt8) : List UInt8 :=
  let line := match search [eol] rest with
    | some i => rest.take (i + 1)
    | none => rest
  match maxlen with
  | some m => line.take (m - 1)
  | none => line

def findPart (delim part : List UInt8) : Option Nat :=
  if delim = [] then none else search delim part

def recordOf (maxlen : Nat) (delim rest : List UInt8) : Option (List UInt8) × Nat :=
  let part := rest.take maxlen
  match findPart delim part with
  | some i => (some (rest.take i), i + delim.length)
  | none => (if part = [] then none else some part, part.length)

namespace Reference

/-- A call on the file, with its result.  A read may return less than it was asked for. -/
def Step (eol : UInt8) (r : Reference) : StreamOp → StreamResult → Reference → Prop
  | .read size, .data (some data), r' =>
    data = r.rest.take data.length ∧ data.length ≤ size ∧ (data = [] → size = 0 ∨ r.rest = []) ∧
      r' = { r with pos := r.pos + data.length }
  | .getLine maxlen, .data line, r' =>
    line = (if lineOf eol maxlen r.rest = [] then none else some (lineOf eol maxlen r.rest)) ∧
      r' = { r with pos := r.pos + (lineOf eol maxlen r.rest).length }
  | .getRecord maxlen delim, .data record, r' =>
    record = (recordOf maxlen delim r.rest).1 ∧
      r' = { r with pos := r.pos + (recordOf maxlen delim r.rest).2 }
  | .write buf, .count n, r' =>
    n = buf.length ∧
      r' = if buf = [] then r else ⟨overlay r.bytes r.pos buf, r.pos + buf.length⟩
  | .seek offset whence, .code ret, r' =>
    match lseek r.bytes.length r.pos offset whence with
    | some pos => ret = 0 ∧ r' = { r with pos := pos }
    | none => ret = -1 ∧ r' = r
  | .setNoBuffer _, .code ret, r' => ret = 0 ∧ r' = r
  | _, _, _ => False

end Reference

namespace PhpStream

variable {F : Type} {s t u : PhpStream F}

/-- The buffer holds the bytes of the file from place `q` on, up to its position. -/
structure Ahead (s : PhpStream F) (bytes : List UInt8) (q : Nat) : Prop where
  fits : s.Fits
  file : s.file.bytes = bytes
  underlying : s.file.pos = q + s.avail
  buffered : s.buffered = (bytes.drop q).take s.avail
  eof : s.eof = true → bytes.length ≤ s.file.pos

/-- What no call but the option changes. -/
structure SameMode (s t : PhpStream F) : Prop where
  readfilters : t.readfilters = s.readfilters
  detectEol : t.detectEol = s.detectEol
  eolMac : t.eolMac = s.eolMac
  seekable : t.seekable = s.seekable

theorem SameMode.refl (s : PhpStream F) : SameMode s s := ⟨rfl, rfl, rfl, rfl⟩

theorem SameMode.trans (h : SameMode s t) (h' : SameMode t u) : SameMode s u :=
  ⟨h'.readfilters.trans h.readfilters, h'.detectEol.trans h.detectEol,
    h'.eolMac.trans h.eolMac, h'.seekable.trans h.seekable⟩

variable {bytes : List UInt8} {q : Nat}

/-- The end of the file is seen where nothing is ahead of `q`. -/
def Settled (s : PhpStream F) (bytes : List UInt8) (q : Nat) : Prop :=
  s.eof = true → bytes.length ≤ q

theorem Ahead.settled (h : Ahead s bytes q) (havail : s.avail = 0) : Settled s bytes q := by
  intro heof
  have hle := h.eof heof
  rw [h.underlying, havail] at hle
  exact hle

theorem Ahead.avail_le (h : Ahead s bytes q) : s.avail ≤ bytes.length - q := by
  have hlen := h.fits.length_buffered
  rw [h.buffered, length_take, length_drop] at hlen
  omega

theorem Ahead.peek_eq (h : Ahead s bytes q) {n : Nat} (hn : n ≤ s.avail) :
    s.peek n = (bytes.drop q).take n := by
  rw [PhpStream.peek_eq hn, h.buffered, take_take, Nat.min_eq_left hn]

theorem Ahead.take (h : Ahead s bytes q) {n : Nat} (hn : n ≤ s.avail) (hbuf : t.readbuf = s.readbuf)
    (hread : t.readpos = s.readpos + n) (hwrite : t.writepos = s.writepos) (hfile : t.file = s.file)
    (heof : t.eof = true → s.eof = true) : Ahead t bytes (q + n) ∧ t.avail = s.avail - n := by
  obtain ⟨hfits, hbuffered, havail⟩ := h.fits.take hn hbuf hread hwrite
  refine ⟨⟨hfits, by rw [hfile]; exact h.file, ?_, ?_, ?_⟩, havail⟩
  · rw [hfile, h.underlying, havail]
    omega
  · rw [hbuffered, h.buffered, havail, drop_take, drop_drop]
  · rw [hfile]
    exact fun he => h.eof (heof he)

theorem Ahead.reset (hfile : t.file.bytes = bytes) (hpos : t.file.pos = q) (hread : t.readpos = 0)
    (hwrite : t.writepos = 0) (heof : t.eof = true → bytes.length ≤ q) : Ahead t bytes q := by
  obtain ⟨hfits, hbuffered, havail⟩ := fits_reset hread hwrite
  refine ⟨hfits, hfile, by omega, ?_, by rwa [hpos]⟩
  rw [hbuffered, havail, take_zero]

variable (filter : FilterOps F) {sizes : Nat → Nat} {maxlen : Nat} {delim : List UInt8}
  {count : Nat} {eol : UInt8} {rest : List UInt8} {i : Nat}

theorem read_spec (hsizes : ∀ k, 0 < sizes k) (f : File) (hcount : 0 < count) :
    (f.read sizes count).1 = (f.bytes.drop f.pos).take (f.read sizes count).1.length ∧
      (f.read sizes count).1.length ≤ count ∧
      ((f.read sizes count).1 = [] ↔ f.bytes.length ≤ f.pos) := by
  have hsize := hsizes f.reads
  unfold File.read
  refine ⟨?_, ?_, ?_⟩
  · rw [length_take]
    exact take_eq_take_min
  · simp only [length_take]
    omega
  · rw [← length_eq_zero_iff]
    simp only [length_take, length_drop]
    omega

theorem Ahead.fill (h : Ahead s bytes q) (hsizes : ∀ k, 0 < sizes k) (hfilters : s.readfilters = [])
    {size : Nat} (hsize : s.avail < size) :
    ∃ t data, s.fillReadBuffer filter sizes size = t ∧ Ahead t bytes q ∧
      t.avail = s.avail + data.length ∧ t.eof = decide (bytes.length ≤ s.file.pos) ∧
      (data = ([] : List UInt8) ↔ bytes.length ≤ s.file.pos) ∧ SameMode s t ∧
      t.position = s.position := by
  obtain ⟨b, r, w, count, hcount, hrw, hwb, hwindow, hfill⟩ := h.fits.fillUnfiltered sizes hsize
  have hchunk := s.chunkSize.2.1
  obtain ⟨hdata, -, hnil⟩ := read_spec hsizes s.file (Nat.lt_of_lt_of_le hchunk hcount)
  rw [h.file] at hdata hnil hfill
  generalize hd : (s.file.read sizes count).1 = data at hdata hnil hwindow
  -- the new bytes lie behind those that were buffered
  have hlen : (window b r w).length = s.avail + data.length := by
    rw [hwindow, length_append, h.fits.length_buffered]
  rw [length_window hwb] at hlen
  refine ⟨_, data, rfl, ?_⟩
  unfold fillReadBuffer
  rw [if_pos hfilters, hfill]
  refine ⟨⟨⟨hrw, hwb⟩, h.file, ?_, ?_, ?_⟩, hlen, rfl, hnil, ⟨rfl, rfl, rfl, rfl⟩, rfl⟩
  · show s.file.pos + (s.file.read sizes count).1.length = q + (w - r)
    rw [hd, hlen, h.underlying]
    omega
  · show window b r w = (bytes.drop q).take (w - r)
    rw [hwindow, hlen, h.buffered, take_add, drop_drop, hdata, ← h.underlying]
    simp
  · intro heof
    exact Nat.le_trans (of_decide_eq_true heof) (Nat.le_add_right _ _)

/-- Bytes that were read: those of the file from `q` on, and the buffer begins behind them. -/
structure ReadOf (s t : PhpStream F) (bytes : List UInt8) (q : Nat) (data : List UInt8) : Prop where
  data_eq : data = (bytes.drop q).take data.length
  ahead : Ahead t bytes (q + data.length)
  mode : SameMode s t
  settled : Settled s bytes q → Settled t bytes (q + data.length)

theorem ReadOf.refl (h : Ahead s bytes q) : ReadOf s s bytes q [] :=
  ⟨rfl, h, SameMode.refl s, id⟩

theorem ReadOf.trans {data data' : List UInt8} (h : ReadOf s t bytes q data)
    (h' : ReadOf t u bytes (q + data.length) data') : ReadOf s u bytes q (data ++ data') := by
  refine ⟨?_, ?_, h.mode.trans h'.mode, ?_⟩
  · have hdata' := h'.data_eq
    rw [length_append, take_add, drop_drop, ← h.data_eq, ← hdata']
  · rw [length_append, ← Nat.add_assoc]
    exact h'.ahead
  · rw [length_append, ← Nat.add_assoc]
    exact fun hs => h'.settled (h.settled hs)

theorem Ahead.readOf_peek (h : Ahead s bytes q) {n : Nat} (hn : n ≤ s.avail)
    (hbuf : t.readbuf = s.readbuf) (hread : t.readpos = s.readpos + n)
    (hwrite : t.writepos = s.writepos) (hfile : t.file = s.file) (heof : t.eof = s.eof)
    (hmode : SameMode s t) :
    ReadOf s t bytes q (s.peek n) ∧ (s.peek n).length = n ∧ t.avail = s.avail - n := by
  have hlen := h.fits.length_peek hn
  obtain ⟨hahead, havail⟩ := h.take hn hbuf hread hwrite hfile (fun he => heof ▸ he)
  refine ⟨⟨?_, ?_, hmode, ?_⟩, hlen, havail⟩
  · rw [hlen]
    exact h.peek_eq hn
  · rw [hlen]
    exact hahead
  · intro hs he
    rw [heof] at he
    exact Nat.le_trans (hs he) (Nat.le_add_right _ _)

theorem Ahead.readOf_drain (h : Ahead s bytes q) (size : Nat) :
    ReadOf s (s.drain size).2 bytes q (s.drain size).1 ∧
      (s.drain size).1.length = min s.avail size ∧
      (s.drain size).2.avail = s.avail - min s.avail size :=
  h.readOf_peek (Nat.min_le_left _ _) rfl rfl rfl rfl rfl ⟨rfl, rfl, rfl, rfl⟩

theorem Ahead.readOf_raw (h : Ahead s bytes q) (hsizes : ∀ k, 0 < sizes k) (havail : s.avail = 0)
    (hcount : 0 < count) :
    ReadOf s (s.opsRead sizes count).2 bytes q (s.opsRead sizes count).1 ∧
      (s.opsRead sizes count).1.length ≤ count ∧
      ((s.opsRead sizes count).1 = [] → bytes.length ≤ q) := by
  obtain ⟨hdata, hlen, hnil⟩ := read_spec hsizes s.file hcount
  have hpos := h.underlying
  rw [havail, Nat.add_zero] at hpos
  rw [h.file, hpos] at hdata hnil
  have hbuffered : s.buffered = [] := by rw [h.buffered, havail, take_zero]
  -- the end of the file is seen only where the read began there
  have hend : (s.opsRead sizes count).2.eof = true → bytes.length ≤ q := by
    intro heof
    rw [← h.file, ← hpos]
    exact of_decide_eq_true heof
  refine ⟨⟨hdata, ⟨⟨h.fits.read_le, h.fits.write_le⟩, h.file, ?_, ?_, ?_⟩, ⟨rfl, rfl, rfl, rfl⟩, ?_⟩,
    hlen, hnil.mp⟩
  · show s.file.pos + (s.file.read sizes count).1.length =
      q + (s.file.read sizes count).1.length + s.avail
    omega
  · show s.buffered = List.take s.avail _
    rw [hbuffered, havail, take_zero]
  · intro heof
    show bytes.length ≤ s.file.pos + _
    exact Nat.le_trans (hend heof) (hpos ▸ Nat.le_add_right _ _)
  · exact fun _ heof => Nat.le_trans (hend heof) (Nat.le_add_right _ _)

/-- A fill of the empty buffer finds bytes, or the file has ended. -/
theorem Ahead.refill (h : Ahead s bytes q) (hsizes : ∀ k, 0 < sizes k)
    (hfilters : s.readfilters = []) (havail : s.avail = 0) {size : Nat} (hsize : 0 < size) :
    ∃ t, s.fillReadBuffer filter sizes size = t ∧ Ahead t bytes q ∧ SameMode s t ∧
      Settled t bytes q ∧ (t.avail = 0 → bytes.length ≤ q) ∧ t.position = s.position := by
  obtain ⟨t, data, hfill, hahead, htavail, heof, hnil, hmode, hposition⟩ :=
    h.fill filter hsizes hfilters (by omega : s.avail < size)
  rw [h.underlying, havail, Nat.add_zero] at heof hnil
  refine ⟨t, hfill, hahead, hmode, fun he => of_decide_eq_true (heof ▸ he), fun hempty => ?_,
    hposition⟩
  exact hnil.mp (eq_nil_of_length_eq_zero (by omega))

theorem Ahead.readOf_fill (h : Ahead s bytes q) (hsizes : ∀ k, 0 < sizes k)
    (hfilters : s.readfilters = []) (havail : s.avail = 0) (hcount : 0 < count) :
    let r := (s.fillReadBuffer filter sizes count).drain count
    ReadOf s r.2 bytes q r.1 ∧ r.1.length ≤ count ∧ (r.1 = [] → bytes.length ≤ q) ∧
      r.2.position = s.position := by
  obtain ⟨t, hfill, hahead, hmode, hsettled, hend, hposition⟩ :=
    h.refill filter hsizes hfilters havail hcount
  obtain ⟨hread, hlen, -⟩ := hahead.readOf_drain count
  have hrefill : ReadOf s t bytes q [] := ⟨rfl, hahead, hmode, fun _ => hsettled⟩
  simp only [hfill]
  refine ⟨hrefill.trans hread, by omega, fun hempty => hend ?_, hposition⟩
  rw [hempty, length_nil] at hlen
  omega

theorem Ahead.readLoop (h : Ahead s bytes q) (hsizes : ∀ k, 0 < sizes k)
    (hfilters : s.readfilters = []) (fuel size : Nat) (hfuel : size ≤ fuel) :
    let r := PhpStream.readLoop filter sizes fuel size s
    ReadOf s r.2 bytes q r.1 ∧ r.1.length ≤ size ∧ (r.1 = [] → size = 0 ∨ bytes.length ≤ q) ∧
      r.2.position = s.position := by
  induction fuel generalizing s q size with
  | zero =>
    obtain rfl : size = 0 := Nat.le_zero.mp hfuel
    exact ⟨ReadOf.refl h, Nat.le_refl _, fun _ => Or.inl rfl, rfl⟩
  | succ fuel ih =>
    dsimp only
    rw [PhpStream.readLoop]
    by_cases hz : size = 0
    · rw [if_pos hz]
      exact ⟨ReadOf.refl h, Nat.zero_le _, fun _ => Or.inl hz, rfl⟩
    rw [if_neg hz]
    obtain ⟨hfirst, hlen, havail⟩ := h.readOf_drain size
    generalize hd : s.drain size = d at hfirst hlen havail
    obtain ⟨first, s₁⟩ := d
    have hposition₁ : s₁.position = s.position := by
      have := congrArg (fun d => d.2.position) hd
      exact this.symm
    dsimp only at hfirst hlen havail ⊢
    by_cases hdone : size - first.length = 0
    · rw [if_pos hdone]
      refine ⟨hfirst, show first.length ≤ size by omega, fun (hnil : first = []) => ?_, hposition₁⟩
      rw [hnil, length_nil] at hdone
      exact absurd hdone hz
    rw [if_neg hdone]
    -- the buffer is empty now: the rest comes from the file
    have hempty : s₁.avail = 0 := by omega
    have hfilters₁ : s₁.readfilters = [] := hfirst.mode.readfilters.trans hfilters
    obtain ⟨more, s₂, hmore, hread, hmorelen, hmorenil, hposition₂⟩ : ∃ more s₂,
        (if s₁.readfilters = [] ∧ (s₁.noBuffer = true ∨ s₁.chunkSize.val = 1) then
          s₁.opsRead sizes (size - first.length)
        else (s₁.fillReadBuffer filter sizes (size - first.length)).drain (size - first.length)) =
          (more, s₂) ∧
        ReadOf s₁ s₂ bytes (q + first.length) more ∧ more.length ≤ size - first.length ∧
        (more = [] → bytes.length ≤ q + first.length) ∧ s₂.position = s₁.position := by
      by_cases hraw : s₁.readfilters = [] ∧ (s₁.noBuffer = true ∨ s₁.chunkSize.val = 1)
      · rw [if_pos hraw]
        obtain ⟨hr, hl, hn⟩ := hfirst.ahead.readOf_raw hsizes hempty (by omega : 0 < size - first.length)
        exact ⟨_, _, rfl, hr, hl, hn, rfl⟩
      · rw [if_neg hraw]
        obtain ⟨hr, hl, hn, hp⟩ :=
          hfirst.ahead.readOf_fill filter hsizes hfilters₁ hempty (by omega : 0 < size - first.length)
        exact ⟨_, _, rfl, hr, hl, hn, hp⟩
    rw [hmore]
    dsimp only
    have hboth := hfirst.trans hread
    by_cases hstop : more = [] ∨ s₂.plainFiles = false
    · rw [if_pos hstop]
      refine ⟨hboth, ?_, fun hnil => Or.inr ?_, hposition₂.trans hposition₁⟩
      · rw [length_append]
        omega
      · obtain ⟨hn1, hn2⟩ := append_eq_nil_iff.mp hnil
        have hend := hmorenil hn2
        rw [hn1] at hend
        exact hend
    · rw [if_neg hstop]
      have hfilters₂ : s₂.readfilters = [] := hread.mode.readfilters.trans hfilters₁
      have hne : 0 < more.length :=
        length_pos_of_ne_nil fun hn => hstop (Or.inl hn)
      have hahead₂ := hread.ahead
      obtain ⟨hrest, hrestlen, -, hposition₃⟩ :=
        ih hahead₂ hfilters₂ (size - first.length - more.length) (by omega)
      rw [Nat.add_assoc, ← length_append] at hrest
      refine ⟨hboth.trans hrest, ?_, fun hnil => ?_, ?_⟩
      · simp only [length_append]
        omega
      · have hnil' := (append_eq_nil_iff.mp (append_eq_nil_iff.mp hnil).1).2
        rw [hnil'] at hne
        exact absurd hne (Nat.lt_irrefl _)
      · rw [hposition₃, hposition₂, hposition₁]

theorem streamRead_of_le {n : Nat} (hn : n ≤ s.avail) (hfits : s.Fits) :
    s.streamRead filter sizes n =
      (s.peek n, { s with readpos := s.readpos + n, position := s.position + n }) := by
  have hlen := hfits.length_peek hn
  unfold streamRead
  cases n with
  | zero => rfl
  | succ n =>
    have hmin : min s.avail (n + 1) = n + 1 := Nat.min_eq_right hn
    have hloop : PhpStream.readLoop filter sizes (n + 1) (n + 1) s =
        (s.peek (n + 1), { s with readpos := s.readpos + (n + 1) }) := by
      rw [PhpStream.readLoop, if_neg (Nat.succ_ne_zero n)]
      unfold drain
      simp only [hmin]
      rw [if_pos (by omega)]
    rw [hloop]
    simp only [hlen]

theorem lineOf_some (eol : UInt8) (m : Nat) (rest : List UInt8) :
    lineOf eol (some m) rest = (lineOf eol none rest).take (m - 1) := rfl

theorem lineOf_found {k : Nat}
    (h : search [eol] (rest.take k) = some i) : lineOf eol none rest = rest.take (i + 1) := by
  have hrest := search_append (by simp) h (rest.drop k)
  rw [take_append_drop] at hrest
  unfold lineOf
  simp only [hrest]

theorem lineOf_append {k : Nat} (h : search [eol] (rest.take k) = none) (hk : k ≤ rest.length) :
    lineOf eol none rest = rest.take k ++ lineOf eol none (rest.drop k) := by
  have hbefore : ∀ j < k, ¬ OccursAt [eol] rest j := by
    intro j hj hocc
    rw [← take_append_drop k rest] at hocc
    apply search_eq_none (by simp) h j
    apply hocc.of_append
    rw [length_take, length_singleton]
    omega
  have hsearch := search_drop (by simp) hbefore
  unfold lineOf
  cases hs : search [eol] (rest.drop k) with
  | none =>
    rw [hs] at hsearch
    rw [← hsearch]
    exact (take_append_drop k rest).symm
  | some i =>
    rw [hs] at hsearch
    rw [← hsearch]
    show rest.take (k + i + 1) = rest.take k ++ (rest.drop k).take (i + 1)
    rw [Nat.add_assoc, take_add]

theorem lineOf_copy {k : Nat} (hk : k ≤ rest.length) (maxlen : Option Nat) :
    let r := lineCopy (search [eol] (rest.take k)) k maxlen
    r.1 ≤ k ∧ (r.2 = true → lineOf eol maxlen rest = rest.take r.1) ∧
      (r.2 = false → r.1 = k ∧ maxlen.map (· - k) ≠ some 0 ∧
        lineOf eol maxlen rest = rest.take k ++ lineOf eol (maxlen.map (· - k)) (rest.drop k)) := by
  cases hs : search [eol] (rest.take k) with
  | some i =>
    have hi : i < k := by
      have hlt := (search_eq_some hs).2.1.lt_length (by simp)
      rw [length_take] at hlt
      omega
    have hline := lineOf_found hs
    cases maxlen with
    | none => exact ⟨hi, fun _ => hline, fun hf => nomatch hf⟩
    | some m =>
      rw [lineOf_some, hline, take_take]
      unfold lineCopy
      by_cases hm : i + 1 ≥ m - 1
      · simp only [hm, if_true]
        exact ⟨by omega, fun _ => by rw [Nat.min_eq_left hm], fun hf => nomatch hf⟩
      · simp only [hm, if_false]
        exact ⟨hi, fun _ => by rw [Nat.min_eq_right (by omega)], fun hf => nomatch hf⟩
  | none =>
    have hline := lineOf_append hs hk
    have hlen : (rest.take k).length = k := length_take_of_le hk
    cases maxlen with
    | none => exact ⟨Nat.le_refl k, fun hf => (nomatch hf), fun _ => ⟨rfl, by simp, hline⟩⟩
    | some m =>
      rw [lineOf_some, hline]
      unfold lineCopy
      by_cases hm : k ≥ m - 1
      · simp only [hm, if_true]
        refine ⟨trivial, fun _ => ?_, fun hf => nomatch hf⟩
        rw [take_append_of_le_length (by omega), take_take, Nat.min_eq_left hm]
      · simp only [hm, if_false]
        refine ⟨Nat.le_refl k, fun hf => (Bool.false_ne_true hf).elim, fun _ => ⟨trivial, ?_, ?_⟩⟩
        · simp only [Option.map_some, ne_eq, Option.some.injEq]
          omega
        · rw [Option.map_some, lineOf_some, take_append, hlen]
          have hsub : m - 1 - k = m - k - 1 := by omega
          rw [hsub, take_of_length_le (by omega)]

def eolByte (s : PhpStream F) : UInt8 := if s.eolMac then 13 else 10

theorem SameMode.eolByte (h : SameMode s t) : t.eolByte = s.eolByte := by
  unfold PhpStream.eolByte
  rw [h.eolMac]

theorem Ahead.locateEol (h : Ahead s bytes q) (hdetect : s.detectEol = false) :
    s.locateEol = (search [s.eolByte] ((bytes.drop q).take s.avail), s) := by
  unfold PhpStream.locateEol
  rw [if_neg (by simp [hdetect]), memchr_eq, h.peek_eq (Nat.le_refl _)]
  rfl

def lineRounds (s : PhpStream F) : Nat :=
  2 * (s.file.bytes.length - s.file.pos) + if 0 < s.avail then 1 else 0

section

variable (h : Ahead s bytes q) (hsizes : ∀ k, 0 < sizes k) (hfilters : s.readfilters = [])
  (hdetect : s.detectEol = false) (hsettled : Settled s bytes q)

include h hsizes hfilters hdetect hsettled

theorem Ahead.getLineLoop (fuel : Nat) (maxlen : Option Nat) (hmax : maxlen ≠ some 0)
    (hfuel : s.lineRounds < fuel) :
    ∃ line t, PhpStream.getLineLoop filter sizes fuel maxlen s = some (line, t) ∧
      line = lineOf s.eolByte maxlen (bytes.drop q) ∧ ReadOf s t bytes q line ∧
      t.position = s.position + line.length := by
  induction fuel generalizing s q maxlen with
  | zero => exact absurd hfuel (Nat.not_lt_zero _)
  | succ fuel ih =>
    rw [PhpStream.getLineLoop]
    unfold lineRounds at hfuel
    by_cases havail : 0 < s.avail
    · -- the line, or the part of it that is buffered, is copied
      rw [if_pos havail] at hfuel ⊢
      rw [h.locateEol hdetect]
      have hle : s.avail ≤ (bytes.drop q).length := by
        rw [length_drop]
        exact h.avail_le
      obtain ⟨hn, hdone, hmore⟩ := @lineOf_copy s.eolByte _ _ hle maxlen
      dsimp only at hn hdone hmore ⊢
      generalize lineCopy (search [s.eolByte] ((bytes.drop q).take s.avail)) s.avail maxlen = c
        at hn hdone hmore
      obtain ⟨n, done⟩ := c
      dsimp only at hn hdone hmore ⊢
      obtain ⟨hread, hlen, havail'⟩ := h.readOf_peek
        (t := { s with position := s.position + n, readpos := s.readpos + n })
        hn rfl rfl rfl rfl rfl ⟨rfl, rfl, rfl, rfl⟩
      have hpeek := h.peek_eq hn
      cases done with
      | true => exact ⟨_, _, rfl, hpeek.trans (hdone rfl).symm, hread, by rw [hlen]⟩
      | false =>
        obtain ⟨hk, hmax', hline⟩ := hmore rfl
        subst hk
        obtain ⟨line, t, hloop, hline', hread', hposition⟩ := ih hread.ahead hfilters hdetect
          (hread.settled hsettled) (maxlen.map (· - s.avail)) hmax' (by
            unfold lineRounds
            rw [havail', if_neg (by omega)]
            show 2 * (s.file.bytes.length - s.file.pos) + 0 < fuel
            omega)
        refine ⟨s.peek s.avail ++ line, t, ?_, ?_, hread.trans hread', ?_⟩
        · simp only [hloop, Bool.false_eq_true, if_false, Option.map_some]
        · rw [hline, hline', hlen, hpeek, drop_drop]
          rfl
        · rw [hposition, length_append, hlen]
          exact Nat.add_assoc _ _ _
    · rw [if_neg havail] at hfuel ⊢
      have hempty : s.avail = 0 := by omega
      have hunder := h.underlying
      have hnone : bytes.length ≤ q → lineOf s.eolByte maxlen (bytes.drop q) = [] := by
        intro hend
        rw [drop_eq_nil_of_le hend]
        cases maxlen with
        | none => rfl
        | some m => exact take_nil
      by_cases heof : s.eof = true
      · rw [if_pos heof]
        exact ⟨[], s, rfl, (hnone (hsettled heof)).symm, ReadOf.refl h, rfl⟩
      · rw [if_neg heof]
        dsimp only
        generalize hto : s.lineRequest maxlen = toread
        have hchunk := s.chunkSize.2.1
        by_cases hzero : toread = 0
        · -- a buffer of one byte has room for no line
          obtain rfl : maxlen = some 1 := by
            cases maxlen with
            | none =>
              change s.chunkSize.val = toread at hto
              omega
            | some m =>
              change min (m - 1) s.chunkSize.val = toread at hto
              have hm : m ≠ 0 := fun hz => hmax (congrArg some hz)
              congr 1
              omega
          have hfill : s.fillReadBuffer filter sizes toread = s := by
            unfold fillReadBuffer
            rw [if_pos hfilters, fillUnfiltered_of_le sizes (by omega)]
          rw [hfill, if_pos hempty]
          exact ⟨[], s, rfl, rfl, ReadOf.refl h, rfl⟩
        obtain ⟨t, hfill, hahead, hmode, hsettled', hend, hposition⟩ :=
          h.refill filter hsizes hfilters hempty (Nat.pos_of_ne_zero hzero)
        have hrefill : ReadOf s t bytes q [] := ⟨rfl, hahead, hmode, fun _ => hsettled'⟩
        rw [hfill]
        by_cases hstop : t.avail = 0
        · rw [if_pos hstop]
          exact ⟨[], t, rfl, (hnone (hend hstop)).symm, hrefill, hposition⟩
        · rw [if_neg hstop]
          have hbehind := hahead.underlying
          have hle := hahead.avail_le
          obtain ⟨line, u, hloop, hline, hread, hposition'⟩ := ih hahead
            (hmode.readfilters.trans hfilters) (hmode.detectEol.trans hdetect)
            (hrefill.settled hsettled) maxlen hmax (by
              unfold lineRounds
              rw [if_pos (by omega), hahead.file]
              rw [h.file] at hfuel
              omega)
          refine ⟨line, u, hloop, ?_, ?_, ?_⟩
          · rw [hline, hmode.eolByte]
          · exact hrefill.trans hread
          · rw [hposition', hposition]

theorem Ahead.getLine {fuel : Nat} (maxlen : Option Nat) (hfuel : s.lineRounds < fuel) :
    ∃ t, s.getLine filter sizes fuel maxlen =
        some (if lineOf s.eolByte maxlen (bytes.drop q) = [] then none
          else some (lineOf s.eolByte maxlen (bytes.drop q)), t) ∧
      ReadOf s t bytes q (lineOf s.eolByte maxlen (bytes.drop q)) ∧
      t.position = s.position + (lineOf s.eolByte maxlen (bytes.drop q)).length := by
  unfold PhpStream.getLine
  by_cases hmax : maxlen = some 0
  · have hline : lineOf s.eolByte maxlen (bytes.drop q) = [] := by
      rw [hmax, lineOf_some, Nat.zero_sub, take_zero]
    rw [if_pos hmax, hline]
    exact ⟨s, rfl, ReadOf.refl h, rfl⟩
  · rw [if_neg hmax]
    obtain ⟨line, t, hloop, rfl, hread, hposition⟩ :=
      h.getLineLoop filter hsizes hfilters hdetect hsettled fuel maxlen hmax hfuel
    rw [hloop]
    exact ⟨t, rfl, hread, hposition⟩

end

theorem findPart_append {part : List UInt8} (h : findPart delim part = some i)
    (part' : List UInt8) : findPart delim (part ++ part') = some i ∧ i + delim.length ≤ part.length := by
  unfold findPart at h ⊢
  by_cases hdelim : delim = []
  · rw [if_pos hdelim] at h
    exact nomatch h
  · rw [if_neg hdelim] at h ⊢
    obtain ⟨hle, hocc, -⟩ := search_eq_some h
    exact ⟨search_append hdelim h part', hocc.length_le hle⟩

theorem Fits.findDelim_zero (h : s.Fits) (maxlen : Nat) (delim : List UInt8) :
    s.findDelim maxlen 0 delim = findPart delim (s.buffered.take maxlen) := by
  unfold PhpStream.findDelim findPart
  by_cases hdelim : delim = []
  · rw [if_pos hdelim, if_pos hdelim]
  · rw [if_neg hdelim, if_neg hdelim, h.searchDelim hdelim, drop_zero]
    simp

theorem Fits.findDelim_grown (h : t.Fits) {part part' : List UInt8}
    (hpart : t.buffered.take maxlen = part ++ part') (hnone : findPart delim part = none) :
    t.findDelim maxlen (part.length - (delim.length - 1)) delim =
      findPart delim (t.buffered.take maxlen) := by
  unfold findPart at hnone ⊢
  unfold PhpStream.findDelim
  by_cases hdelim : delim = []
  · rw [if_pos hdelim, if_pos hdelim]
  · rw [if_neg hdelim] at hnone
    rw [if_neg hdelim, if_neg hdelim, h.searchDelim hdelim, hpart]
    exact search_grown hdelim hnone

theorem Ahead.recordLoop (h : Ahead s bytes q) (hsizes : ∀ k, 0 < sizes k)
    (hfilters : s.readfilters = []) (hsettled : Settled s bytes q) (hmax : 0 < maxlen)
    (delim : List UInt8) (fuel : Nat) (hfuel : maxlen - s.avail < fuel) :
    ∃ found t, PhpStream.recordLoop filter sizes maxlen delim fuel s.avail
        (findPart delim (s.buffered.take maxlen)) s = some (found, t) ∧
      Ahead t bytes q ∧ SameMode s t ∧ t.position = s.position ∧
      found = findPart delim (t.buffered.take maxlen) ∧
      (found = none → t.avail < maxlen → t.eof = true ∧ bytes.length ≤ q + t.avail) ∧
      (t.eof = true → found = none ∧ t.avail < maxlen) := by
  induction fuel generalizing s with
  | zero => exact absurd hfuel (Nat.not_lt_zero _)
  | succ fuel ih =>
    have hnoteof : s.eof = true → s.avail = 0 := by
      intro heof
      have hend := hsettled heof
      have hle := h.avail_le
      omega
    rw [PhpStream.recordLoop]
    generalize hfound : findPart delim (s.buffered.take maxlen) = found
    by_cases hgo : found = none ∧ s.avail < maxlen
    · obtain ⟨rfl, hlt⟩ := hgo
      rw [if_pos ⟨rfl, hlt⟩]
      have hchunk := s.chunkSize.2.1
      have hsize : s.avail < s.avail + min (maxlen - s.avail) s.chunkSize.val := by omega
      obtain ⟨t, data, hfill, hahead, htavail, hteof, hnil, hmode, hposition⟩ :=
        h.fill filter hsizes hfilters hsize
      rw [h.underlying] at hteof hnil
      rw [hfill]
      dsimp only
      -- what was buffered stays in front of what was read
      have hbuffered : s.buffered.take maxlen = s.buffered := by
        apply take_of_length_le
        rw [h.fits.length_buffered]
        omega
      rw [hbuffered] at hfound
      have hpart : ∃ part', t.buffered.take maxlen = s.buffered ++ part' := by
        refine ⟨(t.buffered.take maxlen).drop s.avail, ?_⟩
        have hfront : (t.buffered.take maxlen).take s.avail = s.buffered := by
          rw [take_take, Nat.min_eq_left (Nat.le_of_lt hlt), hahead.buffered, take_take,
            Nat.min_eq_left (by omega), h.buffered]
        have hsplit := take_append_drop s.avail (t.buffered.take maxlen)
        rw [hfront] at hsplit
        exact hsplit.symm
      obtain ⟨part', hpart⟩ := hpart
      have hfind := hahead.fits.findDelim_grown hpart hfound
      rw [h.fits.length_buffered] at hfind
      by_cases hstop : t.avail = s.avail
      · -- the end of the file
        rw [if_pos hstop]
        have hend : bytes.length ≤ q + s.avail :=
          hnil.mp (eq_nil_of_length_eq_zero (by omega))
        have hsame : t.buffered.take maxlen = s.buffered := by
          rw [hahead.buffered, hstop, ← h.buffered, hbuffered]
        refine ⟨none, t, rfl, hahead, hmode, hposition, ?_, fun _ _ => ⟨?_, ?_⟩, fun _ => ⟨rfl, ?_⟩⟩
        · rw [hsame, hfound]
        · rw [hteof]
          exact decide_eq_true hend
        · rw [hstop]
          exact hend
        · rw [hstop]
          exact hlt
      · rw [if_neg hstop, hfind]
        have hmore : ¬ bytes.length ≤ q + s.avail := by
          intro hend
          rw [hnil.mpr hend, length_nil] at htavail
          exact hstop htavail
        have hsettled' : Settled t bytes q := by
          intro heof
          rw [hteof] at heof
          exact absurd (of_decide_eq_true heof) hmore
        obtain ⟨found, u, hloop, hahead', hmode', hposition', hrest⟩ :=
          ih hahead (hmode.readfilters.trans hfilters) hsettled' (by omega)
        exact ⟨found, u, hloop, hahead', hmode.trans hmode', hposition'.trans hposition, hrest⟩
    · rw [if_neg hgo]
      refine ⟨found, s, rfl, h, SameMode.refl s, rfl, hfound.symm, fun hn hlt => absurd ⟨hn, hlt⟩ hgo,
        fun heof => ?_⟩
      -- the end of the file was not seen, or nothing is buffered
      have hempty := hnoteof heof
      have hnil : s.buffered = [] := by rw [h.buffered, hempty, take_zero]
      rw [hnil, take_nil] at hfound
      refine ⟨?_, by omega⟩
      cases found with
      | none => rfl
      | some i =>
        have hlen := (findPart_append hfound []).2
        unfold findPart at hfound
        rw [length_nil] at hlen
        have hdelim : delim = [] := eq_nil_of_length_eq_zero (by omega)
        rw [if_pos hdelim] at hfound
        exact nomatch hfound

theorem Fits.takeRecord_found (h : s.Fits) (hi : i + delim.length ≤ s.avail) :
    s.takeRecord filter sizes maxlen delim (some i) =
      (some (s.peek i), { s with
        readpos := s.readpos + i + delim.length, position := s.position + i + delim.length }) := by
  have hread := @streamRead_of_le _ _ filter sizes _ (show i ≤ s.avail by omega) h
  unfold takeRecord recordLen
  simp only [hread, Option.isSome_some, if_true]

theorem Fits.takeRecord_whole (h : s.Fits) {n : Nat} (hn : n ≤ s.avail)
    (hlen : s.recordLen maxlen delim none = some n) :
    s.takeRecord filter sizes maxlen delim none =
      (some (s.peek n), { s with readpos := s.readpos + n, position := s.position + n }) := by
  have hread := @streamRead_of_le _ _ filter sizes _ hn h
  unfold takeRecord
  simp only [hlen, hread, Option.isSome_none, Bool.false_eq_true, if_false]

theorem recordOf_found (h : findPart delim (rest.take maxlen) = some i) :
    recordOf maxlen delim rest = (some (rest.take i), i + delim.length) := by
  unfold recordOf
  simp only [h]

theorem recordOf_none (h : findPart delim (rest.take maxlen) = none) :
    recordOf maxlen delim rest =
      (if rest.take maxlen = [] then none else some (rest.take maxlen),
        (rest.take maxlen).length) := by
  unfold recordOf
  simp only [h]

theorem Ahead.getRecord (h : Ahead s bytes q) (hsizes : ∀ k, 0 < sizes k)
    (hfilters : s.readfilters = []) (hsettled : Settled s bytes q) {fuel : Nat} (delim : List UInt8)
    (hfuel : maxlen < fuel) :
    ∃ t, s.getRecord filter sizes fuel maxlen delim =
        some ((recordOf maxlen delim (bytes.drop q)).1, t) ∧
      Ahead t bytes (q + (recordOf maxlen delim (bytes.drop q)).2) ∧ SameMode s t ∧
      Settled t bytes (q + (recordOf maxlen delim (bytes.drop q)).2) ∧
      t.position = s.position + (recordOf maxlen delim (bytes.drop q)).2 := by
  unfold PhpStream.getRecord
  by_cases hzero : maxlen = 0
  · subst hzero
    have hrecord : recordOf 0 delim (bytes.drop q) = (none, 0) := by
      unfold recordOf findPart
      by_cases hdelim : delim = [] <;> simp [hdelim, search]
    rw [if_pos rfl, hrecord]
    exact ⟨s, rfl, h, SameMode.refl s, hsettled, rfl⟩
  rw [if_neg hzero, h.fits.findDelim_zero]
  obtain ⟨found, t, hloop, hahead, hmode, hposition, hfound, hend, heof⟩ :=
    h.recordLoop filter hsizes hfilters hsettled (show 0 < maxlen by omega) delim fuel (by omega)
  rw [hloop, Option.map_some]
  dsimp only
  have hlen := hahead.fits.length_buffered
  have hrestlen : (bytes.drop q).length = bytes.length - q := length_drop
  cases found with
  | some i =>
    -- the delimiter is found in the part that is buffered, so it is the first one
    have hpart : t.buffered.take maxlen = ((bytes.drop q).take maxlen).take t.avail := by
      rw [hahead.buffered, take_take, take_take, Nat.min_comm]
    have hsplit := take_append_drop t.avail ((bytes.drop q).take maxlen)
    rw [← hpart] at hsplit
    obtain ⟨hwhole, hi⟩ := findPart_append hfound.symm (((bytes.drop q).take maxlen).drop t.avail)
    rw [hsplit] at hwhole
    rw [length_take] at hi
    have hle : i + delim.length ≤ t.avail := by omega
    rw [recordOf_found hwhole, hahead.fits.takeRecord_found filter hle, hahead.peek_eq (by omega)]
    obtain ⟨hahead', -⟩ := hahead.take
      (t := { t with
        readpos := t.readpos + i + delim.length, position := t.position + i + delim.length })
      hle rfl (Nat.add_assoc _ _ _) rfl rfl id
    refine ⟨_, rfl, hahead', hmode.trans ⟨rfl, rfl, rfl, rfl⟩, ?_, ?_⟩
    · exact fun he => by cases (heof he).1
    · show t.position + i + delim.length = _
      rw [hposition, Nat.add_assoc]
  | none =>
    by_cases hfull : maxlen ≤ t.avail
    · -- there are `maxlen` bytes without a delimiter
      have hpart : t.buffered.take maxlen = (bytes.drop q).take maxlen := by
        rw [hahead.buffered, take_take, Nat.min_eq_left hfull]
      have hpartlen : ((bytes.drop q).take maxlen).length = maxlen := by
        rw [← hpart, length_take]
        omega
      have hne : (bytes.drop q).take maxlen ≠ [] := by
        apply ne_nil_of_length_pos
        omega
      have hrecordLen : t.recordLen maxlen delim none = some maxlen := by
        unfold recordLen
        by_cases hdelim : delim = []
        · simp [hdelim, hfull]
        · have h1 : ¬ t.avail < maxlen := by omega
          have h2 : ¬ t.avail = 0 := by omega
          simp [hdelim, h1, h2, hfull]
      rw [hpart] at hfound
      rw [recordOf_none hfound.symm, if_neg hne, hpartlen,
        hahead.fits.takeRecord_whole filter hfull hrecordLen, hahead.peek_eq hfull]
      obtain ⟨hahead', -⟩ := hahead.take
        (t := { t with readpos := t.readpos + maxlen, position := t.position + maxlen })
        hfull rfl rfl rfl rfl id
      refine ⟨_, rfl, hahead', hmode.trans ⟨rfl, rfl, rfl, rfl⟩, ?_, ?_⟩
      · intro he
        have hlt := (heof he).2
        omega
      · show t.position + maxlen = _
        rw [hposition]
    · -- the end of the file: everything is buffered
      obtain ⟨hteof, hall⟩ := hend rfl (by omega)
      have hle := hahead.avail_le
      have hpart : (bytes.drop q).take maxlen = bytes.drop q := by
        apply take_of_length_le
        omega
      have hbuffered : t.buffered.take maxlen = bytes.drop q := by
        rw [take_of_length_le (by omega), hahead.buffered, take_of_length_le (by omega)]
      rw [hbuffered, ← hpart] at hfound
      rw [recordOf_none hfound.symm, hpart]
      by_cases hempty : t.avail = 0
      · have hnil : bytes.drop q = [] := by
          apply eq_nil_of_length_eq_zero
          omega
        have hrecordLen : t.recordLen maxlen delim none = none := by
          unfold recordLen
          simp [hempty, hteof, hzero]
        have htake : t.takeRecord filter sizes maxlen delim none = (none, t) := by
          unfold takeRecord
          simp only [hrecordLen]
        rw [hnil, if_pos rfl, htake]
        exact ⟨t, rfl, hahead, hmode, hahead.settled hempty, hposition⟩
      · have hne : bytes.drop q ≠ [] := by
          apply ne_nil_of_length_pos
          omega
        have hrecordLen : t.recordLen maxlen delim none = some t.avail := by
          unfold recordLen
          have h1 : ¬ t.avail ≥ maxlen := hfull
          have h2 : min t.avail maxlen = t.avail := by omega
          simp [h1, h2, hempty, hteof]
        have hrest : (bytes.drop q).length = t.avail := by omega
        rw [if_neg hne, hahead.fits.takeRecord_whole filter (Nat.le_refl _) hrecordLen,
          hahead.peek_eq (Nat.le_refl _), take_of_length_le (by omega), hrest]
        obtain ⟨hahead', havail'⟩ := hahead.take
          (t := { t with readpos := t.readpos + t.avail, position := t.position + t.avail })
          (Nat.le_refl _) rfl rfl rfl rfl id
        refine ⟨_, rfl, hahead', hmode.trans ⟨rfl, rfl, rfl, rfl⟩, hahead'.settled (by omega), ?_⟩
        show t.position + t.avail = _
        rw [hposition]

theorem length_overlay_front (bytes : List UInt8) (pos : Nat) :
    ((bytes ++ replicate (pos - bytes.length) 0).take pos).length = pos := by
  rw [length_take, length_append, length_replicate]
  omega

theorem overlay_append (bytes : List UInt8) (pos : Nat) (data data' : List UInt8) :
    overlay (overlay bytes pos data) (pos + data.length) data' = overlay bytes pos (data ++ data') := by
  have hfront := length_overlay_front bytes pos
  unfold overlay
  generalize (bytes ++ replicate (pos - bytes.length) 0).take pos = front at hfront ⊢
  have hlen : (front ++ data).length = pos + data.length := by rw [length_append, hfront]
  -- the second write begins within the file
  have hzero : pos + data.length - (front ++ data ++ bytes.drop (pos + data.length)).length = 0 := by
    rw [length_append, hlen]
    omega
  have hdrop : (front ++ data ++ bytes.drop (pos + data.length)).drop
      (pos + data.length + data'.length) = bytes.drop (pos + (data ++ data').length) := by
    rw [← hlen, drop_length_add_append, drop_drop, hlen, length_append, Nat.add_assoc]
  rw [hzero, hdrop, replicate_zero, List.append_nil, ← hlen, take_left]
  simp only [append_assoc]

theorem write_append (f : File) (data data' : List UInt8) :
    (f.write data).write data' = f.write (data ++ data') := by
  unfold File.write
  simp only [overlay_append, length_append, Nat.add_assoc]

theorem writeLoop_eq (hseek : s.seekable = true) (fuel : Nat) {buf : List UInt8} (hbuf : buf ≠ [])
    (hfuel : buf.length ≤ fuel) :
    writeLoop fuel buf s = (buf.length,
      { s with file := s.file.write buf, position := s.position + buf.length }) := by
  induction fuel generalizing s buf with
  | zero => exact absurd (eq_nil_of_length_eq_zero (Nat.le_zero.mp hfuel)) hbuf
  | succ fuel ih =>
    have hchunk := s.chunkSize.2.1
    have hpos := length_pos_of_ne_nil hbuf
    rw [writeLoop, if_neg hbuf]
    dsimp only
    rw [if_pos hseek]
    by_cases hrest : buf.drop s.chunkSize.val = []
    · -- the last chunk
      have hall : buf.take s.chunkSize.val = buf := by
        have hsplit := take_append_drop s.chunkSize.val buf
        rwa [hrest, List.append_nil] at hsplit
      rw [hall, hrest]
      cases fuel <;> rfl
    · have hlen : (buf.take s.chunkSize.val).length + (buf.drop s.chunkSize.val).length =
          buf.length := by
        rw [← length_append, take_append_drop]
      rw [ih (s := { s with
          file := s.file.write (buf.take s.chunkSize.val)
          position := s.position + (buf.take s.chunkSize.val).length }) hseek hrest
        (by rw [length_drop]; omega)]
      simp only [write_append, take_append_drop, hlen, Nat.add_assoc]

theorem Ahead.streamWrite (h : Ahead s bytes q) (hseek : s.seekable = true)
    (hposition : s.position = q) (hsettled : Settled s bytes q) {buf : List UInt8} (hbuf : buf ≠ []) :
    ∃ t, s.streamWrite buf = (buf.length, t) ∧
      Ahead t (overlay bytes q buf) (q + buf.length) ∧ SameMode s t ∧
      t.position = q + buf.length ∧ Settled t (overlay bytes q buf) (q + buf.length) := by
  have hunder := h.underlying
  have hrw := h.fits.read_le
  unfold PhpStream.streamWrite
  rw [if_neg hbuf]
  unfold writeBuffer
  dsimp only
  -- the file is moved back to where the buffer began
  obtain ⟨u, hu, hempty, hread, hufile, hupos, heof, hmode, huposition⟩ : ∃ u : PhpStream F,
      (if s.seekable = true ∧ s.readpos ≠ s.writepos then
        (({ s with readpos := 0, writepos := 0 } : PhpStream F).opsSeek s.position .set).2
      else s) = u ∧ u.avail = 0 ∧ u.Fits ∧ u.file.bytes = bytes ∧ u.file.pos = q ∧ u.eof = s.eof ∧
        SameMode s u ∧ u.position = q := by
    by_cases hne : s.readpos ≠ s.writepos
    · rw [if_pos ⟨hseek, hne⟩]
      unfold opsSeek lseek
      simp only [Option.bind_some, Int.natCast_nonneg, if_true, Int.toNat_natCast]
      exact ⟨_, rfl, rfl, ⟨Nat.le_refl _, Nat.zero_le _⟩, h.file, hposition, rfl,
        ⟨rfl, rfl, rfl, rfl⟩, hposition⟩
    · rw [if_neg fun hn => hne hn.2]
      have hz : s.avail = 0 := by
        unfold avail
        omega
      exact ⟨s, rfl, hz, h.fits, h.file, by omega, rfl, SameMode.refl s, hposition⟩
  rw [hu, writeLoop_eq (hmode.seekable.trans hseek) _ hbuf (Nat.le_refl _)]
  have hnoahead : u.buffered = [] := by
    apply eq_nil_of_length_eq_zero
    rw [hread.length_buffered, hempty]
  have hbytes : (u.file.write buf).bytes = overlay bytes q buf := by
    show overlay u.file.bytes u.file.pos buf = _
    rw [hufile, hupos]
  have hlen : bytes.length ≤ q → (overlay bytes q buf).length = q + buf.length := by
    intro hend
    have hfront := length_overlay_front bytes q
    unfold overlay
    rw [length_append, length_append, hfront, length_drop]
    omega
  have hend : s.eof = true → (overlay bytes q buf).length ≤ q + buf.length :=
    fun he => Nat.le_of_eq (hlen (hsettled he))
  refine ⟨_, rfl, ⟨⟨hread.read_le, hread.write_le⟩, hbytes, ?_, ?_, ?_⟩,
    hmode.trans ⟨rfl, rfl, rfl, rfl⟩, ?_, ?_⟩
  · show u.file.pos + buf.length = q + buf.length + u.avail
    omega
  · show u.buffered = List.take u.avail _
    rw [hnoahead, hempty, take_zero]
  · intro he
    show (overlay bytes q buf).length ≤ u.file.pos + buf.length
    rw [hupos]
    exact hend (heof ▸ he)
  · show u.position + buf.length = _
    rw [huposition]
  · exact fun he => hend (heof ▸ he)

theorem Ahead.seekBuffered (h : Ahead s bytes q) (hposition : s.position = q) {offset : Int}
    {whence : Whence} (ht : s.seekBuffered offset whence = some t) :
    ∃ pos, lseek bytes.length q offset whence = some pos ∧ Ahead t bytes pos ∧ SameMode s t ∧
      t.position = pos ∧ t.eof = false := by
  -- both cases take `n` bytes from the buffer
  have htake : ∀ n, n ≤ s.avail → ∀ u : PhpStream F,
      u = { s with readpos := s.readpos + n, position := q + n, eof := false } →
        Ahead u bytes (q + n) ∧ SameMode s u ∧ u.position = q + n ∧ u.eof = false := by
    intro n hn u hu
    have heof : u.eof = false := by rw [hu]
    obtain ⟨hahead, -⟩ := h.take (t := u) hn (by rw [hu]) (by rw [hu]) (by rw [hu]) (by rw [hu])
      fun he => nomatch heof.symm.trans he
    subst hu
    exact ⟨hahead, ⟨rfl, rfl, rfl, rfl⟩, rfl, rfl⟩
  unfold PhpStream.seekBuffered at ht
  split at ht
  · exact nomatch ht
  split at ht
  · -- SEEK_CUR
    split at ht
    · rename_i hin
      obtain rfl := Option.some.inj ht
      have hn : offset.toNat ≤ s.avail := by omega
      refine ⟨q + offset.toNat, ?_, htake _ hn _ (by rw [hposition])⟩
      unfold lseek
      rw [Option.bind_some, if_pos (by omega)]
      congr 1
      omega
    · exact nomatch ht
  · -- SEEK_SET
    split at ht
    · rename_i hin
      obtain rfl := Option.some.inj ht
      rw [hposition] at hin
      have hn : offset.toNat - q ≤ s.avail := by omega
      have hsum : offset.toNat = q + (offset.toNat - q) := by omega
      obtain ⟨hahead, hmode, hpos, heof⟩ := htake _ hn { s with
        readpos := s.readpos + (offset.toNat - s.position), position := offset.toNat, eof := false }
        (by rw [hposition, ← hsum])
      rw [← hsum] at hahead hpos
      refine ⟨offset.toNat, ?_, hahead, hmode, hpos, heof⟩
      unfold lseek
      rw [Option.bind_some, if_pos (by omega)]
    · exact nomatch ht
  · exact nomatch ht

theorem lseek_absolute (size pos q : Nat) (offset : Int) (whence : Whence) :
    lseek size pos (if whence = .cur then ((q : Int) + offset, Whence.set) else (offset, whence)).1
      (if whence = .cur then ((q : Int) + offset, Whence.set) else (offset, whence)).2 =
        lseek size q offset whence := by
  cases whence <;> rfl

theorem Ahead.streamSeek (h : Ahead s bytes q) (hseek : s.seekable = true)
    (hposition : s.position = q) (hsettled : Settled s bytes q) {offset : Int} {whence : Whence}
    (hok : lseek bytes.length q offset whence = none → s.avail = 0) :
    ∃ ret t pos, s.streamSeek filter sizes offset whence = (ret, t) ∧ Ahead t bytes pos ∧
      SameMode s t ∧ t.position = pos ∧ Settled t bytes pos ∧
      match lseek bytes.length q offset whence with
      | some target => ret = 0 ∧ pos = target
      | none => ret = -1 ∧ pos = q := by
  unfold PhpStream.streamSeek
  cases hbuf : s.seekBuffered offset whence with
  | some t =>
    obtain ⟨pos, htarget, hahead, hmode, hpos, heof⟩ := h.seekBuffered hposition hbuf
    rw [htarget]
    have hsettled' : Settled t bytes pos := fun he => nomatch heof.symm.trans he
    exact ⟨0, t, pos, rfl, hahead, hmode, hpos, hsettled', rfl, rfl⟩
  | none =>
    dsimp only
    rw [if_pos hseek, hposition]
    unfold opsSeek
    rw [lseek_absolute, h.file]
    cases htarget : lseek bytes.length q offset whence with
    | some pos =>
      refine ⟨0, _, pos, rfl, ?_, ⟨rfl, rfl, rfl, rfl⟩, rfl, ?_, rfl, rfl⟩
      · apply Ahead.reset
        · exact h.file
        · rfl
        · rfl
        · rfl
        · exact fun he => nomatch he
      · exact fun he => nomatch he
    | none =>
      have hunder := h.underlying
      rw [hok htarget, Nat.add_zero] at hunder
      refine ⟨-1, _, q, rfl, ?_, ⟨rfl, rfl, rfl, rfl⟩, hposition, hsettled, rfl, rfl⟩
      apply Ahead.reset
      · exact h.file
      · exact hunder
      · rfl
      · rfl
      · exact hsettled

end PhpStream

end Php53.Streams
