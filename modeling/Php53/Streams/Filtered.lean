import Mathlib.Logic.Function.Iterate
import Php53.Streams.Refinement

/-!
# Filtered — reading through a chain of filters

A round reads a chunk of the file and winds it through the chain.  What the chain passes on is counted
in `out`, so the bytes that a user has got and those in the buffer must add up to it.
-/

namespace Php53.Streams

open Reasoning List

namespace PhpStream

variable {F : Type} {s t u : PhpStream F}

/-- The file and the filters, and everything that the last filter has passed on. -/
structure Chain (F : Type) where
  file : File
  filters : List F
  out : List UInt8

def Chain.round (filter : FilterOps F) (sizes : Nat → Nat) (chunkSize : Nat) (c : Chain F) : Chain F :=
  let (data, file) := c.file.read sizes chunkSize
  let flags := readFlags data (decide (c.file.bytes.length ≤ c.file.pos))
  match windFilters filter c.filters (brigadeOf data) flags with
  | (.passOn, out, fs) => ⟨file, fs, c.out ++ out.flatten⟩
  | (_, _, fs) => ⟨file, fs, c.out⟩

def chainOutput (filter : FilterOps F) (sizes : Nat → Nat) (chunkSize : Nat) (bytes : List UInt8)
    (filters : List F) (rounds : Nat) : List UInt8 :=
  ((Chain.round filter sizes chunkSize)^[rounds] ⟨⟨bytes, 0, 0⟩, filters, []⟩).out

/-- The chain under a stream, where `log` was handed out before. -/
def chain (s : PhpStream F) (log : List UInt8) : Chain F := ⟨s.file, s.readfilters, log ++ s.buffered⟩

variable (filter : FilterOps F) (sizes : Nat → Nat)

/-- Between two states, `data` was handed out, and nothing was lost or repeated. -/
structure Feeds (s t : PhpStream F) (data : List UInt8) : Prop where
  fits : t.Fits
  filtered : t.readfilters ≠ []
  chunkSize : t.chunkSize = s.chunkSize
  rounds : ∃ n, ∀ log,
    (Chain.round filter sizes s.chunkSize.val)^[n] (s.chain log) = t.chain (log ++ data)

variable {filter sizes}

theorem Feeds.refl (h : s.Fits) (hfilters : s.readfilters ≠ []) : Feeds filter sizes s s [] := by
  refine ⟨h, hfilters, rfl, 0, fun log => ?_⟩
  rw [append_nil]
  rfl

theorem Feeds.trans {data data' : List UInt8} (h : Feeds filter sizes s t data)
    (h' : Feeds filter sizes t u data') : Feeds filter sizes s u (data ++ data') := by
  obtain ⟨n, hn⟩ := h.rounds
  obtain ⟨m, hm⟩ := h'.rounds
  rw [h.chunkSize] at hm
  refine ⟨h'.fits, h'.filtered, h'.chunkSize.trans h.chunkSize, m + n, fun log => ?_⟩
  rw [Function.iterate_add_apply, hn, hm, append_assoc]

theorem Feeds.take (h : s.Fits) (hfilters : s.readfilters ≠ []) {n : Nat} (hn : n ≤ s.avail)
    (hbuf : t.readbuf = s.readbuf) (hread : t.readpos = s.readpos + n)
    (hwrite : t.writepos = s.writepos) (hfile : t.file = s.file)
    (hfs : t.readfilters = s.readfilters) (hchunk : t.chunkSize = s.chunkSize) :
    Feeds filter sizes s t (s.peek n) := by
  obtain ⟨hfits, hbuffered, -⟩ := h.take hn hbuf hread hwrite
  refine ⟨hfits, hfs ▸ hfilters, hchunk, 0, fun log => ?_⟩
  show s.chain log = t.chain _
  unfold chain
  rw [hfile, hfs, hbuffered, peek_eq hn, append_assoc, take_append_drop]

theorem Fits.appendBucket (h : s.Fits) (bucket : List UInt8) :
    (s.appendBucket bucket).Fits ∧ (s.appendBucket bucket).buffered = s.buffered ++ bucket := by
  unfold PhpStream.appendBucket
  by_cases hroom : s.readbuf.length - s.writepos < bucket.length
  · rw [if_pos hroom]
    have hgrown : Fits ({ s with readbuf := s.readbuf ++ replicate bucket.length 0 } :
        PhpStream F) := by
      refine ⟨h.read_le, ?_⟩
      show s.writepos ≤ _
      rw [length_append]
      exact Nat.le_trans h.write_le (Nat.le_add_right _ _)
    obtain ⟨hfits, hbuffered, -⟩ := hgrown.putBytes bucket
    refine ⟨hfits, hbuffered.trans ?_⟩
    show window _ s.readpos s.writepos ++ bucket = _
    rw [window_append h.read_le h.write_le]
    rfl
  · rw [if_neg hroom]
    obtain ⟨hfits, hbuffered, -⟩ := h.putBytes bucket
    exact ⟨hfits, hbuffered⟩

theorem appendBucket_frame (s : PhpStream F) (bucket : List UInt8) :
    ∃ b w, s.appendBucket bucket = { s with readbuf := b, writepos := w } := by
  unfold PhpStream.appendBucket
  split <;> exact ⟨_, _, rfl⟩

theorem Fits.appendBuckets (h : s.Fits) (out : Brigade) :
    ∃ b w, out.foldl PhpStream.appendBucket s = { s with readbuf := b, writepos := w } ∧
      s.readpos ≤ w ∧ w ≤ b.length ∧ window b s.readpos w = s.buffered ++ out.flatten := by
  induction out generalizing s with
  | nil => exact ⟨_, _, rfl, h.read_le, h.write_le, (append_nil _).symm⟩
  | cons bucket out ih =>
    obtain ⟨hfits, hbuffered⟩ := h.appendBucket bucket
    obtain ⟨b₁, w₁, hframe⟩ := appendBucket_frame s bucket
    obtain ⟨b, w, hfold, hrw, hwb, hwindow⟩ := ih hfits
    rw [hbuffered, append_assoc] at hwindow
    rw [foldl_cons, hfold]
    rw [hframe] at hrw hwindow ⊢
    exact ⟨b, w, rfl, hrw, hwb, hwindow⟩

theorem windFilters_ne_nil {fs : List F} (hfs : fs ≠ []) (brigade : Brigade) (flags : FilterFlags) :
    (windFilters filter fs brigade flags).2.2 ≠ [] := by
  cases fs with
  | nil => exact absurd rfl hfs
  | cons f fs =>
    unfold windFilters
    split <;> exact cons_ne_nil _ _

section

variable (h : s.Fits) (hfilters : s.readfilters ≠ [])

include h hfilters

theorem Feeds.fillRound :
    Feeds filter sizes s (s.fillRound filter sizes).2 [] ∧
      (s.fillRound filter sizes).2.position = s.position := by
  obtain ⟨r, hr⟩ : ∃ r, r = windFilters filter s.readfilters
      (brigadeOf (s.file.read sizes s.chunkSize.val).1)
      (readFlags (s.file.read sizes s.chunkSize.val).1
        (decide (s.file.bytes.length ≤ s.file.pos))) := ⟨_, rfl⟩
  have hne : r.2.2 ≠ [] := hr ▸ windFilters_ne_nil hfilters _ _
  have hround : ∀ log, Chain.round filter sizes s.chunkSize.val (s.chain log) =
      ⟨(s.file.read sizes s.chunkSize.val).2, r.2.2,
        if r.1 = .passOn then log ++ s.buffered ++ r.2.1.flatten else log ++ s.buffered⟩ := by
    intro log
    unfold Chain.round chain
    dsimp only
    rw [← hr]
    obtain ⟨status, out, fs⟩ := r
    cases status <;> rfl
  -- the state behind the read, before anything is appended
  generalize hread : ({ s with
    file := (s.file.read sizes s.chunkSize.val).2, readfilters := r.2.2
    eof := decide (s.file.bytes.length ≤ s.file.pos) } : PhpStream F) = u
  have hu : u.Fits := by
    rw [← hread]
    exact ⟨h.read_le, h.write_le⟩
  have hstep : (s.fillRound filter sizes).2 =
      if r.1 = .passOn then r.2.1.foldl PhpStream.appendBucket u else u := by
    unfold PhpStream.fillRound opsRead
    dsimp only
    rw [← hr, ← hread]
    obtain ⟨status, out, fs⟩ := r
    cases status <;> rfl
  rw [hstep]
  obtain ⟨status, out, fs⟩ := r
  cases status with
  | passOn =>
    obtain ⟨b, w, hfold, hrw, hwb, hwindow⟩ := hu.appendBuckets out
    rw [if_pos rfl, hfold]
    subst hread
    refine ⟨⟨⟨hrw, hwb⟩, hne, rfl, 1, fun log => ?_⟩, rfl⟩
    show Chain.round filter sizes s.chunkSize.val (s.chain log) = ⟨_, _, log ++ [] ++ window b _ w⟩
    rw [hround, if_pos rfl, hwindow, append_nil, append_assoc]
    rfl
  | feedMe =>
    rw [if_neg (by simp)]
    subst hread
    refine ⟨⟨hu, hne, rfl, 1, fun log => ?_⟩, rfl⟩
    rw [append_nil]
    exact (hround log).trans (by rw [if_neg (by simp)]; rfl)
  | errFatal =>
    rw [if_neg (by simp)]
    subst hread
    refine ⟨⟨hu, hne, rfl, 1, fun log => ?_⟩, rfl⟩
    rw [append_nil]
    exact (hround log).trans (by rw [if_neg (by simp)]; rfl)

theorem Feeds.fillFiltered (fuel size : Nat) :
    Feeds filter sizes s (PhpStream.fillFiltered filter sizes fuel size s) [] ∧
      (PhpStream.fillFiltered filter sizes fuel size s).position = s.position := by
  induction fuel generalizing s with
  | zero => exact ⟨Feeds.refl h hfilters, rfl⟩
  | succ fuel ih =>
    rw [PhpStream.fillFiltered]
    by_cases hgo : s.eof = false ∧ s.avail < size
    · rw [if_pos hgo]
      dsimp only
      obtain ⟨hround, hposition⟩ := @Feeds.fillRound _ _ filter sizes h hfilters
      by_cases hmore : (s.fillRound filter sizes).1 = true
      · rw [if_pos hmore]
        obtain ⟨hrest, hposition'⟩ := ih hround.fits hround.filtered
        exact ⟨hround.trans hrest, hposition'.trans hposition⟩
      · rw [if_neg hmore]
        exact ⟨hround, hposition⟩
    · rw [if_neg hgo]
      exact ⟨Feeds.refl h hfilters, rfl⟩

theorem Feeds.fill (hempty : s.avail = 0)
    (size : Nat) : Feeds filter sizes s (s.fillReadBuffer filter sizes size) [] ∧
      (s.fillReadBuffer filter sizes size).position = s.position := by
  have hnil : s.buffered = [] := by
    apply eq_nil_of_length_eq_zero
    rw [h.length_buffered, hempty]
  unfold fillReadBuffer
  rw [if_neg hfilters]
  generalize hreset : ({ s with readpos := 0, writepos := 0 } : PhpStream F) = u
  obtain ⟨hfits, hbuffered, -⟩ := @fits_reset _ u (by rw [← hreset]) (by rw [← hreset])
  have hu : Feeds filter sizes s u [] := by
    refine ⟨hfits, ?_, ?_, 0, fun log => ?_⟩
    · rw [← hreset]
      exact hfilters
    · rw [← hreset]
    · show s.chain log = u.chain _
      unfold chain
      simp only [hnil, hbuffered, append_nil]
      rw [← hreset]
  obtain ⟨hfill, hposition⟩ := @Feeds.fillFiltered _ _ filter sizes hfits hu.filtered
    (s.file.bytes.length - s.file.pos + 1) size
  refine ⟨hu.trans hfill, hposition.trans ?_⟩
  rw [← hreset]

theorem Feeds.drain (size : Nat) :
    Feeds filter sizes s (s.drain size).2 (s.drain size).1 ∧
      (s.drain size).1.length = min s.avail size ∧
      (s.drain size).2.avail = s.avail - min s.avail size := by
  have hle : min s.avail size ≤ s.avail := Nat.min_le_left _ _
  refine ⟨Feeds.take h hfilters hle rfl rfl rfl rfl rfl rfl, h.length_peek hle, ?_⟩
  obtain ⟨-, -, havail⟩ := h.take (t := (s.drain size).2) hle rfl rfl rfl
  exact havail

theorem Feeds.readLoop (fuel size : Nat) :
    Feeds filter sizes s (PhpStream.readLoop filter sizes fuel size s).2
      (PhpStream.readLoop filter sizes fuel size s).1 := by
  induction fuel generalizing s size with
  | zero => exact Feeds.refl h hfilters
  | succ fuel ih =>
    rw [PhpStream.readLoop]
    by_cases hz : size = 0
    · rw [if_pos hz]
      exact Feeds.refl h hfilters
    rw [if_neg hz]
    obtain ⟨hfirst, hlen, havail⟩ := @Feeds.drain _ _ filter sizes h hfilters size
    generalize s.drain size = d at hfirst hlen havail
    obtain ⟨first, s₁⟩ := d
    dsimp only at hfirst hlen havail ⊢
    by_cases hdone : size - first.length = 0
    · rw [if_pos hdone]
      exact hfirst
    have hraw : ¬ (s₁.readfilters = [] ∧ (s₁.noBuffer = true ∨ s₁.chunkSize.val = 1)) :=
      fun hr => hfirst.filtered hr.1
    rw [if_neg hdone, if_neg hraw]
    have hempty : s₁.avail = 0 := by omega
    obtain ⟨hfill, -⟩ := @Feeds.fill _ _ filter sizes hfirst.fits hfirst.filtered hempty
      (size - first.length)
    obtain ⟨hmore, -, -⟩ := @Feeds.drain _ _ filter sizes hfill.fits hfill.filtered
      (size - first.length)
    generalize (s₁.fillReadBuffer filter sizes (size - first.length)).drain (size - first.length) = d
      at hmore
    obtain ⟨more, s₂⟩ := d
    dsimp only at hmore ⊢
    have hboth := hfirst.trans (hfill.trans hmore)
    by_cases hstop : more = [] ∨ s₂.plainFiles = false
    · rw [if_pos hstop]
      exact hboth
    · rw [if_neg hstop]
      exact hboth.trans (ih hmore.fits hmore.filtered _)

end

theorem lineCopy_le {eol : Option Nat} {n : Nat} (maxlen : Option Nat) (heol : ∀ i, eol = some i → i < n) :
    (lineCopy eol n maxlen).1 ≤ n := by
  unfold lineCopy
  cases eol with
  | none =>
    cases maxlen with
    | none => exact Nat.le_refl n
    | some m =>
      dsimp only
      split
      · assumption
      · exact Nat.le_refl n
  | some i =>
    have hi := heol i rfl
    cases maxlen with
    | none => exact hi
    | some m =>
      dsimp only
      split
      · omega
      · exact hi

theorem memchr_lt {c : UInt8} {l : List UInt8} {i : Nat} (h : memchr c l = some i) : i < l.length := by
  rw [memchr_eq] at h
  exact (search_eq_some h).2.1.lt_length (by simp)

theorem Fits.locateEol (h : s.Fits) : ∃ d m,
    s.locateEol.2 = { s with detectEol := d, eolMac := m } ∧
      ∀ i, s.locateEol.1 = some i → i < s.avail := by
  have hlen : (s.peek s.avail).length = s.avail := h.length_peek (Nat.le_refl _)
  have hlt : ∀ c i, memchr c (s.peek s.avail) = some i → i < s.avail := fun c i hi => by
    have := memchr_lt hi
    omega
  unfold PhpStream.locateEol
  dsimp only
  split
  · split
    · rename_i cr lf hcr hlf
      split
      · refine ⟨_, _, rfl, fun i hi => ?_⟩
        obtain rfl := Option.some.inj hi
        exact hlt _ _ hcr
      · refine ⟨_, _, rfl, fun i hi => ?_⟩
        obtain rfl := Option.some.inj hi
        exact hlt _ _ hlf
    · rename_i cr hcr hlf
      refine ⟨_, _, rfl, fun i hi => ?_⟩
      obtain rfl := Option.some.inj hi
      exact hlt _ _ hcr
    · rename_i lf hcr hlf
      refine ⟨_, _, rfl, fun i hi => ?_⟩
      obtain rfl := Option.some.inj hi
      exact hlt _ _ hlf
    · exact ⟨_, _, rfl, fun i hi => nomatch hi⟩
  · exact ⟨_, _, rfl, fun i hi => hlt _ i hi⟩

theorem Feeds.getLineLoop (h : s.Fits) (hfilters : s.readfilters ≠ []) (fuel : Nat)
    (maxlen : Option Nat) {line : List UInt8}
    (hloop : PhpStream.getLineLoop filter sizes fuel maxlen s = some (line, t)) :
    Feeds filter sizes s t line := by
  induction fuel generalizing s maxlen line with
  | zero => exact nomatch hloop
  | succ fuel ih =>
    rw [PhpStream.getLineLoop] at hloop
    by_cases havail : 0 < s.avail
    · rw [if_pos havail] at hloop
      obtain ⟨d, m, hflags, heol⟩ := h.locateEol
      generalize s.locateEol = e at hloop hflags heol
      obtain ⟨eol, s₁⟩ := e
      dsimp only at hloop hflags heol
      have hsame : Feeds filter sizes s s₁ [] ∧ s₁.avail = s.avail := by
        rw [hflags]
        exact ⟨Feeds.take h hfilters (Nat.zero_le _) rfl rfl rfl rfl rfl rfl, rfl⟩
      rw [← hsame.2] at heol
      have hn := lineCopy_le maxlen heol
      generalize lineCopy eol s₁.avail maxlen = c at hloop hn
      obtain ⟨n, done⟩ := c
      dsimp only at hloop hn
      have htake : Feeds filter sizes s₁
          { s₁ with position := s₁.position + n, readpos := s₁.readpos + n } (s₁.peek n) :=
        Feeds.take hsame.1.fits hsame.1.filtered hn rfl rfl rfl rfl rfl rfl
      cases done with
      | true =>
        obtain ⟨rfl, rfl⟩ := Prod.mk.inj (Option.some.inj hloop)
        exact hsame.1.trans htake
      | false =>
        obtain ⟨⟨line', t'⟩, hrest, hpair⟩ := Option.map_eq_some_iff.mp hloop
        obtain ⟨rfl, rfl⟩ := Prod.mk.inj hpair
        exact hsame.1.trans (htake.trans (ih htake.fits htake.filtered _ hrest))
    · rw [if_neg havail] at hloop
      have hempty : s.avail = 0 := by omega
      split at hloop
      · obtain ⟨rfl, rfl⟩ := Prod.mk.inj (Option.some.inj hloop)
        exact Feeds.refl h hfilters
      · obtain ⟨hfill, -⟩ := @Feeds.fill _ _ filter sizes h hfilters hempty (s.lineRequest maxlen)
        dsimp only at hloop
        split at hloop
        · obtain ⟨rfl, rfl⟩ := Prod.mk.inj (Option.some.inj hloop)
          exact hfill
        · exact hfill.trans (ih hfill.fits hfill.filtered maxlen hloop)

variable (filter sizes) in
/-- `php_stream_get_record` refills only the empty buffer: its first refill is the last one. -/
def RefillOk (s : PhpStream F) : StreamOp → Prop
  | .getRecord maxlen delim =>
    s.findDelim maxlen 0 delim ≠ none ∨ maxlen ≤ s.avail ∨ s.avail = 0 ∧
      let t := s.fillReadBuffer filter sizes (min maxlen s.chunkSize.val)
      t.avail = 0 ∨ t.findDelim maxlen 0 delim ≠ none ∨ maxlen ≤ t.avail
  | _ => True

theorem findDelim_of_empty (h : s.Fits) (hempty : s.avail = 0) (maxlen : Nat) (delim : List UInt8) :
    s.findDelim maxlen 0 delim = none := by
  have hnil : s.buffered = [] := by
    apply eq_nil_of_length_eq_zero
    rw [h.length_buffered, hempty]
  rw [h.findDelim_zero, hnil, take_nil]
  unfold findPart
  split <;> rfl

theorem recordLoop_of_done {maxlen : Nat} {delim : List UInt8} {fuel : Nat} {found : Option Nat}
    {r : Option Nat × PhpStream F} (hdone : found ≠ none ∨ maxlen ≤ s.avail)
    (hloop : PhpStream.recordLoop filter sizes maxlen delim fuel s.avail found s = some r) :
    r = (found, s) := by
  cases fuel with
  | zero => exact nomatch hloop
  | succ fuel =>
    have hstop : ¬ (found = none ∧ s.avail < maxlen) := by
      rintro ⟨hn, hlt⟩
      rcases hdone with hne | hle
      · exact hne hn
      · omega
    rw [PhpStream.recordLoop, if_neg hstop] at hloop
    exact (Option.some.inj hloop).symm

theorem Feeds.recordLoop (h : s.Fits) (hfilters : s.readfilters ≠ []) {maxlen : Nat}
    {delim : List UInt8} (hok : s.RefillOk filter sizes (.getRecord maxlen delim)) {fuel : Nat}
    {found : Option Nat} (hloop : PhpStream.recordLoop filter sizes maxlen delim fuel s.avail
      (s.findDelim maxlen 0 delim) s = some (found, t)) :
    Feeds filter sizes s t [] ∧ t.position = s.position ∧ found = t.findDelim maxlen 0 delim := by
  have hstay : (s.findDelim maxlen 0 delim ≠ none ∨ maxlen ≤ s.avail) →
      Feeds filter sizes s t [] ∧ t.position = s.position ∧
        found = t.findDelim maxlen 0 delim := by
    intro hdone
    obtain ⟨rfl, rfl⟩ := Prod.mk.inj (recordLoop_of_done hdone hloop)
    exact ⟨Feeds.refl h hfilters, rfl, rfl⟩
  rcases hok with hfound | hfull | ⟨hempty, hrefill⟩
  · exact hstay (Or.inl hfound)
  · exact hstay (Or.inr hfull)
  by_cases hzero : maxlen ≤ s.avail
  · exact hstay (Or.inr hzero)
  -- the only refill
  cases fuel with
  | zero => exact nomatch hloop
  | succ fuel =>
    have hnone := findDelim_of_empty h hempty maxlen delim
    have hgo : (none : Option Nat) = none ∧ s.avail < maxlen := ⟨rfl, by omega⟩
    rw [hnone, PhpStream.recordLoop, if_pos hgo, hempty, Nat.zero_add, Nat.sub_zero] at hloop
    obtain ⟨hfill, hposition⟩ := @Feeds.fill _ _ filter sizes h hfilters hempty
      (min maxlen s.chunkSize.val)
    dsimp only at hloop hrefill
    generalize s.fillReadBuffer filter sizes (min maxlen s.chunkSize.val) = u
      at hloop hrefill hfill hposition
    by_cases hu : u.avail = 0
    · rw [if_pos hu] at hloop
      obtain ⟨rfl, rfl⟩ := Prod.mk.inj (Option.some.inj hloop)
      exact ⟨hfill, hposition, (findDelim_of_empty hfill.fits hu maxlen delim).symm⟩
    · rw [if_neg hu, Nat.zero_sub] at hloop
      obtain ⟨rfl, rfl⟩ := Prod.mk.inj (recordLoop_of_done (hrefill.resolve_left hu) hloop)
      exact ⟨hfill, hposition, rfl⟩

def handedOut (s t : PhpStream F) : StreamOp → StreamResult → List UInt8
  | .getRecord _ delim, .data (some data) =>
    if t.position = s.position + data.length then data else data ++ delim
  | _, .data (some data) => data
  | _, _ => []

theorem take_of_occursAt {word l : List UInt8} {i : Nat} (h : OccursAt word l i) :
    l.take i ++ word = l.take (i + word.length) := by
  rw [take_add, ← prefix_iff_eq_take.mp h]

theorem Feeds.takeRecord (h : s.Fits) (hfilters : s.readfilters ≠ []) {maxlen : Nat}
    {delim : List UInt8} {u : PhpStream F} (hposition : s.position = u.position) :
    let r := s.takeRecord filter sizes maxlen delim (s.findDelim maxlen 0 delim)
    Feeds filter sizes s r.2 (handedOut u r.2 (.getRecord maxlen delim) (.data r.1)) := by
  dsimp only
  cases hfound : s.findDelim maxlen 0 delim with
  | some i =>
    rw [h.findDelim_zero] at hfound
    have hdelim : delim ≠ [] := by
      intro hnil
      unfold findPart at hfound
      rw [if_pos hnil] at hfound
      exact nomatch hfound
    have hpos := length_pos_of_ne_nil hdelim
    obtain ⟨-, hle⟩ := findPart_append hfound []
    rw [length_take, h.length_buffered] at hle
    unfold findPart at hfound
    rw [if_neg hdelim] at hfound
    have hocc : OccursAt delim s.buffered i := by
      have hpart := (search_eq_some hfound).2.1.append (search_eq_some hfound).1
        (s.buffered.drop maxlen)
      rwa [take_append_drop] at hpart
    have hle' : i + delim.length ≤ s.avail := by omega
    rw [h.takeRecord_found filter hle']
    have hskip : ¬ s.position + i + delim.length = u.position + (s.peek i).length := by
      rw [h.length_peek (by omega), hposition]
      omega
    have hdata : s.peek i ++ delim = s.peek (i + delim.length) := by
      rw [peek_eq (by omega), peek_eq hle']
      exact take_of_occursAt hocc
    show Feeds filter sizes s _ (if _ then _ else _)
    rw [if_neg hskip, hdata]
    exact Feeds.take h hfilters hle' rfl (Nat.add_assoc _ _ _) rfl rfl rfl rfl
  | none =>
    cases hlen : s.recordLen maxlen delim none with
    | none =>
      unfold PhpStream.takeRecord
      simp only [hlen]
      exact Feeds.refl h hfilters
    | some n =>
      have hn : n ≤ s.avail := by
        unfold recordLen at hlen
        dsimp only at hlen
        split at hlen
        · rename_i hfull
          obtain rfl := Option.some.inj hlen
          exact hfull.2
        · split at hlen
          · exact nomatch hlen
          · split at hlen
            · exact nomatch hlen
            · obtain rfl := Option.some.inj hlen
              exact Nat.min_le_left _ _
      rw [h.takeRecord_whole filter hn hlen]
      have hlength : s.position + n = u.position + (s.peek n).length := by
        rw [h.length_peek hn, hposition]
      show Feeds filter sizes s _ (if _ then _ else _)
      rw [if_pos hlength]
      exact Feeds.take h hfilters hn rfl rfl rfl rfl rfl rfl

def Reads : StreamOp → Prop
  | .read _ => True
  | .getLine _ => True
  | .getRecord _ _ => True
  | _ => False

theorem Feeds.step (h : s.Fits) (hfilters : s.readfilters ≠ []) {op : StreamOp} (hreads : Reads op)
    (hok : s.RefillOk filter sizes op) {fuel : PhpStream F → StreamOp → Nat} {res : StreamResult}
    (hstep : streamStep filter sizes fuel s op = some (res, t)) :
    Feeds filter sizes s t (handedOut s t op res) := by
  cases op with
  | read size =>
    obtain ⟨rfl, rfl⟩ := Prod.mk.inj (Option.some.inj hstep)
    have hloop := @Feeds.readLoop _ _ filter sizes h hfilters size size
    exact ⟨⟨hloop.fits.read_le, hloop.fits.write_le⟩, hloop.filtered, hloop.chunkSize, hloop.rounds⟩
  | getLine maxlen =>
    obtain ⟨⟨line, t'⟩, hline, hpair⟩ := Option.map_eq_some_iff.mp hstep
    obtain ⟨rfl, rfl⟩ := Prod.mk.inj hpair
    unfold PhpStream.getLine at hline
    split at hline
    · obtain ⟨rfl, rfl⟩ := Prod.mk.inj (Option.some.inj hline)
      exact Feeds.refl h hfilters
    · obtain ⟨⟨data, u⟩, hloop, hpair⟩ := Option.map_eq_some_iff.mp hline
      obtain ⟨rfl, rfl⟩ := Prod.mk.inj hpair
      have hfeeds := Feeds.getLineLoop h hfilters _ maxlen hloop
      by_cases hnil : data = []
      · subst hnil
        exact hfeeds
      · rw [if_neg hnil]
        exact hfeeds
  | getRecord maxlen delim =>
    obtain ⟨⟨record, t'⟩, hrecord, hpair⟩ := Option.map_eq_some_iff.mp hstep
    obtain ⟨rfl, rfl⟩ := Prod.mk.inj hpair
    unfold PhpStream.getRecord at hrecord
    split at hrecord
    · obtain ⟨rfl, rfl⟩ := Prod.mk.inj (Option.some.inj hrecord)
      exact Feeds.refl h hfilters
    · obtain ⟨⟨found, u⟩, hloop, htake⟩ := Option.map_eq_some_iff.mp hrecord
      obtain ⟨hfeeds, hposition, rfl⟩ := Feeds.recordLoop h hfilters hok hloop
      have hrest := @Feeds.takeRecord _ _ filter sizes hfeeds.fits hfeeds.filtered maxlen delim s
        hposition
      dsimp only at htake hrest
      rw [htake] at hrest
      exact hfeeds.trans hrest
  | write => exact hreads.elim
  | seek => exact hreads.elim
  | setNoBuffer => exact hreads.elim

variable (filter sizes) in
def readStream (fuel : PhpStream F → StreamOp → Nat) :
    PhpStream F → List StreamOp → Option (List UInt8 × PhpStream F)
  | s, [] => some ([], s)
  | s, op :: ops => (streamStep filter sizes fuel s op).bind fun (res, t) =>
    (readStream fuel t ops).map fun (data, u) => (handedOut s t op res ++ data, u)

variable (filter sizes) in
/-- Every `php_stream_get_record` of the run refills only the empty buffer. -/
def RefillsOk (fuel : PhpStream F → StreamOp → Nat) : PhpStream F → List StreamOp → Prop
  | _, [] => True
  | s, op :: ops => s.RefillOk filter sizes op ∧
      ∀ res t, streamStep filter sizes fuel s op = some (res, t) → RefillsOk fuel t ops

theorem Feeds.readStream {fuel : PhpStream F → StreamOp → Nat} (h : s.Fits)
    (hfilters : s.readfilters ≠ []) {ops : List StreamOp} (hreads : ∀ op ∈ ops, Reads op)
    (hok : RefillsOk filter sizes fuel s ops) {data : List UInt8}
    (hrun : PhpStream.readStream filter sizes fuel s ops = some (data, t)) :
    Feeds filter sizes s t data := by
  induction ops generalizing s data with
  | nil =>
    obtain ⟨rfl, rfl⟩ := Prod.mk.inj (Option.some.inj hrun)
    exact Feeds.refl h hfilters
  | cons op ops ih =>
    obtain ⟨hop, hall⟩ := hok
    obtain ⟨⟨res, u⟩, hstep, hrest⟩ := Option.bind_eq_some_iff.mp hrun
    obtain ⟨⟨data', u'⟩, hops, hpair⟩ := Option.map_eq_some_iff.mp hrest
    obtain ⟨rfl, rfl⟩ := Prod.mk.inj hpair
    have hfeeds := Feeds.step h hfilters (hreads op (by simp)) hop hstep
    exact hfeeds.trans (ih hfeeds.fits hfeeds.filtered (fun o ho => hreads o (by simp [ho]))
      (hall res u hstep) hops)

def openFiltered (bytes : List UInt8) (chunkSize : ChunkSize) (f : F) (fs : List F)
    (noBuffer detectEol eolMac seekable plainFiles : Bool) : PhpStream F :=
  { file := ⟨bytes, 0, 0⟩, readfilters := f :: fs, readbuf := [], readpos := 0, writepos := 0,
    position := 0, eof := false, chunkSize := chunkSize, noBuffer := noBuffer,
    detectEol := detectEol, eolMac := eolMac, seekable := seekable, plainFiles := plainFiles }

/-- In a run where records refill only the empty buffer, what is handed out and what is buffered are
    together the output of the chain. -/
theorem records_lose_nothing {fuel : PhpStream F → StreamOp → Nat} {bytes : List UInt8}
    {chunkSize : ChunkSize} {f : F} {fs : List F}
    {noBuffer detectEol eolMac seekable plainFiles : Bool} {ops : List StreamOp}
    (hreads : ∀ op ∈ ops, Reads op)
    (hok : RefillsOk filter sizes fuel
      (openFiltered bytes chunkSize f fs noBuffer detectEol eolMac seekable plainFiles) ops)
    {data : List UInt8}
    (hrun : PhpStream.readStream filter sizes fuel
      (openFiltered bytes chunkSize f fs noBuffer detectEol eolMac seekable plainFiles) ops =
        some (data, t)) :
    ∃ n, data ++ t.buffered = chainOutput filter sizes chunkSize.val bytes (f :: fs) n ∧
      data <+: chainOutput filter sizes chunkSize.val bytes (f :: fs) n := by
  have hfits : (openFiltered bytes chunkSize f fs noBuffer detectEol eolMac seekable plainFiles).Fits :=
    ⟨Nat.le_refl _, Nat.le_refl _⟩
  obtain ⟨n, hn⟩ := (Feeds.readStream hfits (List.cons_ne_nil f fs) hreads hok hrun).rounds
  have hall : data ++ t.buffered = chainOutput filter sizes chunkSize.val bytes (f :: fs) n := by
    have hout := congrArg Chain.out (hn [])
    exact hout.symm
  exact ⟨n, hall, hall ▸ List.prefix_append _ _⟩

def upperFilter : FilterOps Unit := fun f brigade _ =>
  (.passOn, brigade.map fun bucket => bucket.map fun b => b &&& 0xdf, f)

/-- The rest of a line is a record: its end is in the buffer already. -/
theorem records_lose_nothing_line :
    ∃ data t, PhpStream.readStream upperFilter (fun _ => 8) (fun _ _ => 9)
        (openFiltered [97, 98, 95, 99] ⟨8, by decide⟩ () [] false false false false true)
        [.read 1, .getRecord 8 [95]] = some (data, t) ∧
      ∃ n, data ++ t.buffered = chainOutput upperFilter (fun _ => 8) 8 [97, 98, 95, 99] [()] n ∧
        data <+: chainOutput upperFilter (fun _ => 8) 8 [97, 98, 95, 99] [()] n := by
  have hsome : (PhpStream.readStream upperFilter (fun _ => 8) (fun _ _ => 9)
      (openFiltered [97, 98, 95, 99] ⟨8, by decide⟩ () [] false false false false true)
      [.read 1, .getRecord 8 [95]]).isSome = true := by decide +kernel
  obtain ⟨⟨data, t⟩, hrun⟩ := Option.isSome_iff_exists.mp hsome
  refine ⟨data, t, hrun, records_lose_nothing ?_ ?_ hrun⟩
  · intro op hop
    rcases List.mem_cons.mp hop with rfl | hop
    · trivial
    · obtain rfl := mem_singleton.mp hop
      trivial
  · refine ⟨trivial, fun _ _ h => ?_⟩
    obtain ⟨-, rfl⟩ := Prod.mk.inj (Option.some.inj h)
    refine ⟨Or.inl ?_, fun _ _ _ => trivial⟩
    decide +kernel

theorem chainOutput_mono {bytes : List UInt8} {chunkSize n m : Nat} {fs : List F} (h : n ≤ m) :
    chainOutput filter sizes chunkSize bytes fs n <+:
      chainOutput filter sizes chunkSize bytes fs m := by
  have hround : ∀ c : Chain F, c.out <+: (Chain.round filter sizes chunkSize c).out := by
    intro c
    unfold Chain.round
    dsimp only
    split
    · exact prefix_append _ _
    · exact prefix_rfl
  unfold chainOutput
  induction m with
  | zero =>
    obtain rfl := Nat.le_zero.mp h
    exact prefix_rfl
  | succ m ih =>
    rcases Nat.le_succ_iff.mp h with hle | rfl
    · rw [Function.iterate_succ_apply']
      exact (ih hle).trans (hround _)
    · exact prefix_rfl

/-- The first chunk is in the buffer without a delimiter.  The second refill drops it. -/
theorem records_drop_chunk :
    ¬ ∀ (ops : List StreamOp) (data : List UInt8) (t : PhpStream Unit), (∀ op ∈ ops, Reads op) →
      PhpStream.readStream upperFilter (fun _ => 2) (fun _ _ => 9)
        (openFiltered [97, 98, 99, 95] ⟨2, by decide⟩ () [] false false false false true) ops =
          some (data, t) →
        ∃ n, data <+: chainOutput upperFilter (fun _ => 2) 2 [97, 98, 99, 95] [()] n := by
  intro h
  have hdata : (PhpStream.readStream upperFilter (fun _ => 2) (fun _ _ => 9)
      (openFiltered [97, 98, 99, 95] ⟨2, by decide⟩ () [] false false false false true)
      [.getRecord 8 [95]]).map Prod.fst = some [67, 95] := by decide +kernel
  obtain ⟨⟨data, t⟩, hrun, rfl⟩ := Option.map_eq_some_iff.mp hdata
  obtain ⟨n, hn⟩ := h _ _ t (fun op hop => by
    obtain rfl := mem_singleton.mp hop
    trivial) hrun
  cases n with
  | zero => exact absurd hn (by decide +kernel)
  | succ n =>
    have hfirst := @chainOutput_mono _ upperFilter (fun _ => 2) [97, 98, 99, 95] 2 1 (n + 1) [()]
      (Nat.le_add_left 1 n)
    have hone : chainOutput upperFilter (fun _ => 2) 2 [97, 98, 99, 95] [()] 1 = [65, 66] := by
      decide +kernel
    rw [hone] at hfirst
    have heq := List.prefix_of_prefix_length_le hn hfirst (Nat.le_refl 2)
    exact absurd heq (by decide)

end PhpStream

end Php53.Streams
