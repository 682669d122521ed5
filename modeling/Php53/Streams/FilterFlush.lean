import Php53.Streams.Buffer
import Mathlib.Tactic.SplitIfs

/-!
# FilterFlush — `_php_stream_filter_flush` for the filters of a stream that is read

`readbuflen` is the length of `readbuf` in a stream.  A flush may leave more memory than that behind
it, so it returns the `readbuflen` that the stream is left with.
-/

namespace Php53.Streams

open List

namespace PhpStream

variable {F : Type}

def flushFlags (finish : Bool) : FilterFlags := if finish then .flushClose else .flushInc

/-- The loop over the `n` filters from the flushed one on.  Each round calls the flushed filter. -/
def flushLoop (filter : FilterOps F) : Nat → F → Brigade → FilterFlags → FilterStatus × Brigade × F
  | 0, f, inp, _ => (.passOn, inp, f)
  | n + 1, f, inp, flags =>
    match filter f inp flags with
    | (.passOn, out, f) => flushLoop filter n f out .normal
    | (status, _, f) => (status, [], f)

/-- The unread bytes are copied to the front, also where the two ranges overlap.  `readpos` is 0
    when it is subtracted from `writepos`. -/
def backUp (s : PhpStream F) : PhpStream F :=
  if s.readpos > 0 then { s with
    readbuf := s.peek s.avail ++ s.readbuf.drop s.avail, readpos := 0, writepos := s.writepos - 0 }
  else s

/-- `perealloc` where the flushed bytes do not fit. -/
def growFor (size : Nat) (s : PhpStream F) : PhpStream F :=
  if size > s.readbuf.length - s.writepos then
    { s with readbuf := s.readbuf ++
        replicate (s.writepos + size + s.chunkSize.val - s.readbuf.length) 0 }
  else s

structure FlushResult (F : Type) where
  ret : Int
  stream : PhpStream F
  readbuflen : Nat

/-- 0 is `SUCCESS`, -1 is `FAILURE`. -/
def filterFlush (filter : FilterOps F) (s : PhpStream F) (i : Fin s.readfilters.length)
    (finish : Bool) : FlushResult F :=
  let (status, out, f) := flushLoop filter (s.readfilters.length - i) (s.readfilters.get i) []
    (flushFlags finish)
  let t := { s with readfilters := s.readfilters.set i f }
  let flushedSize := (out.map List.length).sum
  match status with
  | .errFatal => ⟨-1, t, s.readbuf.length⟩
  | .feedMe => ⟨0, t, s.readbuf.length⟩
  | .passOn =>
    if flushedSize = 0 then ⟨0, t, s.readbuf.length⟩
    else ⟨0, out.foldl putBytes (t.backUp.growFor flushedSize), s.readbuf.length⟩

def flushed (filter : FilterOps F) (s : PhpStream F) (i : Fin s.readfilters.length)
    (finish : Bool) : List UInt8 :=
  match filter (s.readfilters.get i) [] (flushFlags finish) with
  | (.passOn, out, _) =>
    (windFilters filter (s.readfilters.drop (i + 1)) out .normal).2.1.flatten
  | _ => []

/-- A flush that succeeds appends its output to what is unread, within `readbuflen`. -/
def KeepsUnread (filter : FilterOps F) (s : PhpStream F) (i : Fin s.readfilters.length)
    (finish : Bool) : Prop :=
  (filterFlush filter s i finish).ret = 0 →
    (filterFlush filter s i finish).stream.buffered = s.buffered ++ flushed filter s i finish ∧
      (filterFlush filter s i finish).stream.writepos ≤ (filterFlush filter s i finish).readbuflen

/-- The flushed filter or a later one ends in an error. -/
def FlushFails (filter : FilterOps F) (s : PhpStream F) (i : Fin s.readfilters.length)
    (finish : Bool) : Prop :=
  match filter (s.readfilters.get i) [] (flushFlags finish) with
  | (.passOn, out, _) => (windFilters filter (s.readfilters.drop (i + 1)) out .normal).1 = .errFatal
  | (status, _, _) => status = .errFatal

/-- In each round, a filter in the state `f` does with the brigade what the later filter does. -/
def SameAsLater (filter : FilterOps F) : F → Brigade → List F → Prop
  | _, _, [] => True
  | f, brigade, g :: gs =>
    (filter f brigade .normal).1 = (filter g brigade .normal).1 ∧
      (filter f brigade .normal).2.1 = (filter g brigade .normal).2.1 ∧
        ((filter g brigade .normal).1 = .passOn →
          SameAsLater filter (filter f brigade .normal).2.2 (filter g brigade .normal).2.1 gs)

/-- It makes no difference that the flushed filter is called in the place of each later filter. -/
def StandsIn (filter : FilterOps F) (s : PhpStream F) (i : Fin s.readfilters.length)
    (finish : Bool) : Prop :=
  (filter (s.readfilters.get i) [] (flushFlags finish)).1 = .passOn →
    SameAsLater filter (filter (s.readfilters.get i) [] (flushFlags finish)).2.2
      (filter (s.readfilters.get i) [] (flushFlags finish)).2.1 (s.readfilters.drop (i + 1))

/-- The bytes that the copy to the front leaves between the unread ones and `writepos`. -/
def stale (s : PhpStream F) : List UInt8 := window s.readbuf s.avail s.writepos

variable {s : PhpStream F}

theorem Fits.backUp (h : s.Fits) :
    s.backUp.Fits ∧ s.backUp.buffered = s.buffered ++ s.stale ∧ s.backUp.writepos = s.writepos := by
  have hle := h.read_le
  have hwrite := h.write_le
  unfold PhpStream.backUp
  by_cases hread : s.readpos > 0
  · rw [if_pos hread]
    have hpeek : (s.peek s.avail).length = s.avail := h.length_peek (Nat.le_refl _)
    have havail : s.avail ≤ s.writepos := Nat.sub_le _ _
    refine ⟨⟨Nat.zero_le _, ?_⟩, ?_, rfl⟩
    · show s.writepos ≤ (s.peek s.avail ++ s.readbuf.drop s.avail).length
      rw [length_append, hpeek, length_drop]
      omega
    · show window (s.peek s.avail ++ s.readbuf.drop s.avail) 0 s.writepos = s.buffered ++ s.stale
      have hsum : s.writepos = (s.peek s.avail).length + (s.writepos - s.avail) := by omega
      unfold window stale window
      rw [drop_zero, Nat.sub_zero, ← peek_avail]
      conv_lhs => rw [hsum, take_length_add_append]
  · rw [if_neg hread]
    have hzero : s.avail = s.writepos := by
      unfold avail
      omega
    have hstale : s.stale = [] := by
      unfold stale window
      rw [hzero, Nat.sub_self, take_zero]
    rw [hstale, append_nil]
    exact ⟨h, rfl, rfl⟩

theorem Fits.growFor (h : s.Fits) (size : Nat) :
    (s.growFor size).Fits ∧ (s.growFor size).buffered = s.buffered ∧
      (s.growFor size).writepos = s.writepos := by
  unfold PhpStream.growFor
  split_ifs
  · refine ⟨⟨h.read_le, ?_⟩, window_append h.read_le h.write_le, rfl⟩
    show s.writepos ≤ _
    rw [length_append]
    exact Nat.le_trans h.write_le (Nat.le_add_right _ _)
  · exact ⟨h, rfl, rfl⟩

theorem Fits.putBuckets (h : s.Fits) (out : Brigade) :
    (out.foldl PhpStream.putBytes s).buffered = s.buffered ++ out.flatten ∧
      (out.foldl PhpStream.putBytes s).writepos = s.writepos + out.flatten.length := by
  induction out generalizing s with
  | nil => exact ⟨(append_nil _).symm, rfl⟩
  | cons bucket out ih =>
    obtain ⟨hfits, hbuffered, -⟩ := h.putBytes bucket
    obtain ⟨hall, hpos⟩ := ih hfits
    rw [foldl_cons, hall, hpos, hbuffered, flatten_cons, append_assoc,
      length_append, ← Nat.add_assoc]
    exact ⟨rfl, rfl⟩

variable {filter : FilterOps F}

/-- What the loop gives to the stream, none where it ends in an error. -/
def given (filter : FilterOps F) (s : PhpStream F) (i : Fin s.readfilters.length)
    (finish : Bool) : Option (List UInt8) :=
  match flushLoop filter (s.readfilters.length - i) (s.readfilters.get i) [] (flushFlags finish) with
  | (.passOn, out, _) => some out.flatten
  | (.feedMe, _, _) => some []
  | (.errFatal, _, _) => none

theorem flushLoop_eq (f : F) (brigade : Brigade) (gs : List F)
    (hsame : SameAsLater filter f brigade gs) :
    (flushLoop filter gs.length f brigade .normal).1 =
        (windFilters filter gs brigade .normal).1 ∧
      (flushLoop filter gs.length f brigade .normal).2.1 =
        (windFilters filter gs brigade .normal).2.1 := by
  induction gs generalizing f brigade with
  | nil => exact ⟨rfl, rfl⟩
  | cons g gs ih =>
    obtain ⟨hstatus, hout, hrest⟩ := hsame
    rw [length_cons]
    unfold flushLoop windFilters
    cases hf : filter f brigade .normal with
    | mk status r =>
      cases hg : filter g brigade .normal with
      | mk status' r' =>
        rw [hf, hg] at hstatus hout hrest
        dsimp only at hstatus hout hrest
        subst hstatus
        cases status with
        | passOn =>
          obtain ⟨hlast, hgiven⟩ := ih r.2 r'.1 (hrest rfl)
          dsimp only
          rw [hout]
          exact ⟨hlast, hgiven⟩
        | feedMe => exact ⟨rfl, rfl⟩
        | errFatal => exact ⟨rfl, rfl⟩

theorem flushLoop_ends (n : Nat) (f : F) (brigade : Brigade) (flags : FilterFlags)
    (hstatus : (flushLoop filter n f brigade flags).1 ≠ .passOn) :
    (flushLoop filter n f brigade flags).2.1 = [] := by
  induction n generalizing f brigade flags with
  | zero => exact absurd rfl hstatus
  | succ n ih =>
    unfold flushLoop at hstatus ⊢
    cases hf : filter f brigade flags with
    | mk status r =>
      rw [hf] at hstatus
      cases status with
      | passOn => exact ih _ _ _ hstatus
      | feedMe => rfl
      | errFatal => rfl

theorem given_eq (i : Fin s.readfilters.length) (finish : Bool)
    (hsame : StandsIn filter s i finish) :
    given filter s i finish = none ∧ FlushFails filter s i finish ∨
      given filter s i finish = some (flushed filter s i finish) ∧ ¬ FlushFails filter s i finish := by
  have hcount : s.readfilters.length - i = (s.readfilters.drop (i + 1)).length + 1 := by
    rw [length_drop]
    omega
  unfold StandsIn at hsame
  unfold given FlushFails flushed
  rw [hcount]
  unfold flushLoop
  cases hcall : filter (s.readfilters.get i) [] (flushFlags finish) with
  | mk status r =>
    cases status with
    | errFatal => exact .inl ⟨rfl, rfl⟩
    | feedMe => exact .inr ⟨rfl, by simp⟩
    | passOn =>
      rw [hcall] at hsame
      obtain ⟨hstatus, hout⟩ := flushLoop_eq r.2 r.1 _ (hsame rfl)
      have hends := @flushLoop_ends F filter (s.readfilters.drop (i + 1)).length r.2 r.1
        .normal
      dsimp only
      rw [← hstatus, ← hout]
      generalize flushLoop filter (s.readfilters.drop (i + 1)).length r.2 r.1 .normal = looped
        at hends ⊢
      obtain ⟨status, out, f⟩ := looped
      cases status with
      | errFatal => exact .inl ⟨rfl, rfl⟩
      | feedMe =>
        have hnone : out = [] := hends (by simp)
        exact .inr ⟨by rw [hnone]; rfl, by simp⟩
      | passOn => exact .inr ⟨rfl, by simp⟩

theorem keepsUnread_of_nothing (h : s.Fits) {i : Fin s.readfilters.length} {finish : Bool}
    {fs : List F}
    (hrun : filterFlush filter s i finish = ⟨0, { s with readfilters := fs }, s.readbuf.length⟩) :
    KeepsUnread filter s i finish ↔ flushed filter s i finish = [] := by
  unfold KeepsUnread
  rw [hrun]
  constructor
  · intro hkeeps
    exact append_right_eq_self.mp (hkeeps rfl).1.symm
  · intro hnone _
    rw [hnone, append_nil]
    exact ⟨rfl, h.write_le⟩

theorem keepsUnread_given_iff (h : s.Fits) (i : Fin s.readfilters.length) (finish : Bool) :
    KeepsUnread filter s i finish ↔
      given filter s i finish = none ∨
        (given filter s i finish = some [] ∧ flushed filter s i finish = []) ∨
        ∃ w, w ≠ [] ∧ given filter s i finish = some w ∧
          flushed filter s i finish = s.stale ++ w ∧
          w.length ≤ s.readbuf.length - s.writepos := by
  have hsize : ∀ out : Brigade, (out.map List.length).sum = out.flatten.length :=
    fun out => length_flatten.symm
  cases hloop : flushLoop filter (s.readfilters.length - i) (s.readfilters.get i) []
      (flushFlags finish) with
  | mk status r =>
    obtain ⟨out, f⟩ := r
    cases status with
    | errFatal =>
      have hgiven : given filter s i finish = none := by
        unfold given
        rw [hloop]
      have hret : (filterFlush filter s i finish).ret = -1 := by
        unfold filterFlush
        rw [hloop]
      refine ⟨fun _ => Or.inl hgiven, fun _ hzero => ?_⟩
      rw [hret] at hzero
      exact absurd hzero (by decide)
    | feedMe =>
      have hgiven : given filter s i finish = some [] := by
        unfold given
        rw [hloop]
      have hrun : filterFlush filter s i finish =
          ⟨0, { s with readfilters := s.readfilters.set i f }, s.readbuf.length⟩ := by
        unfold filterFlush
        rw [hloop]
      rw [keepsUnread_of_nothing h hrun, hgiven]
      simp
    | passOn =>
      have hgiven : given filter s i finish = some out.flatten := by
        unfold given
        rw [hloop]
      by_cases hnothing : out.flatten = []
      · have hrun : filterFlush filter s i finish =
            ⟨0, { s with readfilters := s.readfilters.set i f }, s.readbuf.length⟩ := by
          unfold filterFlush
          rw [hloop]
          exact if_pos (by rw [hsize, hnothing]; rfl)
        rw [keepsUnread_of_nothing h hrun, hgiven, hnothing]
        simp
      · have hpos : out.flatten.length ≠ 0 := fun he => hnothing (length_eq_zero_iff.mp he)
        obtain ⟨t, ht⟩ : ∃ t, t = ({ s with readfilters := s.readfilters.set i f } : PhpStream F) :=
          ⟨_, rfl⟩
        have hrun : filterFlush filter s i finish =
            ⟨0, out.foldl putBytes (t.backUp.growFor out.flatten.length), s.readbuf.length⟩ := by
          unfold filterFlush
          rw [hloop, ht]
          dsimp only
          rw [if_neg (by rw [hsize]; exact hpos), hsize]
        have htfits : t.Fits := by
          rw [ht]
          exact ⟨h.read_le, h.write_le⟩
        obtain ⟨hback, hbuffered, hwritepos⟩ := htfits.backUp
        obtain ⟨hgrown, hbuffered', hwritepos'⟩ := hback.growFor out.flatten.length
        obtain ⟨hall, hend⟩ := hgrown.putBuckets out
        have hunread : t.buffered ++ t.stale = s.buffered ++ s.stale := by rw [ht]; rfl
        have htwrite : t.writepos = s.writepos := by rw [ht]
        have hwrite := h.write_le
        rw [hbuffered', hbuffered, hunread, append_assoc] at hall
        rw [hwritepos', hwritepos, htwrite] at hend
        unfold KeepsUnread
        rw [hrun, hgiven]
        dsimp only
        rw [hall, hend]
        constructor
        · intro hkeeps
          obtain ⟨heq, hlen⟩ := hkeeps rfl
          refine Or.inr (Or.inr ⟨out.flatten, hnothing, rfl, ?_, by omega⟩)
          exact (append_cancel_left heq).symm
        · rintro (hnone | ⟨hempty, -⟩ | ⟨w, -, hw, hflushed, hlen⟩) _
          · cases hnone
          · exact (hnothing (Option.some.inj hempty)).elim
          · obtain rfl := Option.some.inj hw
            exact ⟨by rw [hflushed], by omega⟩

theorem Fits.length_stale (h : s.Fits) : s.stale.length = s.readpos := by
  have hle := h.read_le
  have hlen : s.stale.length = s.writepos - s.avail := length_window h.write_le
  unfold avail at hlen
  omega

/-- Where it does as well in the place of each later filter, as the last filter always does, the
    flush of a filter appends the output to the unread bytes exactly if nothing is read yet and
    there is room, or if there is no output. -/
theorem filterFlush_keeps_iff (h : s.Fits) (i : Fin s.readfilters.length) (finish : Bool)
    (hsame : StandsIn filter s i finish) :
    KeepsUnread filter s i finish ↔ FlushFails filter s i finish ∨ flushed filter s i finish = [] ∨
      s.readpos = 0 ∧ (flushed filter s i finish).length ≤ s.readbuf.length - s.writepos := by
  have hstale := h.length_stale
  rw [keepsUnread_given_iff h i finish]
  rcases given_eq i finish hsame with ⟨hnone, hfails⟩ | ⟨hsome, hsucceeds⟩
  · exact ⟨fun _ => Or.inl hfails, fun _ => Or.inl hnone⟩
  · rw [hsome]
    constructor
    · rintro (hnone | ⟨-, hempty⟩ | ⟨w, -, hw, hflushed, hroom⟩)
      · cases hnone
      · exact Or.inr (Or.inl hempty)
      · obtain rfl := Option.some.inj hw
        have hnil : s.stale = [] := append_left_eq_self.mp hflushed.symm
        rw [hnil] at hstale
        exact Or.inr (Or.inr ⟨hstale.symm, hroom⟩)
    · rintro (hfails | hempty | ⟨hread, hroom⟩)
      · exact (hsucceeds hfails).elim
      · exact Or.inr (Or.inl ⟨by rw [hempty], hempty⟩)
      · by_cases hempty : flushed filter s i finish = []
        · exact Or.inr (Or.inl ⟨by rw [hempty], hempty⟩)
        · have hnil : s.stale = [] := length_eq_zero_iff.mp (hstale.trans hread)
          exact Or.inr (Or.inr ⟨_, hempty, rfl, by rw [hnil]; rfl, hroom⟩)

def heldFilter : FilterOps (List UInt8) := fun held brigade _ => (.passOn, brigade ++ [held], [])

/-- A byte has been read, another one has not, and there is room for two. -/
def partlyRead : PhpStream (List UInt8) where
  file := ⟨[], 0, 0⟩
  readfilters := [[66]]
  readbuf := [64, 65, 0, 0]
  readpos := 1
  writepos := 2
  position := 1
  eof := false
  chunkSize := ⟨8192, by decide⟩
  noBuffer := false
  detectEol := false
  eolMac := false
  seekable := false
  plainFiles := false

theorem filterFlush_keeps_iff_partlyRead :
    partlyRead.Fits ∧ (KeepsUnread heldFilter partlyRead ⟨0, by decide⟩ true ↔
      FlushFails heldFilter partlyRead ⟨0, by decide⟩ true ∨
        flushed heldFilter partlyRead ⟨0, by decide⟩ true = [] ∨ partlyRead.readpos = 0 ∧
          (flushed heldFilter partlyRead ⟨0, by decide⟩ true).length ≤
            partlyRead.readbuf.length - partlyRead.writepos) :=
  ⟨⟨by decide, by decide⟩,
    filterFlush_keeps_iff ⟨by decide, by decide⟩ ⟨0, by decide⟩ true fun _ => trivial⟩

/-- The byte that has been read is unread again. -/
theorem partlyRead_flushed :
    (filterFlush heldFilter partlyRead ⟨0, by decide⟩ true).stream.buffered = [65, 65, 66] ∧
      partlyRead.buffered ++ flushed heldFilter partlyRead ⟨0, by decide⟩ true = [65, 66] ∧
      ¬ KeepsUnread heldFilter partlyRead ⟨0, by decide⟩ true := by
  have hcode : (filterFlush heldFilter partlyRead ⟨0, by decide⟩ true).stream.buffered =
      [65, 65, 66] := by decide
  have hclaim : partlyRead.buffered ++ flushed heldFilter partlyRead ⟨0, by decide⟩ true =
      [65, 66] := by decide
  refine ⟨hcode, hclaim, fun h => ?_⟩
  have heq := (h rfl).1
  rw [hcode, hclaim] at heq
  exact absurd heq (by decide)

end PhpStream

end Php53.Streams
