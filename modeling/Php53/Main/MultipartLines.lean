import Php53.Main.FormFields
import Php53.Main.MultipartBuffer

/-!
# MultipartLines — the lines that `get_line` returns

A buffer is known by the bytes that are still to come, `rest`.  How they are cut into pieces and how
many of them are in the buffer is not seen.
-/

open Reasoning

namespace Php53.Main

open Zend List

namespace MultipartBuffer

variable {n : Nat} {self : MultipartBuffer} {isspace : UInt8 → Bool}

variable {line tail : List UInt8} {fuel : Nat}

/-- What is in the buffer and what `read_post` has not delivered yet. -/
def rest (self : MultipartBuffer) : List UInt8 := self.window ++ self.pieces.flatten

/-- `read_post` returns something until there is nothing left. -/
structure Valid (bufsize : Nat) (mbuff : MultipartBuffer) : Prop where
  length_window : mbuff.window.length ≤ bufsize
  pieces : ∀ piece ∈ mbuff.pieces, piece ≠ []

theorem Valid.window_prefix (self : MultipartBuffer) : self.window <+: self.rest :=
  prefix_append _ _

theorem Valid.drop (h : self.Valid n) (k : Nat) :
    Valid n { self with window := self.window.drop k } := by
  constructor
  · show (self.window.drop k).length ≤ n
    have hlen := h.length_window
    rw [length_drop]
    omega
  · exact h.pieces

theorem rest_drop {k : Nat} (hk : k ≤ self.window.length) :
    rest { self with window := self.window.drop k } = self.rest.drop k := by
  unfold rest
  rw [drop_append_of_le_length hk]

theorem readPost_spec {k : Nat} {pieces : List (List UInt8)} (hk : 0 < k)
    (h : ∀ piece ∈ pieces, piece ≠ []) :
    (readPost k pieces).1 ++ (readPost k pieces).2.flatten = pieces.flatten ∧
      (readPost k pieces).1.length ≤ k ∧ (∀ piece ∈ (readPost k pieces).2, piece ≠ []) ∧
      ((readPost k pieces).1 = [] → pieces = []) := by
  cases pieces with
  | nil => simp [readPost]
  | cons piece pieces =>
    have hpiece := h piece (by simp)
    rw [readPost]
    by_cases hle : piece.length ≤ k
    · simp only [if_pos hle]
      exact ⟨rfl, hle, fun p hp => h p (by simp [hp]), fun hnil => absurd hnil hpiece⟩
    · simp only [if_neg hle]
      have hdrop : piece.drop k ≠ [] := by
        rw [Ne, drop_eq_nil_iff]
        omega
      have htake : piece.take k ≠ [] := by
        rw [Ne, take_eq_nil_iff]
        rintro (hzero | hnil)
        · omega
        · exact hpiece hnil
      refine ⟨?_, length_take_le _ _, ?_, fun hnil => absurd hnil htake⟩
      · rw [flatten_cons, flatten_cons, ← append_assoc, take_append_drop]
      · intro p hp
        rcases mem_cons.mp hp with rfl | hp
        · exact hdrop
        · exact h p (by simp [hp])

theorem fillLoop_spec (fuel k : Nat) (self : MultipartBuffer) (hfuel : k < fuel)
    (h : ∀ piece ∈ self.pieces, piece ≠ []) :
    (fillLoop fuel k self).rest = self.rest ∧
      (fillLoop fuel k self).window = self.window ++ self.pieces.flatten.take k ∧
      ∀ piece ∈ (fillLoop fuel k self).pieces, piece ≠ [] := by
  induction fuel generalizing k self with
  | zero => omega
  | succ fuel ih =>
    rw [fillLoop]
    by_cases hk : k = 0
    · rw [if_pos hk, hk]
      simpa using h
    · rw [if_neg hk]
      obtain ⟨hsplit, hlen, hpieces, hempty⟩ := readPost_spec (Nat.pos_of_ne_zero hk) h
      generalize readPost k self.pieces = r at hsplit hlen hpieces hempty
      obtain ⟨buf, pieces⟩ := r
      dsimp only at hsplit hlen hpieces hempty ⊢
      by_cases hbuf : buf = []
      · -- nothing is left
        rw [if_pos hbuf]
        have hnil := hempty hbuf
        rw [hnil, hbuf] at hsplit
        have hflat : pieces.flatten = [] := by simpa using hsplit
        simp only [rest, hnil, hflat]
        simpa using hpieces
      · rw [if_neg hbuf]
        have hpos := length_pos_of_ne_nil hbuf
        obtain ⟨hrest, hwindow, hvalid⟩ := ih (k - buf.length) ⟨self.window ++ buf, pieces⟩ (by omega) hpieces
        refine ⟨?_, ?_, hvalid⟩
        · rw [hrest]
          show (self.window ++ buf) ++ pieces.flatten = self.window ++ self.pieces.flatten
          rw [append_assoc, hsplit]
        · rw [hwindow, ← hsplit, take_append, take_of_length_le hlen]
          exact append_assoc _ _ _

theorem Valid.fillBuffer (h : self.Valid n) :
    (self.fillBuffer n).Valid n ∧ (self.fillBuffer n).rest = self.rest ∧
      (self.fillBuffer n).window = self.rest.take n := by
  have hlen := h.length_window
  obtain ⟨hrest, hwindow, hpieces⟩ :=
    fillLoop_spec (n + 1) (n - self.window.length) self (by omega) h.pieces
  have htake : (self.fillBuffer n).window = self.rest.take n := by
    show (fillLoop (n + 1) (n - self.window.length) self).window = _
    rw [hwindow, rest, take_append, take_of_length_le hlen]
  refine ⟨⟨?_, hpieces⟩, hrest, htake⟩
  rw [htake]
  exact length_take_le _ _

def chomp (line : List UInt8) : List UInt8 :=
  if line.getLast? = some 13 then line.dropLast else line

theorem chomp_concat (line : List UInt8) : chomp (line ++ [13]) = line := by simp [chomp]

theorem memchr_window {w : List UInt8} {c : UInt8} :
    memchr w 0 c w.length = w.findIdx? (· = c) := by
  simp [memchr]

theorem nextLine_of_line (hv : self.Valid n) (hrest : self.rest = line ++ 10 :: tail)
    (hline : (10 : UInt8) ∉ line) (hlen : line.length < self.window.length) :
    ∃ self', self.nextLine n = (some (cString (chomp line) 0), self') ∧ self'.Valid n ∧
      self'.rest = tail := by
  have hfind : memchr self.window 0 10 self.window.length = some line.length := by
    rw [memchr_window]
    have hfront : line ++ [10] <+: self.window := by
      have hcommon : line ++ [10] <+: self.rest := by
        rw [hrest]
        exact ⟨tail, by simp⟩
      apply prefix_of_prefix_length_le hcommon (Valid.window_prefix self)
      rw [length_append, length_singleton]
      omega
    obtain ⟨w, hw⟩ := hfront
    rw [← hw, append_assoc]
    exact findIdx?_append_cons hline w
  have htake : self.window.take line.length = line := by
    have h := congrArg (List.take line.length) hrest
    rwa [rest, take_append_of_le_length (Nat.le_of_lt hlen), take_left'] at h
    rfl
  refine ⟨{ self with window := self.window.drop (line.length + 1) }, ?_, hv.drop _, ?_⟩
  · unfold nextLine
    rw [hfind]
    dsimp only
    rw [htake]
    rfl
  · rw [rest_drop hlen, hrest, drop_append]
    simp

theorem nextLine_of_none (h : (10 : UInt8) ∉ self.window) (hlen : self.window.length < n) :
    self.nextLine n = (none, self) := by
  have hfind : memchr self.window 0 10 self.window.length = none := by
    rw [memchr_window, findIdx?_of_notMem h]
  unfold nextLine
  rw [hfind]
  dsimp only
  rw [if_pos hlen]

theorem nextLine_of_full (h : (10 : UInt8) ∉ self.window) (hlen : n ≤ self.window.length) :
    self.nextLine n = (some (cString self.window 0), { self with window := [] }) := by
  have hfind : memchr self.window 0 10 self.window.length = none := by
    rw [memchr_window, findIdx?_of_notMem h]
  unfold nextLine
  rw [hfind]
  dsimp only
  rw [if_neg (Nat.not_lt.mpr hlen)]

theorem getLine_of_none (h : (10 : UInt8) ∉ self.window) (hlen : self.window.length < n) :
    self.getLine n = (self.fillBuffer n).nextLine n := by
  unfold getLine
  rw [nextLine_of_none h hlen]

theorem getLine_of_line (hv : self.Valid n) (hrest : self.rest = line ++ 10 :: tail)
    (hline : (10 : UInt8) ∉ line) (hlen : line.length < n) :
    ∃ self', self.getLine n = (some (cString (chomp line) 0), self') ∧ self'.Valid n ∧
      self'.rest = tail := by
  by_cases hwindow : line.length < self.window.length
  · obtain ⟨self', hnext, h⟩ := nextLine_of_line hv hrest hline hwindow
    refine ⟨self', ?_, h⟩
    unfold getLine
    rw [hnext]
  · have hmem : (10 : UInt8) ∉ self.window := by
      -- the buffer is a first part of the line
      have hfront : self.window <+: line := by
        apply prefix_of_prefix_length_le (Valid.window_prefix self) _ (Nat.le_of_not_lt hwindow)
        rw [hrest]
        exact prefix_append _ _
      exact fun h => hline (hfront.subset h)
    obtain ⟨hvalid, hfill, htake⟩ := hv.fillBuffer
    rw [getLine_of_none hmem (by omega)]
    apply nextLine_of_line hvalid (hfill.trans hrest) hline
    rw [htake, hrest]
    simp only [length_take, length_append, length_cons]
    omega

theorem getLine_of_full (hv : self.Valid n) (h : (10 : UInt8) ∉ self.rest.take n)
    (hlen : n ≤ self.rest.length) :
    ∃ self', self.getLine n = (some (cString (self.rest.take n) 0), self') ∧ self'.Valid n ∧
      self'.rest = self.rest.drop n := by
  have hfront := Valid.window_prefix self
  have hle := hv.length_window
  have hcut : ∀ {mbuff : MultipartBuffer}, mbuff.Valid n → mbuff.rest = self.rest →
      mbuff.window = self.rest.take n →
      ∃ self', mbuff.nextLine n = (some (cString (self.rest.take n) 0), self') ∧ self'.Valid n ∧
        self'.rest = self.rest.drop n := by
    intro mbuff hvalid hrest htake
    have hwlen : mbuff.window.length = n := by
      rw [htake, length_take, Nat.min_eq_left hlen]
    refine ⟨{ mbuff with window := [] }, ?_, ⟨by simp, hvalid.pieces⟩, ?_⟩
    · rw [nextLine_of_full (htake ▸ h) (by omega), htake]
    · rw [← hrest, rest, rest, nil_append, drop_append, ← hwlen, drop_length]
      simp
  by_cases hwindow : self.window.length < n
  · have hmem : (10 : UInt8) ∉ self.window := by
      intro hm
      apply h
      have htake := prefix_of_prefix_length_le hfront (List.take_prefix n self.rest)
        (by rw [length_take]; omega)
      exact htake.subset hm
    obtain ⟨hvalid, hfill, htake⟩ := hv.fillBuffer
    rw [getLine_of_none hmem hwindow]
    exact hcut hvalid hfill htake
  · have htake : self.window = self.rest.take n := by
      rw [prefix_iff_eq_take.mp hfront]
      congr 1
      omega
    obtain ⟨self', hnext, h'⟩ := hcut hv rfl htake
    refine ⟨self', ?_, h'⟩
    unfold getLine
    rw [hnext]

theorem getLine_of_end (hv : self.Valid n) (h : (10 : UInt8) ∉ self.rest)
    (hlen : self.rest.length < n) : (self.getLine n).1 = none := by
  obtain ⟨hvalid, hfill, htake⟩ := hv.fillBuffer
  have hfront := Valid.window_prefix self
  have hle := hfront.length_le
  rw [getLine_of_none (fun hm => h (hfront.subset hm)) (by omega), nextLine_of_none]
  · rw [htake]
    exact fun hm => h ((List.take_prefix _ _).subset hm)
  · rw [htake, length_take]
    omega

theorem cString_of_notMem {s : List UInt8} (hs : 0 ∉ s) : cString s 0 = s := by
  rw [cString, drop_zero, takeWhile_eq_self_iff]
  intro c hc
  exact decide_eq_true fun h => hs (h ▸ hc)

/-- One line that fits the buffer, for whatever `boundary` it is compared with. -/
theorem findBoundary_line (boundary : List UInt8) (fuel : Nat) (hv : self.Valid n)
    (hrest : self.rest = line ++ 13 :: 10 :: tail) (hlf : 10 ∉ line) (hnul : 0 ∉ line)
    (hlen : line.length + 1 < n) :
    ∃ self', findBoundary n boundary (fuel + 1) self =
        (if line = boundary then (true, self') else findBoundary n boundary fuel self') ∧
      self'.Valid n ∧ self'.rest = tail := by
  have hsplit : self.rest = (line ++ [13]) ++ 10 :: tail := by
    rw [hrest]
    simp
  obtain ⟨self', hline, h⟩ := getLine_of_line hv hsplit (by simp [hlf]) (by simpa using hlen)
  refine ⟨self', ?_, h⟩
  rw [chomp_concat, cString_of_notMem hnul] at hline
  rw [findBoundary, hline]

theorem findBoundary_end (fuel : Nat) (boundary : List UInt8) (hv : self.Valid n)
    (hrest : self.rest = []) (hn : 0 < n) : (findBoundary n boundary fuel self).1 = false := by
  cases fuel with
  | zero => rfl
  | succ fuel =>
    have hnone := getLine_of_end hv (by simp [hrest]) (by simpa [hrest] using hn)
    rw [findBoundary]
    generalize self.getLine n = r at hnone
    obtain ⟨_ | line, self'⟩ := r
    · rfl
    · exact nomatch hnone

/-- What `get_line` makes of a line that is given with the CR at its end: it cuts a line that is
longer than the buffer. -/
def lineParts (n : Nat) (line : List UInt8) : List (List UInt8) :=
  if 0 < n ∧ n ≤ line.length then line.take n :: lineParts n (line.drop n) else [chomp line]
termination_by line.length
decreasing_by
  rw [List.length_drop]
  omega

def addLine (n : Nat) (isspace : UInt8 → Bool) (header : List MimeHeaderEntry) (line : List UInt8) :
    List MimeHeaderEntry :=
  (lineParts n line).foldl (fun header part => headerLine isspace part header) header

theorem headerLoop_part {header : List MimeHeaderEntry} {self' : MultipartBuffer}
    (hline : self.getLine n = (some line, self')) (hne : line ≠ []) :
    headerLoop n isspace (fuel + 1) header self =
      headerLoop n isspace fuel (headerLine isspace line header) self' := by
  rw [headerLoop, hline]
  exact if_neg hne

theorem headerLoop_line (isspace : UInt8 → Bool) (header : List MimeHeaderEntry) (hn : 0 < n)
    (line : List UInt8) (hv : self.Valid n) (hrest : self.rest = line ++ 10 :: tail)
    (hlf : 10 ∉ line) (hnul : 0 ∉ line) (hparts : ∀ part ∈ lineParts n line, part ≠ [])
    (hfuel : self.rest.length < fuel) :
    ∃ fuel' self', headerLoop n isspace fuel header self =
        headerLoop n isspace fuel' (addLine n isspace header line) self' ∧
      self'.Valid n ∧ self'.rest = tail ∧ tail.length < fuel' := by
  induction line using lineParts.induct (n := n) generalizing self fuel header with
  | case1 line hcut ih =>
    unfold addLine
    rw [lineParts, if_pos hcut] at hparts ⊢
    cases fuel with
    | zero => omega
    | succ fuel =>
      have htake : self.rest.take n = line.take n := by
        rw [hrest, take_append_of_le_length hcut.2]
      have hlen : line.length < self.rest.length := by
        rw [hrest, length_append, length_cons]
        omega
      obtain ⟨mbuff, hline, hvalid, hdrop⟩ := getLine_of_full hv
        (by rw [htake]; exact fun h => hlf (mem_of_mem_take h)) (by omega)
      rw [htake, cString_of_notMem fun h => hnul (mem_of_mem_take h)] at hline
      rw [headerLoop_part hline (hparts _ (by simp)), foldl_cons]
      apply ih _ hvalid
      · rw [hdrop, hrest, drop_append_of_le_length hcut.2]
      · exact fun h => hlf (mem_of_mem_drop h)
      · exact fun h => hnul (mem_of_mem_drop h)
      · exact fun part hpart => hparts part (by simp [hpart])
      · rw [hdrop, length_drop]
        omega
  | case2 line hcut =>
    unfold addLine
    rw [lineParts, if_neg hcut] at hparts ⊢
    cases fuel with
    | zero => omega
    | succ fuel =>
      obtain ⟨mbuff, hline, hvalid, htail⟩ := getLine_of_line hv hrest hlf (by omega)
      have hchomp : (0 : UInt8) ∉ chomp line := by
        unfold chomp
        split
        · exact fun h => hnul (dropLast_subset _ h)
        · exact hnul
      rw [cString_of_notMem hchomp] at hline
      refine ⟨fuel, mbuff, headerLoop_part hline (hparts _ (by simp)), hvalid, htail, ?_⟩
      rw [hrest, length_append, length_cons] at hfuel
      omega

def headerText (lines : List (List UInt8)) : List UInt8 := lines.flatMap (· ++ [13, 10])

theorem headerLoop_lines (isspace : UInt8 → Bool) (header : List MimeHeaderEntry) (hn : 1 < n)
    {lines : List (List UInt8)} (hv : self.Valid n)
    (hrest : self.rest = headerText lines ++ 13 :: 10 :: tail) (hlf : ∀ line ∈ lines, 10 ∉ line)
    (hnul : ∀ line ∈ lines, 0 ∉ line)
    (hparts : ∀ line ∈ lines, ∀ part ∈ lineParts n (line ++ [13]), part ≠ [])
    (hfuel : self.rest.length < fuel) :
    ∃ self', headerLoop n isspace fuel header self =
        (lines.foldl (fun header line => addLine n isspace header (line ++ [13])) header, self') ∧
      self'.Valid n ∧ self'.rest = tail := by
  induction lines generalizing self fuel header with
  | nil =>
    cases fuel with
    | zero => omega
    | succ fuel =>
      have hblank : self.rest = [13] ++ 10 :: tail := hrest
      obtain ⟨mbuff, hline, h⟩ := getLine_of_line hv hblank (by decide) hn
      refine ⟨mbuff, ?_, h⟩
      rw [headerLoop, hline]
      rfl
  | cons line lines ih =>
    have hsplit : self.rest = (line ++ [13]) ++ 10 :: (headerText lines ++ 13 :: 10 :: tail) := by
      rw [hrest]
      simp [headerText]
    have hlf' := hlf line (by simp)
    have hnul' := hnul line (by simp)
    obtain ⟨fuel', mbuff, hloop, hvalid, htail, hfuel'⟩ := headerLoop_line isspace header
      (by omega) (line ++ [13]) hv hsplit (by simp [hlf']) (by simp [hnul']) (hparts line (by simp)) hfuel
    rw [hloop, foldl_cons]
    apply ih _ hvalid htail
    · exact fun l hl => hlf l (by simp [hl])
    · exact fun l hl => hnul l (by simp [hl])
    · exact fun l hl => hparts l (by simp [hl])
    · rw [htail]
      exact hfuel'

end MultipartBuffer

end Php53.Main
