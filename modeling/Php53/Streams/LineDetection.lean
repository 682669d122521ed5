import Php53.Streams.StreamRuns

/-!
# LineDetection — lines of a stream that has to find out how they end

`php_stream_locate_eol` looks at the bytes that are buffered, and what it finds there settles how
lines end from then on.  A "\r" that is the last byte buffered is taken for the end of a Macintosh
line, whatever comes behind it.
-/

namespace Php53.Streams

open Reasoning List

/-- How a file is read: up to `sizes k` bytes by the call number `k` of `read`, and at most as many
as there is room for. -/
structure ReadSchedule where
  chunkSize : ChunkSize
  sizes : ℕ → ℕ
  positive : ∀ k, 0 < sizes k

namespace PhpStream

variable {F : Type} {s t : PhpStream F} {bytes : List UInt8} {q : ℕ}
variable (filter : FilterOps F) {sizes : ℕ → ℕ} {rest : List UInt8} {p : List UInt8} {calls : ℕ}
  {b : UInt8} {mac : Bool}

/-- The lines that up to `calls` calls in grow mode return, until one returns `NULL`. -/
def readLines (sizes : ℕ → ℕ) : ℕ → PhpStream F → Option (List (List UInt8))
  | 0, _ => none
  | calls + 1, s =>
    match s.getLine filter sizes (s.lineRounds + 1) none with
    | none => none
    | some (none, _) => some []
    | some (some line, s) => (readLines sizes calls s).map (line :: ·)

def openDetecting (bytes : List UInt8) (chunkSize : ChunkSize)
    (noBuffer detectEol eolMac plainFiles : Bool) : PhpStream F :=
  { openStream bytes chunkSize noBuffer eolMac plainFiles with detectEol := detectEol }

def fileLines (σ : ReadSchedule) (bytes : List UInt8)
    (noBuffer detectEol eolMac plainFiles : Bool) : Option (List (List UInt8)) :=
  readLines filter σ.sizes (bytes.length + 1)
    (openDetecting bytes σ.chunkSize noBuffer detectEol eolMac plainFiles)

def NoEol (p : List UInt8) : Prop := ∀ b ∈ p, b ≠ 13 ∧ b ≠ 10

/-- The first line and the flags behind it, for a stream that has to detect how lines end.  For
"\r\n" two outcomes are possible. -/
inductive Detects (mac : Bool) : List UInt8 → List UInt8 → Bool → Bool → Prop
  | noEol {rest : List UInt8} (h : NoEol rest) : Detects mac rest rest true mac
  | unix {p : List UInt8} (h : NoEol p) (r : List UInt8) :
    Detects mac (p ++ 10 :: r) (p ++ [10]) false mac
  | mac {p : List UInt8} (h : NoEol p) (r : List UInt8) :
    Detects mac (p ++ 13 :: r) (p ++ [13]) false true
  | dos {p : List UInt8} (h : NoEol p) (r : List UInt8) :
    Detects mac (p ++ 13 :: 10 :: r) (p ++ [13, 10]) false mac

theorem NoEol.append {p' : List UInt8} (h : NoEol p) (h' : NoEol p') : NoEol (p ++ p') := by
  intro b hb
  cases mem_append.mp hb with
  | inl hb => exact h b hb
  | inr hb => exact h' b hb

theorem Detects.prepend {d m : Bool} {w line : List UInt8} (hw : NoEol w)
    (h : Detects mac rest line d m) : Detects mac (w ++ rest) (w ++ line) d m := by
  cases h with
  | noEol h => exact .noEol (hw.append h)
  | unix h r =>
    rw [← append_assoc, ← append_assoc]
    exact .unix (hw.append h) r
  | mac h r =>
    rw [← append_assoc, ← append_assoc]
    exact .mac (hw.append h) r
  | dos h r =>
    rw [← append_assoc, ← append_assoc]
    exact .dos (hw.append h) r

theorem Detects.isPrefix {d m : Bool} {line : List UInt8} (h : Detects mac rest line d m) :
    line <+: rest := by
  cases h with
  | noEol h => exact prefix_refl _
  | unix h r => exact ⟨r, by rw [append_assoc]; rfl⟩
  | mac h r => exact ⟨r, by rw [append_assoc]; rfl⟩
  | dos h r => exact ⟨r, by rw [append_assoc]; rfl⟩

theorem eol_cases (w : List UInt8) :
    NoEol w ∨ (∃ p r, NoEol p ∧ w = p ++ 10 :: r) ∨
      (∃ p r, NoEol p ∧ w = p ++ 13 :: r ∧ r.head? ≠ some 10) ∨
      (∃ p r, NoEol p ∧ w = p ++ 13 :: 10 :: r) := by
  induction w with
  | nil => exact Or.inl fun b hb => absurd hb not_mem_nil
  | cons b w ih =>
    have hnil : NoEol [] := fun b hb => absurd hb not_mem_nil
    by_cases hlf : b = 10
    · exact Or.inr (Or.inl ⟨[], w, hnil, by rw [hlf]; rfl⟩)
    by_cases hcr : b = 13
    · by_cases hnext : w.head? = some 10
      · have ⟨r, hr⟩ := List.head?_eq_some_iff.mp hnext
        exact Or.inr (Or.inr (Or.inr ⟨[], r, hnil, by rw [hcr, hr]; rfl⟩))
      · exact Or.inr (Or.inr (Or.inl ⟨[], w, hnil, by rw [hcr]; rfl, hnext⟩))
    have hcons : ∀ p, NoEol p → NoEol (b :: p) := by
      intro p hp c hc
      cases mem_cons.mp hc with
      | inl hc => exact hc ▸ ⟨hcr, hlf⟩
      | inr hc => exact hp c hc
    rcases ih with h | ⟨p, r, hp, hw⟩ | ⟨p, r, hp, hw, hr⟩ | ⟨p, r, hp, hw⟩
    · exact Or.inl (hcons w h)
    · exact Or.inr (Or.inl ⟨b :: p, r, hcons p hp, by rw [hw]; rfl⟩)
    · exact Or.inr (Or.inr (Or.inl ⟨b :: p, r, hcons p hp, by rw [hw]; rfl, hr⟩))
    · exact Or.inr (Or.inr (Or.inr ⟨b :: p, r, hcons p hp, by rw [hw]; rfl⟩))

theorem memchr_append {c : UInt8} (hp : c ∉ p) (r : List UInt8) :
    memchr c (p ++ r) = (memchr c r).map (p.length + ·) := by
  unfold memchr
  rw [List.findIdx?_append, List.findIdx?_eq_none_iff.mpr]
  · simp [Nat.add_comm]
  · intro b hb
    exact decide_eq_false fun heq => hp (heq ▸ hb)

theorem NoEol.not_mem (h : NoEol p) : 13 ∉ p ∧ 10 ∉ p :=
  ⟨fun hb => (h 13 hb).1 rfl, fun hb => (h 10 hb).2 rfl⟩

theorem memchr_cons_self (c : UInt8) (r : List UInt8) : memchr c (c :: r) = some 0 := by
  simp [memchr, List.findIdx?_cons]

theorem memchr_cons_ne {c : UInt8} (h : b ≠ c) (r : List UInt8) :
    memchr c (b :: r) = (memchr c r).map (1 + ·) := by
  simp [memchr, List.findIdx?_cons, h, Nat.add_comm]

section Locate

variable (hdetect : s.detectEol = true)
include hdetect

theorem locateEol_noEol (h : NoEol (s.peek s.avail)) : s.locateEol = (none, s) := by
  have hcr : memchr 13 (s.peek s.avail) = none := by
    have := memchr_append h.not_mem.1 []
    rwa [append_nil] at this
  have hlf : memchr 10 (s.peek s.avail) = none := by
    have := memchr_append h.not_mem.2 []
    rwa [append_nil] at this
  unfold locateEol
  simp only [hdetect, if_true, hcr, hlf]

theorem locateEol_unix {r : List UInt8} (hp : NoEol p) (h : s.peek s.avail = p ++ 10 :: r) :
    s.locateEol = (some p.length, { s with detectEol := false }) := by
  have hlf : memchr 10 (s.peek s.avail) = some p.length := by
    rw [h, memchr_append hp.not_mem.2, memchr_cons_self]
    rfl
  have hcr : memchr 13 (s.peek s.avail) = (memchr 13 r).map (p.length + 1 + ·) := by
    rw [h, memchr_append hp.not_mem.1, memchr_cons_ne (by decide), Option.map_map]
    congr 1
    funext k
    exact (Nat.add_assoc _ _ _).symm
  unfold locateEol
  simp only [hdetect, if_true, hcr, hlf]
  cases memchr 13 r with
  | none => rfl
  | some k =>
    show (if p.length ≠ p.length + 1 + k + 1 ∧ ¬ p.length < p.length + 1 + k then _ else _) = _
    rw [if_neg (by omega)]

theorem locateEol_mac {r : List UInt8} (hp : NoEol p) (h : s.peek s.avail = p ++ 13 :: r)
    (hr : r.head? ≠ some 10) :
    s.locateEol = (some p.length, { s with detectEol := false, eolMac := true }) := by
  have hcr : memchr 13 (s.peek s.avail) = some p.length := by
    rw [h, memchr_append hp.not_mem.1, memchr_cons_self]
    rfl
  have hlf : memchr 10 (s.peek s.avail) = (memchr 10 r).map (p.length + 1 + ·) := by
    rw [h, memchr_append hp.not_mem.2, memchr_cons_ne (by decide), Option.map_map]
    congr 1
    funext k
    exact (Nat.add_assoc _ _ _).symm
  unfold locateEol
  simp only [hdetect, if_true, hcr, hlf]
  cases hk : memchr 10 r with
  | none => rfl
  | some k =>
    have hpos : k ≠ 0 := by
      intro hzero
      cases r with
      | nil => exact absurd hk.symm (Option.some_ne_none k)
      | cons b r =>
        have hb : b ≠ 10 := fun heq => hr (congrArg some heq)
        rw [memchr_cons_ne hb, Option.map_eq_some_iff] at hk
        have ⟨j, _, hj⟩ := hk
        omega
    show (if p.length + 1 + k ≠ p.length + 1 ∧ ¬ p.length + 1 + k < p.length then _ else _) = _
    rw [if_pos (by omega)]

theorem locateEol_dos {r : List UInt8} (hp : NoEol p) (h : s.peek s.avail = p ++ 13 :: 10 :: r) :
    s.locateEol = (some (p.length + 1), { s with detectEol := false }) := by
  have hcr : memchr 13 (s.peek s.avail) = some p.length := by
    rw [h, memchr_append hp.not_mem.1, memchr_cons_self]
    rfl
  have hlf : memchr 10 (s.peek s.avail) = some (p.length + 1) := by
    rw [h, memchr_append hp.not_mem.2, memchr_cons_ne (by decide), memchr_cons_self]
    rfl
  unfold locateEol
  simp only [hdetect, if_true, hcr, hlf]
  rw [if_neg (by omega)]

end Locate

theorem Ahead.setMode (h : Ahead s bytes q) (d m : Bool) :
    Ahead { s with detectEol := d, eolMac := m } bytes q :=
  ⟨⟨h.fits.read_le, h.fits.write_le⟩, h.file, h.underlying, h.buffered, h.eof⟩

theorem Ahead.takeLine (h : Ahead s bytes q) {d m : Bool} {i : ℕ} {line r : List UInt8}
    (hwindow : s.peek s.avail = line ++ r) (hline : line.length = i + 1) :
    ReadOf { s with detectEol := d, eolMac := m }
        { s with detectEol := d, eolMac := m, position := s.position + (i + 1),
                 readpos := s.readpos + (i + 1) } bytes q line ∧
      s.peek (i + 1) = line := by
  have hlen := congrArg List.length hwindow
  rw [h.fits.length_peek (Nat.le_refl _), length_append] at hlen
  have hle : i + 1 ≤ s.avail := by omega
  have hpeek : s.peek (i + 1) = line := by
    rw [PhpStream.peek_eq hle, ← peek_avail, hwindow, ← hline, take_left]
  have hread := (h.setMode d m).readOf_peek (n := i + 1)
    (t := { s with detectEol := d, eolMac := m, position := s.position + (i + 1),
                   readpos := s.readpos + (i + 1) }) hle rfl rfl rfl rfl rfl ⟨rfl, rfl, rfl, rfl⟩
  exact ⟨hpeek ▸ hread.1, hpeek⟩

theorem Ahead.detectLoop (h : Ahead s bytes q) (hsizes : ∀ k, 0 < sizes k)
    (hfilters : s.readfilters = []) (hdetect : s.detectEol = true) (hsettled : Settled s bytes q)
    (fuel : ℕ) (hfuel : s.lineRounds < fuel) :
    ∃ line t d m, PhpStream.getLineLoop filter sizes fuel none s = some (line, t) ∧
      Detects s.eolMac (bytes.drop q) line d m ∧
      ReadOf { s with detectEol := d, eolMac := m } t bytes q line := by
  induction fuel generalizing s q with
  | zero => exact absurd hfuel (Nat.not_lt_zero _)
  | succ fuel ih =>
    rw [PhpStream.getLineLoop]
    unfold lineRounds at hfuel
    by_cases havail : 0 < s.avail
    · rw [if_pos havail] at hfuel ⊢
      have hrest : bytes.drop q = s.peek s.avail ++ bytes.drop (q + s.avail) := by
        rw [h.peek_eq (Nat.le_refl _), ← drop_drop, take_append_drop]
      rcases eol_cases (s.peek s.avail) with hw | ⟨p, r, hp, hw⟩ | ⟨p, r, hp, hw, hr⟩ | ⟨p, r, hp, hw⟩
      · -- the window is part of the line
        rw [locateEol_noEol hdetect hw]
        obtain ⟨hread, hlen, havail'⟩ := h.readOf_peek (n := s.avail)
          (t := { s with position := s.position + s.avail, readpos := s.readpos + s.avail })
          (Nat.le_refl _) rfl rfl rfl rfl rfl ⟨rfl, rfl, rfl, rfl⟩
        obtain ⟨line, t, d, m, hloop, hdetects, hread'⟩ := ih hread.ahead hfilters hdetect
          (hread.settled hsettled) (by
            unfold lineRounds
            rw [havail', if_neg (by omega)]
            show 2 * (s.file.bytes.length - s.file.pos) + 0 < fuel
            omega)
        rw [hlen] at hdetects
        refine ⟨s.peek s.avail ++ line, t, d, m, ?_, hrest ▸ hdetects.prepend hw, ?_⟩
        · show (PhpStream.getLineLoop filter sizes fuel none _).map _ = _
          rw [hloop]
          rfl
        · have hmode : ReadOf { s with detectEol := d, eolMac := m }
              { s with detectEol := d, eolMac := m, position := s.position + s.avail,
                       readpos := s.readpos + s.avail } bytes q (s.peek s.avail) :=
            ⟨hread.data_eq, hread.ahead.setMode d m, ⟨rfl, rfl, rfl, rfl⟩, hread.settled⟩
          exact hmode.trans hread'
      · rw [locateEol_unix hdetect hp hw, hrest, hw]
        obtain ⟨hread, hpeek⟩ := @Ahead.takeLine _ _ _ _ h false s.eolMac p.length (p ++ [10]) r
          (by rw [hw, append_assoc]; rfl) (by simp)
        refine ⟨_, _, false, s.eolMac, congrArg (fun l => some (l, _)) hpeek, ?_, hread⟩
        rw [append_assoc]
        exact .unix hp _
      · rw [locateEol_mac hdetect hp hw hr, hrest, hw]
        obtain ⟨hread, hpeek⟩ := @Ahead.takeLine _ _ _ _ h false true p.length (p ++ [13]) r
          (by rw [hw, append_assoc]; rfl) (by simp)
        refine ⟨_, _, false, true, congrArg (fun l => some (l, _)) hpeek, ?_, hread⟩
        rw [append_assoc]
        exact .mac hp _
      · rw [locateEol_dos hdetect hp hw, hrest, hw]
        obtain ⟨hread, hpeek⟩ := @Ahead.takeLine _ _ _ _ h false s.eolMac (p.length + 1)
          (p ++ [13, 10]) r (by rw [hw, append_assoc]; rfl) (by simp)
        refine ⟨_, _, false, s.eolMac, congrArg (fun l => some (l, _)) hpeek, ?_, hread⟩
        rw [append_assoc]
        exact .dos hp _
    · rw [if_neg havail] at hfuel ⊢
      have hempty : s.avail = 0 := by omega
      have hunder := h.underlying
      have hnone : bytes.length ≤ q → Detects s.eolMac (bytes.drop q) [] true s.eolMac := by
        intro hend
        rw [drop_eq_nil_of_le hend]
        exact .noEol fun b hb => absurd hb not_mem_nil
      by_cases heof : s.eof = true
      · rw [if_pos heof]
        refine ⟨[], s, true, s.eolMac, rfl, hnone (hsettled heof), ?_⟩
        rw [← hdetect]
        exact ReadOf.refl h
      · rw [if_neg heof]
        have hchunk := s.chunkSize.2.1
        obtain ⟨t, hfill, hahead, hmode, hsettled', hend, _⟩ :=
          h.refill filter hsizes hfilters hempty (show 0 < s.lineRequest none from hchunk)
        rw [hfill]
        by_cases hstop : t.avail = 0
        · refine ⟨[], t, true, s.eolMac, if_pos hstop, hnone (hend hstop), rfl, hahead, ?_, ?_⟩
          · exact ⟨hmode.readfilters, hmode.detectEol.trans hdetect, hmode.eolMac, hmode.seekable⟩
          · exact fun _ => hsettled'
        · have hbehind := hahead.underlying
          have hle := hahead.avail_le
          obtain ⟨line, u, d, m, hloop, hdetects, hread⟩ := ih hahead
            (hmode.readfilters.trans hfilters) (hmode.detectEol.trans hdetect) hsettled' (by
              unfold lineRounds
              rw [if_pos (by omega), hahead.file]
              rw [h.file] at hfuel
              omega)
          rw [hmode.eolMac] at hdetects
          refine ⟨line, u, d, m, (if_neg hstop).trans hloop, hdetects, hread.data_eq, hread.ahead,
            ?_, fun _ => hread.settled hsettled'⟩
          have hu := hread.mode
          exact ⟨hu.readfilters.trans hmode.readfilters, hu.detectEol, hu.eolMac,
            hu.seekable.trans hmode.seekable⟩

/-- The lines of a text, at most `n` of them. -/
def linesOf (eol : UInt8) : ℕ → List UInt8 → List (List UInt8)
  | 0, _ => []
  | n + 1, rest =>
    if rest = [] then []
    else lineOf eol none rest :: linesOf eol n (rest.drop (lineOf eol none rest).length)

theorem lineOf_isPrefix (eol : UInt8) (rest : List UInt8) : lineOf eol none rest <+: rest := by
  unfold lineOf
  cases search [eol] rest with
  | none => exact prefix_refl rest
  | some i => exact List.take_prefix (i + 1) rest

theorem lineOf_eq_nil_iff {eol : UInt8} :
    lineOf eol none rest = [] ↔ rest = [] := by
  constructor
  · intro h
    unfold lineOf at h
    cases hs : search [eol] rest with
    | none =>
      rw [hs] at h
      exact h
    | some i =>
      rw [hs] at h
      exact (take_eq_nil_iff.mp h).resolve_left (Nat.succ_ne_zero i)
  · intro h
    exact prefix_nil.mp (h ▸ lineOf_isPrefix eol rest)

theorem linesOf_flatten (eol : UInt8) {n : ℕ} (hn : rest.length ≤ n) :
    (linesOf eol n rest).flatten = rest := by
  induction n generalizing rest with
  | zero => exact (eq_nil_of_length_eq_zero (by omega)).symm
  | succ n ih =>
    unfold linesOf
    by_cases hrest : rest = []
    · rw [if_pos hrest, hrest]
      rfl
    · have hline : 0 < (lineOf eol none rest).length :=
        length_pos_of_ne_nil fun h => hrest (lineOf_eq_nil_iff.mp h)
      rw [if_neg hrest, flatten_cons, ih (by rw [length_drop]; omega)]
      exact prefix_iff_eq_append.mp (lineOf_isPrefix eol rest)

theorem Ahead.readLines_plain (h : Ahead s bytes q) (hsizes : ∀ k, 0 < sizes k)
    (hfilters : s.readfilters = []) (hdetect : s.detectEol = false) (hsettled : Settled s bytes q)
    (hcalls : bytes.length - q < calls) :
    readLines filter sizes calls s = some (linesOf s.eolByte calls (bytes.drop q)) := by
  induction calls generalizing s q with
  | zero => exact absurd hcalls (Nat.not_lt_zero _)
  | succ calls ih =>
    have ⟨t, hline, hread, _⟩ :=
      h.getLine filter hsizes hfilters hdetect hsettled none (Nat.lt_succ_self s.lineRounds)
    unfold readLines linesOf
    rw [hline]
    by_cases hrest : bytes.drop q = []
    · rw [if_pos (lineOf_eq_nil_iff.mpr hrest), if_pos hrest]
    · have hne : lineOf s.eolByte none (bytes.drop q) ≠ [] := fun h => hrest (lineOf_eq_nil_iff.mp h)
      have hpos := length_pos_of_ne_nil hne
      have hin : q < bytes.length := by
        by_contra hge
        exact hrest (drop_eq_nil_of_le (by omega))
      rw [if_neg hne, if_neg hrest]
      show (readLines filter sizes calls t).map _ = _
      rw [ih hread.ahead (hread.mode.readfilters.trans hfilters)
        (hread.mode.detectEol.trans hdetect) (hread.settled hsettled) (by omega),
        hread.mode.eolByte, drop_drop]
      rfl

theorem Detects.line_ne_nil {d m : Bool} {line : List UInt8} (h : Detects mac rest line d m)
    (hrest : rest ≠ []) : line ≠ [] := by
  cases h with
  | noEol h => exact hrest
  | unix h r => simp
  | mac h r => simp
  | dos h r => simp

theorem Detects.eq_of_detecting {m : Bool} {line : List UInt8}
    (h : Detects mac rest line true m) : line = rest := by
  cases h with
  | noEol h => rfl

def detectedLines (calls : ℕ) (rest line : List UInt8) (d m : Bool) : List (List UInt8) :=
  if rest = [] then []
  else line :: if d then [] else linesOf (if m then 13 else 10) calls (rest.drop line.length)

theorem readLines_succ {line : List UInt8}
    (hloop : PhpStream.getLineLoop filter sizes (s.lineRounds + 1) none s = some (line, t))
    (calls : ℕ) : readLines filter sizes (calls + 1) s =
      if line = [] then some [] else (readLines filter sizes calls t).map (line :: ·) := by
  have hcall : s.getLine filter sizes (s.lineRounds + 1) none =
      some (if line = [] then none else some line, t) := by
    unfold PhpStream.getLine
    rw [if_neg (by decide), hloop]
    rfl
  rw [readLines, hcall]
  by_cases hline : line = []
  · rw [if_pos hline, if_pos hline]
  · rw [if_neg hline, if_neg hline]

theorem Ahead.readLines_nil (h : Ahead s bytes q) (hsizes : ∀ k, 0 < sizes k)
    (hfilters : s.readfilters = []) (hdetect : s.detectEol = true) (hsettled : Settled s bytes q)
    (hend : bytes.drop q = []) (calls : ℕ) : readLines filter sizes (calls + 1) s = some [] := by
  have ⟨line, t, d, m, hloop, hdetects, _⟩ := h.detectLoop filter hsizes hfilters hdetect hsettled
    (s.lineRounds + 1) (Nat.lt_succ_self _)
  rw [readLines_succ filter hloop, if_pos (prefix_nil.mp (hend ▸ hdetects.isPrefix))]

theorem Ahead.readLines_detect (h : Ahead s bytes q) (hsizes : ∀ k, 0 < sizes k)
    (hfilters : s.readfilters = []) (hdetect : s.detectEol = true) (hsettled : Settled s bytes q)
    (hcalls : bytes.length - q ≤ calls) :
    ∃ line d m, Detects s.eolMac (bytes.drop q) line d m ∧
      readLines filter sizes (calls + 1) s =
        some (detectedLines calls (bytes.drop q) line d m) := by
  have ⟨line, t, d, m, hloop, hdetects, hread⟩ := h.detectLoop filter hsizes hfilters hdetect
    hsettled (s.lineRounds + 1) (Nat.lt_succ_self _)
  refine ⟨line, d, m, hdetects, ?_⟩
  by_cases hrest : bytes.drop q = []
  · rw [h.readLines_nil filter hsizes hfilters hdetect hsettled hrest, detectedLines, if_pos hrest]
  · have hne := hdetects.line_ne_nil hrest
    have hpos := length_pos_of_ne_nil hne
    have hin : q < bytes.length := by
      by_contra hge
      exact hrest (drop_eq_nil_of_le (by omega))
    have hfilters' : t.readfilters = [] := hread.mode.readfilters.trans hfilters
    have hsettled' : Settled t bytes (q + line.length) := hread.settled hsettled
    have hbehind : readLines filter sizes calls t =
        some (if d then [] else
          linesOf (if m then 13 else 10) calls ((bytes.drop q).drop line.length)) := by
      cases d with
      | true =>
        obtain ⟨calls, rfl⟩ : ∃ c, calls = c + 1 := ⟨calls - 1, by omega⟩
        apply hread.ahead.readLines_nil filter hsizes hfilters' hread.mode.detectEol hsettled'
        rw [hdetects.eq_of_detecting, ← drop_drop, drop_length]
      | false =>
        rw [hread.ahead.readLines_plain filter hsizes hfilters' hread.mode.detectEol hsettled'
          (by omega), drop_drop]
        unfold PhpStream.eolByte
        rw [hread.mode.eolMac]
        rfl
    rw [readLines_succ filter hloop, if_neg hne, hbehind, detectedLines, if_neg hrest]
    rfl

def CrLfFirst (rest : List UInt8) : Prop := ∃ p r, NoEol p ∧ rest = p ++ 13 :: 10 :: r

theorem eol_unique {p' r r' : List UInt8} {c : UInt8} (hp : NoEol p) (hp' : NoEol p')
    (hb : b = 13 ∨ b = 10) (hc : c = 13 ∨ c = 10) (h : p ++ b :: r = p' ++ c :: r') :
    p = p' ∧ b = c ∧ r = r' := by
  induction p generalizing p' with
  | nil =>
    cases p' with
    | nil =>
      have ⟨h1, h2⟩ := List.cons.inj h
      exact ⟨rfl, h1, h2⟩
    | cons x p' =>
      have ⟨h1, _⟩ := List.cons.inj h
      have hx := hp' x (mem_cons_self ..)
      rw [← h1] at hx
      exact absurd hb (not_or.mpr hx)
  | cons x p ih =>
    cases p' with
    | nil =>
      have ⟨h1, _⟩ := List.cons.inj h
      have hx := hp x (mem_cons_self ..)
      rw [h1] at hx
      exact absurd hc (not_or.mpr hx)
    | cons y p' =>
      have ⟨h1, h2⟩ := List.cons.inj h
      have ⟨h3, h4, h5⟩ := ih (fun d hd => hp d (mem_cons_of_mem x hd))
        (fun d hd => hp' d (mem_cons_of_mem y hd)) h2
      exact ⟨by rw [h1, h3], h4, h5⟩

theorem NoEol.not_append {r : List UInt8} (hb : b = 13 ∨ b = 10) :
    ¬ NoEol (p ++ b :: r) := by
  intro h
  have hbyte := h b (mem_append_right p (mem_cons_self ..))
  exact absurd hb (not_or.mpr hbyte)

theorem Detects.cases_eq {d m : Bool} {line : List UInt8} (h : Detects mac rest line d m)
    (hrest : ¬ CrLfFirst rest) :
    (NoEol rest ∧ line = rest ∧ d = true ∧ m = mac) ∨
      (∃ p r, NoEol p ∧ rest = p ++ 10 :: r ∧ line = p ++ [10] ∧ d = false ∧ m = mac) ∨
      (∃ p r, NoEol p ∧ rest = p ++ 13 :: r ∧ line = p ++ [13] ∧ d = false ∧ m = true) := by
  cases h with
  | noEol h => exact Or.inl ⟨h, rfl, rfl, rfl⟩
  | unix h r => exact Or.inr (Or.inl ⟨_, r, h, rfl, rfl, rfl, rfl⟩)
  | mac h r => exact Or.inr (Or.inr ⟨_, r, h, rfl, rfl, rfl, rfl⟩)
  | dos h r => exact absurd ⟨_, r, h, rfl⟩ hrest

theorem Detects.unique {d d' m m' : Bool} {line line' : List UInt8} (h : Detects mac rest line d m)
    (h' : Detects mac rest line' d' m')
    (hrest : ¬ CrLfFirst rest) : line = line' ∧ d = d' ∧ m = m' := by
  rcases h.cases_eq hrest with ⟨hno, rfl, rfl, rfl⟩ | ⟨p, r, hp, hr, rfl, rfl, rfl⟩ |
      ⟨p, r, hp, hr, rfl, rfl, rfl⟩ <;>
    rcases h'.cases_eq hrest with ⟨hno', rfl, rfl, rfl⟩ | ⟨p', r', hp', hr', rfl, rfl, rfl⟩ |
      ⟨p', r', hp', hr', rfl, rfl, rfl⟩
  · exact ⟨rfl, rfl, rfl⟩
  · exact absurd (hr' ▸ hno) (NoEol.not_append (Or.inr rfl))
  · exact absurd (hr' ▸ hno) (NoEol.not_append (Or.inl rfl))
  · exact absurd (hr ▸ hno') (NoEol.not_append (Or.inr rfl))
  · rw [(eol_unique hp hp' (Or.inr rfl) (Or.inr rfl) (hr.symm.trans hr')).1]
    exact ⟨rfl, rfl, rfl⟩
  · have heq := (eol_unique hp hp' (Or.inr rfl) (Or.inl rfl) (hr.symm.trans hr')).2.1
    exact absurd heq (by decide)
  · exact absurd (hr ▸ hno') (NoEol.not_append (Or.inl rfl))
  · have heq := (eol_unique hp hp' (Or.inl rfl) (Or.inr rfl) (hr.symm.trans hr')).2.1
    exact absurd heq (by decide)
  · rw [(eol_unique hp hp' (Or.inl rfl) (Or.inl rfl) (hr.symm.trans hr')).1]
    exact ⟨rfl, rfl, rfl⟩

theorem detectedLines_flatten {d m : Bool} {line : List UInt8} (h : Detects mac rest line d m)
    (hcalls : rest.length ≤ calls) :
    (detectedLines calls rest line d m).flatten = rest := by
  unfold detectedLines
  by_cases hrest : rest = []
  · rw [if_pos hrest, hrest]
    rfl
  · rw [if_neg hrest]
    cases d with
    | true =>
      rw [h.eq_of_detecting, if_pos rfl]
      exact append_nil rest
    | false =>
      rw [if_neg (by decide), flatten_cons,
        linesOf_flatten _ (by rw [length_drop]; omega)]
      exact prefix_iff_eq_append.mp h.isPrefix

theorem ahead_openDetecting (bytes : List UInt8) (chunkSize : ChunkSize)
    (noBuffer detectEol eolMac plainFiles : Bool) :
    Ahead (openDetecting bytes chunkSize noBuffer detectEol eolMac plainFiles : PhpStream F)
      bytes 0 :=
  Ahead.reset rfl rfl rfl rfl fun h => absurd h Bool.false_ne_true

def ChunkingIndependent (bytes : List UInt8) (noBuffer detectEol eolMac plainFiles : Bool) : Prop :=
  ∀ σ τ : ReadSchedule, ∃ lines,
    fileLines filter σ bytes noBuffer detectEol eolMac plainFiles = some lines ∧
      fileLines filter τ bytes noBuffer detectEol eolMac plainFiles = some lines ∧
      lines.flatten = bytes

theorem chunkingIndependent_of (bytes : List UInt8) (noBuffer eolMac plainFiles : Bool)
    {detectEol : Bool} (hsafe : detectEol = true → ¬ CrLfFirst bytes) :
    ChunkingIndependent filter bytes noBuffer detectEol eolMac plainFiles := by
  intro σ τ
  have hσ := @ahead_openDetecting F bytes σ.chunkSize noBuffer detectEol eolMac plainFiles
  have hτ := @ahead_openDetecting F bytes τ.chunkSize noBuffer detectEol eolMac plainFiles
  have hopen : ∀ chunkSize, Settled
      (openDetecting bytes chunkSize noBuffer detectEol eolMac plainFiles : PhpStream F) bytes 0 :=
    fun _ h => absurd h Bool.false_ne_true
  cases detectEol with
  | false =>
    exact ⟨_, hσ.readLines_plain filter σ.positive rfl rfl (hopen _) (by omega),
      hτ.readLines_plain filter τ.positive rfl rfl (hopen _) (by omega),
      linesOf_flatten _ (Nat.le_succ bytes.length)⟩
  | true =>
    have ⟨line, d, m, hdetects, hlines⟩ :=
      hσ.readLines_detect filter σ.positive rfl rfl (hopen _) (Nat.sub_le bytes.length 0)
    have ⟨line', d', m', hdetects', hlines'⟩ :=
      hτ.readLines_detect filter τ.positive rfl rfl (hopen _) (Nat.sub_le bytes.length 0)
    obtain ⟨rfl, rfl, rfl⟩ := hdetects.unique hdetects' (hsafe rfl)
    exact ⟨_, hlines, hlines', detectedLines_flatten hdetects (Nat.le_refl _)⟩

/-- Nothing is buffered, and the next read is the one of number `k`. -/
structure Waiting (s : PhpStream F) (bytes : List UInt8) (q k : ℕ) : Prop where
  ahead : Ahead s bytes q
  empty : s.avail = 0
  eof : s.eof = false
  readfilters : s.readfilters = []
  detectEol : s.detectEol = true
  reads : s.file.reads = k
  room : 2 ≤ s.chunkSize.val

/-- The next read brings `w`. -/
structure Refilled (s : PhpStream F) (bytes : List UInt8) (q k : ℕ) (w : List UInt8) : Prop where
  ahead : Ahead s bytes q
  window : s.peek s.avail = w
  nonempty : 0 < s.avail
  eof : s.eof = false
  readfilters : s.readfilters = []
  detectEol : s.detectEol = true
  reads : s.file.reads = k + 1
  room : 2 ≤ s.chunkSize.val

section

variable {k : ℕ} (h : Waiting s bytes q k) (hsizes : ∀ k, 0 < sizes k)

include h hsizes

theorem Waiting.refill {w r : List UInt8} (hw : w ≠ []) (hsize : sizes k = w.length)
    (hle : w.length ≤ 2) (hrest : bytes.drop q = w ++ r) (fuel : ℕ) :
    ∃ t, Refilled t bytes q k w ∧
      PhpStream.getLineLoop filter sizes (fuel + 1) none s =
        PhpStream.getLineLoop filter sizes fuel none t := by
  have hroom := h.room
  have hpos : s.file.pos = q := h.ahead.underlying.trans (by rw [h.empty, Nat.add_zero])
  have hless : s.avail < s.lineRequest none := by
    show s.avail < s.chunkSize.val
    rw [h.empty]
    omega
  have hlen : w.length ≤ (bytes.drop q).length := by
    rw [hrest, length_append]
    omega
  have ⟨t, _, hfill, hahead, _, hteof, _, hmode, _⟩ :=
    h.ahead.fill filter hsizes h.readfilters hless
  have ⟨_, _, _, count, hcount, _, _, _, hunfiltered⟩ := h.ahead.fits.fillUnfiltered sizes hless
  have ht : t = s.fillUnfiltered sizes (s.lineRequest none) := by
    rw [← hfill, fillReadBuffer, if_pos h.readfilters]
  rw [hunfiltered] at ht
  have hreads : t.file.reads = k + 1 := by
    rw [ht, ← h.reads]
    rfl
  have hchunk : t.chunkSize = s.chunkSize := by rw [ht]
  have havail : t.avail = w.length := by
    have hunder := hahead.underlying
    have hmoved : t.file.pos = s.file.pos + (s.file.read sizes count).1.length := by
      rw [ht]
      rfl
    have hdata : (s.file.read sizes count).1.length = w.length := by
      unfold File.read
      rw [length_take, h.ahead.file, hpos, h.reads, hsize]
      omega
    omega
  have hwindow : t.peek t.avail = w := by
    rw [hahead.peek_eq (Nat.le_refl _), havail, hrest, take_left]
  have hnonempty : 0 < t.avail := havail ▸ length_pos_of_ne_nil hw
  have heof : t.eof = false := by
    rw [hteof, hpos, decide_eq_false_iff_not]
    rw [length_drop] at hlen
    have hwpos := length_pos_of_ne_nil hw
    omega
  refine ⟨t, ⟨hahead, hwindow, hnonempty, heof, hmode.readfilters.trans h.readfilters,
    hmode.detectEol.trans h.detectEol, hreads, hchunk ▸ hroom⟩, ?_⟩
  have hempty : ¬ 0 < s.avail := by rw [h.empty]; exact Nat.lt_irrefl 0
  rw [PhpStream.getLineLoop, if_neg hempty, if_neg (by rw [h.eof]; exact Bool.false_ne_true), hfill]
  exact if_neg (by omega)

theorem Waiting.skip (hsize : sizes k = 1) {r : List UInt8} (hb : b ≠ 13 ∧ b ≠ 10)
    (hrest : bytes.drop q = b :: r) (fuel : ℕ) :
    ∃ t, Waiting t bytes (q + 1) (k + 1) ∧
      PhpStream.getLineLoop filter sizes (fuel + 2) none s =
        (PhpStream.getLineLoop filter sizes fuel none t).map fun x => (b :: x.1, x.2) := by
  have ⟨t, ht, hloop⟩ := h.refill filter hsizes (cons_ne_nil b []) hsize (by simp) hrest
    (fuel + 1)
  have hno : NoEol (t.peek t.avail) := by
    rw [ht.window]
    intro c hc
    exact mem_singleton.mp hc ▸ hb
  have hone : t.avail = 1 := by
    rw [← ht.ahead.fits.length_peek (Nat.le_refl t.avail), ht.window]
    rfl
  have ⟨hahead, havail⟩ := ht.ahead.take (n := t.avail)
    (t := { t with position := t.position + t.avail, readpos := t.readpos + t.avail })
    (Nat.le_refl _) rfl rfl rfl rfl id
  rw [hone] at hahead havail
  refine ⟨_, ⟨hahead, havail, ht.eof, ht.readfilters, ht.detectEol, ht.reads, ht.room⟩, ?_⟩
  · rw [hloop, PhpStream.getLineLoop, if_pos ht.nonempty, locateEol_noEol ht.detectEol hno]
    show (PhpStream.getLineLoop filter sizes fuel none _).map
      (fun x => (t.peek t.avail ++ x.1, x.2)) = _
    rw [ht.window, hone]
    rfl

theorem Waiting.skip_all {r : List UInt8} (hones : ∀ j, j < p.length → sizes (k + j) = 1)
    (hp : NoEol p) (hrest : bytes.drop q = p ++ r) (fuel : ℕ) :
    ∃ t, Waiting t bytes (q + p.length) (k + p.length) ∧
      PhpStream.getLineLoop filter sizes (fuel + 2 * p.length) none s =
        (PhpStream.getLineLoop filter sizes fuel none t).map fun x => (p ++ x.1, x.2) := by
  induction p generalizing s q k with
  | nil =>
    refine ⟨s, h, ?_⟩
    show _ = (PhpStream.getLineLoop filter sizes fuel none s).map id
    rw [Option.map_id]
    rfl
  | cons b p ih =>
    have ⟨t, hwait, hloop⟩ := h.skip filter hsizes (hones 0 (Nat.succ_pos _))
      (hp b (mem_cons_self ..)) hrest (fuel + 2 * p.length)
    have hrest' : bytes.drop (q + 1) = p ++ r := by
      rw [← drop_drop, hrest]
      rfl
    have ⟨u, hwait', hloop'⟩ := ih hwait
      (fun j hj => by rw [Nat.add_assoc, Nat.add_comm 1 j]; exact hones (j + 1) (Nat.succ_lt_succ hj))
      (fun c hc => hp c (mem_cons_of_mem b hc)) hrest'
    refine ⟨u, ?_, ?_⟩
    · rw [length_cons, Nat.add_comm p.length 1, ← Nat.add_assoc, ← Nat.add_assoc]
      exact hwait'
    · rw [length_cons, show fuel + 2 * (p.length + 1) = fuel + 2 * p.length + 2 by omega, hloop,
        hloop', Option.map_map]
      rfl

theorem Waiting.lineEnd {w r : List UInt8} (hw : w = [13] ∨ w = [13, 10])
    (hsize : sizes k = w.length) (hrest : bytes.drop q = w ++ r) (fuel : ℕ) :
    ∃ t, PhpStream.getLineLoop filter sizes (fuel + 2) none s = some (w, t) := by
  have hno : NoEol [] := fun b hb => absurd hb not_mem_nil
  rcases hw with rfl | rfl
  · obtain ⟨t, ht, hloop⟩ := h.refill filter hsizes (by simp) hsize (by simp) hrest (fuel + 1)
    have hpeek := (@Ahead.takeLine _ t _ _ ht.ahead false true 0 [13] [] ht.window rfl).2
    rw [hloop, PhpStream.getLineLoop, if_pos ht.nonempty,
      locateEol_mac ht.detectEol hno ht.window (by simp)]
    exact ⟨_, congrArg (fun l => some (l, _)) hpeek⟩
  · obtain ⟨t, ht, hloop⟩ := h.refill filter hsizes (by simp) hsize (by simp) hrest (fuel + 1)
    have hpeek := (@Ahead.takeLine _ t _ _ ht.ahead false false 1 [13, 10] [] ht.window rfl).2
    rw [hloop, PhpStream.getLineLoop, if_pos ht.nonempty,
      locateEol_dos ht.detectEol hno ht.window]
    exact ⟨_, congrArg (fun l => some (l, _)) hpeek⟩

end

theorem chunkSize_8192 : 0 < 8192 ∧ 8192 < 2 ^ 31 := by decide

/-- One byte per read up to the first line end, and `n` bytes from then on. -/
def cutAt (k n : ℕ) (hn : 0 < n) : ReadSchedule where
  chunkSize := ⟨8192, chunkSize_8192⟩
  sizes := fun j => if j < k then 1 else n
  positive := fun j => by split <;> omega

theorem fileLines_head {r w : List UInt8} (hp : NoEol p) (hw : w = [13] ∨ w = [13, 10])
    (hn : 0 < w.length) (noBuffer eolMac plainFiles : Bool) {lines : List (List UInt8)}
    (h : fileLines filter (cutAt p.length w.length hn) (p ++ (w ++ r)) noBuffer true eolMac
      plainFiles = some lines) : lines.head? = some (p ++ w) := by
  have hsizes := (cutAt p.length w.length hn).positive
  have hopen : Waiting (openDetecting (p ++ (w ++ r)) (cutAt p.length w.length hn).chunkSize
      noBuffer true eolMac plainFiles : PhpStream F) (p ++ (w ++ r)) 0 0 :=
    ⟨ahead_openDetecting _ _ _ _ _ _, rfl, rfl, rfl, rfl, rfl, show 2 ≤ 8192 by omega⟩
  have hones : ∀ j, j < p.length → (cutAt p.length w.length hn).sizes (0 + j) = 1 := by
    intro j hj
    rw [Nat.zero_add]
    exact if_pos hj
  have hlast : (cutAt p.length w.length hn).sizes (0 + p.length) = w.length := by
    rw [Nat.zero_add]
    exact if_neg (Nat.lt_irrefl _)
  have hrounds : (openDetecting (p ++ (w ++ r)) (cutAt p.length w.length hn).chunkSize
      noBuffer true eolMac plainFiles : PhpStream F).lineRounds + 1 =
        2 * (w.length + r.length) - 1 + 2 + 2 * p.length := by
    show 2 * ((p ++ (w ++ r)).length - 0) + 0 + 1 = _
    rw [length_append, length_append]
    omega
  have ⟨t, hwait, hskip⟩ := hopen.skip_all filter hsizes hones hp rfl
    (2 * (w.length + r.length) - 1 + 2)
  have ⟨u, hline⟩ := hwait.lineEnd filter hsizes hw hlast
    (by rw [Nat.zero_add, drop_left]) (2 * (w.length + r.length) - 1)
  rw [hline, ← hrounds] at hskip
  have hne : p ++ w ≠ [] := by
    rcases hw with rfl | rfl <;> simp
  unfold fileLines at h
  rw [readLines_succ filter hskip, if_neg hne, Option.map_eq_some_iff] at h
  have ⟨rest, _, hlines⟩ := h
  rw [← hlines]
  rfl

theorem not_chunkingIndependent {bytes : List UInt8} (h : CrLfFirst bytes)
    (noBuffer eolMac plainFiles : Bool) :
    ¬ ChunkingIndependent filter bytes noBuffer true eolMac plainFiles := by
  intro hall
  have ⟨p, r, hp, hbytes⟩ := h
  subst hbytes
  have ⟨lines, hmac, hdos, _⟩ := hall (cutAt p.length 1 (by decide)) (cutAt p.length 2 (by decide))
  have h1 := @fileLines_head F filter p (10 :: r) [13] hp (Or.inl rfl) (by decide) _ _ _ _ hmac
  have h2 := @fileLines_head F filter p r [13, 10] hp (Or.inr rfl) (by decide) _ _ _ _ hdos
  rw [h1] at h2
  have heq := append_cancel_left (Option.some.inj h2)
  exact absurd heq (by decide)

/-- The lines of a file do not depend on how it is read, exactly if it is not read with detection
of line ends or its first line end is not "\r\n". -/
theorem line_reading_independent_iff (bytes : List UInt8)
    (noBuffer detectEol eolMac plainFiles : Bool) :
    ChunkingIndependent filter bytes noBuffer detectEol eolMac plainFiles ↔
      ¬ (detectEol = true ∧ CrLfFirst bytes) := by
  constructor
  · rintro h ⟨rfl, hfirst⟩
    exact not_chunkingIndependent filter hfirst noBuffer eolMac plainFiles h
  · intro h
    exact chunkingIndependent_of filter bytes noBuffer eolMac plainFiles fun hd hf => h ⟨hd, hf⟩

/-- "a\r\nb\n": one read ends behind the "\r", or behind the "\n". -/
theorem line_reading_depends :
    ¬ ChunkingIndependent passFilter [97, 13, 10, 98, 10] false true false true :=
  not_chunkingIndependent passFilter ⟨[97], [98, 10], by simp [NoEol], rfl⟩ false false true

end PhpStream

end Php53.Streams
