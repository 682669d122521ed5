import Php53.Streams.Refinement

/-!
# StreamRuns — every sequence of calls on a stream

`Coupled` relates the stream to the unbuffered file after each call.  It is kept by every call but a
seek that fails while something is buffered: the buffer is dropped, and the file stays where the
stream has read ahead to.
-/

namespace Php53.Streams

namespace PhpStream

variable {F : Type} {s t : PhpStream F} {r : Reference}

structure Coupled (s : PhpStream F) (r : Reference) : Prop where
  bytes : s.file.bytes = r.bytes
  position : s.position = r.pos
  underlying : s.file.pos = s.position + (s.writepos - s.readpos)
  read_le : s.readpos ≤ s.writepos
  write_le : s.writepos ≤ s.readbuf.length
  buffered : window s.readbuf s.readpos s.writepos = r.rest.take (s.writepos - s.readpos)

/-- A stream without filters over a file that can be seeked in, which looks for one kind of line
    end. -/
structure PlainMode (s : PhpStream F) : Prop where
  readfilters : s.readfilters = []
  detectEol : s.detectEol = false
  seekable : s.seekable = true

theorem PlainMode.same (h : PlainMode s) (hmode : SameMode s t) : PlainMode t :=
  ⟨hmode.readfilters.trans h.readfilters, hmode.detectEol.trans h.detectEol,
    hmode.seekable.trans h.seekable⟩

theorem Coupled.ahead (h : Coupled s r) (hsettled : Settled s r.bytes r.pos) :
    Ahead s r.bytes r.pos := by
  have hunder := h.underlying
  have hposition := h.position
  refine ⟨⟨h.read_le, h.write_le⟩, h.bytes, ?_, h.buffered, fun heof => ?_⟩
  · unfold avail
    omega
  · have hend := hsettled heof
    omega

theorem Ahead.coupled {bytes : List UInt8} {q : Nat} (h : Ahead s bytes q)
    (hposition : s.position = q) : Coupled s ⟨bytes, q⟩ :=
  ⟨h.file, hposition, hposition.symm ▸ h.underlying, h.fits.read_le, h.fits.write_le, h.buffered⟩

variable (filter : FilterOps F) (sizes : Nat → Nat)

def rounds (s : PhpStream F) : StreamOp → Nat
  | .getLine _ => s.lineRounds + 1
  | .getRecord maxlen _ => maxlen + 1
  | _ => 0

def SeekOk (s : PhpStream F) : StreamOp → Prop
  | .seek offset whence => lseek s.file.bytes.length s.position offset whence = none → s.avail = 0
  | _ => True

theorem Coupled.step (h : Coupled s r) (hsizes : ∀ k, 0 < sizes k) (hplain : PlainMode s)
    (hsettled : Settled s r.bytes r.pos) {op : StreamOp} (hok : s.SeekOk op) :
    ∃ res t r', streamStep filter sizes rounds s op = some (res, t) ∧ r.Step s.eolByte op res r' ∧
      Coupled t r' ∧ SameMode s t ∧ Settled t r'.bytes r'.pos := by
  have hahead := h.ahead hsettled
  have hposition := h.position
  cases op with
  | read size =>
    obtain ⟨hread, hlen, hnil, hpos⟩ :=
      hahead.readLoop filter hsizes hplain.readfilters size size (Nat.le_refl _)
    have hpos' : (s.streamRead filter sizes size).2.position =
        r.pos + (s.streamRead filter sizes size).1.length := by
      show (readLoop filter sizes size size s).2.position + _ = _
      rw [hpos, hposition]
      rfl
    have hahead' : Ahead (s.streamRead filter sizes size).2 r.bytes
        (r.pos + (s.streamRead filter sizes size).1.length) :=
      ⟨⟨hread.ahead.fits.read_le, hread.ahead.fits.write_le⟩, hread.ahead.file,
        hread.ahead.underlying, hread.ahead.buffered, hread.ahead.eof⟩
    have hmode := hread.mode
    refine ⟨_, _, _, rfl, ⟨hread.data_eq, hlen, fun hn => ?_, rfl⟩, hahead'.coupled hpos',
      ⟨hmode.readfilters, hmode.detectEol, hmode.eolMac, hmode.seekable⟩, hread.settled hsettled⟩
    · rcases hnil hn with hz | hend
      · exact Or.inl hz
      · exact Or.inr (List.drop_eq_nil_of_le hend)
  | getLine maxlen =>
    obtain ⟨t, hline, hread, hpos⟩ := hahead.getLine filter hsizes hplain.readfilters
      hplain.detectEol hsettled maxlen (Nat.lt_succ_self s.lineRounds)
    refine ⟨.data _, t, _, ?_, ⟨rfl, rfl⟩, hread.ahead.coupled (hposition ▸ hpos), hread.mode,
      hread.settled hsettled⟩
    show (s.getLine filter sizes (s.lineRounds + 1) maxlen).map _ = _
    rw [hline]
    rfl
  | getRecord maxlen delim =>
    obtain ⟨t, hrecord, hahead', hmode, hsettled', hpos⟩ := hahead.getRecord filter hsizes
      hplain.readfilters hsettled delim (Nat.lt_succ_self maxlen)
    refine ⟨.data _, t, _, ?_, ⟨rfl, rfl⟩, hahead'.coupled (hposition ▸ hpos), hmode, hsettled'⟩
    show (s.getRecord filter sizes (maxlen + 1) maxlen delim).map _ = _
    rw [hrecord]
    rfl
  | write buf =>
    by_cases hbuf : buf = []
    · refine ⟨.count 0, s, r, ?_, ⟨?_, ?_⟩, h, SameMode.refl s, hsettled⟩
      · show some _ = _
        unfold streamWrite
        rw [if_pos hbuf]
      · rw [hbuf]
        rfl
      · rw [if_pos hbuf]
    · obtain ⟨t, hwrite, hahead', hmode, hpos, hsettled'⟩ :=
        hahead.streamWrite hplain.seekable hposition hsettled hbuf
      refine ⟨.count buf.length, t, ⟨overlay r.bytes r.pos buf, r.pos + buf.length⟩, ?_, ⟨rfl, ?_⟩,
        hahead'.coupled hpos, hmode, hsettled'⟩
      · show some _ = _
        rw [hwrite]
      · rw [if_neg hbuf]
  | seek offset whence =>
    have hfail : lseek r.bytes.length r.pos offset whence = none → s.avail = 0 := by
      rw [← h.bytes, ← hposition]
      exact hok
    obtain ⟨ret, t, pos, hseek, hahead', hmode, hpos, hsettled', htarget⟩ :=
      hahead.streamSeek filter hplain.seekable hposition hsettled hfail
    refine ⟨.code ret, t, ⟨r.bytes, pos⟩, ?_, ?_, hahead'.coupled hpos, hmode, hsettled'⟩
    · show some _ = _
      rw [hseek]
    · unfold Reference.Step
      cases hl : lseek r.bytes.length r.pos offset whence with
      | some target =>
        rw [hl] at htarget
        simp only [hl]
        exact ⟨htarget.1, by rw [htarget.2]⟩
      | none =>
        rw [hl] at htarget
        simp only [hl]
        exact ⟨htarget.1, by rw [htarget.2]⟩
  | setNoBuffer value =>
    refine ⟨.code 0, { s with noBuffer := value }, r, rfl, ⟨rfl, rfl⟩, ?_, ⟨rfl, rfl, rfl, rfl⟩,
      hsettled⟩
    exact ⟨h.bytes, h.position, h.underlying, h.read_le, h.write_le, h.buffered⟩

theorem Coupled.seek_broken (h : Coupled s r) (hplain : PlainMode s) {op : StreamOp}
    (hbad : ¬ s.SeekOk op) {res : StreamResult}
    (hstep : streamStep filter sizes rounds s op = some (res, t)) (r' : Reference) :
    ¬ Coupled t r' := by
  cases op with
  | seek offset whence =>
    obtain ⟨hfail, havail⟩ : lseek s.file.bytes.length s.position offset whence = none ∧
        s.avail ≠ 0 := Classical.not_imp.mp hbad
    have hbuf : s.seekBuffered offset whence = none := by
      cases hb : s.seekBuffered offset whence with
      | none => rfl
      | some u =>
        -- a seek within the buffer does not fail
        have hclean : Ahead { s with eof := false } r.bytes r.pos :=
          (show Coupled { s with eof := false } r from
            ⟨h.bytes, h.position, h.underlying, h.read_le, h.write_le, h.buffered⟩).ahead
              fun he => nomatch he
        obtain ⟨pos, hpos, -⟩ := hclean.seekBuffered h.position (t := u) hb
        rw [h.bytes, h.position, hpos] at hfail
        exact nomatch hfail
    have ht : t = { s with readpos := 0, writepos := 0 } := by
      have hcode : streamSeek filter sizes offset whence s =
          (-1, { s with readpos := 0, writepos := 0 }) := by
        unfold streamSeek
        rw [hbuf]
        dsimp only
        rw [if_pos hplain.seekable]
        unfold opsSeek
        rw [lseek_absolute, hfail]
        rfl
      have hsome : some (StreamResult.code (streamSeek filter sizes offset whence s).1,
          (streamSeek filter sizes offset whence s).2) = some (res, t) := hstep
      rw [hcode] at hsome
      exact (Prod.mk.inj (Option.some.inj hsome)).2.symm
    intro hcoupled
    have hunder := hcoupled.underlying
    have hbefore := h.underlying
    rw [ht] at hunder
    change s.file.pos = s.position + 0 at hunder
    unfold avail at havail
    omega
  | read => exact absurd trivial hbad
  | getLine => exact absurd trivial hbad
  | getRecord => exact absurd trivial hbad
  | write => exact absurd trivial hbad
  | setNoBuffer => exact absurd trivial hbad

def Agrees (eol : UInt8) : PhpStream F → Reference → List StreamOp → Prop
  | _, _, [] => True
  | s, r, op :: ops => ∃ res t r', streamStep filter sizes rounds s op = some (res, t) ∧
      r.Step eol op res r' ∧ Coupled t r' ∧ Agrees eol t r' ops

def SeeksOk : PhpStream F → List StreamOp → Prop
  | _, [] => True
  | s, op :: ops => s.SeekOk op ∧
      ∀ res t, streamStep filter sizes rounds s op = some (res, t) → SeeksOk t ops

theorem Coupled.agrees_iff (h : Coupled s r) (hsizes : ∀ k, 0 < sizes k) (hplain : PlainMode s)
    (hsettled : Settled s r.bytes r.pos) (ops : List StreamOp) :
    Agrees filter sizes s.eolByte s r ops ↔ SeeksOk filter sizes s ops := by
  induction ops generalizing s r with
  | nil => exact Iff.rfl
  | cons op ops ih =>
    by_cases hok : s.SeekOk op
    · obtain ⟨res, t, r', hstep, href, hcoupled, hmode, hsettled'⟩ :=
        h.step filter sizes hsizes hplain hsettled hok
      have hrest := ih hcoupled (hplain.same hmode) hsettled'
      rw [hmode.eolByte] at hrest
      constructor
      · rintro ⟨res₁, t₁, r₁, hstep₁, -, hcoupled₁, hagrees⟩
        rw [hstep] at hstep₁
        obtain ⟨rfl, rfl⟩ := Prod.mk.inj (Option.some.inj hstep₁)
        -- the coupling leaves only one state of the file
        have hr : r₁ = r' := by
          obtain ⟨bytes₁, pos₁⟩ := r₁
          obtain ⟨bytes', pos'⟩ := r'
          have hb : bytes₁ = bytes' := hcoupled₁.bytes.symm.trans hcoupled.bytes
          have hp : pos₁ = pos' := hcoupled₁.position.symm.trans hcoupled.position
          rw [hb, hp]
        subst hr
        refine ⟨hok, fun res₂ t₂ hstep₂ => ?_⟩
        rw [hstep] at hstep₂
        obtain ⟨-, rfl⟩ := Prod.mk.inj (Option.some.inj hstep₂)
        exact hrest.mp hagrees
      · rintro ⟨-, hall⟩
        exact ⟨res, t, r', hstep, href, hcoupled, hrest.mpr (hall res t hstep)⟩
    · constructor
      · rintro ⟨res, t, r', hstep, -, hcoupled, -⟩
        exact absurd hcoupled (h.seek_broken filter sizes hplain hok hstep r')
      · rintro ⟨hok', -⟩
        exact absurd hok' hok

def openStream (bytes : List UInt8) (chunkSize : ChunkSize) (noBuffer eolMac plainFiles : Bool) :
    PhpStream F :=
  { file := ⟨bytes, 0, 0⟩, readfilters := [], readbuf := [], readpos := 0, writepos := 0,
    position := 0, eof := false, chunkSize := chunkSize, noBuffer := noBuffer, detectEol := false,
    eolMac := eolMac, seekable := true, plainFiles := plainFiles }

def sixBytes : PhpStream Unit :=
  openStream [97, 98, 99, 100, 101, 102] ⟨8, by decide⟩ false false true

def passFilter : FilterOps Unit := fun f brigade _ => (.passOn, brigade, f)

def writeThenSeek : List StreamOp :=
  [.read 2, .seek 1 .cur, .write [90], .seek (-1) .set, .read 2]

end PhpStream

end Php53.Streams
