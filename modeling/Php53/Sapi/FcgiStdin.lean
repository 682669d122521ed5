import Php53.Sapi.FcgiRecord
import Mathlib.Data.List.Infix
import Mathlib.Data.List.TakeDrop
import Mathlib.Tactic.Common

/-!
# FcgiStdin — `fcgi_read`

The body of a request comes in FCGI_STDIN records.  One call of `fcgi_read` takes what it is asked
for from as many records as it needs; the length that is left of a record is kept for the next one.
-/

namespace Php53.Sapi

open List

variable {k : ℕ} {next : FcgiInput → ℕ → ℕ → FcgiReadResult}

/-- The fields of `fcgi_request` that `fcgi_read` uses, and the connection. -/
structure FcgiInput where
  inLen : ℕ
  inPad : ℕ
  keep : Bool
  input : List UInt8  -- what the peer has sent and `read` has not returned
  reads : ℕ  -- the calls of `read` so far

/-- The call number `k` of `read` returns `sizes k + 1` bytes if there are as many.  Behind the last
byte it returns 0, or -1 if the connection is reset.  A call that a signal interrupts is made
again and does not count. -/
structure FcgiPeer where
  sizes : ℕ → ℕ
  reset : Bool

/-- The loop of `safe_read`: the bytes it stores and whether it ends with an error. -/
def FcgiPeer.safeReadLoop (peer : FcgiPeer) : ℕ → FcgiInput → ℕ → List UInt8 × Bool × FcgiInput
  | 0, req, _ => ([], false, req)
  | fuel + 1, req, count =>
    if count = 0 then ([], false, req)
    else
      match req.input.take (min (peer.sizes req.reads + 1) count) with
      | [] => ([], peer.reset, { req with reads := req.reads + 1 })
      | b :: bytes =>
        let r := peer.safeReadLoop fuel
          { req with reads := req.reads + 1, input := req.input.drop (bytes.length + 1) }
          (count - (bytes.length + 1))
        (b :: bytes ++ r.1, r.2)

def FcgiPeer.safeRead (peer : FcgiPeer) (req : FcgiInput) (count : ℕ) :
    List UInt8 × ℤ × FcgiInput :=
  let r := peer.safeReadLoop count req count
  (r.1, if r.2.1 then -1 else r.1.length, r.2.2)

/-- `if (req->in_len == 0)`: the next header; `false` where it is no header of a record of stdin. -/
def FcgiPeer.nextHeader (peer : FcgiPeer) (req : FcgiInput) : Bool × FcgiInput :=
  if req.inLen = 0 then
    let (hdr, ret, req) := peer.safeRead req 8
    if ret ≠ 8 then (false, { req with keep := false })
    else
      match hdr with
      | [version, type, _, _, len1, len0, pad, _] =>
        if version < fcgiVersion1 ∨ type ≠ FcgiRequestType.stdin.code then
          (false, { req with keep := false })
        else (true, { req with inLen := fromBytes len1 len0, inPad := pad.toNat })
      | _ => (false, { req with keep := false })
  else (true, req)

structure FcgiReadResult where
  ret : ℤ
  stored : List UInt8  -- the bytes written to `str`
  req : FcgiInput

/-- The part of the loop of `fcgi_read` behind the header; `next` is the loop again. -/
def FcgiPeer.readRecord (peer : FcgiPeer) (next : FcgiInput → ℕ → ℕ → FcgiReadResult)
    (req : FcgiInput) (rest n : ℕ) : FcgiReadResult :=
  let (bytes, ret, req) :=
    if req.inLen ≥ rest then peer.safeRead req rest else peer.safeRead req req.inLen
  if ret < 0 then ⟨ret, bytes, { req with keep := false }⟩
  else if ret > 0 then
    let req := { req with inLen := req.inLen - bytes.length }
    if req.inLen = 0 then
      let (_, padRet, req) := if req.inPad ≠ 0 then peer.safeRead req req.inPad else ([], 0, req)
      if padRet ≠ req.inPad then ⟨ret, bytes, { req with keep := false }⟩
      else
        let r := next req (rest - bytes.length) (n + bytes.length)
        { r with stored := bytes ++ r.stored }
    else ⟨(n + bytes.length : ℕ), bytes, req⟩
  else ⟨n, bytes, req⟩

/-- The loop of `fcgi_read`. -/
def FcgiPeer.readLoop (peer : FcgiPeer) : ℕ → FcgiInput → ℕ → ℕ → FcgiReadResult
  | 0, req, _, n => ⟨n, [], req⟩
  | fuel + 1, req, rest, n =>
    if rest = 0 then ⟨n, [], req⟩
    else
      let (ok, req) := peer.nextHeader req
      if ok = false then ⟨0, [], req⟩
      else if req.inLen = 0 then ⟨n, [], req⟩
      else peer.readRecord (peer.readLoop fuel) req rest n

/-- Every turn of the loop takes a byte at least, so `len` turns are enough. -/
def FcgiPeer.fcgiRead (peer : FcgiPeer) (req : FcgiInput) (len : ℕ) : FcgiReadResult :=
  peer.readLoop len req len 0

def FcgiPeer.readAll (peer : FcgiPeer) : FcgiInput → List ℕ → List FcgiReadResult
  | _, [] => []
  | req, len :: lens =>
    let r := peer.fcgiRead req len
    r :: peer.readAll r.req lens

def stdinHeader : List UInt8 → Option (ℕ × ℕ)
  | version :: type :: _ :: _ :: len1 :: len0 :: pad :: _ :: _ =>
    if version < fcgiVersion1 ∨ type ≠ FcgiRequestType.stdin.code then none
    else some (fromBytes len1 len0, pad.toNat)
  | _ => none

/-- Where the records of stdin end. -/
inductive StdinEnd where
  /-- At a record without content. -/
  | finished
  /-- At a header of another kind. -/
  | rejected
  | cutHeader
  | cutContent
  /-- In the padding of a record with `last` bytes of content. -/
  | cutPadding (last : ℕ)
  deriving DecidableEq

/-- The content of the records from the middle of one on, with `len` bytes of its content and `pad`
of its padding to come, and how they end. -/
def stdinView (len pad : ℕ) (input : List UInt8) : List UInt8 × StdinEnd :=
  if len = 0 then
    if input.length < 8 then ([], .cutHeader)
    else
      match stdinHeader input with
      | none => ([], .rejected)
      | some (len, pad) => if len = 0 then ([], .finished) else stdinView len pad (input.drop 8)
  else if input.length < len then (input, .cutContent)
  else if input.length < len + pad then (input.take len, .cutPadding len)
  else
    let r := stdinView 0 0 (input.drop (len + pad))
    (input.take len ++ r.1, r.2)
termination_by input.length
decreasing_by
  · rw [length_drop]
    omega
  · rw [length_drop]
    omega

def FcgiInput.view (req : FcgiInput) : List UInt8 × StdinEnd :=
  stdinView req.inLen req.inPad req.input

variable {len pad n rest : ℕ} {input : List UInt8} {peer : FcgiPeer} {req : FcgiInput}

theorem stdinView_nil (len pad : ℕ) : (stdinView len pad []).1 = [] ∧
    (stdinView len pad []).2 ≠ .finished := by
  rw [stdinView]
  split
  · exact ⟨rfl, by simp⟩
  · rw [if_pos (by rw [length_nil]; omega)]
    exact ⟨rfl, by simp⟩

theorem stdinView_cutHeader (pad : ℕ) (h : input.length < 8) :
    stdinView 0 pad input = ([], .cutHeader) := by
  rw [stdinView, if_pos rfl, if_pos h]

theorem stdinView_rejected (pad : ℕ) (h : ¬ input.length < 8) (hh : stdinHeader input = none) :
    stdinView 0 pad input = ([], .rejected) := by
  rw [stdinView, if_pos rfl, if_neg h, hh]

theorem stdinView_header {len' pad' : ℕ} (pad : ℕ) (h : ¬ input.length < 8)
    (hh : stdinHeader input = some (len', pad')) :
    stdinView 0 pad input =
      if len' = 0 then ([], .finished) else stdinView len' pad' (input.drop 8) := by
  rw [stdinView, if_pos rfl, if_neg h, hh]

theorem stdinView_cutContent (pad : ℕ) (hlen : len ≠ 0) (h : input.length < len) :
    stdinView len pad input = (input, .cutContent) := by
  rw [stdinView, if_neg hlen, if_pos h]

theorem stdinView_cutPadding (hlen : len ≠ 0) (h : ¬ input.length < len)
    (hpad : input.length < len + pad) :
    stdinView len pad input = (input.take len, .cutPadding len) := by
  rw [stdinView, if_neg hlen, if_neg h, if_pos hpad]

theorem stdinView_record (hlen : len ≠ 0) (h : ¬ input.length < len + pad) :
    stdinView len pad input =
      (input.take len ++ (stdinView 0 0 (input.drop (len + pad))).1,
        (stdinView 0 0 (input.drop (len + pad))).2) := by
  rw [stdinView, if_neg hlen, if_neg (by omega), if_neg h]

theorem stdinView_zero (pad pad' : ℕ) (input : List UInt8) :
    stdinView 0 pad input = stdinView 0 pad' input := by
  rw [stdinView, if_pos rfl]
  conv_rhs => rw [stdinView, if_pos rfl]

theorem stdinView_drop (hk : k < len) (h : ¬ input.length < len) :
    (stdinView (len - k) pad (input.drop k)).1 = (stdinView len pad input).1.drop k ∧
    ((stdinView len pad input).2 = .finished →
      (stdinView (len - k) pad (input.drop k)).2 = .finished) := by
  have hlen' : (input.drop k).length = input.length - k := length_drop
  by_cases hpad : input.length < len + pad
  · rw [stdinView_cutPadding (by omega) h hpad,
      stdinView_cutPadding (by omega) (by omega) (by omega)]
    exact ⟨(drop_take ..).symm, fun hend => by cases hend⟩
  · rw [stdinView_record (by omega) hpad, stdinView_record (by omega) (by omega), drop_drop,
      show k + (len - k + pad) = len + pad by omega, drop_append_of_le_length]
    · exact ⟨by rw [drop_take], fun hend => hend⟩
    · rw [length_take]
      omega

theorem safeReadLoop_eq (fuel count : ℕ) (req : FcgiInput) (hfuel : count ≤ fuel) :
    ∃ reads, peer.safeReadLoop fuel req count =
      (req.input.take count, decide (req.input.length < count) && peer.reset,
        { req with input := req.input.drop count, reads := reads }) := by
  induction fuel generalizing req count with
  | zero =>
    have hcount : count = 0 := by omega
    exact ⟨req.reads, by rw [hcount]; rfl⟩
  | succ fuel ih =>
    rw [FcgiPeer.safeReadLoop]
    by_cases hcount : count = 0
    · exact ⟨req.reads, by rw [if_pos hcount, hcount]; rfl⟩
    · rw [if_neg hcount]
      cases htake : req.input.take (min (peer.sizes req.reads + 1) count) with
      | nil =>
        have hnil : req.input = [] := by
          rcases take_eq_nil_iff.mp htake with h | h
          · omega
          · exact h
        have hlt : req.input.length < count := by
          rw [hnil, length_nil]
          omega
        refine ⟨req.reads + 1, ?_⟩
        simp [hnil]
        omega
      | cons b bytes =>
        have hlength := congrArg List.length htake
        rw [length_take, length_cons] at hlength
        have hsplit : b :: bytes = req.input.take (bytes.length + 1) := by
          rw [← htake, ← hlength]
          exact take_eq_take_min ..
        have ⟨reads, hrun⟩ := ih (count - (bytes.length + 1))
          { req with reads := req.reads + 1, input := req.input.drop (bytes.length + 1) } (by omega)
        have hwhole : req.input.take count =
            b :: bytes ++ (req.input.drop (bytes.length + 1)).take (count - (bytes.length + 1)) := by
          rw [hsplit, ← take_add]
          congr 1
          omega
        have hdrop : req.input.drop count =
            (req.input.drop (bytes.length + 1)).drop (count - (bytes.length + 1)) := by
          rw [drop_drop]
          congr 1
          omega
        have hfailed : (req.input.drop (bytes.length + 1)).length < count - (bytes.length + 1) ↔
            req.input.length < count := by
          rw [length_drop]
          omega
        refine ⟨reads, ?_⟩
        simp only
        rw [hrun, hwhole, hdrop]
        simp only [hfailed]

theorem safeRead_eq (count : ℕ) (req : FcgiInput) :
    ∃ reads, peer.safeRead req count =
      (req.input.take count,
        if req.input.length < count ∧ peer.reset then (-1 : ℤ)
        else (req.input.take count).length,
        { req with input := req.input.drop count, reads := reads }) := by
  have ⟨reads, hrun⟩ := @safeReadLoop_eq peer count count req le_rfl
  refine ⟨reads, ?_⟩
  unfold FcgiPeer.safeRead
  rw [hrun]
  simp

theorem nextHeader_zero (hzero : req.inLen = 0) :
    (∃ req', peer.nextHeader req = (false, req') ∧ req'.inLen = 0 ∧
      req'.input = req.input.drop 8 ∧ (req.input.length < 8 ∨ stdinHeader req.input = none)) ∨
    (∃ req' len pad, peer.nextHeader req = (true, req') ∧ stdinHeader req.input = some (len, pad) ∧
      ¬ req.input.length < 8 ∧ req'.inLen = len ∧ req'.inPad = pad ∧
      req'.input = req.input.drop 8) := by
  have ⟨reads, hread⟩ := @safeRead_eq peer 8 req
  unfold FcgiPeer.nextHeader
  rw [if_pos hzero, hread]
  by_cases hshort : req.input.length < 8
  · have hret : (if req.input.length < 8 ∧ peer.reset = true then (-1 : ℤ)
        else (req.input.take 8).length) ≠ 8 := by
      rw [length_take]
      split <;> omega
    simp only
    rw [if_pos hret]
    exact .inl ⟨_, rfl, hzero, rfl, .inl hshort⟩
  · have hret : ¬ (if req.input.length < 8 ∧ peer.reset = true then (-1 : ℤ)
        else (req.input.take 8).length) ≠ 8 := by
      rw [if_neg fun h => hshort h.1, length_take]
      omega
    simp only
    rw [if_neg hret]
    match hinput : req.input, hshort with
    | version :: type :: id1 :: id0 :: len1 :: len0 :: pad :: reserved :: tail, _ =>
      simp only [take_succ_cons, take_zero]
      by_cases hbad : version < fcgiVersion1 ∨ type ≠ FcgiRequestType.stdin.code
      · rw [if_pos hbad]
        exact .inl ⟨_, rfl, hzero, rfl, .inr (if_pos hbad)⟩
      · rw [if_neg hbad]
        exact .inr ⟨_, _, _, rfl, if_neg hbad, by simp, rfl, rfl, rfl⟩
    | [], h | [_], h | [_, _], h | [_, _, _], h | [_, _, _, _], h | [_, _, _, _, _], h
    | [_, _, _, _, _, _], h | [_, _, _, _, _, _, _], h => simp at h

/-- The call neither meets a header that it rejects or that is cut, nor padding that is cut behind a
further record, after it has stored bytes. -/
structure ReadsCleanly (view : List UInt8 × StdinEnd) (rest n : ℕ) : Prop where
  header : 0 < n + view.1.length → view.1.length < rest →
    view.2 ≠ .rejected ∧ view.2 ≠ .cutHeader
  padding : ∀ last, view.2 = .cutPadding last → view.1.length ≤ rest → n + view.1.length ≤ last

def TakesEnd (view : List UInt8 × StdinEnd) (rest : ℕ) : Prop :=
  view.1.length < rest ∧ (view.2 = .finished ∨ view.2 = .rejected)

/-- What a call does to the content to come. -/
structure Reads (view : List UInt8 × StdinEnd) (rest n : ℕ) (r : FcgiReadResult) : Prop where
  stored : r.stored = view.1.take rest
  ret : 0 ≤ r.ret → r.ret = n + r.stored.length
  atEnd : TakesEnd view rest → r.req.inLen = 0
  next : ¬ TakesEnd view rest → r.req.view.1 = view.1.drop rest ∧
    (view.2 = .finished → r.req.view.2 = .finished)

theorem safeRead_amount :
    (if req.inLen ≥ rest then peer.safeRead req rest else peer.safeRead req req.inLen) =
      peer.safeRead req (min rest req.inLen) := by
  split
  · rw [Nat.min_eq_left ‹_›]
  · rw [Nat.min_eq_right (by omega)]

theorem take_min {l : List UInt8} {m : ℕ} (h : l.length ≤ m) : l.take (min k m) = l.take k := by
  rw [take_eq_take_iff]
  omega

theorem drop_min {l : List UInt8} {m : ℕ} (h : l.length ≤ m) : l.drop (min k m) = l.drop k := by
  by_cases hk : k ≤ m
  · rw [Nat.min_eq_left hk]
  · rw [drop_eq_nil_of_le (by omega), drop_eq_nil_of_le (by omega)]

theorem readRecord_cutContent (hcut : req.input.length < req.inLen) :
    Reads (req.input, .cutContent) rest n (peer.readRecord next req rest n) := by
  have ⟨reads, hread⟩ := @safeRead_eq peer (min rest req.inLen) req
  have htake : req.input.take (min rest req.inLen) = req.input.take rest := take_min hcut.le
  have hdrop : req.input.drop (min rest req.inLen) = req.input.drop rest := drop_min hcut.le
  have hover : ¬ TakesEnd (req.input, .cutContent) rest := by
    rintro ⟨_, h | h⟩ <;> cases h
  have hlength : (req.input.take rest).length = min rest req.input.length := length_take
  have hleft : (req.input.drop rest).length = req.input.length - rest := length_drop
  unfold FcgiPeer.readRecord
  rw [safeRead_amount, hread, htake, hdrop]
  simp only
  by_cases hfailed : req.input.length < min rest req.inLen ∧ peer.reset = true
  · rw [if_pos hfailed, if_pos (by decide)]
    refine ⟨rfl, fun h => absurd h (show ¬ (0 : ℤ) ≤ -1 by decide), fun h => absurd h hover,
      fun _ => ?_⟩
    show (stdinView req.inLen req.inPad (req.input.drop rest)).1 = _ ∧ _
    rw [stdinView_cutContent _ (by omega) (by omega)]
    exact ⟨rfl, fun h => by cases h⟩
  · rw [if_neg hfailed, if_neg (by omega)]
    by_cases hnone : ((req.input.take rest).length : ℤ) > 0
    · have hmore : ¬ req.inLen - (req.input.take rest).length = 0 := by omega
      rw [if_pos hnone, if_neg hmore]
      refine ⟨rfl, fun _ => Int.natCast_add _ _, fun h => absurd h hover, fun _ => ?_⟩
      show (stdinView (req.inLen - (req.input.take rest).length) req.inPad
        (req.input.drop rest)).1 = _ ∧ _
      rw [stdinView_cutContent _ hmore (by omega)]
      exact ⟨rfl, fun h => by cases h⟩
    · rw [if_neg hnone]
      refine ⟨rfl, fun _ => by simp only; omega, fun h => absurd h hover, fun _ => ?_⟩
      show (stdinView req.inLen req.inPad (req.input.drop rest)).1 = _ ∧ _
      rw [stdinView_cutContent _ (by omega) (by omega)]
      exact ⟨rfl, fun h => by cases h⟩

theorem view_take (hcut : ¬ req.input.length < req.inLen) (hlen : req.inLen ≠ 0)
    (hk : k ≤ req.inLen) : req.view.1.take k = req.input.take k := by
  unfold FcgiInput.view
  by_cases hpad : req.input.length < req.inLen + req.inPad
  · rw [stdinView_cutPadding hlen hcut hpad, take_take, Nat.min_eq_left hk]
  · rw [stdinView_record hlen hpad, take_append_of_le_length, take_take,
      Nat.min_eq_left hk]
    rw [length_take]
    omega

theorem le_length_view (hcut : ¬ req.input.length < req.inLen) (hlen : req.inLen ≠ 0) :
    req.inLen ≤ req.view.1.length := by
  unfold FcgiInput.view
  by_cases hpad : req.input.length < req.inLen + req.inPad
  · rw [stdinView_cutPadding hlen hcut hpad, length_take]
    omega
  · rw [stdinView_record hlen hpad, length_append, length_take]
    omega

theorem readRecord_part (hrest : rest ≠ 0) (hpart : rest < req.inLen)
    (hcut : ¬ req.input.length < req.inLen) :
    Reads req.view rest n (peer.readRecord next req rest n) := by
  have ⟨reads, hread⟩ := @safeRead_eq peer rest req
  have hlength : (req.input.take rest).length = rest := by
    rw [length_take]
    omega
  have hmore : ¬ req.inLen - (req.input.take rest).length = 0 := by omega
  have hover : ¬ TakesEnd req.view rest := by
    rintro ⟨h, _⟩
    have hle := le_length_view hcut (by omega)
    omega
  unfold FcgiPeer.readRecord
  rw [if_pos (by omega), hread, if_neg fun h => by omega]
  simp only
  rw [if_neg (by omega), if_pos (by omega), if_neg hmore]
  refine ⟨(view_take hcut (by omega) hpart.le).symm, fun _ => Int.natCast_add _ _,
    fun h => absurd h hover, fun _ => ?_⟩
  show (stdinView (req.inLen - (req.input.take rest).length) req.inPad _).1 = _ ∧ _
  rw [hlength]
  exact stdinView_drop hpart hcut

theorem skipPadding (pad : ℕ) (req : FcgiInput) :
    ∃ bytes ret reads, (if pad ≠ 0 then peer.safeRead req pad else ([], 0, req)) =
        (bytes, ret, { req with input := req.input.drop pad, reads := reads }) ∧
      (ret = pad ↔ pad ≤ req.input.length) := by
  by_cases hpad : pad = 0
  · refine ⟨[], 0, req.reads, ?_, ?_⟩
    · rw [if_neg (not_not.mpr hpad), hpad]
      rfl
    · simp [hpad]
  · have ⟨reads, hread⟩ := @safeRead_eq peer pad req
    refine ⟨_, _, reads, by rw [if_pos hpad, hread], ?_⟩
    rw [length_take]
    split <;> omega

theorem readRecord_whole (hlen : req.inLen ≠ 0) (hwhole : req.inLen ≤ rest)
    (hcut : ¬ req.input.length < req.inLen) (hclean : ReadsCleanly req.view rest n)
    (hnext : ∀ req rest' n', rest' < rest → ReadsCleanly req.view rest' n' →
      Reads req.view rest' n' (next req rest' n')) :
    Reads req.view rest n (peer.readRecord next req rest n) := by
  have ⟨reads, hread⟩ := @safeRead_eq peer (min rest req.inLen) req
  rw [Nat.min_eq_right hwhole] at hread
  have hlength : (req.input.take req.inLen).length = req.inLen := by
    rw [length_take]
    omega
  have ⟨padding, padRet, reads', hskip, hpadRet⟩ := @skipPadding peer req.inPad
    { req with inLen := 0, input := req.input.drop req.inLen, reads := reads }
  simp only [length_drop, drop_drop] at hskip hpadRet
  unfold FcgiPeer.readRecord
  rw [safeRead_amount, Nat.min_eq_right hwhole, hread, if_neg fun h => by omega]
  simp only [hlength]
  rw [if_neg (by omega), if_pos (by omega), Nat.sub_self, if_pos rfl, hskip]
  simp only
  by_cases hpad : req.input.length < req.inLen + req.inPad
  · -- the padding is cut, the call has read from this record only
    have hview : req.view = (req.input.take req.inLen, .cutPadding req.inLen) :=
      stdinView_cutPadding hlen hcut hpad
    rw [hview] at hclean ⊢
    have hn := hclean.padding req.inLen rfl (by simp only [hlength]; exact hwhole)
    simp only [hlength] at hn
    have hover : ¬ TakesEnd (req.input.take req.inLen, .cutPadding req.inLen) rest := by
      rintro ⟨_, h | h⟩ <;> cases h
    have hnil : req.input.drop (req.inLen + req.inPad) = [] := drop_eq_nil_of_le (by omega)
    rw [if_pos (by omega)]
    refine ⟨?_, fun _ => ?_, fun h => absurd h hover, fun _ => ?_⟩
    · simp only
      rw [take_take, Nat.min_eq_right hwhole]
    · simp only [hlength]
      omega
    · show (stdinView 0 req.inPad _).1 = _ ∧ _
      rw [hnil, stdinView_cutHeader _ (show ([] : List UInt8).length < 8 by decide),
        drop_eq_nil_of_le (show (req.input.take req.inLen).length ≤ rest by omega)]
      exact ⟨rfl, fun h => by cases h⟩
  · have hview : req.view = (req.input.take req.inLen ++
        (stdinView 0 0 (req.input.drop (req.inLen + req.inPad))).1,
        (stdinView 0 0 (req.input.drop (req.inLen + req.inPad))).2) := stdinView_record hlen hpad
    have hzero := stdinView_zero req.inPad 0 (req.input.drop (req.inLen + req.inPad))
    revert hview hzero
    generalize stdinView 0 0 (req.input.drop (req.inLen + req.inPad)) = view
    intro hview hzero
    rw [hview] at hclean ⊢
    have hsum : (req.input.take req.inLen ++ view.1).length = req.inLen + view.1.length := by
      rw [length_append, hlength]
    have hfollow := hnext { req with
        inLen := 0, input := req.input.drop (req.inLen + req.inPad), reads := reads' }
      (rest - req.inLen) (n + req.inLen) (by omega) (by
        show ReadsCleanly (stdinView 0 req.inPad _) _ _
        rw [hzero]
        constructor
        · intro _ hlt
          exact hclean.header (by simp only [hsum]; omega) (by simp only [hsum]; omega)
        · intro last hlast hle
          have hpadding := hclean.padding last hlast (by simp only [hsum]; omega)
          simp only [hsum] at hpadding
          omega)
    unfold FcgiInput.view at hfollow
    simp only [hzero] at hfollow
    have htakes : TakesEnd (req.input.take req.inLen ++ view.1, view.2) rest ↔
        TakesEnd view (rest - req.inLen) := by
      unfold TakesEnd
      simp only [hsum]
      rw [show req.inLen + view.1.length < rest ↔ view.1.length < rest - req.inLen by omega]
    rw [if_neg (by omega)]
    refine ⟨?_, fun hret => ?_, fun h => hfollow.atEnd (htakes.mp h), fun h => ?_⟩
    · simp only
      rw [hfollow.stored, take_append, hlength,
        take_of_length_le (show (req.input.take req.inLen).length ≤ rest by omega)]
    · have hret' := hfollow.ret hret
      simp only at hret' ⊢
      rw [hret', length_append, hlength]
      omega
    · have ⟨hdrop, hfinished⟩ := hfollow.next fun h' => h (htakes.mpr h')
      refine ⟨?_, hfinished⟩
      simp only
      rw [drop_append, hlength,
        drop_eq_nil_of_le (show (req.input.take req.inLen).length ≤ rest by omega),
        nil_append]
      exact hdrop

theorem reads_zero (req : FcgiInput) (n : ℕ) : Reads req.view 0 n ⟨n, [], req⟩ := by
  have hover : ¬ TakesEnd req.view 0 := fun h => absurd h.1 (Nat.not_lt_zero _)
  exact ⟨rfl, fun _ => rfl, fun h => absurd h hover, fun _ => ⟨rfl, fun h => h⟩⟩

theorem reads_noHeader {e : StdinEnd} (he : e = .cutHeader ∨ e = .rejected)
    (hclean : ReadsCleanly ([], e) rest n) (hrest : rest ≠ 0) (hlen : req.inLen = 0)
    (hcut : e = .cutHeader → req.input = []) : Reads ([], e) rest n ⟨0, [], req⟩ := by
  have hempty : ([] : List UInt8).length < rest := Nat.pos_of_ne_zero hrest
  have hn : n = 0 := by
    by_contra hn
    have ⟨hrejected, hcutHeader⟩ := hclean.header (by simp only [length_nil]; omega) hempty
    rcases he with h | h
    · exact hcutHeader h
    · exact hrejected h
  refine ⟨take_nil.symm, fun _ => by rw [hn]; rfl, fun _ => hlen, fun hnot => ?_⟩
  rcases he with h | h
  · unfold FcgiInput.view
    rw [hcut h, (stdinView_nil _ _).1]
    exact ⟨drop_nil.symm, fun hfinished => by rw [h] at hfinished; cases hfinished⟩
  · exact absurd ⟨hempty, .inr h⟩ hnot

theorem reads_finished (hrest : rest ≠ 0) (hlen : req.inLen = 0) (n : ℕ) :
    Reads ([], .finished) rest n ⟨n, [], req⟩ := by
  have hempty : ([] : List UInt8).length < rest := Nat.pos_of_ne_zero hrest
  exact ⟨take_nil.symm, fun _ => rfl, fun _ => hlen, fun h => absurd ⟨hempty, .inl rfl⟩ h⟩

theorem readLoop_reads (fuel : ℕ) (req : FcgiInput) (rest n : ℕ) (hfuel : rest ≤ fuel)
    (hclean : ReadsCleanly req.view rest n) :
    Reads req.view rest n (peer.readLoop fuel req rest n) := by
  induction fuel generalizing req rest n with
  | zero =>
    rw [Nat.le_zero.mp hfuel]
    exact reads_zero req n
  | succ fuel ih =>
    rw [FcgiPeer.readLoop]
    by_cases hrest : rest = 0
    · rw [if_pos hrest, hrest]
      exact reads_zero req n
    · rw [if_neg hrest]
      have hrecord : ∀ req : FcgiInput, req.inLen ≠ 0 → ReadsCleanly req.view rest n →
          Reads req.view rest n (peer.readRecord (peer.readLoop fuel) req rest n) := by
        intro req hlen hclean
        by_cases hcut : req.input.length < req.inLen
        · have hview : req.view = (req.input, .cutContent) := stdinView_cutContent _ hlen hcut
          rw [hview]
          exact readRecord_cutContent hcut
        · by_cases hpart : rest < req.inLen
          · exact readRecord_part hrest hpart hcut
          · exact readRecord_whole hlen (by omega) hcut hclean fun req rest' n' hlt hclean' =>
              ih req rest' n' (by omega) hclean'
      by_cases hzero : req.inLen = 0
      · have hview : req.view = stdinView 0 req.inPad req.input := by rw [← hzero]; rfl
        rcases @nextHeader_zero peer req hzero with ⟨req', hheader, hlen', hinput', hbad⟩ |
            ⟨req', len, pad, hheader, hhdr, hlong, hlen', hpad', hinput'⟩
        · rw [hheader]
          simp only [if_true]
          by_cases hshort : req.input.length < 8
          · rw [hview, stdinView_cutHeader _ hshort] at hclean ⊢
            have hnil : req'.input = [] := by rw [hinput', drop_eq_nil_of_le (by omega)]
            exact reads_noHeader (.inl rfl) hclean hrest hlen' fun _ => hnil
          · rw [hview, stdinView_rejected _ hshort (hbad.resolve_left hshort)] at hclean ⊢
            exact reads_noHeader (.inr rfl) hclean hrest hlen' fun h => by cases h
        · rw [hheader]
          simp only [Bool.true_eq_false, if_false]
          rw [stdinView_header _ hlong hhdr] at hview
          by_cases hfinished : len = 0
          · rw [hview, if_pos hfinished, if_pos (hlen'.trans hfinished)]
            exact reads_finished hrest (hlen'.trans hfinished) n
          · have hsame : req.view = req'.view := by
              rw [hview, if_neg hfinished, ← hinput', ← hlen', ← hpad']
              rfl
            rw [if_neg (by omega), hsame]
            exact hrecord req' (by omega) (hsame ▸ hclean)
      · have hheader : peer.nextHeader req = (true, req) := if_neg hzero
        rw [hheader]
        simp only [Bool.true_eq_false, if_false]
        rw [if_neg hzero]
        exact hrecord req hzero hclean

def NoRecord (input : List UInt8) : Prop :=
  input.length < 8 ∨ ∀ len pad, stdinHeader input = some (len, pad) → len = 0

/-- The calls from `req` on read cleanly; `over` says that the header behind the last content has
been taken, and then no header of a record with content may follow. -/
def ReadsCleanlyFrom (peer : FcgiPeer) : Bool → FcgiInput → List ℕ → Prop
  | _, _, [] => True
  | false, req, len :: lens =>
    ReadsCleanly req.view len 0 ∧
      ((TakesEnd req.view len ∧ ReadsCleanlyFrom peer true (peer.fcgiRead req len).req lens) ∨
        (¬ TakesEnd req.view len ∧ ReadsCleanlyFrom peer false (peer.fcgiRead req len).req lens))
  | true, req, len :: lens =>
    (len = 0 ∨ NoRecord req.input) ∧ ReadsCleanlyFrom peer true (peer.fcgiRead req len).req lens

def storedBytes (rs : List FcgiReadResult) : List UInt8 := rs.flatMap (·.stored)

/-- Calls of `fcgi_read`, one after the other, deliver the body in order, and all of it by the time
that one of them returns 0. -/
structure Delivers (peer : FcgiPeer) (req : FcgiInput) (lens : List ℕ) : Prop where
  returned : ∀ r ∈ peer.readAll req lens, 0 ≤ r.ret → r.ret = r.stored.length
  inOrder : storedBytes (peer.readAll req lens) <+: req.view.1
  complete : req.view.2 = .finished →
    (∃ call ∈ lens.zip (peer.readAll req lens), 0 < call.1 ∧ call.2.ret = 0) →
    storedBytes (peer.readAll req lens) = req.view.1

theorem fcgiRead_over (hlen : req.inLen = 0) {len : ℕ} (h : len = 0 ∨ NoRecord req.input) :
    (peer.fcgiRead req len).ret = 0 ∧ (peer.fcgiRead req len).stored = [] ∧
      (peer.fcgiRead req len).req.inLen = 0 := by
  unfold FcgiPeer.fcgiRead
  match len, h with
  | 0, _ => exact ⟨rfl, rfl, hlen⟩
  | len + 1, h =>
    have hno := h.resolve_left (Nat.succ_ne_zero len)
    rw [FcgiPeer.readLoop, if_neg (Nat.succ_ne_zero len)]
    rcases @nextHeader_zero peer req hlen with ⟨req', hheader, hlen', _, _⟩ |
        ⟨req', len', pad, hheader, hhdr, hlong, hlen', _, _⟩
    · rw [hheader]
      exact ⟨rfl, rfl, hlen'⟩
    · have hzero : req'.inLen = 0 := hlen'.trans (hno.resolve_left hlong len' pad hhdr)
      rw [hheader]
      simp only [Bool.true_eq_false, if_false]
      rw [if_pos hzero]
      exact ⟨rfl, rfl, hzero⟩

theorem readAll_over (lens : List ℕ) (req : FcgiInput) (hlen : req.inLen = 0)
    (h : ReadsCleanlyFrom peer true req lens) :
    (∀ r ∈ peer.readAll req lens, r.ret = 0 ∧ r.stored = []) ∧
      storedBytes (peer.readAll req lens) = [] := by
  induction lens generalizing req with
  | nil => exact ⟨fun r hr => (not_mem_nil hr).elim, rfl⟩
  | cons len lens ih =>
    have ⟨hret, hstored, hlen'⟩ := @fcgiRead_over peer req hlen len h.1
    have ⟨hall, hnone⟩ := ih _ hlen' h.2
    constructor
    · intro r hr
      cases hr with
      | head => exact ⟨hret, hstored⟩
      | tail _ hr => exact hall r hr
    · show (peer.fcgiRead req len).stored ++ storedBytes _ = []
      rw [hstored, hnone]
      rfl

/-- Calls that read cleanly deliver the content of the records, from any point of the stream on. -/
theorem fcgi_read_delivers (req : FcgiInput) (lens : List ℕ)
    (h : ReadsCleanlyFrom peer false req lens) : Delivers peer req lens := by
  induction lens generalizing req with
  | nil =>
    refine ⟨fun r hr => (not_mem_nil hr).elim, nil_prefix, fun _ hzero => ?_⟩
    have ⟨_, hmem, _⟩ := hzero
    cases hmem
  | cons len lens ih =>
    have ⟨hclean, hnext⟩ := h
    have hreads : Reads req.view len 0 (peer.fcgiRead req len) :=
      readLoop_reads len req len 0 le_rfl hclean
    have hret : 0 ≤ (peer.fcgiRead req len).ret →
        (peer.fcgiRead req len).ret = (peer.fcgiRead req len).stored.length := fun h => by
      rw [hreads.ret h]
      exact Int.zero_add _
    have hsplit : storedBytes (peer.readAll req (len :: lens)) = req.view.1.take len ++
        storedBytes (peer.readAll (peer.fcgiRead req len).req lens) := by
      rw [← hreads.stored]
      rfl
    rcases hnext with ⟨htakes, hrest⟩ | ⟨htakes, hrest⟩
    · -- this call stores what is left, the later ones nothing
      have ⟨hall, hnone⟩ := readAll_over lens _ (hreads.atEnd htakes) hrest
      have hwhole : storedBytes (peer.readAll req (len :: lens)) = req.view.1 := by
        rw [hsplit, hnone, append_nil, List.take_of_length_le htakes.1.le]
      refine ⟨?_, by rw [hwhole], fun _ _ => hwhole⟩
      intro r hr
      cases hr with
      | head => exact hret
      | tail _ hr =>
        have ⟨hzero, hstored⟩ := hall r hr
        intro _
        rw [hzero, hstored]
        rfl
    · have ⟨hview, hfinished⟩ := hreads.next htakes
      have hdelivers := ih _ hrest
      refine ⟨?_, ?_, ?_⟩
      · intro r hr
        cases hr with
        | head => exact hret
        | tail _ hr => exact hdelivers.returned r hr
      · have hafter := hdelivers.inOrder
        rw [hview] at hafter
        rw [hsplit]
        conv_rhs => rw [← take_append_drop len req.view.1]
        exact (List.prefix_append_right_inj _).mpr hafter
      · intro hend ⟨call, hmem, hpos, hzero⟩
        rw [hsplit]
        cases hmem with
        | head =>
          -- a call that is asked for bytes and stores none takes the end
          have hnone := hreads.ret (Int.le_of_eq hzero.symm)
          rw [hzero, hreads.stored, length_take] at hnone
          exact absurd ⟨by omega, .inl hend⟩ htakes
        | tail _ hmem =>
          rw [hdelivers.complete (hfinished hend) ⟨call, hmem, hpos, hzero⟩, hview,
            take_append_drop]

def interruptedBody : List UInt8 := [1, 5, 0, 1, 0, 2, 0, 0, 97, 98, 1, 8, 0, 1, 0, 0, 0, 0]

def freshInput (input : List UInt8) : FcgiInput :=
  { inLen := 0, inPad := 0, keep := true, input := input, reads := 0 }

def wholeReads : FcgiPeer := { sizes := fun _ => 255, reset := false }

def shortBody : List UInt8 := [1, 5, 0, 1, 0, 2, 0, 0, 97, 98, 1, 5, 0, 1, 0, 0, 0, 0]

theorem view_shortBody : (freshInput shortBody).view = ([97, 98], .finished) := by
  show stdinView 0 0 shortBody = _
  rw [stdinView_header 0 (by decide) (show stdinHeader shortBody = some (2, 0) from rfl),
    if_neg (by decide), stdinView_record (by decide) (by decide),
    stdinView_header 0 (by decide) (show stdinHeader (_ : List UInt8) = some (0, 0) from rfl),
    if_pos rfl]
  rfl

theorem readsCleanly_finished {view : List UInt8 × StdinEnd} (h : view.2 = .finished) (rest n : ℕ) :
    ReadsCleanly view rest n := by
  constructor
  · intro _ _
    rw [h]
    decide
  · intro last hlast
    rw [h] at hlast
    cases hlast

theorem fcgi_read_delivers_sample : Delivers wholeReads (freshInput shortBody) [1, 5] := by
  have hclean (rest : ℕ) : ReadsCleanly (freshInput shortBody).view rest 0 :=
    readsCleanly_finished (by rw [view_shortBody]) rest 0
  have hpart : ¬ TakesEnd (freshInput shortBody).view 1 := by
    rw [view_shortBody]
    exact fun h => absurd h.1 (by decide)
  have hreads := @readLoop_reads wholeReads 1 (freshInput shortBody) 1 0 le_rfl (hclean 1)
  have ⟨hview, hfinished⟩ := hreads.next hpart
  rw [view_shortBody] at hview hfinished
  have hleft : (wholeReads.fcgiRead (freshInput shortBody) 1).req.view.1 = [98] := hview
  have hend : TakesEnd (wholeReads.fcgiRead (freshInput shortBody) 1).req.view 5 :=
    ⟨by rw [hleft]; decide, .inl (hfinished rfl)⟩
  exact fcgi_read_delivers _ _ ⟨hclean 1,
    .inr ⟨hpart, readsCleanly_finished (hfinished rfl) 5 0, .inl ⟨hend, trivial⟩⟩⟩

/-- The call stores two bytes and returns 0. -/
theorem fcgi_read_loses_bytes : ¬ Delivers wholeReads (freshInput interruptedBody) [10] := by
  intro h
  have hcall : (wholeReads.fcgiRead (freshInput interruptedBody) 10).ret = 0 ∧
      (wholeReads.fcgiRead (freshInput interruptedBody) 10).stored = [97, 98] := by decide
  have hret := h.returned _ (.head _) (Int.le_of_eq hcall.1.symm)
  rw [hcall.1, hcall.2] at hret
  exact absurd hret (by decide)

end Php53.Sapi
