import Php53.Main.UploadRuns
import Php53.Main.QueryText

/-!
# UploadSkips — which files of a request are processed

`skip_upload` is set for one part and never cleared.  The settings and the number of files that were
taken stay as they are behind a part that they skip, so the later ones are skipped for the same
reason.  Behind a name whose brackets are not closed the flag itself is the reason.
-/

open Reasoning

namespace Php53.Main

open Zend List

def Balanced (param : List UInt8) : Prop :=
  ∃ base indices, FieldName param base indices ∧ ch ']' ∉ base

theorem bracketsClosed_append {c : Int} {base rest : List UInt8} (hc : 0 ≤ c)
    (hopen : ch '[' ∉ base) (hclose : ch ']' ∉ base) :
    bracketsClosed c (base ++ rest) = bracketsClosed c rest := by
  induction base with
  | nil => rfl
  | cons b base ih =>
    rw [mem_cons, not_or] at hopen hclose
    have hb : b ≠ ch '[' ∧ b ≠ ch ']' := ⟨Ne.symm hopen.1, Ne.symm hclose.1⟩
    rw [cons_append, bracketsClosed, if_neg hb.1, if_neg hb.2, if_neg (fun h => hb.2 h.1),
      if_neg (by omega)]
    exact ih hopen.2 hclose.2

theorem bracketsClosed_joined {indices : List (List UInt8)} (hopen : ∀ i ∈ indices, ch '[' ∉ i)
    (hclose : ∀ i ∈ indices, ch ']' ∉ i) : bracketsClosed 0 (joined indices none) = true := by
  induction indices with
  | nil => rfl
  | cons index indices ih =>
    have hrest := ih (fun i hi => hopen i (mem_cons_of_mem _ hi))
      (fun i hi => hclose i (mem_cons_of_mem _ hi))
    -- behind the bracket stands another one, or nothing
    have hnext : joined indices none = [] ∨ (joined indices none).head? = some (ch '[') := by
      cases indices with
      | nil => exact .inl rfl
      | cons i is => exact .inr (by rw [joined_cons]; rfl)
    have hbrackets : ch '[' ≠ ch ']' := by decide
    rw [joined_cons, bracketsClosed, if_pos rfl, if_neg (fun h => hbrackets h.1),
      if_neg (by decide), bracketsClosed_append (by decide) (hopen index mem_cons_self)
        (hclose index mem_cons_self), bracketsClosed, if_neg hbrackets.symm, if_pos rfl,
      if_neg (fun h => hnext.elim h.2.1 h.2.2), if_neg (by decide)]
    exact hrest

theorem notMem_of_bracketsClosed {base rest : List UInt8}
    (h : bracketsClosed 0 (base ++ rest) = true) (hopen : ch '[' ∉ base) : ch ']' ∉ base := by
  induction base with
  | nil => exact not_mem_nil
  | cons b base ih =>
    rw [mem_cons, not_or] at hopen ⊢
    have ⟨_, hclosed, hother⟩ := bracketsClosed_cons h
    by_cases hb : b = ch ']'
    · have hneg := (hclosed hb).1
      omega
    · exact ⟨Ne.symm hb, ih (hother (Ne.symm hopen.1) hb) hopen.2⟩

theorem bracketsClosed_iff {param : List UInt8} :
    bracketsClosed 0 param = true ↔ Balanced param := by
  constructor
  · intro h
    have ⟨base, indices, hname⟩ := exists_fieldName h
    rw [hname.text] at h
    exact ⟨base, indices, hname, notMem_of_bracketsClosed h hname.base⟩
  · intro ⟨base, indices, hname, hclose⟩
    rw [hname.text, bracketsClosed_append (by decide) hname.base hclose]
    exact bracketsClosed_joined hname.opened hname.closed

theorem bracketsClosed_printLong (l : BitVec 64) : bracketsClosed 0 (printLong l) = true := by
  have hmem : ∀ c ∈ printLong l, c ≠ ch '[' ∧ c ≠ ch ']' := by
    intro c hc
    rcases mem_printLong hc with hdigit | rfl
    · constructor
      · rintro rfl
        exact absurd hdigit (by decide)
      · rintro rfl
        exact absurd hdigit (by decide)
    · decide
  have h := @bracketsClosed_append 0 (printLong l) [] (by decide)
    (fun hc => (hmem _ hc).1 rfl) (fun hc => (hmem _ hc).2 rfl)
  rw [append_nil] at h
  rw [h]
  rfl

def WellNamed (part : Part) : Prop := ∀ param ∈ part.param, Balanced param

section Step

variable {settings : Settings} {s s' : Handler} {part : Part}

theorem acceptFile_skipUpload : (acceptFile settings part.param s).2.skipUpload = false ↔
    s.skipUpload = false ∧ settings.fileUploads = true ∧ 0 < s.uploadCnt ∧ WellNamed part := by
  have hnamed : bracketsClosed 0 (acceptFile settings part.param s).1 = true ↔ WellNamed part := by
    unfold WellNamed acceptFile
    cases part.param with
    | none => simp [bracketsClosed_printLong]
    | some param => simp [bracketsClosed_iff]
  rw [← hnamed]
  unfold acceptFile
  simp only [Bool.or_eq_false_iff, Bool.not_eq_false', decide_eq_false_iff_not, not_le]
  tauto

theorem accepted_ne_none_iff : accepted settings s part ≠ none ↔
    part.filename ≠ none ∧ s.skipUpload = false ∧ settings.fileUploads = true ∧ 0 < s.uploadCnt ∧
      WellNamed part := by
  rw [← acceptFile_skipUpload, accepted]
  cases part.filename with
  | none => simp
  | some filename => cases (acceptFile settings part.param s).2.skipUpload <;> simp

def taken (settings : Settings) (s : Handler) (part : Part) : Nat :=
  match accepted settings s part with
  | some (_, _ :: _) => 1
  | _ => 0

theorem step_flags (h : step settings s part = some s') :
    s'.uploadCnt = s.uploadCnt - taken settings s part ∧
      (s'.skipUpload = true ↔
        if part.filename = none then s.skipUpload = true else accepted settings s part = none) := by
  unfold taken accepted
  rw [step] at h
  cases hfilename : part.filename with
  | none =>
    rw [hfilename] at h
    obtain ⟨param, _, hs'⟩ := Option.map_eq_some_iff.mp h
    subst hs'
    simp [formField]
  | some filename =>
    rw [hfilename] at h
    dsimp only at h
    have hcnt : (acceptFile settings part.param s).2.uploadCnt = s.uploadCnt := rfl
    by_cases hskip : (acceptFile settings part.param s).2.skipUpload = true
    · rw [if_pos hskip] at h
      cases h
      simp [hskip, hcnt]
    · rw [if_neg hskip] at h
      cases h
      cases filename <;> simp [hskip, hcnt, registerFile, receiveFile]

theorem taken_eq_zero (h : accepted settings s part = none) : taken settings s part = 0 := by
  unfold taken
  rw [h]

def wanted (part : Part) : Bool :=
  part.filename.any (· ≠ []) && part.param.all (bracketsClosed 0)

theorem taken_of_accepted (h : accepted settings s part ≠ none) :
    taken settings s part = if wanted part then 1 else 0 := by
  have hnamed : part.param.all (bracketsClosed 0) = true := by
    have ⟨_, _, _, _, hnamed⟩ := accepted_ne_none_iff.mp h
    rw [Option.all_eq_true]
    intro param hparam
    exact bracketsClosed_iff.mpr (hnamed param hparam)
  unfold taken wanted
  rw [hnamed]
  unfold accepted at h ⊢
  cases hfilename : part.filename with
  | none =>
    rw [hfilename] at h
    exact absurd rfl h
  | some filename =>
    rw [hfilename, Option.bind_some] at h
    rw [Option.bind_some]
    split at h
    · exact absurd rfl h
    · next hskip =>
      rw [if_neg hskip]
      cases filename with
      | nil => rfl
      | cons c filename => rfl

theorem taken_le (settings : Settings) (s : Handler) (part : Part) :
    taken settings s part ≤ if wanted part then 1 else 0 := by
  by_cases h : accepted settings s part = none
  · rw [taken_eq_zero h]
    exact Nat.zero_le _
  · exact le_of_eq (taken_of_accepted h)

def Garbled (part : Part) : Prop := part.filename = none ∧ part.param = none

theorem step_eq_none_iff : step settings s part = none ↔ Garbled part := by
  unfold step Garbled
  cases part.filename with
  | none => simp
  | some filename =>
    dsimp only
    split <;> simp

end Step

def filesTaken (settings : Settings) : Handler → List Part → Nat
  | _, [] => 0
  | s, part :: parts =>
    taken settings s part +
      match step settings s part with
      | some s' => filesTaken settings s' parts
      | none => 0

section Runs

variable {settings : Settings} {s t : Handler} {before : List Part}

theorem filesTaken_append (h : Run (step settings) (fun _ _ => True) s before t)
    (parts : List Part) :
    filesTaken settings s (before ++ parts) =
      filesTaken settings s before + filesTaken settings t parts := by
  induction h generalizing parts with
  | nil => simp [filesTaken]
  | snoc hrun _ hstep ih =>
    rw [append_assoc, singleton_append, ih, ih, filesTaken, filesTaken, hstep]
    dsimp only [filesTaken]
    omega

theorem filesTaken_concat (h : Run (step settings) (fun _ _ => True) s before t) (part : Part) :
    filesTaken settings s (before ++ [part]) =
      filesTaken settings s before + taken settings t part := by
  rw [filesTaken_append h, filesTaken]
  cases step settings t part with
  | none => rfl
  | some t' => rfl

theorem filesTaken_le (s : Handler) (parts : List Part) :
    filesTaken settings s parts ≤ parts.countP wanted := by
  induction parts generalizing s with
  | nil => exact Nat.le_refl 0
  | cons part parts ih =>
    have hpart := taken_le settings s part
    rw [filesTaken, countP_cons]
    cases step settings s part with
    | none =>
      dsimp only
      omega
    | some s' =>
      have hrest := ih s'
      dsimp only
      omega

theorem filesTaken_of_skipUpload (h : s.skipUpload = true) (parts : List Part) :
    filesTaken settings s parts = 0 := by
  induction parts generalizing s with
  | nil => rfl
  | cons part parts ih =>
    have hnone : accepted settings s part = none := by
      by_contra haccepted
      have ⟨_, hskip, _⟩ := accepted_ne_none_iff.mp haccepted
      rw [h] at hskip
      exact nomatch hskip
    rw [filesTaken, taken_eq_zero hnone]
    cases hstep : step settings s part with
    | none => rfl
    | some s' =>
      have hskip : s'.skipUpload = true := by
        rw [(step_flags hstep).2]
        split
        · exact h
        · exact hnone
      dsimp only
      rw [ih hskip]

def Refused (settings : Settings) (before : List Part) (bad : Part) : Prop :=
  bad.filename ≠ none ∧ ¬WellNamed bad ∧ (before.countP wanted : Int) < settings.maxFileUploads

/-- What the flag and the counter say about the parts before. -/
structure History (settings : Settings) (before : List Part) (s : Handler) : Prop where
  counted : s.uploadCnt = settings.maxFileUploads - filesTaken settings (start settings) before
  clear : s.skipUpload = false → filesTaken settings (start settings) before = before.countP wanted
  skipped : s.skipUpload = true → settings.fileUploads = false ∨ s.uploadCnt ≤ 0 ∨
    ∃ first bad rest, before = first ++ bad :: rest ∧ Refused settings first bad

theorem History.concat (h : History settings before s) {part : Part}
    (hrun : Run (step settings) (fun _ _ => True) (start settings) before s)
    (hstep : step settings s part = some t) : History settings (before ++ [part]) t := by
  have ⟨hcnt, hskip⟩ := step_flags hstep
  have htaken := filesTaken_concat hrun part
  have hcounted := h.counted
  have hearlier : s.skipUpload = true → settings.fileUploads = false ∨ t.uploadCnt ≤ 0 ∨
      ∃ first bad rest, before ++ [part] = first ++ bad :: rest ∧ Refused settings first bad := by
    intro hs
    rcases h.skipped hs with hoff | hnone | ⟨first, bad, rest, rfl, hbad⟩
    · exact .inl hoff
    · exact .inr (.inl (by omega))
    · exact .inr (.inr ⟨first, bad, rest ++ [part], by simp, hbad⟩)
  constructor
  · omega
  · intro hclear
    rw [htaken, countP_append, countP_singleton]
    have hnot : ¬(t.skipUpload = true) := by simp [hclear]
    rw [hskip] at hnot
    by_cases hfile : part.filename = none
    · rw [if_pos hfile] at hnot
      have hnone : accepted settings s part = none := by
        unfold accepted
        rw [hfile]
        rfl
      have hwanted : wanted part = false := by
        unfold wanted
        rw [hfile]
        rfl
      rw [taken_eq_zero hnone, hwanted, h.clear (Bool.eq_false_iff.mpr hnot)]
      rfl
    · rw [if_neg hfile] at hnot
      have ⟨_, hs, _⟩ := accepted_ne_none_iff.mp hnot
      rw [taken_of_accepted hnot, h.clear hs]
  · intro ht
    rw [hskip] at ht
    by_cases hfile : part.filename = none
    · rw [if_pos hfile] at ht
      exact hearlier ht
    · rw [if_neg hfile] at ht
      by_cases hs : s.skipUpload = true
      · exact hearlier hs
      · have hs := Bool.eq_false_iff.mpr hs
        have hzero := taken_eq_zero ht
        by_cases hoff : settings.fileUploads = false
        · exact .inl hoff
        · by_cases hleft : s.uploadCnt ≤ 0
          · exact .inr (.inl (by omega))
          · -- nothing but the name is left
            have hon := Bool.eq_true_of_not_eq_false hoff
            have hnamed : ¬WellNamed part := fun hnamed =>
              absurd ht (accepted_ne_none_iff.mpr ⟨hfile, hs, hon, by omega, hnamed⟩)
            have hclear := h.clear hs
            exact .inr (.inr ⟨before, part, [], rfl, hfile, hnamed, by omega⟩)

theorem history (h : Run (step settings) (fun _ _ => True) (start settings) before s) :
    History settings before s := by
  generalize hstart : start settings = s₀ at h
  induction h with
  | nil =>
    subst hstart
    exact ⟨by simp [start, filesTaken], fun _ => rfl, fun hskip => nomatch hskip⟩
  | snoc hrun _ hstep ih =>
    subst hstart
    exact ih.concat hrun hstep

theorem skipUpload_of_mem (h : Run (step settings) (fun _ _ => True) s before t) {bad : Part}
    (hbad : bad ∈ before) (hfile : bad.filename ≠ none) (hnamed : ¬WellNamed bad) :
    t.skipUpload = true := by
  induction h with
  | nil => exact absurd hbad not_mem_nil
  | snoc _ _ hstep ih =>
    rw [(step_flags hstep).2]
    have hnone : ∀ {s part}, s.skipUpload = true ∨ ¬WellNamed part →
        accepted settings s part = none := by
      intro s part hor
      by_contra haccepted
      have ⟨_, hskip, _, _, hname⟩ := accepted_ne_none_iff.mp haccepted
      rcases hor with hs | hbad
      · rw [hs] at hskip
        exact nomatch hskip
      · exact hbad hname
    rcases mem_append.mp hbad with hbefore | hlast
    · have hs := ih hbefore
      split
      · exact hs
      · exact hnone (.inl hs)
    · rw [← mem_singleton.mp hlast, if_neg hfile]
      exact hnone (.inr hnamed)

theorem not_garbled (h : Run (step settings) (fun _ _ => True) s before t) :
    ∀ part ∈ before, ¬Garbled part := by
  induction h with
  | nil => exact fun _ hpart => absurd hpart not_mem_nil
  | snoc _ _ hstep ih =>
    intro part hpart
    rcases mem_append.mp hpart with hpart | hpart
    · exact ih part hpart
    · rw [mem_singleton.mp hpart, ← step_eq_none_iff, hstep]
      exact nofun

variable (settings) in
theorem exists_run (s : Handler) (h : ∀ part ∈ before, ¬Garbled part) :
    ∃ t, Run (step settings) (fun _ _ => True) s before t := by
  induction before using reverseRecOn with
  | nil => exact ⟨s, .nil s⟩
  | append_singleton before part ih =>
    have ⟨t, hrun⟩ := ih fun p hp => h p (mem_append_left _ hp)
    have hpart := h part (mem_append_right _ mem_cons_self)
    rw [← @step_eq_none_iff settings t] at hpart
    have ⟨u, hstep⟩ := Option.ne_none_iff_exists'.mp hpart
    exact ⟨u, .snoc hrun trivial hstep⟩

end Runs

/-- Whether a file with a balanced name is processed depends on `file_uploads` and on the number of
files that were taken before. -/
def FilesIndependent (settings : Settings) (parts : List Part) : Prop :=
  ∀ before part after s, parts = before ++ part :: after →
    Run (step settings) (fun _ _ => True) (start settings) before s →
    part.filename ≠ none → WellNamed part →
    (accepted settings s part ≠ none ↔ settings.fileUploads = true ∧
      (filesTaken settings (start settings) before : Int) < settings.maxFileUploads)

def BehindRefused (settings : Settings) (parts : List Part) : Prop :=
  ∃ first bad between good after, parts = first ++ bad :: (between ++ good :: after) ∧
    Refused settings first bad ∧ good.filename ≠ none ∧ WellNamed good ∧
    ∀ part ∈ first ++ bad :: between, ¬Garbled part

/-- In every request the files are independent of each other, unless uploads are on and one of them
comes behind a file that is refused for its name. -/
theorem filesIndependent_iff (settings : Settings) (parts : List Part) :
    FilesIndependent settings parts ↔
      (settings.fileUploads = true → ¬BehindRefused settings parts) := by
  constructor
  · intro h hon ⟨first, bad, between, good, after, hparts, ⟨hfile, hbad, hleft⟩, hgood, hnamed,
      hreached⟩
    have ⟨t, hfirst⟩ := exists_run settings (start settings)
      fun p hp => hreached p (List.mem_append_left _ hp)
    have ⟨s, hrun⟩ := exists_run settings (start settings) hreached
    have hnone : accepted settings t bad = none := by
      by_contra haccepted
      exact hbad (accepted_ne_none_iff.mp haccepted).2.2.2.2
    -- the refused file sets the flag, and nothing is taken behind it
    have hdefined : step settings t bad ≠ none :=
      mt step_eq_none_iff.mp (hreached bad (List.mem_append_right _ mem_cons_self))
    have ⟨t', hstep⟩ := Option.ne_none_iff_exists'.mp hdefined
    have hskip : t'.skipUpload = true := by
      rw [(step_flags hstep).2, if_neg hfile]
      exact hnone
    have htaken : filesTaken settings (start settings) (first ++ bad :: between) =
        filesTaken settings (start settings) first := by
      rw [filesTaken_append hfirst, filesTaken, taken_eq_zero hnone, hstep]
      dsimp only
      rw [filesTaken_of_skipUpload hskip]
      omega
    have hle := @filesTaken_le settings (start settings) first
    have haccepted := (h (first ++ bad :: between) good after s (by rw [hparts]; simp) hrun hgood
      hnamed).mpr ⟨hon, by omega⟩
    have ⟨_, hclear, _⟩ := accepted_ne_none_iff.mp haccepted
    have hset := skipUpload_of_mem hrun
      (List.mem_append_right _ mem_cons_self) hfile hbad
    rw [hset] at hclear
    exact nomatch hclear
  · intro h before part after s hparts hrun hfile hnamed
    have hhistory := history hrun
    have hcounted := hhistory.counted
    rw [accepted_ne_none_iff]
    constructor
    · intro ⟨_, _, hon, hcnt, _⟩
      exact ⟨hon, by omega⟩
    · intro ⟨hon, hleft⟩
      refine ⟨hfile, ?_, hon, by omega, hnamed⟩
      by_contra hskip
      rcases hhistory.skipped (Bool.eq_true_of_not_eq_false hskip) with hoff | hcnt |
        ⟨first, bad, rest, rfl, hbad⟩
      · rw [hon] at hoff
        exact nomatch hoff
      · omega
      · exact h hon ⟨first, bad, rest, part, after, by rw [hparts]; simp, hbad, hfile, hnamed,
          not_garbled hrun⟩

/-- A file `f` of the field `a[`. -/
def partOpen : Part := { param := some [97, 91], filename := some [102] }

/-- Behind a file of the field `a[`, one of the field `a[]` is skipped. -/
theorem file_skipped_behind_refused : ¬FilesIndependent twentyFiles [partOpen, partOfA] := by
  intro h
  have hnamed : WellNamed partOfA := by
    intro param hparam
    cases hparam
    exact bracketsClosed_iff.mp rfl
  have haccepted := (h [partOpen] partOfA [] _ rfl (.snoc (.nil _) trivial rfl) nofun hnamed).mpr
    ⟨rfl, by decide⟩
  exact haccepted rfl

end Php53.Main
