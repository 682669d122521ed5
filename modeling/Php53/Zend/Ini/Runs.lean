import Php53.Zend.Ini.Invariant

/-!
# Runs — what a request leaves of the ini entries

The calls of a request keep the invariant, so that its end finds every changed value on the list.
-/

namespace Php53.Zend

variable {σ : Type} {start s t : IniState σ} {name : IniName} {e b : IniEntry σ}

namespace IniInvariant

theorem run (h : IniInvariant start s) (hstart : RequestStart start) (hmasks : MasksFit start)
    (alloc : Allocator) (call : IniCall) :
    call.run alloc s = .error .bailout ∨ ∃ t, call.run alloc s = .ok t ∧ IniInvariant start t := by
  cases call with
  | alter name newValue modifyType stage forceChange =>
    unfold IniCall.run
    dsimp only
    rcases h.alterIniEntryEx hstart hmasks alloc name newValue modifyType stage forceChange with
      hbail | ⟨r, t, ht, hinv⟩
    · rw [hbail]
      exact Or.inl rfl
    · rw [ht]
      exact Or.inr ⟨t, rfl, hinv⟩
  | restore name stage =>
    unfold IniCall.run
    dsimp only
    obtain ⟨r, t, ht, hinv⟩ := h.restoreIniEntry name stage
    rw [ht]
    exact Or.inr ⟨t, rfl, hinv⟩

theorem runIniCalls (h : IniInvariant start s) (hstart : RequestStart start)
    (hmasks : MasksFit start) (alloc : Allocator) (calls : List IniCall) :
    runIniCalls alloc calls s = .error .bailout ∨
      ∃ t, runIniCalls alloc calls s = .ok t ∧ IniInvariant start t := by
  induction calls generalizing s with
  | nil => exact Or.inr ⟨s, rfl, h⟩
  | cons call calls ih =>
    unfold Zend.runIniCalls at *
    rw [List.foldlM_cons]
    rcases h.run hstart hmasks alloc call with hbail | ⟨t, ht, hinv⟩
    · rw [hbail]
      exact Or.inl rfl
    · rw [ht]
      exact ih hinv

theorem restoreAll (h : IniInvariant start s) (names : List IniName)
    (hnames : s.modifiedIniDirectives = some names) :
    ∃ t, restoreAll names s = .ok t ∧ IniInvariant start t ∧ t.modifiedNames = [] := by
  induction names generalizing s with
  | nil =>
    refine ⟨s, rfl, h, ?_⟩
    unfold IniState.modifiedNames
    rw [hnames]
    rfl
  | cons name names ih =>
    have hmem : name ∈ s.modifiedNames := by
      unfold IniState.modifiedNames
      rw [hnames]
      exact List.mem_cons_self
    obtain ⟨e, he, hm⟩ := (h.listed name).mp hmem
    obtain ⟨b, hb, hkeeps⟩ := h.exists_start he
    have hgo : ¬ (iniStageDeactivate = iniStageRuntime ∧
        (e.tryRestore iniStageDeactivate s).1 = .failure) := fun h => absurd h.1 (by decide)
    obtain ⟨t, ht, hinv, -, hlist⟩ := h.restoreIniEntryCb_restores he hb hkeeps hm hgo
    have hrest : (t.delModified name).modifiedIniDirectives = some names := by
      unfold IniState.delModified
      dsimp only
      rw [hlist, hnames, Option.map_some, List.erase_cons_head]
    unfold Zend.restoreAll
    rw [he]
    dsimp only
    rw [ht]
    exact ih hinv hrest

end IniInvariant

/-- What the end of a request has to leave of the entries that `start` had. -/
structure IniUndone (start t : IniState σ) : Prop where
  entry : ∀ name, Option.Rel IniEntry.Restored (start.iniDirectives name) (t.iniDirectives name)
  noneModified : t.modifiedIniDirectives = none
  persistent : t.strings.persistent = start.strings.persistent
  noDuplicates : t.strings.duplicates = []
  freed : t.strings.freed.Perm (List.range t.strings.duplicated)

theorem IniInvariant.undone (h : IniInvariant start s) (hnames : s.modifiedNames = []) :
    IniUndone start { s with modifiedIniDirectives := none } := by
  have hunmodified : ∀ name e, s.iniDirectives name = some e → e.modified = false := by
    intro name e he
    by_contra hm
    have hmem := (h.listed name).mpr ⟨e, he, by simpa using hm⟩
    rw [hnames] at hmem
    exact absurd hmem List.not_mem_nil
  obtain ⟨hnil, hfreed⟩ := h.strings.all_freed fun a hlive => by
    obtain ⟨name, e, he, howns⟩ := (h.live a).mp hlive
    exact IniEntry.not_owns_of_unmodified (hunmodified name e he) howns
  refine ⟨fun name => ?_, rfl, h.persistent, hnil, hfreed⟩
  have hrel := h.entry name
  cases he : s.iniDirectives name with
  | none =>
    rw [he] at hrel
    cases hb : start.iniDirectives name with
    | none => exact .none
    | some b =>
      rw [hb] at hrel
      exact nomatch hrel
  | some e =>
    obtain ⟨b, hb, hkeeps⟩ := h.exists_start he
    rw [hb]
    exact .some (hkeeps.restored_of_unmodified (hunmodified name e he))

theorem IniInvariant.iniDeactivate (h : IniInvariant start s) :
    ∃ t, iniDeactivate s = .ok t ∧ IniUndone start t := by
  unfold Zend.iniDeactivate
  cases hlist : s.modifiedIniDirectives with
  | none =>
    have hnames : s.modifiedNames = [] := by
      unfold IniState.modifiedNames
      rw [hlist]
      rfl
    have hundone := h.undone hnames
    rw [← hlist] at hundone
    exact ⟨s, rfl, hundone⟩
  | some names =>
    obtain ⟨t, ht, hinv, hnames⟩ := h.restoreAll names hlist
    dsimp only
    rw [ht]
    exact ⟨_, rfl, hinv.undone hnames⟩

def IniEntry.Accepts (e : IniEntry σ) (s : IniState σ) : Prop :=
  e.modified = true → ∀ f, e.onModify = some f →
    (callOnModify f e.origValue e.origValueLength iniStageRuntime s).1 = .returned .success

/-- `zend_restore_ini_entry` succeeds at run time and brings back what `start` had. -/
def RestoredAtRuntime (start : IniState σ) (name : IniName) (s : IniState σ) : Prop :=
  ∃ t, restoreIniEntry name iniStageRuntime s = .ok (.success, t) ∧
    Option.Rel IniEntry.Restored (start.iniDirectives name) (t.iniDirectives name)

theorem IniEntry.tryRestore_of_accepts (haccepts : e.Accepts s) (hm : e.modified = true) :
    (e.tryRestore iniStageRuntime s).1 = .failure ↔ e.onModify = none := by
  unfold tryRestore
  cases hf : e.onModify with
  | none => simp
  | some f =>
    have hresult := haccepts hm f hf
    dsimp only
    generalize callOnModify f e.origValue e.origValueLength iniStageRuntime s = r at *
    obtain ⟨_, s'⟩ := r
    simp only at hresult
    subst hresult
    simp

theorem IniInvariant.restoredAtRuntime_iff (h : IniInvariant start s)
    (he : s.iniDirectives name = some e) (huser : e.modifiable &&& iniUser ≠ 0)
    (haccepts : e.Accepts s) :
    RestoredAtRuntime start name s ↔ e.onModify.isSome ∨ e.modified = false := by
  obtain ⟨b, hb, hkeeps⟩ := h.exists_start he
  unfold RestoredAtRuntime Zend.restoreIniEntry
  rw [he, hb]
  dsimp only
  rw [if_neg (fun h => huser h.2)]
  by_cases hm : e.modified = true
  · rw [if_pos (by rw [h.modifiedIniDirectives_eq he hm]; rfl)]
    have hfails := IniEntry.tryRestore_of_accepts haccepts hm
    by_cases hnone : e.onModify = none
    · have hcb : restoreIniEntryCb name e iniStageRuntime s =
          .ok (1, (e.tryRestore iniStageRuntime s).2) := by
        unfold restoreIniEntryCb
        dsimp only
        rw [if_pos hm, if_pos ⟨rfl, hfails.mpr hnone⟩]
      rw [hcb]
      simp [hnone, hm, bind, Except.bind, pure, Except.pure]
    · obtain ⟨t, ht, -, hrestored, -⟩ := h.restoreIniEntryCb_restores he hb hkeeps hm
        (fun hgo => hnone (hfails.mp hgo.2))
      rw [ht]
      refine iff_of_true ⟨t.delModified name, rfl, ?_⟩
        (Or.inl (Option.isSome_iff_ne_none.mpr hnone))
      have hentry : (t.delModified name).iniDirectives name = some e.restored := hrestored
      rw [hentry]
      exact .some (hkeeps.restored hm)
  · have hm : e.modified = false := by simpa using hm
    refine iff_of_true ?_ (Or.inr hm)
    have hrel : Option.Rel IniEntry.Restored (some b) (s.iniDirectives name) := by
      rw [he]
      exact .some (hkeeps.restored_of_unmodified hm)
    by_cases hlist : s.modifiedIniDirectives.isSome
    · rw [if_pos hlist]
      refine ⟨s, ?_, hrel⟩
      unfold restoreIniEntryCb
      rw [if_neg (by simp [hm])]
      change Except.ok (ZendResult.success, s.delModified name) = _
      rw [h.delModified_of_unmodified he hm]
    · rw [if_neg hlist]
      exact ⟨s, rfl, hrel⟩

/-- After any calls of a request an entry is marked modified if and only if it is on the list, the
end of the request brings everything back, and `zend_restore_ini_entry` brings back at run time
what the user may change and the handler accepts, if there is a handler or nothing to bring back. -/
theorem ini_changes_are_undone (alloc : Allocator) (hstart : RequestStart start)
    (hmasks : MasksFit start) (calls : List IniCall) :
    runIniCalls alloc calls start = .error .bailout ∨
      ∃ s, runIniCalls alloc calls start = .ok s ∧
        (∀ name, name ∈ s.modifiedNames ↔ s.IsModified name) ∧
        (∃ t, iniDeactivate s = .ok t ∧ IniUndone start t) ∧
        ∀ name e, s.iniDirectives name = some e → e.modifiable &&& iniUser ≠ 0 → e.Accepts s →
          (RestoredAtRuntime start name s ↔ e.onModify.isSome ∨ e.modified = false) := by
  rcases hstart.invariant.runIniCalls hstart hmasks alloc calls with hbail | ⟨s, hs, h⟩
  · exact Or.inl hbail
  · exact Or.inr ⟨s, hs, h.listed, h.iniDeactivate, fun _ _ he huser haccepts =>
      h.restoredAtRuntime_iff he huser haccepts⟩

/-- An allocator that gives out the first address above those in use. -/
def Allocator.above : Allocator where
  next _ live := live.foldr (fun a b => max (a + 1) b) 1
  fresh _ live h := by
    have hlt : ∀ a ∈ live, a < live.foldr (fun a b => max (a + 1) b) 1 := by
      clear h
      induction live with
      | nil => simp
      | cons x xs ih =>
        intro a ha
        simp only [List.foldr_cons]
        rcases List.mem_cons.mp ha with rfl | ha
        · exact Nat.lt_of_lt_of_le (Nat.lt_succ_self a) (Nat.le_max_left _ _)
        · exact Nat.lt_of_lt_of_le (ih a ha) (Nat.le_max_right _ _)
    exact absurd (hlt _ h) (Nat.lt_irrefl _)

/-- `sendmail_from`: the user may change it, there is no handler and no value. -/
def sendmailFrom : IniName :=
  [115, 101, 110, 100, 109, 97, 105, 108, 95, 102, 114, 111, 109]

def sendmailStart : IniState Unit where
  iniDirectives name := if name = sendmailFrom then
    some { modifiable := iniAll, onModify := none, value := none, valueLength := 0, origValue := none
           origValueLength := 0, origModifiable := 0, modified := false } else none
  modifiedIniDirectives := none
  strings := { persistent := [], duplicates := [], duplicated := 0, freed := [] }
  globals := ()

/-- `ini_set('sendmail_from', 'a@b')` -/
def setSendmail : IniCall := .alter sendmailFrom [97, 64, 98] iniUser iniStageRuntime false

theorem sendmailStart_request : RequestStart sendmailStart where
  entry name e he := by
    unfold sendmailStart at he
    dsimp only at he
    split at he
    · rw [← Option.some.inj he]
      exact ⟨rfl, fun a ha => nomatch ha⟩
    · exact nomatch he
  noneModified := rfl
  noDuplicates := rfl
  noneDuplicated := rfl
  noneFreed := rfl

theorem sendmailStart_masks : MasksFit sendmailStart := by
  intro name e he
  unfold sendmailStart at he
  dsimp only at he
  split at he
  · rw [← Option.some.inj he]
    decide
  · exact nomatch he

theorem ini_changes_are_undone_sendmail :
    runIniCalls .above [setSendmail] sendmailStart = .error .bailout ∨
      ∃ s, runIniCalls .above [setSendmail] sendmailStart = .ok s ∧
        (∀ name, name ∈ s.modifiedNames ↔ s.IsModified name) ∧
        (∃ t, iniDeactivate s = .ok t ∧ IniUndone sendmailStart t) ∧
        ∀ name e, s.iniDirectives name = some e → e.modifiable &&& iniUser ≠ 0 → e.Accepts s →
          (RestoredAtRuntime sendmailStart name s ↔ e.onModify.isSome ∨ e.modified = false) :=
  ini_changes_are_undone .above sendmailStart_request sendmailStart_masks [setSendmail]

/-- `ini_restore('sendmail_from')` behind it fails, and the new value stays. -/
theorem sendmail_is_not_restored : ∃ s e, runIniCalls .above [setSendmail] sendmailStart = .ok s ∧
    s.iniDirectives sendmailFrom = some e ∧ e.modifiable &&& iniUser ≠ 0 ∧ e.onModify.isNone ∧
    ∃ t e', restoreIniEntry sendmailFrom iniStageRuntime s = .ok (.failure, t) ∧
      t.iniDirectives sendmailFrom = some e' ∧ e'.value = some 1 ∧
      t.strings.text e'.value = some [97, 64, 98] :=
  ⟨_, _, rfl, rfl, by decide, rfl, _, _, rfl, rfl, rfl, rfl⟩

end Php53.Zend
