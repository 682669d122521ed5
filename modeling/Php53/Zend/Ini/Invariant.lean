import Php53.Zend.Ini.Entry

/-!
# Invariant — what is always true of the ini entries

`IniInvariant start s` relates the state at the start of the request to a later one.  Every entry
keeps, in one place or the other, what it was at the start, and the duplicates in use are exactly
those that a modified entry points at, each owned by one entry.
-/

namespace Php53.Zend

variable {σ : Type}

namespace IniState

/-- The elements of `EG(modified_ini_directives)`. -/
def modifiedNames (s : IniState σ) : List IniName := s.modifiedIniDirectives.getD []

theorem modifiedNames_delModified (s : IniState σ) (name : IniName) :
    (s.delModified name).modifiedNames = s.modifiedNames.erase name := by
  unfold modifiedNames delModified
  cases s.modifiedIniDirectives with
  | none => rfl
  | some names => rfl

theorem modifiedNames_addModified {s : IniState σ} {names : List IniName} {name : IniName}
    (h : s.modifiedIniDirectives = some names) (hname : name ∉ names) :
    (s.addModified name).modifiedNames = names ++ [name] := by
  unfold modifiedNames addModified
  rw [h, Option.map_some, if_neg hname]
  rfl

def IsModified (s : IniState σ) (name : IniName) : Prop :=
  ∃ e, s.iniDirectives name = some e ∧ e.modified = true

end IniState

namespace IniEntry

def Owns (e : IniEntry σ) (a : Address) : Prop :=
  e.modified = true ∧ e.value ≠ e.origValue ∧ e.value = some a

/-- `b` can be brought back from `e`. -/
structure Keeps (b e : IniEntry σ) : Prop where
  onModify : e.onModify = b.onModify
  saved : e.modified = true → e.origValue = b.value ∧ e.origValueLength = b.valueLength ∧
    e.origModifiable = b.modifiable
  unchanged : e.modified = false → e.value = b.value ∧ e.valueLength = b.valueLength ∧
    e.modifiable = b.modifiable
  owns : e.modified = true → e.value ≠ e.origValue → ∃ a, e.Owns a

/-- `e` is what `b` was, and is not marked as modified. -/
structure Restored (b e : IniEntry σ) : Prop where
  onModify : e.onModify = b.onModify
  value : e.value = b.value
  valueLength : e.valueLength = b.valueLength
  modifiable : e.modifiable = b.modifiable
  unmodified : e.modified = false

theorem Owns.unique {e : IniEntry σ} {a b : Address} (ha : e.Owns a) (hb : e.Owns b) : a = b :=
  Option.some.inj (ha.2.2.symm.trans hb.2.2)

theorem not_owns_of_unmodified {e : IniEntry σ} {a : Address} (h : e.modified = false) :
    ¬ e.Owns a := by
  intro howns
  exact nomatch h.symm.trans howns.1

theorem Keeps.restored_of_unmodified {b e : IniEntry σ} (h : b.Keeps e) (hm : e.modified = false) :
    b.Restored e :=
  ⟨h.onModify, (h.unchanged hm).1, (h.unchanged hm).2.1, (h.unchanged hm).2.2, hm⟩

theorem Keeps.restored {b e : IniEntry σ} (h : b.Keeps e) (hm : e.modified = true) :
    b.Restored e.restored :=
  ⟨h.onModify, (h.saved hm).1, (h.saved hm).2.1, (h.saved hm).2.2, rfl⟩

theorem Restored.keeps {b e : IniEntry σ} (h : b.Restored e) : b.Keeps e where
  onModify := h.onModify
  saved hm := by simp [h.unmodified] at hm
  unchanged _ := ⟨h.value, h.valueLength, h.modifiable⟩
  owns hm := by simp [h.unmodified] at hm

end IniEntry

/-- A request begins: nothing is modified, the request's heap is empty, and the values are strings
that are not in it. -/
structure RequestStart (s : IniState σ) : Prop where
  entry : ∀ name e, s.iniDirectives name = some e → e.modified = false ∧
    ∀ a, e.value = some a → a ∈ s.strings.persistent.map (·.1)
  noneModified : s.modifiedIniDirectives = none
  noDuplicates : s.strings.duplicates = []
  noneDuplicated : s.strings.duplicated = 0
  noneFreed : s.strings.freed = []

structure IniInvariant (start s : IniState σ) : Prop where
  persistent : s.strings.persistent = start.strings.persistent
  strings : s.strings.WellFormed
  entry : ∀ name, Option.Rel IniEntry.Keeps (start.iniDirectives name) (s.iniDirectives name)
  nodup : s.modifiedNames.Nodup
  listed : ∀ name, name ∈ s.modifiedNames ↔ s.IsModified name
  live : ∀ a, s.strings.Live a ↔ ∃ name e, s.iniDirectives name = some e ∧ e.Owns a
  apart : ∀ {name name' e e' a}, s.iniDirectives name = some e → s.iniDirectives name' = some e' →
    e.Owns a → e'.Owns a → name = name'

variable {start s t : IniState σ} {name : IniName} {e e' b : IniEntry σ}

theorem RequestStart.invariant (h : RequestStart s) : IniInvariant s s where
  persistent := rfl
  strings := by
    constructor
    · rw [h.noDuplicates]
      exact List.nodup_nil
    · rw [h.noDuplicates, h.noneFreed, h.noneDuplicated]
      exact List.Perm.refl _
  entry name := by
    cases he : s.iniDirectives name with
    | none => exact .none
    | some e =>
      have hrestored : e.Restored e := ⟨rfl, rfl, rfl, rfl, (h.entry name e he).1⟩
      exact .some hrestored.keeps
  nodup := by
    unfold IniState.modifiedNames
    simp [h.noneModified]
  listed name := by
    unfold IniState.modifiedNames
    rw [h.noneModified]
    constructor
    · simp
    · rintro ⟨e, he, hm⟩
      simp [(h.entry name e he).1] at hm
  live a := by
    rw [Strings.Live, h.noDuplicates]
    constructor
    · simp
    · rintro ⟨name, e, he, howns⟩
      exact absurd howns (IniEntry.not_owns_of_unmodified (h.entry name e he).1)
  apart he _ howns _ := absurd howns (IniEntry.not_owns_of_unmodified (h.entry _ _ he).1)

namespace IniInvariant

theorem globals (h : IniInvariant start s) (globals : σ) : IniInvariant start { s with globals } where
  persistent := h.persistent
  strings := h.strings
  entry := h.entry
  nodup := h.nodup
  listed := h.listed
  live := h.live
  apart := h.apart

theorem exists_start (h : IniInvariant start s) (he : s.iniDirectives name = some e) :
    ∃ b, start.iniDirectives name = some b ∧ b.Keeps e := by
  have hrel := h.entry name
  rw [he] at hrel
  cases hb : start.iniDirectives name with
  | none =>
    rw [hb] at hrel
    exact nomatch hrel
  | some b =>
    rw [hb] at hrel
    cases hrel with
    | some hkeeps => exact ⟨b, rfl, hkeeps⟩

theorem update (h : IniInvariant start s) (e' : IniEntry σ) (he : s.iniDirectives name = some e)
    (hb : start.iniDirectives name = some b) (hkeeps : b.Keeps e')
    (hentries : t.iniDirectives = Function.update s.iniDirectives name (some e'))
    (hnodup : t.modifiedNames.Nodup)
    (hnames : ∀ n, n ∈ t.modifiedNames ↔
      n = name ∧ e'.modified = true ∨ n ≠ name ∧ n ∈ s.modifiedNames)
    (hstrings : t.strings.WellFormed) (hpersistent : t.strings.persistent = s.strings.persistent)
    (hlive : ∀ a, t.strings.Live a ↔ e'.Owns a ∨ s.strings.Live a ∧ ¬ e.Owns a)
    (hnew : ∀ a, e'.Owns a → s.strings.Live a → e.Owns a) : IniInvariant start t := by
  have hname : t.iniDirectives name = some e' := by rw [hentries, Function.update_self]
  have hother : ∀ {n}, n ≠ name → t.iniDirectives n = s.iniDirectives n := by
    intro n hn
    rw [hentries, Function.update_of_ne hn]
  -- what another entry owns is neither freed nor owned by the changed one
  have hkept : ∀ {n f a}, n ≠ name → s.iniDirectives n = some f → f.Owns a →
      s.strings.Live a ∧ ¬ e.Owns a := by
    intro n f a hn hf howns
    exact ⟨(h.live a).mpr ⟨n, f, hf, howns⟩, fun howns' => hn (h.apart hf he howns howns')⟩
  refine ⟨hpersistent.trans h.persistent, hstrings, fun n => ?_, hnodup, fun n => ?_, fun a => ?_,
    fun {n n' f f' a} hf hf' howns howns' => ?_⟩
  · by_cases hn : n = name
    · subst hn
      rw [hb, hname]
      exact .some hkeeps
    · rw [hother hn]
      exact h.entry n
  · rw [hnames]
    by_cases hn : n = name
    · subst hn
      simp [IniState.IsModified, hname]
    · simp only [hn, false_and, ne_eq, not_false_iff, true_and, false_or, IniState.IsModified,
        hother hn]
      exact h.listed n
  · rw [hlive]
    constructor
    · rintro (howns | ⟨hlive, hnot⟩)
      · exact ⟨name, e', hname, howns⟩
      · obtain ⟨n, f, hf, howns⟩ := (h.live a).mp hlive
        have hn : n ≠ name := by
          rintro rfl
          rw [he] at hf
          exact hnot (Option.some.inj hf ▸ howns)
        exact ⟨n, f, (hother hn).trans hf, howns⟩
    · rintro ⟨n, f, hf, howns⟩
      by_cases hn : n = name
      · subst hn
        rw [hname] at hf
        exact Or.inl (Option.some.inj hf ▸ howns)
      · exact Or.inr (hkept hn ((hother hn).symm.trans hf) howns)
  · have hclash : ∀ {m g}, m ≠ name → t.iniDirectives m = some g → g.Owns a → ¬ e'.Owns a := by
      intro m g hm hg hgowns howns
      have hk := hkept hm ((hother hm).symm.trans hg) hgowns
      exact hk.2 (hnew a howns hk.1)
    by_cases hn : n = name <;> by_cases hn' : n' = name
    · rw [hn, hn']
    · subst hn
      rw [hname] at hf
      exact absurd (Option.some.inj hf ▸ howns) (hclash hn' hf' howns')
    · subst hn'
      rw [hname] at hf'
      exact absurd (Option.some.inj hf' ▸ howns') (hclash hn hf howns)
    · exact h.apart ((hother hn).symm.trans hf) ((hother hn').symm.trans hf') howns howns'

end IniInvariant

theorem IniEntry.tryRestore_state (e : IniEntry σ) (stage : Int) (s : IniState σ) :
    ∃ globals, (e.tryRestore stage s).2 = { s with globals } := by
  unfold tryRestore
  cases e.onModify with
  | none => exact ⟨s.globals, rfl⟩
  | some f =>
    dsimp only [callOnModify]
    generalize f e.origValue (s.strings.text e.origValue) e.origValueLength stage s.globals = r
    obtain ⟨_ | _, globals⟩ := r
    · exact ⟨globals, rfl⟩
    · exact ⟨globals, rfl⟩

theorem IniEntry.tryModify_state (e : IniEntry σ) (duplicate : Address) (length : Nat) (stage : Int)
    (s : IniState σ) : ∃ globals, (e.tryModify duplicate length stage s).2 = { s with globals } := by
  unfold tryModify
  cases e.onModify with
  | none => exact ⟨s.globals, rfl⟩
  | some f => exact ⟨_, rfl⟩

theorem efree_value (hstrings : s.strings.WellFormed)
    (howns : e.value ≠ e.origValue → ∃ a, e.Owns a)
    (hlive : ∀ a, e.Owns a → s.strings.Live a) :
    ∃ strings, s.efreeWhen (e.value ≠ e.origValue) e.value = .ok { s with strings } ∧
      strings.WellFormed ∧ strings.persistent = s.strings.persistent ∧
      ∀ a, strings.Live a ↔ s.strings.Live a ∧ ¬ e.Owns a := by
  unfold IniState.efreeWhen
  by_cases hvalue : e.value ≠ e.origValue
  · rw [if_pos hvalue]
    obtain ⟨a, ha⟩ := howns hvalue
    obtain ⟨m', hm', hwell, hpersistent, hlive'⟩ := hstrings.efree (hlive a ha)
    refine ⟨m', ?_, hwell, hpersistent, fun b => ?_⟩
    · unfold IniState.efree
      rw [ha.2.2, hm']
      rfl
    · rw [hlive', and_comm]
      have hb : b = a ↔ e.Owns b := ⟨fun h => h ▸ ha, fun h => h.unique ha⟩
      rw [ne_eq, hb]
  · rw [if_neg hvalue]
    refine ⟨s.strings, rfl, hstrings, rfl, fun b => ?_⟩
    have hb : ¬ e.Owns b := fun h => hvalue h.2.1
    simp [hb]

namespace IniInvariant

section

variable (h : IniInvariant start s) (he : s.iniDirectives name = some e)

include h he

theorem modifiedIniDirectives_eq
    (hm : e.modified = true) : s.modifiedIniDirectives = some s.modifiedNames := by
  have hname := (h.listed name).mpr ⟨e, he, hm⟩
  unfold IniState.modifiedNames at *
  cases hl : s.modifiedIniDirectives with
  | none => simp [hl] at hname
  | some names => rfl

theorem restoreIniEntryCb_restores (hb : start.iniDirectives name = some b) (hkeeps : b.Keeps e)
    (hm : e.modified = true) {stage : Int}
    (hgo : ¬ (stage = iniStageRuntime ∧ (e.tryRestore stage s).1 = .failure)) :
    ∃ t, restoreIniEntryCb name e stage s = .ok (0, t) ∧ IniInvariant start (t.delModified name) ∧
      t.iniDirectives name = some e.restored ∧
      t.modifiedIniDirectives = s.modifiedIniDirectives := by
  obtain ⟨globals, hglobals⟩ := e.tryRestore_state stage s
  obtain ⟨strings, hfree, hwell, hpersistent, hlive⟩ := efree_value (h.globals globals).strings
    (hkeeps.owns hm) (fun a ha => ((h.globals globals).live a).mpr ⟨name, e, he, ha⟩)
  have hrestored := hkeeps.restored hm
  refine ⟨({ s with globals, strings }).setEntry name e.restored, ?_, ?_,
    Function.update_self _ _ _, rfl⟩
  · unfold restoreIniEntryCb
    dsimp only
    rw [if_pos hm, if_neg hgo, hglobals, hfree]
    rfl
  · have hnames : ∀ n, n ∈ s.modifiedNames.erase name ↔
        n = name ∧ e.restored.modified = true ∨ n ≠ name ∧ n ∈ s.modifiedNames := by
      intro n
      rw [h.nodup.mem_erase_iff]
      simp [hrestored.unmodified]
    have hnotOwns : ∀ a, ¬ e.restored.Owns a := by
      intro a
      exact IniEntry.not_owns_of_unmodified hrestored.unmodified
    apply h.update _ he hb hrestored.keeps rfl
    · rw [IniState.modifiedNames_delModified]
      exact h.nodup.erase name
    · rw [IniState.modifiedNames_delModified]
      exact hnames
    · exact hwell
    · exact hpersistent
    · intro a
      rw [or_iff_right (hnotOwns a)]
      exact hlive a
    · intro a ha
      exact absurd ha (hnotOwns a)

theorem delModified_of_unmodified (hm : e.modified = false) : s.delModified name = s := by
  have hname : name ∉ s.modifiedNames := by
    rw [h.listed]
    rintro ⟨e', he', hm'⟩
    rw [he] at he'
    rw [← Option.some.inj he', hm] at hm'
    exact nomatch hm'
  unfold IniState.delModified IniState.modifiedNames at *
  obtain ⟨entries, modified, strings, globals⟩ := s
  cases modified with
  | none => rfl
  | some names =>
    have hnot : name ∉ names := hname
    simp [List.erase_of_not_mem hnot]

end

theorem restoreIniEntry (h : IniInvariant start s) (name : IniName) (stage : Int) :
    ∃ r t, restoreIniEntry name stage s = .ok (r, t) ∧ IniInvariant start t := by
  unfold Zend.restoreIniEntry
  cases he : s.iniDirectives name with
  | none => exact ⟨_, s, rfl, h⟩
  | some e =>
    obtain ⟨b, hb, hkeeps⟩ := h.exists_start he
    dsimp only
    by_cases huser : stage = iniStageRuntime ∧ e.modifiable &&& iniUser = 0
    · rw [if_pos huser]
      exact ⟨_, s, rfl, h⟩
    rw [if_neg huser]
    by_cases hlist : s.modifiedIniDirectives.isSome
    · rw [if_pos hlist]
      by_cases hm : e.modified = true
      · by_cases hgo : stage = iniStageRuntime ∧ (e.tryRestore stage s).1 = .failure
        · obtain ⟨globals, hglobals⟩ := e.tryRestore_state stage s
          refine ⟨.failure, { s with globals }, ?_, h.globals globals⟩
          unfold restoreIniEntryCb
          dsimp only
          rw [if_pos hm, if_pos hgo, hglobals]
          rfl
        · obtain ⟨t, ht, hinv, -⟩ := h.restoreIniEntryCb_restores he hb hkeeps hm hgo
          rw [ht]
          exact ⟨_, _, rfl, hinv⟩
      · unfold restoreIniEntryCb
        rw [if_neg hm]
        refine ⟨_, _, rfl, ?_⟩
        rw [h.delModified_of_unmodified he (by simpa using hm)]
        exact h
    · rw [if_neg hlist]
      exact ⟨_, s, rfl, h⟩

end IniInvariant

/-- The masks that `zend_alter_ini_entry_ex` can keep in its `zend_bool`. -/
def MasksFit (s : IniState σ) : Prop :=
  ∀ name e, s.iniDirectives name = some e → e.modifiable < 256

theorem setWidth_of_fits {modifiable : BitVec 32} (h : modifiable < 256) :
    (modifiable.setWidth 8).setWidth 32 = modifiable := by
  apply BitVec.eq_of_toNat_eq
  have hlt : modifiable.toNat < 256 := h
  simp only [BitVec.toNat_setWidth]
  omega

theorem setEntry_self (he : s.iniDirectives name = some e) : s.setEntry name e = s := by
  unfold IniState.setEntry
  rw [← he, Function.update_eq_self]

theorem efreeWhen_congr {c d : Prop} [Decidable c] [Decidable d] (h : c ↔ d) (s : IniState σ)
    (p : StringPtr) : s.efreeWhen c p = s.efreeWhen d p := by
  unfold IniState.efreeWhen
  exact if_congr h rfl rfl

/-- The entry after its mask was replaced and its value saved, as `zend_alter_ini_entry_ex` has it
when it calls the handler. -/
def IniEntry.marked (e : IniEntry σ) (modifiable : BitVec 32) : IniEntry σ :=
  if e.modified then { e with modifiable } else { e with modifiable }.saved (e.modifiable.setWidth 8)

def IniState.marked (s : IniState σ) (name : IniName) (e : IniEntry σ) (modifiable : BitVec 32) :
    IniState σ :=
  let s := { s.setEntry name { e with modifiable } with
    modifiedIniDirectives := some s.modifiedNames }
  if e.modified then s else (s.setEntry name (e.marked modifiable)).addModified name

namespace IniEntry

theorem marked_modified (e : IniEntry σ) (modifiable : BitVec 32) :
    (e.marked modifiable).modified = true := by
  unfold marked
  split
  · assumption
  · rfl

theorem Keeps.marked (h : b.Keeps e) (hfits : b.modifiable < 256) (modifiable : BitVec 32) :
    b.Keeps (e.marked modifiable) := by
  unfold IniEntry.marked
  split
  · exact ⟨h.onModify, h.saved, fun hm => by simp_all, h.owns⟩
  · rename_i hm
    obtain ⟨hvalue, hlength, hmodifiable⟩ := h.unchanged (by simpa using hm)
    refine ⟨h.onModify, fun _ => ⟨hvalue, hlength, ?_⟩, (fun hm' => nomatch hm'), fun _ hne => ?_⟩
    · rw [hmodifiable.symm] at hfits
      exact (setWidth_of_fits hfits).trans hmodifiable
    · exact absurd rfl hne

theorem marked_owns (e : IniEntry σ) (modifiable : BitVec 32) (a : Address) :
    (e.marked modifiable).Owns a ↔ e.Owns a := by
  unfold marked
  split
  · exact Iff.rfl
  · rename_i hm
    exact iff_of_false (fun h => h.2.1 rfl) (not_owns_of_unmodified (by simpa using hm))

theorem marked_value_ne (e : IniEntry σ) (modifiable : BitVec 32) :
    (e.modified = true ∧ (e.marked modifiable).origValue ≠ (e.marked modifiable).value) ↔
      (e.marked modifiable).value ≠ (e.marked modifiable).origValue := by
  unfold marked
  split
  · rename_i hm
    simp only [hm, true_and]
    exact ne_comm
  · rename_i hm
    simp [hm, saved]

end IniEntry

theorem IniState.marked_strings (s : IniState σ) (name : IniName) (e : IniEntry σ)
    (modifiable : BitVec 32) : (s.marked name e modifiable).strings = s.strings := by
  unfold marked
  dsimp only
  split <;> rfl

theorem IniState.marked_entries (s : IniState σ) (name : IniName) (e : IniEntry σ)
    (modifiable : BitVec 32) : (s.marked name e modifiable).iniDirectives =
      Function.update s.iniDirectives name (some (e.marked modifiable)) := by
  unfold marked IniEntry.marked
  dsimp only
  split
  · rfl
  · exact Function.update_idem _ _ _

namespace IniInvariant

theorem marked (h : IniInvariant start s) (he : s.iniDirectives name = some e)
    (hb : start.iniDirectives name = some b) (hkeeps : b.Keeps e) (hfits : b.modifiable < 256)
    (modifiable : BitVec 32) : IniInvariant start (s.marked name e modifiable) := by
  have hstrings := s.marked_strings name e modifiable
  have hmarked := e.marked_modified modifiable
  have hnames : (s.marked name e modifiable).modifiedNames =
      if e.modified then s.modifiedNames else s.modifiedNames ++ [name] := by
    unfold IniState.marked
    dsimp only
    split
    · rfl
    · rename_i hm
      apply IniState.modifiedNames_addModified rfl
      rw [h.listed]
      rintro ⟨e', he', hm'⟩
      rw [he] at he'
      exact hm (Option.some.inj he' ▸ hm')
  have hlisted : e.modified = true ↔ name ∈ s.modifiedNames := by
    rw [h.listed, IniState.IsModified, he]
    simp
  refine h.update _ he hb (hkeeps.marked hfits modifiable) (s.marked_entries name e modifiable) ?_ ?_
    (hstrings ▸ h.strings) (by rw [hstrings]) ?_ ?_
  · rw [hnames]
    split
    · exact h.nodup
    · rename_i hm
      rw [List.nodup_append]
      refine ⟨h.nodup, List.nodup_singleton _, fun n hn n' hn' => ?_⟩
      rw [List.mem_singleton.mp hn']
      rintro rfl
      exact hm (hlisted.mpr hn)
  · intro n
    rw [hnames, hmarked]
    by_cases hn : n = name
    · subst hn
      split
      · rename_i hm
        simp [hlisted.mp hm]
      · simp
    · split <;> simp [hn]
  · intro a
    rw [hstrings, IniEntry.marked_owns]
    constructor
    · intro ha
      by_cases howns : e.Owns a
      · exact Or.inl howns
      · exact Or.inr ⟨ha, howns⟩
    · rintro (howns | ha)
      · exact (h.live a).mpr ⟨name, e, he, howns⟩
      · exact ha.1
  · intro a howns _
    exact (IniEntry.marked_owns e modifiable a).mp howns

theorem assignIniEntry (h : IniInvariant start s) (hstart : RequestStart start)
    (he : s.iniDirectives name = some e) (hb : start.iniDirectives name = some b)
    (hkeeps : b.Keeps e) (hm : e.modified = true) (alloc : Allocator) (newValue : List UInt8)
    (stage : Int) {modified : Bool}
    (hmodified : (modified = true ∧ e.origValue ≠ e.value) ↔ e.value ≠ e.origValue) :
    assignIniEntry alloc name e newValue stage modified s = .error .bailout ∨
      ∃ r t, assignIniEntry alloc name e newValue stage modified s = .ok (r, t) ∧
        IniInvariant start t := by
  have hdup := s.strings.estrndup_not_live alloc newValue
  have hown := s.strings.estrndup_not_persistent alloc newValue
  have hlive := fun a => s.strings.live_estrndup alloc newValue (a := a)
  have hwell := h.strings.estrndup alloc newValue
  have hpersistent : (s.strings.estrndup alloc newValue).2.persistent = s.strings.persistent := rfl
  unfold Zend.assignIniEntry
  generalize s.strings.estrndup alloc newValue = dup at *
  obtain ⟨duplicate, strings⟩ := dup
  dsimp only at *
  obtain ⟨globals, hglobals⟩ := e.tryModify_state duplicate newValue.length stage { s with strings }
  have hentry : s.iniDirectives = Function.update s.iniDirectives name (some e) := by
    rw [← he, Function.update_eq_self]
  have hlisted : ∀ n, n ∈ s.modifiedNames ↔
      n = name ∧ e.modified = true ∨ n ≠ name ∧ n ∈ s.modifiedNames := by
    intro n
    by_cases hn : n = name
    · subst hn
      simp [hm, (h.listed n).mpr ⟨e, he, hm⟩]
    · simp [hn]
  have howned : ∀ a, e.Owns a → s.strings.Live a := by
    intro a ha
    exact (h.live a).mpr ⟨name, e, he, ha⟩
  generalize hr : e.tryModify duplicate newValue.length stage { s with strings } = r at *
  obtain ⟨(_ | _) | _, s₁⟩ := r
  · -- the handler accepts
    subst hglobals
    right
    dsimp only
    rw [efreeWhen_congr hmodified]
    obtain ⟨strings', hfree, hwell', hpersistent', hlive'⟩ :=
      efree_value (s := { s with strings, globals }) hwell (hkeeps.owns hm)
        (fun a ha => (hlive a).mpr (Or.inr (howned a ha)))
    rw [hfree]
    refine ⟨_, _, rfl, ?_⟩
    have hne : some duplicate ≠ e.origValue := by
      intro heq
      have hb' := (hkeeps.saved hm).1 ▸ heq.symm
      apply hown
      rw [h.persistent]
      exact (hstart.entry name b hb).2 duplicate hb'
    have howns : ∀ a, { e with value := some duplicate, valueLength := newValue.length }.Owns a ↔
        a = duplicate := by
      intro a
      constructor
      · intro ha
        exact (Option.some.inj ha.2.2).symm
      · rintro rfl
        exact ⟨hm, hne, rfl⟩
    have hdupNew : ¬ e.Owns duplicate := fun ha => hdup (howned duplicate ha)
    apply h.update { e with value := some duplicate, valueLength := newValue.length } he hb
    · exact ⟨hkeeps.onModify, hkeeps.saved, fun hm' => by simp [hm] at hm', fun _ _ =>
        ⟨duplicate, (howns _).mpr rfl⟩⟩
    · rfl
    · exact h.nodup
    · exact hlisted
    · exact hwell'
    · exact hpersistent'.trans hpersistent
    · intro a
      rw [howns]
      refine (hlive' a).trans ?_
      rw [hlive]
      constructor
      · rintro ⟨ha | ha, hnot⟩
        · exact Or.inl ha
        · exact Or.inr ⟨ha, hnot⟩
      · rintro (rfl | ⟨ha, hnot⟩)
        · exact ⟨Or.inl rfl, hdupNew⟩
        · exact ⟨Or.inr ha, hnot⟩
    · intro a ha hlive
      rw [howns] at ha
      exact absurd (ha ▸ hlive) hdup
  · -- the handler refuses
    subst hglobals
    right
    dsimp only
    obtain ⟨strings', hfree, hwell', hpersistent', hlive'⟩ :=
      hwell.efree ((hlive duplicate).mpr (Or.inl rfl))
    unfold IniState.efree
    rw [hfree]
    refine ⟨.failure, { s with strings := strings', globals }, rfl, ?_⟩
    refine h.update (t := { s with strings := strings', globals }) _ he hb hkeeps hentry h.nodup
      hlisted hwell' (hpersistent'.trans hpersistent) ?_ ?_
    · intro a
      refine (hlive' a).trans ?_
      rw [hlive]
      constructor
      · rintro ⟨hne, ha | ha⟩
        · exact absurd ha hne
        · by_cases howns : e.Owns a
          · exact Or.inl howns
          · exact Or.inr ⟨ha, howns⟩
      · intro ha
        have hs : s.strings.Live a := ha.elim (howned a) (·.1)
        exact ⟨fun heq => hdup (heq ▸ hs), Or.inr hs⟩
    · intro a ha _
      exact ha
  · exact Or.inl rfl

theorem alterIniEntryEx (h : IniInvariant start s) (hstart : RequestStart start)
    (hmasks : MasksFit start) (alloc : Allocator) (name : IniName) (newValue : List UInt8)
    (modifyType : BitVec 32) (stage : Int) (forceChange : Bool) :
    alterIniEntryEx alloc name newValue modifyType stage forceChange s = .error .bailout ∨
      ∃ r t, alterIniEntryEx alloc name newValue modifyType stage forceChange s = .ok (r, t) ∧
        IniInvariant start t := by
  unfold Zend.alterIniEntryEx
  cases he : s.iniDirectives name with
  | none => exact Or.inr ⟨_, s, rfl, h⟩
  | some e =>
    obtain ⟨b, hb, hkeeps⟩ := h.exists_start he
    obtain ⟨modifiable, hmask⟩ : ∃ modifiable, (if stage = iniStageActivate ∧ modifyType = iniSystem then
        { e with modifiable := iniSystem } else e) = { e with modifiable } := by
      split
      · exact ⟨iniSystem, rfl⟩
      · exact ⟨e.modifiable, rfl⟩
    dsimp only
    rw [hmask]
    by_cases hrefused : forceChange = false ∧ modifiable &&& modifyType = 0
    · -- the mask was not replaced, for a system change is permitted by a system mask
      have hsame : s.setEntry name { e with modifiable } = s := by
        rw [← hmask, if_neg, setEntry_self he]
        rintro ⟨hstage, htype⟩
        rw [if_pos ⟨hstage, htype⟩] at hmask
        have hsystem : iniSystem = modifiable := congrArg IniEntry.modifiable hmask
        rw [← hsystem, htype] at hrefused
        exact absurd hrefused.2 (by decide)
      rw [if_pos hrefused, hsame]
      exact Or.inr ⟨_, s, rfl, h⟩
    · rw [if_neg hrefused]
      have hentry : (s.marked name e modifiable).iniDirectives name = some (e.marked modifiable) := by
        rw [IniState.marked_entries, Function.update_self]
      exact (h.marked he hb hkeeps (hmasks name b hb) modifiable).assignIniEntry hstart hentry hb
        (hkeeps.marked (hmasks name b hb) modifiable) (e.marked_modified modifiable) alloc newValue
        stage (e.marked_value_ne modifiable)

end IniInvariant

end Php53.Zend
