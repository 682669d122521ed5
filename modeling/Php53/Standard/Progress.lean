import Php53.Standard.Scanner

/-!
# Progress — `php_var_unserialize` ends

A value that is accepted ends behind the offset where it starts, and starts inside the memory that
holds the text.  So the bound that `phpVarUnserialize` puts on its steps is never reached.
-/

open Php53.Zend Reasoning

namespace Php53.Standard

variable {buf : List UInt8} {env : Env}

def Anywhere : State → Prop := fun _ => True

/-- A result that satisfies `R`, unless `var_push_dtor` stopped the run. -/
def Yields {α : Type} (R : α → Prop) : Except Stop α → State → Prop
  | .ok a, _ => R a
  | .error e, _ => e = .nullPointer

/-- A value from `p` on. -/
def Advances (buf : List UInt8) (p : Nat) (ret : Ret) : Prop :=
  ret.ok = true → p < ret.p ∧ p < buf.length

/-- The elements of a container from `p` on. -/
def NestedAdvances (p : Nat) (nested : Bool × Nat) : Prop := nested.1 = true → p ≤ nested.2

/-- What the functions ask of the unserializer of the values inside, up from the offset `p`. -/
def AdvancesFrom (buf : List UInt8) (unserialize : Role → Nat → ZvalPtr → Bool → Unser Ret)
    (p : Nat) : Prop :=
  ∀ role q rval varHash, p ≤ q →
    Fallible.Triple Anywhere (unserialize role q rval varHash) (Yields (Advances buf q))

section Rules

variable {α : Type} {Q : Except Stop α → State → Prop}

theorem any_perform_bind {op : MemOp} {g : Unit → Unser α}
    (hg : Fallible.Triple Anywhere (g ()) Q) :
    Fallible.Triple Anywhere (perform env op >>= g) Q :=
  Fallible.Triple.update_bind (R := Anywhere) (fun _ _ => trivial) hg

theorem any_touch_bind {off : Nat} {g : Unit → Unser α}
    (hg : Fallible.Triple Anywhere (g ()) Q) :
    Fallible.Triple Anywhere (touch off >>= g) Q :=
  Fallible.Triple.update_bind (R := Anywhere) (fun _ _ => trivial) hg

theorem any_peek_bind {off : Nat} {g : UInt8 → Unser α}
    (hg : Fallible.Triple Anywhere (g (byteAt buf off)) Q) :
    Fallible.Triple Anywhere (peek buf off >>= g) Q :=
  any_touch_bind (g := fun _ => g (byteAt buf off)) hg

theorem any_bind {β : Type} {R : β → Prop} {S : α → Prop} {m : Unser β} {g : β → Unser α}
    (hm : Fallible.Triple Anywhere m (Yields R))
    (hg : ∀ b, R b → Fallible.Triple Anywhere (g b) (Yields S)) :
    Fallible.Triple Anywhere (m >>= g) (Yields S) := by
  refine Fallible.Triple.bind (R := fun b _ => R b) ?_ fun b s hb => hg b hb s trivial
  refine hm.conseq (fun _ h => h) fun r s h => ?_
  cases r with
  | ok b => exact h
  | error e => exact h

end Rules

theorem yields_storeData (ht : Container) (k : HashKey) (data : ZvalPtr) (varHash : Bool) :
    Fallible.Triple Anywhere (storeData env ht k data varHash) (Yields fun _ => True) := by
  refine Fallible.Triple.getState_bind_any fun s => ?_
  cases ht with
  | array z =>
    dsimp only
    cases replaced s.mem (.array z) k with
    | none => exact fun _ _ => trivial
    | some old =>
      refine Fallible.Triple.ite (fun _ => ?_) fun _ => ?_
      · exact any_perform_bind fun _ _ => trivial
      · exact fun _ _ => rfl
  | properties handle => exact fun _ _ => trivial

theorem advances_processNestedData {unserialize : Role → Nat → ZvalPtr → Bool → Unser Ret}
    (ht : Container) (varHash : Bool) {fuel : Nat} (elements : Int) {p : Nat}
    (hu : AdvancesFrom buf unserialize p) (hfuel : buf.length + 1 - p < fuel) :
    Fallible.Triple Anywhere
      (processNestedData env buf unserialize ht varHash fuel elements p)
      (Yields (NestedAdvances p)) := by
  induction fuel generalizing elements p with
  | zero => exact absurd hfuel (Nat.not_lt_zero _)
  | succ fuel ih =>
    unfold processNestedData
    refine Fallible.Triple.ite (fun _ _ _ _ => Nat.le_refl p) fun _ => ?_
    refine Fallible.Triple.getState_bind_any fun s => any_perform_bind ?_
    refine any_bind (hu _ p _ _ (Nat.le_refl _)) fun key hkey => ?_
    refine Fallible.Triple.getState_bind_any fun s => ?_
    by_cases hok : key.ok = true
    swap
    · rw [if_neg hok]
      exact any_perform_bind fun _ _ => nofun
    rw [if_pos hok]
    obtain ⟨hlt, hlen⟩ := hkey hok
    cases containerKey ht (s.mem.zvals key.rval).value with
    | none => exact any_perform_bind fun _ _ => nofun
    | some k =>
      refine Fallible.Triple.getState_bind_any fun s => any_perform_bind ?_
      refine any_bind (hu _ key.p _ _ (Nat.le_of_lt hlt)) fun data hdata => ?_
      refine Fallible.Triple.ite (fun hok => ?_) fun _ => ?_
      · obtain ⟨hlt', -⟩ := hdata hok
        refine any_bind (yields_storeData ht k data.rval varHash) fun _ _ => any_perform_bind ?_
        refine Fallible.Triple.ite (fun _ => ?_) fun _ => ?_
        · refine any_peek_bind (Fallible.Triple.ite (fun _ _ _ => nofun) fun _ => ?_)
          -- each round uses one step and moves the cursor on by two bytes at least
          refine (ih (elements - 1) (p := data.p) ?_ (by omega)).conseq (fun _ h => h) ?_
          · exact fun role q rval varHash hle => hu role q rval varHash (by omega)
          · intro r s h
            cases r with
            | ok nested => exact fun hok => Nat.le_trans (by omega) (h hok)
            | error e => exact h
        · intro _ _ _
          change p ≤ data.p
          omega
      · exact any_perform_bind (any_perform_bind fun _ _ => nofun)

section Actions

variable {unserialize : Role → Nat → ZvalPtr → Bool → Unser Ret} {start fuel : Nat}

variable {cursor p : Nat}

theorem yields_failed {rval : ZvalPtr} :
    Fallible.Triple Anywhere (pure ⟨false, rval, p⟩ : Unser Ret) (Yields (Advances buf start)) :=
  fun _ _ => nofun

theorem yields_succeeded (hstart : start < buf.length) (rval : ZvalPtr) (hp : start < p) :
    Fallible.Triple Anywhere (pure ⟨true, rval, p⟩ : Unser Ret) (Yields (Advances buf start)) :=
  fun _ _ _ => ⟨hp, hstart⟩

theorem yields_finishNestedData (hstart : start < buf.length) (rval : ZvalPtr) (hp : start ≤ p) :
    Fallible.Triple Anywhere (finishNestedData buf rval p) (Yields (Advances buf start)) :=
  any_peek_bind fun _ _ _ => ⟨Nat.lt_succ_of_le hp, hstart⟩

theorem yields_objectCommon2 (env : Env) (hu : AdvancesFrom buf unserialize (start + 1))
    (hfuel : buf.length < start + fuel) (hstart : start < buf.length) (rval : ZvalPtr)
    (elements : Int) (hp : start < p) (varHash : Bool) :
    Fallible.Triple Anywhere (objectCommon2 env buf unserialize fuel rval elements p varHash)
      (Yields (Advances buf start)) := by
  refine Fallible.Triple.getState_bind_any fun s => ?_
  refine any_bind (advances_processNestedData _ varHash elements ?_ (by omega)) fun nested h => ?_
  · exact fun role q rval varHash hle => hu role q rval varHash (by omega)
  refine Fallible.Triple.ite (fun hok => ?_) fun _ => yields_failed
  have hle : start ≤ nested.2 := Nat.le_trans (Nat.le_of_lt hp) (h hok)
  refine Fallible.Triple.getState_bind_any fun s => ?_
  refine Fallible.Triple.ite (fun _ => any_perform_bind ?_) fun _ => ?_
  · exact yields_finishNestedData hstart rval hle
  · exact yields_finishNestedData hstart rval hle

theorem yields_objectCustom (max : Nat) (hstart : start < buf.length) (ce : ClassPtr)
    (rval : ZvalPtr) (hp : start < p) :
    Fallible.Triple Anywhere (objectCustom env buf max ce rval p) (Yields (Advances buf start)) := by
  have hle : start ≤ (parseIv2 buf (p + 2)).2 + 2 + (parseIv2 buf (p + 2)).1.toNat := by
    have := le_parseIv2 buf (p + 2)
    omega
  refine any_touch_bind (Fallible.Triple.ite (fun _ => yields_failed) fun _ => ?_)
  refine Fallible.Triple.ite (fun _ => ?_) fun _ => any_perform_bind ?_
  · refine Fallible.Triple.getState_bind_any fun s => any_perform_bind ?_
    refine Fallible.Triple.ite (fun _ => ?_) fun _ => yields_failed
    exact yields_finishNestedData hstart rval hle
  · exact yields_finishNestedData hstart rval hle

theorem yields_objectCommon1 (ce : ClassPtr) (rval : ZvalPtr) (hp : start ≤ p) :
    Fallible.Triple Anywhere (objectCommon1 env buf ce rval p) (Yields fun h => start < h.2) := by
  refine any_touch_bind ?_
  intro _ _
  change start < (parseIv2 buf (p + 2)).2 + 2
  have := le_parseIv2 buf (p + 2)
  omega

theorem yields_closeString (hstart : start < buf.length) (role : Role) (rval : ZvalPtr)
    (str : List UInt8) {close : Nat} (hclose : start < close) :
    Fallible.Triple Anywhere (closeString env buf role rval str close)
      (Yields (Advances buf start)) := by
  refine any_peek_bind (Fallible.Triple.ite (fun _ => yields_failed) fun _ => ?_)
  exact fun _ _ _ => ⟨Nat.lt_add_right 2 hclose, hstart⟩

theorem yields_backReference (hstart : start < buf.length) (rval : ZvalPtr) (varHash isRef : Bool)
    (number : BitVec 64) (hcursor : start < cursor) :
    Fallible.Triple Anywhere (backReference env rval varHash isRef number cursor)
      (Yields (Advances buf start)) := by
  refine Fallible.Triple.ite (fun _ => ?_) fun _ => yields_failed
  refine Fallible.Triple.getState_bind_any fun s => ?_
  dsimp only
  cases if number - 1 = -1 then none else s.mem.varAccess (number - 1) with
  | none => exact yields_failed
  | some z =>
    have hdone := yields_succeeded hstart z hcursor
    refine Fallible.Triple.ite (fun _ => any_perform_bind (any_perform_bind hdone)) fun _ => ?_
    refine Fallible.Triple.ite (fun _ => yields_failed) fun _ => ?_
    exact any_perform_bind (any_perform_bind hdone)

theorem yields_phpStoreClassName (z : ZvalPtr) (name : List UInt8) :
    Fallible.Triple Anywhere (phpStoreClassName env z name) (Yields fun _ => True) :=
  fun _ _ => trivial

theorem yields_objectRule (max : Nat) (hu : AdvancesFrom buf unserialize (start + 1))
    (hfuel : buf.length < start + fuel) (hstart : start < buf.length) (hcursor : start < cursor)
    (rval : ZvalPtr) (varHash : Bool) :
    Fallible.Triple Anywhere (objectRule env buf max unserialize fuel start cursor rval varHash)
      (Yields (Advances buf start)) := by
  have hq : start < cursor + parseUiv buf (start + 2) := by omega
  refine any_perform_bind (Fallible.Triple.ite (fun _ => yields_failed) fun _ => ?_)
  refine any_peek_bind (Fallible.Triple.ite (fun _ => yields_failed) fun _ => ?_)
  refine any_peek_bind (Fallible.Triple.ite (fun _ => yields_failed) fun _ => ?_)
  refine any_touch_bind (Fallible.Triple.ite (fun _ => yields_failed) fun _ => ?_)
  refine Fallible.Triple.getState_bind_any fun s => any_perform_bind ?_
  refine Fallible.Triple.ite (fun _ => ?_) fun _ => ?_
  · refine any_bind (yields_objectCustom max hstart _ rval hq) fun ret hret => ?_
    refine Fallible.Triple.ite (fun _ => ?_) fun _ _ _ => hret
    exact any_bind (yields_phpStoreClassName rval _) fun _ _ _ _ => hret
  · refine any_bind (yields_objectCommon1 _ rval (Nat.le_of_lt hq)) fun header hp => ?_
    have hrest := yields_objectCommon2 env hu hfuel hstart rval header.1 hp varHash
    refine Fallible.Triple.ite (fun _ => ?_) fun _ => hrest
    exact any_bind (yields_phpStoreClassName rval _) fun _ _ => hrest

theorem yields_action (max : Nat) (hu : AdvancesFrom buf unserialize (start + 1))
    (hfuel : buf.length < start + fuel) (hstart : start < buf.length) (role : Role)
    (hcursor : start < cursor) (rval : ZvalPtr) (varHash : Bool) (rule : Rule) :
    Fallible.Triple Anywhere
      (action env buf max unserialize fuel role start cursor rval varHash rule)
      (Yields (Advances buf start)) := by
  have hscalar : ∀ v, Fallible.Triple Anywhere
      (perform env (.initZval rval v) >>= fun _ => pure ⟨true, rval, cursor⟩)
      (Yields (Advances buf start)) := fun _ => any_perform_bind (yields_succeeded hstart rval hcursor)
  cases rule with
  | reference => exact yields_backReference hstart _ _ _ _ hcursor
  | copy => exact yields_backReference hstart _ _ _ _ hcursor
  | null => exact hscalar _
  | bool => exact hscalar _
  | long => exact hscalar _
  | infNan => exact hscalar _
  | double => exact hscalar _
  | string =>
    refine Fallible.Triple.ite (fun _ => yields_failed) fun _ => ?_
    exact yields_closeString hstart role rval _ (Nat.lt_add_right _ hcursor)
  | escapedString =>
    refine Fallible.Triple.ite (fun _ => yields_failed) fun _ => ?_
    refine Fallible.Triple.ite (fun _ => yields_failed) fun _ => any_touch_bind ?_
    cases hstr : (unserializeStr buf max (parseUiv buf (start + 2)) cursor).1 with
    | none => exact yields_failed
    | some str =>
      exact yields_closeString hstart role rval _ (Nat.lt_of_lt_of_le hcursor (le_unserializeStr hstr))
  | array =>
    refine Fallible.Triple.ite (fun _ => yields_failed) fun _ => any_perform_bind ?_
    refine any_bind (advances_processNestedData _ varHash _ ?_ (by omega)) fun nested h => ?_
    · exact fun role q rval varHash hle => hu role q rval varHash (by omega)
    refine Fallible.Triple.ite (fun hok => ?_) fun _ => yields_failed
    exact yields_finishNestedData hstart rval (Nat.le_trans (Nat.le_of_lt hcursor) (h hok))
  | plainObject =>
    refine any_perform_bind (any_bind (yields_objectCommon1 _ rval (Nat.le_refl start)) ?_)
    exact fun header hp => yields_objectCommon2 env hu hfuel hstart rval header.1 hp varHash
  | object => exact yields_objectRule max hu hfuel hstart hcursor rval varHash
  | brace => exact yields_failed
  | any => exact yields_failed

end Actions

theorem yields_unserialize (max : Nat) {fuel p : Nat} (hfuel : buf.length + 1 - p < fuel)
    (role : Role) (rval : ZvalPtr) (varHash : Bool) :
    Fallible.Triple Anywhere (unserializeFuel env buf max fuel role p rval varHash)
      (Yields (Advances buf p)) := by
  induction fuel generalizing role p rval varHash with
  | zero => exact absurd hfuel (Nat.not_lt_zero _)
  | succ fuel ih =>
    refine any_peek_bind ?_
    have hrest : Fallible.Triple Anywhere
        (touch (scanRule buf p (candidates (byteAt buf p))).2.2 >>= fun _ =>
          action env buf max (unserializeFuel env buf max fuel) fuel role p
            (scanRule buf p (candidates (byteAt buf p))).2.1 rval varHash
            (scanRule buf p (candidates (byteAt buf p))).1) (Yields (Advances buf p)) := by
      refine any_touch_bind ?_
      rcases Nat.lt_or_ge p buf.length with hlt | hge
      · have hnul : byteAt buf buf.length = 0 := by
          rw [byteAt, List.getD_eq_default _ _ (Nat.le_refl _)]
        have hcursor := (scanRule_stays hnul hlt (candidates (byteAt buf p))).2.lt_cursor
        refine yields_action max (fun role q rval varHash hle => ?_) (by omega) hlt role hcursor
          rval varHash _
        exact ih (by omega) role rval varHash
      · rw [byteAt, List.getD_eq_default _ _ hge, scanRule_nul]
        exact yields_failed
    exact Fallible.Triple.ite (fun _ => any_perform_bind hrest) fun _ => hrest

theorem unserialize_ends (env : Env) (text rest : List UInt8) (rval : ZvalPtr) (s : State) :
    (phpVarUnserialize env text rest rval s).1 ≠ .error .steps := by
  have h : Yields (Advances (text ++ 0 :: rest) 0) (phpVarUnserialize env text rest rval s).1
      (phpVarUnserialize env text rest rval s).2 :=
    yields_unserialize text.length (by omega) .whole rval true s trivial
  intro hsteps
  rw [hsteps] at h
  exact nomatch h

end Php53.Standard
