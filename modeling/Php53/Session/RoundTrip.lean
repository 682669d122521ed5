import Php53.Session.Serializers

/-!
# RoundTrip — sessions decoded from their encoding

A decoder that knows a name for refused goes on right behind it, at the value of the entry, and
takes the bytes of the value for the next entry.  So an encoding is read back, entry by entry, when
no entry behind which there is more to read has such a name.
-/

namespace Php53.Session

open List

variable {V : Type} {c : Codec V}

variable {name val : List UInt8} {n offset p : Nat} {vars : List (Entry V)}
  {rounds : List (Round V)}

def starts (encode : Entry V → List UInt8) : Nat → List (Entry V) → List (Nat × List UInt8)
  | _, [] => []
  | offset, e :: es => (offset, e.1) :: starts encode (offset + (encode e).length) es

def Round.start (r : Round V) : Nat × List UInt8 := (r.offset, r.name)

theorem decodeName_refused (h : c.refused name = true) (offset : Nat) (hasValue : Bool) (p : Nat)
    : decodeName c val offset name hasValue p =
      .ok (.round ⟨offset, name, .refused⟩ p) := by
  rw [decodeName, if_pos h]

theorem decodeName_value (h : c.refused name = false) {v : V}
    (hv : c.unserialize (val.drop p) = some (some v, n)) :
    decodeName c val offset name true p = .ok (.round ⟨offset, name, .value v⟩ (p + n)) := by
  rw [decodeName, h, if_neg Bool.false_ne_true, if_pos rfl, hv]

theorem decodeName_cases (c : Codec V) (val : List UInt8) (offset : Nat) (name : List UInt8)
    (hasValue : Bool) (p : Nat) :
    (∃ o p', p ≤ p' ∧ decodeName c val offset name hasValue p = .ok (.round ⟨offset, name, o⟩ p')) ∨
      c.refused name = false ∧ hasValue = true ∧ c.unserialize (val.drop p) = none ∧
        decodeName c val offset name hasValue p = .error .outOfBounds := by
  rw [decodeName]
  split
  · exact .inl ⟨_, p, Nat.le_refl p, rfl⟩
  · next hrefused =>
    split
    · next hvalue =>
      split
      · exact .inl ⟨_, _, Nat.le_add_right _ _, rfl⟩
      · exact .inl ⟨_, _, Nat.le_add_right _ _, rfl⟩
      · next hfails => exact .inr ⟨eq_false_of_ne_true hrefused, hvalue, hfails, rfl⟩
    · exact .inl ⟨_, p, Nat.le_refl p, rfl⟩

section Loop

variable {val : List UInt8} {round : Nat → Except Fault (Next V)} {fuel p p' : Nat} {r : Round V}

theorem decodeLoop_round (hp : p < val.length) (hround : round p = .ok (.round r p')) :
    decodeLoop val round (fuel + 1) p =
      (decodeLoop val round fuel p').map fun x => (r :: x.1, x.2) := by
  rw [decodeLoop, if_pos hp, hround]
  dsimp only [bind, Except.bind]
  cases decodeLoop val round fuel p' <;> rfl

theorem decodeLoop_stop (hp : p < val.length) {success : Bool}
    (hround : round p = .ok (.stop success)) :
    decodeLoop val round (fuel + 1) p = .ok ([], success) := by
  rw [decodeLoop, if_pos hp, hround]
  rfl

theorem decodeLoop_end (hp : val.length ≤ p) :
    decodeLoop val round (fuel + 1) p = .ok ([], true) := by
  rw [decodeLoop, if_neg (by omega)]

theorem decodeLoop_round_eq_ok (hp : p < val.length) (hround : round p = .ok (.round r p'))
    {rs : List (Round V)} {success : Bool}
    (h : decodeLoop val round (fuel + 1) p = .ok (rs, success)) :
    ∃ rs', rs = r :: rs' ∧ decodeLoop val round fuel p' = .ok (rs', success) := by
  rw [decodeLoop_round hp hround] at h
  cases hrest : decodeLoop val round fuel p' with
  | error e =>
    rw [hrest] at h
    exact nomatch h
  | ok x =>
    rw [hrest] at h
    injection h with h
    injection h with hrs hsuccess
    exact ⟨x.1, hrs.symm, by rw [← hsuccess]⟩

theorem decodeLoop_fault (hp : p < val.length) {e : Fault} (hround : round p = .error e) :
    decodeLoop val round (fuel + 1) p = .error e := by
  rw [decodeLoop, if_pos hp, hround]
  rfl

/-- The places at which a round starts. -/
inductive Reached (val : List UInt8) (round : Nat → Except Fault (Next V)) (p : Nat) : Nat → Prop
  | first : Reached val round p p
  | next {q q' : Nat} {r : Round V} (hq : Reached val round p q) (hlt : q < val.length)
      (hround : round q = .ok (.round r q')) : Reached val round p q'

theorem Reached.head (hp : p < val.length) (hround : round p = .ok (.round r p')) {q : Nat}
    (h : Reached val round p' q) : Reached val round p q := by
  induction h with
  | first => exact .next .first hp hround
  | next _ hlt hnext ih => exact .next ih hlt hnext

/-- Where a round is never without end, the loop ends, and in a fault exactly where a round does. -/
theorem decodeLoop_ends
    (hround : ∀ p, p < val.length → round p = .error .outOfBounds ∨
      (∃ success, round p = .ok (.stop success)) ∨ ∃ r p', p < p' ∧ round p = .ok (.round r p'))
    (hfuel : val.length - p < fuel) :
    (decodeLoop val round fuel p = .error .outOfBounds ∧
        ∃ q < val.length, Reached val round p q ∧ round q = .error .outOfBounds) ∨
      (∃ rs success, decodeLoop val round fuel p = .ok (rs, success)) ∧
        ∀ q < val.length, Reached val round p q → round q ≠ .error .outOfBounds := by
  induction fuel generalizing p with
  | zero => omega
  | succ fuel ih =>
    have hsplit : ∀ {q}, Reached val round p q → q = p ∨ ∃ r p', p < val.length ∧
        round p = .ok (.round r p') ∧ Reached val round p' q := by
      intro q hq
      induction hq with
      | first => exact .inl rfl
      | next hq hlt hnext ih =>
        rcases ih with rfl | ⟨r, p', hp, hround, hq⟩
        · exact .inr ⟨_, _, hlt, hnext, .first⟩
        · exact .inr ⟨r, p', hp, hround, .next hq hlt hnext⟩
    by_cases hp : p < val.length
    · rcases hround p hp with hfault | ⟨success, hstop⟩ | ⟨r, p', hlt, hnext⟩
      · exact .inl ⟨decodeLoop_fault hp hfault, p, hp, .first, hfault⟩
      · refine .inr ⟨⟨[], success, decodeLoop_stop hp hstop⟩, fun q _ hq => ?_⟩
        rcases hsplit hq with rfl | ⟨_, _, -, hround, -⟩
        · rw [hstop]
          intro h
          cases h
        · rw [hstop] at hround
          cases hround
      · rw [decodeLoop_round hp hnext]
        rcases ih (p := p') (by omega) with ⟨hrest, q, hq, hreached, hfault⟩ | ⟨⟨rs, success, hrest⟩, hall⟩
        · rw [hrest]
          exact .inl ⟨rfl, q, hq, hreached.head hp hnext, hfault⟩
        · rw [hrest]
          refine .inr ⟨⟨_, _, rfl⟩, fun q hq hreached => ?_⟩
          rcases hsplit hreached with rfl | ⟨r', p'', -, hround, hrest⟩
          · rw [hnext]
            intro h
            cases h
          · rw [hnext] at hround
            cases hround
            exact hall q hq hrest
    · refine .inr ⟨⟨[], true, decodeLoop_end (by omega)⟩, fun q hq hreached => ?_⟩
      rcases hsplit hreached with rfl | ⟨_, _, hp', -, -⟩
      · exact absurd hq hp
      · exact absurd hp' hp

end Loop

def Round.entry (r : Round V) : Option (Entry V) :=
  match r.outcome with
  | .refused => none
  | .value v => some (r.name, some v)
  | .undefined => some (r.name, none)

theorem setSessionVar_new (h : ∀ e ∈ vars, e.1 ≠ name) (v : V)
    : setSessionVar name v vars = vars ++ [(name, some v)] := by
  induction vars with
  | nil => rfl
  | cons e vars ih =>
    rw [setSessionVar, if_neg (h e mem_cons_self), ih fun x hx => h x (mem_cons_of_mem _ hx)]
    rfl

theorem addSessionVar_new (h : ∀ e ∈ vars, e.1 ≠ name)
    : addSessionVar name vars = vars ++ [(name, none)] := by
  have hany : ¬ (vars.any fun e => e.1 = name) = true := by
    rw [any_eq_true]
    rintro ⟨e, he, hname⟩
    exact h e he (of_decide_eq_true hname)
  rw [addSessionVar, if_neg hany]

theorem foldl_apply (hdistinct : (rounds.map Round.name).Nodup)
    (hnew : ∀ r ∈ rounds, ∀ e ∈ vars, e.1 ≠ r.name) :
    rounds.foldl Round.apply vars = vars ++ rounds.filterMap Round.entry := by
  induction rounds generalizing vars with
  | nil => simp
  | cons r rounds ih =>
    rw [map_cons, nodup_cons] at hdistinct
    have hold : ∀ e ∈ vars, e.1 ≠ r.name := hnew r mem_cons_self
    have hrest : ∀ x ∈ rounds, ∀ e ∈ vars, e.1 ≠ x.name := fun x hx =>
      hnew x (mem_cons_of_mem _ hx)
    have hone : ∀ o, ∀ x ∈ rounds, ∀ e ∈ vars ++ [((r.name, o) : Entry V)], e.1 ≠ x.name := by
      intro o x hx e he
      rcases mem_append.mp he with he | he
      · exact hrest x hx e he
      · rw [mem_singleton.mp he]
        intro hname
        exact hdistinct.1 (mem_map.mpr ⟨x, hx, hname.symm⟩)
    rw [foldl_cons, Round.apply, filterMap_cons, Round.entry]
    cases hoc : r.outcome with
    | refused => exact ih hdistinct.2 hrest
    | value v =>
      dsimp only
      rw [setSessionVar_new hold, ih hdistinct.2 (hone _), append_assoc]
      rfl
    | undefined =>
      dsimp only
      rw [addSessionVar_new hold, ih hdistinct.2 (hone _), append_assoc]
      rfl

theorem sessionOf_eq (hdistinct : (rounds.map Round.name).Nodup) :
    sessionOf rounds = rounds.filterMap Round.entry := by
  have hnew : ∀ r ∈ rounds, ∀ e ∈ ([] : List (Entry V)), e.1 ≠ r.name := by simp
  rw [sessionOf, foldl_apply hdistinct hnew, nil_append]

theorem map_snd_starts (encode : Entry V → List UInt8) (offset : Nat) (es : List (Entry V)) :
    (starts encode offset es).map Prod.snd = es.map Prod.fst := by
  induction es generalizing offset with
  | nil => rfl
  | cons e es ih => rw [starts, map_cons, map_cons, ih]

theorem names_of_starts {encode : Entry V → List UInt8} {es : List (Entry V)}
    (h : rounds.map Round.start = starts encode offset es) :
    rounds.map Round.name = es.map Prod.fst := by
  rw [← map_snd_starts encode offset es, ← h, map_map]
  rfl

def defined (e : List UInt8 × V) : Entry V := (e.1, some e.2)

/-- What `PS_SERIALIZER_ENCODE_FUNC(php)` writes for an entry. -/
def encodePhpEntry (c : Codec V) : Entry V → List UInt8
  | (key, some v) => key ++ psDelimiter :: c.serialize v
  | (key, none) => psUndefMarker :: (key ++ [psDelimiter])

def phpText (c : Codec V) (entries : List (List UInt8 × V)) : List UInt8 :=
  entries.flatMap fun e => encodePhpEntry c (defined e)

theorem phpText_cons (c : Codec V) (e : List UInt8 × V) (entries : List (List UInt8 × V)) :
    phpText c (e :: entries) = encodePhpEntry c (defined e) ++ phpText c entries := rfl

def Plain (key : List UInt8) : Prop := psDelimiter ∉ key ∧ psUndefMarker ∉ key

theorem encodePhp_of_plain (c : Codec V) {entries : List (List UInt8 × V)}
    (h : ∀ e ∈ entries, Plain e.1) : encodePhp c (entries.map defined) =
      some (phpText c entries) := by
  induction entries with
  | nil => rfl
  | cons e entries ih =>
    have hplain := h e mem_cons_self
    rw [map_cons, defined, encodePhp, if_neg (not_or.mpr hplain),
      ih fun x hx => h x (mem_cons_of_mem _ hx), phpText_cons]
    simp [encodePhpEntry, defined]

theorem encodePhp_eq_none (c : Codec V) (entries : List (List UInt8 × V)) :
    encodePhp c (entries.map defined) = none ↔
      ∃ e ∈ entries, psDelimiter ∈ e.1 ∨ psUndefMarker ∈ e.1 := by
  induction entries with
  | nil => simp [encodePhp]
  | cons e entries ih =>
    rw [map_cons, defined, encodePhp]
    split
    · next h => simp [h]
    · next h => simp [h, ih]

theorem readByte_append (pre rest : List UInt8) (b : UInt8) :
    readByte (pre ++ b :: rest) pre.length = .ok b := by
  simp [readByte]

theorem slice_append (pre w rest : List UInt8) :
    slice (pre ++ (w ++ rest)) pre.length w.length = .ok w := by
  have hlen : pre.length + w.length ≤ (pre ++ (w ++ rest)).length := by
    simp only [length_append]
    omega
  rw [slice, if_pos hlen, drop_left, take_left]

theorem findDelimiter_append {w : List UInt8} (hw : psDelimiter ∉ w) (pre rest : List UInt8)
    (fuel : Nat) (hfuel : w.length < fuel) :
    findDelimiter (pre ++ (w ++ psDelimiter :: rest)) fuel pre.length =
      .ok (some (pre.length + w.length)) := by
  induction w generalizing pre fuel with
  | nil =>
    obtain ⟨fuel, rfl⟩ : ∃ k, fuel = k + 1 := ⟨fuel - 1, by omega⟩
    rw [nil_append, findDelimiter, readByte_append]
    dsimp only [bind, Except.bind]
    rw [if_pos rfl]
    rfl
  | cons b w ih =>
    obtain ⟨fuel, rfl⟩ : ∃ k, fuel = k + 1 := ⟨fuel - 1, by omega⟩
    have hb : b ≠ psDelimiter := fun h => hw (h ▸ mem_cons_self)
    have hmore : ¬ pre.length + 1 ≥ (pre ++ (b :: w ++ psDelimiter :: rest)).length := by
      simp only [length_append, length_cons]
      omega
    have hrest := ih (fun h => hw (mem_cons_of_mem _ h)) (pre ++ [b]) fuel (by
      rw [length_cons] at hfuel
      omega)
    rw [findDelimiter, cons_append, readByte_append]
    dsimp only [bind, Except.bind]
    rw [if_neg hb, ← cons_append, if_neg hmore]
    simp only [append_assoc, singleton_append, length_append, length_cons,
      length_nil] at hrest
    rw [cons_append, length_cons, hrest]
    congr 2
    omega

theorem findDelimiter_none (hp : p < val.length) (hval : psDelimiter ∉ val.drop p) {fuel : Nat}
    (hfuel : val.length - p < fuel) :
    findDelimiter val fuel p = .ok none := by
  induction fuel generalizing p with
  | zero => omega
  | succ fuel ih =>
    have hcons : val.drop p = val[p] :: val.drop (p + 1) := drop_eq_getElem_cons hp
    rw [hcons, mem_cons, not_or] at hval
    have hread : readByte val p = .ok val[p] := by simp [readByte, hp]
    rw [findDelimiter, hread]
    dsimp only [bind, Except.bind]
    rw [if_neg (Ne.symm hval.1)]
    split
    · rfl
    · exact ih (by omega) hval.2 (by omega)

theorem phpRound_stop (hp : p < val.length) (hval : psDelimiter ∉ val.drop p)
    : phpRound c val p = .ok (.stop true) := by
  rw [phpRound, findDelimiter_none hp hval (by omega)]
  rfl

theorem phpRound_entry (c : Codec V) {key : List UInt8} (hkey : Plain key)
    (pre rest : List UInt8) : phpRound c (pre ++ (key ++ psDelimiter :: rest)) pre.length =
      decodeName c (pre ++ (key ++ psDelimiter :: rest)) pre.length key true
        (pre.length + key.length + 1) := by
  have hfind := findDelimiter_append hkey.1 pre rest
    ((pre ++ (key ++ psDelimiter :: rest)).length + 1) (by
      simp only [length_append]
      omega)
  obtain ⟨b, hread, hb⟩ : ∃ b, readByte (pre ++ (key ++ psDelimiter :: rest)) pre.length = .ok b ∧
      b ≠ psUndefMarker := by
    cases key with
    | nil => exact ⟨psDelimiter, readByte_append _ _ _, by decide⟩
    | cons b key => exact ⟨b, readByte_append _ _ _, fun h => hkey.2 (h ▸ mem_cons_self)⟩
  rw [phpRound, hfind]
  dsimp only [bind, Except.bind]
  rw [hread]
  dsimp only [bind, Except.bind]
  rw [decide_eq_true hb, if_pos rfl, Nat.add_sub_cancel_left, slice_append]

theorem slice_eq_ok (h : p + n ≤ val.length) :
    ∃ w, slice val p n = .ok w := by
  rw [slice, if_pos h]
  exact ⟨_, rfl⟩

theorem phpRound_round (c : Codec V) (hval : psDelimiter ∈ val.drop p) :
    (∃ r p', p < p' ∧ r.offset = p ∧ phpRound c val p = .ok (.round r p')) ∨
      phpRound c val p = .error .outOfBounds := by
  obtain ⟨w, rest, hdrop, hw⟩ := eq_append_cons_of_mem hval
  have hp : p < val.length := by
    by_contra hle
    rw [drop_eq_nil_of_le (by omega)] at hval
    exact nomatch hval
  have hsplit : val = val.take p ++ (w ++ psDelimiter :: rest) := by
    rw [← hdrop, take_append_drop]
  have htake : (val.take p).length = p := by
    rw [length_take]
    omega
  have hlen : val.length = p + (w.length + (rest.length + 1)) := by
    rw [hsplit]
    simp only [length_append, length_cons, htake]
  have hfind : findDelimiter val (val.length + 1) p = .ok (some (p + w.length)) := by
    have h := findDelimiter_append hw (val.take p) rest (val.length + 1) (by omega)
    rwa [← hsplit, htake] at h
  have hread : readByte val p = .ok val[p] := by simp [readByte, hp]
  rw [phpRound, hfind]
  dsimp only [bind, Except.bind]
  rw [hread]
  dsimp only [bind, Except.bind]
  -- the marker is no delimiter, but behind it there is at least the delimiter
  have hstart : ∀ b : Bool, (if b then p else p + 1) +
      (p + w.length - (if b then p else p + 1)) ≤ val.length := by
    intro b
    split <;> omega
  obtain ⟨name, hname⟩ := slice_eq_ok (hstart (decide (val[p] ≠ psUndefMarker)))
  rw [hname]
  dsimp only
  rcases decodeName_cases c val p name (decide (val[p] ≠ psUndefMarker)) (p + w.length + 1) with
    ⟨o, p', hle, hround⟩ | ⟨-, -, -, hround⟩
  · rw [hround]
    exact .inl ⟨_, p', by omega, rfl, rfl⟩
  · exact .inr hround

/-- Nothing that the decoder would go on with is left behind a refused name: its entry is the last
one, and its value has no delimiter. -/
def SkipsNothing (c : Codec V) : List (List UInt8 × V) → Prop
  | [] => True
  | e :: es =>
    (c.refused e.1 = true → es = [] ∧ psDelimiter ∉ c.serialize e.2) ∧ SkipsNothing c es

def accepted (c : Codec V) (entries : List (List UInt8 × V)) : List (Entry V) :=
  (entries.filter fun e => !c.refused e.1).map defined

section Php

variable {entries : List (List UInt8 × V)} {e : List UInt8 × V} {pre : List UInt8}

theorem phpRound_defined (hc : c.Lawful) (he : Plain e.1) (haccepted : c.refused e.1 = false)
    (pre rest : List UInt8) :
    phpRound c (pre ++ (encodePhpEntry c (defined e) ++ rest)) pre.length =
      .ok (.round ⟨pre.length, e.1, .value e.2⟩
        (pre.length + (encodePhpEntry c (defined e)).length)) := by
  have htext : encodePhpEntry c (defined e) ++ rest =
      e.1 ++ psDelimiter :: (c.serialize e.2 ++ rest) := by
    simp [encodePhpEntry, defined]
  have hdrop : (pre ++ (e.1 ++ psDelimiter :: (c.serialize e.2 ++ rest))).drop
      (pre.length + e.1.length + 1) = c.serialize e.2 ++ rest := by
    rw [show pre ++ (e.1 ++ psDelimiter :: (c.serialize e.2 ++ rest)) =
      (pre ++ e.1 ++ [psDelimiter]) ++ (c.serialize e.2 ++ rest) by simp]
    exact drop_left' (by simp [Nat.add_assoc])
  rw [htext, phpRound_entry c he, decodeName_value haccepted
    (hdrop ▸ hc.unserialize_serialize e.2 rest)]
  simp [encodePhpEntry, defined]
  omega

theorem phpRound_defined_refused (he : Plain e.1) (hrefused : c.refused e.1 = true)
    (pre rest : List UInt8) :
    phpRound c (pre ++ (encodePhpEntry c (defined e) ++ rest)) pre.length =
      .ok (.round ⟨pre.length, e.1, .refused⟩ (pre.length + e.1.length + 1)) := by
  have htext : encodePhpEntry c (defined e) ++ rest =
      e.1 ++ psDelimiter :: (c.serialize e.2 ++ rest) := by
    simp [encodePhpEntry, defined]
  rw [htext, phpRound_entry c he, decodeName_refused hrefused]

theorem length_encodePhpEntry (c : Codec V) (e : List UInt8 × V) :
    (encodePhpEntry c (defined e)).length = e.1.length + 1 + (c.serialize e.2).length := by
  simp only [encodePhpEntry, defined, length_append, length_cons]
  omega

theorem encodePhpEntry_pos (c : Codec V) (e : List UInt8 × V) :
    0 < (encodePhpEntry c (defined e)).length := by
  rw [length_encodePhpEntry]
  omega

/-- Behind the delimiter of an entry stands its value. -/
theorem drop_encodePhpEntry (c : Codec V) (pre : List UInt8) (e : List UInt8 × V) (rest : List UInt8) :
    (pre ++ (encodePhpEntry c (defined e) ++ rest)).drop (pre.length + e.1.length + 1) =
      c.serialize e.2 ++ rest := by
  rw [show pre ++ (encodePhpEntry c (defined e) ++ rest) =
    (pre ++ e.1 ++ [psDelimiter]) ++ (c.serialize e.2 ++ rest) by simp [encodePhpEntry, defined]]
  exact drop_left' (by simp [Nat.add_assoc])

theorem decodePhp_entries (hc : c.Lawful) (hplain : ∀ e ∈ entries, Plain e.1)
    (hskips : SkipsNothing c entries) (pre : List UInt8) (fuel : Nat)
    (hfuel : (phpText c entries).length < fuel) :
    ∃ rounds, decodeLoop (pre ++ phpText c entries)
        (phpRound c (pre ++ phpText c entries))
        fuel pre.length = .ok (rounds, true) ∧
      rounds.map Round.start = starts (encodePhpEntry c) pre.length (entries.map defined) ∧
      rounds.filterMap Round.entry = accepted c entries := by
  induction entries generalizing pre fuel with
  | nil =>
    obtain ⟨fuel, rfl⟩ : ∃ k, fuel = k + 1 := ⟨fuel - 1, by omega⟩
    exact ⟨[], decodeLoop_end (by simp [phpText]), rfl, rfl⟩
  | cons e entries ih =>
    have he : Plain e.1 := hplain e mem_cons_self
    have hes : ∀ x ∈ entries, Plain x.1 := fun x hx => hplain x (mem_cons_of_mem _ hx)
    have hpos := encodePhpEntry_pos c e
    rw [phpText_cons] at hfuel ⊢
    rw [length_append] at hfuel
    obtain ⟨fuel, rfl⟩ : ∃ k, fuel = k + 1 := ⟨fuel - 1, by omega⟩
    have hp : pre.length < (pre ++ (encodePhpEntry c (defined e) ++ phpText c entries)).length := by
      simp only [length_append]
      omega
    cases hrefused : c.refused e.1 with
    | false =>
      obtain ⟨rounds, hloop, hstarts, hentries⟩ := ih hes hskips.2
        (pre ++ encodePhpEntry c (defined e)) fuel (by omega)
      rw [append_assoc, length_append] at hloop
      rw [length_append] at hstarts
      rw [decodeLoop_round hp (phpRound_defined hc he hrefused pre _), hloop]
      refine ⟨_, rfl, ?_, ?_⟩
      · rw [map_cons, hstarts]
        rfl
      · rw [filterMap_cons]
        simp only [Round.entry, hentries]
        simp [accepted, hrefused, defined]
    | true =>
      obtain ⟨rfl, hvalue⟩ := hskips.1 hrefused
      have hround := phpRound_defined_refused (c := c) he hrefused pre []
      rw [append_nil] at hround
      rw [show phpText c [] = [] from rfl, append_nil]
      simp only [length_encodePhpEntry] at hfuel
      obtain ⟨fuel, rfl⟩ : ∃ k, fuel = k + 1 := ⟨fuel - 1, by omega⟩
      have hvaluePos : 0 < (c.serialize e.2).length :=
        length_pos_iff.mpr (hc.serialize_ne_nil e.2)
      have hbehind := drop_encodePhpEntry c pre e []
      rw [append_nil, append_nil] at hbehind
      have hstop : decodeLoop (pre ++ encodePhpEntry c (defined e))
          (phpRound c (pre ++ encodePhpEntry c (defined e))) (fuel + 1)
          (pre.length + e.1.length + 1) = .ok ([], true) := by
        have hlt : pre.length + e.1.length + 1 <
            (pre ++ encodePhpEntry c (defined e)).length := by
          rw [length_append, length_encodePhpEntry]
          omega
        exact decodeLoop_stop hlt (phpRound_stop hlt (hbehind ▸ hvalue))
      have hlt : pre.length < (pre ++ encodePhpEntry c (defined e)).length := by
        rw [length_append, length_encodePhpEntry]
        omega
      rw [decodeLoop_round hlt hround, hstop]
      refine ⟨_, rfl, rfl, ?_⟩
      simp [accepted, hrefused, Round.entry]

theorem skipsNothing_of_starts (hc : c.Lawful) (hplain : ∀ e ∈ entries, Plain e.1)
    (pre : List UInt8) {fuel : Nat}
    (hfuel : (phpText c entries).length < fuel)
    {rounds : List (Round V)}
    (hloop : decodeLoop (pre ++ phpText c entries)
      (phpRound c (pre ++ phpText c entries))
      fuel pre.length = .ok (rounds, true))
    (hstarts : rounds.map Round.start =
      starts (encodePhpEntry c) pre.length (entries.map defined)) :
    SkipsNothing c entries := by
  induction entries generalizing pre fuel rounds with
  | nil => trivial
  | cons e entries ih =>
    have he : Plain e.1 := hplain e mem_cons_self
    have hes : ∀ x ∈ entries, Plain x.1 := fun x hx => hplain x (mem_cons_of_mem _ hx)
    have hpos := encodePhpEntry_pos c e
    rw [phpText_cons] at hfuel hloop
    rw [length_append] at hfuel
    obtain ⟨fuel, rfl⟩ : ∃ k, fuel = k + 1 := ⟨fuel - 1, by omega⟩
    have hp : pre.length < (pre ++ (encodePhpEntry c (defined e) ++ phpText c entries)).length := by
      simp only [length_append]
      omega
    cases hrefused : c.refused e.1 with
    | false =>
      obtain ⟨rounds', rfl, hrest⟩ := decodeLoop_round_eq_ok hp
        (phpRound_defined hc he hrefused pre _) hloop
      rw [map_cons, map_cons, starts] at hstarts
      rw [← append_assoc, ← length_append] at hrest
      refine ⟨fun h => ?_, ih hes _ (by omega) hrest ?_⟩
      · exact absurd (hrefused ▸ h) (by decide)
      · rw [length_append]
        exact (List.cons.inj hstarts).2
    | true =>
      obtain ⟨rounds', rfl, hrest⟩ := decodeLoop_round_eq_ok hp
        (phpRound_defined_refused he hrefused pre _) hloop
      rw [map_cons, map_cons, starts] at hstarts
      have hstarts' := (List.cons.inj hstarts).2
      have hbehind := drop_encodePhpEntry c pre e (phpText c entries)
      have hvaluePos : 0 < (c.serialize e.2).length :=
        length_pos_iff.mpr (hc.serialize_ne_nil e.2)
      have hlen := length_encodePhpEntry c e
      have hp' : pre.length + e.1.length + 1 <
          (pre ++ (encodePhpEntry c (defined e) ++ phpText c entries)).length := by
        simp only [length_append]
        omega
      -- a round at the value would start where no entry starts
      have hno : psDelimiter ∉ c.serialize e.2 ++ phpText c entries := by
        rw [← hbehind]
        intro hmem
        obtain ⟨fuel, rfl⟩ : ∃ k, fuel = k + 1 := ⟨fuel - 1, by omega⟩
        rcases phpRound_round c hmem with ⟨r, p', -, hoffset, hround⟩ | hround
        · obtain ⟨rounds'', rfl, -⟩ := decodeLoop_round_eq_ok hp' hround hrest
          cases entries with
          | nil => exact nomatch hstarts'
          | cons e' entries =>
            have hstart : r.offset = pre.length + (encodePhpEntry c (defined e)).length :=
              congrArg Prod.fst (List.cons.inj hstarts').1
            omega
        · rw [decodeLoop_fault hp' hround] at hrest
          cases hrest
      rw [mem_append, not_or] at hno
      cases entries with
      | nil => exact ⟨fun _ => ⟨rfl, hno.1⟩, trivial⟩
      | cons e' entries =>
        rw [phpText_cons, mem_append, not_or] at hno
        exact absurd (by simp [encodePhpEntry, defined]) hno.2.1

end Php

section Digits

/-- Like `php_var_unserialize`, it reads a byte before it looks where the string ends. -/
def digits : Codec (Fin 10) where
  serialize d := [105, 58, .ofNat (48 + d), 59]
  unserialize
    | 105 :: 58 :: b :: 59 :: _ =>
      if h : 48 ≤ b.toNat ∧ b.toNat < 58 then some (some ⟨b.toNat - 48, by omega⟩, 4)
      else some (none, 0)
    | [] => none
    | _ => some (none, 0)
  refused name := decide (name = [95, 83, 69, 83, 83, 73, 79, 78])

theorem digits_lawful : digits.Lawful where
  unserialize_serialize d rest := by
    have hdigit : (UInt8.ofNat (48 + d)).toNat = 48 + d := by
      rw [UInt8.toNat_ofNat']
      omega
    simp only [digits, cons_append, hdigit]
    rw [dif_pos (by omega)]
    simp
  serialize_ne_nil _ := cons_ne_nil _ _

end Digits

end Php53.Session
