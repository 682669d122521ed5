import Php53.Session.RoundTrip

/-!
# BinaryRoundTrip — sessions decoded from their binary encoding

Behind a refused name the decoder goes on at the value, whose bytes it takes for the next entry.  It
compares the name with the end of the string, but not the place of the value, from which
`php_var_unserialize` reads a byte in any case.
-/

namespace Php53.Session

open List

variable {V : Type} {c : Codec V}

variable {e : List UInt8 × V}

theorem length_bits {n : Nat} (h : n ≤ psBinMax) :
    (UInt8.ofNat n).toNat &&& psBinMax = n ∧ (UInt8.ofNat n).toNat &&& psBinUndef = 0 := by
  have hn : n < 128 := by
    unfold psBinMax psBinUndef at h
    omega
  have hbyte : (UInt8.ofNat n).toNat = n := by
    rw [UInt8.toNat_ofNat']
    omega
  have hmarker : n &&& psBinUndef = 0 := by
    revert n
    decide +kernel
  rw [hbyte]
  refine ⟨?_, hmarker⟩
  show n &&& (2 ^ 7 - 1) = n
  rw [Nat.and_two_pow_sub_one_eq_mod, Nat.mod_eq_of_lt hn]

/-- The round at `p` does not let `php_var_unserialize` read behind the end of the string. -/
def ReadsWithin (c : Codec V) (val : List UInt8) (p : Nat) : Prop :=
  ∀ b, val[p]? = some b → b.toNat &&& psBinUndef = 0 →
    p + (b.toNat &&& psBinMax) < val.length →
    c.refused ((val.drop (p + 1)).take (b.toNat &&& psBinMax)) = false →
    c.unserialize (val.drop (p + (b.toNat &&& psBinMax) + 1)) ≠ none

theorem binaryRound_cases (c : Codec V) {val : List UInt8} {p : Nat} (hp : p < val.length) :
    (binaryRound c val p = .error .outOfBounds ∧ ¬ ReadsWithin c val p) ∨
      ((∃ success, binaryRound c val p = .ok (.stop success)) ∨
        ∃ r p', p < p' ∧ binaryRound c val p = .ok (.round r p')) ∧ ReadsWithin c val p := by
  have hread : readByte val p = .ok val[p] := by simp [readByte, hp]
  have hbyte : val[p]? = some val[p] := List.getElem?_eq_getElem hp
  unfold binaryRound ReadsWithin
  rw [hread, hbyte]
  dsimp only [bind, Except.bind]
  split
  · next hstop =>
    refine .inr ⟨.inl ⟨false, rfl⟩, fun b hb _ hinside => ?_⟩
    cases hb
    have hmask : val[p].toNat &&& psBinMax ≤ psBinMax := Nat.and_le_right
    omega
  · next h =>
    have hinside : p + 1 + (val[p].toNat &&& psBinMax) ≤ val.length := by omega
    have hname : slice val (p + 1) (val[p].toNat &&& psBinMax) =
        .ok ((val.drop (p + 1)).take (val[p].toNat &&& psBinMax)) := if_pos hinside
    rw [hname]
    dsimp only
    rcases decodeName_cases c val p ((val.drop (p + 1)).take (val[p].toNat &&& psBinMax))
        (decide (val[p].toNat &&& psBinUndef = 0)) (p + (val[p].toNat &&& psBinMax) + 1) with
      ⟨o, p', hle, hround⟩ | ⟨hrefused, hvalue, hfails, hround⟩
    · refine .inr ⟨.inr ⟨_, p', by omega, hround⟩, fun b hb hvalue _ hrefused hfails => ?_⟩
      cases hb
      rw [decodeName, hrefused, hfails, if_neg Bool.false_ne_true, if_pos (decide_eq_true hvalue)]
        at hround
      cases hround
    · exact .inl ⟨hround, fun hwithin => hwithin _ rfl (of_decide_eq_true hvalue) (by omega)
        hrefused hfails⟩

theorem binaryRound_length (c : Codec V) {name : List UInt8} (hname : name.length ≤ psBinMax)
    (pre rest : List UInt8) :
    binaryRound c (pre ++ (UInt8.ofNat name.length :: (name ++ rest))) pre.length =
      decodeName c (pre ++ (UInt8.ofNat name.length :: (name ++ rest))) pre.length name true
        (pre.length + name.length + 1) := by
  obtain ⟨hlength, hmarker⟩ := length_bits hname
  have hslice : slice (pre ++ (UInt8.ofNat name.length :: (name ++ rest))) (pre.length + 1)
      name.length = .ok name := by
    have h := slice_append (pre ++ [UInt8.ofNat name.length]) name rest
    rwa [append_assoc, singleton_append, length_append] at h
  have hinside : ¬ (name.length > psBinMax ∨
      pre.length + name.length ≥ (pre ++ (UInt8.ofNat name.length :: (name ++ rest))).length) := by
    simp only [length_append, length_cons]
    omega
  rw [binaryRound, readByte_append]
  dsimp only [bind, Except.bind]
  rw [hlength, if_neg hinside, hslice, hmarker]
  rfl

def binaryText (c : Codec V) (entries : List (List UInt8 × V)) : List UInt8 :=
  encodeBinary c (entries.map defined)

theorem encodeBinaryEntry_defined (c : Codec V) (h : e.1.length ≤ psBinMax) :
    encodeBinaryEntry c (defined e) = .ofNat e.1.length :: (e.1 ++ c.serialize e.2) := by
  rw [defined, encodeBinaryEntry, if_neg (by omega)]

theorem binaryText_cons (c : Codec V) (e : List UInt8 × V) (entries : List (List UInt8 × V)) :
    binaryText c (e :: entries) = encodeBinaryEntry c (defined e) ++ binaryText c entries := rfl

theorem encodeBinaryEntry_pos (c : Codec V) (he : e.1.length ≤ psBinMax) :
    0 < (encodeBinaryEntry c (defined e)).length := by
  rw [encodeBinaryEntry_defined c he]
  exact Nat.succ_pos _

theorem binaryRound_defined (hc : c.Lawful) (he : e.1.length ≤ psBinMax)
    (haccepted : c.refused e.1 = false) (pre rest : List UInt8) :
    binaryRound c (pre ++ (encodeBinaryEntry c (defined e) ++ rest)) pre.length =
      .ok (.round ⟨pre.length, e.1, .value e.2⟩
        (pre.length + (encodeBinaryEntry c (defined e)).length)) := by
  have htext : encodeBinaryEntry c (defined e) ++ rest =
      .ofNat e.1.length :: (e.1 ++ (c.serialize e.2 ++ rest)) := by
    simp [encodeBinaryEntry_defined c he]
  have hdrop : (pre ++ (UInt8.ofNat e.1.length :: (e.1 ++ (c.serialize e.2 ++ rest)))).drop
      (pre.length + e.1.length + 1) = c.serialize e.2 ++ rest := by
    rw [show pre ++ (UInt8.ofNat e.1.length :: (e.1 ++ (c.serialize e.2 ++ rest))) =
      (pre ++ UInt8.ofNat e.1.length :: e.1) ++ (c.serialize e.2 ++ rest) by simp]
    exact drop_left' (by simp [Nat.add_assoc])
  have hlen : (encodeBinaryEntry c (defined e)).length =
      e.1.length + 1 + (c.serialize e.2).length := by
    simp only [encodeBinaryEntry_defined c he, length_cons, length_append]
    omega
  rw [htext, binaryRound_length c he, decodeName_value haccepted
    (hdrop ▸ hc.unserialize_serialize e.2 rest), hlen]
  congr 2
  omega

theorem binaryRound_defined_refused (he : e.1.length ≤ psBinMax) (hrefused : c.refused e.1 = true)
    (pre rest : List UInt8) :
    binaryRound c (pre ++ (encodeBinaryEntry c (defined e) ++ rest)) pre.length =
      .ok (.round ⟨pre.length, e.1, .refused⟩ (pre.length + e.1.length + 1)) := by
  have htext : encodeBinaryEntry c (defined e) ++ rest =
      .ofNat e.1.length :: (e.1 ++ (c.serialize e.2 ++ rest)) := by
    simp [encodeBinaryEntry_defined c he]
  rw [htext, binaryRound_length c he, decodeName_refused hrefused]

section Session

variable {entries : List (List UInt8 × V)}

theorem decodeBinary_entries (hc : c.Lawful) (hshort : ∀ e ∈ entries, e.1.length ≤ psBinMax)
    (haccepted : ∀ e ∈ entries, c.refused e.1 = false) (pre : List UInt8) (fuel : Nat)
    (hfuel : (binaryText c entries).length < fuel) :
    ∃ rounds, decodeLoop (pre ++ binaryText c entries) (binaryRound c (pre ++ binaryText c entries))
        fuel pre.length = .ok (rounds, true) ∧
      rounds.map Round.start = starts (encodeBinaryEntry c) pre.length (entries.map defined) ∧
      rounds.filterMap Round.entry = entries.map defined := by
  induction entries generalizing pre fuel with
  | nil =>
    obtain ⟨fuel, rfl⟩ : ∃ k, fuel = k + 1 := ⟨fuel - 1, by omega⟩
    exact ⟨[], decodeLoop_end (by simp [binaryText, encodeBinary]), rfl, rfl⟩
  | cons e entries ih =>
    have he : e.1.length ≤ psBinMax := hshort e mem_cons_self
    have hpos := encodeBinaryEntry_pos c he
    obtain ⟨fuel, rfl⟩ : ∃ k, fuel = k + 1 := ⟨fuel - 1, by omega⟩
    rw [binaryText_cons, length_append] at hfuel
    obtain ⟨rounds, hloop, hstarts, hentries⟩ := ih
      (fun x hx => hshort x (mem_cons_of_mem _ hx)) (fun x hx => haccepted x (mem_cons_of_mem _ hx))
      (pre ++ encodeBinaryEntry c (defined e)) fuel (by omega)
    rw [append_assoc, length_append] at hloop
    rw [length_append] at hstarts
    have hp : pre.length < (pre ++ (encodeBinaryEntry c (defined e) ++ binaryText c entries)).length := by
      simp only [length_append]
      omega
    rw [binaryText_cons, decodeLoop_round hp
      (binaryRound_defined hc he (haccepted e mem_cons_self) pre _), hloop]
    refine ⟨_, rfl, ?_, ?_⟩
    · rw [map_cons, hstarts]
      rfl
    · rw [filterMap_cons, map_cons, ← hentries]
      rfl

theorem accepted_of_rounds (hc : c.Lawful) (hshort : ∀ e ∈ entries, e.1.length ≤ psBinMax)
    (pre : List UInt8) {fuel : Nat} (hfuel : (binaryText c entries).length < fuel)
    {rounds : List (Round V)}
    (hloop : decodeLoop (pre ++ binaryText c entries) (binaryRound c (pre ++ binaryText c entries))
      fuel pre.length = .ok (rounds, true))
    (hentries : rounds.map Round.entry = (entries.map defined).map some) :
    ∀ e ∈ entries, c.refused e.1 = false := by
  induction entries generalizing pre fuel rounds with
  | nil => exact fun e he => absurd he not_mem_nil
  | cons e entries ih =>
    have he : e.1.length ≤ psBinMax := hshort e mem_cons_self
    have hpos := encodeBinaryEntry_pos c he
    obtain ⟨fuel, rfl⟩ : ∃ k, fuel = k + 1 := ⟨fuel - 1, by omega⟩
    rw [binaryText_cons] at hfuel hloop
    rw [length_append] at hfuel
    have hp : pre.length < (pre ++ (encodeBinaryEntry c (defined e) ++ binaryText c entries)).length := by
      simp only [length_append]
      omega
    cases hrefused : c.refused e.1 with
    | false =>
      obtain ⟨rs, rfl, hrest⟩ := decodeLoop_round_eq_ok hp
        (binaryRound_defined hc he hrefused pre _) hloop
      rw [← append_assoc, ← length_append] at hrest
      rw [forall_mem_cons]
      exact ⟨hrefused, ih (fun x hx => hshort x (mem_cons_of_mem _ hx)) _ (by omega) hrest
        (List.cons.inj hentries).2⟩
    | true =>
      obtain ⟨rs, rfl, -⟩ := decodeLoop_round_eq_ok hp
        (binaryRound_defined_refused he hrefused pre _) hloop
      cases (List.cons.inj hentries).1

end Session

theorem map_eq_of_filterMap_eq {α β : Type} {f : α → Option β} {xs : List α} {ys : List β}
    (hlen : xs.length = ys.length) (h : xs.filterMap f = ys) : xs.map f = ys.map some := by
  induction xs generalizing ys with
  | nil =>
    subst h
    rfl
  | cons x xs ih =>
    rw [filterMap_cons] at h
    cases hx : f x with
    | none =>
      rw [hx] at h
      dsimp only at h
      have hle := length_filterMap_le f xs
      rw [h, ← hlen, length_cons] at hle
      omega
    | some y =>
      rw [hx] at h
      subst h
      rw [map_cons, map_cons, hx, ih (Nat.succ.inj hlen) rfl]

end Php53.Session
