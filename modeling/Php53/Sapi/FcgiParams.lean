import Mathlib.Data.List.Induction
import Php53.Sapi.FcgiRecord

/-!
# FcgiParams — names and values of a FastCGI request

A name-value pair is the lengths of its two parts and the parts.  A length below 128 is one byte,
another one is four bytes with the highest bit set.
-/

namespace Php53.Sapi

open Reasoning List

abbrev FcgiParam := List UInt8 × List UInt8

def encodeLength (n : Nat) : List UInt8 :=
  if n < 128 then [.ofNat n]
  else [.ofNat (n / 2 ^ 24 + 128), .ofNat (n / 2 ^ 16), .ofNat (n / 2 ^ 8), .ofNat n]

def encodeParam (p : FcgiParam) : List UInt8 :=
  encodeLength p.1.length ++ (encodeLength p.2.length ++ (p.1 ++ p.2))

def ValidParam (p : FcgiParam) : Prop := p.1.length < 2 ^ 31 ∧ p.2.length < 2 ^ 31

/-- A length at the front of the bytes, and what is behind it.  The longer form is only read where a
    byte follows it. -/
def paramLength : List UInt8 → Option (Nat × List UInt8)
  | [] => none
  | b :: p =>
    if b.toNat < 128 then some (b.toNat, p)
    else
      match p with
      | b2 :: b1 :: b0 :: next :: rest =>
        some ((b.toNat &&& 0x7f) <<< 24 ||| b2.toNat <<< 16 ||| b1.toNat <<< 8 ||| b0.toNat,
          next :: rest)
      | _ => none

/-- One round of the loop in `fcgi_get_params`, none where the request is malformed. -/
def decodeParam (p : List UInt8) : Option (FcgiParam × List UInt8) :=
  (paramLength p).bind fun (nameLen, p) =>
    (paramLength p).bind fun (valLen, p) =>
      if nameLen + valLen > p.length then none
      else some ((p.take nameLen, (p.drop nameLen).take valLen), p.drop (nameLen + valLen))

/-- `req->env`, in the order in which the names were added.  A key is a name and its NUL byte. -/
abbrev FcgiEnv := List (List UInt8 × List UInt8)

/-- `zend_hash_update` -/
def envUpdate (env : FcgiEnv) (key value : List UInt8) : FcgiEnv :=
  match env with
  | [] => [(key, value)]
  | (k, v) :: env => if k = key then (k, value) :: env else (k, v) :: envUpdate env key value

/-- `zend_hash_find` -/
def envFind (env : FcgiEnv) (key : List UInt8) : Option (List UInt8) :=
  (env.find? fun p => p.1 = key).map Prod.snd

def nameBufSize (size nameLen : Nat) : Nat := if nameLen + 1 ≥ size then nameLen + 64 else size

/-- The loop of `fcgi_get_params`; a store behind the name buffer would be undefined. -/
def fcgiGetParamsLoop : Nat → FcgiEnv → Nat → List UInt8 → Option (Bool × FcgiEnv)
  | _, env, _, [] => some (true, env)
  | 0, env, _, _ :: _ => some (false, env)
  | fuel + 1, env, bufSize, b :: p =>
    match decodeParam (b :: p) with
    | none => some (false, env)
    | some ((name, value), rest) =>
      if name.length < nameBufSize bufSize name.length then
        fcgiGetParamsLoop fuel (envUpdate env (name ++ [0]) value) (nameBufSize bufSize name.length)
          rest
      else none

def fcgiGetParams (env : FcgiEnv) (bytes : List UInt8) : Option (Bool × FcgiEnv) :=
  fcgiGetParamsLoop bytes.length env 128 bytes

theorem length_encodeLength (n : Nat) : 0 < (encodeLength n).length := by
  unfold encodeLength
  split <;> simp

variable {n : Nat}

theorem fromBytes4 (hn : n < 2 ^ 31) :
    ((UInt8.ofNat (n / 2 ^ 24 + 128)).toNat &&& 0x7f) <<< 24 ||| (UInt8.ofNat (n / 2 ^ 16)).toNat <<< 16
      ||| (UInt8.ofNat (n / 2 ^ 8)).toNat <<< 8 ||| (UInt8.ofNat n).toNat = n := by
  have hmask : ∀ m : Nat, m &&& 0x7f = m % 128 := fun m => Nat.and_two_pow_sub_one_eq_mod m 7
  simp only [UInt8.toNat_ofNat', hmask]
  have h0 : n % 2 ^ 8 < 2 ^ 8 := Nat.mod_lt _ (by decide)
  have h1 : n / 2 ^ 8 % 2 ^ 8 < 2 ^ 8 := Nat.mod_lt _ (by decide)
  have h2 : n / 2 ^ 16 % 2 ^ 8 < 2 ^ 8 := Nat.mod_lt _ (by decide)
  -- the bytes do not overlap, so the bits add up
  rw [Nat.or_assoc, Nat.or_assoc]
  have hlow : (n / 2 ^ 8 % 2 ^ 8) <<< 8 ||| n % 2 ^ 8 = n % 2 ^ 16 := by
    rw [← Nat.shiftLeft_add_eq_or_of_lt h0, Nat.shiftLeft_eq]
    omega
  rw [hlow]
  have hmid : (n / 2 ^ 16 % 2 ^ 8) <<< 16 ||| n % 2 ^ 16 = n % 2 ^ 24 := by
    rw [← Nat.shiftLeft_add_eq_or_of_lt (Nat.mod_lt _ (by decide)), Nat.shiftLeft_eq]
    omega
  rw [hmid, ← Nat.shiftLeft_add_eq_or_of_lt (Nat.mod_lt _ (by decide)), Nat.shiftLeft_eq]
  omega

theorem paramLength_encodeLength (hn : n < 2 ^ 31) {rest : List UInt8} (hrest : rest ≠ []) :
    paramLength (encodeLength n ++ rest) = some (n, rest) := by
  unfold encodeLength
  by_cases hshort : n < 128
  · rw [if_pos hshort]
    have hb : (UInt8.ofNat n).toNat = n := by
      rw [UInt8.toNat_ofNat']
      omega
    simp [paramLength, hb, hshort]
  · rw [if_neg hshort]
    cases rest with
    | nil => exact absurd rfl hrest
    | cons next rest =>
      have hb : ¬ (UInt8.ofNat (n / 2 ^ 24 + 128)).toNat < 128 := by
        rw [UInt8.toNat_ofNat']
        omega
      simp only [cons_append, nil_append, paramLength]
      rw [if_neg hb, fromBytes4 hn]

theorem paramLength_end (hn : n < 2 ^ 31) :
    paramLength (encodeLength n) = some (n, []) ∧ n < 128 ∨ paramLength (encodeLength n) = none := by
  unfold encodeLength
  by_cases hshort : n < 128
  · rw [if_pos hshort]
    have hb : (UInt8.ofNat n).toNat = n := by
      rw [UInt8.toNat_ofNat']
      omega
    left
    simp [paramLength, hb, hshort]
  · rw [if_neg hshort]
    have hb : ¬ (UInt8.ofNat (n / 2 ^ 24 + 128)).toNat < 128 := by
      rw [UInt8.toNat_ofNat']
      omega
    right
    rw [paramLength, if_neg hb]
    intro _ _ _ _ _ h
    exact nomatch h

theorem paramLength_part (hn : n < 2 ^ 31) {p s : List UInt8} (h : encodeLength n = p ++ s)
    (hs : s ≠ []) : paramLength p = none := by
  have hpos := length_pos_of_ne_nil hs
  unfold encodeLength at h
  cases p with
  | nil => rfl
  | cons b p =>
    by_cases hshort : n < 128
    · rw [if_pos hshort] at h
      have hlen := congrArg List.length h
      simp only [length_append, length_cons, length_nil] at hlen
      omega
    · rw [if_neg hshort] at h
      have hlen := congrArg List.length h
      have hb : ¬ (UInt8.ofNat (n / 2 ^ 24 + 128)).toNat < 128 := by
        rw [UInt8.toNat_ofNat']
        omega
      obtain ⟨rfl, -⟩ := List.cons.inj h
      rw [paramLength, if_neg hb]
      intro _ _ _ _ _ hp
      subst hp
      simp only [length_append, length_cons, length_nil] at hlen
      omega

theorem paramLength_lt {p rest : List UInt8} (h : paramLength p = some (n, rest)) :
    rest.length < p.length := by
  unfold paramLength at h
  split at h
  · exact nomatch h
  · split at h
    · obtain ⟨-, rfl⟩ := Prod.mk.inj (Option.some.inj h)
      exact Nat.lt_succ_self _
    · split at h
      · obtain ⟨-, rfl⟩ := Prod.mk.inj (Option.some.inj h)
        simp only [length_cons]
        omega
      · exact nomatch h

theorem decodeParam_lt (p : List UInt8) (param : FcgiParam) (rest : List UInt8)
    (h : decodeParam p = some (param, rest)) : rest.length < p.length := by
  obtain ⟨⟨n, p1⟩, hn, h⟩ := Option.bind_eq_some_iff.mp h
  obtain ⟨⟨v, p2⟩, hv, h⟩ := Option.bind_eq_some_iff.mp h
  have h1 := paramLength_lt hn
  have h2 := paramLength_lt hv
  simp only at h
  split at h
  · exact nomatch h
  · obtain ⟨-, rfl⟩ := Prod.mk.inj (Option.some.inj h)
    simp only [length_drop] at h1 h2 ⊢
    omega

theorem decodeParam_eq {p p1 p2 : List UInt8} {v : Nat} (hn : paramLength p = some (n, p1))
    (hv : paramLength p1 = some (v, p2)) : decodeParam p =
      if n + v > p2.length then none
      else some ((p2.take n, (p2.drop n).take v), p2.drop (n + v)) := by
  unfold decodeParam
  simp only [hn, hv, Option.bind_some]

theorem decode_encodeParam (param : FcgiParam) (rest : List UInt8) (h : ValidParam param) :
    decodeParam (encodeParam param ++ rest) = some (param, rest) := by
  have hvlen := length_encodeLength param.2.length
  have hname : paramLength (encodeParam param ++ rest) = some (param.1.length,
      encodeLength param.2.length ++ (param.1 ++ param.2 ++ rest)) := by
    unfold encodeParam
    rw [append_assoc, append_assoc]
    apply paramLength_encodeLength h.1
    apply ne_nil_of_length_pos
    rw [length_append]
    omega
  have hvalue : paramLength (encodeLength param.2.length ++ (param.1 ++ param.2 ++ rest)) =
      some (param.2.length, param.1 ++ param.2 ++ rest) := by
    by_cases hne : param.1 ++ param.2 ++ rest = []
    · -- an empty value at the end has the shorter form
      rw [hne, append_nil]
      have hzero : param.2 = [] := by
        rw [append_eq_nil_iff, append_eq_nil_iff] at hne
        exact hne.1.2
      rw [hzero]
      rfl
    · exact paramLength_encodeLength h.2 hne
  rw [decodeParam_eq hname hvalue, if_neg (by simp only [length_append]; omega)]
  have hdrop : (param.1 ++ param.2 ++ rest).drop (param.1.length + param.2.length) = rest := by
    rw [← length_append, drop_left]
  rw [hdrop, append_assoc, take_left, drop_left, take_left]

def paramFraming : Framing FcgiParam UInt8 :=
  { Valid := ValidParam, encode := encodeParam, decode := decodeParam,
    decode_encode := decode_encodeParam, decode_lt := decodeParam_lt }

theorem paramFraming_prefixFree : paramFraming.PrefixFree := by
  intro param hvalid p s hsplit hs
  obtain ⟨hn, hv⟩ : param.1.length < 2 ^ 31 ∧ param.2.length < 2 ^ 31 := hvalid
  show decodeParam p = none
  have hnone : ∀ q : List UInt8, paramLength q = none → decodeParam q = none := fun q hq => by
    unfold decodeParam
    rw [hq, Option.bind_none]
  change encodeLength param.1.length ++ _ = p ++ s at hsplit
  rcases append_eq_append_iff.mp hsplit with ⟨q, rfl, hrest⟩ | ⟨q, hname, rfl⟩
  · -- the length of the name is there
    by_cases hq : q = []
    · subst hq
      rw [append_nil]
      rcases paramLength_end hn with ⟨hsome, -⟩ | hnone'
      · unfold decodeParam
        rw [hsome, Option.bind_some]
        rfl
      · exact hnone _ hnone'
    have hname := paramLength_encodeLength hn hq
    have hvnone : paramLength q = none → decodeParam (encodeLength param.1.length ++ q) = none :=
      fun hvn => by
        unfold decodeParam
        simp only [hname, Option.bind_some, hvn, Option.bind_none]
    rcases append_eq_append_iff.mp hrest with ⟨q', rfl, hdata⟩ | ⟨q', hvalue, rfl⟩
    · -- and that of the value: the data is too short
      have hshort : param.1.length + param.2.length > q'.length := by
        have hlen := congrArg List.length hdata
        have hpos := length_pos_of_ne_nil hs
        simp only [length_append] at hlen
        omega
      by_cases hq' : q' = []
      · subst hq'
        rw [append_nil] at hname hvnone ⊢
        rcases paramLength_end hv with ⟨hsome, -⟩ | hnone'
        · rw [decodeParam_eq hname hsome, if_pos hshort]
        · exact hvnone hnone'
      · rw [decodeParam_eq hname (paramLength_encodeLength hv hq'), if_pos hshort]
    · by_cases hq' : q' = []
      · subst hq'
        rw [append_nil] at hvalue
        subst hvalue
        have hshort : param.1.length + param.2.length > ([] : List UInt8).length := by
          have hpos := length_pos_of_ne_nil hs
          simp only [nil_append, length_append] at hpos
          exact hpos
        rcases paramLength_end hv with ⟨hsome, -⟩ | hnone'
        · rw [decodeParam_eq hname hsome, if_pos hshort]
        · exact hvnone hnone'
      · exact hvnone (paramLength_part hv hvalue hq')
  · by_cases hq : q = []
    · subst hq
      rw [append_nil] at hname
      subst hname
      rcases paramLength_end hn with ⟨hsome, -⟩ | hnone'
      · unfold decodeParam
        rw [hsome, Option.bind_some]
        rfl
      · exact hnone _ hnone'
    · exact hnone p (paramLength_part hn hname hq)

/-- `zend_hash_update` for each pair, in their order. -/
def updateAll (env : FcgiEnv) (params : List FcgiParam) : FcgiEnv :=
  params.foldl (fun env p => envUpdate env (p.1 ++ [0]) p.2) env

theorem fcgiGetParamsLoop_eq (fuel : Nat) (env : FcgiEnv) (size : Nat) (bytes : List UInt8)
    (hfuel : bytes.length ≤ fuel) :
    ∃ env', fcgiGetParamsLoop fuel env size bytes =
      some ((paramFraming.parse bytes).isSome, env') ∧
      ∀ params, paramFraming.parse bytes = some params → env' = updateAll env params := by
  induction fuel generalizing env size bytes with
  | zero =>
    obtain rfl := eq_nil_of_length_eq_zero (Nat.le_zero.mp hfuel)
    refine ⟨env, rfl, fun params hparams => ?_⟩
    obtain rfl : [] = params := Option.some.inj hparams
    rfl
  | succ fuel ih =>
    cases bytes with
    | nil =>
      refine ⟨env, rfl, fun params hparams => ?_⟩
      obtain rfl : [] = params := Option.some.inj hparams
      rfl
    | cons b p =>
      rw [fcgiGetParamsLoop]
      cases hd : decodeParam (b :: p) with
      | none =>
        have hparse : paramFraming.parse (b :: p) = none :=
          paramFraming.parse_of_decode_none (cons_ne_nil b p) hd
        rw [hparse]
        exact ⟨env, rfl, fun params hparams => nomatch hparams⟩
      | some r =>
        obtain ⟨⟨name, value⟩, rest⟩ := r
        have hlt := decodeParam_lt _ _ _ hd
        have hsize : name.length < nameBufSize size name.length := by
          unfold nameBufSize
          split <;> omega
        have hparse : paramFraming.parse (b :: p) =
            (paramFraming.parse rest).map ((name, value) :: ·) := paramFraming.parse_decode hd
        simp only [length_cons] at hlt hfuel
        obtain ⟨env', hloop, henv⟩ := ih (envUpdate env (name ++ [0]) value)
          (nameBufSize size name.length) rest (by omega)
        refine ⟨env', ?_, fun params hparams => ?_⟩
        · simp only [if_pos hsize, hloop, hparse, Option.isSome_map]
        · rw [hparse] at hparams
          obtain ⟨ps, hps, rfl⟩ := Option.map_eq_some_iff.mp hparams
          exact henv ps hps

theorem fcgiGetParams_eq (env : FcgiEnv) (bytes : List UInt8) :
    ∃ env', fcgiGetParams env bytes = some ((paramFraming.parse bytes).isSome, env') ∧
      ∀ params, paramFraming.parse bytes = some params → env' = updateAll env params :=
  fcgiGetParamsLoop_eq bytes.length env 128 bytes (Nat.le_refl _)

theorem envFind_update (env : FcgiEnv) (key value key' : List UInt8) :
    envFind (envUpdate env key value) key' = if key = key' then some value else envFind env key' := by
  induction env with
  | nil => by_cases h : key = key' <;> simp [envUpdate, envFind, h]
  | cons p env ih =>
    obtain ⟨k, v⟩ := p
    unfold envUpdate
    unfold envFind at ih ⊢
    by_cases hk : k = key
    · subst hk
      by_cases h : k = key' <;> simp [h]
    · rw [if_neg hk]
      by_cases h : k = key'
      · subst h
        simp [Ne.symm hk]
      · simp only [List.find?_cons, h, decide_false]
        exact ih

theorem envFind_updateAll (env : FcgiEnv) (params : List FcgiParam) (name : List UInt8) :
    envFind (updateAll env params) (name ++ [0]) =
      match params.reverse.find? fun p => p.1 = name with
      | some p => some p.2
      | none => envFind env (name ++ [0]) := by
  induction params using reverseRecOn with
  | nil => rfl
  | append_singleton params p ih =>
    have hstep : updateAll env (params ++ [p]) =
        envUpdate (updateAll env params) (p.1 ++ [0]) p.2 := by
      simp [updateAll]
    rw [hstep, envFind_update, reverse_append, reverse_singleton, singleton_append,
      List.find?_cons]
    by_cases hname : p.1 = name
    · subst hname
      simp
    · have hkey : ¬ p.1 ++ [0] = name ++ [0] := fun he => hname (append_cancel_right he)
      simp only [if_neg hkey, hname, decide_false]
      exact ih

end Php53.Sapi
