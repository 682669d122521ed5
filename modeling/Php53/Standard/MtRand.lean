import Mathlib.Data.List.Basic

/-!
# MtRand — the Mersenne Twister of `rand.c`

`php_mt_reload` makes the next 624 words in the place of the last ones.  The words are those of one
sequence without end, in which every word comes from the three that stand 624, 623 and 227 places in
front of it.
-/

namespace Php53.Standard

abbrev Uint32 := BitVec 32

def mtN : Nat := 624
def mtM : Nat := 397

def hiBit (u : Uint32) : Uint32 := u &&& 0x80000000
def loBit (u : Uint32) : Uint32 := u &&& 0x00000001
def loBits (u : Uint32) : Uint32 := u &&& 0x7FFFFFFF
def mixBits (u v : Uint32) : Uint32 := hiBit u ||| loBits v

/-- The low bit is that of `u`. -/
def twist (m u v : Uint32) : Uint32 := m ^^^ (mixBits u v >>> 1) ^^^ (-(loBit u) &&& 0x9908b0df)

/-- `( 1812433253U * ( *r ^ (*r >> 30) ) + i ) & 0xffffffffU` -/
def nextSeed (r : Uint32) (i : Nat) : Uint32 := 1812433253 * (r ^^^ (r >>> 30)) + BitVec.ofNat 32 i

/-- The loop of `php_mt_initialize` for `i` up to `mtN`, behind the word `r`. -/
def phpMtInitializeLoop : Nat → Nat → Uint32 → List Uint32
  | 0, _, _ => []
  | n + 1, i, r => nextSeed r i :: phpMtInitializeLoop n (i + 1) (nextSeed r i)

def phpMtInitialize (seed : Uint32) : List Uint32 := seed :: phpMtInitializeLoop (mtN - 1) 1 seed

/-- `*p = twist(p[m], p[0], p[next])`, with the places counted from `state`; `none` is an access
outside of it. -/
def twistAt (state : List Uint32) (p m next : Nat) : Option (List Uint32) := do
  return state.set p (twist (← state[m]?) (← state[p]?) (← state[next]?))

/-- The loops of `php_mt_reload`, which differ in the place of the first word. -/
def reloadLoop (m : Nat → Nat) : Nat → Nat → List Uint32 → Option (List Uint32)
  | 0, _, state => some state
  | i + 1, p, state => (twistAt state p (m p) (p + 1)).bind (reloadLoop m i (p + 1))

/-- The fields of `BG` that the generator uses; `next` counts from `state`. -/
structure MtState where
  state : List Uint32
  left : Nat
  next : Nat

def phpMtReload (g : MtState) : Option MtState := do
  let state ← reloadLoop (fun p => p + mtM) (mtN - mtM) 0 g.state
  let state ← reloadLoop (fun p => p + mtM - mtN) (mtM - 1) (mtN - mtM) state
  let state ← twistAt state (mtN - 1) (mtN - 1 + mtM - mtN) 0
  return { state, left := mtN, next := 0 }

def phpMtSrand (seed : Uint32) : Option MtState :=
  phpMtReload { state := phpMtInitialize seed, left := 0, next := 0 }

def temper (s1 : Uint32) : Uint32 :=
  let s1 := s1 ^^^ (s1 >>> 11)
  let s1 := s1 ^^^ ((s1 <<< 7) &&& 0x9d2c5680)
  let s1 := s1 ^^^ ((s1 <<< 15) &&& 0xefc60000)
  s1 ^^^ (s1 >>> 18)

def phpMtRand (g : MtState) : Option (Uint32 × MtState) :=
  (if g.left = 0 then phpMtReload g else some g).bind fun g =>
    g.state[g.next]?.map fun s1 => (temper s1, { g with left := g.left - 1, next := g.next + 1 })

/-- The calls of `php_mt_rand` behind each other. -/
def phpMtRands : Nat → MtState → Option (List Uint32 × MtState)
  | 0, g => some ([], g)
  | count + 1, g => do
    let (r, g) ← phpMtRand g
    let (rs, g) ← phpMtRands count g
    return (r :: rs, g)

def mtWord (seed : Uint32) (k : Nat) : Uint32 :=
  if 624 ≤ k then
    twist (mtWord seed (k - 227)) (mtWord seed (k - 624)) (mtWord seed (k - 623))
  else if 0 < k then nextSeed (mtWord seed (k - 1)) k
  else seed
termination_by k
decreasing_by all_goals omega

theorem mtWord_twist (seed : Uint32) (k : Nat) :
    mtWord seed (k + 624) =
      twist (mtWord seed (k + 397)) (mtWord seed k) (mtWord seed (k + 1)) := by
  rw [mtWord, if_pos (Nat.le_add_left 624 k), Nat.add_sub_cancel, Nat.add_sub_assoc (by decide),
    Nat.add_sub_assoc (by decide)]

/-- The first `j` words of the state are already those of the next round. -/
def Window (seed : Uint32) (n j : Nat) (state : List Uint32) : Prop :=
  state.length = 624 ∧
    ∀ i, i < 624 → state[i]? = some (mtWord seed (if i < j then n + 624 + i else n + i))

variable {seed : Uint32} {n j p : Nat} {state : List Uint32}

theorem initializeLoop_eq (count i : Nat) (hle : i + count ≤ 623) :
    phpMtInitializeLoop count (i + 1) (mtWord seed i) =
      (List.range' (i + 1) count).map (mtWord seed) := by
  induction count generalizing i with
  | zero => rfl
  | succ count ih =>
    have hnext : mtWord seed (i + 1) = nextSeed (mtWord seed i) (i + 1) := by
      rw [mtWord, if_neg (by omega), if_pos (Nat.succ_pos i), Nat.add_sub_cancel]
    rw [phpMtInitializeLoop, ← hnext, ih (i + 1) (by omega), List.range'_succ, List.map_cons]

theorem window_phpMtInitialize (seed : Uint32) : Window seed 0 0 (phpMtInitialize seed) := by
  have hzero : mtWord seed 0 = seed := by
    rw [mtWord, if_neg (by decide), if_neg (by decide)]
  have hloop := @initializeLoop_eq seed 623 0 (by decide)
  rw [hzero] at hloop
  have hstate : phpMtInitialize seed = (List.range' 0 624).map (mtWord seed) := by
    rw [List.range'_succ, List.map_cons, hzero]
    exact congrArg _ hloop
  rw [hstate]
  constructor
  · rw [List.length_map, List.length_range']
  · intro i hi
    rw [List.getElem?_map, List.getElem?_range' hi, if_neg (Nat.not_lt_zero i)]
    simp

-- One word of the next round is made from words that are still there, or already.
theorem Window.twistAt {m next : Nat} (h : Window seed n j state) (hj : j < 624)
    (hm : state[m]? = some (mtWord seed (n + j + 397)))
    (hnext : state[next]? = some (mtWord seed (n + j + 1))) :
    ∃ state', Standard.twistAt state j m next = some state' ∧ Window seed n (j + 1) state' := by
  have hhere := h.2 j hj
  rw [if_neg (Nat.lt_irrefl j)] at hhere
  unfold Standard.twistAt
  rw [hm, hhere, hnext]
  refine ⟨_, rfl, ?_, ?_⟩
  · rw [List.length_set]
    exact h.1
  · intro i hi
    rw [List.getElem?_set]
    by_cases hij : j = i
    · rw [if_pos hij, ← mtWord_twist, if_pos (h.1 ▸ hj), ← hij, if_pos (Nat.lt_succ_self j)]
      congr 2
      omega
    · rw [if_neg hij, h.2 i hi]
      congr 2
      split <;> split <;> omega

theorem Window.reloadLoop {m : Nat → Nat} (count : Nat) (h : Window seed n j state)
    (hle : j + count < 624)
    (hm : ∀ i, j ≤ i → i < j + count → ∀ state', Window seed n i state' →
      state'[m i]? = some (mtWord seed (n + i + 397))) :
    ∃ state', Standard.reloadLoop m count j state = some state' ∧ Window seed n (j + count) state' := by
  induction count generalizing j state with
  | zero => exact ⟨state, rfl, h⟩
  | succ count ih =>
    -- the word behind the one to be made is still an old one
    have hnext := h.2 (j + 1) (by omega)
    rw [if_neg (by omega), ← Nat.add_assoc] at hnext
    obtain ⟨state₁, hfirst, h₁⟩ := h.twistAt (by omega) (hm j (Nat.le_refl j) (by omega) state h) hnext
    obtain ⟨state', hrest, h'⟩ := ih h₁ (by omega) fun i hji hi => hm i (by omega) (by omega)
    refine ⟨state', ?_, ?_⟩
    · rw [Standard.reloadLoop, hfirst]
      exact hrest
    · rw [Nat.add_comm count 1, ← Nat.add_assoc]
      exact h'

theorem Window.phpMtReload (h : Window seed n 0 state) (left next : Nat) :
    ∃ state', Standard.phpMtReload { state, left, next } =
        some { state := state', left := 624, next := 0 } ∧ Window seed (n + 624) 0 state' := by
  obtain ⟨s₁, hfirst, h₁⟩ := h.reloadLoop (m := fun p => p + mtM) 227 (by omega) (by
    intro i _ hi s hs
    have hplace : n + (i + 397) = n + i + 397 := by omega
    rw [mtM, hs.2 (i + 397) (by omega), if_neg (by omega), hplace])
  -- from here on the word is one of the new ones
  obtain ⟨s₂, hsecond, h₂⟩ := h₁.reloadLoop (m := fun p => p + mtM - mtN) 396 (by omega) (by
    intro i hji hi s hs
    have hplace : n + 624 + (i + 397 - 624) = n + i + 397 := by omega
    rw [mtM, mtN, hs.2 (i + 397 - 624) (by omega), if_pos (by omega), hplace])
  obtain ⟨s₃, hlast, h₃⟩ := @Window.twistAt _ _ _ _ 396 0 h₂ (by omega)
    (h₂.2 396 (by omega)) (h₂.2 0 (by omega))
  refine ⟨s₃, ?_, h₃.1, ?_⟩
  · unfold Standard.phpMtReload
    rw [Nat.zero_add] at hsecond
    simp only [bind, Option.bind, pure, mtN, mtM] at hfirst hsecond hlast ⊢
    rw [hfirst]
    dsimp only
    rw [hsecond]
    dsimp only
    rw [hlast]
  · intro i hi
    rw [h₃.2 i hi, if_pos (by omega), if_neg (Nat.not_lt_zero i)]

/-- The next number comes from the word `k`. -/
def MtState.Before (g : MtState) (seed : Uint32) (k : Nat) : Prop :=
  ∃ n, Window seed n 0 g.state ∧ g.next + g.left = 624 ∧ k = n + g.next

theorem MtState.Before.phpMtRand {g : MtState} {k : Nat} (h : g.Before seed k) :
    ∃ g', Standard.phpMtRand g = some (temper (mtWord seed k), g') ∧ g'.Before seed (k + 1) := by
  obtain ⟨n, hwindow, hleft, hk⟩ := h
  have hfull : ∃ g₁ n₁, (if g.left = 0 then phpMtReload g else some g) = some g₁ ∧
      Window seed n₁ 0 g₁.state ∧ g₁.next + g₁.left = 624 ∧ k = n₁ + g₁.next ∧ 0 < g₁.left := by
    by_cases hempty : g.left = 0
    · obtain ⟨state', hreload, hwindow'⟩ := hwindow.phpMtReload g.left g.next
      rw [if_pos hempty]
      refine ⟨_, n + 624, hreload, hwindow', rfl, ?_, Nat.succ_pos 623⟩
      show k = n + 624 + 0
      omega
    · rw [if_neg hempty]
      exact ⟨g, n, rfl, hwindow, hleft, hk, Nat.pos_of_ne_zero hempty⟩
  obtain ⟨g₁, n₁, hreload, hwindow₁, hleft₁, hk₁, hpos⟩ := hfull
  have hword := hwindow₁.2 g₁.next (by omega)
  rw [if_neg (Nat.not_lt_zero _), ← hk₁] at hword
  unfold Standard.phpMtRand
  rw [hreload, Option.bind_some, hword, Option.map_some]
  refine ⟨_, rfl, n₁, hwindow₁, ?_, ?_⟩
  · show g₁.next + 1 + (g₁.left - 1) = 624
    omega
  · show k + 1 = n₁ + (g₁.next + 1)
    omega

theorem MtState.Before.phpMtRands {g : MtState} {k : Nat} (count : Nat) (h : g.Before seed k) :
    ∃ g', Standard.phpMtRands count g =
      some ((List.range' k count).map fun i => temper (mtWord seed i), g') := by
  induction count generalizing g k with
  | zero => exact ⟨g, rfl⟩
  | succ count ih =>
    obtain ⟨g₁, hfirst, h₁⟩ := h.phpMtRand
    obtain ⟨g', hrest⟩ := ih h₁
    refine ⟨g', ?_⟩
    simp only [Standard.phpMtRands, bind, Option.bind, hfirst, hrest, pure, List.range'_succ,
      List.map_cons]

/-- After any seed, any number of calls gives the tempered words of the sequence from the word 624
on; no call accesses anything but the 624 words of the state. -/
theorem mt_rand_follows_sequence (seed : Uint32) (count : Nat) :
    ∃ g g', phpMtSrand seed = some g ∧
      phpMtRands count g =
        some ((List.range' 624 count).map fun k => temper (mtWord seed k), g') ∧
      ∀ k, mtWord seed (k + 624) =
        twist (mtWord seed (k + 397)) (mtWord seed k) (mtWord seed (k + 1)) := by
  obtain ⟨state, hreload, hwindow⟩ :=
    (window_phpMtInitialize seed).phpMtReload 0 0
  have hbefore : MtState.Before { state, left := 624, next := 0 } seed 624 :=
    ⟨624, by rwa [Nat.zero_add] at hwindow, rfl, rfl⟩
  obtain ⟨g', hrands⟩ := hbefore.phpMtRands count
  exact ⟨_, g', hreload, hrands, mtWord_twist seed⟩

end Php53.Standard
