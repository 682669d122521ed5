import Php53.Standard.HtmlBranches

/-!
# HtmlInPlace — where the last pass is in order

The writer stays behind the reader as long as a reference is one that is written with digits.  An
ampersand that begins nothing takes the byte behind it along, whatever it is.
-/

open Reasoning

namespace Php53.Standard.Html

open Zend List

variable {charset : EntityCharset} {quoteStyle : BitVec 32}

/-- The text `out` is written, the text `rest` is still to be read. -/
def At (lim : Nat) (s : State) (out rest : List UInt8) : Prop :=
  ∃ gap : List UInt8, s.buf = out ++ (gap ++ (rest ++ [0])) ∧ s.q = out.length ∧
    s.p = out.length + gap.length ∧ lim = s.p + rest.length

section

variable {lim : Nat} {s : State} {out rest : List UInt8}

theorem At.drop (h : At lim s out rest) : s.buf.drop s.p = rest ++ [0] := by
  have ⟨gap, hbuf, _, hp, _⟩ := h
  rw [hbuf, hp, ← append_assoc, ← length_append, drop_left]

theorem copyBytes_at (bs : List UInt8) (h : At lim s out (bs ++ rest)) :
    ∃ s' moves, copyBytes bs.length s = some (s', moves) ∧ At lim s' (out ++ bs) rest ∧
      moves.map (·.token) = bs.map .copied ∧ (∀ m ∈ moves, m.writtenTo ≤ m.readTo) ∧
      moves.flatMap (·.token.bytes) = bs := by
  induction bs generalizing s out with
  | nil =>
    rw [List.append_nil]
    exact ⟨s, [], rfl, h, rfl, fun _ hm => absurd hm not_mem_nil, rfl⟩
  | cons b bs ih =>
    have ⟨gap, hbuf, hq, hp, hlim⟩ := h
    have hread : s.buf[s.p]? = some b := by
      have hdrop := h.drop
      rw [← Nat.add_zero s.p, ← List.getElem?_drop, hdrop]
      rfl
    have hwrite : storeAt s.buf s.q [b] =
        some (out ++ ([b] ++ (gap ++ (b :: bs ++ rest ++ [0])).drop 1)) := by
      rw [hbuf, hq]
      apply storeAt_append
      simp only [length_append, length_cons, length_nil]
      omega
    have hat : At lim ⟨out ++ ([b] ++ (gap ++ (b :: bs ++ rest ++ [0])).drop 1), s.p + 1, s.q + 1⟩
        (out ++ [b]) (bs ++ rest) := by
      refine ⟨(gap ++ [b]).drop 1, ?_, ?_, ?_, ?_⟩
      · have hsplit : gap ++ (b :: bs ++ rest ++ [0]) = (gap ++ [b]) ++ (bs ++ rest ++ [0]) := by
          simp
        dsimp only
        have hone : 1 ≤ (gap ++ [b]).length := by
          rw [length_append]
          exact Nat.le_add_left 1 gap.length
        rw [hsplit, drop_append_of_le_length hone]
        exact (append_assoc _ _ _).symm
      · rw [length_append, length_singleton, hq]
      · simp only [length_drop, length_append, length_cons, length_nil]
        omega
      · simp only [length_append, length_cons] at hlim ⊢
        omega
    have ⟨s', moves, hcopy, hat', htoken, hsafe, hbytes⟩ := ih hat
    refine ⟨s', ⟨.copied b, s.p + 1, s.q + 1⟩ :: moves, ?_, ?_, ?_, ?_, ?_⟩
    · rw [length_cons, copyBytes, hread, Option.bind_some, hwrite, Option.bind_some, hcopy]
      rfl
    · rw [append_assoc] at hat'
      exact hat'
    · rw [map_cons, map_cons, htoken]
    · intro m hm
      rcases mem_cons.mp hm with rfl | hrest
      · dsimp only
        omega
      · exact hsafe m hrest
    · rw [flatMap_cons, hbytes]
      rfl

theorem writeBytes_at {r bytes nul : List UInt8} (h : At lim s out (r ++ rest))
    (hlen : (bytes ++ nul).length ≤ r.length) :
    ∃ s' m, writeBytes r.length bytes nul s = some (s', [m]) ∧ At lim s' (out ++ bytes) rest ∧
      m.token = .decoded r bytes ∧ m.writtenTo ≤ m.readTo := by
  have ⟨gap, hbuf, hq, hp, hlim⟩ := h
  have hwrite : storeAt s.buf s.q (bytes ++ nul) = some (out ++ ((bytes ++ nul) ++
      (gap ++ (r ++ rest ++ [0])).drop (bytes ++ nul).length)) := by
    rw [hbuf, hq]
    apply storeAt_append
    simp only [length_append] at hlen ⊢
    omega
  unfold writeBytes
  rw [hwrite, h.drop, Option.map_some]
  refine ⟨_, _, rfl, ⟨nul ++ (gap ++ r).drop (bytes ++ nul).length, ?_, ?_, ?_, ?_⟩, ?_, ?_⟩
  · have hsplit : gap ++ (r ++ rest ++ [0]) = (gap ++ r) ++ (rest ++ [0]) := by simp
    dsimp only
    have hroom : (bytes ++ nul).length ≤ (gap ++ r).length := by
      rw [@length_append _ gap]
      omega
    rw [hsplit, drop_append_of_le_length hroom]
    simp only [append_assoc]
  · dsimp only
    rw [length_append, hq]
  · dsimp only
    rw [length_append] at hlen
    simp only [length_append, length_drop]
    omega
  · dsimp only
    rw [length_append] at hlim
    omega
  · dsimp only
    rw [append_assoc, take_left]
  · dsimp only
    omega

end

section

variable {s : List UInt8} {ts : List Token}

theorem tokens_decoded {length n : Nat}
    (href : referenceAt charset quoteStyle s = some (length, n)) :
    Tokens charset quoteStyle s (.decoded (s.take length) (encode charset n) :: ts) ↔
      Tokens charset quoteStyle (s.drop length) ts := by
  constructor
  · intro h
    generalize htok : Token.decoded (s.take length) (encode charset n) :: ts = tokens at h
    cases h with
    | nil => exact nomatch htok
    | decoded href' htokens =>
      rw [href] at href'
      cases href'
      cases htok
      exact htokens
    | copied href' htokens => exact nomatch htok
  · exact .decoded href

theorem tokens_copied {b : UInt8} :
    Tokens charset quoteStyle (b :: s) (.copied b :: ts) ↔
      referenceAt charset quoteStyle (b :: s) = none ∧ Tokens charset quoteStyle s ts := by
  constructor
  · intro h
    cases h with
    | copied href htokens => exact ⟨href, htokens⟩
  · intro ⟨href, htokens⟩
    exact .copied href htokens

theorem not_tokens_decoded {reference bytes : List UInt8}
    (href : referenceAt charset quoteStyle s = none) :
    ¬Tokens charset quoteStyle s (.decoded reference bytes :: ts) := by
  intro h
  cases h with
  | decoded href' htokens =>
    rw [href] at href'
    exact nomatch href'

variable (charset quoteStyle ts) in
theorem tokens_plain {u : List UInt8} (hu : ch '&' ∉ u) :
    Tokens charset quoteStyle (u ++ s) (u.map .copied ++ ts) ↔ Tokens charset quoteStyle s ts := by
  induction u with
  | nil => rfl
  | cons b u ih =>
    have hb : (b :: (u ++ s)).getD 0 0 ≠ ch '&' := by
      intro heq
      exact hu (heq ▸ mem_cons_self)
    show Tokens charset quoteStyle (b :: (u ++ s)) (.copied b :: (u.map .copied ++ ts)) ↔ _
    rw [tokens_copied, ih fun hmem => hu (mem_cons_of_mem _ hmem)]
    exact and_iff_right (referenceAt_head hb)

end

/-- No number is misread behind an even number of ampersands, which are taken in pairs, and no reference
stands behind an odd number of them. -/
def Clean (charset : EntityCharset) (quoteStyle : BitVec 32) : Nat → List UInt8 → Prop
  | _, [] => True
  | ampersands, c :: s =>
    (if ampersands % 2 = 0 then ¬Misread charset quoteStyle (c :: s)
      else referenceAt charset quoteStyle (c :: s) = none) ∧
    Clean charset quoteStyle (if c = ch '&' then ampersands + 1 else 0) s

variable (charset quoteStyle) in
theorem clean_plain {u s : List UInt8} (hu : ch '&' ∉ u) (hne : u ≠ []) (n : Nat) :
    Clean charset quoteStyle n (u ++ s) ↔ Clean charset quoteStyle 0 s := by
  induction u generalizing n with
  | nil => exact absurd rfl hne
  | cons b u ih =>
    have hb : b ≠ ch '&' := fun heq => hu (heq ▸ mem_cons_self)
    have hnot := actionAt_copy charset quoteStyle
      (s := b :: (u ++ s)) (.inl hb)
    have hfirst : if n % 2 = 0 then ¬Misread charset quoteStyle (b :: (u ++ s))
        else referenceAt charset quoteStyle (b :: (u ++ s)) = none := by
      split
      · exact hnot.2.2
      · exact hnot.2.1
    rw [cons_append, Clean, if_neg hb, and_iff_right hfirst]
    cases u with
    | nil => rfl
    | cons c u => exact ih (fun hmem => hu (mem_cons_of_mem _ hmem)) (cons_ne_nil _ _) 0

def InOrder (charset : EntityCharset) (quoteStyle : BitVec 32) (atEnd : State → List UInt8 → Prop)
    (lim fuel : Nat) (s : State) (out rest : List UInt8) : Prop :=
  ∃ s' moves, loop charset quoteStyle lim fuel s = some (s', moves) ∧
    (∀ m ∈ moves, m.writtenTo ≤ m.readTo) ∧
    Tokens charset quoteStyle rest (moves.map (·.token)) ∧
    atEnd s' (out ++ moves.flatMap (·.token.bytes))

section

variable {atEnd : State → List UInt8 → Prop} {lim fuel : Nat} {s s' : State}
  {out rest rest' : List UInt8} {action : Action}

variable (atEnd fuel rest') in
theorem inOrder_step {moves : List Move} (h : At lim s out rest) (hne : rest ≠ [])
    (hact : actionAt charset quoteStyle rest.length (rest ++ [0]) = some action)
    (hperform : action.perform s = some (s', moves))
    (hsafe : ∀ m ∈ moves, m.writtenTo ≤ m.readTo)
    (htokens : ∀ ts, Tokens charset quoteStyle rest (moves.map (·.token) ++ ts) ↔
      Tokens charset quoteStyle rest' ts) :
    InOrder charset quoteStyle atEnd lim (fuel + 1) s out rest ↔
      InOrder charset quoteStyle atEnd lim fuel s' (out ++ moves.flatMap (·.token.bytes)) rest' := by
  have hleft : lim - s.p = rest.length := by
    obtain ⟨_, _, _, _, hlim⟩ := h
    omega
  have hlt : s.p < lim := by
    have hpos := length_pos_iff.mpr hne
    omega
  have hloop : loop charset quoteStyle lim (fuel + 1) s =
      (loop charset quoteStyle lim fuel s').map fun x => (x.1, moves ++ x.2) := by
    rw [loop, if_pos hlt, hleft, h.drop, hact, Option.bind_some, hperform, Option.bind_some]
  unfold InOrder
  rw [hloop]
  constructor
  · rintro ⟨t, all, hall, hsafe', htok, hat⟩
    obtain ⟨x, hx, heq⟩ := Option.map_eq_some_iff.mp hall
    obtain ⟨t', moves'⟩ := x
    cases heq
    rw [map_append, htokens] at htok
    rw [flatMap_append, ← append_assoc] at hat
    exact ⟨_, moves', hx, fun m hm => hsafe' m (mem_append_right _ hm), htok, hat⟩
  · rintro ⟨t, moves', hmoves', hsafe', htok, hat⟩
    refine ⟨t, moves ++ moves', ?_, ?_, ?_, ?_⟩
    · rw [hmoves']
      rfl
    · intro m hm
      exact (mem_append.mp hm).elim (hsafe m) (hsafe' m)
    · rw [map_append, htokens]
      exact htok
    · rw [flatMap_append, ← append_assoc]
      exact hat

theorem not_inOrder (h : At lim s out rest) (hne : rest ≠ [])
    (hact : actionAt charset quoteStyle rest.length (rest ++ [0]) = some action)
    (hwrong : ∀ s' moves ts, action.perform s = some (s', moves) →
      ¬Tokens charset quoteStyle rest (moves.map (·.token) ++ ts)) :
    ¬InOrder charset quoteStyle atEnd lim (fuel + 1) s out rest := by
  have hleft : lim - s.p = rest.length := by
    have ⟨_, _, _, _, hlim⟩ := h
    omega
  have hlt : s.p < lim := by
    have hpos := length_pos_iff.mpr hne
    omega
  intro ⟨t, all, hall, _, htok, _⟩
  rw [loop, if_pos hlt, hleft, h.drop, hact, Option.bind_some] at hall
  have ⟨⟨s', moves⟩, hperform, hrest⟩ := Option.bind_eq_some_iff.mp hall
  have ⟨⟨t', moves'⟩, _, heq⟩ := Option.map_eq_some_iff.mp hrest
  cases heq
  rw [map_append] at htok
  exact hwrong s' moves _ hperform htok

theorem clean_whole {length n : Nat} (hwhole : Whole rest length) (hn : n % 2 = 0)
    (hnot : ¬Misread charset quoteStyle rest) :
    Clean charset quoteStyle n rest ↔ Clean charset quoteStyle 0 (rest.drop length) := by
  have ⟨htwo, hle, hamp⟩ := hwhole
  cases rest with
  | nil => exact absurd (Nat.lt_of_lt_of_le htwo hle) (by decide)
  | cons c u =>
    have ⟨k, hk⟩ : ∃ k, length = k + 1 := ⟨length - 1, by omega⟩
    rw [hk, take_succ_cons, tail_cons] at hamp
    rw [hk, drop_succ_cons, Clean, if_pos hn, and_iff_right hnot]
    have hne : u.take k ≠ [] := by
      intro hnil
      have hlength := congrArg List.length hnil
      rw [length_take, length_nil] at hlength
      rw [length_cons] at hle
      omega
    have hplain := clean_plain charset quoteStyle (s := u.drop k) hamp hne
      (if c = ch '&' then n + 1 else 0)
    rw [take_append_drop] at hplain
    exact hplain

theorem tokens_whole {length : Nat} {ts : List Token} (hwhole : Whole rest length)
    (href : referenceAt charset quoteStyle rest = none) :
    Tokens charset quoteStyle rest ((rest.take length).map .copied ++ ts) ↔
      Tokens charset quoteStyle (rest.drop length) ts := by
  have ⟨htwo, hle, hamp⟩ := hwhole
  cases rest with
  | nil => exact absurd (Nat.lt_of_lt_of_le htwo hle) (by decide)
  | cons c u =>
    have ⟨k, hk⟩ : ∃ k, length = k + 1 := ⟨length - 1, by omega⟩
    rw [hk, take_succ_cons, tail_cons] at hamp
    rw [hk, take_succ_cons, drop_succ_cons]
    have hplain := tokens_plain charset quoteStyle ts (s := u.drop k) hamp
    rw [take_append_drop] at hplain
    exact (tokens_copied.trans (and_iff_right href)).trans hplain

variable (atEnd fuel) in
theorem inOrder_pair {c d : UInt8} {v : List UInt8} (n : Nat) (h : At lim s out (c :: d :: v))
    (hact : actionAt charset quoteStyle (c :: d :: v).length (c :: d :: v ++ [0]) = some (.copy 2))
    (hc : c = ch '&') (hn : n % 2 = 0)
    (href : referenceAt charset quoteStyle (c :: d :: v) = none)
    (hnot : ¬Misread charset quoteStyle (c :: d :: v))
    (hrest : ∀ s', At lim s' (out ++ [c, d]) v →
      (InOrder charset quoteStyle atEnd lim fuel s' (out ++ [c, d]) v ↔
        Clean charset quoteStyle (if d = ch '&' then n + 1 + 1 else 0) v)) :
    InOrder charset quoteStyle atEnd lim (fuel + 1) s out (c :: d :: v) ↔
      Clean charset quoteStyle n (c :: d :: v) := by
  have ⟨s', moves, hperform, hat, htoken, hsafe, hbytes⟩ := copyBytes_at [c, d] h
  have htokens : ∀ ts, Tokens charset quoteStyle (c :: d :: v) (moves.map (·.token) ++ ts) ↔
      referenceAt charset quoteStyle (d :: v) = none ∧ Tokens charset quoteStyle v ts := by
    intro ts
    rw [htoken]
    exact (tokens_copied.trans (and_iff_right href)).trans tokens_copied
  rw [Clean, if_pos hn, and_iff_right hnot, if_pos hc, Clean, if_neg (by omega)]
  by_cases hd : referenceAt charset quoteStyle (d :: v) = none
  · have hstep := inOrder_step atEnd fuel v h (cons_ne_nil _ _) hact hperform hsafe
      fun ts => (htokens ts).trans (and_iff_right hd)
    rw [hstep, hbytes, and_iff_right hd]
    exact hrest s' hat
  · apply iff_of_false
    · apply not_inOrder h (cons_ne_nil _ _) hact
      intro t moves' ts hperform'
      have heq : some (s', moves) = some (t, moves') := hperform.symm.trans hperform'
      cases heq
      exact fun htok => hd ((htokens ts).mp htok).1
    · exact fun hclean => hd hclean.1

variable (atEnd) in
theorem inOrder_iff {n : Nat} (h : At lim s out rest) (hfuel : rest.length < fuel)
    (hn : n % 2 = 0 ∨ rest.length ≤ 1) (hend : ∀ s out, At lim s out [] → atEnd s out) :
    InOrder charset quoteStyle atEnd lim fuel s out rest ↔ Clean charset quoteStyle n rest := by
  induction fuel generalizing s out rest n with
  | zero => exact absurd hfuel (Nat.not_lt_zero _)
  | succ fuel ih =>
    cases rest with
    | nil =>
      have hstop : ¬s.p < lim := by
        have ⟨_, _, _, _, hlim⟩ := h
        rw [length_nil] at hlim
        omega
      apply iff_of_true _ trivial
      refine ⟨s, [], ?_, fun m hm => absurd hm not_mem_nil, .nil, ?_⟩
      · rw [loop, if_neg hstop]
      · rw [flatMap_nil, List.append_nil]
        exact hend s out h
    | cons c u =>
      by_cases hcopy : c ≠ ch '&' ∨ (c :: u).length ≤ 2
      · have ⟨hact, href, hnot⟩ := actionAt_copy charset quoteStyle
          (s := c :: u) hcopy
        have ⟨s', moves, hperform, hat, htoken, hsafe, hbytes⟩ := copyBytes_at [c] h
        have hstep := inOrder_step atEnd fuel u h (cons_ne_nil c u) hact hperform hsafe
          fun ts => by
            rw [htoken]
            exact tokens_copied.trans (and_iff_right href)
        have hfirst : if n % 2 = 0 then ¬Misread charset quoteStyle (c :: u)
            else referenceAt charset quoteStyle (c :: u) = none := by
          split
          · exact hnot
          · exact href
        rw [hstep, hbytes, Clean, and_iff_right hfirst]
        apply ih hat (Nat.lt_of_succ_lt_succ hfuel)
        split
        · next hc =>
          have hshort := hcopy.resolve_left (not_not_intro hc)
          rw [length_cons] at hshort
          omega
        · exact .inl rfl
      · have ⟨hc, hlen⟩ := not_or.mp hcopy
        have hhead : (c :: u).getD 0 0 = ch '&' := not_not.mp hc
        have heven : n % 2 = 0 := hn.resolve_right (by omega)
        rcases actionAt_cases charset quoteStyle hhead
          (Nat.lt_of_not_le hlen) with ⟨length, m, nul, hact, href, hroom, hnot⟩ |
            ⟨length, hact, href, hlength, hnot⟩ | ⟨length, bytes, nul, hact, href, hmisread⟩
        · have hwhole := (referenceAt_whole href).1
          rw [clean_whole hwhole heven hnot]
          have htake : ((c :: u).take length).length = length := by
            rw [length_take]
            exact Nat.min_eq_left hwhole.2.1
          rw [← take_append_drop length (c :: u)] at h
          have ⟨s', m', hperform, hat, htoken, hsafe⟩ := writeBytes_at h (htake.symm ▸ hroom)
          rw [htake] at hperform
          rw [take_append_drop] at h
          have hstep := inOrder_step atEnd fuel ((c :: u).drop length) h (cons_ne_nil c u) hact
            hperform (fun x hx => mem_singleton.mp hx ▸ hsafe) fun ts => by
              rw [map_singleton, htoken]
              exact tokens_decoded href
          rw [hstep, flatMap_singleton, htoken]
          apply ih hat _ (.inl rfl)
          rw [length_drop]
          have htwo := hwhole.1
          omega
        · rcases hlength with hwhole | htwo
          · rw [clean_whole hwhole heven hnot]
            have htake : ((c :: u).take length).length = length := by
              rw [length_take]
              exact Nat.min_eq_left hwhole.2.1
            rw [← take_append_drop length (c :: u)] at h
            have ⟨s', moves, hperform, hat, htoken, hsafe, hbytes⟩ := copyBytes_at _ h
            rw [htake] at hperform
            rw [take_append_drop] at h
            have hstep := inOrder_step atEnd fuel ((c :: u).drop length) h (cons_ne_nil c u) hact
              hperform hsafe fun ts => by
                rw [htoken]
                exact tokens_whole hwhole href
            rw [hstep, hbytes]
            apply ih hat _ (.inl rfl)
            rw [length_drop]
            have htwo := hwhole.1
            omega
          · rw [htwo] at hact
            cases u with
            | nil => exact absurd (Nat.le_succ 1) hlen
            | cons d v =>
              have hpair := inOrder_pair atEnd fuel n h hact (not_not.mp hc) heven href hnot
              apply hpair
              intro s' hat
              apply ih hat
              · simp only [length_cons] at hfuel
                omega
              · split
                · left
                  omega
                · exact .inl rfl
        · apply iff_of_false
          · apply not_inOrder h (cons_ne_nil c u) hact
            intro s' moves ts hperform
            have ⟨buf, _, heq⟩ := Option.map_eq_some_iff.mp hperform
            cases heq
            exact not_tokens_decoded href
          · rw [Clean, if_pos heven]
            exact fun hclean => hclean.1 hmisread

end

/-- Every reference is decoded and every other byte copied, the writer stays behind the reader, and the
result is what was written for the tokens. -/
def Decodes (charset : EntityCharset) (quoteStyle : BitVec 32) (ret : List UInt8) : Prop :=
  ∃ result moves, unescapeNumeric charset quoteStyle ret = some (result, moves) ∧
    (∀ m ∈ moves, m.writtenTo ≤ m.readTo) ∧ result.length ≤ ret.length ∧
    Tokens charset quoteStyle ret (moves.map (·.token)) ∧
    result = moves.flatMap (·.token.bytes)

theorem at_start (ret : List UInt8) : At ret.length ⟨ret ++ [0], 0, 0⟩ [] ret :=
  ⟨[], rfl, rfl, rfl, (Nat.zero_add _).symm⟩

theorem clean_of_decodes {charset : EntityCharset} {quoteStyle : BitVec 32} {ret : List UInt8}
    (h : Decodes charset quoteStyle ret) : Clean charset quoteStyle 0 ret := by
  have ⟨result, moves, hresult, hsafe, _, htokens, _⟩ := h
  have ⟨⟨s, moves'⟩, hloop, hmap⟩ := Option.bind_eq_some_iff.mp hresult
  have ⟨buf, _, heq⟩ := Option.map_eq_some_iff.mp hmap
  cases heq
  apply (inOrder_iff (fun _ _ => True) (at_start ret) (Nat.lt_succ_self _) (.inl rfl)
    fun _ _ _ => trivial).mp
  exact ⟨s, moves, hloop, hsafe, htokens, trivial⟩

theorem decodes_iff (charset : EntityCharset) (quoteStyle : BitVec 32) (ret : List UInt8) :
    Decodes charset quoteStyle ret ↔ Clean charset quoteStyle 0 ret := by
  constructor
  · exact clean_of_decodes
  · intro hclean
    have ⟨s, moves, hloop, hsafe, htokens, gap, hbuf, hq, hp, hlim⟩ :=
      (inOrder_iff (fun s out => At ret.length s out []) (at_start ret) (Nat.lt_succ_self _) (.inl rfl)
        fun _ _ h => h).mpr hclean
    rw [nil_append] at hbuf hq hp
    have hstore : storeAt s.buf s.q [0] =
        some (moves.flatMap (·.token.bytes) ++ ([0] ++ (gap ++ [0]).drop 1)) := by
      rw [hbuf, hq]
      apply storeAt_append
      rw [length_append]
      exact Nat.le_add_left 1 gap.length
    refine ⟨moves.flatMap (·.token.bytes), moves, ?_, hsafe, ?_, htokens, rfl⟩
    · unfold unescapeNumeric
      rw [hloop, Option.bind_some]
      dsimp only
      rw [hstore, Option.map_some, hq, List.take_left]
    · rw [List.length_nil] at hlim
      omega

/-- The second ampersand is not looked at. -/
theorem decodes_fails_behind_ampersand :
    ¬Decodes .cs8859_1 2 [ch '&', ch '&', ch 'a', ch 'm', ch 'p', ch ';'] := by
  intro h
  have href : referenceAt .cs8859_1 2 [ch '&', ch 'a', ch 'm', ch 'p', ch ';'] = none :=
    (clean_of_decodes h).2.1
  exact absurd href (by decide)

end Php53.Standard.Html
