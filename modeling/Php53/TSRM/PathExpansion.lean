import Php53.Reasoning.Components
import Php53.TSRM.RealpathCache

/-!
# PathExpansion — `virtual_file_ex` with `CWD_EXPAND`

`canonicalPath` takes the components of a path from the left to the right and keeps them on a stack;
`tsrm_realpath_r` takes them from the right to the left, in a buffer that it writes over.
-/

namespace Php53.TSRM

open Zend (ch)
open Reasoning List

def componentEffect (c : List UInt8) : Effect :=
  if c = [] ∨ c = [ch '.'] then .skip
  else if c = [ch '.', ch '.'] then .undo
  else .keep

def remaining (path : List UInt8) : List (List UInt8) :=
  kept componentEffect (path.splitOn (ch '/'))

def absolute (cs : List (List UInt8)) : List UInt8 :=
  if cs = [] then [ch '/'] else behind (ch '/') cs

def canonicalPath (path : List UInt8) : List UInt8 :=
  if path.getLastD 0 = ch '/' ∧ remaining path ≠ [] then absolute (remaining path) ++ [ch '/']
  else absolute (remaining path)

/-- A name: a component that is kept. -/
structure IsName (c : List UInt8) : Prop where
  noSlash : ch '/' ∉ c
  keep : componentEffect c = .keep

theorem IsName.ne_nil {c : List UInt8} (h : IsName c) : c ≠ [] := by
  intro hnil
  have hskip : componentEffect [] = .skip := by decide
  rw [← hnil, h.keep] at hskip
  exact nomatch hskip

theorem isName_of_mem_remaining {path c : List UInt8} (h : c ∈ remaining path) : IsName c := by
  have hkept := keep_of_mem_kept h
  exact ⟨not_mem_of_mem_splitOn hkept.1, hkept.2⟩

theorem remaining_nil : remaining [] = [] := by decide

theorem remaining_slash : remaining [ch '/'] = [] := by decide

theorem remaining_append (front : List UInt8) {name : List UInt8} (h : ch '/' ∉ name) :
    remaining (front ++ ch '/' :: name) = visit componentEffect (remaining front) name := by
  unfold remaining
  rw [splitOn_append_last front h, kept_concat]

theorem remaining_append_slash (front : List UInt8) :
    remaining (front ++ [ch '/']) = remaining front := by
  rw [remaining_append front not_mem_nil]
  exact visit_skip (by decide)

variable {cs : List (List UInt8)}

theorem remaining_absolute (h : ∀ c ∈ cs, IsName c) :
    remaining (absolute cs) = cs := by
  unfold absolute
  split
  · rename_i hnil
    rw [hnil, remaining_slash]
  · unfold remaining
    rw [splitOn_behind fun c hc => (h c hc).noSlash, kept_cons_skip (by decide)]
    exact kept_of_keep fun c hc => (h c hc).keep

theorem absolute_concat (cs : List (List UInt8)) (c : List UInt8) :
    absolute (cs ++ [c]) = behind (ch '/') cs ++ ch '/' :: c := by
  rw [absolute, if_neg (by simp), behind_concat]

theorem one_lt_absolute (h : ∀ c ∈ cs, IsName c) (hne : cs ≠ []) :
    1 < (absolute cs).length := by
  cases cs with
  | nil => exact absurd rfl hne
  | cons c cs =>
    have hpos := length_pos_of_ne_nil (h c mem_cons_self).ne_nil
    rw [absolute, if_neg hne, behind_cons, length_append, length_cons]
    omega

theorem getLastD_absolute (h : ∀ c ∈ cs, IsName c) :
    (absolute cs).getLastD 0 = ch '/' ↔ cs = [] := by
  cases eq_nil_or_concat' cs with
  | inl hnil =>
    rw [hnil]
    decide
  | inr hcs =>
    have ⟨cs', c, he⟩ := hcs
    have hname : IsName c := h c (by rw [he]; simp)
    have hlast : (absolute cs).getLastD 0 = c.getLast hname.ne_nil := by
      rw [he, absolute_concat, getLastD_eq_getLast?,
        List.getLast?_append_of_ne_nil _ (by simp), List.getLast?_cons,
        List.getLast?_eq_some_getLast hname.ne_nil]
      rfl
    rw [hlast]
    constructor
    · intro hslash
      exact absurd (getLast_mem hname.ne_nil) (by rw [hslash]; exact hname.noSlash)
    · intro hnil
      rw [hnil] at he
      exact absurd he (by simp)

theorem length_absolute_le {path : List UInt8} (h : path.take 1 = [ch '/']) :
    (absolute (remaining path)).length ≤ path.length := by
  cases path with
  | nil => exact nomatch h
  | cons c path =>
    have hc : c = ch '/' := head_eq_of_cons_eq h
    have hremain : remaining (ch '/' :: path) = kept componentEffect (path.splitOn (ch '/')) := by
      unfold remaining
      rw [splitOn_cons_eq_if_modifyHead, if_pos (beq_self_eq_true _),
        kept_cons_skip (by decide)]
    have hle := @length_behind_kept_le _ (ch '/') componentEffect (path.splitOn (ch '/'))
    rw [behind_splitOn] at hle
    rw [hc, hremain]
    unfold absolute
    split
    · show 1 ≤ path.length + 1
      omega
    · exact hle

theorem head_absolute (cs : List (List UInt8)) : (absolute cs).headD 0 = ch '/' := by
  cases cs <;> rfl

theorem head_canonicalPath (path : List UInt8) : (canonicalPath path).headD 0 = ch '/' := by
  have hhead := head_absolute (remaining path)
  unfold canonicalPath
  split
  · cases habs : absolute (remaining path) with
    | nil => rfl
    | cons c cs => rwa [habs] at hhead
  · exact hhead

theorem canonicalPath_canonicalPath (path : List UInt8) :
    canonicalPath (canonicalPath path) = canonicalPath path := by
  have hnames : ∀ c ∈ remaining path, IsName c := fun c hc => isName_of_mem_remaining hc
  have habs : remaining (absolute (remaining path)) = remaining path := remaining_absolute hnames
  rw [canonicalPath.eq_1 path]
  split
  · rename_i hslash
    rw [canonicalPath, remaining_append_slash, habs, if_pos ⟨getLastD_concat .., hslash.2⟩]
  · rw [canonicalPath, habs, if_neg]
    intro hboth
    exact hboth.2 ((getLastD_absolute hnames).mp hboth.1)

theorem length_canonicalPath_le {path : List UInt8} (h : path.take 1 = [ch '/']) :
    (canonicalPath path).length ≤ path.length := by
  unfold canonicalPath
  split
  · rename_i hslash
    -- the slash at the end of the path is the one that is kept
    cases eq_nil_or_concat' path with
    | inl hnil => exact absurd remaining_nil (hnil ▸ hslash.2)
    | inr hpath =>
      have ⟨front, c, he⟩ := hpath
      have hc : c = ch '/' := by
        rw [← hslash.1, he, getLastD_concat]
      rw [he, hc, remaining_append_slash] at hslash
      rw [he, hc, remaining_append_slash, length_append, length_append]
      have hfront : front ≠ [] := fun hnil => hslash.2 (by rw [hnil, remaining_nil])
      have htake : front.take 1 = [ch '/'] := by
        rw [he, take_append_of_le_length (length_pos_of_ne_nil hfront)] at h
        exact h
      have hle := length_absolute_le htake
      omega
  · exact length_absolute_le h

variable {buf : List UInt8} {start len : Nat}

theorem nameStart_spec (h : start ≤ len) :
    (∀ x, nameStart buf start len ≤ x → x < len → buf.getD x 0 ≠ ch '/') ∧
      (start < nameStart buf start len → buf.getD (nameStart buf start len - 1) 0 = ch '/') := by
  induction len with
  | zero =>
    rw [nameStart]
    exact ⟨fun x _ hx => absurd hx (Nat.not_lt_zero x), fun hs => absurd hs (Nat.not_lt_zero start)⟩
  | succ i ih =>
    rw [nameStart]
    split
    · rename_i hi
      have hspec := ih (Nat.le_of_lt_succ hi.1)
      refine ⟨fun x hx hlt => ?_, hspec.2⟩
      by_cases hxi : x = i
      · rw [hxi]
        exact hi.2
      · exact hspec.1 x hx (by omega)
    · rename_i hi
      refine ⟨fun x hx hlt => by omega, fun hs => ?_⟩
      rw [Nat.add_sub_cancel]
      exact Decidable.not_not.mp fun hslash => hi ⟨hs, hslash⟩

theorem cut_lastName {text : List UInt8} (hslash : text.take 1 = [ch '/']) :
    text = text.take (nameStart text 1 text.length - 1) ++
        ch '/' :: text.drop (nameStart text 1 text.length) ∧
      ch '/' ∉ text.drop (nameStart text 1 text.length) := by
  have hpos : 1 ≤ text.length := by
    have hlen := congrArg List.length hslash
    rw [length_take, length_singleton] at hlen
    omega
  have hspec := @nameStart_spec text 1 _ hpos
  have hle := nameStart_le text 1 text.length
  have hge := @le_nameStart _ 1 text hpos
  generalize nameStart text 1 text.length = i at *
  have hget : text.getD (i - 1) 0 = ch '/' := by
    by_cases hi : 1 < i
    · exact hspec.2 hi
    · have hone : i - 1 = 0 := by omega
      rw [hone, ← getD_take Nat.zero_lt_one, hslash]
      rfl
  constructor
  · have hlt : i - 1 < text.length := by omega
    rw [getD_eq_getElem _ _ hlt] at hget
    have hdrop := drop_eq_getElem_cons hlt
    rw [hget, show i - 1 + 1 = i by omega] at hdrop
    rw [← hdrop, take_append_drop]
  · intro hmem
    have ⟨x, hx, he⟩ := getElem_of_mem hmem
    rw [length_drop] at hx
    apply hspec.1 (i + x) (by omega) (by omega)
    rw [← he, getElem_drop, getD_eq_getElem _ _ (by omega)]

theorem remaining_lastPart {text : List UInt8} (hslash : text.take 1 = [ch '/']) :
    match lastPart text with
    | .here front => remaining text = remaining front
    | .up front => remaining text = (remaining front).dropLast
    | .name front name => remaining text = remaining front ++ [name] ∧ IsName name := by
  have hcut := cut_lastName hslash
  have hremain := remaining_append (text.take (nameStart text 1 text.length - 1)) hcut.2
  rw [← hcut.1] at hremain
  unfold lastPart
  dsimp only
  generalize text.drop (nameStart text 1 text.length) = name at *
  by_cases hhere : name = [] ∨ name = [ch '.']
  · rw [if_pos hhere]
    have hskip : componentEffect name = .skip := if_pos hhere
    rw [visit_skip hskip] at hremain
    exact hremain
  · rw [if_neg hhere]
    by_cases hup : name = [ch '.', ch '.']
    · rw [if_pos hup]
      have hundo : componentEffect name = .undo := (if_neg hhere).trans (if_pos hup)
      rw [visit_undo hundo] at hremain
      exact hremain
    · rw [if_neg hup]
      have hkeep : componentEffect name = .keep := (if_neg hhere).trans (if_neg hup)
      rw [visit_keep hkeep] at hremain
      exact ⟨hremain, hcut.2, hkeep⟩

theorem dirEnd_slash {m n : Nat} (hn : 2 ≤ n) (hmn : m < n) (hslash : buf.getD m 0 = ch '/')
    (hname : ∀ x, m < x → x < n → buf.getD x 0 ≠ ch '/') : dirEnd buf 1 n = max 1 m := by
  induction n with
  | zero => omega
  | succ j ih =>
    rw [dirEnd]
    by_cases hj : m = j
    · rw [if_neg fun hb => hb.2 (hj ▸ hslash)]
      omega
    · by_cases hone : 1 < j
      · rw [if_pos ⟨hone, hname j (by omega) (by omega)⟩]
        exact ih hone (by omega) fun x hx hlt => hname x hx (by omega)
      · rw [if_neg fun hb => hone hb.1]
        omega

theorem parent_absolute (h : ∀ c ∈ cs, IsName c) :
    parent (absolute cs) = absolute cs.dropLast := by
  cases eq_nil_or_concat' cs with
  | inl hnil =>
    rw [hnil]
    decide
  | inr hcs =>
    have ⟨cs', c, he⟩ := hcs
    have hname : IsName c := h c (by rw [he]; simp)
    have hlong := one_lt_absolute h (by rw [he]; simp)
    have hpos := length_pos_of_ne_nil hname.ne_nil
    rw [he, dropLast_concat]
    rw [he, absolute_concat] at hlong
    rw [parent, absolute_concat, if_pos hlong]
    rw [dirEnd_slash (m := (behind (ch '/') cs').length) hlong]
    · unfold absolute
      split
      · rename_i hnil
        rw [hnil]
        rfl
      · rename_i hne
        have hnames : ∀ c' ∈ cs', IsName c' := fun c' hc =>
          h c' (by rw [he]; exact mem_append_left _ hc)
        have hlong' := one_lt_absolute hnames hne
        rw [absolute, if_neg hne] at hlong'
        rw [Nat.max_eq_right (by omega), take_left]
    · rw [length_append, length_cons]
      omega
    · rw [getD_append_right _ _ _ _ (Nat.le_refl _), Nat.sub_self]
      rfl
    · intro x hx hlt hslash
      rw [length_append, length_cons] at hlt
      rw [getD_append_right _ _ _ _ (by omega)] at hslash
      have hsub : x - (behind (ch '/') cs').length =
          (x - (behind (ch '/') cs').length - 1) + 1 := by omega
      rw [hsub, getD_cons_succ, getD_eq_getElem _ _ (by omega)] at hslash
      exact hname.noSlash (hslash ▸ getElem_mem _)

variable {k : Kernel} {e : Settings} {isDir : Bool} {v : Vars} {r : Resolved} {text : List UInt8}
  {front : List UInt8}

theorem tsrmRealpathR_expand (k : Kernel) (e : Settings) (isDir : Bool) (len : Nat) (v : Vars) :
    tsrmRealpathR k e .expand isDir 1 len v =
      if len ≤ 1 then ⟨.length 1, true, v⟩
      else
        let i := nameStart v.path 1 len
        if i = len ∨ i + 1 = len ∧ v.path.getD i 0 = ch '.' then
          tsrmRealpathR k e .expand true 1 (i - 1) v
        else if i + 2 = len ∧ v.path.getD i 0 = ch '.' ∧ v.path.getD (i + 1) 0 = ch '.' then
          if i - 1 ≤ 1 then ⟨.length 1, true, v⟩
          else dropDirectory 1 (tsrmRealpathR k e .expand true 1 (i - 1) v)
        else
          let w := { v with path := memcpy v.path len [0] }
          Resolved.appendName 1 ((v.path.take len).drop i) false
            (if i - 1 ≤ 1 then ⟨.length 1, true, w⟩
              else tsrmRealpathR k e .expand true 1 (i - 1) w) := by
  rw [tsrmRealpathR]
  -- neither the cache nor the kernel is asked
  have hlookup (w : Vars) : w.lookup e 1 len .expand = (none, w) := if_neg fun hb => hb.2.1 rfl
  have hstat (path : List UInt8) : k.stat .expand path = none := if_pos rfl
  simp only [hlookup, hstat]
  rw [if_neg (by decide : ¬ Mode.expand = Mode.realpath)]
  congr 4
  exact (apply_ite _ _ _ _).symm

/-- A call for `text` that begins with `v` and ends with `r`: the path that remains is in the
buffer, and nothing but the buffer has changed. -/
structure Expands (text : List UInt8) (v : Vars) (r : Resolved) : Prop where
  shows : ∃ isDir, Shows r (some (absolute (remaining text), isDir))
  same : { r.vars with path := v.path } = v

theorem Expands.root (hslash : v.path.take 1 = [ch '/']) {n : Nat} (hn : n ≤ 1) :
    Expands (v.path.take n) v ⟨.length 1, true, v⟩ where
  shows := by
    have hremain : remaining (v.path.take n) = [] := by
      cases n with
      | zero => exact remaining_nil
      | succ n =>
        rw [show n + 1 = 1 by omega, hslash]
        exact remaining_slash
    have hlen := congrArg List.length hslash
    rw [length_take, length_singleton] at hlen
    rw [hremain]
    exact ⟨true, .length rfl (show 1 ≤ v.path.length by omega) hslash rfl⟩
  same := rfl

theorem dropDirectory_vars (r : Resolved) : (dropDirectory 1 r).vars = r.vars := by
  unfold dropDirectory
  split
  · split
    · dsimp only
      rw [if_neg (by decide : ¬ 1 = 0)]
    · rw [if_neg (by omega)]
  · rfl

theorem appendName_vars (r : Resolved) (name : List UInt8) (isDir : Bool) :
    ∃ path, (r.appendName 1 name isDir).vars = { r.vars with path } := by
  unfold Resolved.appendName
  split
  · dsimp only
    split
    · split <;> exact ⟨_, rfl⟩
    · split <;> exact ⟨_, rfl⟩
  · exact ⟨_, rfl⟩

theorem Expands.here (hslash : text.take 1 = [ch '/']) (hpart : lastPart text = .here front)
    (h : Expands front v r) : Expands text v r := by
  have hremain := remaining_lastPart hslash
  rw [hpart] at hremain
  refine ⟨?_, h.same⟩
  rw [show remaining text = remaining front from hremain]
  exact h.shows

theorem Expands.up (hslash : text.take 1 = [ch '/']) (hpart : lastPart text = .up front)
    (h : Expands front v r) :
    Expands text v (dropDirectory 1 r) := by
  have hremain := remaining_lastPart hslash
  rw [hpart] at hremain
  have ⟨isDir, hshows⟩ := h.shows
  refine ⟨⟨true, ?_⟩, ?_⟩
  · have hdrop := hshows.dropDirectory
    rw [Option.map_some, parent_absolute fun c hc => isName_of_mem_remaining hc] at hdrop
    rw [show remaining text = (remaining front).dropLast from hremain]
    exact hdrop
  · rw [dropDirectory_vars]
    exact h.same

theorem absolute_append (h : ∀ c ∈ cs, IsName c) (name : List UInt8) :
    (if 1 < (absolute cs).length then absolute cs ++ [ch '/'] else absolute cs) ++ name =
      absolute (cs ++ [name]) := by
  by_cases hnil : cs = []
  · rw [hnil, absolute_concat, absolute, if_pos rfl, if_neg (by decide)]
    rfl
  · rw [if_pos (one_lt_absolute h hnil), absolute_concat, absolute, if_neg hnil, append_assoc]
    rfl

theorem Expands.name {name : List UInt8} {w : Vars} (hslash : text.take 1 = [ch '/'])
    (hlen : text.length < maxPathLen - 1) (hpart : lastPart text = .name front name)
    (hw : { w with path := v.path } = v) (h : Expands front w r) :
    Expands text v (r.appendName 1 name false) := by
  have hremain := remaining_lastPart hslash
  rw [hpart] at hremain
  have hnames : ∀ c ∈ remaining front, IsName c := fun c hc => isName_of_mem_remaining hc
  obtain ⟨isDir, hshows⟩ := h.shows
  refine ⟨⟨false, ?_⟩, ?_⟩
  · have hroom := length_absolute_le hslash
    rw [hremain.1, ← absolute_append hnames name, length_append] at hroom
    have happend := hshows.appendName name false
    rw [append, Option.bind_some] at happend
    dsimp only at happend
    rw [if_neg (by omega), absolute_append hnames name, ← hremain.1] at happend
    exact happend
  · obtain ⟨path, hpath⟩ := appendName_vars r name false
    rw [hpath, ← hw, ← h.same]

theorem tsrmRealpathR_expands (k : Kernel) (e : Settings) (isDir : Bool) (len : Nat) (v : Vars)
    (hslash : v.path.take 1 = [ch '/']) (hbuf : len ≤ v.path.length) (hlen : len < maxPathLen - 1) :
    Expands (v.path.take len) v (tsrmRealpathR k e .expand isDir 1 len v) := by
  induction len using Nat.strongRecOn generalizing isDir v with
  | ind len ih =>
    rw [tsrmRealpathR_expand]
    split
    · rename_i hshort
      exact .root hslash hshort
    rename_i hlong
    have hi := nameStart_le v.path 1 len
    have htext : (v.path.take len).take 1 = [ch '/'] := by
      rw [take_take, Nat.min_eq_left (by omega), hslash]
    dsimp only
    split
    · rename_i hhere
      exact .here htext (lastPart_here hbuf hhere)
        (ih _ (by omega) true v hslash (by omega) (by omega))
    rename_i hhere
    split
    · rename_i hup
      split
      · rename_i htop
        have hdrop : dropDirectory 1 ⟨.length 1, true, v⟩ = ⟨.length 1, true, v⟩ := rfl
        rw [← hdrop]
        exact .up htext (lastPart_up hbuf hup) (.root hslash htop)
      · exact .up htext (lastPart_up hbuf hup) (ih _ (by omega) true v hslash (by omega) (by omega))
    · rename_i hup
      -- the NUL behind the name does not touch what is in front of it
      have htake {n : Nat} (hn : n ≤ len) : (memcpy v.path len [0]).take n = v.path.take n :=
        memcpy_take_of_le v.path [0] hbuf hn
      have hlength := memcpy_length_le v.path [0] hbuf
      have hslash' : (memcpy v.path len [0]).take 1 = [ch '/'] := (htake (by omega)).trans hslash
      generalize hw : { v with path := memcpy v.path len [0] } = w
      have hpath : w.path = memcpy v.path len [0] := by rw [← hw]
      rw [← hpath] at htake hslash' hlength
      have hsame : { w with path := v.path } = v := by rw [← hw]
      refine .name htext ?_ (lastPart_name hbuf hhere hup) hsame ?_
      · rw [length_take_of_le hbuf]
        exact hlen
      · rw [← htake (by omega : nameStart v.path 1 len - 1 ≤ len)]
        split
        · rename_i htop
          exact .root hslash' htop
        · exact ih _ (by omega) true w hslash' (by omega) (by omega)

variable {cwd path : List UInt8}

theorem take_one_of_headD (h : path.headD 0 = ch '/') : path.take 1 = [ch '/'] := by
  cases path with
  | nil => exact absurd h (by decide)
  | cons c path => exact congrArg (fun c => [c]) h

theorem answerFor_absolute {verifyPath : Option (List UInt8 → Bool)} (habs : path.headD 0 = ch '/')
    (hlen : path.length < maxPathLen - 1)
    (hverify : ∀ verify, verifyPath = some verify → verify (canonicalPath path) = false) :
    answerFor cwd path verifyPath .expand (absolute (remaining path)) =
      (0, canonicalPath path) := by
  have hnames : ∀ c ∈ remaining path, IsName c := fun c hc => isName_of_mem_remaining hc
  have hstart : startOf cwd path = 1 := if_neg fun hb => hb.1 habs
  have hfull : fullPath cwd path = path := if_neg fun hb => hb.1 habs
  have hroom := length_absolute_le (take_one_of_headD habs)
  have hne : (absolute (remaining path)).length ≠ 0 := by
    intro hzero
    have hhead := head_absolute (remaining path)
    rw [length_eq_zero_iff.mp hzero] at hhead
    exact absurd hhead (by decide)
  -- the slash is added where the canonical form has one
  have hslash : (Mode.expand ≠ .realpath ∧ path.getLastD 0 = ch '/' ∧
      (absolute (remaining path)).length ≠ 0 ∧ (absolute (remaining path)).getLastD 0 ≠ ch '/') ↔
      path.getLastD 0 = ch '/' ∧ remaining path ≠ [] := by
    rw [Ne, Ne, Ne, getLastD_absolute hnames]
    constructor
    · exact fun hadd => ⟨hadd.2.1, hadd.2.2.2⟩
    · exact fun hadd => ⟨nofun, hadd.1, hne, hadd.2⟩
  unfold answerFor
  dsimp only
  have hroot : (if 1 = 0 ∧ (absolute (remaining path)).length = 0 then [ch '.']
      else absolute (remaining path)) = absolute (remaining path) := if_neg (by omega)
  rw [hstart, hfull, hroot, if_neg (by omega)]
  have hcanonical : (if Mode.expand ≠ .realpath ∧ path.getLastD 0 = ch '/' ∧
      (absolute (remaining path)).length ≠ 0 ∧ (absolute (remaining path)).getLastD 0 ≠ ch '/' then
        absolute (remaining path) ++ [ch '/']
      else absolute (remaining path)) = canonicalPath path :=
    if_congr hslash rfl rfl
  rw [hcanonical]
  cases verifyPath with
  | none => rfl
  | some verify =>
    dsimp only
    rw [hverify verify rfl]
    rfl

theorem virtualFileEx_canonicalPath (k : Kernel) (e : Settings) (stack cwd : List UInt8)
    {path : List UInt8} {verifyPath : Option (List UInt8 → Bool)} (cache : Cache)
    (habs : path.headD 0 = ch '/') (hlen : path.length < maxPathLen - 1)
    (hverify : ∀ verify, verifyPath = some verify → verify (canonicalPath path) = false) :
    virtualFileEx k e stack cwd path verifyPath .expand cache =
      some ⟨0, canonicalPath path, [], cache⟩ := by
  have hone := take_one_of_headD habs
  have hpos : 0 < path.length := by
    cases path with
    | nil => exact absurd habs (by decide)
    | cons c path => exact Nat.succ_pos _
  have hstart : startOf cwd path = 1 := if_neg fun hb => hb.1 habs
  have hfull : fullPath cwd path = path := if_neg fun hb => hb.1 habs
  unfold virtualFileEx
  rw [if_pos ⟨hpos, hlen, .inl habs⟩]
  dsimp only
  rw [hstart, hfull]
  generalize hv :
    Vars.mk (memcpy stack 0 (path ++ [0])) [] (if e.ttl ≠ 0 then 0 else -1) 0 cache = v
  have hbuf : v.path = memcpy stack 0 (path ++ [0]) := by rw [← hv]
  have htake : v.path.take path.length = path := by rw [hbuf, memcpy_zero_take]
  have hslash : v.path.take 1 = [ch '/'] := by
    rw [← hone, hbuf]
    exact memcpy_zero_take_of_le stack path [0] hpos
  have hroom : path.length ≤ v.path.length := by
    rw [hbuf]
    exact memcpy_zero_length stack path [0]
  have hexpands := tsrmRealpathR_expands k e false path.length v hslash hroom hlen
  rw [htake] at hexpands
  have ⟨isDir, hshows⟩ := hexpands.shows
  have hsame := hexpands.same
  generalize tsrmRealpathR k e .expand false 1 path.length v = r at *
  have hll : r.vars.ll = [] := (congrArg Vars.ll hsame).trans (by rw [← hv])
  have hcache : r.vars.cache = cache := (congrArg Vars.cache hsame).trans (by rw [← hv])
  cases hshows with
  | length hret hj hpath hdir =>
    unfold Resolved.finish
    rw [hret]
    dsimp only
    rw [hpath, answerFor_absolute habs hlen hverify, hll, hcache]

/-- An absolute path is expanded to its canonical form, whatever the kernel, the settings, the cache
and the memory are; the cache stays as it was, and no link is followed.  What it is expanded to is
expanded to itself. -/
theorem virtualFileEx_expand (k k' : Kernel) (e e' : Settings)
    (stack stack' cwd cwd' path : List UInt8) (verifyPath : Option (List UInt8 → Bool))
    (cache cache' : Cache)
    (habs : path.headD 0 = ch '/') (hlen : path.length < maxPathLen - 1)
    (hverify : ∀ verify, verifyPath = some verify → verify (canonicalPath path) = false) :
    virtualFileEx k e stack cwd path verifyPath .expand cache =
        some ⟨0, canonicalPath path, [], cache⟩ ∧
      virtualFileEx k' e' stack' cwd' (canonicalPath path) verifyPath .expand cache' =
        some ⟨0, canonicalPath path, [], cache'⟩ := by
  constructor
  · exact virtualFileEx_canonicalPath k e stack cwd cache habs hlen hverify
  · have hroom := length_canonicalPath_le (take_one_of_headD habs)
    have hagain := canonicalPath_canonicalPath path
    have hcall := @virtualFileEx_canonicalPath k' e' stack' cwd' _ verifyPath cache'
      (head_canonicalPath path) (by omega)
    rw [hagain] at hcall
    exact hcall hverify

/-- "/k/./s/../k//" is expanded to "/k/k/", where "/k" is a symbolic link. -/
theorem virtualFileEx_expand_link :
    virtualFileEx twoLinks ⟨120, 16384, fun _ => 1⟩ [] [] (bytes "/k/./s/../k//") none .expand
        .empty = some ⟨0, bytes "/k/k/", [], .empty⟩ ∧
      virtualFileEx twoLinks ⟨0, 0, fun _ => 1⟩ [] [ch '/'] (bytes "/k/k/") none .expand .empty =
        some ⟨0, bytes "/k/k/", [], .empty⟩ := by
  have hpath : canonicalPath (bytes "/k/./s/../k//") = bytes "/k/k/" := by decide
  have hexpand := virtualFileEx_expand twoLinks twoLinks ⟨120, 16384, fun _ => 1⟩ ⟨0, 0, fun _ => 1⟩
    [] [] [] [ch '/'] (bytes "/k/./s/../k//") none .empty .empty
    (by decide) (show 13 < 4096 - 1 by omega) nofun
  rwa [hpath] at hexpand

end Php53.TSRM
