import Php53.TSRM.Resolution
import Php53.Reasoning.Run

/-!
# RealpathCache — the realpath cache does not change what a path is resolved to

`Sound` is what every entry of the cache promises, and `Faithful` what a call of `tsrm_realpath_r`
keeps of it.
-/

namespace Php53.TSRM

open Zend (ch)
open Reasoning List

variable {len n start : Nat} {b : Bucket} {result : Option (List UInt8 × Bool)} {k i : Nat}

/-! ## 1. Buffers -/

theorem memcpy_take (buf bytes : List UInt8) (h : k ≤ buf.length) :
    (memcpy buf k bytes).take (k + bytes.length) = buf.take k ++ bytes := by
  have hlen : (buf.take k ++ bytes).length = k + bytes.length := by
    rw [length_append, length_take, Nat.min_eq_left h]
  rw [memcpy, ← hlen, take_left]

theorem memcpy_take_of_le (buf bytes : List UInt8) (h : k ≤ buf.length) (hn : n ≤ k) :
    (memcpy buf k bytes).take n = buf.take n := by
  rw [memcpy, append_assoc, take_append_of_le_length, take_take, Nat.min_eq_left hn]
  rwa [length_take, Nat.min_eq_left h]

theorem memcpy_length_le (buf bytes : List UInt8) (h : k ≤ buf.length) :
    k + bytes.length ≤ (memcpy buf k bytes).length := by
  rw [memcpy, length_append, length_append, length_take, Nat.min_eq_left h]
  exact Nat.le_add_right _ _

theorem memcpy_zero_take (buf bytes rest : List UInt8) :
    (memcpy buf 0 (bytes ++ rest)).take bytes.length = bytes := by
  rw [memcpy, take_zero, nil_append, append_assoc, take_left]

theorem memcpy_zero_take_of_le (buf bytes rest : List UInt8) (h : n ≤ bytes.length) :
    (memcpy buf 0 (bytes ++ rest)).take n = bytes.take n := by
  have hall := congrArg (List.take n) (memcpy_zero_take buf bytes rest)
  rwa [take_take, Nat.min_eq_left h] at hall

theorem cString_append_zero (text rest : List UInt8) : cString (text ++ 0 :: rest) = cString text := by
  induction text with
  | nil => rfl
  | cons c text ih =>
    rw [cString, cString, cons_append, takeWhile_cons, takeWhile_cons]
    rw [cString, cString] at ih
    rw [ih]

theorem getD_take {buf : List UInt8} (h : i < n) : (buf.take n).getD i 0 = buf.getD i 0 := by
  rw [List.getD_eq_getElem?_getD, List.getD_eq_getElem?_getD, List.getElem?_take_of_lt h]

theorem nameStart_take (buf : List UInt8) (start : Nat) (h : i ≤ n) :
    nameStart (buf.take n) start i = nameStart buf start i := by
  induction i with
  | zero => rfl
  | succ i ih =>
    rw [nameStart, nameStart, getD_take (Nat.lt_of_succ_le h), ih (Nat.le_of_succ_le h)]

theorem dirEnd_take (buf : List UInt8) (start : Nat) {j : Nat} (h : j ≤ n) :
    dirEnd (buf.take n) start j = dirEnd buf start j := by
  induction j with
  | zero => rfl
  | succ j ih =>
    rw [dirEnd, dirEnd, getD_take (Nat.lt_of_succ_le h), ih (Nat.le_of_succ_le h)]

theorem dirEnd_le (buf : List UInt8) (start j : Nat) : dirEnd buf start j ≤ j := by
  induction j with
  | zero => exact Nat.le_refl 0
  | succ j ih =>
    rw [dirEnd]
    split
    · exact Nat.le_succ_of_le ih
    · exact Nat.le_succ j

theorem le_nameStart {buf : List UInt8} (h : start ≤ len) :
    start ≤ nameStart buf start len := by
  induction len with
  | zero => exact h
  | succ i ih =>
    rw [nameStart]
    split
    · rename_i hi
      exact ih (Nat.le_of_lt_succ hi.1)
    · exact h

theorem getD_drop (l : List UInt8) (i j : Nat) : (l.drop i).getD j 0 = l.getD (i + j) 0 := by
  rw [List.getD_eq_getElem?_getD, List.getD_eq_getElem?_getD, List.getElem?_drop]

theorem drop_eq_one (l : List UInt8) (i : Nat) (c : UInt8) :
    l.drop i = [c] ↔ i + 1 = l.length ∧ l.getD i 0 = c := by
  have hlen : (l.drop i).length = l.length - i := length_drop
  have hget : (l.drop i).getD 0 0 = l.getD i 0 := getD_drop l i 0
  constructor
  · intro h
    rw [h] at hlen hget
    exact ⟨by simp at hlen; omega, hget.symm⟩
  · rintro ⟨hi, rfl⟩
    rw [← hget]
    have hone : (l.drop i).length = 1 := by omega
    obtain ⟨x, hx⟩ := length_eq_one_iff.mp hone
    rw [hx]
    rfl

theorem drop_eq_two (l : List UInt8) (i : Nat) (c d : UInt8) :
    l.drop i = [c, d] ↔ i + 2 = l.length ∧ l.getD i 0 = c ∧ l.getD (i + 1) 0 = d := by
  have hlen : (l.drop i).length = l.length - i := length_drop
  have hget : (l.drop i).getD 0 0 = l.getD i 0 := getD_drop l i 0
  have hget' : (l.drop i).getD 1 0 = l.getD (i + 1) 0 := getD_drop l i 1
  constructor
  · intro h
    rw [h] at hlen hget hget'
    exact ⟨by simp at hlen; omega, hget.symm, hget'.symm⟩
  · rintro ⟨hi, rfl, rfl⟩
    rw [← hget, ← hget']
    have htwo : (l.drop i).length = 2 := by omega
    obtain ⟨x, y, hxy⟩ := length_eq_two.mp htwo
    rw [hxy]
    rfl

/-! The last component of the text in a buffer. -/

section

variable {buf : List UInt8} {len : Nat}

theorem stat_memcpy (k : Kernel) (mode : Mode) :
    k.stat mode (memcpy buf len [0]) = k.stat mode (buf.take len) := by
  rw [Kernel.stat, Kernel.stat, memcpy, append_assoc]
  show (if mode = .expand then none else k.lstat (cString (buf.take len ++ 0 :: _))) = _
  rw [cString_append_zero]

theorem take_front (h : i ≤ len) : (buf.take len).take (i - 1) = buf.take (i - 1) := by
  rw [take_take, Nat.min_eq_left (by omega)]

variable (hlen : len ≤ buf.length)

include hlen

theorem lastPart_here
    (h : nameStart buf 1 len = len ∨
      nameStart buf 1 len + 1 = len ∧ buf.getD (nameStart buf 1 len) 0 = ch '.') :
    lastPart (buf.take len) = .here (buf.take (nameStart buf 1 len - 1)) := by
  have htext : (buf.take len).length = len := length_take_of_le hlen
  have hi := nameStart_le buf 1 len
  rw [lastPart, htext, nameStart_take buf 1 (Nat.le_refl len), take_front hi]
  refine if_pos ?_
  rw [drop_eq_one, htext]
  rcases h with h | ⟨h, hdot⟩
  · exact .inl (drop_eq_nil_of_le (by omega))
  · exact .inr ⟨h, by rwa [getD_take (by omega)]⟩

theorem lastPart_up
    (h : nameStart buf 1 len + 2 = len ∧ buf.getD (nameStart buf 1 len) 0 = ch '.' ∧
      buf.getD (nameStart buf 1 len + 1) 0 = ch '.') :
    lastPart (buf.take len) = .up (buf.take (nameStart buf 1 len - 1)) := by
  have htext : (buf.take len).length = len := length_take_of_le hlen
  have hi := nameStart_le buf 1 len
  have hname : (buf.take len).drop (nameStart buf 1 len) = [ch '.', ch '.'] := by
    rw [drop_eq_two, htext, getD_take (by omega), getD_take (by omega)]
    exact h
  rw [lastPart, htext, nameStart_take buf 1 (Nat.le_refl len), take_front hi, hname]
  rfl

theorem lastPart_name
    (h : ¬ (nameStart buf 1 len = len ∨
      nameStart buf 1 len + 1 = len ∧ buf.getD (nameStart buf 1 len) 0 = ch '.'))
    (h' : ¬ (nameStart buf 1 len + 2 = len ∧ buf.getD (nameStart buf 1 len) 0 = ch '.' ∧
      buf.getD (nameStart buf 1 len + 1) 0 = ch '.')) :
    lastPart (buf.take len) =
      .name (buf.take (nameStart buf 1 len - 1)) ((buf.take len).drop (nameStart buf 1 len)) := by
  have htext : (buf.take len).length = len := length_take_of_le hlen
  have hi := nameStart_le buf 1 len
  rw [lastPart, htext, nameStart_take buf 1 (Nat.le_refl len), take_front hi]
  rw [if_neg, if_neg]
  · rw [drop_eq_two, htext]
    rintro ⟨hi', hdot, hdot'⟩
    rw [getD_take (by omega)] at hdot hdot'
    exact h' ⟨hi', hdot, hdot'⟩
  · rw [drop_eq_one, htext, drop_eq_nil_iff, htext]
    rintro (hi' | ⟨hi', hdot⟩)
    · exact h (.inl (by omega))
    · rw [getD_take (by omega)] at hdot
      exact h (.inr ⟨hi', hdot⟩)

end

/-! ## 2. The entries -/

variable {k : Kernel} {e : Settings} {path : List UInt8}

/-- Every entry for an absolute path says what `CWD_REALPATH` resolves the path to. -/
def Sound (k : Kernel) (c : Cache) : Prop :=
  ∀ n, ∀ b ∈ c.buckets n, b.path.take 1 = [ch '/'] →
    ∃ l, Resolves k .realpath false b.path l (some (b.realpath, b.isDir))

theorem sound_empty (k : Kernel) : Sound k .empty := fun _ _ hb => absurd hb not_mem_nil

theorem mem_of_mem_findInChain {ttl t : Int} {key : UInt64} {bs : List Bucket}
    (h : b ∈ (findInChain ttl t key path bs).2.1) : b ∈ bs := by
  induction bs with
  | nil => exact h
  | cons a bs ih =>
    rw [findInChain] at h
    split at h
    · exact mem_cons_of_mem a (ih h)
    · split at h
      · exact h
      · rcases mem_cons.mp h with rfl | h
        · exact mem_cons_self
        · exact mem_cons_of_mem a (ih h)

theorem findInChain_some {ttl t : Int} {key : UInt64} {bs : List Bucket}
    (h : (findInChain ttl t key path bs).1 = some b) : b ∈ bs ∧ path = b.path := by
  induction bs with
  | nil => exact nomatch h
  | cons a bs ih =>
    rw [findInChain] at h
    split at h
    · exact ⟨mem_cons_of_mem a (ih h).1, (ih h).2⟩
    · split at h
      · rename_i hpath
        obtain rfl := Option.some.inj h
        exact ⟨mem_cons_self, hpath.2⟩
      · exact ⟨mem_cons_of_mem a (ih h).1, (ih h).2⟩

theorem sound_find {c : Cache} (h : Sound k c) (ttl t : Int) (path : List UInt8) :
    Sound k (realpathCacheFind ttl t path c).2 := by
  intro n b hb
  simp only [realpathCacheFind] at hb
  by_cases hn : n = chain (realpathCacheKey path)
  · subst hn
    rw [Function.update_self] at hb
    exact h _ b (mem_of_mem_findInChain hb)
  · rw [Function.update_of_ne hn] at hb
    exact h n b hb

theorem sound_add {c : Cache} (h : Sound k c) {realpath : List UInt8} {isDir : Bool}
    (hpath : path.take 1 = [ch '/'] →
      ∃ l, Resolves k .realpath false path l (some (realpath, isDir))) (t : Int) :
    Sound k (realpathCacheAdd e path realpath isDir t c) := by
  rw [realpathCacheAdd]
  split
  · intro n b hb
    dsimp only at hb
    by_cases hn : n = chain (realpathCacheKey path)
    · subst hn
      rw [Function.update_self] at hb
      rcases mem_cons.mp hb with rfl | hb
      · exact hpath
      · exact h _ b hb
    · rw [Function.update_of_ne hn] at hb
      exact h n b hb
  · exact h

@[simp] theorem Vars.lookup_path (start len : Nat) (mode : Mode) (v : Vars) :
    (v.lookup e start len mode).2.path = v.path := by
  rw [Vars.lookup]
  split
  · dsimp only
    split <;> rfl
  · rfl

theorem sound_lookup {v : Vars} (h : Sound k v.cache) (start len : Nat) (mode : Mode) :
    Sound k (v.lookup e start len mode).2.cache := by
  rw [Vars.lookup]
  split
  · dsimp only
    split
    · exact sound_find h _ _ _
    · exact sound_find h _ _ _
  · exact h

theorem resolves_of_lookup {v : Vars} (h : Sound k v.cache) {mode : Mode}
    (hb : (v.lookup e start len mode).1 = some b) (hslash : (v.path.take len).take 1 = [ch '/']) :
    e.sizeLimit ≠ 0 ∧
      ∃ l, Resolves k .realpath false (v.path.take len) l (some (b.realpath, b.isDir)) := by
  rw [Vars.lookup] at hb
  split at hb
  · rename_i hlimit
    refine ⟨hlimit.2.2, ?_⟩
    dsimp only at hb
    split at hb
    · obtain ⟨hmem, hpath⟩ := findInChain_some hb
      rw [hpath] at hslash ⊢
      exact h _ b hmem hslash
    · obtain ⟨hmem, hpath⟩ := findInChain_some hb
      rw [hpath] at hslash ⊢
      exact h _ b hmem hslash
  · cases hb

/-! ## 3. One call of `tsrm_realpath_r` -/

/-- `r` returns this result. -/
inductive Shows (r : Resolved) : Option (List UInt8 × Bool) → Prop where
  | length {j : Nat} {p : List UInt8 × Bool} : r.ret = .length j → j ≤ r.vars.path.length →
      r.vars.path.take j = p.1 → r.linkIsDir = p.2 → Shows r (some p)
  | error : r.ret = .error → Shows r none

/-- The links that were followed in `CWD_FILEPATH` mode lead to files that exist. -/
def Good (k : Kernel) (ll : List Followed) : Prop :=
  ∀ f ∈ ll, f.mode = .filepath → f.path.take 1 = [ch '/'] → Exists k f.path

/-- A call that begins with `v` and ends with `r`, for a path that begins with a slash. -/
structure Faithful (k : Kernel) (e : Settings) (mode : Mode) (isDir : Bool) (text : List UInt8)
    (v : Vars) (r : Resolved) : Prop where
  sound : Good k r.vars.ll → Sound k r.vars.cache
  /-- The result is the right one, unless there are too many links. -/
  result : (∃ n result, Resolves k mode isDir text n result ∧ Shows r result) ∨
    r.ret = .error ∧ ∀ n result, Resolves k mode isDir text n result → linkMax < v.ll.length + n
  /-- Without the cache every link is counted. -/
  uncached : e.sizeLimit = 0 → r.vars.ll.length ≤ linkMax →
    ∃ n result, Resolves k mode isDir text n result ∧ r.vars.ll.length = v.ll.length + n

variable {mode mode' : Mode} {isDir isDir' : Bool} {text text' : List UInt8} {links : Nat}
  {v v' : Vars} {r r' : Resolved} {f : Option (List UInt8 × Bool) → Option (List UInt8 × Bool)}

theorem Faithful.done (hsound : Sound k r.vars.cache)
    (hnext : next k mode isDir text = .done links result) (hshows : Shows r result)
    (hll : r.vars.ll.length = v.ll.length + links) : Faithful k e mode isDir text v r where
  sound := fun _ => hsound
  result := .inl ⟨links, result, .done hnext, hshows⟩
  uncached := fun _ _ => ⟨links, result, .done hnext, hll⟩

theorem Faithful.go (hsound : Good k r.vars.ll → Sound k r.vars.cache)
    (hnext : next k mode isDir text = .go mode' isDir' text' links f)
    (h : Faithful k e mode' isDir' text' v' r') (hv : v'.ll.length = v.ll.length + links)
    (hr : r.vars.ll = r'.vars.ll) (hshows : ∀ result, Shows r' result → Shows r (f result))
    (herror : r'.ret = .error → r.ret = .error) : Faithful k e mode isDir text v r where
  sound := hsound
  result := by
    rcases h.result with ⟨n, result, hres, hshow⟩ | ⟨hret, hmany⟩
    · exact .inl ⟨n + links, f result, .go hnext hres, hshows result hshow⟩
    · refine .inr ⟨herror hret, fun n result hres => ?_⟩
      cases hres with
      | done hnext' => exact nomatch hnext.symm.trans hnext'
      | go hnext' hres =>
        obtain ⟨rfl, rfl, rfl, rfl, rfl⟩ := Next.go.inj (hnext.symm.trans hnext')
        have := hmany _ _ hres
        omega
  uncached := by
    intro hlimit hll
    obtain ⟨n, result, hres, hlen⟩ := h.uncached hlimit (hr ▸ hll)
    refine ⟨n + links, f result, .go hnext hres, ?_⟩
    rw [hr]
    omega

@[simp] theorem dropDirectory_ll (start : Nat) (r : Resolved) :
    (dropDirectory start r).vars.ll = r.vars.ll := by
  rw [dropDirectory]
  split
  · dsimp only
    split_ifs <;> rfl
  · rfl

@[simp] theorem remember_ll (e : Settings) (start : Nat) (save : Bool) (tmp : List UInt8)
    (r : Resolved) : (r.remember e start save tmp).vars.ll = r.vars.ll := by
  rw [Resolved.remember]
  split
  · split <;> rfl
  · rfl

@[simp] theorem appendName_ll (start : Nat) (name : List UInt8) (isDir : Bool) (r : Resolved) :
    (r.appendName start name isDir).vars.ll = r.vars.ll := by
  rw [Resolved.appendName]
  split
  · dsimp only
    split_ifs <;> rfl
  · rfl

@[simp] theorem appendName_cache (start : Nat) (name : List UInt8) (isDir : Bool) (r : Resolved) :
    (r.appendName start name isDir).vars.cache = r.vars.cache := by
  rw [Resolved.appendName]
  split
  · dsimp only
    split_ifs <;> rfl
  · rfl

@[simp] theorem dropDirectory_cache (start : Nat) (r : Resolved) :
    (dropDirectory start r).vars.cache = r.vars.cache := by
  rw [dropDirectory]
  split
  · dsimp only
    split_ifs <;> rfl
  · rfl

theorem ll_subset_lookup (e : Settings) (start len : Nat) (mode : Mode) (v : Vars)
    (path : List UInt8) :
    v.ll ⊆ (Vars.lookup e start len mode { v with path }).2.ll := by
  rw [Vars.lookup_ll]
  exact List.Subset.refl _

theorem ll_subset (k : Kernel) (e : Settings) (mode : Mode) (isDir : Bool) (start len : Nat)
    (v : Vars) : v.ll ⊆ (tsrmRealpathR k e mode isDir start len v).vars.ll := by
  fun_induction tsrmRealpathR k e mode isDir start len v
  case case1 => exact List.Subset.refl _
  case case2 ih => exact ih
  case case3 => exact List.Subset.refl _
  case case4 ih =>
    rw [dropDirectory_ll]
    exact ih
  case case5 => exact ll_subset_lookup _ _ _ _ _ _
  case case6 => exact ll_subset_lookup _ _ _ _ _ _
  case case7 => exact ll_subset_lookup _ _ _ _ _ _
  case case8 =>
    rw [appendName_ll]
    exact ll_subset_lookup _ _ _ _ _ _
  case case9 ih =>
    rw [appendName_ll]
    exact List.Subset.trans (ll_subset_lookup _ _ _ _ _ _) ih
  case case10 => exact subset_cons_of_subset _ (ll_subset_lookup _ _ _ _ _ _)
  case case11 => exact subset_cons_of_subset _ (ll_subset_lookup _ _ _ _ _ _)
  case case12 ih =>
    rw [remember_ll]
    exact List.Subset.trans (subset_cons_of_subset _ (ll_subset_lookup _ _ _ _ _ _)) ih
  case case13 => exact subset_cons_of_subset _ (ll_subset_lookup _ _ _ _ _ _)
  case case14 => exact subset_cons_of_subset _ (ll_subset_lookup _ _ _ _ _ _)
  case case15 ih =>
    rw [remember_ll]
    exact List.Subset.trans (subset_cons_of_subset _ (ll_subset_lookup _ _ _ _ _ _)) ih
  case case16 => exact ll_subset_lookup _ _ _ _ _ _
  case case17 =>
    rw [remember_ll, appendName_ll]
    exact ll_subset_lookup _ _ _ _ _ _
  case case18 ih =>
    rw [remember_ll, appendName_ll]
    exact List.Subset.trans (ll_subset_lookup _ _ _ _ _ _) ih

/-! What the wrappers of a result show. -/

theorem Shows.dropDirectory (h : Shows r result) :
    Shows (dropDirectory 1 r) (result.map fun p => (parent p.1, true)) := by
  cases h with
  | error hret =>
    refine .error ?_
    rw [TSRM.dropDirectory, hret]
  | @length j p hret hj hpath hdir =>
    have hlen : p.1.length = j := by rw [← hpath, length_take_of_le hj]
    have hend := dirEnd_le r.vars.path 1 j
    by_cases hone : 1 < j
    · have hdrop : TSRM.dropDirectory 1 r = ⟨.length (dirEnd r.vars.path 1 j), true, r.vars⟩ := by
        rw [TSRM.dropDirectory, hret]
        exact (if_pos hone).trans (if_neg (by decide))
      rw [hdrop]
      refine .length rfl (hend.trans hj) ?_ rfl
      show r.vars.path.take (dirEnd r.vars.path 1 j) = parent p.1
      rw [parent, hlen, if_pos hone, ← hpath, dirEnd_take _ 1 (Nat.le_refl j), take_take,
        Nat.min_eq_left hend]
    · have hdrop : TSRM.dropDirectory 1 r = ⟨.length j, true, r.vars⟩ := by
        rw [TSRM.dropDirectory, hret]
        exact (if_neg hone).trans (if_neg fun hb => absurd hb.1 (by decide))
      rw [hdrop]
      refine .length rfl hj ?_ rfl
      show r.vars.path.take j = parent p.1
      rw [parent, hlen, if_neg hone, hpath]

theorem Shows.appendName (h : Shows r result) (name : List UInt8) (isDir : Bool) :
    Shows (r.appendName 1 name isDir) (append name isDir result) := by
  cases h with
  | error hret =>
    refine .error ?_
    rw [Resolved.appendName, hret]
  | @length j p hret hj hpath hdir =>
    have hlen : p.1.length = j := by rw [← hpath, length_take_of_le hj]
    rw [Resolved.appendName, hret, append, Option.bind_some]
    dsimp only
    -- the buffer with the slash, and its text
    obtain ⟨buf, m, q, hbuf, hm, hq, hmbuf, htake, hqlen⟩ : ∃ (buf : List UInt8) (m : Nat)
        (q : List UInt8), (if 1 < j then memcpy r.vars.path j [ch '/'] else r.vars.path) = buf ∧
        (if 1 < j then j + 1 else j) = m ∧
        (if 1 < p.1.length then p.1 ++ [ch '/'] else p.1) = q ∧ m ≤ buf.length ∧ buf.take m = q ∧
        q.length = m := by
      by_cases hone : 1 < j
      · rw [hlen, if_pos hone, if_pos hone, if_pos hone]
        refine ⟨_, _, _, rfl, rfl, rfl, memcpy_length_le _ [ch '/'] hj, ?_, ?_⟩
        · rw [← hpath]
          exact memcpy_take _ [ch '/'] hj
        · rw [length_append, hlen]
          rfl
      · rw [hlen, if_neg hone, if_neg hone, if_neg hone]
        exact ⟨_, _, _, rfl, rfl, rfl, hj, hpath, hlen⟩
    rw [hbuf, hm, hq, hqlen]
    by_cases hlong : maxPathLen - 1 ≤ m + name.length
    · rw [if_pos hlong, if_pos hlong]
      exact .error rfl
    · rw [if_neg hlong, if_neg hlong]
      have hcopy := memcpy_length_le buf (name ++ [0]) hmbuf
      have htext : (memcpy buf m (name ++ [0])).take (m + name.length) = q ++ name := by
        have hall := memcpy_take buf (name ++ [0]) hmbuf
        rw [htake, length_append, ← append_assoc] at hall
        have htwice := congrArg (List.take (m + name.length)) hall
        rw [take_take, Nat.min_eq_left (by simp), take_left' (by simp [hqlen])] at htwice
        exact htwice
      rw [length_append] at hcopy
      exact .length rfl (Nat.le_trans (Nat.add_le_add_left (Nat.le_add_right _ _) m) hcopy) htext rfl

theorem Shows.remember (h : Shows r result) (e : Settings) (start : Nat) (save : Bool)
    (tmp : List UInt8) : Shows (r.remember e start save tmp) result := by
  have hsame : (r.remember e start save tmp).ret = r.ret ∧
      (r.remember e start save tmp).vars.path = r.vars.path ∧
      (r.remember e start save tmp).linkIsDir = r.linkIsDir := by
    rw [Resolved.remember]
    split
    · split <;> exact ⟨rfl, rfl, rfl⟩
    · exact ⟨rfl, rfl, rfl⟩
  obtain ⟨hret', hpath', hdir'⟩ := hsame
  cases h with
  | error hret => exact .error (hret'.trans hret)
  | length hret hj hpath hdir =>
    exact .length (hret'.trans hret) (by rwa [hpath']) (by rwa [hpath']) (hdir'.trans hdir)

theorem remember_error (e : Settings) (start : Nat) (save : Bool) (tmp : List UInt8)
    (h : r.ret = .error) : r.remember e start save tmp = r := by
  rw [Resolved.remember, h]

theorem sound_remember (h : Sound k r.vars.cache) {tmp : List UInt8}
    (htmp : start ≠ 0 → tmp.take 1 = [ch '/'] → ∀ j, r.ret = .length j →
      ∃ l, Resolves k .realpath false tmp l (some (r.vars.path.take j, r.linkIsDir))) (save : Bool)
    : Sound k (r.remember e start save tmp).vars.cache := by
  rw [Resolved.remember]
  split
  · rename_i j hret
    split
    · rename_i hsave
      exact sound_add h (fun hslash => htmp hsave.2.1 hslash j hret) _
    · exact h
  · exact h

theorem Faithful.remember (h : Faithful k e mode isDir text v r)
    (htext : Good k r.vars.ll →
      ∀ p, Shows r (some p) → ∃ l, Resolves k .realpath false text l (some p))
    (start : Nat) (save : Bool) :
    Faithful k e mode isDir text v (r.remember e start save text) where
  sound := by
    intro hgood
    rw [remember_ll] at hgood
    refine sound_remember (h.sound hgood) (fun _ _ j hret => ?_) save
    rcases h.result with ⟨n, result, -, hshows⟩ | ⟨herr, -⟩
    · cases hshows with
      | error herr => exact nomatch hret.symm.trans herr
      | @length j' p hret' hj hpath hdir =>
        obtain rfl : j = j' := Ret.length.inj (hret.symm.trans hret')
        exact htext hgood _ (.length hret hj rfl rfl)
    · exact nomatch hret.symm.trans herr
  result := by
    rcases h.result with ⟨n, result, hres, hshows⟩ | ⟨herr, hmany⟩
    · exact .inl ⟨n, result, hres, hshows.remember e start save text⟩
    · rw [remember_error e start save text herr]
      exact .inr ⟨herr, hmany⟩
  uncached := by
    rw [remember_ll]
    exact h.uncached

theorem Shows.unique {result' : Option (List UInt8 × Bool)} (h : Shows r result)
    (h' : Shows r result') : result = result' := by
  cases h with
  | error hret =>
    cases h' with
    | error => rfl
    | length hret' => exact nomatch hret.symm.trans hret'
  | @length j p hret hj hpath hdir =>
    cases h' with
    | error hret' => exact nomatch hret.symm.trans hret'
    | @length j' p' hret' hj' hpath' hdir' =>
      obtain rfl := Ret.length.inj (hret.symm.trans hret')
      exact congrArg some (Prod.ext (hpath.symm.trans hpath') (hdir.symm.trans hdir'))

theorem Faithful.resolves {p : List UInt8 × Bool} (h : Faithful k e mode isDir text v r)
    (hshows : Shows r (some p)) : ∃ n, Resolves k mode isDir text n (some p) := by
  rcases h.result with ⟨n, result, hres, hshows'⟩ | ⟨herr, -⟩
  · exact ⟨n, hshows.unique hshows' ▸ hres⟩
  · cases hshows with
    | length hret => exact nomatch herr.symm.trans hret

theorem Faithful.root (hsound : Sound k v.cache) (hslash : v.path.take 1 = [ch '/'])
    (htext : text.length ≤ 1) : Faithful k e mode isDir text v ⟨.length 1, true, v⟩ := by
  refine .done hsound (next_root htext) (.length rfl ?_ hslash rfl) rfl
  have hlen := congrArg List.length hslash
  rw [length_take] at hlen
  have hone : min 1 v.path.length = 1 := hlen
  show 1 ≤ v.path.length
  omega

section

variable {front name : List UInt8} (hlen : ¬ text.length ≤ 1)
  (hpart : lastPart text = .name front name)

include hlen hpart

theorem Faithful.absent (hstat : k.stat mode text = none) (hmode : mode ≠ .realpath)
    (h : Faithful k e mode true front v' r') (hll : v'.ll = v.ll) :
    Faithful k e mode isDir text v (r'.appendName 1 name false) := by
  refine .go ?_ (next_absent hlen hpart hstat hmode) h (congrArg List.length hll)
    (appendName_ll _ _ _ _) (fun result hshows => hshows.appendName name false) ?_
  · rw [appendName_cache, appendName_ll]
    exact h.sound
  · intro hret
    rw [Resolved.appendName, hret]

theorem Faithful.entry {type : FileType} (hmode : mode ≠ .expand)
    (hstat : k.stat mode text = some type) (htype : type ≠ .link)
    (hdir : ¬ (isDir ∧ type ≠ .directory)) (h : Faithful k e .filepath true front v' r')
    (hll : v'.ll = v.ll) :
    Faithful k e mode isDir text v
      ((r'.appendName 1 name (decide (type = .directory))).remember e 1 true text) := by
  refine .remember (.go ?_ (next_entry hlen hpart hstat htype hdir) h (congrArg List.length hll)
    (appendName_ll _ _ _ _) (fun result hshows => hshows.appendName name _) ?_) ?_ 1 true
  · rw [appendName_cache, appendName_ll]
    exact h.sound
  · intro hret
    rw [Resolved.appendName, hret]
  · intro _ p hp
    rcases h.result with ⟨n, result, hres, hshows⟩ | ⟨herr, -⟩
    · have hp' := hp.unique (hshows.appendName name (decide (type = .directory)))
      have hstat' := (k.stat_realpath hmode).symm.trans hstat
      rw [hp']
      exact ⟨_, .go (next_entry hlen hpart hstat' htype fun hb => nomatch hb.1) hres⟩
    · rw [Resolved.appendName, herr] at hp
      cases hp with
      | length hret => exact nomatch hret

end

theorem Faithful.link (hmode : mode ≠ .expand)
    (hnext : next k mode isDir text = .go mode isDir text' 1 id)
    (h : Faithful k e mode isDir text' v' r) (hll : v'.ll.length = v.ll.length + 1)
    (hexists : Good k r.vars.ll → mode = .filepath → Exists k text) :
    Faithful k e mode isDir text v (r.remember e 1 true text) := by
  have htext : Faithful k e mode isDir text v r :=
    .go h.sound hnext h hll rfl (fun _ hshows => hshows) id
  refine htext.remember (fun hgood p hp => ?_) 1 true
  obtain ⟨n, hres⟩ := htext.resolves hp
  cases mode with
  | expand => exact absurd rfl hmode
  | realpath => exact (hres.lenient.2 .realpath false hmode)
  | filepath =>
    -- the entry is right for `CWD_REALPATH` because the link exists
    obtain ⟨n', p', hres'⟩ := hexists hgood rfl
    obtain ⟨m, hm⟩ := hres'.lenient.2 .filepath isDir hmode
    have hp' := (hm.unique hres).2
    rw [wanted] at hp'
    split at hp'
    · cases hp'
    · obtain rfl := Option.some.inj hp'
      exact ⟨n', hres'⟩

theorem memcpy_zero_length (buf bytes rest : List UInt8) :
    bytes.length ≤ (memcpy buf 0 (bytes ++ rest)).length := by
  have h := memcpy_length_le buf (bytes ++ rest) (Nat.zero_le _)
  rw [length_append] at h
  omega

theorem take_one_target (buf : List UInt8) {target : List UInt8} (h : target.getD 0 0 = ch '/') :
    (memcpy buf 0 (target ++ [0])).take 1 = [ch '/'] := by
  cases target with
  | nil => exact absurd h (by decide)
  | cons c target =>
    obtain rfl : c = ch '/' := h
    rfl

theorem front_length (hlong : ¬ len ≤ 1) (hlen : len ≤ v.path.length) :
    (v.path.take (nameStart v.path 1 len - 1)).length + 1 = nameStart v.path 1 len := by
  have hi := nameStart_le v.path 1 len
  have hpos : 1 ≤ nameStart v.path 1 len := le_nameStart (by omega)
  rw [length_take_of_le (by omega)]
  omega

theorem Resolves.link_pos {front name : List UInt8} (h : Resolves k mode isDir text n result)
    (hlen : ¬ text.length ≤ 1) (hpart : lastPart text = .name front name)
    (hstat : k.stat mode text = some .link) : 1 ≤ n := by
  have hnext : next k mode isDir text = .done 1 none ∨
      ∃ text', next k mode isDir text = .go mode isDir text' 1 id := by
    cases hlink : k.readlink (cString text) with
    | none => exact .inl (next_unreadable hlen hpart hstat hlink)
    | some target =>
      by_cases hslash : target.getD 0 0 = ch '/'
      · exact .inr ⟨_, next_absolute hlen hpart hstat hlink hslash⟩
      · by_cases hlong : maxPathLen - 1 ≤ front.length + 1 + target.length
        · exact .inl (next_tooLong hlen hpart hstat hlink hslash hlong)
        · exact .inr ⟨_, next_relative hlen hpart hstat hlink hslash hlong⟩
  rcases hnext with hnext | ⟨text', hnext⟩
  · cases h with
    | done hnext' =>
      obtain ⟨rfl, -⟩ := Next.done.inj (hnext.symm.trans hnext')
      exact Nat.le_refl 1
    | go hnext' => exact nomatch hnext.symm.trans hnext'
  · cases h with
    | done hnext' => exact nomatch hnext.symm.trans hnext'
    | go hnext' h =>
      obtain ⟨-, -, -, rfl, -⟩ := Next.go.inj (hnext.symm.trans hnext')
      exact Nat.le_add_left 1 _

/-- Behind the lookup the text is still in the buffer. -/
structure Looked (k : Kernel) (len : Nat) (v w : Vars) : Prop where
  sound : Sound k w.cache
  ll : w.ll = v.ll
  length : len ≤ w.path.length
  take : ∀ n, n ≤ len → w.path.take n = v.path.take n
  stat : ∀ mode, k.stat mode w.path = k.stat mode (v.path.take len)

theorem looked_lookup (e : Settings) (start : Nat) (mode : Mode) (hlen : len ≤ v.path.length)
    (hsound : Sound k v.cache) :
    Looked k len v (Vars.lookup e start len mode { v with path := memcpy v.path len [0] }).2 where
  sound := sound_lookup (v := { v with path := memcpy v.path len [0] }) hsound _ _ _
  ll := Vars.lookup_ll _ _ _ _ _
  length := by
    rw [Vars.lookup_path]
    exact Nat.le_trans (Nat.le_add_right _ _) (memcpy_length_le v.path [0] hlen)
  take := fun n hn => by
    rw [Vars.lookup_path]
    exact memcpy_take_of_le _ _ hlen hn
  stat := fun mode => by
    rw [Vars.lookup_path]
    exact stat_memcpy k mode

/-- The answer that an entry of the cache gives for the text in front of the cursor. -/
theorem wanted_of_lookup (hlen : len ≤ v.path.length) (hpos : 1 ≤ len)
    (hslash : v.path.take 1 = [ch '/']) (hsound : Sound k v.cache)
    (hfound : (Vars.lookup e start len mode { v with path := memcpy v.path len [0] }).1 = some b)
    (isDir : Bool) (hmode : mode ≠ .expand) :
    e.sizeLimit ≠ 0 ∧
      ∃ n, Resolves k mode isDir (v.path.take len) n (wanted isDir (b.realpath, b.isDir)) := by
  have hcopy := memcpy_take_of_le v.path [0] hlen (Nat.le_refl len)
  obtain ⟨hlimit, l, hl⟩ := resolves_of_lookup
    (v := { v with path := memcpy v.path len [0] }) hsound hfound (by
      rw [hcopy, take_take, Nat.min_eq_left hpos, hslash])
  rw [hcopy] at hl
  exact ⟨hlimit, hl.lenient.2 mode isDir hmode⟩

theorem take_long (hlen : len ≤ v.path.length) (hlong : ¬ len ≤ 1) :
    ¬ (v.path.take len).length ≤ 1 := by
  rwa [length_take_of_le hlen]

/-- `tsrm_realpath_r` on an absolute path. -/
theorem tsrmRealpathR_faithful (start len : Nat) (hstart : start = 1) (hmode : mode ≠ .expand)
    (hlen : len ≤ v.path.length) (hslash : v.path.take 1 = [ch '/']) (hsound : Sound k v.cache) :
    Faithful k e mode isDir (v.path.take len) v (tsrmRealpathR k e mode isDir start len v) := by
  subst hstart
  generalize hone : 1 = start
  fun_induction tsrmRealpathR k e mode isDir start len v
  case case1 hshort =>
    subst hone
    exact .root hsound hslash ((length_take_le _ _).trans hshort)
  case case2 mode isDir start len v hlong i hhere ih =>
    subst hone
    have hi : i ≤ len := nameStart_le v.path 1 len
    have htext := take_long hlen hlong
    have h := ih hmode (by omega) hslash hsound rfl
    exact .go h.sound (next_here htext (lastPart_here hlen hhere)) h rfl rfl (fun _ hshows => hshows) id
  case case3 mode isDir start len v hlong i hhere hup htop =>
    subst hone
    have htext := take_long hlen hlong
    have h : Faithful k e mode true (v.path.take (i - 1)) v ⟨.length 1, true, v⟩ :=
      .root hsound hslash ((length_take_le _ _).trans htop)
    exact .go (fun _ => hsound) (next_up htext (lastPart_up hlen hup)) h rfl rfl
      (fun _ hshows => hshows.dropDirectory) fun hret => by cases hret
  case case4 mode isDir start len v hlong i hhere hup htop ih =>
    subst hone
    have hi : i ≤ len := nameStart_le v.path 1 len
    have htext := take_long hlen hlong
    have h := ih hmode (by omega) hslash hsound rfl
    refine .go ?_ (next_up htext (lastPart_up hlen hup)) h rfl (dropDirectory_ll _ _)
      (fun _ hshows => hshows.dropDirectory) fun hret => ?_
    · rw [dropDirectory_cache, dropDirectory_ll]
      exact h.sound
    · rw [dropDirectory, hret]
  case case5 mode isDir start len v hlong i hhere hup found w bucket hfound hdir =>
    subst hone
    have hw : Looked k len v w := looked_lookup e 1 _ hlen hsound
    obtain ⟨hlimit, n, hn⟩ := wanted_of_lookup hlen (by omega) hslash hsound hfound isDir hmode
    rw [wanted, if_pos hdir] at hn
    exact ⟨fun _ => hw.sound, .inl ⟨n, none, hn, .error rfl⟩, fun hzero => absurd hzero hlimit⟩
  case case6 mode isDir start len v hlong i hhere hup found w bucket hfound hdir =>
    subst hone
    have hw : Looked k len v w := looked_lookup e 1 _ hlen hsound
    obtain ⟨hlimit, n, hn⟩ := wanted_of_lookup hlen (by omega) hslash hsound hfound isDir hmode
    rw [wanted, if_neg hdir] at hn
    exact ⟨fun _ => hw.sound, .inl ⟨n, _, hn, .length rfl (memcpy_zero_length _ _ _) (memcpy_zero_take _ _ _) rfl⟩,
      fun hzero => absurd hzero hlimit⟩
  case case7 isDir start len v hlong i hhere hup found w hfound hstat =>
    subst hone
    have hw : Looked k len v w := looked_lookup e 1 _ hlen hsound
    have htext := take_long hlen hlong
    refine .done hw.sound (next_missing htext (lastPart_name hlen hhere hup) ?_) (.error rfl)
      (congrArg List.length hw.ll)
    rwa [hw.stat] at hstat
  case case8 mode isDir start len v hlong i hhere hup tmp found w hfound hstat hreal htop =>
    subst hone
    have hw : Looked k len v w := looked_lookup e 1 _ hlen hsound
    have htext := take_long hlen hlong
    rw [hw.stat] at hstat
    have h : Faithful k e mode true (v.path.take (i - 1)) w ⟨.length 1, true, w⟩ :=
      .root hw.sound ((hw.take 1 (by omega)).trans hslash) ((length_take_le _ _).trans htop)
    exact .absent htext (lastPart_name hlen hhere hup) hstat hreal h hw.ll
  case case9 mode isDir start len v hlong i hhere hup tmp found w hfound hstat hreal htop ih =>
    subst hone
    have hi : i ≤ len := nameStart_le v.path 1 len
    have hw : Looked k len v w := looked_lookup e 1 _ hlen hsound
    have htext := take_long hlen hlong
    rw [hw.stat] at hstat
    have h := ih hmode (by have := hw.length; omega) ((hw.take 1 (by omega)).trans hslash) hw.sound
      rfl
    rw [hw.take (i - 1) (by omega)] at h
    exact .absent htext (lastPart_name hlen hhere hup) hstat hreal h hw.ll
  case case10 mode isDir start len v hlong i hhere hup tmp found w hfound hstat ll hmany =>
    subst hone
    have hw : Looked k len v w := looked_lookup e 1 _ hlen hsound
    have htext := take_long hlen hlong
    rw [hw.stat] at hstat
    rw [hw.ll] at hmany
    refine ⟨fun _ => hw.sound, .inr ⟨rfl, fun n result hres => ?_⟩, fun _ hfew => ?_⟩
    · have := hres.link_pos htext (lastPart_name hlen hhere hup) hstat
      omega
    · have hlen : ll.length = v.ll.length + 1 := congrArg (List.length · + 1) hw.ll
      have hfew : ll.length ≤ linkMax := hfew
      omega
  case case11 mode isDir start len v hlong i hhere hup tmp found w hfound hstat ll hmany hlink =>
    subst hone
    have hw : Looked k len v w := looked_lookup e 1 _ hlen hsound
    have htext := take_long hlen hlong
    rw [hw.stat] at hstat
    exact .done hw.sound (next_unreadable htext (lastPart_name hlen hhere hup) hstat hlink) (.error rfl)
      (congrArg (List.length · + 1) hw.ll)
  case case12 mode isDir start len v hlong i hhere hup tmp found w hfound hstat ll hmany target hlink
      habs ih =>
    subst hone
    have hw : Looked k len v w := looked_lookup e 1 _ hlen hsound
    have htext := take_long hlen hlong
    rw [hw.stat] at hstat
    have hroot : (v.path.take len).take 1 = [ch '/'] := by
      rw [take_take, Nat.min_eq_left (by omega), hslash]
    have hnext : next k mode isDir tmp = .go mode isDir target 1 id :=
      next_absolute htext (lastPart_name hlen hhere hup) hstat hlink habs
    have h := ih hmode (memcpy_zero_length _ _ _) (take_one_target _ habs) hw.sound rfl
    rw [show (memcpy w.path 0 (target ++ [0])).take target.length = target from
      memcpy_zero_take _ _ _] at h
    exact .link hmode hnext h (congrArg (List.length · + 1) hw.ll) fun hgood hmode =>
      hgood ⟨mode, tmp⟩ (ll_subset _ _ _ _ _ _ _ mem_cons_self) hmode hroot
  case case13 mode isDir start len v hlong i hhere hup tmp found w hfound hstat ll hmany target hlink
      habs hbig =>
    subst hone
    have hw : Looked k len v w := looked_lookup e 1 _ hlen hsound
    have htext := take_long hlen hlong
    rw [hw.stat] at hstat
    have hfront := front_length hlong hlen
    refine .done hw.sound (next_tooLong htext (lastPart_name hlen hhere hup) hstat hlink habs ?_)
      (.error rfl) (congrArg (List.length · + 1) hw.ll)
    rwa [hfront]
  case case14 mode isDir start len v hlong i hhere hup tmp found w hfound hstat ll hmany target hlink
      habs hbig hzero =>
    subst hone
    have hpos : 1 ≤ i := le_nameStart (by omega)
    omega
  case case15 mode isDir start len v hlong i hhere hup tmp found w hfound hstat ll hmany target hlink
      habs hbig hzero ih =>
    subst hone
    have hw : Looked k len v w := looked_lookup e 1 _ hlen hsound
    have htext := take_long hlen hlong
    rw [hw.stat] at hstat
    have hi : i ≤ len := nameStart_le v.path 1 len
    have hfront : (v.path.take (i - 1)).length + 1 = i := front_length hlong hlen
    have hroot : (v.path.take len).take 1 = [ch '/'] := by
      rw [take_take, Nat.min_eq_left (by omega), hslash]
    have hnext : next k mode isDir tmp =
        .go mode isDir (v.path.take (i - 1) ++ ch '/' :: target) 1 id :=
      next_relative htext (lastPart_name hlen hhere hup) hstat hlink habs (by rwa [hfront])
    have hbuf : tmp.take (i - 1) ++ ch '/' :: (target ++ [0]) =
        (v.path.take (i - 1) ++ ch '/' :: target) ++ [0] := by
      rw [show tmp.take (i - 1) = v.path.take (i - 1) from take_front hi, append_assoc]
      rfl
    have hlen' : (v.path.take (i - 1) ++ ch '/' :: target).length = i + target.length := by
      rw [length_append, length_cons]
      omega
    have hone : (v.path.take (i - 1) ++ ch '/' :: target).take 1 = [ch '/'] := by
      by_cases hi : i - 1 = 0
      · rw [hi]
        rfl
      · rw [take_append_of_le_length (by omega), take_take, Nat.min_eq_left (by omega), hslash]
    rw [hbuf] at ih ⊢
    have h := ih hmode (by rw [← hlen']; exact memcpy_zero_length _ _ _)
      ((memcpy_zero_take_of_le _ _ _ (by omega)).trans hone) hw.sound rfl
    rw [← hlen', memcpy_zero_take] at h
    rw [← hlen']
    exact .link hmode hnext h (congrArg (List.length · + 1) hw.ll) fun hgood hmode =>
      hgood ⟨mode, tmp⟩ (ll_subset _ _ _ _ _ _ _ mem_cons_self) hmode hroot
  case case16 mode isDir start len v hlong i hhere hup found w hfound type htype hstat hdir =>
    subst hone
    have hw : Looked k len v w := looked_lookup e 1 _ hlen hsound
    have htext := take_long hlen hlong
    rw [hw.stat] at hstat
    exact .done hw.sound
      (next_notDirectory htext (lastPart_name hlen hhere hup) hstat (fun he => htype he) hdir)
      (.error rfl) (congrArg List.length hw.ll)
  case case17 mode isDir start len v hlong i hhere hup tmp found w hfound type htype hstat hdir htop =>
    subst hone
    have hw : Looked k len v w := looked_lookup e 1 _ hlen hsound
    have htext := take_long hlen hlong
    rw [hw.stat] at hstat
    have h : Faithful k e .filepath true (v.path.take (i - 1)) w ⟨.length 1, true, w⟩ :=
      .root hw.sound ((hw.take 1 (by omega)).trans hslash) ((length_take_le _ _).trans htop)
    exact .entry htext (lastPart_name hlen hhere hup) hmode hstat (fun he => htype he) hdir h hw.ll
  case case18 mode isDir start len v hlong i hhere hup tmp found w hfound type htype hstat hdir htop
      ih =>
    subst hone
    have hi : i ≤ len := nameStart_le v.path 1 len
    have hw : Looked k len v w := looked_lookup e 1 _ hlen hsound
    have htext := take_long hlen hlong
    rw [hw.stat] at hstat
    have h := ih (by decide) (by have := hw.length; omega) ((hw.take 1 (by omega)).trans hslash)
      hw.sound rfl
    rw [hw.take (i - 1) (by omega)] at h
    exact .entry htext (lastPart_name hlen hhere hup) hmode hstat (fun he => htype he) hdir h hw.ll

/-- A call that does not begin at the root adds no entry for an absolute path itself. -/
theorem tsrmRealpathR_sound_of_not_root (start len : Nat) (hstart : start ≤ 1) (hmode : mode ≠ .expand)
    (hroot : ¬ (start = 1 ∧ v.path.take 1 = [ch '/'])) (hlen : len ≤ v.path.length)
    (hsound : Sound k v.cache)
    (hgood : Good k (tsrmRealpathR k e mode isDir start len v).vars.ll) :
    Sound k (tsrmRealpathR k e mode isDir start len v).vars.cache := by
  have hnot {start len : Nat} {v : Vars} (hstart : start ≤ 1) (hlong : ¬ len ≤ start)
      (hroot : ¬ (start = 1 ∧ v.path.take 1 = [ch '/'])) (hzero : start ≠ 0)
      (hslash : (v.path.take len).take 1 = [ch '/']) : False := by
    rw [take_take, Nat.min_eq_left (by omega)] at hslash
    exact hroot ⟨by omega, hslash⟩
  fun_induction tsrmRealpathR k e mode isDir start len v
  case case1 => exact hsound
  case case2 mode isDir start len v hlong i hhere ih =>
    have hi : i ≤ len := nameStart_le v.path start len
    exact ih hstart hmode hroot (by omega) hsound hgood
  case case3 => exact hsound
  case case4 mode isDir start len v hlong i hhere hup htop ih =>
    have hi : i ≤ len := nameStart_le v.path start len
    rw [dropDirectory_cache]
    exact ih hstart hmode hroot (by omega) hsound (by rwa [dropDirectory_ll] at hgood)
  case case5 => exact (looked_lookup e _ _ hlen hsound).sound
  case case6 => exact (looked_lookup e _ _ hlen hsound).sound
  case case7 => exact (looked_lookup e _ _ hlen hsound).sound
  case case8 =>
    rw [appendName_cache]
    exact (looked_lookup e _ _ hlen hsound).sound
  case case9 mode isDir start len v hlong i hhere hup tmp found w hfound hstat hreal htop ih =>
    have hi : i ≤ len := nameStart_le v.path start len
    have hw : Looked k len v w := looked_lookup e start _ hlen hsound
    rw [appendName_cache]
    refine ih hstart hmode ?_ (by have := hw.length; omega) hw.sound (by rwa [appendName_ll] at hgood)
    rwa [hw.take 1 (by omega)]
  case case10 => exact (looked_lookup e _ _ hlen hsound).sound
  case case11 => exact (looked_lookup e _ _ hlen hsound).sound
  case case12 mode isDir start len v hlong i hhere hup tmp found w hfound hstat ll hmany target hlink
      habs ih =>
    have hw : Looked k len v w := looked_lookup e start _ hlen hsound
    rw [remember_ll] at hgood
    refine sound_remember ?_ (fun hzero hslash => (hnot hstart hlong hroot hzero hslash).elim) true
    exact (tsrmRealpathR_faithful (v := { w with ll, path := memcpy w.path 0 (target ++ [0]) }) 1
      target.length rfl hmode (memcpy_zero_length _ _ _) (take_one_target _ habs) hw.sound).sound
      hgood
  case case13 => exact (looked_lookup e _ _ hlen hsound).sound
  case case14 => exact (looked_lookup e _ _ hlen hsound).sound
  case case15 mode isDir start len v hlong i hhere hup tmp found w hfound hstat ll hmany target hlink
      habs hbig hzero ih =>
    have hi : i ≤ len := nameStart_le v.path start len
    have hw : Looked k len v w := looked_lookup e start _ hlen hsound
    rw [remember_ll] at hgood
    refine sound_remember ?_ (fun hzero hslash => (hnot hstart hlong hroot hzero hslash).elim) true
    generalize hbuf : memcpy w.path 0 (tmp.take (i - 1) ++ ch '/' :: (target ++ [0])) = buf at *
    have hlen' : i + target.length ≤ buf.length := by
      have htmp : (tmp.take (i - 1)).length = i - 1 := by
        rw [take_front hi, length_take_of_le (by omega)]
      rw [← hbuf]
      refine Nat.le_trans ?_ (memcpy_length_le w.path _ (Nat.zero_le _))
      rw [length_append, length_cons, length_append, htmp]
      omega
    by_cases hsub : start = 1 ∧ buf.take 1 = [ch '/']
    · exact (tsrmRealpathR_faithful (v := { w with ll, path := buf }) start _ hsub.1 hmode hlen' hsub.2
        hw.sound).sound hgood
    · exact ih hstart hmode hsub hlen' hw.sound hgood
  case case16 => exact (looked_lookup e _ _ hlen hsound).sound
  case case17 mode isDir start len v hlong i hhere hup tmp found w hfound type htype hstat hdir htop =>
    refine sound_remember ?_ (fun hzero hslash => (hnot hstart hlong hroot hzero hslash).elim) true
    rw [appendName_cache]
    exact (looked_lookup e _ _ hlen hsound).sound
  case case18 mode isDir start len v hlong i hhere hup tmp found w hfound type htype hstat hdir htop
      ih =>
    have hi : i ≤ len := nameStart_le v.path start len
    have hw : Looked k len v w := looked_lookup e start _ hlen hsound
    rw [remember_ll, appendName_ll] at hgood
    refine sound_remember ?_ (fun hzero hslash => (hnot hstart hlong hroot hzero hslash).elim) true
    rw [appendName_cache]
    refine ih hstart nofun ?_ (by have := hw.length; omega) hw.sound hgood
    rwa [hw.take 1 (by omega)]

theorem tsrmRealpathR_sound (start len : Nat) (hstart : start ≤ 1) (hmode : mode ≠ .expand)
    (hlen : len ≤ v.path.length) (hsound : Sound k v.cache)
    (hgood : Good k (tsrmRealpathR k e mode isDir start len v).vars.ll) :
    Sound k (tsrmRealpathR k e mode isDir start len v).vars.cache := by
  by_cases hroot : start = 1 ∧ v.path.take 1 = [ch '/']
  · exact (tsrmRealpathR_faithful start len hroot.1 hmode hlen hroot.2 hsound).sound hgood
  · exact tsrmRealpathR_sound_of_not_root start len hstart hmode hroot hlen hsound hgood

/-! ## 4. Calls of `virtual_file_ex` -/

/-- A call: the settings, the memory of its buffer, and its arguments. -/
structure Call where
  settings : Settings
  stack : List UInt8
  cwd : List UInt8
  path : List UInt8
  verifyPath : Option (List UInt8 → Bool)
  mode : Mode

/-- What a call does with the cache as it is. -/
def Call.run (k : Kernel) (c : Call) (cache : Cache) : Option Outcome :=
  virtualFileEx k c.settings c.stack c.cwd c.path c.verifyPath c.mode cache

/-- What it does with no cache. -/
def Call.runUncached (k : Kernel) (c : Call) : Option Outcome :=
  virtualFileEx k { c.settings with sizeLimit := 0 } c.stack c.cwd c.path c.verifyPath c.mode .empty

/-- The links that the call follows in `CWD_FILEPATH` mode lead to files that exist. -/
def Call.NoDanglingLink (k : Kernel) (cache : Cache) (c : Call) : Prop :=
  ∀ o, c.run k cache = some o → Good k o.ll

/-- The earlier calls, one after the other. -/
def cacheStep (k : Kernel) (cache : Cache) (c : Call) : Option Cache :=
  (c.run k cache).map Outcome.cache

variable {cwd path : List UInt8} {verifyPath : Option (List UInt8 → Bool)} {o : Outcome}

theorem finish_cache (h : r.finish cwd path verifyPath mode = some o) :
    o.cache = r.vars.cache ∧ o.ll = r.vars.ll := by
  rw [Resolved.finish] at h
  split at h
  · exact nomatch h
  · rw [← Option.some.inj h]
    exact ⟨rfl, rfl⟩
  · rw [← Option.some.inj h]
    exact ⟨rfl, rfl⟩

theorem finish_answer (h : Shows r result) (h' : Shows r' result) :
    (r.finish cwd path verifyPath mode).map Outcome.answer =
      (r'.finish cwd path verifyPath mode).map Outcome.answer := by
  cases h with
  | error hret =>
    cases h' with
    | error hret' =>
      rw [Resolved.finish, Resolved.finish, hret, hret']
      rfl
  | length hret hj hpath =>
    cases h' with
    | length hret' hj' hpath' =>
      rw [Resolved.finish, Resolved.finish, hret, hret']
      dsimp only
      rw [hpath, hpath']
      rfl

theorem Faithful.finish (h : Faithful k e mode isDir text v r) :
    ∃ o, r.finish cwd path verifyPath mode = some o := by
  rw [Resolved.finish]
  rcases h.result with ⟨n, result, -, hshows⟩ | ⟨hret, -⟩
  · cases hshows with
    | length hret =>
      rw [hret]
      exact ⟨_, rfl⟩
    | error hret =>
      rw [hret]
      exact ⟨_, rfl⟩
  · rw [hret]
    exact ⟨_, rfl⟩

theorem Faithful.shows (h : Faithful k e mode isDir text v r)
    (hres : Resolves k mode isDir text n result) (hn : v.ll.length + n ≤ linkMax)
    : Shows r result := by
  rcases h.result with ⟨n', result', hres', hshows⟩ | ⟨-, hmany⟩
  · rwa [(hres.unique hres').2]
  · have := hmany n result hres
    omega

theorem virtualFileEx_sound {c : Call} {cache : Cache} (hsound : Sound k cache)
    (hmode : c.mode ≠ .expand) (hgood : c.NoDanglingLink k cache) (ho : c.run k cache = some o) :
    Sound k o.cache := by
  have hgood := hgood o ho
  rw [Call.run, virtualFileEx] at ho
  split at ho
  · obtain ⟨hcache, hll⟩ := finish_cache ho
    rw [hll] at hgood
    rw [hcache]
    refine tsrmRealpathR_sound _ _ ?_ hmode (memcpy_zero_length _ _ _) hsound hgood
    rw [startOf]
    split <;> decide
  · rw [← Option.some.inj ho]
    exact hsound

/-- On an absolute path the answer is what the path is resolved to, whatever the cache holds. -/
theorem virtualFileEx_absolute {c : Call} {cache : Cache} (hsound : Sound k cache)
    (hmode : c.mode ≠ .expand) (hslash : c.path.headD 0 = ch '/')
    (hlinks : ∀ o, c.runUncached k = some o → o.ll.length < linkMax) :
    (c.run k cache).map Outcome.answer = (c.runUncached k).map Outcome.answer := by
  rw [Call.run, Call.runUncached, virtualFileEx, virtualFileEx]
  rw [Call.runUncached, virtualFileEx] at hlinks
  by_cases hfits : Fits c.cwd c.path
  swap
  · rw [if_neg hfits, if_neg hfits]
    rfl
  rw [if_pos hfits] at hlinks ⊢
  rw [if_pos hfits]
  have hstart : startOf c.cwd c.path = 1 := if_neg fun hrel => hrel.1 hslash
  have hfull : fullPath c.cwd c.path = c.path := if_neg fun hrel => hrel.1 hslash
  have hroot : (memcpy c.stack 0 (c.path ++ [0])).take 1 = [ch '/'] := by
    refine take_one_target _ ?_
    rwa [List.headD_eq_head?_getD, List.head?_eq_getElem?, ← List.getD_eq_getElem?_getD] at hslash
  rw [hstart, hfull] at hlinks ⊢
  dsimp only at hlinks ⊢
  have hcall (e : Settings) {cache : Cache} (hsound : Sound k cache) (t : Int) :
      Faithful k e c.mode false ((memcpy c.stack 0 (c.path ++ [0])).take c.path.length)
        ⟨memcpy c.stack 0 (c.path ++ [0]), [], t, 0, cache⟩
        (tsrmRealpathR k e c.mode false 1 c.path.length
          ⟨memcpy c.stack 0 (c.path ++ [0]), [], t, 0, cache⟩) :=
    tsrmRealpathR_faithful (v := ⟨memcpy c.stack 0 (c.path ++ [0]), [], t, 0, cache⟩) 1 c.path.length
      rfl hmode (memcpy_zero_length _ _ _) hroot hsound
  have hcached := hcall c.settings hsound (if c.settings.ttl ≠ 0 then 0 else -1)
  have huncached := hcall { c.settings with sizeLimit := 0 } (sound_empty k)
    (if c.settings.ttl ≠ 0 then 0 else -1)
  obtain ⟨o, ho⟩ : ∃ o, Resolved.finish c.cwd c.path c.verifyPath c.mode _ = some o :=
    huncached.finish
  have hfew := hlinks o ho
  rw [(finish_cache ho).2] at hfew
  obtain ⟨n, result, hres, hn⟩ := huncached.uncached rfl (Nat.le_of_lt hfew)
  rw [hn] at hfew
  rw [memcpy_zero_take] at hcached huncached hres
  exact finish_answer (hcached.shows hres (Nat.le_of_lt hfew))
    (huncached.shows hres (Nat.le_of_lt hfew))

/-- The realpath cache is transparent behind every run of calls none of which has followed a link to a
file that does not exist. -/
theorem realpathCache_transparent {k : Kernel} {calls : List Call} {cache : Cache}
    (h : Run (cacheStep k) (fun cache c => c.mode ≠ .expand ∧ c.NoDanglingLink k cache) .empty calls
      cache)
    {c : Call} (hmode : c.mode ≠ .expand) (hslash : c.path.headD 0 = ch '/')
    (hlinks : ∀ o, c.runUncached k = some o → o.ll.length < linkMax) :
    (c.run k cache).map Outcome.answer = (c.runUncached k).map Outcome.answer := by
  refine virtualFileEx_absolute ?_ hmode hslash hlinks
  refine h.invariant (sound_empty k) fun cache c cache' hsound hok hstep => ?_
  obtain ⟨o, ho, rfl⟩ := Option.map_eq_some_iff.mp hstep
  exact virtualFileEx_sound hsound hok.1 hok.2 ho

/-! Two links: `/k` leads to the directory `/d`, `/l` to `/m`, which does not exist. -/

def bytes (s : String) : List UInt8 := s.toList.map ch

def twoLinks : Kernel where
  lstat path :=
    if path = bytes "/k" ∨ path = bytes "/l" then some .link
    else if path = bytes "/d" then some .directory
    else if path = bytes "/d/x" ∨ path = bytes "/k/x" then some .regular
    else none
  readlink path :=
    if path = bytes "/k" then some (bytes "/d") else if path = bytes "/l" then some (bytes "/m") else none
  readlink_length path target h := by
    split at h
    · obtain rfl := Option.some.inj h
      decide
    · split at h
      · obtain rfl := Option.some.inj h
        decide
      · exact nomatch h

/-- A call with the default size of the cache. -/
def callFor (mode : Mode) (path : String) : Call where
  settings := { ttl := 120, sizeLimit := 16384, time := fun _ => 1000 }
  stack := []
  cwd := []
  path := bytes path
  verifyPath := none
  mode

theorem exists_k : Exists twoLinks (bytes "/k") := by
  have hlink : next twoLinks .realpath false (bytes "/k") = .go .realpath false (bytes "/d") 1 id := rfl
  have hdir : next twoLinks .realpath false (bytes "/d") =
      .go .filepath true [] 0 (append (bytes "d") true) := rfl
  have hroot : Resolves twoLinks .filepath true [] 0 (some (bytes "/", true)) := .done rfl
  exact ⟨_, (bytes "/d", true), .go hlink (.go hdir hroot)⟩

theorem realpathCache_transparent_link :
    ∃ o, (callFor .filepath "/k/x").run twoLinks .empty = some o ∧
      ((callFor .realpath "/k/x").run twoLinks o.cache).map Outcome.answer =
        ((callFor .realpath "/k/x").runUncached twoLinks).map Outcome.answer := by
  have hll : ((callFor .filepath "/k/x").run twoLinks .empty).map Outcome.ll =
      some [⟨.filepath, bytes "/k"⟩] := by decide +kernel
  have huncached : ((callFor .realpath "/k/x").runUncached twoLinks).map Outcome.ll =
      some [⟨.filepath, bytes "/k"⟩] := by decide +kernel
  obtain ⟨o, ho, hlinks⟩ := Option.map_eq_some_iff.mp hll
  have hgood : Good twoLinks o.ll := by
    intro f hf _ _
    rw [hlinks, mem_singleton] at hf
    subst hf
    exact exists_k
  have hmode (mode : Mode) (hmode : mode ≠ .expand) : (callFor mode "/k/x").mode ≠ .expand := hmode
  have hrun : Run (cacheStep twoLinks)
      (fun cache c => c.mode ≠ .expand ∧ c.NoDanglingLink twoLinks cache) .empty
      ([] ++ [callFor .filepath "/k/x"]) o.cache := by
    refine .snoc (.nil _) ⟨hmode .filepath (by decide), fun o' ho' => ?_⟩ (by rw [cacheStep, ho]; rfl)
    obtain rfl := Option.some.inj (ho.symm.trans ho')
    exact hgood
  refine ⟨o, ho, realpathCache_transparent hrun (hmode .realpath (by decide)) rfl fun o' ho' => ?_⟩
  rw [ho', Option.map_some] at huncached
  rw [Option.some.inj huncached]
  decide

/-- What `CWD_FILEPATH` makes of a link to a file that does not exist goes to the cache, where
`CWD_REALPATH` finds it. -/
theorem dangling_link_cached :
    ((callFor .filepath "/l").run twoLinks .empty).bind (fun o =>
        ((callFor .realpath "/l").run twoLinks o.cache).map Outcome.answer) = some (0, bytes "/m") ∧
      ((callFor .realpath "/l").runUncached twoLinks).map Outcome.answer = some (1, []) ∧
      ((callFor .realpath "/l").runUncached twoLinks).map (fun o => o.ll.length) = some 1 := by
  decide +kernel

end Php53.TSRM
