import Php53.Reasoning.Search
import Php53.Streams.Buffer

/-!
# Delimiter — the search for a delimiter in the read buffer

`zend_memnstr` jumps from one occurrence of the first byte to the next one and compares the last byte
before it compares the others.
-/

namespace Php53.Streams

open Reasoning List

namespace PhpStream

variable {hay l needle : List UInt8}

theorem memchr_eq (c : UInt8) (l : List UInt8) : memchr c l = search [c] l := by
  unfold memchr
  induction l with
  | nil => rfl
  | cons a l ih =>
    rw [List.findIdx?_cons, search, ih]
    by_cases h : a = c
    · simp [h]
    · have hpre : ([c].isPrefixOf (a :: l)) = false := by simp [isPrefixOf, Ne.symm h]
      rw [hpre]
      simp [h]

theorem occursAt_singleton {c : UInt8} {i : Nat} :
    OccursAt [c] l i ↔ l[i]? = some c := by
  unfold OccursAt
  rw [← List.head?_drop]
  cases l.drop i with
  | nil => simp
  | cons a l' => simp [eq_comm]

theorem occursAt_head {c : UInt8} {word : List UInt8} {i : Nat} (h : OccursAt (c :: word) l i) :
    OccursAt [c] l i := by
  unfold OccursAt at h ⊢
  exact (prefix_append [c] word).trans h

theorem concat_prefix_iff {init : List UInt8} {z : UInt8} :
    init ++ [z] <+: l ↔ l.take init.length = init ∧ l[init.length]? = some z := by
  constructor
  · rintro ⟨t, rfl⟩
    simp
  · intro ⟨htake, hlast⟩
    rw [← List.head?_drop] at hlast
    obtain ⟨t, ht⟩ : ∃ t, l.drop init.length = z :: t := by
      cases hd : l.drop init.length with
      | nil => rw [hd] at hlast; exact nomatch hlast
      | cons a t =>
        rw [hd] at hlast
        obtain rfl := Option.some.inj hlast
        exact ⟨t, rfl⟩
    refine ⟨t, ?_⟩
    have hsplit := take_append_drop init.length l
    rw [htake, ht] at hsplit
    simpa using hsplit

theorem memnstr_match {p : Nat} (hneedle : needle ≠ []) :
    hay[p + needle.length - 1]? = needle.getLast? ∧
        (hay.drop p).take (needle.length - 1) = needle.take (needle.length - 1) ↔
      OccursAt needle hay p := by
  obtain ⟨init, z, hconcat⟩ := (eq_nil_or_concat needle).resolve_left hneedle
  rw [concat_eq_append] at hconcat
  subst hconcat
  unfold OccursAt
  rw [concat_prefix_iff]
  have hlast : (hay.drop p)[init.length]? = hay[p + (init ++ [z]).length - 1]? := by
    rw [List.getElem?_drop, length_append, length_singleton, Nat.add_sub_assoc (by omega)]
    rfl
  rw [hlast]
  simp [and_comm]

theorem memnstrLoop_eq (hneedle : needle ≠ []) (fuel p : Nat) (hfuel : hay.length < p + fuel) :
    memnstrLoop needle hay fuel p = (search needle (hay.drop p)).map (p + ·) := by
  have hlen := length_pos_of_ne_nil hneedle
  induction fuel generalizing p with
  | zero =>
    rw [drop_eq_nil_of_le (by omega)]
    rfl
  | succ fuel ih =>
    rw [memnstrLoop]
    -- an occurrence ends before the end of the haystack
    have hends : ∀ i, OccursAt needle (hay.drop p) i → i + needle.length ≤ hay.length - p := by
      intro i hi
      have hle := hi.length_le (Nat.le_of_lt (hi.lt_length hneedle))
      rwa [length_drop] at hle
    by_cases hp : p + needle.length ≤ hay.length
    · rw [if_pos hp]
      obtain ⟨c, word, rfl⟩ := exists_cons_of_ne_nil hneedle
      generalize hw : (hay.drop p).take (hay.length - (c :: word).length - p + 1) = w
      -- every occurrence begins in `w`
      have hbegins : ∀ i, OccursAt (c :: word) (hay.drop p) i → OccursAt [c] w i := by
        intro i hi
        have hi' := hends i hi
        have hhead := occursAt_singleton.mp (occursAt_head hi)
        rw [occursAt_singleton, ← hw, List.getElem?_take, if_pos (by omega)]
        exact hhead
      rw [headD_cons, memchr_eq]
      cases hq : search [c] w with
      | none =>
        have hnone : search (c :: word) (hay.drop p) = none :=
          search_of_none fun i hi => search_eq_none (by simp) hq i (hbegins i hi)
        rw [hnone]
        rfl
      | some q =>
        obtain ⟨-, -, hfirst⟩ := search_eq_some hq
        have hbefore : ∀ j < q, ¬ OccursAt (c :: word) (hay.drop p) j :=
          fun j hj hocc => hfirst j hj (hbegins j hocc)
        show (if _ then _ else _) = _
        by_cases hocc : OccursAt (c :: word) hay (p + q)
        · rw [if_pos ((memnstr_match hneedle).mpr hocc), search_of_first hneedle (occursAt_drop.mpr hocc) hbefore]
          rfl
        · rw [if_neg fun hm => hocc ((memnstr_match hneedle).mp hm), ih (p + q + 1) (by omega)]
          have hskip : ∀ j < q + 1, ¬ OccursAt (c :: word) (hay.drop p) j := by
            intro j hj
            rcases Nat.lt_succ_iff_lt_or_eq.mp hj with hlt | rfl
            · exact hbefore j hlt
            · exact fun h => hocc (occursAt_drop.mp h)
          rw [← search_drop hneedle hskip, drop_drop, Option.map_map]
          congr 1
          funext x
          simp only [Function.comp_apply]
          omega
    · rw [if_neg hp]
      have hnone : search needle (hay.drop p) = none :=
        search_of_none fun i hi => by
          have hi' := hends i hi
          omega
      rw [hnone]
      rfl

theorem memnstr_eq (hneedle : needle ≠ []) :
    memnstr needle hay = search needle hay := by
  unfold memnstr
  by_cases hone : needle.length = 1
  · obtain ⟨c, rfl⟩ := length_eq_one_iff.mp hone
    rw [if_pos hone]
    exact memchr_eq c hay
  · rw [if_neg hone, memnstrLoop_eq hneedle _ _ (by omega), drop_zero]
    simp

variable {F : Type} {s : PhpStream F}

theorem Fits.searchDelim (h : s.Fits) {maxlen skiplen : Nat} {delim : List UInt8}
    (hdelim : delim ≠ []) :
    s.searchDelim maxlen skiplen delim =
      (search delim ((s.buffered.take maxlen).drop skiplen)).map (skiplen + ·) := by
  have hlen := h.length_buffered
  unfold PhpStream.searchDelim
  by_cases hskip : min s.avail maxlen ≤ skiplen
  · have hnil : (s.buffered.take maxlen).drop skiplen = [] := by
      apply drop_eq_nil_of_le
      rw [length_take]
      omega
    rw [if_pos hskip, hnil]
    rfl
  · rw [if_neg hskip]
    -- the bytes that are searched are those of the buffer
    have hhay : (s.readbuf.drop (s.readpos + skiplen)).take (min s.avail maxlen - skiplen) =
        (s.buffered.take maxlen).drop skiplen := by
      unfold buffered window avail
      rw [take_take, drop_take, drop_drop, Nat.min_comm]
    dsimp only
    rw [hhay]
    congr 1
    by_cases hone : delim.length = 1
    · obtain ⟨c, rfl⟩ := length_eq_one_iff.mp hone
      exact memchr_eq c _
    · rw [if_neg hone]
      exact memnstr_eq hdelim

end PhpStream

end Php53.Streams
