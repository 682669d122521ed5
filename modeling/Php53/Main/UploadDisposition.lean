import Php53.Main.MultipartFields
import Php53.Standard.StripPieces

/-!
# UploadDisposition — the two names of a file

A quoted string that ends with a backslash does not end at its quote: the scanners take the escaped
backslash for the escape of the quote.  A word that is too long is never made up for by the words
behind it, as every value has fewer equals signs than the text from which it is read.
-/

open Reasoning

namespace Php53.Main

open Zend
open Standard (Ctype)
open List

variable {t : Ctype}

variable {stop : UInt8} {name : List UInt8}

def quoted (name : List UInt8) : List UInt8 := 34 :: (quoteName name ++ [34])

def uploadDisposition (name filename : List UInt8) : List UInt8 :=
  str "form-data; name=" ++ quoted name ++ (str "; filename=" ++ quoted filename)

theorem substringConf_sublist (quote : UInt8) (s : List UInt8) (len : Nat) :
    (substringConf quote s len).Sublist s := by
  induction s, len using substringConf.induct quote with
  | case1 => simp [substringConf]
  | case2 => simp [substringConf]
  | case3 => simp [substringConf]
  | case4 c d s len h ih =>
    rw [substringConf, if_pos h]
    exact (ih.cons_cons d).cons c
  | case5 c d s len h ih =>
    rw [substringConf, if_neg h]
    exact ih.cons_cons c

theorem phpApGetwordConf_sublist (isspace : UInt8 → Bool) (line : List UInt8) :
    (phpApGetwordConf isspace line).1.Sublist line := by
  have hskip := dropWhile_sublist (l := line) isspace
  unfold phpApGetwordConf
  cases hline : line.dropWhile isspace with
  | nil => exact nil_sublist line
  | cons quote s =>
    rw [hline] at hskip
    dsimp only
    split
    · exact (substringConf_sublist _ _ _).trans ((sublist_cons_self quote s).trans hskip)
    · exact (substringConf_sublist _ _ _).trans hskip

theorem drop_wordLength (stop : UInt8) (quote : Option UInt8) (s : List UInt8) :
    ∀ c ∈ (s.drop (wordLength stop quote s)).head?, c = stop := by
  fun_induction wordLength stop quote s <;> simp_all

theorem phpApGetword_eq (line : List UInt8) (stop : UInt8) :
    phpApGetword line stop = (line.take (wordLength stop none line),
      (line.drop (wordLength stop none line)).dropWhile (· = stop)) := by
  unfold phpApGetword
  dsimp only
  split
  · next h => rw [h, take_length, drop_length, dropWhile_nil]
  · rfl

theorem count_phpApGetword {line : List UInt8} (h : stop ∈ line) :
    (phpApGetword line stop).2.count stop < line.count stop := by
  rw [phpApGetword_eq]
  dsimp only
  have hsplit := take_append_drop (wordLength stop none line) line
  have hhead := drop_wordLength stop none line
  have hpos := count_pos_iff.mpr h
  generalize line.drop (wordLength stop none line) = rest at hsplit hhead
  have hcount := congrArg (count stop) hsplit
  rw [count_append] at hcount
  cases rest with
  | nil => exact hpos
  | cons c rest =>
    have hc := hhead c rfl
    rw [hc, count_cons_self] at hcount
    rw [hc, dropWhile_cons_of_pos (by simp)]
    have hle := (dropWhile_sublist (l := rest) (· = stop)).count_le stop
    omega

theorem dispositionLoop_count {n : Nat} (fuel : Nat) (cd : List UInt8) (found : Disposition)
    (hcd : cd.count (ch '=') ≤ n) (hfound : ∀ v ∈ found.2, v.count (ch '=') < n) :
    ∀ v ∈ (dispositionLoop t fuel cd found).2, v.count (ch '=') < n := by
  induction fuel generalizing cd found with
  | zero => exact hfound
  | succ fuel ih =>
    have ⟨param, filename⟩ := found
    rw [dispositionLoop]
    split
    · exact hfound
    · have hpair : (phpApGetword cd (ch ';')).1.count (ch '=') ≤ n := by
        rw [phpApGetword_eq]
        exact ((take_sublist _ _).count_le _).trans hcd
      have hrest : ((phpApGetword cd (ch ';')).2.dropWhile t.isspace).count (ch '=') ≤ n := by
        rw [phpApGetword_eq]
        have hsub := (dropWhile_sublist (l := (cd.drop (wordLength (ch ';') none cd)).dropWhile
          (· = ch ';')) t.isspace).trans ((dropWhile_sublist _).trans (drop_sublist _ cd))
        exact (hsub.count_le _).trans hcd
      generalize phpApGetword cd (ch ';') = word at hpair hrest ⊢
      dsimp only
      split
      · next heq =>
        have hvalue : (phpApGetwordConf t.isspace
            (phpApGetword word.1 (ch '=')).2).1.count (ch '=') < n := by
          have hle := (phpApGetwordConf_sublist t.isspace
            (phpApGetword word.1 (ch '=')).2).count_le (ch '=')
          have hlt := count_phpApGetword heq
          omega
        split
        · exact ih _ _ hrest hfound
        · split
          · apply ih _ _ hrest
            intro v hv
            rw [← Option.some.inj hv]
            exact hvalue
          · exact ih _ _ hrest hfound
      · exact ih _ _ hrest hfound

theorem str_filename_pieces : str "; filename=" = ch ';' :: ch ' ' :: str "filename=" ∧
    str "filename=" = str "filename" ++ [ch '='] := by decide +kernel

theorem strcaseeq_filename : strcaseeq t (str "filename") (str "name") = false := by
  unfold strcaseeq
  rw [decide_eq_false_iff_not]
  intro h
  have hlen := congrArg List.length h
  rw [length_map, length_map] at hlen
  exact absurd hlen (by decide +kernel)

theorem count_quoteName (name : List UInt8) :
    (quoteName name).count (ch '=') = name.count (ch '=') := by
  induction name with
  | nil => rfl
  | cons c name ih =>
    have hescape : ∀ d, (if d = 34 ∨ d = 92 then [92, d] else [d]).count (ch '=') =
        [d].count (ch '=') := by
      intro d
      split
      · exact count_cons_of_ne (by decide)
      · rfl
    rw [quoteName_cons, count_append, ih, hescape, ← count_append, singleton_append]

theorem quoteName_hidden (hend : name.getLast? = some 92) :
    ∃ before, quoteName name = quoteName before ++ [92, 92] := by
  have ⟨before, hname⟩ := List.getLast?_eq_some_iff.mp hend
  refine ⟨before, ?_⟩
  rw [hname, quoteName, flatMap_append]
  rfl

theorem wordLength_hidden (hend : name.getLast? = some 92) (rest : List UInt8)
    : wordLength stop (some 34) (quoteName name ++ 34 :: rest) =
      (quoteName name).length + 1 + wordLength stop (some 34) rest := by
  have ⟨before, hname⟩ := quoteName_hidden hend
  rw [hname, append_assoc, length_append]
  show wordLength stop (some 34) (quoteName before ++ 92 :: 92 :: 34 :: rest) =
    (quoteName before).length + 2 + 1 + wordLength stop (some 34) rest
  rw [wordLength_quoteName (fun h => absurd h (by decide)), wordLength, if_neg (by decide),
    if_neg (by decide), wordLength, if_neg (by decide), if_pos (by decide)]
  omega

theorem quotedLength_hidden (hend : name.getLast? = some 92) (rest : List UInt8)
    : quotedLength 34 (quoteName name ++ 34 :: rest) =
      (quoteName name).length + 1 + quotedLength 34 rest := by
  have ⟨before, hname⟩ := quoteName_hidden hend
  rw [hname, append_assoc, length_append]
  show quotedLength 34 (quoteName before ++ 92 :: 92 :: 34 :: rest) =
    (quoteName before).length + 2 + 1 + quotedLength 34 rest
  rw [quotedLength_quoteName (fun h => absurd h (by decide)), quotedLength, if_neg (by decide),
    if_neg (by decide), quotedLength, if_neg (by decide), if_pos (by decide)]
  omega

theorem phpApGetwordConf_quoted (name : List UInt8) :
    (phpApGetwordConf t.isspace (quoted name)).1 =
      name ++ if name.getLast? = some 92 then [34] else [] := by
  by_cases hend : name.getLast? = some 92
  · rw [if_pos hend]
    unfold phpApGetwordConf quoted
    rw [dropWhile_isspace (by decide) (by decide)]
    dsimp only
    rw [if_pos (Or.inl rfl), quotedLength_hidden hend]
    exact substringConf_quoteName_append name 34 [] 1
  · rw [if_neg hend, List.append_nil]
    exact phpApGetwordConf_quoteName hend

theorem phpApGetword_quoted {word : List UInt8}
    (h : (word.all fun c => c ≠ stop ∧ c ≠ 34 ∧ c ≠ 39) = true) (hstop : stop ≠ 34)
    (name : List UInt8) : phpApGetword (word ++ quoted name) stop = (word ++ quoted name, []) := by
  have hlen : wordLength stop none (word ++ quoted name) = (word ++ quoted name).length := by
    have hquoted : wordLength stop (some 34) (quoteName name ++ [34]) =
        (quoteName name).length + 1 := by
      by_cases hend : name.getLast? = some 92
      · rw [wordLength_hidden hend, wordLength]
      · rw [wordLength_quoteName fun _ => hend, wordLength]
    unfold quoted
    rw [wordLength_append h, wordLength, if_neg hstop.symm, if_pos (Or.inl rfl), hquoted]
    simp
  unfold phpApGetword
  rw [hlen]
  exact if_pos rfl

theorem dispositionLoop_name (fuel : Nat) {cd pair rest s : List UInt8} {found : Disposition}
    (hword : phpApGetword cd (ch ';') = (pair, rest)) (hpair : pair = str "name=" ++ 34 :: s) :
    dispositionLoop t (fuel + 1) cd found =
      dispositionLoop t fuel (rest.dropWhile t.isspace)
        (some (phpApGetwordConf t.isspace (34 :: s)).1, found.2) := by
  have ⟨param, filename⟩ := found
  have hne : cd ≠ [] := by
    rintro rfl
    have hnil : pair = [] := congrArg Prod.fst hword.symm
    rw [hnil] at hpair
    exact absurd hpair.symm (by simp)
  have hkey : phpApGetword pair (ch '=') = (str "name", 34 :: s) := by
    rw [hpair, str_formData_pieces.2.2, append_assoc, singleton_append]
    apply phpApGetword_stop <;> decide
  have heq : ch '=' ∈ pair := by
    rw [hpair]
    exact mem_append_left _ (by decide)
  rw [dispositionLoop, if_neg hne, hword]
  dsimp only
  rw [if_pos heq, hkey]
  dsimp only
  rw [if_pos (strcaseeq_self t _)]

theorem dispositionLoop_filename (fuel : Nat) (param : Option (List UInt8)) (name : List UInt8) :
    dispositionLoop t (fuel + 1) (str "filename=" ++ quoted name) (param, none) =
      (param, some (name ++ if name.getLast? = some 92 then [34] else [])) := by
  have hword : phpApGetword (str "filename=" ++ quoted name) (ch ';') =
      (str "filename=" ++ quoted name, []) := by
    apply phpApGetword_quoted <;> decide
  have hkey : phpApGetword (str "filename=" ++ quoted name) (ch '=') =
      (str "filename", quoted name) := by
    rw [str_filename_pieces.2, append_assoc, singleton_append]
    apply phpApGetword_stop <;> decide
  have heq : ch '=' ∈ str "filename=" ++ quoted name := mem_append_left _ (by decide)
  have hdone : ∀ fuel found, dispositionLoop t fuel [] found = found := by
    intro fuel found
    cases fuel with
    | zero => rfl
    | succ fuel => rfl
  rw [dispositionLoop, if_neg (ne_nil_of_mem heq), hword]
  dsimp only
  rw [if_pos heq, hkey]
  dsimp only
  rw [strcaseeq_filename, if_neg (by decide), if_pos (strcaseeq_self t _), phpApGetwordConf_quoted]
  exact hdone fuel _

theorem contentDisposition_upload (name filename : List UInt8) :
    ∃ fuel, contentDisposition t (uploadDisposition name filename) =
      dispositionLoop t (fuel + 2)
        (str "name=" ++ 34 :: (quoteName name ++ 34 :: (str "; filename=" ++ quoted filename)))
        (none, none) := by
  generalize hpair : str "name=" ++ 34 ::
    (quoteName name ++ 34 :: (str "; filename=" ++ quoted filename)) = pair
  have hspace : t.isspace (ch ' ') = true := t.isspace_ascii 32 (by decide)
  have hvalue : uploadDisposition name filename = str "form-data" ++ ch ';' :: ch ' ' :: pair := by
    rw [← hpair, uploadDisposition, str_formData_pieces.1, quoted]
    simp only [append_assoc, cons_append, nil_append]
  have hskip : (uploadDisposition name filename).dropWhile t.isspace =
      uploadDisposition name filename := by
    rw [uploadDisposition, str_formData_pieces.2.1, cons_append, cons_append]
    exact dropWhile_isspace (by decide) (by decide) _
  have hfirst : phpApGetword (uploadDisposition name filename) (ch ';') =
      (str "form-data", ch ' ' :: pair) := by
    rw [hvalue]
    apply phpApGetword_stop <;> decide
  have hcd : (ch ' ' :: pair).dropWhile t.isspace = pair := by
    rw [dropWhile_cons_of_pos hspace, ← hpair]
    exact dropWhile_isspace (by decide) (by decide) _
  have hrounds : (uploadDisposition name filename).length = (pair.length + 8) + 2 + 1 := by
    rw [hvalue, length_append, length_cons, length_cons]
    show 9 + (pair.length + 1 + 1) = _
    omega
  refine ⟨pair.length + 8, ?_⟩
  unfold contentDisposition
  dsimp only
  rw [hskip, hrounds, dispositionLoop, if_neg (by simp [hvalue]), hfirst]
  dsimp only
  rw [hcd, if_neg (by decide)]

theorem contentDisposition_closed (hend : name.getLast? ≠ some 92) (filename : List UInt8)
    : contentDisposition t (uploadDisposition name filename) =
      (some name, some (filename ++ if filename.getLast? = some 92 then [34] else [])) := by
  have ⟨fuel, hheader⟩ := contentDisposition_upload (t := t) name filename
  have hspace : t.isspace (ch ' ') = true := t.isspace_ascii 32 (by decide)
  have hlen : wordLength (ch ';') none
      (str "name=" ++ 34 :: (quoteName name ++ 34 :: (str "; filename=" ++ quoted filename))) =
        (str "name=" ++ quoted name).length := by
    rw [wordLength_append (by decide), wordLength, if_neg (by decide), if_pos (Or.inl rfl),
      wordLength_quoteName fun _ => hend, str_filename_pieces.1, cons_append, wordLength,
      if_pos rfl, wordLength, if_pos rfl, length_append]
    simp [quoted]
  have hsplit : str "name=" ++ 34 ::
      (quoteName name ++ 34 :: (str "; filename=" ++ quoted filename)) = (str "name=" ++ quoted name) ++ ch ';' :: ch ' ' :: (str "filename=" ++ quoted filename) := by
    rw [str_filename_pieces.1]
    simp only [quoted, append_assoc, cons_append, nil_append]
  have hword : phpApGetword
      (str "name=" ++ 34 :: (quoteName name ++ 34 :: (str "; filename=" ++ quoted filename)))
      (ch ';') = (str "name=" ++ quoted name, ch ' ' :: (str "filename=" ++ quoted filename)) := by
    rw [phpApGetword_eq, hlen, hsplit, take_left, drop_left,
      dropWhile_cons_of_pos (by simp), dropWhile_cons_of_neg (by decide)]
  have hcd : (ch ' ' :: (str "filename=" ++ quoted filename)).dropWhile t.isspace =
      str "filename=" ++ quoted filename := by
    rw [dropWhile_cons_of_pos hspace]
    exact dropWhile_isspace (by decide) (by decide) _
  rw [hheader, dispositionLoop_name _ hword rfl, hcd, dispositionLoop_filename]
  rw [phpApGetwordConf_quoteName hend]

theorem wordLength_inside {word : List UInt8} (h : (word.all fun c => c ≠ 34 ∧ c ≠ 92) = true)
    (d : UInt8) (s : List UInt8) :
    wordLength stop (some 34) (word ++ d :: s) =
      word.length + wordLength stop (some 34) (d :: s) := by
  induction word with
  | nil => simp
  | cons c word ih =>
    rw [all_cons, Bool.and_eq_true, decide_eq_true_eq] at h
    have ⟨⟨hquote, hback⟩, hword⟩ := h
    have ⟨x, rest, hrest⟩ := exists_cons_of_ne_nil (l := word ++ d :: s) (by simp)
    rw [cons_append, hrest, wordLength, if_neg hquote, if_neg (fun hc => hback hc.1), ← hrest,
      ih hword, length_cons]
    omega

theorem wordLength_close {s : List UInt8} (hs : s ≠ []) :
    wordLength stop (some 34) (34 :: s) = wordLength stop none s + 1 := by
  cases s with
  | nil => exact absurd rfl hs
  | cons d s =>
    generalize hnone : wordLength stop none (d :: s) = n
    rw [wordLength, if_pos rfl, hnone]

theorem contentDisposition_hidden (hend : name.getLast? = some 92) (filename : List UInt8) :
    (contentDisposition t (uploadDisposition name filename)).2 ≠ some filename := by
  obtain ⟨fuel, hheader⟩ := contentDisposition_upload (t := t) name filename
  generalize hline : str "name=" ++ 34 ::
    (quoteName name ++ 34 :: (str "; filename=" ++ quoted filename)) = line at hheader
  have hlen : wordLength (ch ';') none line = (str "name=").length +
      ((quoteName name).length + 1 + ((str "; filename=").length +
        (wordLength (ch ';') none (quoteName filename ++ [34]) + 1)) + 1) := by
    rw [← hline, wordLength_append (by decide), wordLength, if_neg (by decide), if_pos (Or.inl rfl),
      wordLength_hidden hend, quoted, wordLength_inside (by decide), wordLength_close (by simp)]
  generalize hm : wordLength (ch ';') none (quoteName filename ++ [34]) = m at hlen
  have htake : ∃ s, line.take (wordLength (ch ';') none line) = str "name=" ++ 34 :: s := by
    rw [hlen, ← hline, take_length_add_append, take_succ_cons]
    exact ⟨_, rfl⟩
  have hdrop : line.drop (wordLength (ch ';') none line) = (quoteName filename ++ [34]).drop m := by
    have hbehind : line = (str "name=" ++ 34 ::
        (quoteName name ++ 34 :: (str "; filename=" ++ [34]))) ++ (quoteName filename ++ [34]) := by
      rw [← hline, quoted]
      simp only [append_assoc, cons_append, nil_append]
    have hpos : wordLength (ch ';') none line = (str "name=" ++
        34 :: (quoteName name ++ 34 :: (str "; filename=" ++ [34]))).length + m := by
      rw [hlen]
      simp only [length_append, length_cons, length_nil]
      omega
    rw [hpos]
    nth_rewrite 1 [hbehind]
    exact drop_length_add_append m
  obtain ⟨s, hpair⟩ := htake
  rw [hheader, dispositionLoop_name _ (phpApGetword_eq line (ch ';')) hpair, hdrop]
  intro h
  have hcount := dispositionLoop_count (t := t) (n := filename.count (ch '=')) (fuel + 1)
    ((((quoteName filename ++ [34]).drop m).dropWhile (· = ch ';')).dropWhile t.isspace)
    (some (phpApGetwordConf t.isspace (34 :: s)).1, none) ?_ (fun _ he => by cases he) filename h
  · exact absurd hcount (Nat.lt_irrefl _)
  · have hsub := (dropWhile_sublist (l := ((quoteName filename ++ [34]).drop m).dropWhile
      (· = ch ';')) t.isspace).trans ((dropWhile_sublist _).trans (drop_sublist m _))
    have hle := hsub.count_le (ch '=')
    rw [count_append, count_quoteName] at hle
    exact hle

/-- The names of a file are read back exactly, unless one of them ends with a backslash. -/
theorem contentDisposition_upload_iff (name filename : List UInt8) :
    contentDisposition t (uploadDisposition name filename) = (some name, some filename) ↔
      name.getLast? ≠ some 92 ∧ filename.getLast? ≠ some 92 := by
  constructor
  · intro h
    by_cases hend : name.getLast? = some 92
    · exact absurd (congrArg Prod.snd h) (contentDisposition_hidden hend filename)
    · refine ⟨hend, fun hlast => ?_⟩
      rw [contentDisposition_closed hend, if_pos hlast] at h
      have hsnd := Option.some.inj (congrArg Prod.snd h)
      exact absurd hsnd (by simp)
  · intro ⟨hname, hfilename⟩
    rw [contentDisposition_closed hname, if_neg hfilename, List.append_nil]

/-- The name `a\` is read as far as the quote behind `filename=`. -/
theorem contentDisposition_backslash :
    contentDisposition .c (uploadDisposition [97, 92] [102]) ≠ (some [97, 92], some [102]) := by
  decide +kernel

end Php53.Main
