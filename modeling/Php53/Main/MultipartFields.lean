import Php53.Main.MultipartBodies
import Php53.Main.MultipartPost

/-!
# MultipartFields — form fields come out as they were put in

A line of a header that is longer than the buffer is cut, and what is cut off is taken for the
continuation of the header.  That goes wrong where a part is empty or looks like a header itself.
-/

open Reasoning

namespace Php53.Main

open Zend
open Standard (Ctype)
open MultipartBuffer (MimeHeaderEntry lineParts addLine headerLine chomp)
open List

variable {t : Ctype}

variable {c stop x : UInt8} {line name : List UInt8} {n : Nat}

def quoteName (name : List UInt8) : List UInt8 :=
  name.flatMap fun c => if c = 34 ∨ c = 92 then [92, c] else [c]

def dispositionValue (name : List UInt8) : List UInt8 :=
  str "form-data; name=" ++ 34 :: (quoteName name ++ [34])

/-! The words of the header in pieces. -/

theorem str_formData_pieces :
    str "form-data; name=" = str "form-data" ++ [ch ';', ch ' '] ++ str "name=" ∧
      str "form-data; name=" = ch 'f' :: str "orm-data; name=" ∧
      str "name=" = str "name" ++ [ch '='] := by decide +kernel

theorem str_disposition_pieces :
    str "Content-Disposition: f" = str "Content-Disposition: " ++ [ch 'f'] ∧
      str "Content-Disposition: f" = str "Content-Disposition" ++ [ch ':', ch ' ', ch 'f'] := by
  decide +kernel

theorem quoteName_cons (c : UInt8) (name : List UInt8) :
    quoteName (c :: name) = (if c = 34 ∨ c = 92 then [92, c] else [c]) ++ quoteName name := rfl

theorem quoteName_head (name : List UInt8) : (quoteName name).head? ≠ some 34 := by
  cases name with
  | nil => simp [quoteName]
  | cons c name =>
    rw [quoteName_cons]
    split
    · simp
    · rename_i hc
      simpa using fun h => hc (Or.inl h)

theorem quoteName_backslash (rest : List UInt8) (hend : x = 34 → (c :: name).getLast? ≠ some 92)
    (hc : c = 92) :
    ∃ d s, quoteName name ++ x :: rest = d :: s ∧ d ≠ 34 := by
  cases name with
  | nil => exact ⟨x, rest, rfl, fun hx => hend hx (by simp [hc])⟩
  | cons d name =>
    have hhead := quoteName_head (d :: name)
    rw [quoteName_cons] at hhead ⊢
    split at hhead
    · rename_i hd
      rw [if_pos hd]
      exact ⟨92, _, rfl, by decide⟩
    · rename_i hd
      rw [if_neg hd]
      exact ⟨d, _, rfl, fun h => hd (Or.inl h)⟩

theorem getLast?_of_cons {d : UInt8} (h : (c :: name).getLast? ≠ some d) :
    name.getLast? ≠ some d := by
  cases name with
  | nil => simp
  | cons x name => rwa [List.getLast?_cons_cons] at h

theorem scan_quoteName {scan : List UInt8 → Nat} (hescape : ∀ s, scan (92 :: 34 :: s) = scan s + 2)
    (hplain : ∀ c d s, c ≠ 34 → ¬ (c = 92 ∧ d = 34) → scan (c :: d :: s) = scan (d :: s) + 1)
    {rest : List UInt8} (hend : x = 34 → name.getLast? ≠ some 92) :
    scan (quoteName name ++ x :: rest) = (quoteName name).length + scan (x :: rest) := by
  induction name with
  | nil => simp [quoteName]
  | cons c name ih =>
    have hrec := ih fun hx => getLast?_of_cons (hend hx)
    have hne : quoteName name ++ x :: rest ≠ [] := by simp
    by_cases hquote : c = 34
    · rw [quoteName_cons, if_pos (Or.inl hquote), hquote]
      show scan (92 :: 34 :: (quoteName name ++ x :: rest)) =
        ((quoteName name).length + 2) + scan (x :: rest)
      rw [hescape, hrec]
      omega
    · by_cases hback : c = 92
      · obtain ⟨d, s, hs, hd⟩ := quoteName_backslash rest hend hback
        rw [quoteName_cons, if_pos (Or.inr hback), hback]
        show scan (92 :: 92 :: (quoteName name ++ x :: rest)) =
          ((quoteName name).length + 2) + scan (x :: rest)
        rw [hplain _ _ _ (by decide) (by decide), hs, hplain _ _ _ (by decide) (fun h => hd h.2), ← hs,
          hrec]
        omega
      · obtain ⟨d, s, hs⟩ := exists_cons_of_ne_nil hne
        rw [quoteName_cons, if_neg (by simp [hquote, hback])]
        show scan (c :: (quoteName name ++ x :: rest)) =
          ((quoteName name).length + 1) + scan (x :: rest)
        rw [hs, hplain _ _ _ hquote (fun h => hback h.1), ← hs, hrec]
        omega

theorem wordLength_quoteName (hend : x = 34 → name.getLast? ≠ some 92) (rest : List UInt8) :
    wordLength stop (some 34) (quoteName name ++ x :: rest) =
      (quoteName name).length + wordLength stop (some 34) (x :: rest) := by
  apply scan_quoteName _ _ hend
  · intro s
    rw [wordLength, if_neg (by decide), if_pos (by decide)]
  · intro c d s hquote hback
    rw [wordLength, if_neg hquote, if_neg hback]

theorem quotedLength_quoteName (hend : x = 34 → name.getLast? ≠ some 92) (rest : List UInt8) :
    quotedLength 34 (quoteName name ++ x :: rest) =
      (quoteName name).length + quotedLength 34 (x :: rest) := by
  apply scan_quoteName _ _ hend
  · intro s
    rw [quotedLength, if_neg (by decide), if_pos (by decide)]
  · intro c d s hquote hback
    rw [quotedLength, if_neg hquote, if_neg hback]

theorem substringConf_quoteName_append (name : List UInt8) (x : UInt8) (rest : List UInt8) (k : Nat) :
    substringConf 34 (quoteName name ++ x :: rest) ((quoteName name).length + k) =
      name ++ substringConf 34 (x :: rest) k := by
  induction name with
  | nil => simp [quoteName]
  | cons c name ih =>
    have hne : quoteName name ++ x :: rest ≠ [] := by simp
    by_cases hescape : c = 34 ∨ c = 92
    · have hlen : (92 :: c :: quoteName name).length + k = (quoteName name).length + k + 1 + 1 := by
        rw [length_cons, length_cons]
        omega
      rw [quoteName_cons, if_pos hescape]
      show substringConf 34 (92 :: c :: (quoteName name ++ x :: rest))
        ((92 :: c :: quoteName name).length + k) = _
      rw [hlen, substringConf, if_pos ⟨rfl, hescape.symm.imp_right fun h => ⟨by decide, h⟩⟩,
        Nat.add_sub_cancel, ih, cons_append]
    · have hlen : (c :: quoteName name).length + k = (quoteName name).length + k + 1 := by
        rw [length_cons]
        omega
      rw [quoteName_cons, if_neg hescape]
      obtain ⟨d, s, hs⟩ := exists_cons_of_ne_nil hne
      show substringConf 34 (c :: (quoteName name ++ x :: rest))
        ((c :: quoteName name).length + k) = _
      rw [hlen, hs, substringConf, if_neg fun h => hescape (Or.inr h.1), ← hs, ih, cons_append]

theorem substringConf_quoteName (name : List UInt8) :
    substringConf 34 (quoteName name ++ [34]) (quoteName name).length = name := by
  have h := substringConf_quoteName_append name 34 [] 0
  rwa [substringConf, List.append_nil] at h

theorem wordLength_append {word : List UInt8}
    (h : (word.all fun c => c ≠ stop ∧ c ≠ 34 ∧ c ≠ 39) = true) (s : List UInt8) :
    wordLength stop none (word ++ s) = word.length + wordLength stop none s := by
  induction word with
  | nil => simp
  | cons c word ih =>
    rw [all_cons, Bool.and_eq_true, decide_eq_true_eq] at h
    obtain ⟨⟨hstop, hdouble, hsingle⟩, hword⟩ := h
    rw [cons_append, wordLength, if_neg hstop, if_neg (by simp [hdouble, hsingle]), ih hword,
      length_cons]
    omega

theorem phpApGetword_stop {word : List UInt8}
    (h : (word.all fun c => c ≠ stop ∧ c ≠ 34 ∧ c ≠ 39) = true) (hc : c ≠ stop) (s : List UInt8)
    : phpApGetword (word ++ stop :: c :: s) stop = (word, c :: s) := by
  have hlen : wordLength stop none (word ++ stop :: c :: s) = word.length := by
    rw [wordLength_append h, wordLength, if_pos rfl, Nat.add_zero]
  unfold phpApGetword
  rw [hlen]
  dsimp only
  rw [if_neg (by simp), take_left, drop_left]
  simp [hc]

theorem dropWhile_isspace (hc : c < 128) (hspace : ¬ (c = 32 ∨ 9 ≤ c ∧ c ≤ 13)) (s : List UInt8)
    : (c :: s).dropWhile t.isspace = c :: s := by
  rw [dropWhile_cons_of_neg]
  rw [t.isspace_ascii c hc]
  simpa using hspace

theorem phpApGetwordConf_quoteName (hend : name.getLast? ≠ some 92) :
    (phpApGetwordConf t.isspace (34 :: (quoteName name ++ [34]))).1 = name := by
  unfold phpApGetwordConf
  rw [dropWhile_isspace (by decide) (by decide)]
  dsimp only
  rw [if_pos (Or.inl rfl), quotedLength_quoteName fun _ => hend]
  exact substringConf_quoteName name

theorem strcaseeq_self (t : Ctype) (s : List UInt8) : strcaseeq t s s = true := by
  simp [strcaseeq]

theorem contentDisposition_value (hend : name.getLast? ≠ some 92) :
    contentDisposition t (dispositionValue name) = (some name, none) := by
  have hspace : t.isspace (ch ' ') = true := t.isspace_ascii 32 (by decide)
  have hskip : (dispositionValue name).dropWhile t.isspace = dispositionValue name := by
    rw [dispositionValue, str_formData_pieces.2.1, cons_append]
    exact dropWhile_isspace (by decide) (by decide) _
  generalize hpair : str "name=" ++ 34 :: (quoteName name ++ [34]) = pair
  have hvalue : dispositionValue name = str "form-data" ++ ch ';' :: ch ' ' :: pair := by
    rw [← hpair, dispositionValue, str_formData_pieces.1]
    simp only [append_assoc, cons_append, nil_append]
  have hfirst : phpApGetword (dispositionValue name) (ch ';') = (str "form-data", ch ' ' :: pair) := by
    rw [hvalue]
    apply phpApGetword_stop <;> decide
  have hcd : (ch ' ' :: pair).dropWhile t.isspace = pair := by
    rw [dropWhile_cons_of_pos hspace, ← hpair]
    exact dropWhile_isspace (by decide) (by decide) _
  -- the second pair is the rest, as the quoted name hides what is in it
  have hlen : wordLength (ch ';') none pair = pair.length := by
    rw [← hpair, wordLength_append (by decide), wordLength, if_neg (by decide), if_pos (Or.inl rfl),
      wordLength_quoteName fun _ => hend]
    simp [wordLength]
  have hsecond : phpApGetword pair (ch ';') = (pair, []) := by
    unfold phpApGetword
    rw [hlen]
    exact if_pos rfl
  have hkey : phpApGetword pair (ch '=') = (str "name", 34 :: (quoteName name ++ [34])) := by
    have hassign : pair = str "name" ++ ch '=' :: 34 :: (quoteName name ++ [34]) := by
      rw [← hpair, str_formData_pieces.2.2, append_assoc, singleton_append]
    rw [hassign]
    apply phpApGetword_stop <;> decide
  have heq : ch '=' ∈ pair := by
    rw [← hpair]
    exact mem_append_left _ (by decide)
  have hne : pair ≠ [] := ne_nil_of_mem heq
  have hrounds : (dispositionValue name).length = (pair.length + 9) + 1 + 1 := by
    rw [hvalue, length_append, length_cons, length_cons]
    show 9 + (pair.length + 1 + 1) = _
    omega
  unfold contentDisposition
  dsimp only
  rw [hskip, hrounds, dispositionLoop, if_neg (by simp [hvalue]), hfirst]
  dsimp only
  rw [hcd, if_neg (by decide), dispositionLoop, if_neg hne, hsecond]
  dsimp only
  rw [if_pos heq, hkey]
  dsimp only
  rw [if_pos (strcaseeq_self t _), phpApGetwordConf_quoteName hend]
  rfl

def dispositionLine (name : List UInt8) : List UInt8 :=
  str "Content-Disposition: " ++ dispositionValue name

def NoEmptyPart (line : List UInt8) : Prop := ∀ part ∈ lineParts fillUnit (line ++ [13]), part ≠ []

def Continues (t : Ctype) (part : List UInt8) : Prop :=
  part.head?.any t.isspace = true ∨ ch ':' ∉ part

theorem flatten_lineParts (line : List UInt8) (h : ∀ part ∈ lineParts n (line ++ [13]), part ≠ []) :
    (lineParts n (line ++ [13])).flatten = line := by
  generalize hline : line ++ [13] = l at h ⊢
  induction l using MultipartBuffer.lineParts.induct (n := n) generalizing line with
  | case1 l hcut ih =>
    rw [lineParts, if_pos hcut] at h ⊢
    have hlen := congrArg List.length hline
    rw [length_append, length_singleton] at hlen
    have hle : n ≤ line.length := by
      by_contra hlt
      -- the line ends with the buffer, and an empty part is left
      have hdrop : l.drop n = [] := drop_eq_nil_of_le (by omega)
      apply h [] _ rfl
      rw [hdrop, lineParts, if_neg (by rw [length_nil]; omega)]
      simp [chomp]
    have hdrop : line.drop n ++ [13] = l.drop n := by
      rw [← hline, drop_append_of_le_length hle]
    rw [flatten_cons, ih _ hdrop fun part hpart => h part (by simp [hpart]), ← hline,
      take_append_of_le_length hle, take_append_drop]
  | case2 l hcut =>
    rw [lineParts, if_neg hcut, ← hline, MultipartBuffer.chomp_concat]
    simp

theorem lineParts_head (start s : List UInt8) (hn : start.length ≤ n) :
    ∃ r more, lineParts n (start ++ s ++ [13]) = (start ++ r) :: more := by
  rw [lineParts]
  split
  · exact ⟨_, _, by rw [append_assoc, take_append, take_of_length_le hn]⟩
  · exact ⟨s, [], by rw [MultipartBuffer.chomp_concat]⟩

theorem notMem_lineParts (hc : c ∉ line) :
    ∀ part ∈ lineParts n line, c ∉ part := by
  intro part hpart hmem
  induction line using MultipartBuffer.lineParts.induct (n := n) with
  | case1 line hcut ih =>
    rw [lineParts, if_pos hcut] at hpart
    rcases mem_cons.mp hpart with rfl | hpart
    · exact hc (mem_of_mem_take hmem)
    · exact ih (fun h => hc (mem_of_mem_drop h)) hpart
  | case2 line hcut =>
    rw [lineParts, if_neg hcut, mem_singleton] at hpart
    rw [hpart, chomp] at hmem
    split at hmem
    · exact hc (dropLast_subset _ hmem)
    · exact hc hmem

theorem lineParts_short (h : line.length + 2 ≤ fillUnit) :
    lineParts fillUnit (line ++ [13]) = [line] := by
  rw [lineParts, if_neg, MultipartBuffer.chomp_concat]
  rw [length_append, length_singleton]
  omega

theorem headerLine_header {part : List UInt8} (hnul : 0 ∉ part)
    (hspace : part.head?.any t.isspace = false) (hcolon : ch ':' ∈ part)
    (header : List MimeHeaderEntry) :
    ∃ entry, headerLine t.isspace part header = header ++ [entry] := by
  obtain ⟨a, b, hab, ha⟩ := eq_append_cons_of_mem hcolon
  have hchr : strchr part 0 (ch ':') = some a.length := by
    rw [strchr, MultipartBuffer.cString_of_notMem hnul, hab, findIdx?_append_cons ha]
    simp
  unfold headerLine
  rw [hspace, hchr]
  exact ⟨_, rfl⟩

theorem headerLine_continues {part : List UInt8} (hnul : 0 ∉ part) (h : Continues t part)
    (key value : List UInt8) :
    headerLine t.isspace part [(key, value)] = [(key, value ++ part)] := by
  have hnone : (if part.head?.any t.isspace then none else strchr part 0 (ch ':')) = none := by
    by_cases hspace : part.head?.any t.isspace = true
    · rw [if_pos hspace]
    · rw [if_neg hspace, strchr, MultipartBuffer.cString_of_notMem hnul,
        findIdx?_of_notMem (h.resolve_left hspace)]
      rfl
  unfold headerLine
  rw [hnone]
  rfl

theorem headerLine_behind (part : List UInt8) (entry : MimeHeaderEntry)
    {header : List MimeHeaderEntry} (hne : header ≠ []) :
    ∃ header', header' ≠ [] ∧ headerLine t.isspace part (entry :: header) = entry :: header' := by
  unfold headerLine
  dsimp only
  split
  · exact ⟨_, by simp, rfl⟩
  · obtain ⟨init, last, rfl⟩ := (eq_nil_or_concat header).resolve_left hne
    have hlast : (entry :: (init.concat last)).getLast? = some last := by
      rw [concat_eq_append, ← cons_append, List.getLast?_concat]
    rw [hlast]
    refine ⟨init ++ [(last.1, last.2 ++ part)], by simp, ?_⟩
    rw [concat_eq_append, ← cons_append, dropLast_concat]
    rfl

theorem foldl_continues {parts : List (List UInt8)} (hnul : ∀ part ∈ parts, 0 ∉ part)
    (h : ∀ part ∈ parts, Continues t part) (key value : List UInt8) :
    parts.foldl (fun header part => headerLine t.isspace part header) [(key, value)] =
      [(key, value ++ parts.flatten)] := by
  induction parts generalizing value with
  | nil => simp
  | cons part parts ih =>
    rw [foldl_cons, headerLine_continues (hnul part (by simp)) (h part (by simp)),
      ih (fun p hp => hnul p (by simp [hp])) (fun p hp => h p (by simp [hp])), flatten_cons,
      append_assoc]

theorem headerLine_disposition {r : List UInt8} (hnul : 0 ∉ str "Content-Disposition: f" ++ r) :
    headerLine t.isspace (str "Content-Disposition: f" ++ r) [] =
      [(str "Content-Disposition", ch 'f' :: r)] := by
  have hsplit : str "Content-Disposition: f" ++ r =
      str "Content-Disposition" ++ ch ':' :: (ch ' ' :: ch 'f' :: r) := by
    rw [str_disposition_pieces.2, append_assoc]
    rfl
  have hhead : (str "Content-Disposition: f" ++ r).head?.any t.isspace = false := by
    have hfirst : (str "Content-Disposition: f").head? = some (ch 'C') := by decide +kernel
    rw [List.head?_append, hfirst, Option.some_or, Option.any_some, t.isspace_ascii _ (by decide)]
    decide
  have hchr : strchr (str "Content-Disposition: f" ++ r) 0 (ch ':') = some 19 := by
    have hlen : (str "Content-Disposition").length = 19 := by decide +kernel
    rw [strchr, MultipartBuffer.cString_of_notMem hnul, hsplit, findIdx?_append_cons (by decide), hlen]
    rfl
  have hvalue : (ch ' ' :: ch 'f' :: r).dropWhile t.isspace = ch 'f' :: r := by
    have hspace : t.isspace (ch ' ') = true := t.isspace_ascii 32 (by decide)
    rw [dropWhile_cons_of_pos hspace]
    exact dropWhile_isspace (by decide) (by decide) r
  have htake : (str "Content-Disposition: f" ++ r).take 19 = str "Content-Disposition" := by
    rw [hsplit]
    exact take_left' (by decide +kernel)
  have hdrop : (str "Content-Disposition: f" ++ r).drop (19 + 1) = ch ' ' :: ch 'f' :: r := by
    rw [hsplit, append_cons]
    exact drop_left' (by decide +kernel)
  unfold headerLine
  rw [hhead, hchr]
  show [((str "Content-Disposition: f" ++ r).take 19,
    ((str "Content-Disposition: f" ++ r).drop (19 + 1)).dropWhile t.isspace)] = _
  rw [htake, hdrop, hvalue]

theorem addLine_disposition (hnul : 0 ∉ dispositionLine name)
    (hparts : NoEmptyPart (dispositionLine name))
    (hlater : ∀ part ∈ (lineParts fillUnit (dispositionLine name ++ [13])).tail, Continues t part) :
    addLine fillUnit t.isspace [] (dispositionLine name ++ [13]) =
      [(str "Content-Disposition", dispositionValue name)] := by
  generalize hs : str "orm-data; name=" ++ 34 :: (quoteName name ++ [34]) = s
  have hvalue : dispositionValue name = ch 'f' :: s := by
    rw [← hs, dispositionValue, str_formData_pieces.2.1, cons_append]
  have hline : dispositionLine name = str "Content-Disposition: f" ++ s := by
    rw [dispositionLine, hvalue, str_disposition_pieces.1, append_assoc, singleton_append]
  rw [hline] at hnul hparts hlater ⊢
  have hflat := flatten_lineParts _ hparts
  have hnuls : ∀ part ∈ lineParts fillUnit (str "Content-Disposition: f" ++ s ++ [13]), 0 ∉ part := by
    apply notMem_lineParts
    rw [mem_append, not_or]
    exact ⟨hnul, by decide⟩
  obtain ⟨r, more, hmore⟩ := lineParts_head (str "Content-Disposition: f") s
    (show _ ≤ fillUnit by decide)
  unfold addLine
  rw [hmore] at hflat hlater hnuls ⊢
  rw [tail_cons] at hlater
  rw [flatten_cons, append_assoc, append_cancel_left_eq] at hflat
  rw [foldl_cons, headerLine_disposition (hnuls _ (by simp)),
    foldl_continues (fun part hpart => hnuls part (by simp [hpart])) hlater, hvalue, ← hflat,
    cons_append]

/-- A line of another header. -/
structure OtherHeader (t : Ctype) (line : List UInt8) : Prop where
  nul : 0 ∉ line
  lf : 10 ∉ line
  parts : NoEmptyPart line
  header : ∀ part ∈ (lineParts fillUnit (line ++ [13])).head?,
    part.head?.any t.isspace = false ∧ ch ':' ∈ part

theorem foldl_behind (parts : List (List UInt8)) (entry : MimeHeaderEntry)
    {header : List MimeHeaderEntry} (hne : header ≠ []) :
    ∃ header', parts.foldl (fun header part => headerLine t.isspace part header) (entry :: header) =
      entry :: header' := by
  induction parts generalizing header with
  | nil => exact ⟨header, rfl⟩
  | cons part parts ih =>
    obtain ⟨header', hne', hline⟩ := headerLine_behind part entry hne
    rw [foldl_cons, hline]
    exact ih hne'

theorem OtherHeader.addLine (h : OtherHeader t line) (entry : MimeHeaderEntry)
    (header : List MimeHeaderEntry) :
    ∃ header', addLine fillUnit t.isspace (entry :: header) (line ++ [13]) = entry :: header' := by
  have hnuls : ∀ part ∈ lineParts fillUnit (line ++ [13]), 0 ∉ part := by
    apply notMem_lineParts
    rw [mem_append, not_or]
    exact ⟨h.nul, by decide⟩
  have hheader := h.header
  unfold MultipartBuffer.addLine
  cases hparts : lineParts fillUnit (line ++ [13]) with
  | nil => exact ⟨header, rfl⟩
  | cons part parts =>
    rw [hparts] at hheader hnuls
    obtain ⟨hspace, hcolon⟩ := hheader part rfl
    obtain ⟨added, hadd⟩ := headerLine_header (hnuls part (by simp)) hspace hcolon (entry :: header)
    rw [foldl_cons, hadd]
    exact foldl_behind parts entry (by simp)

end Php53.Main
