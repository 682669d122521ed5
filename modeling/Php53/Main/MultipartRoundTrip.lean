import Php53.Main.MultipartFields
import Php53.Standard.StripPieces

/-!
# MultipartRoundTrip — a form is delivered part by part

After each part the CR and LF in front of the next boundary are left, so the next part begins with an
empty line or with none.  `formLoop` carries that over all parts.
-/

open Reasoning

namespace Php53.Main

open Zend
open Standard (Ctype)
open MultipartBuffer (MimeHeaderEntry Valid lineParts addLine headerText)
open List

variable {t : Ctype} {boundary : List UInt8}

variable {name : List UInt8} {part : FormPart} {body : List UInt8}

/-- A part of a form: the name of the field, the lines of the other headers, and the body. -/
structure FormPart where
  name : List UInt8
  others : List (List UInt8) := []
  body : List UInt8

def FormPart.lines (part : FormPart) : List (List UInt8) := dispositionLine part.name :: part.others

/-- A form as `multipart/form-data`. -/
def assemble (boundary : List UInt8) : List FormPart → List UInt8
  | [] => (str "--" ++ boundary) ++ (str "--" ++ [13, 10])
  | part :: parts =>
    (str "--" ++ boundary) ++ 13 :: 10 :: (headerText part.lines ++ 13 :: 10 ::
      (part.body ++ 13 :: 10 :: assemble boundary parts))

def contentType (boundary : List UInt8) : List UInt8 :=
  str "multipart/form-data; boundary=" ++ boundary

/-- A boundary of at most 70 bytes that can stand in the header of a request. -/
structure BoundaryText (boundary : List UInt8) : Prop where
  length : boundary.length ≤ 70
  text : ∀ c ∈ boundary, c ≠ 0 ∧ c ≠ 10 ∧ c ≠ 13
  unquoted : ∀ c ∈ boundary, c ≠ 34 ∧ c ≠ ch ',' ∧ c ≠ ch ';'

structure FormPart.WellFormed (t : Ctype) (boundary : List UInt8) (part : FormPart) : Prop where
  nul : 0 ∉ part.name
  lf : 10 ∉ part.name
  backslash : part.name.getLast? ≠ some 92
  parts : NoEmptyPart (dispositionLine part.name)
  later : ∀ cut ∈ (lineParts fillUnit (dispositionLine part.name ++ [13])).tail, Continues t cut
  others : ∀ line ∈ part.others, OtherHeader t line
  body : ¬ (10 :: (str "--" ++ boundary)) <:+: part.body

theorem notMem_dispositionLine {c : UInt8}
    (hline : (str "Content-Disposition: form-data; name=").all (· ≠ c) = true) (hquote : c ≠ 34)
    (hback : c ≠ 92) (hname : c ∉ name) : c ∉ dispositionLine name := by
  have hsplit : dispositionLine name =
      str "Content-Disposition: form-data; name=" ++ 34 :: (quoteName name ++ [34]) := by
    have hwords : str "Content-Disposition: form-data; name=" =
        str "Content-Disposition: " ++ str "form-data; name=" := by decide +kernel
    rw [dispositionLine, dispositionValue, hwords, append_assoc]
  have hquoted : c ∉ quoteName name := by
    intro hmem
    obtain ⟨d, hd, hc⟩ := mem_flatMap.mp hmem
    split at hc
    · rcases mem_cons.mp hc with heq | hc
      · exact hback heq
      · exact hname (mem_singleton.mp hc ▸ hd)
    · exact hname (mem_singleton.mp hc ▸ hd)
  rw [hsplit, mem_append, mem_cons, mem_append, mem_singleton]
  rintro (hmem | hmem | hmem | hmem)
  · simpa using all_eq_true.mp hline c hmem
  · exact hquote hmem
  · exact hquoted hmem
  · exact hquote hmem

theorem FormPart.WellFormed.lines_nul (h : part.WellFormed t boundary) :
    ∀ line ∈ part.lines, 0 ∉ line := by
  intro line hline
  rcases mem_cons.mp hline with rfl | hline
  · exact notMem_dispositionLine (by decide) (by decide) (by decide) h.nul
  · exact (h.others line hline).nul

theorem FormPart.WellFormed.lines_lf (h : part.WellFormed t boundary) :
    ∀ line ∈ part.lines, 10 ∉ line := by
  intro line hline
  rcases mem_cons.mp hline with rfl | hline
  · exact notMem_dispositionLine (by decide) (by decide) (by decide) h.lf
  · exact (h.others line hline).lf

theorem FormPart.WellFormed.lines_parts (h : part.WellFormed t boundary) :
    ∀ line ∈ part.lines, NoEmptyPart line := by
  intro line hline
  rcases mem_cons.mp hline with rfl | hline
  · exact h.parts
  · exact (h.others line hline).parts

theorem foldl_others {lines : List (List UInt8)} (h : ∀ line ∈ lines, OtherHeader t line)
    (entry : MimeHeaderEntry) (header : List MimeHeaderEntry) :
    ∃ header', lines.foldl (fun header line => addLine fillUnit t.isspace header (line ++ [13]))
      (entry :: header) = entry :: header' := by
  induction lines generalizing header with
  | nil => exact ⟨header, rfl⟩
  | cons line lines ih =>
    obtain ⟨header', hadd⟩ := (h line (by simp)).addLine entry header
    rw [foldl_cons, hadd]
    exact ih (fun l hl => h l (by simp [hl])) header'

theorem FormPart.WellFormed.header (h : part.WellFormed t boundary) :
    phpMimeGetHdrValue t
        (part.lines.foldl (fun header line => addLine fillUnit t.isspace header (line ++ [13])) [])
        (str "Content-Disposition") =
      some (dispositionValue part.name) := by
  unfold FormPart.lines
  rw [foldl_cons, addLine_disposition (h.lines_nul _ (by simp [FormPart.lines])) h.parts h.later]
  obtain ⟨header', hfold⟩ := foldl_others h.others (str "Content-Disposition", dispositionValue part.name) []
  rw [hfold, phpMimeGetHdrValue, List.find?_cons, strcaseeq_self]
  rfl

section Part

variable {self : MultipartBuffer} {n : Nat}

variable {sep start : List UInt8}

theorem MultipartBuffer.Valid.eof (hv : self.Valid n) (hn : 0 < n) (hrest : self.rest ≠ []) :
    ∃ self', self.multipartBufferEof n = (false, self') ∧ self'.Valid n ∧ self'.rest = self.rest := by
  unfold MultipartBuffer.multipartBufferEof
  by_cases hwindow : self.window = []
  · obtain ⟨hvalid, hfill, htake⟩ := hv.fillBuffer
    refine ⟨self.fillBuffer n, ?_, hvalid, hfill⟩
    have hne : (self.fillBuffer n).window ≠ [] := by
      rw [htake, Ne, take_eq_nil_iff]
      exact fun hor => hor.elim (fun h => absurd h (by omega)) hrest
    rw [if_pos hwindow]
    simp [hne]
  · rw [if_neg hwindow]
    exact ⟨self, rfl, hv, rfl⟩

theorem findBoundary_spec (hv : self.Valid fillUnit) {tail : List UInt8}
    (hsep : sep = [] ∨ sep = [13, 10]) (hrest : self.rest = sep ++ (start ++ 13 :: 10 :: tail))
    (hnul : 0 ∉ start) (hlf : 10 ∉ start) (hne : start ≠ []) (hlen : start.length + 1 < fillUnit) :
    ∃ mbuff, MultipartBuffer.findBoundary fillUnit start self.fuel self = (true, mbuff) ∧
      mbuff.Valid fillUnit ∧ mbuff.rest = tail := by
  rcases hsep with rfl | rfl
  · obtain ⟨mbuff, hhere, h⟩ :=
      MultipartBuffer.findBoundary_line start self.rest.length hv hrest hlf hnul hlen
    exact ⟨mbuff, hhere.trans (if_pos rfl), h⟩
  · -- an empty line is not the boundary
    have hempty : self.rest = [] ++ 13 :: 10 :: (start ++ 13 :: 10 :: tail) := hrest
    obtain ⟨k, hk⟩ : ∃ k, self.rest.length = k + 1 := ⟨_, congrArg List.length hrest⟩
    obtain ⟨mbuff, hnext, hvalid, hrest'⟩ := MultipartBuffer.findBoundary_line start
      self.rest.length hv hempty (by simp) (by simp) (by decide)
    obtain ⟨mbuff', hhere, h⟩ :=
      MultipartBuffer.findBoundary_line start k hvalid hrest' hlf hnul hlen
    rw [if_neg (Ne.symm hne)] at hnext
    refine ⟨mbuff', ?_, h⟩
    rw [← hhere.trans (if_pos rfl), ← hk, ← hnext]
    rfl

theorem multipartBufferHeaders_of {mbuff self' : MultipartBuffer} {header : List MimeHeaderEntry}
    (hfind : MultipartBuffer.findBoundary n start self.fuel self = (true, mbuff))
    (hloop : MultipartBuffer.headerLoop n t.isspace mbuff.fuel [] mbuff = (header, self')) :
    self.multipartBufferHeaders n t.isspace start = (some header, self') := by
  unfold MultipartBuffer.multipartBufferHeaders
  rw [hfind]
  dsimp only
  rw [if_pos rfl, hloop]

theorem multipartBufferHeaders_spec (hv : self.Valid fillUnit) {tail : List UInt8}
    (hsep : sep = [] ∨ sep = [13, 10]) {lines : List (List UInt8)}
    (hrest : self.rest = sep ++ (start ++ 13 :: 10 :: (headerText lines ++ 13 :: 10 :: tail)))
    (hnul : 0 ∉ start) (hlf : 10 ∉ start) (hne : start ≠ []) (hlen : start.length + 1 < fillUnit)
    (hnuls : ∀ line ∈ lines, 0 ∉ line) (hlfs : ∀ line ∈ lines, 10 ∉ line)
    (hparts : ∀ line ∈ lines, NoEmptyPart line) :
    ∃ self', self.multipartBufferHeaders fillUnit t.isspace start =
        (some (lines.foldl (fun header line => addLine fillUnit t.isspace header (line ++ [13])) []),
          self') ∧
      self'.Valid fillUnit ∧ self'.rest = tail := by
  obtain ⟨mbuff, hfind, hvalid, hrest'⟩ := findBoundary_spec hv hsep hrest hnul hlf hne hlen
  obtain ⟨self', hloop, h⟩ := MultipartBuffer.headerLoop_lines t.isspace [] (by decide) hvalid hrest'
    hlfs hnuls hparts (Nat.lt_succ_self mbuff.rest.length)
  exact ⟨self', multipartBufferHeaders_of hfind hloop, h⟩

theorem multipartBufferHeaders_end (hv : self.Valid fillUnit) (hsep : sep = [] ∨ sep = [13, 10])
    (hrest : self.rest = sep ++ (start ++ (str "--" ++ [13, 10]))) (hnul : 0 ∉ start)
    (hlf : 10 ∉ start) (hne : start ≠ []) (hlen : start.length + 3 < fillUnit) :
    (self.multipartBufferHeaders fillUnit t.isspace start).1 = none := by
  have hclosing : ∀ (fuel : Nat) {mbuff : MultipartBuffer}, mbuff.Valid fillUnit →
      mbuff.rest = (start ++ str "--") ++ 13 :: 10 :: [] →
      (MultipartBuffer.findBoundary fillUnit start fuel mbuff).1 = false := by
    intro fuel mbuff hvalid hclose
    cases fuel with
    | zero => rfl
    | succ fuel =>
      have hlong : start ++ str "--" ≠ start := by
        intro heq
        simpa [str] using congrArg List.length heq
      obtain ⟨mbuff', hnext, hvalid', hnil⟩ := MultipartBuffer.findBoundary_line start fuel hvalid
        hclose (by simp [hlf, str]) (by simp [hnul, str]) (by simpa [str] using hlen)
      rw [hnext, if_neg hlong]
      exact MultipartBuffer.findBoundary_end fuel start hvalid' hnil (by decide)
  have hfound : (MultipartBuffer.findBoundary fillUnit start self.fuel self).1 = false := by
    rcases hsep with rfl | rfl
    · apply hclosing _ hv
      rw [hrest]
      simp
    · have hempty : self.rest = [] ++ 13 :: 10 :: (start ++ (str "--" ++ [13, 10])) := hrest
      obtain ⟨mbuff, hnext, hvalid, hrest'⟩ := MultipartBuffer.findBoundary_line start
        self.rest.length hv hempty (by simp) (by simp) (by decide)
      have hfuel : self.fuel = self.rest.length + 1 := rfl
      rw [hfuel, hnext, if_neg (Ne.symm hne)]
      apply hclosing _ hvalid
      rw [hrest']
      simp
  unfold MultipartBuffer.multipartBufferHeaders
  generalize MultipartBuffer.findBoundary fillUnit start self.fuel self = r at hfound
  obtain ⟨found, mbuff⟩ := r
  dsimp only at hfound ⊢
  rw [hfound]
  rfl

end Part

theorem assemble_start (boundary : List UInt8) (parts : List FormPart) :
    ∃ tail, assemble boundary parts = (str "--" ++ boundary) ++ tail := by
  cases parts with
  | nil => exact ⟨_, rfl⟩
  | cons part parts => exact ⟨_, rfl⟩

theorem BoundaryText.notMem (hb : BoundaryText boundary) {c : UInt8} (hc : c = 0 ∨ c = 10 ∨ c = 13) :
    c ∉ str "--" ++ boundary := by
  rw [mem_append, not_or]
  constructor
  · rcases hc with rfl | rfl | rfl <;> decide
  · intro hmem
    obtain ⟨h0, h10, h13⟩ := hb.text c hmem
    exact hc.elim h0 fun h => h.elim h10 h13

theorem BoundaryText.length_start (hb : BoundaryText boundary) :
    (str "--" ++ boundary).length + 3 < fillUnit := by
  have h := hb.length
  have hunit : fillUnit = 5120 := rfl
  have hlen : (str "--" ++ boundary).length = 2 + boundary.length := length_append
  omega

theorem multipartLoop_part (fuel : Nat) (hb : BoundaryText boundary) {parts : List FormPart}
    {self : MultipartBuffer} (hv : self.Valid fillUnit) (hrest : self.rest ≠ [])
    {header : List MimeHeaderEntry} (hheaders : ∀ mbuff : MultipartBuffer, mbuff.Valid fillUnit → mbuff.rest = self.rest →
      ∃ mbuff', mbuff.multipartBufferHeaders fillUnit t.isspace (str "--" ++ boundary) =
          (some header, mbuff') ∧
        mbuff'.Valid fillUnit ∧ mbuff'.rest = body ++ 13 :: 10 :: assemble boundary parts)
    (hheader : phpMimeGetHdrValue t header (str "Content-Disposition") = some (dispositionValue name))
    (hname : name.getLast? ≠ some 92) (hbody : ¬ (10 :: (str "--" ++ boundary)) <:+: body) :
    ∃ mbuff, multipartLoop t fillUnit (str "--" ++ boundary) (10 :: (str "--" ++ boundary)) (fuel + 1)
          self =
        .variable name body ::
          multipartLoop t fillUnit (str "--" ++ boundary) (10 :: (str "--" ++ boundary)) fuel mbuff ∧
      mbuff.Valid fillUnit ∧ mbuff.rest = [13, 10] ++ assemble boundary parts := by
  have hlen := hb.length_start
  obtain ⟨tail, htail⟩ := assemble_start boundary parts
  obtain ⟨mbuff, heof, hvalid, hsame⟩ := hv.eof (by decide) hrest
  obtain ⟨mbuff₁, hread, hvalid₁, hrest₁⟩ := hheaders mbuff hvalid hsame
  obtain ⟨mbuff₂, hvalue, hvalid₂, hrest₂⟩ := MultipartBuffer.multipartBufferReadBody_spec (by omega)
    hvalid₁ (hrest₁.trans (by rw [htail])) (hb.notMem (by simp)) hbody
  refine ⟨mbuff₂, ?_, hvalid₂, ?_⟩
  · rw [multipartLoop, heof]
    dsimp only
    rw [if_neg Bool.false_ne_true, hread]
    dsimp only
    rw [hheader]
    dsimp only
    rw [contentDisposition_value hname]
    dsimp only
    rw [hvalue]
  · rw [hrest₂, htail]
    rfl

theorem formLoop (hb : BoundaryText boundary) (parts : List FormPart)
    (hparts : ∀ part ∈ parts, part.WellFormed t boundary) (fuel : Nat) {self : MultipartBuffer}
    (hv : self.Valid fillUnit) {sep : List UInt8} (hsep : sep = [] ∨ sep = [13, 10])
    (hrest : self.rest = sep ++ assemble boundary parts) (hfuel : self.rest.length < fuel) :
    multipartLoop t fillUnit (str "--" ++ boundary) (10 :: (str "--" ++ boundary)) fuel self =
      parts.map fun part => .variable part.name part.body := by
  have hlen := hb.length_start
  have hne : str "--" ++ boundary ≠ [] := by simp [str]
  have hnul := hb.notMem (c := 0) (by simp)
  have hlf := hb.notMem (c := 10) (by simp)
  have hleft : self.rest ≠ [] := by
    obtain ⟨tail, htail⟩ := assemble_start boundary parts
    rw [hrest, htail]
    simp [str]
  induction parts generalizing fuel self sep with
  | nil =>
    cases fuel with
    | zero => omega
    | succ fuel =>
      obtain ⟨mbuff, heof, hvalid, hsame⟩ := hv.eof (by decide) hleft
      have hend := multipartBufferHeaders_end (t := t) hvalid hsep (hsame.trans hrest) hnul hlf hne hlen
      rw [multipartLoop, heof]
      dsimp only
      rw [if_neg Bool.false_ne_true, hend]
      rfl
  | cons part parts ih =>
    cases fuel with
    | zero => omega
    | succ fuel =>
      have hwf := hparts part (by simp)
      obtain ⟨mbuff, hloop, hvalid, hrest'⟩ := multipartLoop_part (t := t) fuel hb hv hleft
        (fun mbuff hvalid hsame => multipartBufferHeaders_spec hvalid hsep (hsame.trans hrest) hnul hlf hne
          (by omega) hwf.lines_nul hwf.lines_lf hwf.lines_parts) hwf.header hwf.backslash hwf.body
      rw [hloop, map_cons]
      congr 1
      apply ih (fun p hp => hparts p (by simp [hp])) fuel hvalid (Or.inr rfl) hrest'
      · rw [hrest, assemble] at hfuel
        rw [hrest']
        simp only [length_append, length_cons, length_nil] at hfuel ⊢
        omega
      · rw [hrest']
        simp

theorem getBoundary_contentType (hb : BoundaryText boundary) :
    getBoundary t (contentType boundary) = .ok boundary := by
  have hsearch : search (str "boundary") (contentType boundary) = some 21 := by
    apply search_append (by decide)
    decide
  have hwords : str "multipart/form-data; boundary=" =
      str "multipart/form-data; " ++ str "boundary" ++ [ch '='] := by decide +kernel
  have hsplit : contentType boundary =
      str "multipart/form-data; " ++ (str "boundary" ++ ch '=' :: boundary) := by
    rw [contentType, hwords]
    simp only [append_assoc, singleton_append]
  have hlen : (str "multipart/form-data; ").length = 21 := by decide +kernel
  have hname : (str "boundary").length = 8 := by decide +kernel
  have hnul : 0 ∉ str "boundary" ++ ch '=' :: boundary := by
    rw [mem_append, mem_cons, not_or, not_or]
    exact ⟨by decide, by decide, fun h => (hb.text 0 h).1 rfl⟩
  have hassign : strchr (contentType boundary) 21 (ch '=') = some 29 := by
    have hdrop : cString (contentType boundary) 21 = str "boundary" ++ ch '=' :: boundary := by
      rw [← MultipartBuffer.cString_of_notMem hnul, cString, cString, hsplit,
        drop_left' hlen, drop_zero]
    rw [strchr, hdrop, findIdx?_append_cons (by decide), hname]
    rfl
  have hrest : (contentType boundary).drop (29 + 1) = boundary := by
    rw [contentType]
    exact drop_left' (by decide +kernel)
  unfold getBoundary
  rw [hsearch]
  dsimp only [Option.bind_some]
  rw [hassign]
  dsimp only
  rw [hrest, if_neg]
  · rw [takeWhile_eq_self_iff.mpr]
    intro c hc
    simpa using (hb.unquoted c hc).2
  · intro hquote
    exact (hb.unquoted 34 (mem_of_mem_head? hquote)).1 rfl

theorem FormPart.wellFormed_of_short (hnul : 0 ∉ name) (hlf : 10 ∉ name)
    (hbackslash : name.getLast? ≠ some 92) (hshort : (dispositionLine name).length + 2 ≤ fillUnit)
    (hbody : ¬ (10 :: (str "--" ++ boundary)) <:+: body) :
    FormPart.WellFormed t boundary ⟨name, [], body⟩ where
  nul := hnul
  lf := hlf
  backslash := hbackslash
  parts := by
    intro part hpart
    rw [lineParts_short hshort, mem_singleton] at hpart
    rw [hpart]
    simp [dispositionLine, str]
  later := by
    intro cut hcut
    rw [lineParts_short hshort] at hcut
    cases hcut
  others := by simp
  body := hbody

/-! A semicolon in a name, a body that nearly is a boundary, and one that is a CR. -/

def twoFields : List FormPart := [⟨str "a;b", [], str "--X"⟩, ⟨str "c", [], [13]⟩]

-- a backslash at the end of a name is taken together with the quote behind it
example : contentDisposition Ctype.c (dispositionValue (str "a" ++ [92])) =
    (some (str "a" ++ [92, 34]), none) := by
  decide

section FullLine

variable {self : MultipartBuffer} {name : List UInt8}

theorem headerLoop_full (hv : self.Valid fillUnit) {tail : List UInt8}
    (hrest : self.rest = dispositionLine name ++ 13 :: 10 :: tail)
    (hlen : (dispositionLine name).length = fillUnit) (hnul : 0 ∉ dispositionLine name)
    (hlf : 10 ∉ dispositionLine name) :
    ∃ self', MultipartBuffer.headerLoop fillUnit t.isspace self.fuel [] self =
        ([(str "Content-Disposition", dispositionValue name)], self') ∧
      self'.Valid fillUnit ∧ self'.rest = tail := by
  have htake : self.rest.take fillUnit = dispositionLine name := by
    rw [hrest, ← hlen, take_left]
  have hdrop : self.rest.drop fillUnit = [13] ++ 10 :: tail := by
    rw [hrest, ← hlen, drop_left]
    rfl
  have hle : fillUnit + 2 ≤ self.rest.length := by
    rw [hrest, length_append, hlen, length_cons, length_cons]
    omega
  obtain ⟨mbuff, hfull, hvalid, hrest₁⟩ := MultipartBuffer.getLine_of_full hv (by rw [htake]; exact hlf)
    (by omega)
  rw [htake, MultipartBuffer.cString_of_notMem hnul] at hfull
  obtain ⟨mbuff₁, hempty, h⟩ := MultipartBuffer.getLine_of_line hvalid (hrest₁.trans hdrop) (by decide)
    (by decide)
  obtain ⟨k, hk⟩ : ∃ k, self.fuel = k + 1 + 1 := ⟨self.rest.length - 1, by
    show self.rest.length + 1 = _
    omega⟩
  refine ⟨mbuff₁, ?_, h⟩
  have hline : dispositionLine name = str "Content-Disposition: f" ++
      (str "orm-data; name=" ++ 34 :: (quoteName name ++ [34])) := by
    rw [dispositionLine, dispositionValue, str_formData_pieces.2.1, str_disposition_pieces.1,
      append_assoc]
    rfl
  have hheader : MultipartBuffer.headerLine t.isspace (dispositionLine name) [] =
      [(str "Content-Disposition", dispositionValue name)] := by
    rw [hline] at hnul ⊢
    exact headerLine_disposition hnul
  rw [hk, MultipartBuffer.headerLoop_part hfull (by simp [hline, str]), hheader,
    MultipartBuffer.headerLoop, hempty]
  rfl

theorem fullLine_is_not_delivered (t : Ctype) (hb : BoundaryText boundary) (hnul : 0 ∉ name) (hlf : 10 ∉ name) (hbackslash : name.getLast? ≠ some 92)
    (hlen : (dispositionLine name).length = fillUnit)
    (hbody : ¬ (10 :: (str "--" ++ boundary)) <:+: 13 :: 10 :: body) {pieces : List (List UInt8)}
    (hpieces : ∀ piece ∈ pieces, piece ≠ [])
    (hflat : pieces.flatten = assemble boundary [⟨name, [], body⟩]) :
    rfc1867PostHandler t (contentType boundary) pieces = [.variable name (13 :: 10 :: body)] := by
  have hsize := hb.length_start
  have hne : str "--" ++ boundary ≠ [] := by simp [str]
  have hnul' : 0 ∉ dispositionLine name :=
    notMem_dispositionLine (by decide) (by decide) (by decide) hnul
  have hlf' : 10 ∉ dispositionLine name :=
    notMem_dispositionLine (by decide) (by decide) (by decide) hlf
  have htext : pieces.flatten = [] ++ ((str "--" ++ boundary) ++ 13 :: 10 :: (dispositionLine name ++
      13 :: 10 :: ((13 :: 10 :: body) ++ 13 :: 10 :: assemble boundary []))) := by
    rw [hflat]
    simp [assemble, headerText, FormPart.lines]
  have hv : Valid fillUnit { pieces } := ⟨Nat.zero_le _, hpieces⟩
  have hleft : pieces.flatten ≠ [] := by
    rw [htext]
    simp [str]
  obtain ⟨mbuff, hloop, hvalid, hrest⟩ := multipartLoop_part (t := t) pieces.flatten.length hb hv hleft
    (fun mbuff hvalid hsame => by
      obtain ⟨mbuff₁, hfind, hvalid₁, hrest₁⟩ := findBoundary_spec hvalid (Or.inl rfl)
        (hsame.trans htext) (hb.notMem (by simp)) (hb.notMem (by simp)) hne (by omega)
      obtain ⟨self', hheaders, h⟩ := headerLoop_full (t := t) hvalid₁ hrest₁ hlen hnul' hlf'
      exact ⟨self', multipartBufferHeaders_of hfind hheaders, h⟩)
    (by rw [phpMimeGetHdrValue, List.find?_cons, strcaseeq_self]; rfl) hbackslash hbody
  have hend := formLoop hb [] (t := t) (by simp) pieces.flatten.length hvalid (Or.inr rfl) hrest (by
    rw [hrest, htext]
    simp only [length_append, length_cons, length_nil]
    omega)
  have hlength := hb.length
  have hminsize : boundary.length + 6 < fillUnit := by
    show boundary.length + 6 < 5120
    omega
  unfold rfc1867PostHandler
  rw [getBoundary_contentType hb]
  dsimp only
  rw [if_pos hminsize]
  exact hloop.trans (congrArg (_ :: ·) hend)

end FullLine

def longName : FormPart := ⟨replicate 5081 97, [], []⟩

theorem quoteName_replicate (k : Nat) : quoteName (replicate k 97) = replicate k 97 := by
  induction k with
  | zero => rfl
  | succ k ih =>
    rw [replicate_succ, quoteName_cons, ih, if_neg (by decide)]
    rfl

end Php53.Main
