import Php53.Main.UploadNames
import Php53.Reasoning.Run

/-!
# Uploads — the parts of `rfc1867_post_handler`

A part is a field of the form, or a file.  What comes of the body of a file is taken as it is: an
error, or a temporary file and its size.  There is no callback, the names go through no conversion,
and no global variables are registered.
-/

open Reasoning

namespace Php53.Main

open Zend

/-- `cancel_upload`, or `temp_filename` and `total_bytes`. -/
inductive Upload where
  | cancelled (error : BitVec 64)
  | written (tempFilename : List UInt8) (totalBytes : BitVec 64)

/-- A part with a `Content-Disposition`, the parameters that were found in it, and what was read from
its body. -/
structure Part where
  param : Option (List UInt8) := none
  filename : Option (List UInt8) := none
  contentType : Option (List UInt8) := none
  value : List UInt8 := []
  upload : Upload := .cancelled 0

structure Settings where
  config : Config
  fileUploads : Bool
  maxFileUploads : Int
  maxInputVars : Int

structure Handler where
  httpPostFiles : Table := {}
  arrayPtr : Table := {}
  protectedVariables : List (List UInt8) := []
  uploadedFiles : List (List UInt8) := []
  uploadCnt : Int
  skipUpload : Bool := false
  count : Int := 0
  anonindex : BitVec 32 := 0

def baseName (filename : List UInt8) : List UInt8 :=
  (filename.reverse.takeWhile fun c => c ≠ ch '/' ∧ c ≠ 92).reverse

/-- The attributes of a file. -/
structure FileEntry where
  name : List UInt8
  type : List UInt8
  tmpName : List UInt8
  error : BitVec 64
  size : BitVec 64

def fileEntry (filename : List UInt8) (contentType : Option (List UInt8)) : Upload → FileEntry
  | .cancelled error => ⟨baseName filename, [], [], error, 0⟩
  | .written tempFilename totalBytes =>
    ⟨baseName filename, (contentType.getD []).takeWhile (· ≠ ch ';'), tempFilename, 0, totalBytes⟩

/-- What is done with a file, from `is_arr_upload` on. -/
def registerFile (config : Config) (param : List UInt8) (file : FileEntry) (s : Handler) : Handler :=
  let array := arrayUpload param
  let files := safePhpRegisterVariable config s.protectedVariables
    (attributeName array param nameAttribute) file.name false s.httpPostFiles
  let files := safePhpRegisterVariable config s.protectedVariables
    (attributeName array param typeAttribute) file.type false files
  let (param, protectedVariables) := addProtectedVariable param s.protectedVariables
  let (lbuf, protectedVariables) :=
    addProtectedVariable (attributeName array param tmpNameAttribute) protectedVariables
  let files := safePhpRegisterVariableEx config protectedVariables lbuf (.string file.tmpName) true
    files
  let files := safePhpRegisterVariableEx config protectedVariables
    (attributeName array param errorAttribute) (.long file.error) false files
  let files := safePhpRegisterVariableEx config protectedVariables
    (attributeName array param sizeAttribute) (.long file.size) false files
  { s with httpPostFiles := files, protectedVariables }

def formField (settings : Settings) (param value : List UInt8) (s : Handler) : Handler :=
  { s with
    count := s.count + 1
    arrayPtr :=
      if s.count + 1 ≤ settings.maxInputVars then
        safePhpRegisterVariable settings.config s.protectedVariables param value false s.arrayPtr
      else s.arrayPtr }

/-- The name of a file, a number if it has none, and whether it is skipped; once a file is skipped, the
others are too. -/
def acceptFile (settings : Settings) (param : Option (List UInt8)) (s : Handler) :
    List UInt8 × Handler :=
  let skipUpload := s.skipUpload || !settings.fileUploads || s.uploadCnt ≤ 0
  let (param, anonindex) := match param with
    | some param => (param, s.anonindex)
    | none => (printLong (s.anonindex.setWidth 64), s.anonindex + 1)
  (param, { s with skipUpload := skipUpload || !bracketsClosed 0 param, anonindex })

theorem lawfulBEq_name : LawfulBEq (List UInt8) := inferInstance

/-- The temporary file of a part; a file without a name is no upload (`UPLOAD_ERROR_D`). -/
def receiveFile (filename : List UInt8) (upload : Upload) (s : Handler) : Upload × Handler :=
  haveI := lawfulBEq_name
  if filename = [] then (.cancelled 4, s)
  else
    (upload, { s with
      uploadCnt := s.uploadCnt - 1
      uploadedFiles := match upload with
        | .cancelled _ => s.uploadedFiles
        | .written tempFilename _ =>
          if tempFilename ∈ s.uploadedFiles then s.uploadedFiles
          else tempFilename :: s.uploadedFiles })

/-- One round of the loop over the parts, none where the headers are garbled. -/
def step (settings : Settings) (s : Handler) (part : Part) : Option Handler :=
  match part.filename with
  | none => part.param.map fun param => formField settings param part.value s
  | some filename =>
    let (param, s) := acceptFile settings part.param s
    if s.skipUpload then some s
    else
      let (upload, s) := receiveFile filename part.upload s
      some (registerFile settings.config param (fileEntry filename part.contentType upload) s)

def start (settings : Settings) : Handler := { uploadCnt := settings.maxFileUploads }

def lookup : List HashKey → Zval → Option Zval
  | [], z => some z
  | k :: ks, z => z.table.bind fun t => (t.find k).bind (lookup ks)

def below (p : List (Option HashKey)) (val : Zval) (z : Option Zval) : Zval :=
  match p with
  | [] => val
  | _ :: _ => (put p val ((z.bind Zval.table).getD {})).zval

theorem put_elements (k : HashKey) (p : List (Option HashKey)) (val : Zval) (t : Table) :
    (put (some k :: p) val t).elements = Table.store k (below p val (t.find k)) t.elements := by
  cases p with
  | nil => rfl
  | cons o p =>
    rw [put, below]
    cases (t.find k).bind Zval.table with
    | none => rfl
    | some sub => rfl

theorem Table.find_congr {t t' : Table} (h : t.elements = t'.elements) (k : HashKey) :
    t.find k = t'.find k := by rw [find, find, h]

theorem find_put_self (k : HashKey) (p : List (Option HashKey)) (val : Zval) (t : Table) :
    (put (some k :: p) val t).find k = some (below p val (t.find k)) := by
  have helements : (put (some k :: p) val t).elements = (t.update k (below p val (t.find k))).elements :=
    put_elements k p val t
  rw [Table.find_congr helements k, Table.find_update_self]

theorem find_put_of_ne {k k' : HashKey} (h : k' ≠ k) (p : List (Option HashKey)) (val : Zval)
    (t : Table) : (put (some k :: p) val t).find k' = t.find k' := by
  have helements : (put (some k :: p) val t).elements = (t.update k (below p val (t.find k))).elements :=
    put_elements k p val t
  rw [Table.find_congr helements k', Table.find_update_of_ne h]

def registerAttribute (config : Config) (protectedVariables : List (List UInt8))
    (base : List UInt8) (indices : List (List UInt8)) (attr : List UInt8) (val : Zval) (t : Table) :
    Table :=
  haveI := lawfulBEq_name
  if attributeForm base indices attr ∈ protectedVariables then t
  else phpRegisterVariableEx config (attributeForm base indices attr) val t

def protectFile (param : List UInt8) (protectedVariables : List (List UInt8)) :
    List (List UInt8) :=
  (addProtectedVariable (attributeName (arrayUpload param) (normalizeProtectedVariable param)
    tmpNameAttribute) (addProtectedVariable param protectedVariables).2).2

section Attributes

variable {config : Config} {param base : List UInt8} {indices : List (List UInt8)}

theorem safePhpRegisterVariableEx_eq {w attr : List UInt8}
    (hform : normalizeProtectedVariable w = attributeForm base indices attr)
    (protectedVariables : List (List UInt8)) (val : Zval) (t : Table) :
    safePhpRegisterVariableEx config protectedVariables w val false t =
      registerAttribute config protectedVariables base indices attr val t := by
  rw [safePhpRegisterVariableEx, isProtectedVariable, registerAttribute, hform]
  simp

theorem registerFile_eq (h : FieldName param base indices) (file : FileEntry) (s : Handler) :
    registerFile config param file s =
      { s with
        httpPostFiles :=
          registerAttribute config (protectFile param s.protectedVariables) base indices sizeAttribute
            (.long file.size)
            (registerAttribute config (protectFile param s.protectedVariables) base indices
              errorAttribute (.long file.error)
              (phpRegisterVariableEx config (attributeForm base indices tmpNameAttribute)
                (.string file.tmpName)
                (registerAttribute config s.protectedVariables base indices typeAttribute
                  (.string file.type)
                  (registerAttribute config s.protectedVariables base indices nameAttribute
                    (.string file.name) s.httpPostFiles))))
        protectedVariables := protectFile param s.protectedVariables } := by
  have hname := (normalize_attributeName h (show nameAttribute ∈ attributes by decide)).1
  have htype := (normalize_attributeName h (show typeAttribute ∈ attributes by decide)).1
  have htmp := (normalize_attributeName h (show tmpNameAttribute ∈ attributes by decide)).2
  have herror := (normalize_attributeName h (show errorAttribute ∈ attributes by decide)).2
  have hsize := (normalize_attributeName h (show sizeAttribute ∈ attributes by decide)).2
  rw [← safePhpRegisterVariableEx_eq hname, ← safePhpRegisterVariableEx_eq htype,
    ← safePhpRegisterVariableEx_eq herror, ← safePhpRegisterVariableEx_eq hsize, ← htmp]
  rfl

theorem mem_protectFile (h : FieldName param base indices) {w : List UInt8}
    {protectedVariables : List (List UInt8)} :
    w ∈ protectFile param protectedVariables ↔
      w = attributeForm base indices tmpNameAttribute ∨ w = normalizeProtectedVariable param ∨
        w ∈ protectedVariables := by
  rw [protectFile, mem_addProtectedVariable, mem_addProtectedVariable,
    (normalize_attributeName h (show tmpNameAttribute ∈ attributes by decide)).2]

end Attributes

mutual

def EveryLeaf (P : Zval → Prop) : Zval → Prop
  | .string val => P (.string val)
  | .long lval => P (.long lval)
  | .array es _ => EveryLeafOf P es

def EveryLeafOf (P : Zval → Prop) : List (HashKey × Zval) → Prop
  | [] => True
  | (_, z) :: es => EveryLeaf P z ∧ EveryLeafOf P es

end

section Leaves

variable {P Q : Zval → Prop}

theorem everyLeafOf_iff {es : List (HashKey × Zval)} :
    EveryLeafOf P es ↔ ∀ e ∈ es, EveryLeaf P e.2 := by
  induction es with
  | nil => simp [EveryLeafOf]
  | cons e es ih => rw [EveryLeafOf, ih, List.forall_mem_cons]

mutual

theorem EveryLeaf.mono (hPQ : ∀ z, P z → Q z) : ∀ {z : Zval}, EveryLeaf P z → EveryLeaf Q z
  | .string _, h => hPQ _ h
  | .long _, h => hPQ _ h
  | .array _ _, h => EveryLeafOf.mono hPQ h

theorem EveryLeafOf.mono (hPQ : ∀ z, P z → Q z) : ∀ {es : List (HashKey × Zval)},
    EveryLeafOf P es → EveryLeafOf Q es
  | [], _ => trivial
  | (_, _) :: _, h => ⟨EveryLeaf.mono hPQ h.1, EveryLeafOf.mono hPQ h.2⟩

end

theorem everyLeaf_update {k : HashKey} {z : Zval} {t : Table} (ht : EveryLeafOf P t.elements)
    (hz : EveryLeaf P z) : EveryLeafOf P (t.update k z).elements := by
  rw [everyLeafOf_iff] at ht ⊢
  intro e he
  rcases Table.mem_store he with rfl | he
  · exact hz
  · exact ht e he

theorem everyLeaf_nextIndexInsert {z : Zval} {t t' : Table} (ht : EveryLeafOf P t.elements)
    (hz : EveryLeaf P z) (h : t.nextIndexInsert z = some t') : EveryLeafOf P t'.elements := by
  rw [Table.nextIndexInsert] at h
  split at h
  · exact nomatch h
  · cases h
    exact everyLeaf_update ht hz

theorem everyLeaf_find {k : HashKey} {t sub : Table} (ht : EveryLeafOf P t.elements)
    (h : (t.find k).bind Zval.table = some sub) : EveryLeafOf P sub.elements := by
  obtain ⟨z, hz, htable⟩ := Option.bind_eq_some_iff.mp h
  rw [Table.find, Option.map_eq_some_iff] at hz
  obtain ⟨e, he, rfl⟩ := hz
  have hleaf := everyLeafOf_iff.mp ht e (List.mem_of_find?_eq_some he)
  cases hsnd : e.2 with
  | array es next =>
    rw [hsnd] at htable hleaf
    cases htable
    exact hleaf
  | string val => cases (hsnd ▸ htable)
  | long lval => cases (hsnd ▸ htable)

theorem everyLeaf_put (p : List (Option HashKey)) {val : Zval} (hval : EveryLeaf P val) (t : Table)
    (ht : EveryLeafOf P t.elements) : EveryLeafOf P (put p val t).elements := by
  induction p, val, t using put.induct with
  | case1 => exact ht
  | case2 => exact everyLeaf_update ht hval
  | case3 val t =>
    rw [put]
    cases h : t.nextIndexInsert val with
    | none => exact ht
    | some t' => exact everyLeaf_nextIndexInsert ht hval h
  | case4 k o p val t sub hsub ih =>
    rw [put, hsub]
    exact everyLeaf_update ht (ih hval (everyLeaf_find ht hsub))
  | case5 k o p val t hsub ih =>
    rw [put, hsub]
    exact everyLeaf_update ht (ih hval trivial)
  | case6 o p val t t' ht' ih =>
    rw [put, ht']
    have hnew : EveryLeaf P (Table.zval {}) := trivial
    exact everyLeaf_update (everyLeaf_nextIndexInsert ht hnew ht') (ih hval trivial)
  | case7 o p val t ht' =>
    rw [put, ht']
    exact ht

theorem everyLeaf_below (p : List (Option HashKey)) {val : Zval} (hval : EveryLeaf P val)
    {z : Option Zval} (hz : ∀ x ∈ z, EveryLeaf P x) : EveryLeaf P (below p val z) := by
  cases p with
  | nil => exact hval
  | cons o p =>
    rw [below, Table.zval]
    apply everyLeaf_put (o :: p) hval
    cases z with
    | none => trivial
    | some z =>
      have hleaf := hz z rfl
      cases z with
      | array es next => exact hleaf
      | string val => trivial
      | long lval => trivial

end Leaves

end Php53.Main
