import Php53.TSRM.PathExpansion

/-!
# Files — the paths of the session files

A key is the id of a session, which comes from the client.  Its file is named after it and may lie
some directories deep, one for each of the first characters of the key.
-/

namespace Php53.Session

open List Reasoning
open Zend (ch)
open TSRM (cString remaining)

/-- `valid characters are a..z,A..Z,0..9`, and two others. -/
def IsKeyChar (c : UInt8) : Prop :=
  (ch 'a' ≤ c ∧ c ≤ ch 'z') ∨ (ch 'A' ≤ c ∧ c ≤ ch 'Z') ∨ (ch '0' ≤ c ∧ c ≤ ch '9') ∨ c = ch ',' ∨
    c = ch '-'

instance : DecidablePred IsKeyChar := fun _ => inferInstanceAs (Decidable (_ ∨ _))

/-- The loop: `ret`, and `len` when it ends. -/
def validKeyLoop : Nat → List UInt8 → Bool × Nat
  | len, [] => (true, len)
  | len, c :: p =>
    if c = 0 then (true, len) else if IsKeyChar c then validKeyLoop (len + 1) p else (false, len)

def psFilesValidKey (key : List UInt8) : Bool :=
  let (ret, len) := validKeyLoop 0 key
  if len = 0 ∨ len > 128 then false else ret

structure PsFiles where
  basedir : List UInt8
  dirdepth : Nat

def filePrefix : List UInt8 := "sess_".toList.map ch

/-- The loop for `dirdepth`; `p` is what is left of the key. -/
def dirLevels : Nat → List UInt8 → List UInt8
  | 0, _ => []
  | i + 1, p => p.headD 0 :: ch '/' :: dirLevels i p.tail

/-- What is written in front of the NUL, none where NULL is returned. -/
def psFilesPathCreate (buflen : Nat) (data : PsFiles) (key : List UInt8) : Option (List UInt8) :=
  if (cString key).length ≤ data.dirdepth ∨
      buflen < data.basedir.length + 2 * data.dirdepth + (cString key).length + 5 +
        (filePrefix.length + 1) then none
  else some (data.basedir ++ ch '/' ::
    (dirLevels data.dirdepth (cString key) ++ (filePrefix ++ cString key)))

/-- The names below `basedir`. -/
def fileNames (data : PsFiles) (key : List UInt8) : List (List UInt8) :=
  ((cString key).take data.dirdepth).map (fun c => [c]) ++ [filePrefix ++ cString key]

variable {key : List UInt8}

theorem validKeyLoop_chars {len len' : Nat}
    (h : validKeyLoop len key = (true, len')) : ∀ c ∈ cString key, IsKeyChar c := by
  induction key generalizing len with
  | nil => exact fun c hc => absurd hc not_mem_nil
  | cons d p ih =>
    rw [validKeyLoop] at h
    by_cases hd : d = 0
    · rw [cString, takeWhile_cons_of_neg (by simp [hd])]
      exact fun c hc => absurd hc not_mem_nil
    · rw [if_neg hd] at h
      by_cases hchar : IsKeyChar d
      · rw [if_pos hchar] at h
        rw [cString, takeWhile_cons_of_pos (by simp [hd])]
        intro c hc
        cases mem_cons.mp hc with
        | inl hcd => rwa [hcd]
        | inr hcp => exact ih h c hcp
      · rw [if_neg hchar] at h
        cases h

theorem psFilesValidKey_chars (h : psFilesValidKey key = true) :
    ∀ c ∈ cString key, IsKeyChar c := by
  unfold psFilesValidKey at h
  dsimp only at h
  split at h
  · cases h
  · exact validKeyLoop_chars (Prod.ext h rfl)

theorem IsKeyChar.ne {c : UInt8} (h : IsKeyChar c) : c ≠ ch '/' ∧ c ≠ ch '.' := by
  constructor <;> rintro rfl <;> revert h <;> decide

theorem length_dirLevels (n : Nat) (p : List UInt8) : (dirLevels n p).length = 2 * n := by
  induction n generalizing p with
  | zero => rfl
  | succ n ih =>
    rw [dirLevels, length_cons, length_cons, ih]
    omega

theorem dirLevels_eq {n : Nat} (hn : n ≤ key.length) (name : List UInt8) :
    ch '/' :: (dirLevels n key ++ name) =
      behind (ch '/') ((key.take n).map (fun c => [c]) ++ [name]) := by
  induction n generalizing key with
  | zero => exact (append_nil _).symm
  | succ n ih =>
    cases key with
    | nil => exact absurd hn (Nat.not_succ_le_zero n)
    | cons c key =>
      have hrest := ih (Nat.le_of_succ_le_succ hn)
      show ch '/' :: c :: ch '/' :: (dirLevels n key ++ name) = _
      rw [hrest]
      rfl

theorem remaining_behind (front : List UInt8) {cs : List (List UInt8)}
    (h : ∀ c ∈ cs, ch '/' ∉ c ∧ TSRM.componentEffect c = .keep) :
    remaining (front ++ behind (ch '/') cs) = remaining front ++ cs := by
  induction cs using reverseRecOn with
  | nil => rw [behind, flatMap_nil, append_nil, append_nil]
  | append_singleton cs c ih =>
    have hc := h c (by simp)
    rw [behind_concat, ← append_assoc, remaining, splitOn_append_last _ hc.1, kept_concat,
      visit_keep hc.2, ← append_assoc]
    exact congrArg (· ++ [c]) (ih fun c' hc' => h c' (mem_append_left _ hc'))

theorem fileNames_keep {data : PsFiles} (h : ∀ c ∈ cString key, IsKeyChar c) :
    ∀ name ∈ fileNames data key, ch '/' ∉ name ∧ TSRM.componentEffect name = .keep := by
  intro name hname
  cases mem_append.mp hname with
  | inl hlevel =>
    obtain ⟨c, hc, rfl⟩ := mem_map.mp hlevel
    obtain ⟨hslash, hdot⟩ := (h c (mem_of_mem_take hc)).ne
    refine ⟨fun hmem => hslash (mem_singleton.mp hmem).symm, ?_⟩
    rw [TSRM.componentEffect, if_neg (by simpa using hdot), if_neg (by simp)]
  | inr hlast =>
    rw [mem_singleton.mp hlast]
    constructor
    · intro hslash
      cases mem_append.mp hslash with
      | inl hmem => exact absurd hmem (by decide)
      | inr hmem => exact (h _ hmem).ne.1 rfl
    · show TSRM.componentEffect (ch 's' :: (filePrefix.tail ++ cString key)) = .keep
      simp [TSRM.componentEffect]

/-- The file of a key that is accepted lies below the directory of the sessions whatever the client
sends, no other key has it, and its path with the NUL fits the buffer. -/
theorem session_file_is_below {buflen : Nat} {data : PsFiles} {key path : List UInt8}
    (hvalid : psFilesValidKey key = true) (hpath : psFilesPathCreate buflen data key = some path) :
    remaining path = remaining data.basedir ++ fileNames data key ∧ path.length + 1 ≤ buflen ∧
      ∀ key', psFilesValidKey key' = true → psFilesPathCreate buflen data key' = some path →
        cString key' = cString key := by
  have hnames : ∀ key, psFilesValidKey key = true → psFilesPathCreate buflen data key = some path →
      remaining path = remaining data.basedir ++ fileNames data key := by
    intro key hvalid hpath
    unfold psFilesPathCreate at hpath
    split at hpath
    · cases hpath
    · next hroom =>
      cases hpath
      rw [dirLevels_eq (by omega), ← fileNames,
        remaining_behind _ (fileNames_keep (psFilesValidKey_chars hvalid))]
  refine ⟨hnames key hvalid hpath, ?_, ?_⟩
  · unfold psFilesPathCreate at hpath
    split at hpath
    · cases hpath
    · next hroom =>
      cases hpath
      rw [length_append, length_cons, length_append, length_append, length_dirLevels]
      omega
  · intro key' hvalid' hpath'
    have hsame := append_cancel_left ((hnames key' hvalid' hpath').symm.trans (hnames key hvalid hpath))
    -- the file name alone tells the key
    have hlast := congrArg getLast? hsame
    rw [fileNames, fileNames, getLast?_concat, getLast?_concat] at hlast
    exact append_cancel_left (Option.some.inj hlast)

theorem session_file_is_below_tmp :
    remaining ("/tmp/a/sess_ab1".toList.map ch) =
        remaining ("/tmp".toList.map ch) ++ fileNames ⟨"/tmp".toList.map ch, 1⟩ ("ab1".toList.map ch) ∧
      ("/tmp/a/sess_ab1".toList.map ch).length + 1 ≤ 4096 ∧
      ∀ key', psFilesValidKey key' = true →
        psFilesPathCreate 4096 ⟨"/tmp".toList.map ch, 1⟩ key' = some ("/tmp/a/sess_ab1".toList.map ch) →
        cString key' = cString ("ab1".toList.map ch) :=
  @session_file_is_below _ ⟨"/tmp".toList.map ch, 1⟩ _ _ (by decide +kernel) (by decide +kernel)

end Php53.Session
