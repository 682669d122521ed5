import Php53.TSRM.VirtualCwd

/-!
# Resolution — what an absolute path is resolved to

`next` is what the last component of a path asks for, and `Resolves` what comes of following it: no
cache, no clock, no buffer, and no limit on the number of symbolic links.
-/

namespace Php53.TSRM

open Zend (ch)

variable {r : List UInt8 × Bool}

/-- The last component of a path and what is in front of its slash. -/
inductive LastPart where
  | here (front : List UInt8)
  | up (front : List UInt8)
  | name (front name : List UInt8)

def lastPart (text : List UInt8) : LastPart :=
  let i := nameStart text 1 text.length
  let front := text.take (i - 1)
  let name := text.drop i
  if name = [] ∨ name = [ch '.'] then .here front
  else if name = [ch '.', ch '.'] then .up front
  else .name front name

def parent (path : List UInt8) : List UInt8 :=
  if 1 < path.length then path.take (dirEnd path 1 path.length) else path

def append (name : List UInt8) (isDir : Bool) (dir : Option (List UInt8 × Bool)) :
    Option (List UInt8 × Bool) :=
  dir.bind fun r =>
    let path := if 1 < r.1.length then r.1 ++ [ch '/'] else r.1
    if maxPathLen - 1 ≤ path.length + name.length then none else some (path ++ name, isDir)

/-- What a path asks for: nothing more, or what another path is resolved to, with `links` symbolic
links followed. -/
inductive Next where
  | done (links : Nat) (result : Option (List UInt8 × Bool))
  | go (mode : Mode) (isDir : Bool) (text : List UInt8) (links : Nat)
      (result : Option (List UInt8 × Bool) → Option (List UInt8 × Bool))

def next (k : Kernel) (mode : Mode) (isDir : Bool) (text : List UInt8) : Next :=
  if text.length ≤ 1 then .done 0 (some ([ch '/'], true))
  else
    match lastPart text with
    | .here front => .go mode true front 0 id
    | .up front => .go mode true front 0 (Option.map fun r => (parent r.1, true))
    | .name front name =>
      match k.stat mode text with
      | none => if mode = .realpath then .done 0 none else .go mode true front 0 (append name false)
      | some .link =>
        match k.readlink (cString text) with
        | none => .done 1 none
        | some target =>
          if target.getD 0 0 = ch '/' then .go mode isDir target 1 id
          else if maxPathLen - 1 ≤ front.length + 1 + target.length then .done 1 none
          else .go mode isDir (front ++ ch '/' :: target) 1 id
      | some type =>
        if isDir ∧ type ≠ .directory then .done 0 none
        else .go .filepath true front 0 (append name (decide (type = .directory)))

/-- `Resolves k mode isDir text n result`: the absolute path `text` is resolved to `result`, the path
and whether it is a directory, and `n` symbolic links are followed on the way. -/
inductive Resolves (k : Kernel) :
    Mode → Bool → List UInt8 → Nat → Option (List UInt8 × Bool) → Prop where
  | done {mode : Mode} {isDir : Bool} {text : List UInt8} {links : Nat}
      {result : Option (List UInt8 × Bool)} :
      next k mode isDir text = .done links result → Resolves k mode isDir text links result
  | go {mode mode' : Mode} {isDir isDir' : Bool} {text text' : List UInt8} {links n : Nat}
      {f : Option (List UInt8 × Bool) → Option (List UInt8 × Bool)}
      {result : Option (List UInt8 × Bool)} :
      next k mode isDir text = .go mode' isDir' text' links f → Resolves k mode' isDir' text' n result →
      Resolves k mode isDir text (n + links) (f result)

variable {k : Kernel} {mode : Mode} {isDir : Bool} {text : List UInt8}

theorem Resolves.unique {n n' : Nat} {result result' : Option (List UInt8 × Bool)}
    (h : Resolves k mode isDir text n result) (h' : Resolves k mode isDir text n' result') :
    n = n' ∧ result = result' := by
  induction h generalizing n' result' with
  | done hnext =>
    cases h' with
    | done hnext' =>
      obtain ⟨rfl, rfl⟩ := Next.done.inj (hnext.symm.trans hnext')
      exact ⟨rfl, rfl⟩
    | go hnext' _ => exact nomatch hnext.symm.trans hnext'
  | go hnext _ ih =>
    cases h' with
    | done hnext' => exact nomatch hnext.symm.trans hnext'
    | go hnext' h' =>
      obtain ⟨rfl, rfl, rfl, rfl, rfl⟩ := Next.go.inj (hnext.symm.trans hnext')
      obtain ⟨rfl, rfl⟩ := ih h'
      exact ⟨rfl, rfl⟩

/-! What the last component asks for, case by case. -/

theorem next_root (h : text.length ≤ 1) : next k mode isDir text = .done 0 (some ([ch '/'], true)) := by
  rw [next, if_pos h]

section

variable {front name : List UInt8} (hlen : ¬ text.length ≤ 1)

variable {target : List UInt8}

include hlen

theorem next_here (hpart : lastPart text = .here front) :
    next k mode isDir text = .go mode true front 0 id := by
  rw [next, if_neg hlen, hpart]

theorem next_up (hpart : lastPart text = .up front) :
    next k mode isDir text = .go mode true front 0 (Option.map fun r => (parent r.1, true)) := by
  rw [next, if_neg hlen, hpart]

variable (hpart : lastPart text = .name front name)

include hpart

theorem next_missing (hstat : k.stat .realpath text = none) :
    next k .realpath isDir text = .done 0 none := by
  rw [next, if_neg hlen, hpart]
  dsimp only
  rw [hstat]
  rfl

theorem next_absent (hstat : k.stat mode text = none) (hmode : mode ≠ .realpath) :
    next k mode isDir text = .go mode true front 0 (append name false) := by
  rw [next, if_neg hlen, hpart]
  dsimp only
  rw [hstat]
  exact if_neg hmode

theorem next_unreadable (hstat : k.stat mode text = some .link)
    (hlink : k.readlink (cString text) = none) : next k mode isDir text = .done 1 none := by
  rw [next, if_neg hlen, hpart]
  dsimp only
  rw [hstat, hlink]

section

variable (hstat : k.stat mode text = some .link) (hlink : k.readlink (cString text) = some target)

include hstat hlink

theorem next_absolute (hslash : target.getD 0 0 = ch '/') :
    next k mode isDir text = .go mode isDir target 1 id := by
  rw [next, if_neg hlen, hpart]
  dsimp only
  rw [hstat, hlink]
  exact if_pos hslash

theorem next_tooLong (hslash : target.getD 0 0 ≠ ch '/')
    (hlong : maxPathLen - 1 ≤ front.length + 1 + target.length) :
    next k mode isDir text = .done 1 none := by
  rw [next, if_neg hlen, hpart]
  dsimp only
  rw [hstat, hlink]
  exact (if_neg hslash).trans (if_pos hlong)

theorem next_relative (hslash : target.getD 0 0 ≠ ch '/')
    (hlong : ¬ maxPathLen - 1 ≤ front.length + 1 + target.length) :
    next k mode isDir text = .go mode isDir (front ++ ch '/' :: target) 1 id := by
  rw [next, if_neg hlen, hpart]
  dsimp only
  rw [hstat, hlink]
  exact (if_neg hslash).trans (if_neg hlong)

end

theorem next_notDirectory {type : FileType} (hstat : k.stat mode text = some type)
    (htype : type ≠ .link) (hdir : isDir ∧ type ≠ .directory) :
    next k mode isDir text = .done 0 none := by
  rw [next, if_neg hlen, hpart]
  dsimp only
  rw [hstat]
  cases type with
  | link => exact absurd rfl htype
  | regular => exact if_pos hdir
  | directory => exact if_pos hdir

theorem next_entry {type : FileType} (hstat : k.stat mode text = some type)
    (htype : type ≠ .link) (hdir : ¬ (isDir ∧ type ≠ .directory)) :
    next k mode isDir text =
      .go .filepath true front 0 (append name (decide (type = .directory))) := by
  rw [next, if_neg hlen, hpart]
  dsimp only
  rw [hstat]
  cases type with
  | link => exact absurd rfl htype
  | regular => exact if_neg hdir
  | directory => exact if_neg hdir

end

/-- A path that `CWD_REALPATH` resolves. -/
def Exists (k : Kernel) (text : List UInt8) : Prop :=
  ∃ n r, Resolves k .realpath false text n (some r)

def wanted (isDir : Bool) (r : List UInt8 × Bool) : Option (List UInt8 × Bool) :=
  if isDir ∧ r.2 = false then none else some r

theorem wanted_directory (isDir : Bool) (h : r.2 = true) :
    wanted isDir r = some r := by
  rw [wanted, h]
  exact if_neg fun hb => nomatch hb.2

theorem Kernel.stat_realpath (h : mode ≠ .expand) : k.stat mode text = k.stat .realpath text := by
  rw [Kernel.stat, Kernel.stat, if_neg h, if_neg nofun]

theorem append_isDir {name : List UInt8} {dir : Option (List UInt8 × Bool)}
    (h : append name isDir dir = some r) : r.2 = isDir := by
  obtain ⟨d, -, hd⟩ := Option.bind_eq_some_iff.mp h
  dsimp only at hd
  generalize (if 1 < d.1.length then d.1 ++ [ch '/'] else d.1) = path at hd
  split at hd
  · exact nomatch hd
  · rw [← Option.some.inj hd]

theorem Resolves.lenient {n : Nat} (h : Resolves k .realpath isDir text n (some r)) :
    (isDir = true → r.2 = true) ∧
      ∀ mode isDir', mode ≠ .expand → ∃ n', Resolves k mode isDir' text n' (wanted isDir' r) := by
  generalize hmode : Mode.realpath = m at h
  generalize hresult : some r = result at h
  induction h generalizing r with
  | @done mode isDir text links result hnext =>
    subst hmode hresult
    rw [next] at hnext
    split at hnext
    · rename_i hlen
      obtain ⟨-, hr⟩ := Next.done.inj hnext
      obtain rfl := Option.some.inj hr
      refine ⟨fun _ => rfl, fun mode isDir' _ => ⟨0, ?_⟩⟩
      rw [wanted_directory isDir' rfl]
      exact .done (by rw [next, if_pos hlen])
    · split at hnext
      · cases hnext
      · cases hnext
      · split at hnext
        · cases hnext
        · split at hnext
          · cases hnext
          · split at hnext
            · cases hnext
            · split at hnext <;> cases hnext
        · split at hnext <;> cases hnext
  | @go mode mode' isDir isDir' text text' links n f result hnext h ih =>
    subst hmode
    rw [next] at hnext
    split at hnext
    · cases hnext
    rename_i hlen
    split at hnext
    · rename_i front hpart
      obtain ⟨rfl, rfl, rfl, rfl, rfl⟩ := Next.go.inj hnext
      obtain ⟨hdir, hall⟩ := ih rfl hresult
      refine ⟨fun _ => hdir rfl, fun mode isDir' hmode => ?_⟩
      obtain ⟨n', hn⟩ := hall mode true hmode
      rw [wanted_directory _ (hdir rfl)] at hn ⊢
      exact ⟨_, .go (next_here hlen hpart) hn⟩
    · rename_i front hpart
      obtain ⟨rfl, rfl, rfl, rfl, rfl⟩ := Next.go.inj hnext
      obtain ⟨r', hr', rfl⟩ := Option.map_eq_some_iff.mp hresult.symm
      obtain ⟨hdir, hall⟩ := ih rfl hr'.symm
      refine ⟨fun _ => rfl, fun mode isDir' hmode => ?_⟩
      obtain ⟨n', hn⟩ := hall mode true hmode
      rw [wanted_directory _ (hdir rfl)] at hn
      rw [wanted_directory _ rfl]
      exact ⟨_, .go (next_up hlen hpart) hn⟩
    · rename_i front name hpart
      split at hnext
      · cases hnext
      · rename_i hstat
        split at hnext
        · cases hnext
        rename_i target hlink
        split at hnext
        · rename_i hslash
          obtain ⟨rfl, rfl, rfl, rfl, rfl⟩ := Next.go.inj hnext
          obtain ⟨hdir, hall⟩ := ih rfl hresult
          refine ⟨hdir, fun mode isDir' hmode => ?_⟩
          obtain ⟨n', hn⟩ := hall mode isDir' hmode
          have hstat := (k.stat_realpath hmode).trans hstat
          exact ⟨_, .go (f := id) (next_absolute hlen hpart hstat hlink hslash) hn⟩
        · rename_i hslash
          split at hnext
          · cases hnext
          rename_i hlong
          obtain ⟨rfl, rfl, rfl, rfl, rfl⟩ := Next.go.inj hnext
          obtain ⟨hdir, hall⟩ := ih rfl hresult
          refine ⟨hdir, fun mode isDir' hmode => ?_⟩
          obtain ⟨n', hn⟩ := hall mode isDir' hmode
          have hstat := (k.stat_realpath hmode).trans hstat
          exact ⟨_, .go (f := id) (next_relative hlen hpart hstat hlink hslash hlong) hn⟩
      · rename_i type htype hstat
        split at hnext
        · cases hnext
        rename_i hdir
        obtain ⟨rfl, rfl, rfl, rfl, rfl⟩ := Next.go.inj hnext
        have htypeDir : r.2 = decide (type = .directory) := append_isDir hresult.symm
        have hne : type ≠ .link := fun he => htype he
        refine ⟨fun hb => ?_, fun mode isDir' hmode => ?_⟩
        · rw [htypeDir]
          exact decide_eq_true (not_not.mp fun ht => hdir ⟨hb, ht⟩)
        · have hstat := (k.stat_realpath hmode).trans hstat
          by_cases hdir' : isDir' ∧ type ≠ .directory
          · refine ⟨0, ?_⟩
            rw [wanted, htypeDir, if_pos ⟨hdir'.1, decide_eq_false hdir'.2⟩]
            exact .done (next_notDirectory hlen hpart hstat hne hdir')
          · rw [wanted, htypeDir, if_neg fun hb => hdir' ⟨hb.1, of_decide_eq_false hb.2⟩, hresult]
            exact ⟨_, .go (next_entry hlen hpart hstat hne hdir') h⟩

end Php53.TSRM
