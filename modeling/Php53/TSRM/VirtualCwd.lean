import Mathlib.Data.List.Basic
import Php53.Zend.Decimal

/-!
# VirtualCwd — `tsrm_realpath_r`, `virtual_file_ex` and the realpath cache

The functions of `tsrm_virtual_cwd.c` as they are compiled for Unix.  The kernel is a parameter: a file
system that does not change answers `lstat` and `readlink` from the path alone.
-/

namespace Php53.TSRM

open Zend (ch)

def maxPathLen : Nat := 4096

def linkMax : Nat := 32

/-- `st_mode`, as far as it is looked at. -/
inductive FileType where
  | regular | directory | link
  deriving DecidableEq, Repr

/-- `lstat` and `readlink` of a file system that does not change. -/
structure Kernel where
  lstat : List UInt8 → Option FileType
  readlink : List UInt8 → Option (List UInt8)
  readlink_length : ∀ path target, readlink path = some target → target.length < maxPathLen

/-- `CWD_EXPAND`, `CWD_FILEPATH` and `CWD_REALPATH`. -/
inductive Mode where
  | expand | filepath | realpath
  deriving DecidableEq, Repr

structure Bucket where
  key : UInt64
  path : List UInt8
  realpath : List UInt8
  isDir : Bool
  expires : Int
  deriving DecidableEq, Repr

def bucketSize (path realpath : List UInt8) : Int :=
  56 + path.length + 1 + if realpath = path then 0 else realpath.length + 1

/-- `realpath_cache` and `realpath_cache_size`. -/
structure Cache where
  buckets : Fin 1024 → List Bucket
  size : Int

def Cache.empty : Cache := { buckets := fun _ => [], size := 0 }

/-- The INI settings and the clock; `time n` is what the `n`-th call of `time` returns. -/
structure Settings where
  ttl : Int
  sizeLimit : Int
  time : Nat → Int

/-- `realpath_cache_key`; a `char` is signed. -/
def realpathCacheKey (path : List UInt8) : UInt64 :=
  path.foldl (fun h c => (h * 16777619) ^^^ c.toInt8.toInt64.toUInt64) 2166136261

def chain (key : UInt64) : Fin 1024 := Fin.ofNat 1024 key.toNat

/-- The loop of `realpath_cache_find`: what is found, what is left of the chain, and how much memory
is given back. -/
def findInChain (ttl t : Int) (key : UInt64) (path : List UInt8) :
    List Bucket → Option Bucket × List Bucket × Int
  | [] => (none, [], 0)
  | b :: rest =>
    if ttl ≠ 0 ∧ b.expires < t then
      let r := findInChain ttl t key path rest
      (r.1, r.2.1, r.2.2 + bucketSize b.path b.realpath)
    else if key = b.key ∧ path = b.path then (some b, b :: rest, 0)
    else
      let r := findInChain ttl t key path rest
      (r.1, b :: r.2.1, r.2.2)

def realpathCacheFind (ttl t : Int) (path : List UInt8) (c : Cache) : Option Bucket × Cache :=
  let n := chain (realpathCacheKey path)
  let r := findInChain ttl t (realpathCacheKey path) path (c.buckets n)
  (r.1, { buckets := Function.update c.buckets n r.2.1, size := c.size - r.2.2 })

def realpathCacheAdd (e : Settings) (path realpath : List UInt8) (isDir : Bool) (t : Int) (c : Cache) :
    Cache :=
  let size := bucketSize path realpath
  if c.size + size ≤ e.sizeLimit then
    let key := realpathCacheKey path
    let n := chain key
    let bucket := { key, path, realpath, isDir, expires := t + e.ttl }
    { buckets := Function.update c.buckets n (bucket :: c.buckets n), size := c.size + size }
  else c

/-- `memcpy(buf + k, bytes, bytes.length)`. -/
def memcpy (buf : List UInt8) (k : Nat) (bytes : List UInt8) : List UInt8 :=
  buf.take k ++ bytes ++ buf.drop (k + bytes.length)

def cString (buf : List UInt8) : List UInt8 := buf.takeWhile (· ≠ 0)

/-- A symbolic link that was followed, and in which mode. -/
structure Followed where
  mode : Mode
  path : List UInt8
  deriving DecidableEq, Repr

/-- What `tsrm_realpath_r` changes: `path`, `*ll` (the links themselves stand for their number), `*t`
and the cache; `asked` counts the calls of `time`. -/
structure Vars where
  path : List UInt8
  ll : List Followed
  t : Int
  asked : Nat
  cache : Cache

/-- What it returns.  `undefined`: it has written outside its buffer. -/
inductive Ret where
  | length (j : Nat)
  | error
  | undefined
  deriving DecidableEq, Repr

/-- The end of a call; `linkIsDir` is what it leaves in `*link_is_dir`, where 0 was before. -/
structure Resolved where
  ret : Ret
  linkIsDir : Bool
  vars : Vars

/-- `i = len; while (i > start && !IS_SLASH(path[i-1])) i--;` -/
def nameStart (path : List UInt8) (start : Nat) : Nat → Nat
  | 0 => 0
  | i + 1 => if start < i + 1 ∧ path.getD i 0 ≠ ch '/' then nameStart path start i else i + 1

theorem nameStart_le (path : List UInt8) (start len : Nat) : nameStart path start len ≤ len := by
  induction len with
  | zero => exact Nat.le_refl 0
  | succ i ih =>
    rw [nameStart]
    split
    · exact Nat.le_succ_of_le ih
    · exact Nat.le_refl _

/-- `j--; while (j > start && !IS_SLASH(path[j])) j--;` -/
def dirEnd (path : List UInt8) (start : Nat) : Nat → Nat
  | 0 => 0
  | j + 1 => if start < j ∧ path.getD j 0 ≠ ch '/' then dirEnd path start j else j

/-- What becomes of `..` behind the directory that `path` has been resolved to, `j` bytes long.  A
leading `..` of a relative path is kept. -/
def dropDirectory (start : Nat) (r : Resolved) : Resolved :=
  match r.ret with
  | .length j =>
    if start < j then
      let path := r.vars.path
      let j := dirEnd path start j
      if start = 0 then
        if j = 0 ∧ path.getD 0 0 = ch '.' ∧ path.getD 1 0 = ch '.' ∧ path.getD 2 0 = ch '/' then
          ⟨.length 5, true, { r.vars with path := memcpy path 3 [ch '.', ch '.', ch '/'] }⟩
        else if 0 < j ∧ path.getD (j + 1) 0 = ch '.' ∧ path.getD (j + 2) 0 = ch '.' ∧
            path.getD (j + 3) 0 = ch '/' then
          if j + 6 < maxPathLen then
            ⟨.length (j + 6), true, { r.vars with path := memcpy path (j + 4) [ch '.', ch '.', ch '/'] }⟩
          else ⟨.undefined, true, r.vars⟩
        else ⟨.length j, true, r.vars⟩
      else ⟨.length j, true, r.vars⟩
    else if start = 0 ∧ j = 0 then
      ⟨.length 2, true, { r.vars with path := memcpy r.vars.path 0 [ch '.', ch '.', ch '/'] }⟩
    else ⟨.length j, true, r.vars⟩
  | ret => ⟨ret, true, r.vars⟩

def Vars.lookup (e : Settings) (start len : Nat) (mode : Mode) (v : Vars) : Option Bucket × Vars :=
  if start ≠ 0 ∧ mode ≠ .expand ∧ e.sizeLimit ≠ 0 then
    let v := if v.t = 0 then { v with t := e.time v.asked, asked := v.asked + 1 } else v
    let r := realpathCacheFind e.ttl v.t (v.path.take len) v.cache
    (r.1, { v with cache := r.2 })
  else (none, v)

/-- The path that was resolved goes to the cache. -/
def Resolved.remember (e : Settings) (start : Nat) (save : Bool) (tmp : List UInt8) (r : Resolved) :
    Resolved :=
  match r.ret with
  | .length j =>
    if save ∧ start ≠ 0 ∧ e.sizeLimit ≠ 0 then
      let cache := realpathCacheAdd e tmp (r.vars.path.take j) r.linkIsDir r.vars.t r.vars.cache
      { r with vars := { r.vars with cache } }
    else r
  | _ => r

/-- The name behind the directory that `r` has resolved; `isDir` goes to `*link_is_dir`. -/
def Resolved.appendName (start : Nat) (name : List UInt8) (isDir : Bool) (r : Resolved) : Resolved :=
  match r.ret with
  | .length j =>
    let path := if start < j then memcpy r.vars.path j [ch '/'] else r.vars.path
    let j := if start < j then j + 1 else j
    if maxPathLen - 1 ≤ j + name.length then ⟨.error, false, { r.vars with path }⟩
    else
      ⟨.length (j + name.length), isDir, { r.vars with path := memcpy path j (name ++ [0]) }⟩
  | ret => ⟨ret, false, r.vars⟩

@[simp] theorem Vars.lookup_ll (e : Settings) (start len : Nat) (mode : Mode) (v : Vars) :
    (v.lookup e start len mode).2.ll = v.ll := by
  rw [Vars.lookup]
  split
  · dsimp only
    split <;> rfl
  · rfl

/-- `save && php_sys_lstat(path, &st) >= 0`, where `save` is `use_realpath != CWD_EXPAND`. -/
def Kernel.stat (k : Kernel) (mode : Mode) (path : List UInt8) : Option FileType :=
  if mode = .expand then none else k.lstat (cString path)

theorem links_left {links target : Nat} (len : Nat) (hlinks : ¬ linkMax < links + 1)
    (htarget : target < maxPathLen) :
    (linkMax - (links + 1)) * maxPathLen + target < (linkMax - links) * maxPathLen + len := by
  have hleft : linkMax - links = linkMax - (links + 1) + 1 := by omega
  rw [hleft, Nat.add_mul, Nat.one_mul]
  omega

/-- `tsrm_realpath_r`; a `NULL` for `link_is_dir` is a value that nobody looks at. -/
def tsrmRealpathR (k : Kernel) (e : Settings) (mode : Mode) (isDir : Bool) (start len : Nat) (v : Vars) :
    Resolved :=
  if len ≤ start then ⟨.length start, true, v⟩
  else
    let i := nameStart v.path start len
    if i = len ∨ i + 1 = len ∧ v.path.getD i 0 = ch '.' then
      -- double slashes and '.'
      tsrmRealpathR k e mode true start (i - 1) v
    else if i + 2 = len ∧ v.path.getD i 0 = ch '.' ∧ v.path.getD (i + 1) 0 = ch '.' then
      if i - 1 ≤ start then ⟨.length (if start ≠ 0 then start else len), true, v⟩
      else dropDirectory start (tsrmRealpathR k e mode true start (i - 1) v)
    else
      let tmp := v.path.take len
      let found := Vars.lookup e start len mode { v with path := memcpy v.path len [0] }
      let w := found.2
      match found.1 with
      | some bucket =>
        if isDir ∧ bucket.isDir = false then ⟨.error, false, w⟩
        else
          ⟨.length bucket.realpath.length, bucket.isDir,
            { w with path := memcpy w.path 0 (bucket.realpath ++ [0]) }⟩
      | none =>
        match k.stat mode w.path with
        | none =>
          if mode = .realpath then ⟨.error, false, w⟩
          else if i - 1 ≤ start then
            Resolved.appendName start (tmp.drop i) false ⟨.length start, true, w⟩
          else Resolved.appendName start (tmp.drop i) false (tsrmRealpathR k e mode true start (i - 1) w)
        | some .link =>
          let ll := ⟨mode, tmp⟩ :: w.ll
          if _hll : linkMax < w.ll.length + 1 then ⟨.error, false, { w with ll }⟩
          else
            match _hk : k.readlink (cString tmp) with
            | none => ⟨.error, false, { w with ll }⟩
            | some target =>
              if target.getD 0 0 = ch '/' then
                Resolved.remember e start true tmp
                  (tsrmRealpathR k e mode isDir 1 target.length
                    { w with ll, path := memcpy w.path 0 (target ++ [0]) })
              else if maxPathLen - 1 ≤ i + target.length then
                ⟨.error, false, { w with ll, path := memcpy w.path 0 (target ++ [0]) }⟩
              else if i = 0 then ⟨.undefined, false, { w with ll }⟩
              else
                Resolved.remember e start true tmp
                  (tsrmRealpathR k e mode isDir start (i + target.length)
                    { w with ll, path := memcpy w.path 0 (tmp.take (i - 1) ++ ch '/' :: (target ++ [0])) })
        | some type =>
          if isDir ∧ type ≠ .directory then ⟨.error, false, w⟩
          else if i - 1 ≤ start then
            Resolved.remember e start true tmp
              (Resolved.appendName start (tmp.drop i) (decide (type = .directory)) ⟨.length start, true, w⟩)
          else
            Resolved.remember e start true tmp
              (Resolved.appendName start (tmp.drop i) (decide (type = .directory))
                (tsrmRealpathR k e .filepath true start (i - 1) w))
termination_by (linkMax - v.ll.length) * maxPathLen + len
decreasing_by
  all_goals have hi := nameStart_le v.path start len
  · omega
  · omega
  · simp only [Vars.lookup_ll]
    omega
  · rw [show w.ll = v.ll from Vars.lookup_ll _ _ _ _ _] at _hll
    simp only [Vars.lookup_ll, List.length_cons]
    exact links_left len _hll (k.readlink_length _ _ _hk)
  · rw [show w.ll = v.ll from Vars.lookup_ll _ _ _ _ _] at _hll
    simp only [Vars.lookup_ll, List.length_cons]
    exact links_left len _hll (by omega)
  · simp only [Vars.lookup_ll]
    omega

/-- What `virtual_file_ex` leaves: its value, `state->cwd`, the links that were met, and the cache. -/
structure Outcome where
  ret : Int
  cwd : List UInt8
  ll : List Followed
  cache : Cache

def Outcome.answer (o : Outcome) : Int × List UInt8 := (o.ret, o.cwd)

def Fits (cwd path : List UInt8) : Prop :=
  0 < path.length ∧ path.length < maxPathLen - 1 ∧
    (path.headD 0 = ch '/' ∨ cwd.length = 0 ∨ path.length + cwd.length + 1 < maxPathLen - 1)

instance (cwd path : List UInt8) : Decidable (Fits cwd path) := inferInstanceAs (Decidable (_ ∧ _))

/-- `start`: a relative path without a current directory stays relative. -/
def startOf (cwd path : List UInt8) : Nat :=
  if path.headD 0 ≠ ch '/' ∧ cwd.length = 0 then 0 else 1

/-- `resolved_path` as it is handed to `tsrm_realpath_r`. -/
def fullPath (cwd path : List UInt8) : List UInt8 :=
  if path.headD 0 ≠ ch '/' ∧ cwd.length ≠ 0 then
    if cwd.getLastD 0 = ch '/' then cwd ++ path else cwd ++ ch '/' :: path
  else path

/-- What `virtual_file_ex` makes of the path that has been resolved: its value and `state->cwd`. -/
def answerFor (cwd path : List UInt8) (verifyPath : Option (List UInt8 → Bool)) (mode : Mode)
    (resolved : List UInt8) : Int × List UInt8 :=
  let resolved := if startOf cwd path = 0 ∧ resolved.length = 0 then [ch '.'] else resolved
  let addSlash := mode ≠ .realpath ∧ (fullPath cwd path).getLastD 0 = ch '/' ∧
    resolved.length ≠ 0 ∧ resolved.getLastD 0 ≠ ch '/'
  if addSlash ∧ maxPathLen - 1 ≤ resolved.length then (-1, cwd)
  else
    let resolved := if addSlash then resolved ++ [ch '/'] else resolved
    match verifyPath with
    | some verify => if verify resolved then (1, cwd) else (0, resolved)
    | none => (0, resolved)

/-- The end of `virtual_file_ex`, behind the call of `tsrm_realpath_r`. -/
def Resolved.finish (cwd path : List UInt8) (verifyPath : Option (List UInt8 → Bool)) (mode : Mode)
    (r : Resolved) : Option Outcome :=
  match r.ret with
  | .undefined => none
  | .error => some ⟨1, cwd, r.vars.ll, r.vars.cache⟩
  | .length j =>
    let a := answerFor cwd path verifyPath mode (r.vars.path.take j)
    some ⟨a.1, a.2, r.vars.ll, r.vars.cache⟩

/-- `virtual_file_ex`; `stack` is what the memory of `resolved_path` holds, and `none` a step that is
undefined. -/
def virtualFileEx (k : Kernel) (e : Settings) (stack cwd path : List UInt8)
    (verifyPath : Option (List UInt8 → Bool)) (mode : Mode) (cache : Cache) : Option Outcome :=
  if Fits cwd path then
    let full := fullPath cwd path
    Resolved.finish cwd path verifyPath mode
      (tsrmRealpathR k e mode false (startOf cwd path) full.length
        { path := memcpy stack 0 (full ++ [0]), ll := [], t := if e.ttl ≠ 0 then 0 else -1, asked := 0,
          cache })
  else some ⟨1, cwd, [], cache⟩

end Php53.TSRM
