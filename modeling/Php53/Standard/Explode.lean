import Php53.Reasoning.Split
import Php53.Streams.Delimiter
import Php53.Zend.Decimal

/-!
# Explode — `php_explode`, `php_explode_negative_limit` and `php_implode`

A place in a string is its offset or what the string has from there on.  An array is the list of its
elements in order.  The table of positions grows with what is put into it.
-/

namespace Php53.Standard

open Zend (ch)
open Reasoning
open Streams.PhpStream (memnstr memnstr_eq)
open List

/-- The `do` loop of `php_explode`, and the piece behind it; `p1` is what the string has from there
on, and `p2` where the delimiter was found in it. -/
def explodeLoop (delim : List UInt8) : Nat → List UInt8 → Nat → Int → List (List UInt8)
  | 0, p1, _, _ => [p1]
  | fuel + 1, p1, p2, limit =>
    let piece := p1.take p2
    let p1 := p1.drop (p2 + delim.length)
    match memnstr delim p1 with
    | none => [piece, p1]
    | some p2 => if limit - 1 > 1 then piece :: explodeLoop delim fuel p1 p2 (limit - 1) else [piece, p1]

def phpExplode (delim str : List UInt8) (limit : Int) : List (List UInt8) :=
  match memnstr delim str with
  | none => [str]
  | some p2 => explodeLoop delim str.length str p2 limit

/-- The `do` loop of `php_explode_negative_limit`: the positions behind the first one. -/
def positionsLoop (delim str : List UInt8) : Nat → Nat → List Nat
  | 0, _ => []
  | fuel + 1, p2 =>
    let p1 := p2 + delim.length
    match memnstr delim (str.drop p1) with
    | none => [p1]
    | some p2 => p1 :: positionsLoop delim str fuel (p1 + p2)

/-- The `for` loop that adds the pieces between one position and the next. -/
def addPieces (delim str : List UInt8) : Nat → List Nat → List (List UInt8)
  | toReturn + 1, p :: q :: positions =>
    (str.drop p).take (q - delim.length - p) :: addPieces delim str toReturn (q :: positions)
  | _, _ => []

def phpExplodeNegativeLimit (delim str : List UInt8) (limit : Int) : List (List UInt8) :=
  match memnstr delim str with
  | none => []
  | some p2 =>
    let positions := 0 :: positionsLoop delim str str.length p2
    addPieces delim str (limit + positions.length).toNat positions

/-- An element of the array; `converted` is one of another type, with the string that it is converted
to. -/
inductive Element where
  | string (str : List UInt8)
  | long (l : BitVec 64)
  | bool (b : Bool)
  | null
  | converted (str : List UInt8)

/-- What the `switch` appends. -/
def Element.text : Element → List UInt8
  | string str => str
  | long l => Zend.printLong l
  | bool b => if b then [ch '1'] else []
  | null => []
  | converted str => str

/-- The loop of `php_implode`, with `i` elements done. -/
def implodeLoop (delim : List UInt8) (numelems : Nat) : Nat → List Element → List UInt8
  | _, [] => []
  | i, tmp :: arr =>
    tmp.text ++ ((if i + 1 ≠ numelems then delim else []) ++ implodeLoop delim numelems (i + 1) arr)

def phpImplode (delim : List UInt8) (arr : List Element) : List UInt8 :=
  if arr.length = 0 then [] else implodeLoop delim arr.length 0 arr

theorem implodeLoop_eq (delim : List UInt8) (arr : List Element) (i numelems : Nat)
    (h : i + arr.length = numelems) :
    implodeLoop delim numelems i arr = intercalate delim (arr.map Element.text) := by
  induction arr generalizing i with
  | nil => rfl
  | cons tmp arr ih =>
    rw [length_cons] at h
    rw [implodeLoop, ih (i + 1) (by omega)]
    cases arr with
    | nil =>
      rw [if_neg (by rw [length_nil] at h; omega)]
      simp
    | cons next arr =>
      rw [length_cons] at h
      rw [if_pos (by omega), map_cons, map_cons, map_cons, intercalate_cons_cons,
        append_assoc]

theorem phpImplode_eq (delim : List UInt8) (arr : List Element) :
    phpImplode delim arr = intercalate delim (arr.map Element.text) := by
  unfold phpImplode
  by_cases h : arr.length = 0
  · rw [if_pos h, length_eq_zero_iff.mp h]
    rfl
  · rw [if_neg h, implodeLoop_eq delim arr 0 arr.length (Nat.zero_add _)]

variable {delim str : List UInt8}

section

variable (hdelim : delim ≠ [])

include hdelim

theorem explodeLoop_eq (fuel : Nat) (p1 : List UInt8) (p2 : Nat) (limit : Int)
    (hp2 : memnstr delim p1 = some p2) (hfuel : p1.length ≤ fuel) :
    explodeLoop delim fuel p1 p2 limit = splitN id delim (max (limit - 1).toNat 1) p1 := by
  have hpos := length_pos_of_ne_nil hdelim
  induction fuel generalizing p1 p2 limit with
  | zero =>
    have hs : search delim (p1.map id) = some p2 := by rw [map_id, ← memnstr_eq hdelim, hp2]
    have hle := search_map_le hs
    omega
  | succ fuel ih =>
    have hs : search delim (p1.map id) = some p2 := by rw [map_id, ← memnstr_eq hdelim, hp2]
    have hle := search_map_le hs
    have hcut : max (limit - 1).toNat 1 = max (limit - 1).toNat 1 - 1 + 1 := by omega
    rw [hcut, splitN_succ_some hs, explodeLoop]
    cases hnext : memnstr delim (p1.drop (p2 + delim.length)) with
    | none =>
      have hnone : search delim ((p1.drop (p2 + delim.length)).map id) = none := by
        rw [map_id, ← memnstr_eq hdelim, hnext]
      rw [splitN_none hnone]
    | some p2' =>
      show (if limit - 1 > 1 then _ else _) = _
      by_cases hlimit : limit - 1 > 1
      · rw [if_pos hlimit, ih _ p2' (limit - 1) hnext (by rw [length_drop]; omega)]
        rw [show max (limit - 1 - 1).toNat 1 = max (limit - 1).toNat 1 - 1 by omega]
      · rw [if_neg hlimit, show max (limit - 1).toNat 1 - 1 = 0 by omega]
        rfl

theorem phpExplode_eq (str : List UInt8) (limit : Int) :
    phpExplode delim str limit = splitN id delim (max (limit - 1).toNat 1) str := by
  unfold phpExplode
  cases hp2 : memnstr delim str with
  | none =>
    have hnone : search delim (str.map id) = none := by rw [map_id, ← memnstr_eq hdelim, hp2]
    rw [splitN_none hnone]
  | some p2 => exact explodeLoop_eq hdelim _ str p2 limit hp2 (Nat.le_refl _)

theorem positionsLoop_eq (fuel p p2 : Nat) (hp2 : search delim (str.drop p) = some p2)
    (hfuel : (str.drop p).length ≤ fuel) :
    (p :: positionsLoop delim str fuel (p + p2)).length = (split id delim (str.drop p)).length ∧
      ∀ n, addPieces delim str n (p :: positionsLoop delim str fuel (p + p2)) =
        (split id delim (str.drop p)).dropLast.take n := by
  have hpos := length_pos_of_ne_nil hdelim
  induction fuel generalizing p p2 with
  | zero =>
    have hs : search delim ((str.drop p).map id) = some p2 := by rw [map_id, hp2]
    have hle := search_map_le hs
    omega
  | succ fuel ih =>
    have hs : search delim ((str.drop p).map id) = some p2 := by rw [map_id, hp2]
    have hle := search_map_le hs
    have hrest : (str.drop p).drop (p2 + delim.length) = str.drop (p + p2 + delim.length) := by
      rw [drop_drop, Nat.add_assoc]
    have hlen : (str.drop (p + p2 + delim.length)).length ≤ fuel := by
      rw [← hrest, length_drop]
      omega
    have hsplit : split id delim (str.drop p) =
        (str.drop p).take p2 :: split id delim (str.drop (p + p2 + delim.length)) := by
      rw [split_some hdelim hs, hrest]
    have htake : p + p2 + delim.length - delim.length - p = p2 := by omega
    rw [hsplit, positionsLoop]
    cases hnext : memnstr delim (str.drop (p + p2 + delim.length)) with
    | none =>
      have hnone : search delim ((str.drop (p + p2 + delim.length)).map id) = none := by
        rw [map_id, ← memnstr_eq hdelim, hnext]
      rw [split_none hnone]
      refine ⟨rfl, fun n => ?_⟩
      cases n with
      | zero => rfl
      | succ n =>
        show (str.drop p).take (p + p2 + delim.length - delim.length - p) :: _ = _
        rw [htake]
        cases n <;> rfl
    | some p2' =>
      rw [memnstr_eq hdelim] at hnext
      have ⟨hlength, hpieces⟩ := ih (p + p2 + delim.length) p2' hnext hlen
      constructor
      · show (_ :: positionsLoop delim str fuel (p + p2 + delim.length + p2')).length + 1 = _
        rw [hlength]
        rfl
      · intro n
        rw [dropLast_cons_of_ne_nil split_ne_nil]
        cases n with
        | zero => rfl
        | succ n =>
          show (str.drop p).take (p + p2 + delim.length - delim.length - p) ::
            addPieces delim str n (_ :: positionsLoop delim str fuel (p + p2 + delim.length + p2')) = _
          rw [htake, hpieces, take_succ_cons]

theorem phpExplodeNegativeLimit_eq (str : List UInt8) {limit : Int} (hlimit : limit < 0) :
    phpExplodeNegativeLimit delim str limit =
      (split id delim str).take ((split id delim str).length - limit.natAbs) := by
  unfold phpExplodeNegativeLimit
  cases hp2 : memnstr delim str with
  | none =>
    have hnone : search delim (str.map id) = none := by rw [map_id, ← memnstr_eq hdelim, hp2]
    rw [split_none hnone, show [str].length - limit.natAbs = 0 by rw [length_singleton]; omega]
    rfl
  | some p2 =>
    rw [memnstr_eq hdelim] at hp2
    have hpositions := positionsLoop_eq hdelim str.length 0 p2 hp2 (by rw [drop_zero])
    rw [drop_zero, Nat.zero_add] at hpositions
    have ⟨hlength, hpieces⟩ := hpositions
    show addPieces delim str (limit + ((0 :: positionsLoop delim str str.length p2).length : Nat)).toNat
      (0 :: positionsLoop delim str str.length p2) = _
    rw [hpieces, hlength, dropLast_eq_take, take_take]
    rw [show min (limit + ((split id delim str).length : Int)).toNat ((split id delim str).length - 1) =
      (split id delim str).length - limit.natAbs by omega]

theorem phpImplode_phpExplode (str : List UInt8) (limit : Int) :
    phpImplode delim ((phpExplode delim str limit).map .string) = str := by
  rw [phpExplode_eq hdelim, phpImplode_eq, map_map]
  have htext : (splitN id delim (max (limit - 1).toNat 1) str).map (Element.text ∘ .string) =
      splitN id delim (max (limit - 1).toNat 1) str := map_id _
  rw [htext]
  exact intercalate_splitN

theorem not_occursAt_phpExplode (str : List UInt8) (limit : Int) {piece : List UInt8}
    (h : piece ∈ (phpExplode delim str limit).dropLast) (i : Nat) :
    ¬ OccursAt delim piece i := by
  rw [phpExplode_eq hdelim] at h
  have hpiece := not_occursAt_of_mem_dropLast hdelim h i
  rwa [map_id] at hpiece

theorem phpExplode_unlimited (str : List UInt8) {limit : Int}
    (h : (str.length : Int) < limit) : phpExplode delim str limit = split id delim str := by
  rw [phpExplode_eq hdelim]
  exact splitN_of_length_le hdelim (by omega)

end

end Php53.Standard
