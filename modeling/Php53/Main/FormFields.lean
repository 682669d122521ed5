import Php53.Main.TreatData
import Php53.Main.Variables

/-!
# FormFields — form bodies and query strings field by field

Both parsers register what stands before and behind the first `=` of a field.  Of the fields between
the `&` the one for bodies leaves out those without a `=`, the one for query strings those that are
empty.
-/

open Reasoning

namespace Php53.Main

open Zend List

variable {s : List UInt8} {c : UInt8}

def decodeField (field : List UInt8) : Registration :=
  ((urlDecode (field.takeWhile (· ≠ ch '='))).takeWhile (· ≠ 0),
    urlDecode (field.dropWhile (· ≠ ch '=')).tail)

theorem decodeField_assign {name : List UInt8} (hname : ch '=' ∉ name) (value : List UInt8) :
    decodeField (name ++ ch '=' :: value) =
      ((urlDecode name).takeWhile (· ≠ 0), urlDecode value) := by
  have hall : ∀ c ∈ name, decide (c ≠ ch '=') = true := by
    intro c hc
    exact decide_eq_true fun h => hname (h ▸ hc)
  rw [decodeField, takeWhile_append_of_pos hall, dropWhile_append_of_pos hall,
    takeWhile_cons_of_neg (by simp), dropWhile_cons_of_neg (by simp), append_nil,
    tail_cons]

theorem decodeField_bare {field : List UInt8} (hfield : ch '=' ∉ field) :
    decodeField field = ((urlDecode field).takeWhile (· ≠ 0), []) := by
  have hall : ∀ c ∈ field, decide (c ≠ ch '=') = true := by
    intro c hc
    exact decide_eq_true fun h => hfield (h ▸ hc)
  rw [decodeField, takeWhile_eq_self_iff.mpr hall, dropWhile_eq_nil_iff.mpr hall]
  rfl

theorem cString_append (pre s rest : List UInt8) (hs : 0 ∉ s) :
    cString (pre ++ (s ++ 0 :: rest)) pre.length = s := by
  have hall : ∀ c ∈ s, decide (c ≠ 0) = true := by
    intro c hc
    exact decide_eq_true fun h => hs (h ▸ hc)
  rw [cString, drop_left, takeWhile_append_of_pos hall,
    takeWhile_cons_of_neg (by simp), append_nil]

theorem cString_cut (pre s rest : List UInt8) :
    cString (pre ++ (s ++ 0 :: rest)) pre.length = s.takeWhile (· ≠ 0) := by
  rw [cString, drop_left]
  by_cases hs : (0 : UInt8) ∈ s
  · obtain ⟨a, b, rfl, ha⟩ := eq_append_cons_of_mem hs
    have hall : ∀ c ∈ a, decide (c ≠ 0) = true := by
      intro c hc
      exact decide_eq_true fun h => ha (h ▸ hc)
    rw [append_assoc, takeWhile_append_of_pos hall, takeWhile_append_of_pos hall,
      cons_append, takeWhile_cons_of_neg (by simp), takeWhile_cons_of_neg (by simp)]
  · have hall : ∀ c ∈ s, decide (c ≠ 0) = true := by
      intro c hc
      exact decide_eq_true fun h => hs (h ▸ hc)
    rw [takeWhile_append_of_pos hall, takeWhile_cons_of_neg (by simp), append_nil,
      takeWhile_eq_self_iff.mpr hall]

theorem findIdx?_append_cons (hs : c ∉ s) (rest : List UInt8) :
    (s ++ c :: rest).findIdx? (· = c) = some s.length := by
  induction s with
  | nil => rw [nil_append, List.findIdx?_cons, if_pos (decide_eq_true rfl), length_nil]
  | cons x s ih =>
    rw [mem_cons, not_or] at hs
    rw [cons_append, List.findIdx?_cons, if_neg (by simpa using Ne.symm hs.1), ih hs.2]
    rfl

theorem findIdx?_of_notMem (hs : c ∉ s) :
    s.findIdx? (· = c) = none := by
  rw [List.findIdx?_eq_none_iff]
  intro x hx
  exact decide_eq_false fun h => hs (h ▸ hx)

theorem memchr_append (pre s rest : List UInt8) (c : UInt8) :
    memchr (pre ++ (s ++ rest)) pre.length c s.length =
      (s.findIdx? (· = c)).map (pre.length + ·) := by
  rw [memchr, drop_left, take_left]

theorem decode_both (pre name value post : List UInt8) (c d : UInt8) :
    ∃ pre' junk : List UInt8,
      phpUrlDecode (pre ++ (name ++ c :: (value ++ d :: post))) pre.length name.length =
        (pre' ++ (value ++ d :: post), (urlDecode name).length) ∧
      pre'.length = pre.length + name.length + 1 ∧
      phpUrlDecode (pre' ++ (value ++ d :: post)) pre'.length value.length =
        (pre' ++ (urlDecode value ++ 0 :: (junk ++ post)), (urlDecode value).length) ∧
      junk.length + (urlDecode value).length = value.length ∧
      ∀ rest, cString (pre' ++ rest) pre.length = (urlDecode name).takeWhile (· ≠ 0) := by
  obtain ⟨junk, hname, hlen⟩ := phpUrlDecode_spec pre name (value ++ d :: post) c
  obtain ⟨junk', hvalue, hlen'⟩ :=
    phpUrlDecode_spec (pre ++ (urlDecode name ++ 0 :: junk)) value post d
  refine ⟨pre ++ (urlDecode name ++ 0 :: junk), junk', ?_, ?_, hvalue, hlen', fun rest => ?_⟩
  · rw [hname]
    simp
  · simp only [length_append, length_cons]
    omega
  · rw [append_assoc, append_assoc, cons_append, cString_cut]

section Post

variable (maxInputVars : Nat) (pre post : List UInt8) (c : UInt8) (count : Nat)

variable {field : List UInt8}

theorem postField_bare (hfield : ch '=' ∉ field) :
    postField maxInputVars (pre ++ (field ++ c :: post)) pre.length
      (pre.length + field.length) count = .next (pre ++ (field ++ c :: post)) count [] := by
  rw [postField, Nat.add_sub_cancel_left, memchr_append, findIdx?_of_notMem hfield]
  rfl

theorem postField_stop (hfield : ch '=' ∈ field) (hcount : maxInputVars ≤ count) :
    postField maxInputVars (pre ++ (field ++ c :: post)) pre.length
      (pre.length + field.length) count = .stop := by
  obtain ⟨name, value, rfl, hname⟩ := eq_append_cons_of_mem hfield
  rw [postField, Nat.add_sub_cancel_left, memchr_append, findIdx?_append_cons hname]
  dsimp only [Option.map_some]
  rw [if_pos (by omega)]

theorem postField_assign (hfield : ch '=' ∈ field) (hcount : count < maxInputVars) :
    ∃ pre', postField maxInputVars (pre ++ (field ++ c :: post)) pre.length
        (pre.length + field.length) count =
        .next (pre' ++ post) (count + 1) [decodeField field] ∧
      pre'.length = pre.length + field.length + 1 := by
  obtain ⟨name, value, rfl, hname⟩ := eq_append_cons_of_mem hfield
  obtain ⟨pre', junk, hdecode, hlen, hdecode', hjunk, hcstr⟩ :=
    decode_both pre name value post (ch '=') c
  refine ⟨pre' ++ (urlDecode value ++ 0 :: junk), ?_, ?_⟩
  · rw [postField, Nat.add_sub_cancel_left, memchr_append, findIdx?_append_cons hname]
    dsimp only [Option.map_some]
    rw [if_neg (by omega), Nat.add_sub_cancel_left, append_assoc, cons_append, hdecode]
    dsimp only
    rw [show pre.length + (name ++ ch '=' :: value).length - (pre.length + name.length + 1) =
      value.length by simp; omega, ← hlen, hdecode']
    dsimp only
    rw [hcstr, bytesAt, drop_left, take_left, decodeField_assign hname]
    simp
  · simp only [length_append, length_cons, hlen]
    omega

end Post

def fieldsOf (text : List UInt8) : List (List UInt8) := text.splitOn (ch '&')

theorem fieldsOf_cases (text : List UInt8) :
    (ch '&' ∉ text ∧ fieldsOf text = [text]) ∨
      ∃ field rest, text = field ++ ch '&' :: rest ∧ ch '&' ∉ field ∧
        fieldsOf text = field :: fieldsOf rest := by
  by_cases h : ch '&' ∈ text
  · obtain ⟨field, rest, rfl, hfield⟩ := eq_append_cons_of_mem h
    exact .inr ⟨field, rest, rfl, hfield, splitOn_append_cons_self_of_not_mem hfield rest⟩
  · exact .inl ⟨h, splitOn_eq_singleton h⟩

def registrations (maxInputVars count : Nat) (fields : List (List UInt8)) : List Registration :=
  (fields.take (maxInputVars - count)).map decodeField

theorem registrations_cons {maxInputVars count : Nat} (h : count < maxInputVars)
    (field : List UInt8) (fields : List (List UInt8)) :
    registrations maxInputVars count (field :: fields) =
      decodeField field :: registrations maxInputVars (count + 1) fields := by
  obtain ⟨k, hk⟩ : ∃ k, maxInputVars - count = k + 1 := ⟨maxInputVars - count - 1, by omega⟩
  rw [registrations, hk, take_succ_cons, map_cons, registrations,
    show maxInputVars - (count + 1) = k by omega]

theorem registrations_full {maxInputVars count : Nat} (h : maxInputVars ≤ count)
    (fields : List (List UInt8)) : registrations maxInputVars count fields = [] := by
  rw [registrations, Nat.sub_eq_zero_of_le h, take_zero, map_nil]

theorem postLoop_end (maxInputVars fuel count : Nat) (mem : List UInt8) {s e : Nat} (h : e ≤ s) :
    postLoop maxInputVars e fuel mem s count = [] := by
  cases fuel with
  | zero => rfl
  | succ fuel => rw [postLoop, if_neg (by omega)]

theorem postLoop_eq (maxInputVars : Nat) (pre text : List UInt8) (fuel count : Nat)
    (hfuel : text.length < fuel) :
    postLoop maxInputVars (pre.length + text.length) fuel (pre ++ (text ++ [0])) pre.length count =
      registrations maxInputVars count
        ((fieldsOf text).filter fun field => ch '=' ∈ field) := by
  induction fuel generalizing pre text count with
  | zero => omega
  | succ fuel ih =>
    by_cases hempty : text = []
    · subst hempty
      rw [postLoop_end _ _ _ _ (by simp)]
      simp [fieldsOf, registrations]
    have hpos : 0 < text.length := length_pos_iff.mpr hempty
    rw [postLoop, if_pos (by omega), Nat.add_sub_cancel_left, memchr_append]
    rcases fieldsOf_cases text with ⟨hamp, hfields⟩ | ⟨field, rest, rfl, hamp, hfields⟩
    · rw [findIdx?_of_notMem hamp, hfields]
      dsimp only [Option.map_none, Option.getD_none]
      by_cases heq : ch '=' ∈ text
      · rw [filter_cons_of_pos (by simpa using heq)]
        rcases Nat.lt_or_ge count maxInputVars with hcount | hcount
        · obtain ⟨pre', hfield, hlen⟩ := postField_assign maxInputVars pre [] 0 count heq hcount
          rw [hfield]
          dsimp only
          rw [postLoop_end _ _ _ _ (Nat.le_succ _), registrations_cons hcount]
          simp [registrations]
        · rw [postField_stop maxInputVars pre [] 0 count heq hcount, registrations_full hcount]
      · rw [filter_cons_of_neg (by simpa using heq),
          postField_bare maxInputVars pre [] 0 count heq]
        dsimp only
        rw [postLoop_end _ _ _ _ (Nat.le_succ _)]
        simp [registrations]
    · rw [length_append, length_cons] at hfuel
      have hend : pre.length + (field ++ ch '&' :: rest).length =
          pre.length + field.length + 1 + rest.length := by
        rw [length_append, length_cons]
        omega
      rw [findIdx?_append_cons hamp, hfields, hend, append_assoc, cons_append]
      dsimp only [Option.map_some, Option.getD_some]
      by_cases heq : ch '=' ∈ field
      · rw [filter_cons_of_pos (by simpa using heq)]
        rcases Nat.lt_or_ge count maxInputVars with hcount | hcount
        · obtain ⟨pre', hfield, hlen⟩ :=
            postField_assign maxInputVars pre (rest ++ [0]) (ch '&') count heq hcount
          rw [hfield, registrations_cons hcount]
          dsimp only
          rw [← hlen, ih pre' rest (count + 1) (by omega)]
          rfl
        · rw [postField_stop maxInputVars pre (rest ++ [0]) (ch '&') count heq hcount,
            registrations_full hcount]
      · rw [filter_cons_of_neg (by simpa using heq),
          postField_bare maxInputVars pre (rest ++ [0]) (ch '&') count heq]
        have hrest := ih (pre ++ field ++ [ch '&']) rest count (by omega)
        have hlen : (pre ++ field ++ [ch '&']).length = pre.length + field.length + 1 := by
          rw [length_append, length_append, length_singleton]
        have hassoc : pre ++ field ++ [ch '&'] ++ (rest ++ [0]) =
            pre ++ (field ++ ch '&' :: (rest ++ [0])) := by simp
        rw [hlen, hassoc] at hrest
        dsimp only
        rw [nil_append, hrest]

theorem phpStdPostHandler_eq (maxInputVars : Nat) (postData : List UInt8) :
    phpStdPostHandler maxInputVars postData =
      registrations maxInputVars 0 ((fieldsOf postData).filter fun field => ch '=' ∈ field) := by
  have h := postLoop_eq maxInputVars [] postData (postData.length + 1) 0 (Nat.lt_succ_self _)
  rw [length_nil, Nat.zero_add, nil_append] at h
  exact h

theorem treatField_eq (pre post : List UInt8) {field : List UInt8} (hnul : 0 ∉ field) :
    ∃ pre', treatField (pre ++ (field ++ 0 :: post)) pre.length =
        (pre' ++ post, decodeField field) ∧
      pre'.length = pre.length + field.length + 1 := by
  have hcstr := cString_append pre field post hnul
  by_cases heq : ch '=' ∈ field
  · obtain ⟨name, value, rfl, hname⟩ := eq_append_cons_of_mem heq
    rw [mem_append, mem_cons, not_or, not_or] at hnul
    obtain ⟨pre', junk, hdecode, hlen, hdecode', hjunk, hcstr'⟩ := decode_both pre name value post 0 0
    have hset : (pre ++ (name ++ ch '=' :: value ++ 0 :: post)).set (pre.length + name.length) 0 =
        pre ++ (name ++ 0 :: (value ++ 0 :: post)) := by
      have h := set_append (pre ++ name) (value ++ 0 :: post) (ch '=') 0
      rw [length_append] at h
      simpa only [append_assoc, cons_append] using h
    have hstrlen : strlen (pre ++ (name ++ 0 :: (value ++ 0 :: post))) pre.length =
        name.length := by
      rw [strlen, cString_append pre name _ hnul.1]
    have hstrlen' : strlen (pre' ++ (value ++ 0 :: post)) pre'.length = value.length := by
      rw [strlen, cString_append pre' value post hnul.2.2]
    refine ⟨pre' ++ (urlDecode value ++ 0 :: junk), ?_, ?_⟩
    · rw [treatField, strchr, hcstr, findIdx?_append_cons hname]
      dsimp only [Option.map_some]
      rw [hset, hstrlen, hdecode]
      dsimp only
      rw [← hlen, hstrlen', hdecode']
      dsimp only
      rw [hcstr', bytesAt, drop_left, take_left, decodeField_assign hname]
      simp
    · simp only [length_append, length_cons, hlen]
      omega
  · obtain ⟨junk, hdecode, hjunk⟩ := phpUrlDecode_spec pre field post 0
    refine ⟨pre ++ (urlDecode field ++ 0 :: junk), ?_, ?_⟩
    · rw [treatField, strchr, hcstr, findIdx?_of_notMem heq]
      dsimp only [Option.map_none]
      rw [strlen, hcstr, hdecode]
      dsimp only
      rw [cString_cut, decodeField_bare heq]
      simp
    · simp only [length_append, length_cons]
      omega

theorem takeWhile_append_cons {p : UInt8 → Bool} (hs : ∀ x ∈ s, p x = true) (hc : p c = false)
    (rest : List UInt8) :
    (s ++ c :: rest).takeWhile p = s := by
  rw [takeWhile_append_of_pos hs, takeWhile_cons_of_neg (by simp [hc]), append_nil]

theorem skip_separators (pre rest : List UInt8) (n : Nat) (hc : c ≠ ch '&') :
    (((pre ++ (replicate n (ch '&') ++ c :: rest)).drop pre.length).takeWhile
      (· ∈ [ch '&'])).length = n ∧
    byteAt (pre ++ (replicate n (ch '&') ++ c :: rest)) (pre.length + n) = c := by
  constructor
  · rw [drop_left, takeWhile_append_cons, length_replicate]
    · intro x hx
      simpa using eq_of_mem_replicate hx
    · simpa using hc
  · have h := byteAt_append (pre ++ replicate n (ch '&')) rest c
    rwa [length_append, length_replicate, append_assoc] at h

theorem phpStrtokR_none (pre : List UInt8) (n : Nat) :
    phpStrtokR [ch '&'] (pre ++ (replicate n (ch '&') ++ [0])) pre.length = none := by
  obtain ⟨hskip, hbyte⟩ := skip_separators pre [] n (c := 0) (by decide)
  rw [phpStrtokR, hskip]
  dsimp only
  rw [if_pos hbyte]

section Token

variable (pre rest : List UInt8) (n : Nat) {word : List UInt8}

theorem token_ends {c : UInt8} (hc : c = 0 ∨ c = ch '&') (hnul : 0 ∉ word)
    (hamp : ch '&' ∉ word) :
    (((pre ++ (replicate n (ch '&') ++ (word ++ c :: rest))).drop
      (pre.length + n)).takeWhile fun c => c ≠ 0 ∧ c ∉ [ch '&']).length = word.length ∧
    byteAt (pre ++ (replicate n (ch '&') ++ (word ++ c :: rest)))
      (pre.length + n + word.length) = c := by
  constructor
  · rw [← append_assoc, drop_left' (by simp), takeWhile_append_cons]
    · intro x hx
      rw [decide_eq_true_iff, mem_singleton]
      exact ⟨fun h => hnul (h ▸ hx), fun h => hamp (h ▸ hx)⟩
    · rcases hc with rfl | rfl <;> simp
  · have h := byteAt_append (pre ++ replicate n (ch '&') ++ word) rest c
    simpa only [length_append, length_replicate, append_assoc, Nat.add_assoc]
      using h

theorem phpStrtokR_last (hword : word ≠ []) (hnul : 0 ∉ word) (hamp : ch '&' ∉ word) :
    phpStrtokR [ch '&'] (pre ++ (replicate n (ch '&') ++ (word ++ [0]))) pre.length =
      some (pre.length + n, pre ++ (replicate n (ch '&') ++ (word ++ [0])), none) := by
  obtain ⟨hlen, hbyte⟩ := token_ends pre [] n (.inl rfl) hnul hamp
  obtain ⟨c, word, rfl⟩ : ∃ c cs, word = c :: cs := exists_cons_of_ne_nil hword
  rw [mem_cons, not_or] at hnul hamp
  obtain ⟨hskip, hfirst⟩ := skip_separators pre (word ++ [0]) n (Ne.symm hamp.1)
  rw [← cons_append] at hskip hfirst
  rw [phpStrtokR, hskip]
  dsimp only
  rw [hfirst, if_neg (Ne.symm hnul.1), hlen, if_pos hbyte]

theorem phpStrtokR_token (hword : word ≠ []) (hnul : 0 ∉ word) (hamp : ch '&' ∉ word) :
    phpStrtokR [ch '&'] (pre ++ (replicate n (ch '&') ++ (word ++ ch '&' :: rest)))
        pre.length =
      some (pre.length + n, pre ++ (replicate n (ch '&') ++ (word ++ 0 :: rest)),
        some (pre.length + n + word.length + 1)) := by
  obtain ⟨hlen, hbyte⟩ := token_ends pre rest n (.inr rfl) hnul hamp
  have hset := set_append (pre ++ replicate n (ch '&') ++ word) rest (ch '&') 0
  simp only [length_append, length_replicate, append_assoc] at hset
  rw [← Nat.add_assoc] at hset
  obtain ⟨c, word, rfl⟩ : ∃ c cs, word = c :: cs := exists_cons_of_ne_nil hword
  rw [mem_cons, not_or] at hnul hamp
  obtain ⟨hskip, hfirst⟩ := skip_separators pre (word ++ ch '&' :: rest) n (Ne.symm hamp.1)
  rw [← cons_append] at hskip hfirst
  rw [phpStrtokR, hskip]
  dsimp only
  rw [hfirst, if_neg (Ne.symm hnul.1), hlen, hbyte, if_neg (by decide), hset]

end Token

theorem exists_separators (text : List UInt8) : ∃ n rest,
    text = replicate n (ch '&') ++ rest ∧ rest.head? ≠ some (ch '&') ∧
      (fieldsOf text).filter (· ≠ []) = (fieldsOf rest).filter (· ≠ []) := by
  induction text with
  | nil => exact ⟨0, [], rfl, by simp, rfl⟩
  | cons c text ih =>
    by_cases hc : c = ch '&'
    · obtain ⟨n, rest, rfl, hhead, hfields⟩ := ih
      subst hc
      refine ⟨n + 1, rest, rfl, hhead, ?_⟩
      have hnil : ch '&' ∉ ([] : List UInt8) := not_mem_nil
      have hsplit := splitOn_append_cons_self_of_not_mem hnil (replicate n (ch '&') ++ rest)
      rw [nil_append] at hsplit
      rw [← hfields, fieldsOf, hsplit, filter_cons_of_neg (by simp)]
      rfl
    · exact ⟨0, c :: text, rfl, by simpa using hc, rfl⟩

theorem treatLoop_none (separator : List UInt8) (maxInputVars fuel : Nat) (mem : List UInt8)
    (count : Nat) : treatLoop separator maxInputVars fuel mem none count = [] := by
  cases fuel with
  | zero => rfl
  | succ fuel => rw [treatLoop, Option.bind_none]

theorem treatLoop_eq (maxInputVars : Nat) (pre text : List UInt8) (fuel count : Nat)
    (hfuel : text.length < fuel) (hnul : 0 ∉ text) :
    treatLoop [ch '&'] maxInputVars fuel (pre ++ (text ++ [0])) (some pre.length) count =
      registrations maxInputVars count ((fieldsOf text).filter (· ≠ [])) := by
  induction fuel generalizing pre text count with
  | zero => omega
  | succ fuel ih =>
    obtain ⟨n, rest, rfl, hhead, hfields⟩ := exists_separators text
    rw [mem_append, not_or] at hnul
    rw [length_append, length_replicate] at hfuel
    have hnil : (([] : List (List UInt8))).map decodeField = [] := rfl
    rw [hfields, append_assoc, treatLoop, Option.bind_some]
    rcases fieldsOf_cases rest with ⟨hamp, hone⟩ | ⟨field, rest, rfl, hamp, hmore⟩
    · by_cases hempty : rest = []
      · subst hempty
        rw [nil_append, phpStrtokR_none, hone, filter_cons_of_neg (by simp)]
        simp [registrations]
      · rw [phpStrtokR_last pre n hempty hnul.2 hamp, hone, filter_cons_of_pos (by simpa)]
        dsimp only
        rcases Nat.lt_or_ge count maxInputVars with hcount | hcount
        · obtain ⟨pre', hfield, -⟩ := treatField_eq (pre ++ replicate n (ch '&')) [] hnul.2
          rw [length_append, length_replicate, append_assoc] at hfield
          rw [if_neg (by omega), hfield, registrations_cons hcount, treatLoop_none]
          simp [registrations]
        · rw [if_pos (by omega), registrations_full hcount]
    · have hempty : field ≠ [] := by
        rintro rfl
        exact hhead rfl
      rw [mem_append, mem_cons, not_or, not_or] at hnul
      rw [length_append, length_cons] at hfuel
      rw [append_assoc, cons_append,
        phpStrtokR_token pre (rest ++ [0]) n hempty hnul.2.1 hamp, hmore,
        filter_cons_of_pos (by simpa)]
      dsimp only
      rcases Nat.lt_or_ge count maxInputVars with hcount | hcount
      · obtain ⟨pre', hfield, hlen⟩ :=
          treatField_eq (pre ++ replicate n (ch '&')) (rest ++ [0]) hnul.2.1
        rw [length_append, length_replicate] at hlen
        rw [length_append, length_replicate, append_assoc] at hfield
        rw [if_neg (by omega), hfield, registrations_cons hcount]
        dsimp only
        rw [← hlen, ih pre' rest (count + 1) (by omega) hnul.2.2.2]
      · rw [if_pos (by omega), registrations_full hcount]

theorem phpDefaultTreatData_eq (maxInputVars : Nat) {queryString : List UInt8}
    (hnul : 0 ∉ queryString) :
    phpDefaultTreatData [ch '&'] maxInputVars queryString =
      registrations maxInputVars 0 ((fieldsOf queryString).filter (· ≠ [])) := by
  have h := treatLoop_eq maxInputVars [] queryString (queryString.length + 1) 0
    (Nat.lt_succ_self _) hnul
  rw [nil_append, length_nil] at h
  exact h

def registerAll (config : Config) (registered : List Registration) (t : Table) : Table :=
  registered.foldl (fun t r => phpRegisterVariableSafe config r.1 r.2 t) t

/-- Where every field that is not empty has a `=`, a form body and a query string register the same
variables. -/
theorem form_body_and_query_string_agree (config : Config) (maxInputVars : Nat)
    {data : List UInt8} (hnul : 0 ∉ data)
    (hassign : ∀ field ∈ fieldsOf data, field ≠ [] → ch '=' ∈ field) :
    phpStdPostHandler maxInputVars data = phpDefaultTreatData [ch '&'] maxInputVars data ∧
      registerAll config (phpStdPostHandler maxInputVars data) {} =
        registerAll config (phpDefaultTreatData [ch '&'] maxInputVars data) {} := by
  have hfields : (fieldsOf data).filter (fun field => ch '=' ∈ field) =
      (fieldsOf data).filter (· ≠ []) := by
    apply List.filter_congr
    intro field hfield
    rw [decide_eq_decide]
    refine ⟨?_, hassign field hfield⟩
    rintro heq rfl
    exact nomatch heq
  have hsame : phpStdPostHandler maxInputVars data =
      phpDefaultTreatData [ch '&'] maxInputVars data := by
    rw [phpStdPostHandler_eq, phpDefaultTreatData_eq maxInputVars hnul, hfields]
  exact ⟨hsame, by rw [hsame]⟩

/-- `a%00b=1&&c=2+=` -/
theorem form_body_and_query_string_agree_here :
    phpStdPostHandler 1000 [97, 37, 48, 48, 98, 61, 49, 38, 38, 99, 61, 50, 43, 61] =
      phpDefaultTreatData [ch '&'] 1000 [97, 37, 48, 48, 98, 61, 49, 38, 38, 99, 61, 50, 43, 61] :=
  (form_body_and_query_string_agree ⟨64, fun _ => false, fun _ _ _ => rfl⟩ 1000 (by decide +kernel)
    (by
      have hfields : fieldsOf [97, 37, 48, 48, 98, 61, 49, 38, 38, 99, 61, 50, 43, 61] =
          [[97, 37, 48, 48, 98, 61, 49], [], [99, 61, 50, 43, 61]] := by
        simp [fieldsOf, List.splitOn_cons_eq_if_modifyHead]
      rw [hfields]
      decide +kernel)).1

end Php53.Main
