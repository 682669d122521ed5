import Php53.Reasoning.Framing

/-!
# FcgiRecord — FastCGI records

A record has a header of eight bytes with the lengths of its content and of its padding.
-/

namespace Php53.Sapi

open Reasoning

inductive FcgiRequestType where
  | beginRequest
  | abortRequest
  | endRequest
  | params
  | stdin
  | stdout
  | stderr
  | data
  | getValues
  | getValuesResult
  deriving DecidableEq, Repr

def FcgiRequestType.code : FcgiRequestType → UInt8
  | .beginRequest => 1
  | .abortRequest => 2
  | .endRequest => 3
  | .params => 4
  | .stdin => 5
  | .stdout => 6
  | .stderr => 7
  | .data => 8
  | .getValues => 9
  | .getValuesResult => 10

/-- The two streams that a response is written to. -/
inductive FcgiStream where
  | stdout
  | stderr
  deriving DecidableEq, Repr

def FcgiStream.type : FcgiStream → FcgiRequestType
  | .stdout => .stdout
  | .stderr => .stderr

def fcgiVersion1 : UInt8 := 1
def fcgiMaxLength : Nat := 0xffff

def byteB1 (n : Nat) : UInt8 := .ofNat (n >>> 8 &&& 0xff)
def byteB0 (n : Nat) : UInt8 := .ofNat (n &&& 0xff)

/-- `(b1 << 8) | b0` -/
def fromBytes (b1 b0 : UInt8) : Nat := b1.toNat * 256 + b0.toNat

theorem fromBytes_eq (n : Nat) : fromBytes (byteB1 n) (byteB0 n) = n % 65536 := by
  have hmask : ∀ m : Nat, m &&& 0xff = m % 256 := fun m => Nat.and_two_pow_sub_one_eq_mod m 8
  unfold fromBytes byteB1 byteB0
  simp only [hmask, Nat.shiftRight_eq_div_pow, UInt8.toNat_ofNat']
  omega

/-- The fields of `fcgi_header` in their order. -/
def fcgiHeader (type : UInt8) (requestId len pad : Nat) : List UInt8 :=
  [fcgiVersion1, type, byteB1 requestId, byteB0 requestId, byteB1 len, byteB0 len, .ofNat pad, 0]

@[simp] theorem length_fcgiHeader (type : UInt8) (requestId len pad : Nat) :
    (fcgiHeader type requestId len pad).length = 8 := rfl

structure FcgiRecord where
  type : UInt8
  requestId : Nat
  content : List UInt8
  padding : List UInt8
  deriving DecidableEq, Repr

namespace FcgiRecord

def Valid (r : FcgiRecord) : Prop :=
  r.requestId < 65536 ∧ r.content.length ≤ fcgiMaxLength ∧ r.padding.length < 256

def encode (r : FcgiRecord) : List UInt8 :=
  fcgiHeader r.type r.requestId r.content.length r.padding.length ++ (r.content ++ r.padding)

def decode : List UInt8 → Option (FcgiRecord × List UInt8)
  | version :: type :: id1 :: id0 :: len1 :: len0 :: pad :: _ :: rest =>
    if version = fcgiVersion1 ∧ fromBytes len1 len0 + pad.toNat ≤ rest.length then
      some ({ type := type, requestId := fromBytes id1 id0, content := rest.take (fromBytes len1 len0),
              padding := (rest.drop (fromBytes len1 len0)).take pad.toNat },
        rest.drop (fromBytes len1 len0 + pad.toNat))
    else none
  | _ => none

theorem decode_encode (r : FcgiRecord) (rest : List UInt8) (h : r.Valid) :
    decode (r.encode ++ rest) = some (r, rest) := by
  obtain ⟨hid, hcontent, hpad⟩ := h
  unfold fcgiMaxLength at hcontent
  have hlen : fromBytes (byteB1 r.content.length) (byteB0 r.content.length) = r.content.length := by
    rw [fromBytes_eq, Nat.mod_eq_of_lt (by omega)]
  have hreq : fromBytes (byteB1 r.requestId) (byteB0 r.requestId) = r.requestId := by
    rw [fromBytes_eq, Nat.mod_eq_of_lt hid]
  have hpadding : (UInt8.ofNat r.padding.length).toNat = r.padding.length := by
    rw [UInt8.toNat_ofNat']
    omega
  unfold encode fcgiHeader
  simp only [List.cons_append, List.nil_append, decode, hlen, hreq, hpadding, List.append_assoc]
  rw [if_pos ⟨trivial, by simp only [List.length_append]; omega⟩]
  simp [← List.drop_drop]

theorem decode_lt (bs : List UInt8) (r : FcgiRecord) (rest : List UInt8)
    (h : decode bs = some (r, rest)) : rest.length < bs.length := by
  unfold decode at h
  split at h
  · split at h
    · obtain ⟨-, rfl⟩ := Prod.mk.inj (Option.some.inj h)
      simp only [List.length_drop, List.length_cons]
      omega
    · exact nomatch h
  · exact nomatch h

def framing : Framing FcgiRecord UInt8 :=
  { Valid := Valid, encode := encode, decode := decode, decode_encode := decode_encode,
    decode_lt := decode_lt }

end FcgiRecord

end Php53.Sapi
