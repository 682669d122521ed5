import Mathlib.Data.List.Forall2
import Php53.Reasoning.Framing

/-!
# Packets — the frames of the MySQL protocol

A packet has a header of four bytes: the length of its payload and a sequence number.  In compressed
mode the bytes of the packets travel in envelopes, with a header of seven bytes: the length of what
follows, a sequence number and the length before the compression, 0 for what is not compressed.
-/

namespace Php53.Mysqlnd

open Reasoning

def mysqlndHeaderSize : Nat := 4
def compressedHeaderSize : Nat := 3
def mysqlndMaxPacketSize : Nat := 256 * 256 * 256 - 1

/-- What `emalloc` returns, with whatever was there before. -/
abbrev Emalloc := (size : Nat) → { block : List UInt8 // block.length = size }

def int3store (n : Nat) : List UInt8 := [.ofNat n, .ofNat (n >>> 8), .ofNat (n >>> 16)]

@[irreducible] def uint3korr (a b c : UInt8) : Nat := a.toNat + (b.toNat <<< 8) + (c.toNat <<< 16)

@[simp] theorem length_int3store (n : Nat) : (int3store n).length = 3 := rfl

theorem uint3korr_int3store (n : Nat) :
    uint3korr (.ofNat n) (.ofNat (n >>> 8)) (.ofNat (n >>> 16)) = n % 2 ^ 24 := by
  unfold uint3korr
  simp only [UInt8.toNat_ofNat', Nat.shiftLeft_eq, Nat.shiftRight_eq_div_pow]
  omega

def netHeader (length : Nat) (sequence : UInt8) : List UInt8 := int3store length ++ [sequence]

@[simp] theorem length_netHeader (length : Nat) (sequence : UInt8) :
    (netHeader length sequence).length = 4 := rfl

structure Packet where
  sequence : UInt8
  payload : List UInt8
  deriving DecidableEq

namespace Packet

def Valid (p : Packet) : Prop := p.payload.length < 2 ^ 24

def encode (p : Packet) : List UInt8 := netHeader p.payload.length p.sequence ++ p.payload

def decode : List UInt8 → Option (Packet × List UInt8)
  | a :: b :: c :: sequence :: rest =>
    if uint3korr a b c ≤ rest.length then
      some ({ sequence, payload := rest.take (uint3korr a b c) }, rest.drop (uint3korr a b c))
    else none
  | _ => none

@[simp] theorem length_encode (p : Packet) : p.encode.length = p.payload.length + 4 := by
  unfold encode
  rw [List.length_append, length_netHeader, Nat.add_comm]

theorem decode_encode (p : Packet) (rest : List UInt8) (h : p.Valid) :
    decode (p.encode ++ rest) = some (p, rest) := by
  have hlen : p.payload.length % 2 ^ 24 = p.payload.length := Nat.mod_eq_of_lt h
  unfold encode netHeader int3store
  simp only [List.cons_append, List.nil_append, decode, uint3korr_int3store, hlen]
  rw [if_pos (by rw [List.length_append]; omega), List.take_left, List.drop_left]

theorem decode_lt (bs : List UInt8) (p : Packet) (rest : List UInt8)
    (h : decode bs = some (p, rest)) : rest.length < bs.length := by
  unfold decode at h
  split at h
  · split at h
    · obtain ⟨-, rfl⟩ := Prod.mk.inj (Option.some.inj h)
      simp only [List.length_drop, List.length_cons]
      omega
    · exact nomatch h
  · exact nomatch h

def framing : Framing Packet UInt8 :=
  { Valid := Valid, encode := encode, decode := decode, decode_encode := decode_encode,
    decode_lt := decode_lt }

end Packet

structure Envelope where
  sequence : UInt8
  uncompressedLength : Nat
  body : List UInt8
  deriving DecidableEq

namespace Envelope

def Valid (e : Envelope) : Prop := e.body.length < 2 ^ 24 ∧ e.uncompressedLength < 2 ^ 24

def encode (e : Envelope) : List UInt8 :=
  netHeader e.body.length e.sequence ++ (int3store e.uncompressedLength ++ e.body)

def decode : List UInt8 → Option (Envelope × List UInt8)
  | a :: b :: c :: sequence :: u :: v :: w :: rest =>
    if uint3korr a b c ≤ rest.length then
      some ({ sequence, uncompressedLength := uint3korr u v w, body := rest.take (uint3korr a b c) },
        rest.drop (uint3korr a b c))
    else none
  | _ => none

theorem decode_encode (e : Envelope) (rest : List UInt8) (h : e.Valid) :
    decode (e.encode ++ rest) = some (e, rest) := by
  have hlen : e.body.length % 2 ^ 24 = e.body.length := Nat.mod_eq_of_lt h.1
  have hulen : e.uncompressedLength % 2 ^ 24 = e.uncompressedLength := Nat.mod_eq_of_lt h.2
  unfold encode netHeader int3store
  simp only [List.cons_append, List.nil_append, decode, uint3korr_int3store, hlen, hulen]
  rw [if_pos (by rw [List.length_append]; omega), List.take_left, List.drop_left]

theorem decode_lt (bs : List UInt8) (e : Envelope) (rest : List UInt8)
    (h : decode bs = some (e, rest)) : rest.length < bs.length := by
  unfold decode at h
  split at h
  · split at h
    · obtain ⟨-, rfl⟩ := Prod.mk.inj (Option.some.inj h)
      simp only [List.length_drop, List.length_cons]
      omega
    · exact nomatch h
  · exact nomatch h

def framing : Framing Envelope UInt8 :=
  { Valid := Valid, encode := encode, decode := decode, decode_encode := decode_encode,
    decode_lt := decode_lt }

end Envelope

/-- `compress` of zlib, as far as `mysqlnd_net::encode` uses it: it gives a text that fits the room,
or fails, and different texts stay different. -/
structure Compressor where
  compress (room : Nat) (data : List UInt8) : Option (List UInt8)
  fits {room : Nat} {data out : List UInt8} :
    compress room data = some out → out.length ≤ room
  injective {room room' : Nat} {data data' out : List UInt8} :
    compress room data = some out → compress room' data' = some out → data = data'

def Envelope.Holds (z : Compressor) (e : Envelope) (content : List UInt8) : Prop :=
  if e.uncompressedLength = 0 then content = e.body
  else content.length = e.uncompressedLength ∧ ∃ room, z.compress room content = some e.body

def Receives (z : Compressor) (compressed : Bool) (stream : List UInt8) (packets : List Packet) :
    Prop :=
  if compressed then
    ∃ envelopes contents, Envelope.framing.parse stream = some envelopes ∧
      List.Forall₂ (Envelope.Holds z) envelopes contents ∧
      Packet.framing.parse contents.flatten = some packets
  else Packet.framing.parse stream = some packets

end Php53.Mysqlnd
