import Php53.Sapi.FcgiRecord

/-!
# FcgiOutput — the output buffer of a FastCGI request

Offsets in `out_buf` stand for the pointers `out_pos` and `out_hdr`.  A store behind the space that
is reserved for the end of the request is undefined: the operation returns none.
-/

namespace Php53.Sapi

open Reasoning

structure FcgiRequest where
  fd : Int
  id : Nat
  keep : Bool
  closed : Bool
  outHdr : Option Nat
  outPos : Nat
  outBuf : List UInt8  -- `out_buf` and `reserved`
  writes : Nat  -- the calls of `write` so far
  sent : List UInt8  -- the bytes that they took

def outBufSize : Nat := 1024 * 8
def headerSize : Nat := 8
def endRequestSize : Nat := 8

namespace FcgiRequest

def store (req : FcgiRequest) (pos : Nat) (bytes : List UInt8) : Option FcgiRequest :=
  if pos + bytes.length ≤ req.outBuf.length then
    some { req with
      outBuf := req.outBuf.take pos ++ (bytes ++ req.outBuf.drop (pos + bytes.length)) }
  else none

/-- `out_hdr->type` -/
def typeAt (req : FcgiRequest) (hdr : Nat) : UInt8 := req.outBuf.getD (hdr + 1) 0

/-- The padding that `fcgi_make_header` returns. -/
def padOf (len : Nat) : Nat := (len + 7) / 8 * 8 - len

def fcgiMakeHeader (req : FcgiRequest) (hdr : Nat) (type : UInt8) (len : Nat) :
    Option FcgiRequest :=
  (req.store hdr (fcgiHeader type req.id len (padOf len))).bind fun req =>
    if padOf len = 0 then some req
    else req.store (hdr + headerSize + len) (List.replicate (padOf len) 0)

def openPacket (req : FcgiRequest) (type : FcgiRequestType) : Option FcgiRequest :=
  if req.outPos + headerSize ≤ req.outBuf.length then
    (req.store (req.outPos + 1) [type.code]).map fun r =>
      { r with outHdr := some req.outPos, outPos := req.outPos + headerSize }
  else none

def closePacket (req : FcgiRequest) : Option FcgiRequest :=
  match req.outHdr with
  | none => some req
  | some hdr =>
    (req.fcgiMakeHeader hdr (req.typeAt hdr) (req.outPos - (hdr + headerSize))).map fun r =>
      { r with
        outPos := req.outPos + padOf (req.outPos - (hdr + headerSize))
        outHdr := none }

/-- `memcpy(req->out_pos, str, len); req->out_pos += len` -/
def append (req : FcgiRequest) (str : List UInt8) : Option FcgiRequest :=
  (req.store req.outPos str).map fun r => { r with outPos := req.outPos + str.length }

/-- The loop of `safe_write`.  The call number `k` of `write` takes `socket k + 1` bytes if there are
    as many, and none is an error; interrupted calls are not counted. -/
def safeWriteLoop (socket : Nat → Option Nat) : Nat → FcgiRequest → List UInt8 → Bool × FcgiRequest
  | _, req, [] => (true, req)
  | 0, req, _ :: _ => (false, req)
  | fuel + 1, req, b :: buf =>
    match socket req.writes with
    | none => (false, { req with writes := req.writes + 1 })
    | some n =>
      safeWriteLoop socket fuel
        { req with writes := req.writes + 1, sent := req.sent ++ (b :: buf).take (n + 1) }
        ((b :: buf).drop (n + 1))

/-- Whether `safe_write` returns the length of `buf`. -/
def safeWrite (socket : Nat → Option Nat) (req : FcgiRequest) (buf : List UInt8) :
    Bool × FcgiRequest :=
  safeWriteLoop socket buf.length req buf

/-- The part of `fcgi_flush` behind the end of the request: `len` bytes are written. -/
def flushBuffer (socket : Nat → Option Nat) (req : FcgiRequest) (len : Nat) :
    Option (Bool × FcgiRequest) :=
  if len ≤ req.outBuf.length then
    match req.safeWrite socket (req.outBuf.take len) with
    | (true, req) => some (true, { req with outPos := 0 })
    | (false, req) => some (false, { req with keep := false })
  else none

/-- The reserved bytes of the end record are sent as they are. -/
def fcgiFlush (socket : Nat → Option Nat) (req : FcgiRequest) (close : Bool) :
    Option (Bool × FcgiRequest) :=
  req.closePacket.bind fun req =>
    if close then
      (req.fcgiMakeHeader req.outPos FcgiRequestType.endRequest.code endRequestSize).bind fun req =>
        (req.store (req.outPos + headerSize) [0, 0, 0, 0, 0]).bind fun req =>
          req.flushBuffer socket (req.outPos + headerSize + endRequestSize)
    else req.flushBuffer socket req.outPos

/-- A record whose content is written past the buffer: `open_packet`, `fcgi_make_header`,
    `fcgi_flush` and `safe_write`. -/
def writeThrough (socket : Nat → Option Nat) (req : FcgiRequest) (type : FcgiRequestType)
    (chunk : List UInt8) : Option (Bool × FcgiRequest) :=
  (req.openPacket type).bind fun r =>
    (r.fcgiMakeHeader req.outPos type.code chunk.length).bind fun r =>
      (fcgiFlush socket { r with outHdr := none } false).map fun (flushed, r) =>
        if flushed then
          match r.safeWrite socket chunk with
          | (true, r) => (true, r)
          | (false, r) => (false, { r with keep := false })
        else (false, r)

/-- `while ((len - pos) > 0xffff)`; what is left is returned. -/
def writeLoop (socket : Nat → Option Nat) (type : FcgiRequestType) :
    Nat → FcgiRequest → List UInt8 → Option (Bool × List UInt8 × FcgiRequest)
  | 0, req, str => some (true, str, req)
  | fuel + 1, req, str =>
    if str.length > 0xffff then
      (req.writeThrough socket type (str.take 0xfff8)).bind fun (written, req) =>
        if written then writeLoop socket type fuel req (str.drop 0xfff8)
        else some (false, str, req)
    else some (true, str, req)

def limit (req : FcgiRequest) : Int :=
  match req.outHdr with
  | some _ => (outBufSize : Int) - req.outPos
  | none => max 0 ((outBufSize : Int) - req.outPos - headerSize)

/-- `if (!req->out_hdr) open_packet(req, type)` -/
def ensurePacket (req : FcgiRequest) (type : FcgiRequestType) : Option FcgiRequest :=
  match req.outHdr with
  | some _ => some req
  | none => req.openPacket type

/-- `len < limit` -/
def writeAppend (req : FcgiRequest) (type : FcgiRequestType) (str : List UInt8) :
    Option (Int × FcgiRequest) :=
  (req.ensurePacket type).bind fun r => (r.append str).map fun r => ((str.length : Int), r)

/-- `len - limit < sizeof(req->out_buf) - sizeof(fcgi_header)` -/
def writeFill (socket : Nat → Option Nat) (req : FcgiRequest) (type : FcgiRequestType)
    (str : List UInt8) (limit : Nat) : Option (Int × FcgiRequest) :=
  (req.ensurePacket type).bind fun r =>
    (if limit > 0 then r.append (str.take limit) else some r).bind fun r =>
      (r.fcgiFlush socket false).bind fun (flushed, r) =>
        if flushed then
          if str.length > limit then
            (r.openPacket type).bind fun r => (r.append (str.drop limit)).map fun r =>
              ((str.length : Int), r)
          else some ((str.length : Int), r)
        else some (-1, r)

/-- `rest = pad ? 8 - pad : 0` -/
def restOf (len : Nat) : Nat := if padOf len ≠ 0 then 8 - padOf len else 0

/-- The records of a long string, and the packet for what is left of it. -/
def writeLong (socket : Nat → Option Nat) (req : FcgiRequest) (type : FcgiRequestType)
    (str : List UInt8) : Option (Int × FcgiRequest) :=
  req.closePacket.bind fun r =>
    (r.writeLoop socket type str.length str).bind fun (written, left, r) =>
      if written then
        (r.writeThrough socket type (left.take (left.length - restOf left.length))).bind
          fun (written, r) =>
            if written then
              if padOf left.length ≠ 0 then
                (r.openPacket type).bind fun r =>
                  (r.append (left.drop (left.length - restOf left.length))).map fun r =>
                    ((str.length : Int), r)
              else some ((str.length : Int), r)
            else some (-1, r)
      else some (-1, r)

def openOther (req : FcgiRequest) (type : FcgiRequestType) : Bool :=
  match req.outHdr with
  | some hdr => req.typeAt hdr ≠ type.code
  | none => false

def fcgiWrite (socket : Nat → Option Nat) (req : FcgiRequest) (type : FcgiRequestType)
    (str : List UInt8) : Option (Int × FcgiRequest) :=
  if str.length = 0 then some (0, req)
  else
    (if req.openOther type then req.closePacket else some req).bind fun req =>
      if (str.length : Int) < req.limit then req.writeAppend type str
      else if str.length - req.limit < outBufSize - headerSize then
        req.writeFill socket type str req.limit.toNat
      else req.writeLong socket type str

/-- What `fcgi_close` does with the environment and the socket is not modelled. -/
def fcgiFinishRequest (socket : Nat → Option Nat) (req : FcgiRequest) (forceClose : Bool) :
    Option (Bool × FcgiRequest) :=
  if req.fd ≥ 0 then
    (if req.closed then some (true, req)
      else (req.fcgiFlush socket true).map fun (ret, r) => (ret, { r with closed := true })).map
        fun (ret, r) => (ret, if forceClose || !r.keep then { r with fd := -1 } else r)
  else some (true, req)

end FcgiRequest

end Php53.Sapi
