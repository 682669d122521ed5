import Php53.Sapi.FcgiOutput
import Php53.Sapi.FcgiParams

/-!
# FcgiReadRequest — the start of a FastCGI request

FastCGI sends the name-value pairs as one stream, cut into records anywhere.  `fcgi_read_request`
decodes each record by itself.
-/

namespace Php53.Sapi

open Reasoning List

structure FcgiConnection extends FcgiRequest where
  inLen : Nat
  env : FcgiEnv
  input : List UInt8  -- what the other side has sent and `read` has not returned
  reads : Nat  -- the calls of `read` so far

inductive FcgiRole where
  | responder
  | authorizer
  | filter
  deriving DecidableEq, Repr

def FcgiRole.code : FcgiRole → Nat
  | .responder => 1
  | .authorizer => 2
  | .filter => 3

def ascii (s : String) : List UInt8 := s.toList.map fun c => UInt8.ofNat c.toNat

def FcgiRole.name : FcgiRole → List UInt8
  | .responder => ascii "RESPONDER"
  | .authorizer => ascii "AUTHORIZER"
  | .filter => ascii "FILTER"

def roleOfCode : Nat → Option FcgiRole
  | 1 => some .responder
  | 2 => some .authorizer
  | 3 => some .filter
  | _ => none

structure FcgiHeader where
  type : UInt8
  requestId : Nat
  len : Nat
  padding : Nat

namespace FcgiConnection

variable {rest : List UInt8} {r : FcgiRecord}

/-- The loop of `safe_read`.  The call number `k` of `read` returns `sizes k + 1` bytes if there are
    as many; at the end of the input it returns none. -/
def safeReadLoop (sizes : Nat → Nat) : Nat → FcgiConnection → Nat → List UInt8 × FcgiConnection
  | 0, c, _ => ([], c)
  | fuel + 1, c, count =>
    if count = 0 then ([], c)
    else
      match c.input.take (min (sizes c.reads + 1) count) with
      | [] => ([], { c with reads := c.reads + 1 })
      | b :: bytes =>
        let r := safeReadLoop sizes fuel
          { c with reads := c.reads + 1, input := c.input.drop (bytes.length + 1) }
          (count - (bytes.length + 1))
        (b :: bytes ++ r.1, r.2)

/-- The bytes, if `safe_read` returns `count`. -/
def safeRead (sizes : Nat → Nat) (c : FcgiConnection) (count : Nat) :
    Option (List UInt8) × FcgiConnection :=
  let r := safeReadLoop sizes count c count
  (if r.1.length = count then some r.1 else none, r.2)

def readHeader (sizes : Nat → Nat) (c : FcgiConnection) : Option FcgiHeader × FcgiConnection :=
  match c.safeRead sizes headerSize with
  | (some [version, type, id1, id0, len1, len0, pad, _], c) =>
    if version < fcgiVersion1 then (none, c)
    else (some { type := type, requestId := fromBytes id1 id0, len := fromBytes len1 len0,
                 padding := pad.toNat }, c)
  | (_, c) => (none, c)

/-- `while (hdr.type == FCGI_STDIN && len == 0)` -/
def skipStdin (sizes : Nat → Nat) :
    Nat → FcgiHeader → FcgiConnection → Option FcgiHeader × FcgiConnection
  | 0, _, c => (none, c)
  | fuel + 1, hdr, c =>
    if hdr.type = FcgiRequestType.stdin.code ∧ hdr.len = 0 then
      match c.readHeader sizes with
      | (some hdr, c) => skipStdin sizes fuel hdr c
      | (none, c) => (none, c)
    else (some hdr, c)

/-- `while (hdr.type == FCGI_PARAMS && len > 0)` -/
def paramsLoop (sizes : Nat → Nat) :
    Nat → FcgiHeader → FcgiConnection → Option (Bool × FcgiConnection)
  | 0, _, c => some (false, c)
  | fuel + 1, hdr, c =>
    if hdr.type = FcgiRequestType.params.code ∧ hdr.len > 0 then
      if hdr.len + hdr.padding > fcgiMaxLength then some (false, c)
      else
        match c.safeRead sizes (hdr.len + hdr.padding) with
        | (none, c) => some (false, { c with keep := false })
        | (some buf, c) =>
          (fcgiGetParams c.env (buf.take hdr.len)).bind fun (ok, env) =>
            if ok then
              match ({ c with env := env } : FcgiConnection).readHeader sizes with
              | (none, c) => some (false, { c with keep := false })
              | (some hdr, c) => paramsLoop sizes fuel hdr c
            else some (false, { c with env := env, keep := false })
    else some (true, c)

/-- The branch for FCGI_BEGIN_REQUEST. -/
def beginRequest (sizes : Nat → Nat) (hdr : FcgiHeader) (c : FcgiConnection) :
    Option (Bool × FcgiConnection) :=
  match c.safeRead sizes (hdr.len + hdr.padding) with
  | (some (roleB1 :: roleB0 :: flags :: _), c) =>
    let c := { c with keep := flags &&& 1 ≠ 0 }
    match roleOfCode (fromBytes roleB1 roleB0) with
    | none => some (false, c)
    | some role =>
      match ({ c with env := envUpdate c.env (ascii "FCGI_ROLE" ++ [0]) role.name } :
          FcgiConnection).readHeader sizes with
      | (some hdr, c) => paramsLoop sizes (c.input.length + 1) hdr c
      | (none, c) => some (false, c)
  | (_, c) => some (false, c)

/-- The loop over the names that were asked for; `out` is what is behind the header in `buf`. -/
def getValuesLoop (mgmtVars : List UInt8 → Option (List UInt8)) :
    FcgiEnv → List UInt8 → List UInt8
  | [], out => out
  | (key, _) :: env, out =>
    match mgmtVars key with
    | none => getValuesLoop mgmtVars env out
    | some value =>
      if headerSize + out.length + 4 + 4 + key.dropLast.length + value.length ≥
          fcgiMaxLength + 8 then out
      else getValuesLoop mgmtVars env (out ++ encodeParam (key.dropLast, value))

/-- The branch for FCGI_GET_VALUES, which ends the request; its answer is padded within `buf`. -/
def getValues (sizes : Nat → Nat) (socket : Nat → Option Nat)
    (mgmtVars : List UInt8 → Option (List UInt8)) (hdr : FcgiHeader) (c : FcgiConnection) :
    Option (Bool × FcgiConnection) :=
  match c.safeRead sizes (hdr.len + hdr.padding) with
  | (none, c) => some (false, { c with keep := false })
  | (some buf, c) =>
    (fcgiGetParams c.env (buf.take hdr.len)).bind fun (ok, env) =>
      if ok then
        let out := getValuesLoop mgmtVars env []
        let pad := FcgiRequest.padOf out.length
        if headerSize + out.length + pad ≤ fcgiMaxLength + 8 then
          match c.toFcgiRequest.safeWrite socket
              (fcgiHeader FcgiRequestType.getValuesResult.code 0 out.length pad ++
                (out ++ replicate pad 0)) with
          | (true, req) => some (false, { c with toFcgiRequest := req, env := env })
          | (false, req) =>
            some (false, { c with toFcgiRequest := { req with keep := false }, env := env })
        else none
      else some (false, { c with env := env, keep := false })

def fcgiReadRequest (sizes : Nat → Nat) (socket : Nat → Option Nat)
    (mgmtVars : List UInt8 → Option (List UInt8)) (c : FcgiConnection) :
    Option (Bool × FcgiConnection) :=
  let c := { c with
    keep := false, closed := false, inLen := 0, outHdr := none, outPos := 0, env := [] }
  match c.readHeader sizes with
  | (none, c) => some (false, c)
  | (some hdr, c) =>
    match skipStdin sizes (c.input.length + 1) hdr c with
    | (none, c) => some (false, c)
    | (some hdr, c) =>
      if hdr.len + hdr.padding > fcgiMaxLength then some (false, c)
      else
        let c := { c with id := hdr.requestId }
        if hdr.type = FcgiRequestType.beginRequest.code ∧ hdr.len = 8 then
          beginRequest sizes hdr c
        else if hdr.type = FcgiRequestType.getValues.code then
          getValues sizes socket mgmtVars hdr c
        else some (false, c)

variable (sizes : Nat → Nat)

theorem safeReadLoop_eq (fuel : Nat) (c : FcgiConnection) (count : Nat) (hfuel : count ≤ fuel)
    (hcount : count ≤ c.input.length) :
    ∃ reads, safeReadLoop sizes fuel c count =
      (c.input.take count, { c with reads := reads, input := c.input.drop count }) := by
  induction fuel generalizing c count with
  | zero =>
    obtain rfl : count = 0 := Nat.le_zero.mp hfuel
    exact ⟨c.reads, rfl⟩
  | succ fuel ih =>
    rw [safeReadLoop]
    by_cases hz : count = 0
    · rw [if_pos hz, hz]
      exact ⟨c.reads, rfl⟩
    · rw [if_neg hz]
      -- `n` bytes come at once, at least one
      generalize hn : min (sizes c.reads + 1) count = n
      have hlen : (c.input.take n).length = n := by
        rw [length_take]
        omega
      split
      · rename_i hnil
        rw [hnil] at hlen
        simp only [length_nil] at hlen
        omega
      · rename_i b bytes hcons
        rw [hcons] at hlen
        simp only [length_cons] at hlen
        obtain ⟨reads, hloop⟩ := ih
          { c with reads := c.reads + 1, input := c.input.drop (bytes.length + 1) }
          (count - (bytes.length + 1)) (by omega) (by simp only [length_drop]; omega)
        refine ⟨reads, ?_⟩
        rw [hloop, hlen, ← hcons]
        simp only [drop_drop]
        have hsum : n + (count - n) = count := by omega
        rw [hsum, ← take_add, hsum]

theorem safeRead_eq (c : FcgiConnection) {bytes : List UInt8} (h : c.input = bytes ++ rest) :
    ∃ reads, c.safeRead sizes bytes.length =
      (some bytes, { c with reads := reads, input := rest }) := by
  obtain ⟨reads, hloop⟩ := safeReadLoop_eq sizes bytes.length c bytes.length
    (Nat.le_refl _) (by rw [h, length_append]; omega)
  refine ⟨reads, ?_⟩
  unfold safeRead
  rw [hloop, h, take_left, drop_left]
  simp

def headerOf (r : FcgiRecord) : FcgiHeader :=
  ⟨r.type, r.requestId, r.content.length, r.padding.length⟩

theorem readHeader_eq (c : FcgiConnection) (hr : r.Valid) (h : c.input = r.encode ++ rest) :
    ∃ reads, c.readHeader sizes =
      (some (headerOf r),
        { c with reads := reads, input := r.content ++ (r.padding ++ rest) }) := by
  obtain ⟨hid, hcontent, hpad⟩ := hr
  unfold fcgiMaxLength at hcontent
  unfold FcgiRecord.encode at h
  rw [append_assoc, append_assoc] at h
  obtain ⟨reads, hread⟩ := safeRead_eq sizes c h
  refine ⟨reads, ?_⟩
  unfold readHeader
  rw [show headerSize = (fcgiHeader r.type r.requestId r.content.length r.padding.length).length
    from rfl, hread]
  unfold fcgiHeader
  simp only [fromBytes_eq, UInt8.toNat_ofNat']
  rw [if_neg (by decide), Nat.mod_eq_of_lt hid, Nat.mod_eq_of_lt (by omega),
    Nat.mod_eq_of_lt (by omega)]
  rfl

def records (recs : List FcgiRecord) : List UInt8 := FcgiRecord.framing.encodeAll recs

theorem length_records (recs : List FcgiRecord) : recs.length ≤ (records recs).length := by
  induction recs with
  | nil => exact Nat.zero_le _
  | cons r recs ih =>
    show recs.length + 1 ≤ (r.encode ++ records recs).length
    unfold FcgiRecord.encode
    simp only [length_append, length_fcgiHeader]
    omega

def EmptyStdin (r : FcgiRecord) : Prop :=
  r.type = FcgiRequestType.stdin.code ∧ r.content = [] ∧ r.padding = [] ∧ r.Valid

theorem skipStdin_eq (fuel : Nat) (c : FcgiConnection) (stdins : List FcgiRecord) (r r₀ : FcgiRecord)
    (q : List FcgiRecord) (rest : List UInt8) (hstdins : ∀ x ∈ stdins, EmptyStdin x) (hr : r.Valid)
    (hstart : r.type ≠ FcgiRequestType.stdin.code) (hq : stdins ++ [r] = r₀ :: q)
    (hinput : c.input = r₀.content ++ (r₀.padding ++ (records q ++ rest)))
    (hfuel : stdins.length < fuel) :
    ∃ reads, skipStdin sizes fuel (headerOf r₀) c =
      (some (headerOf r), { c with reads := reads, input := r.content ++ (r.padding ++ rest) }) := by
  induction stdins generalizing fuel c r₀ q with
  | nil =>
    obtain ⟨rfl, rfl⟩ := List.cons.inj hq
    cases fuel with
    | zero => exact absurd hfuel (Nat.not_lt_zero _)
    | succ fuel =>
      refine ⟨c.reads, ?_⟩
      rw [skipStdin, if_neg (fun hn => hstart hn.1)]
      rw [show records [] ++ rest = rest from rfl] at hinput
      rw [← hinput]
  | cons x stdins ih =>
    rw [cons_append] at hq
    obtain ⟨rfl, rfl⟩ := List.cons.inj hq
    obtain ⟨htype, hcontent, hpad, -⟩ := hstdins x (by simp)
    cases fuel with
    | zero => exact absurd hfuel (Nat.not_lt_zero _)
    | succ fuel =>
      -- the header that follows is that of the next record
      obtain ⟨r₁, q₁, hq₁⟩ : ∃ r₁ q₁, stdins ++ [r] = r₁ :: q₁ := by
        cases stdins <;> exact ⟨_, _, rfl⟩
      have hvalid : r₁.Valid := by
        have hm : r₁ ∈ stdins ++ [r] := hq₁ ▸ mem_cons_self
        rcases mem_append.mp hm with hm | hm
        · exact (hstdins r₁ (by simp [hm])).2.2.2
        · exact mem_singleton.mp hm ▸ hr
      rw [hcontent, hpad, hq₁] at hinput
      have hnext : c.input = r₁.encode ++ (records q₁ ++ rest) := by
        rw [hinput]
        show r₁.encode ++ records q₁ ++ rest = _
        rw [append_assoc]
      obtain ⟨reads, hread⟩ := readHeader_eq sizes c hvalid hnext
      obtain ⟨reads', hskip⟩ := ih fuel
        { c with reads := reads, input := r₁.content ++ (r₁.padding ++ (records q₁ ++ rest)) } r₁ q₁
        (fun y hy => hstdins y (by simp [hy])) hq₁ rfl (by simpa using hfuel)
      refine ⟨reads', ?_⟩
      rw [skipStdin, if_pos ⟨htype, by simp [headerOf, hcontent]⟩, hread]
      exact hskip

def WholePairs (r : FcgiRecord) : Prop :=
  (∃ params, (∀ p ∈ params, ValidParam p) ∧ r.content = paramFraming.encodeAll params) ∧
    r.content.length + r.padding.length ≤ fcgiMaxLength

def ParamsRecord (r : FcgiRecord) : Prop :=
  r.type = FcgiRequestType.params.code ∧ r.content ≠ [] ∧ r.Valid

theorem paramsLoop_step (fuel : Nat) (c : FcgiConnection) (hr : ParamsRecord r)
    (hmax : r.content.length + r.padding.length ≤ fcgiMaxLength)
    (hinput : c.input = r.content ++ (r.padding ++ rest)) :
    ∃ reads, paramsLoop sizes (fuel + 1) (headerOf r) c =
      (fcgiGetParams c.env r.content).bind fun (ok, env) =>
        if ok then
          match ({ c with reads := reads, input := rest, env := env } :
              FcgiConnection).readHeader sizes with
          | (none, c) => some (false, { c with keep := false })
          | (some hdr, c) => paramsLoop sizes fuel hdr c
        else some (false, { c with reads := reads, input := rest, env := env, keep := false }) := by
  obtain ⟨htype, hne, -⟩ := hr
  have hlen : 0 < r.content.length := length_pos_of_ne_nil hne
  rw [← append_assoc] at hinput
  obtain ⟨reads, hread⟩ := safeRead_eq sizes c hinput
  rw [length_append] at hread
  refine ⟨reads, ?_⟩
  rw [paramsLoop, if_pos ⟨htype, hlen⟩]
  unfold headerOf
  rw [hread]
  have htake : (r.content ++ r.padding).take r.content.length = r.content := take_left
  simp only [htake]
  exact if_neg (Nat.not_lt.mpr hmax)

theorem paramsLoop_eq (fuel : Nat) (c : FcgiConnection) (recs : List FcgiRecord)
    (stop r₀ : FcgiRecord) (q : List FcgiRecord) (rest : List UInt8) (params : List FcgiParam)
    (hrecs : ∀ r ∈ recs, ParamsRecord r) (hstop : stop.content = [] ∧ stop.Valid)
    (hparams : ∀ p ∈ params, ValidParam p)
    (hcut : recs.flatMap FcgiRecord.content = paramFraming.encodeAll params)
    (hq : recs ++ [stop] = r₀ :: q)
    (hinput : c.input = r₀.content ++ (r₀.padding ++ (records q ++ rest)))
    (hfuel : recs.length < fuel) :
    (∃ c', paramsLoop sizes fuel (headerOf r₀) c = some (true, c') ∧
      c'.env = updateAll c.env params ∧ ∀ r ∈ recs, WholePairs r) ∨
    (∃ c', paramsLoop sizes fuel (headerOf r₀) c = some (false, c')) ∧ ¬ ∀ r ∈ recs, WholePairs r := by
  induction recs generalizing fuel c r₀ q params with
  | nil =>
    obtain ⟨rfl, rfl⟩ := List.cons.inj hq
    have hnil : params = [] := by
      have hp := paramFraming.parse_encodeAll hparams
      rw [← hcut] at hp
      exact (Option.some.inj hp).symm
    cases fuel with
    | zero => exact absurd hfuel (Nat.not_lt_zero _)
    | succ fuel =>
      left
      refine ⟨c, ?_, by rw [hnil]; rfl, by simp⟩
      rw [paramsLoop, if_neg (by simp [headerOf, hstop.1])]
  | cons r recs ih =>
    rw [cons_append] at hq
    obtain ⟨rfl, rfl⟩ := List.cons.inj hq
    obtain ⟨htype, hne, -⟩ := hrecs r (by simp)
    have hlen : 0 < r.content.length := length_pos_of_ne_nil hne
    rw [flatMap_cons] at hcut
    cases fuel with
    | zero => exact absurd hfuel (Nat.not_lt_zero _)
    | succ fuel =>
      by_cases hmax : r.content.length + r.padding.length > fcgiMaxLength
      · -- too long for the buffer
        right
        refine ⟨⟨c, ?_⟩, fun hall => ?_⟩
        · rw [paramsLoop, if_pos ⟨htype, hlen⟩]
          exact if_pos hmax
        · have hw := (hall r (by simp)).2
          omega
      obtain ⟨reads, hstep⟩ := paramsLoop_step sizes fuel c (hrecs r (by simp))
        (Nat.le_of_not_lt hmax) hinput
      rw [hstep]
      obtain ⟨env, hget, henv⟩ := fcgiGetParams_eq c.env r.content
      rw [hget]
      cases hparse : paramFraming.parse r.content with
      | none =>
        -- a pair is cut
        right
        refine ⟨⟨_, rfl⟩, fun hall => ?_⟩
        obtain ⟨⟨ps, hps, hcontent⟩, -⟩ := hall r (by simp)
        rw [hcontent, paramFraming.parse_encodeAll hps] at hparse
        exact nomatch hparse
      | some ps =>
        obtain ⟨ps', hsplit, hcontent, hrest⟩ :=
          paramFraming_prefixFree.parse_cut hparams hcut.symm hparse
        subst hsplit
        have hwhole : WholePairs r :=
          ⟨⟨ps, fun p hp => hparams p (by simp [hp]), hcontent⟩, by omega⟩
        obtain ⟨r₁, q₁, hq₁⟩ : ∃ r₁ q₁, recs ++ [stop] = r₁ :: q₁ := by
          cases recs <;> exact ⟨_, _, rfl⟩
        have hvalid : r₁.Valid := by
          have hm : r₁ ∈ recs ++ [stop] := hq₁ ▸ mem_cons_self
          rcases mem_append.mp hm with hm | hm
          · exact (hrecs r₁ (by simp [hm])).2.2
          · exact mem_singleton.mp hm ▸ hstop.2
        have hnext : records (recs ++ [stop]) ++ rest = r₁.encode ++ (records q₁ ++ rest) := by
          rw [hq₁]
          show r₁.encode ++ records q₁ ++ rest = _
          rw [append_assoc]
        obtain ⟨reads₁, hread₁⟩ := readHeader_eq sizes
          { c with reads := reads, input := records (recs ++ [stop]) ++ rest, env := env }
          hvalid hnext
        have hrun := ih fuel { c with
            reads := reads₁, input := r₁.content ++ (r₁.padding ++ (records q₁ ++ rest)), env := env }
          r₁ q₁ ps' (fun x hx => hrecs x (by simp [hx])) (fun p hp => hparams p (by simp [hp]))
          hrest hq₁ rfl (by simpa using hfuel)
        simp only [Option.isSome_some, Option.bind_some, if_true, hread₁]
        rcases hrun with ⟨c', hloop, hcenv, hall⟩ | ⟨⟨c', hloop⟩, hnot⟩
        · left
          refine ⟨c', hloop, ?_, ?_⟩
          · rw [hcenv, henv ps hparse]
            exact foldl_append.symm
          · intro x hx
            rcases mem_cons.mp hx with rfl | hx
            · exact hwhole
            · exact hall x hx
        · right
          exact ⟨⟨c', hloop⟩, fun hall => hnot fun x hx => hall x (by simp [hx])⟩

/-- What the web server sends at the start of a request: its role, then the pairs, cut anywhere. -/
structure ParamsRequest where
  stdins : List FcgiRecord
  id : Nat
  role : FcgiRole
  flags : UInt8
  reserved : List UInt8
  padding : List UInt8
  params : List FcgiParam
  recs : List FcgiRecord
  stop : FcgiRecord
  stdins_empty : ∀ r ∈ stdins, EmptyStdin r
  id_lt : id < 65536
  reserved_length : reserved.length = 5
  padding_lt : padding.length < 256
  params_valid : ∀ p ∈ params, ValidParam p
  recs_params : ∀ r ∈ recs, ParamsRecord r
  recs_cut : recs.flatMap FcgiRecord.content = paramFraming.encodeAll params
  stop_params : stop.type = FcgiRequestType.params.code ∧ stop.content = [] ∧ stop.Valid

namespace ParamsRequest

def start (q : ParamsRequest) : FcgiRecord :=
  { type := FcgiRequestType.beginRequest.code, requestId := q.id,
    content := [byteB1 q.role.code, byteB0 q.role.code, q.flags] ++ q.reserved,
    padding := q.padding }

def bytes (q : ParamsRequest) : List UInt8 :=
  records (q.stdins ++ [q.start]) ++ records (q.recs ++ [q.stop])

theorem length_start (q : ParamsRequest) : q.start.content.length = 8 := by
  have h := q.reserved_length
  unfold start
  simp only [length_append, length_cons, length_nil]
  omega

theorem valid_start (q : ParamsRequest) : q.start.Valid := by
  have hcontent : q.start.content.length ≤ fcgiMaxLength := by
    rw [q.length_start]
    unfold fcgiMaxLength
    omega
  have hid : q.start.requestId = q.id := rfl
  have hpadding : q.start.padding = q.padding := rfl
  unfold FcgiRecord.Valid
  rw [hid, hpadding]
  exact ⟨q.id_lt, hcontent, q.padding_lt⟩

end ParamsRequest

theorem roleOfCode_code (role : FcgiRole) :
    roleOfCode (fromBytes (byteB1 role.code) (byteB0 role.code)) = some role := by
  rw [fromBytes_eq]
  cases role <;> rfl

theorem beginRequest_eq (q : ParamsRequest) (c : FcgiConnection) (hr : r.Valid)
    (hinput : c.input = q.start.content ++ (q.start.padding ++ (r.encode ++ rest))) :
    ∃ c', c'.input = r.content ++ (r.padding ++ rest) ∧
      c'.env = envUpdate c.env (ascii "FCGI_ROLE" ++ [0]) q.role.name ∧
      beginRequest sizes (headerOf q.start) c =
        paramsLoop sizes (c'.input.length + 1) (headerOf r) c' := by
  rw [← append_assoc] at hinput
  obtain ⟨reads, hread⟩ := safeRead_eq sizes c hinput
  rw [length_append] at hread
  obtain ⟨reads', hheader⟩ := readHeader_eq sizes
    { c with reads := reads, input := r.encode ++ rest, keep := q.flags &&& 1 ≠ 0,
             env := envUpdate c.env (ascii "FCGI_ROLE" ++ [0]) q.role.name } hr rfl
  refine ⟨{ c with
    reads := reads', input := r.content ++ (r.padding ++ rest), keep := q.flags &&& 1 ≠ 0,
    env := envUpdate c.env (ascii "FCGI_ROLE" ++ [0]) q.role.name }, rfl, rfl, ?_⟩
  unfold beginRequest headerOf
  rw [hread]
  unfold ParamsRequest.start
  simp only [cons_append, nil_append, roleOfCode_code]
  rw [hheader]
  rfl

theorem fcgiReadRequest_eq (socket : Nat → Option Nat) (mgmtVars : List UInt8 → Option (List UInt8))
    (c : FcgiConnection) (q : ParamsRequest) (hr : r.Valid)
    (hinput : c.input = records (q.stdins ++ [q.start]) ++ (r.encode ++ rest)) :
    ∃ c', c'.input = r.content ++ (r.padding ++ rest) ∧
      c'.env = envUpdate [] (ascii "FCGI_ROLE" ++ [0]) q.role.name ∧
      fcgiReadRequest sizes socket mgmtVars c =
        paramsLoop sizes (c'.input.length + 1) (headerOf r) c' := by
  obtain ⟨r₀, q₀, hq₀⟩ : ∃ r₀ q₀, q.stdins ++ [q.start] = r₀ :: q₀ := by
    cases q.stdins <;> exact ⟨_, _, rfl⟩
  have hvalid : r₀.Valid := by
    have hm : r₀ ∈ q.stdins ++ [q.start] := hq₀ ▸ mem_cons_self
    rcases mem_append.mp hm with hm | hm
    · exact (q.stdins_empty r₀ hm).2.2.2
    · exact mem_singleton.mp hm ▸ q.valid_start
  have hfirst : c.input = r₀.encode ++ (records q₀ ++ (r.encode ++ rest)) := by
    rw [hinput, hq₀]
    show r₀.encode ++ records q₀ ++ (r.encode ++ rest) = _
    rw [append_assoc]
  unfold fcgiReadRequest
  obtain ⟨reads, hread⟩ := readHeader_eq sizes
    { c with keep := false, closed := false, inLen := 0, outHdr := none, outPos := 0, env := [] }
    hvalid hfirst
  simp only [hread]
  -- the loop over the empty records ends at FCGI_BEGIN_REQUEST
  have hfuel : q.stdins.length <
      (r₀.content ++ (r₀.padding ++ (records q₀ ++ (r.encode ++ rest)))).length + 1 := by
    have hlen := length_records q₀
    have hcons := congrArg List.length hq₀
    simp only [length_append, length_cons, length_nil] at hcons ⊢
    omega
  obtain ⟨reads', hskip⟩ := skipStdin_eq sizes _
    { c with
      keep := false, closed := false, inLen := 0, outHdr := none, outPos := 0, env := [],
      reads := reads,
      input := r₀.content ++ (r₀.padding ++ (records q₀ ++ (r.encode ++ rest))) }
    q.stdins q.start r₀ q₀ (r.encode ++ rest) q.stdins_empty q.valid_start
    (show FcgiRequestType.beginRequest.code ≠ FcgiRequestType.stdin.code by decide) hq₀ rfl hfuel
  simp only [hskip]
  have hlen : (headerOf q.start).len = 8 := q.length_start
  have hshort : ¬ (headerOf q.start).len + (headerOf q.start).padding > fcgiMaxLength := by
    have hpad : (headerOf q.start).padding < 256 := q.padding_lt
    unfold fcgiMaxLength
    omega
  have htype : (headerOf q.start).type = FcgiRequestType.beginRequest.code := rfl
  rw [if_neg hshort, if_pos ⟨htype, hlen⟩]
  exact beginRequest_eq sizes q
    { c with
      id := q.id, keep := false, closed := false, outHdr := none, outPos := 0, inLen := 0,
      env := [], reads := reads',
      input := q.start.content ++ (q.start.padding ++ (r.encode ++ rest)) }
    hr rfl

def lastValue (params : List FcgiParam) (name : List UInt8) : Option (List UInt8) :=
  (params.reverse.find? fun p => p.1 = name).map Prod.snd

theorem envFind_lastValue (env : FcgiEnv) {params : List FcgiParam} {p : FcgiParam}
    (hp : p ∈ params) :
    envFind (updateAll env params) (p.1 ++ [0]) = lastValue params p.1 := by
  rw [envFind_updateAll]
  unfold lastValue
  cases hlast : params.reverse.find? fun x => decide (x.1 = p.1) with
  | some last => rfl
  | none =>
    have hnot := List.find?_eq_none.mp hlast p (mem_reverse.mpr hp)
    exact absurd (decide_eq_true rfl) hnot

/-- The request is read, and every name has the value that was given last for it, exactly if every
    record is a sequence of whole pairs. -/
theorem fcgi_params_read (socket : Nat → Option Nat) (mgmtVars : List UInt8 → Option (List UInt8))
    (c : FcgiConnection) (q : ParamsRequest) (rest : List UInt8)
    (hinput : c.input = q.bytes ++ rest) :
    (∃ c', fcgiReadRequest sizes socket mgmtVars c = some (true, c') ∧
      ∀ p ∈ q.params, envFind c'.env (p.1 ++ [0]) = lastValue q.params p.1) ↔
      ∀ r ∈ q.recs, WholePairs r := by
  obtain ⟨-, hstopContent, hstopValid⟩ := q.stop_params
  obtain ⟨r, q₁, hq₁⟩ : ∃ r q₁, q.recs ++ [q.stop] = r :: q₁ := by
    cases q.recs <;> exact ⟨_, _, rfl⟩
  have hvalid : r.Valid := by
    have hm : r ∈ q.recs ++ [q.stop] := hq₁ ▸ mem_cons_self
    rcases mem_append.mp hm with hm | hm
    · exact (q.recs_params r hm).2.2
    · exact mem_singleton.mp hm ▸ hstopValid
  have hbytes : c.input = records (q.stdins ++ [q.start]) ++ (r.encode ++ (records q₁ ++ rest)) := by
    unfold ParamsRequest.bytes at hinput
    rw [hinput, hq₁]
    show records (q.stdins ++ [q.start]) ++ (r.encode ++ records q₁) ++ rest = _
    simp only [List.append_assoc]
  obtain ⟨c₁, hinput₁, -, hstart⟩ := fcgiReadRequest_eq sizes socket mgmtVars c q hvalid hbytes
  have hfuel : q.recs.length < c₁.input.length + 1 := by
    have hlen := length_records q₁
    have hcons := congrArg List.length hq₁
    rw [hinput₁]
    simp only [length_append, length_cons, List.length_nil] at hcons ⊢
    omega
  have hloop := paramsLoop_eq sizes (c₁.input.length + 1) c₁ q.recs q.stop r q₁ rest q.params
    q.recs_params ⟨hstopContent, hstopValid⟩ q.params_valid q.recs_cut hq₁ hinput₁ hfuel
  rw [hstart]
  rcases hloop with ⟨c', hrun, henv, hall⟩ | ⟨⟨c', hrun⟩, hnot⟩
  · -- every pair of the stream is in the environment
    refine ⟨fun _ => hall, fun _ => ⟨c', hrun, fun p hp => ?_⟩⟩
    rw [henv]
    exact envFind_lastValue c₁.env hp
  · refine ⟨fun ⟨c'', hsuccess, _⟩ => ?_, fun hall => absurd hall hnot⟩
    rw [hrun] at hsuccess
    exact nomatch hsuccess

def paramsRecord (content : List UInt8) : FcgiRecord :=
  { type := FcgiRequestType.params.code, requestId := 1, content := content, padding := [] }

/-- The pair of "A" and "B", its record cut into `recs`. -/
def oneParam (recs : List FcgiRecord) (hrecs : ∀ r ∈ recs, ParamsRecord r)
    (hcut : recs.flatMap FcgiRecord.content = [1, 1, 65, 66]) : ParamsRequest :=
  { stdins := [], id := 1, role := .responder, flags := 0, reserved := [0, 0, 0, 0, 0],
    padding := [], params := [([65], [66])], recs := recs, stop := paramsRecord [],
    stdins_empty := by simp,
    id_lt := by decide,
    reserved_length := rfl,
    padding_lt := by decide,
    params_valid := by simp [ValidParam],
    recs_params := hrecs,
    recs_cut := hcut,
    stop_params := by simp [paramsRecord, FcgiRecord.Valid] }

def wholeParam : ParamsRequest :=
  oneParam [paramsRecord [1, 1, 65, 66]]
    (by simp [ParamsRecord, paramsRecord, FcgiRecord.Valid, fcgiMaxLength]) rfl

def splitParam : ParamsRequest :=
  oneParam [paramsRecord [1, 1], paramsRecord [65, 66]]
    (by simp [ParamsRecord, paramsRecord, FcgiRecord.Valid, fcgiMaxLength]) rfl

/-- A connection on which the bytes have been sent, and each `read` returns up to five of them. -/
def connected (bytes : List UInt8) : FcgiConnection :=
  { fd := 3, id := 0, keep := false, closed := false, outHdr := none, outPos := 0, outBuf := [],
    writes := 0, sent := [], inLen := 0, env := [], input := bytes, reads := 0 }

theorem fcgi_params_read_whole :
    ∃ c', fcgiReadRequest (fun _ => 4) (fun _ => some 4) (fun _ => none)
      (connected wholeParam.bytes) = some (true, c') ∧
      ∀ p ∈ wholeParam.params, envFind c'.env (p.1 ++ [0]) = lastValue wholeParam.params p.1 := by
  apply (fcgi_params_read (fun _ => 4) (fun _ => some 4) (fun _ => none)
    (connected wholeParam.bytes) wholeParam [] (append_nil _).symm).mpr
  intro r hr
  obtain rfl : r = paramsRecord [1, 1, 65, 66] := by simpa [wholeParam, oneParam] using hr
  exact ⟨⟨[([65], [66])], by simp [ValidParam], rfl⟩, by simp [paramsRecord, fcgiMaxLength]⟩

/-- A pair that begins in one record and ends in the next one is lost with the request. -/
theorem fcgi_params_split_lost :
    ¬ ∀ (q : ParamsRequest) (c : FcgiConnection), c.input = q.bytes →
      ∃ c', fcgiReadRequest (fun _ => 4) (fun _ => some 4) (fun _ => none) c = some (true, c') ∧
        ∀ p ∈ q.params, envFind c'.env (p.1 ++ [0]) = lastValue q.params p.1 := by
  intro h
  obtain ⟨c', hrun, -⟩ := h splitParam (connected splitParam.bytes) rfl
  have hfail : (fcgiReadRequest (fun _ => 4) (fun _ => some 4) (fun _ => none)
      (connected splitParam.bytes)).map Prod.fst = some false := by decide +kernel
  rw [hrun] at hfail
  exact nomatch hfail

end FcgiConnection

end Php53.Sapi
