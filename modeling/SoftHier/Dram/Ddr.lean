/-
  Dram/Ddr.lean --- the `ddr` component.

  `ddr` receives requests of any size, sends each as transactions of one
  64-byte line to the DRAM library, queues the requests it cannot send, and
  assembles the data of reads from a stream of bytes that names no request.

  The calls a component makes on its client (`grant`, `resp`) and the requests
  the client makes are recorded in a log.  A client may send requests from
  inside `grant` and `resp`; it is modelled by the requests it sends there,
  which may depend on everything logged so far.
-/
import SoftHier.Dram.Conv

set_option autoImplicit false

namespace SoftHier.Dram

open SoftHier.Foundation Program

/-! ## Requests -/

/-- `vp::IoReq`: `id` stands for the address of the object. -/
structure IoReq where
  id : Nat
  addr : UInt64
  size : UInt64
  isWrite : Bool
  data : Bytes
  length_data : data.length = size.toNat
deriving Repr, DecidableEq

/-- `vp::IoReqStatus`. -/
inductive IoReqStatus where
  | ok
  | pending
  | denied
deriving Repr, DecidableEq

/-- BASE_ADDR. -/
def baseAddr : UInt64 := 0x80000000

/-- GRANULARITY. -/
def granularity : UInt64 := 64

/-- GRAN_CLOG. -/
def granClog : UInt64 := 6

namespace IoReq

def offset (r : IoReq) : UInt64 := r.addr - baseAddr

/-- `req_start_addr`. -/
def startAddr (r : IoReq) : UInt64 := (r.offset >>> granClog) <<< granClog

/-- `num_req`. -/
def numReq (r : IoReq) : UInt64 := 1 + ((r.offset + r.size - 1 - r.startAddr) >>> granClog)

/-- Whether byte `i` of the request's lines belongs to the request. -/
def covers (r : IoReq) (i : UInt64) : Bool :=
  decide (r.offset - r.startAddr ≤ i) && decide (i < r.offset + r.size - r.startAddr)

/-- How often the loop that fills the queues runs. -/
def numBytes (r : IoReq) : Nat := (granularity * r.numReq).toNat

/-- `mask_q` and `mask_d` after that loop. -/
def masks (r : IoReq) : List Bool :=
  (List.range r.numBytes).map fun i => r.covers (UInt64.ofNat i)

/-- `data_q` after that loop. -/
def lineData (r : IoReq) : Bytes :=
  (List.range r.numBytes).map fun i =>
    if r.covers (UInt64.ofNat i) then
      r.data.getD (UInt64.ofNat i - (r.offset - r.startAddr)).toNat 0
    else 0

end IoReq

/-! ## State -/

/-- A read that waits for its bytes: the rest of its mask, and its data so far. -/
structure PendingRead where
  req : IoReq
  mask : List Bool
  data : Bytes
deriving Repr, DecidableEq

/-- What passes between the component, its client and the library. -/
inductive LogEntry where
  /-- The client sends a request. -/
  | submit (r : IoReq)
  /-- The answer to that call. -/
  | status (r : IoReq) (st : IoReqStatus)
  /-- `paraSendRequest` sent the request as the transactions `first` to `next - 1`. -/
  | handOver (r : IoReq) (first next : Nat)
  | grant (r : IoReq)
  /-- `resp`, with what the request's data buffer holds. -/
  | resp (r : IoReq) (data : Bytes)
deriving Repr, DecidableEq

structure Ddr where
  deniedReqQueue : List IoReq := []
  pendingReadReqQueue : List PendingRead := []
  log : List LogEntry := []
deriving Repr, DecidableEq

/-- The requests a client sends inside a call it receives. -/
abbrev Client : Type := List LogEntry → List IoReq

/-- Programs of `ddr` and what is below it. -/
abbrev DdrProgram (α : Type) : Type := Program Fault (Dramsys Ddr) α

def logEntry (e : LogEntry) : DdrProgram PUnit :=
  modifyHost fun d => { d with log := d.log ++ [e] }

/-! ## Sending -/

/-- The loop over the lines of a request, from line `iter` on.  The queues are
emptied by 64 entries a line. -/
def sendLines (r : IoReq) : Nat → Nat → List Bool → Bytes → DdrProgram Unit
  | _, 0, _, _ => pure ()
  | iter, n + 1, maskQ, dataQ =>
    if maskQ.length < 64 ∨ dataQ.length < 64 then throw .undefined
    else do
      modify fun s => { s with
        wbuffer := s.wbuffer.fill (dataQ.take 64)
        wstrobe := s.wstrobe.fill ((maskQ.take 64).map byteEnabled) }
      dramSendReq (r.startAddr + UInt64.ofNat iter * granularity) granularity r.isWrite r.isWrite
      sendLines r (iter + 1) n (maskQ.drop 64) (dataQ.drop 64)

/-- `paraSendRequest`.  The first loop counts its bytes with an `int`. -/
def paraSendRequest (r : IoReq) : DdrProgram Unit :=
  if 2 ^ 31 ≤ r.numBytes then throw .undefined
  else do
    let s ← get
    sendLines r 0 r.numReq.toNat r.masks r.lineData
    let s' ← get
    logEntry (.handOver r s.socket.length s'.socket.length)
    if r.isWrite then pure ()
    else modifyHost fun d => { d with
      pendingReadReqQueue := d.pendingReadReqQueue ++ [⟨r, r.masks, r.data⟩] }

/-- `ddr::req`. -/
def req (r : IoReq) : DdrProgram IoReqStatus := do
  let s ← get
  if s.conv.dramCanAcceptReq then do
    paraSendRequest r
    pure (if r.isWrite then .ok else .pending)
  else do
    modifyHost fun d => { d with deniedReqQueue := d.deniedReqQueue ++ [r] }
    pure .denied

/-- The client sends a request and is told what became of it. -/
def submit (r : IoReq) : DdrProgram Unit := do
  logEntry (.submit r)
  let st ← req r
  logEntry (.status r st)

/-- A call on the client, inside which it sends what it wants to send. -/
def callClient (client : Client) (e : LogEntry) : DdrProgram Unit := do
  logEntry e
  let s ← get
  forEach submit (client s.host.log)

/-! ## Callbacks -/

namespace PendingRead

/-- One byte of the stream goes to a read: `none` when its mask is empty. -/
def takeByte (p : PendingRead) (byte : UInt8) : Option PendingRead :=
  match p.mask with
  | [] => none
  | mask :: rest =>
    let readPtr := p.req.numReq * granularity - UInt64.ofNat p.mask.length
    some { p with
      mask := rest
      data := if p.req.covers readPtr then
          p.data.set (readPtr - (p.req.offset - p.req.startAddr)).toNat (if mask then byte else 0)
        else p.data }

end PendingRead

/-- The loop of `rspCallback` over the bytes that came back.  Each pass takes a
byte off `read_rsp_queue`, so that queue's length bounds the number of passes. -/
def fillReads (client : Client) : Nat → DdrProgram Unit
  | 0 => pure ()
  | fuel + 1 => do
    let s ← get
    if s.conv.dramHasReadRsp then
      match s.host.pendingReadReqQueue with
      | [] => pure ()
      | p :: ps =>
        match p.takeByte s.conv.dramGetReadRspByte.1 with
        | none => throw .undefined
        | some p' => do
          modifyConv fun c => c.dramGetReadRspByte.2
          modifyHost fun d => { d with pendingReadReqQueue := p' :: ps }
          if p'.mask.length = 0 then do
            callClient client (.resp p'.req p'.data)
            modifyHost fun d => { d with pendingReadReqQueue := d.pendingReadReqQueue.tail }
            fillReads client fuel
          else
            fillReads client fuel
    else pure ()

/-- `rspCallback`.  For a write it empties `write_rsp_queue`. -/
def rspCallback (client : Client) (isWrite : Bool) : DdrProgram Unit :=
  if isWrite then modifyConv Conv.drainWriteRsp
  else do
    let s ← get
    fillReads client s.conv.readRspQueue.length

/-- A write that was queued is completed when it is granted. -/
def respWrite (client : Client) (r : IoReq) : DdrProgram Unit :=
  if r.isWrite then callClient client (.resp r r.data) else pure ()

/-- The loop of `reqCallback`.  Each pass takes a request off `denied_req_queue`. -/
def serveDenied (client : Client) : Nat → DdrProgram Unit
  | 0 => pure ()
  | fuel + 1 => do
    let s ← get
    if s.conv.dramCanAcceptReq then
      match s.host.deniedReqQueue with
      | [] => pure ()
      | r :: _ => do
        paraSendRequest r
        callClient client (.grant r)
        respWrite client r
        modifyHost fun d => { d with deniedReqQueue := d.deniedReqQueue.tail }
        serveDenied client fuel
    else pure ()

/-- `reqCallback`. -/
def reqCallback (client : Client) : DdrProgram Unit := do
  let s ← get
  serveDenied client s.host.deniedReqQueue.length

/-- What the constructor registers with the library. -/
def callbacks (client : Client) : Callbacks Ddr where
  response := rspCallback client
  updateRequest := reqCallback client

end SoftHier.Dram
