/-
  Dram/Conv.lean --- the `dramsys_conv` module and the library around it.

  `dramsys_conv` turns calls of its user into TLM transactions, puts the
  responses of reads back into the order the reads were accepted in, and calls
  its user back.  `dram_send_req` of the library sits in front of it and cuts a
  strobed write into bursts.

  Left out: the payload pool, END_RESP, the trace output, the other DRAM
  instances of the library, and the text that `std::cout` would get.
-/
import SoftHier.Foundation.Bytes
import SoftHier.Foundation.Program

set_option autoImplicit false

namespace SoftHier.Dram

open SoftHier.Foundation Program

/-- What ends a simulation early. -/
inductive Fault where
  /-- `SC_REPORT_FATAL`, which aborts. -/
  | fatal (source message : String)
  /-- Behaviour C++ leaves undefined: the front of an empty queue, a read past
  a buffer, a division by zero, an `int` that overflows. -/
  | undefined
deriving Repr, DecidableEq

/-! ## State -/

/-- A transaction as `dramsys_conv` remembers it. -/
structure Req where
  addr : UInt64
  len : UInt32
  isWrite : Bool
deriving Repr, DecidableEq

/-- The commands of a generic payload that are used. -/
inductive Command where
  | read
  | write
deriving Repr, DecidableEq

/-- What a transaction carries when BEGIN_REQ is sent. -/
structure Payload where
  command : Command
  address : UInt64
  dataLength : UInt32
  data : Bytes
  byteEnable : Bytes
deriving Repr, DecidableEq

/-- The lists and queues of `dramsys_conv`, and its counter, which is an `int`. -/
structure Conv where
  allReqList : List Req := []
  readReqList : List Req := []
  outOrderRspList : List (Req × Bytes) := []
  writeReqList : List Req := []
  readRspQueue : Bytes := []
  writeRspQueue : List Nat := []
  inflightReadCnt : Int := 0
deriving Repr, DecidableEq

/-- `max_pending_req`: set by the constructor and never assigned again. -/
def maxPendingReq : Nat := 1

/-- The write buffer or the write strobe of an instance, `new uint8_t [2048]`. -/
structure Buffer where
  bytes : Bytes
  length_bytes : bytes.length = 2048
deriving Repr, DecidableEq

/-- One DRAM instance, the user `host` that registered itself with it, and what
has passed between them. -/
structure Dramsys (δ : Type) where
  conv : Conv
  /-- `list_of_DRAMburst[dram_id]`. -/
  burst : UInt64
  wbuffer : Buffer
  wstrobe : Buffer
  /-- The transactions sent with BEGIN_REQ, in the order they were sent. -/
  socket : List Payload
  /-- Every byte that was ever pushed into `read_rsp_queue`. -/
  pushed : Bytes
  host : δ

/-- The functions the user registered. -/
structure Callbacks (δ : Type) where
  response : Bool → Program Fault (Dramsys δ) Unit
  updateRequest : Program Fault (Dramsys δ) Unit

variable {δ : Type}

/-- Assign to members of `dramsys_conv`. -/
def modifyConv (f : Conv → Conv) : Program Fault (Dramsys δ) PUnit :=
  modify fun s => { s with conv := f s.conv }

/-- Assign to members of the user. -/
def modifyHost (f : δ → δ) : Program Fault (Dramsys δ) PUnit :=
  modify fun s => { s with host := f s.host }

/-! ## Requests -/

namespace Conv

def dramCanAcceptReq (c : Conv) : Bool := decide (c.allReqList.length < maxPendingReq)

/-- The payload of a request; a read carries no data of its own. -/
def payloadOf (addr length : UInt64) (isWrite strobEnable : Bool) (buf strbBuf : Bytes) :
    Payload where
  command := if isWrite then .write else .read
  address := addr
  dataLength := length.toUInt32
  data := if isWrite then buf.take length.toUInt32.toNat else []
  byteEnable := if strobEnable then strbBuf.take length.toNat else []

/-- `dramsys_conv::dram_send_req`.  The list entry keeps 32 bits of the length. -/
def dramSendReq (addr length : UInt64) (isWrite strobEnable : Bool) (buf strbBuf : Bytes) :
    Program Fault (Dramsys δ) Unit :=
  if strobEnable && decide (strbBuf.length < length.toNat) then throw .undefined
  else if isWrite && decide (buf.length < length.toUInt32.toNat) then throw .undefined
  else do
    modify fun s =>
      { s with socket := s.socket ++ [payloadOf addr length isWrite strobEnable buf strbBuf] }
    modifyConv fun c =>
      { c with allReqList := c.allReqList ++ [⟨addr, length.toUInt32, isWrite⟩] }

/-- `dram_has_read_rsp`: the size of the queue as an `int`, tested for zero. -/
def dramHasReadRsp (c : Conv) : Bool := decide (c.readRspQueue.length % 2 ^ 32 ≠ 0)

/-- `dram_get_write_rsp`, called while `dram_has_write_rsp`, an `int`, is not zero. -/
def drainWriteRsp (c : Conv) : Conv :=
  { c with writeRspQueue := c.writeRspQueue.drop (c.writeRspQueue.length % 2 ^ 32) }

/-- `dram_get_read_rsp_byte`: an empty queue yields zero. -/
def dramGetReadRspByte (c : Conv) : UInt8 × Conv :=
  match c.readRspQueue with
  | [] => (0, c)
  | byte :: rest => (byte, { c with readRspQueue := rest })

/-! ## Phases -/

/-- `peqCallback` with phase END_REQ. -/
def peqEndReq (callbacks : Callbacks δ) (payload : Payload) :
    Program Fault (Dramsys δ) Unit := do
  let s ← get
  match s.conv.allReqList with
  | [] => throw .undefined
  | req :: rest =>
    match payload.command with
    | .read =>
      if req.isWrite then
        throw (.fatal "CONV" "end read request, but pop write req")
      else if 2 ^ 31 ≤ s.conv.inflightReadCnt + 1 then throw .undefined
      else do
        modifyConv fun c => { c with
          readReqList := c.readReqList ++ [req]
          inflightReadCnt := c.inflightReadCnt + 1
          allReqList := rest }
        callbacks.updateRequest
    | .write =>
      if req.isWrite then do
        modifyConv fun c => { c with
          writeReqList := c.writeReqList ++ [req]
          allReqList := rest }
        callbacks.updateRequest
      else
        throw (.fatal "CONV" "end write request, but pop read req")

/-- Two requests are told apart by address and length only. -/
def sameKey (req req' : Req) : Bool := req.addr == req'.addr && req.len == req'.len

/-- The search of a read response for the request it answers. -/
def findReq (reqs : List Req) (payload : Payload) : Option Req :=
  reqs.find? fun req => req.addr == payload.address && req.len == payload.dataLength

/-- The search of the loop over `out_order_rsp_list` for the oldest read. -/
def findRsp (rsps : List (Req × Bytes)) (req : Req) : Option (Req × Bytes) :=
  rsps.find? fun rsp => sameKey req rsp.1

/-- `out_order_rsp_list.erase(rsp_it)` of the entry that search found. -/
def eraseRsp (rsps : List (Req × Bytes)) (req : Req) : List (Req × Bytes) :=
  rsps.eraseP fun rsp => sameKey req rsp.1

/-- The `while (true)` loop that releases the oldest reads.  Each pass erases an
entry of `read_req_list`, so that list's length bounds the number of passes. -/
def releaseReads (callbacks : Callbacks δ) : Nat → Program Fault (Dramsys δ) Unit
  | 0 => pure ()
  | fuel + 1 => do
    let s ← get
    match s.conv.readReqList with
    | [] => pure ()
    | req :: reqs =>
      match findRsp s.conv.outOrderRspList req with
      | none => pure ()
      | some rsp =>
        if rsp.2.length < req.len.toNat then throw .undefined
        else if s.conv.inflightReadCnt - 1 < -2 ^ 31 then throw .undefined
        else do
          modify fun s => { s with pushed := s.pushed ++ rsp.2.take req.len.toNat }
          modifyConv fun c => { c with
            readRspQueue := c.readRspQueue ++ rsp.2.take req.len.toNat
            readReqList := reqs
            outOrderRspList := eraseRsp c.outOrderRspList req
            inflightReadCnt := c.inflightReadCnt - 1 }
          callbacks.response false
          releaseReads callbacks fuel

/-- `peqCallback` with phase BEGIN_RESP; `data` is what the payload's data
pointer shows.  The copy of the data counts with an `int`. -/
def peqBeginResp (callbacks : Callbacks δ) (payload : Payload) (data : Bytes) :
    Program Fault (Dramsys δ) Unit := do
  let s ← get
  match payload.command with
  | .read =>
    match findReq s.conv.readReqList payload with
    | none => throw (.fatal "AXI4_to_TLM" "How could? can not find corresponding request!")
    | some req =>
      if 2 ^ 31 ≤ req.len.toNat then throw .undefined
      else do
        modifyConv fun c => { c with
          outOrderRspList := c.outOrderRspList ++ [(req, data.take req.len.toNat)] }
        releaseReads callbacks s.conv.readReqList.length
  | .write =>
    match s.conv.writeReqList with
    | [] => throw .undefined
    | _ :: rest => do
      modifyConv fun c => { c with
        writeReqList := rest
        writeRspQueue := c.writeRspQueue ++ [1] }
      callbacks.response true

end Conv

/-! ## The library -/

namespace Buffer

def zero : Buffer := ⟨List.replicate 2048 0, List.length_replicate⟩

/-- `buffer[0]`, `buffer[1]`, ... are assigned the bytes of `line`. -/
def fill (b : Buffer) (line : Bytes) : Buffer where
  bytes := (line ++ b.bytes.drop line.length).take 2048
  length_bytes := by
    rw [List.length_take, List.length_append, List.length_drop, b.length_bytes]
    omega

/-- What is read back from a buffer that was just filled. -/
theorem slice_fill (b : Buffer) {line : Bytes} {k n : Nat} (h : k + n ≤ line.length)
    (hline : line.length ≤ 2048) : slice (b.fill line).bytes k n = slice line k n := by
  unfold fill
  rw [← slice_append_of_le (b := b.bytes.drop line.length) h]
  unfold slice
  rw [List.drop_take, List.take_take, Nat.min_eq_left (by omega)]

end Buffer

/-- `dram_write_strobe` turns a flag into `TLM_BYTE_ENABLED` or `TLM_BYTE_DISABLED`. -/
def byteEnabled (strob : Bool) : UInt8 := if strob then 0xff else 0

/-- `dram_send_req` of the library.  A strobed write longer than a burst is sent
burst by burst. -/
def dramSendReq (addr length : UInt64) (isWrite strobEnable : Bool) :
    Program Fault (Dramsys δ) Unit := do
  let s ← get
  if isWrite && strobEnable && decide (s.burst < length) then
    if s.burst = 0 then throw .undefined
    else if length % s.burst ≠ 0 then
      throw (.fatal "dramsys_conv" "cannot tackle strob write with misaligned size")
    else
      forEach (fun i =>
          Conv.dramSendReq (addr + UInt64.ofNat i * s.burst) s.burst isWrite strobEnable
            (s.wbuffer.bytes.drop (i * s.burst.toNat)) (s.wstrobe.bytes.drop (i * s.burst.toNat)))
        (List.range (length / s.burst).toNat)
  else
    Conv.dramSendReq addr length isWrite strobEnable s.wbuffer.bytes s.wstrobe.bytes

end SoftHier.Dram
