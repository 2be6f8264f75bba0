/-
  Dram/ConvRuns.lean --- runs of `dramsys_conv` alone.

  The user of `dramsys_conv` calls `dram_send_req` whenever it wants, also from
  inside the two callbacks; what it sends there may depend on everything that
  happened so far.  It takes nothing off the queues of responses.  The DRAM ends
  requests in the order they were sent in and answers every accepted transaction
  once, reads of one address and length in the order they were accepted in.  An event is never delivered while another
  one is being handled.
-/
import SoftHier.Dram.Responses
import SoftHier.Foundation.Transition

set_option autoImplicit false

namespace SoftHier.Dram

open SoftHier.Foundation Program

/-! ## The user -/

/-- A call of `dram_send_req`, with what its two pointers show. -/
structure SendCall where
  addr : UInt64
  length : UInt64
  isWrite : Bool
  strobEnable : Bool
  buf : Bytes
  strbBuf : Bytes
  length_lt : length.toNat < 2 ^ 32
  le_buf : isWrite = true → length.toNat ≤ buf.length
  le_strbBuf : strobEnable = true → length.toNat ≤ strbBuf.length

namespace SendCall

/-- The transaction a call sends. -/
def payload (c : SendCall) : Payload :=
  Conv.payloadOf c.addr c.length c.isWrite c.strobEnable c.buf c.strbBuf

/-- Make the call. -/
def issue (c : SendCall) : Program Fault (Dramsys Unit) Unit :=
  Conv.dramSendReq c.addr c.length c.isWrite c.strobEnable c.buf c.strbBuf

end SendCall

/-- The calls a user makes from inside its callbacks. -/
structure ConvUser where
  onResponse : Bool → Dramsys Unit → List SendCall
  onUpdateRequest : Dramsys Unit → List SendCall

namespace ConvUser

/-- What the user registers. -/
def callbacks (user : ConvUser) : Callbacks Unit where
  response := fun isWrite => do
    let s ← get
    forEach SendCall.issue (user.onResponse isWrite s)
  updateRequest := do
    let s ← get
    forEach SendCall.issue (user.onUpdateRequest s)

/-- The user makes only calls with property `ok`. -/
structure Sends (user : ConvUser) (ok : SendCall → Prop) : Prop where
  onResponse : ∀ isWrite s, ∀ c ∈ user.onResponse isWrite s, ok c
  onUpdateRequest : ∀ s, ∀ c ∈ user.onUpdateRequest s, ok c

end ConvUser

/-! ## Runs -/

/-- `dramsys_conv`, and what the DRAM has done so far. -/
structure ConvWorld where
  sys : Dramsys Unit
  /-- How many transactions have got their END_REQ. -/
  ended : Nat
  /-- The transactions answered with BEGIN_RESP, and with which data. -/
  responses : List (Nat × Bytes)

namespace ConvWorld

/-- After construction. -/
def start : ConvWorld where
  sys := {
    conv := {}
    burst := 64
    wbuffer := .zero
    wstrobe := .zero
    socket := []
    pushed := []
    host := () }
  ended := 0
  responses := []

/-- Transaction `t` has been answered. -/
def Answered (w : ConvWorld) (t : Nat) : Prop := t ∈ w.responses.map Prod.fst

instance (w : ConvWorld) (t : Nat) : Decidable (w.Answered t) :=
  inferInstanceAs (Decidable (_ ∈ _))

/-- What the DRAM may answer next. -/
structure MayAnswer (w : ConvWorld) (t : Nat) (p : Payload) (data : Bytes) : Prop where
  sent : w.sys.socket[t]? = some p
  accepted : t < w.ended
  unanswered : ¬ w.Answered t
  length : data.length = p.dataLength.toNat
  inOrder : p.command = .read → ∀ t' < t, ∀ p' ∈ w.sys.socket[t']?,
    p'.command = .read → p'.key = p.key → w.Answered t'

end ConvWorld

/-- The events; `ok` restricts the calls the user makes. -/
inductive ConvStep (ok : SendCall → Prop) (w : ConvWorld) : ConvWorld → Prop
  | send {c : SendCall} {s : Dramsys Unit} :
      ok c → Returns c.issue w.sys () s → ConvStep ok w { w with sys := s }
  | endReq {user : ConvUser} {p : Payload} {s : Dramsys Unit} :
      user.Sends ok → w.sys.socket[w.ended]? = some p →
      Returns (Conv.peqEndReq user.callbacks p) w.sys () s →
      ConvStep ok w { w with sys := s, ended := w.ended + 1 }
  | beginResp {user : ConvUser} {t : Nat} {p : Payload} {data : Bytes} {s : Dramsys Unit} :
      user.Sends ok → w.MayAnswer t p data →
      Returns (Conv.peqBeginResp user.callbacks p data) w.sys () s →
      ConvStep ok w { w with sys := s, responses := w.responses ++ [(t, data)] }

namespace ConvWorld

/-- The states that runs reach. -/
def Reached (ok : SendCall → Prop) (w : ConvWorld) : Prop :=
  Reachable (fun s => s = start) (ConvStep ok) w

/-! ## What a user expects -/

/-- The reads that got their END_REQ, in that order. -/
def acceptedReads (w : ConvWorld) : List Nat := readTags w.sys.socket w.ended

/-- The writes that got their END_REQ. -/
def acceptedWrites (w : ConvWorld) : List Nat :=
  (List.range w.ended).filter fun t => ! isReadAt w.sys.socket t

/-- The longest prefix of the accepted reads all of whose members have been
answered. -/
def answeredReads (w : ConvWorld) : List Nat :=
  w.acceptedReads.takeWhile fun t => decide (w.Answered t)

/-- The data transaction `t` was answered with. -/
def responseData (w : ConvWorld) (t : Nat) : Bytes :=
  ((w.responses.find? fun a => a.1 = t).map Prod.snd).getD []

/-- The accepted reads behind that prefix. -/
def waitingReads (w : ConvWorld) : List Nat := w.acceptedReads.drop w.answeredReads.length

/-- `read_rsp_queue`, which nothing is taken from, holds the bytes of the answered
reads in the order of the reads, and the lists hold what waits. -/
structure InOrder (w : ConvWorld) : Prop where
  queue : w.sys.conv.readRspQueue = w.answeredReads.flatMap w.responseData
  inflight : w.sys.conv.inflightReadCnt = w.sys.conv.readReqList.length
  reads : w.sys.conv.readReqList.length = w.waitingReads.length
  writes : w.sys.conv.writeReqList.length =
    (w.acceptedWrites.filter fun t => ! decide (w.Answered t)).length

/-- Whatever comes next is handled to its end: nothing is popped off an empty
list and no fatal branch is reached. -/
structure Safe (w : ConvWorld) : Prop where
  send : ∀ c : SendCall, ∃ s, Returns c.issue w.sys () s
  endReq : ∀ (user : ConvUser) p, w.sys.socket[w.ended]? = some p →
    ∃ s, Returns (Conv.peqEndReq user.callbacks p) w.sys () s
  beginResp : ∀ (user : ConvUser) t p data, w.MayAnswer t p data →
    ∃ s, Returns (Conv.peqBeginResp user.callbacks p data) w.sys () s

end ConvWorld

/-- A read whose bytes an `int` can count. -/
def SendCall.Countable (c : SendCall) : Prop := c.isWrite = false → c.length.toNat < 2 ^ 31

end SoftHier.Dram
