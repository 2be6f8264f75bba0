/-
  Dram/Assembly.lean --- how the data of reads is put together.

  The bytes of `read_rsp_queue` go to the reads in the order they were handed
  over, as many to each as its lines have.  What a read has received shows in
  the rest of its mask and in its data; the reads behind the first have
  received nothing.
-/
import SoftHier.Dram.Calls
import SoftHier.Dram.Ledger
import SoftHier.Dram.Lines
import SoftHier.Dram.Responses
import Mathlib.Data.List.Forall2

set_option autoImplicit false

namespace SoftHier.Dram

open SoftHier.Foundation Program Dramsys

variable {client : Client} {s s' t : Dramsys Ddr} {r : IoReq}

/-! ## One read -/

theorem PendingRead.takeByte_of_mask {p : PendingRead} {mask : Bool} {rest : List Bool}
    {ptr : UInt64} {byte : UInt8} (hmask : p.mask = mask :: rest)
    (hptr : p.req.numReq * granularity - UInt64.ofNat p.mask.length = ptr) :
    p.takeByte byte = some { p with
      mask := rest
      data := if p.req.covers ptr then
          p.data.set (ptr - (p.req.offset - p.req.startAddr)).toNat (if mask then byte else 0)
        else p.data } := by
  subst hptr
  unfold takeByte
  rw [hmask]

namespace IoReq

/-- The data of a read after the first bytes of its lines came back. -/
def filled (r : IoReq) (bytes : Bytes) : Bytes :=
  (List.range r.size.toNat).map fun k =>
    if r.offset.toNat % 64 + k < bytes.length then bytes.getD (r.offset.toNat % 64 + k) 0
    else r.data.getD k 0

/-- The entry of a read in `pending_read_req_queue` then. -/
def pendingAfter (r : IoReq) (bytes : Bytes) : PendingRead where
  req := r
  mask := r.masks.drop bytes.length
  data := r.filled bytes

theorem filled_nil (r : IoReq) : r.filled [] = r.data := by
  apply List.ext_getElem?
  intro k
  unfold filled
  by_cases hk : k < r.size.toNat
  · simp [hk, r.length_data]
  · rw [List.getElem?_eq_none (by rw [List.length_map, List.length_range]; omega),
      List.getElem?_eq_none (by rw [r.length_data]; omega)]

theorem pendingAfter_nil (r : IoReq) : r.pendingAfter [] = ⟨r, r.masks, r.data⟩ := by
  unfold pendingAfter
  rw [filled_nil]
  rfl

/-- One more byte, inside the request. -/
theorem filled_append_set {bytes : Bytes} {byte : UInt8} {k : Nat}
    (hk : r.offset.toNat % 64 + k = bytes.length) :
    (r.filled bytes).set k byte = r.filled (bytes ++ [byte]) := by
  unfold filled
  apply List.ext_getElem
  · simp
  · intro i h1 h2
    rw [List.getElem_set]
    simp only [List.getElem_map, List.getElem_range, List.length_append, List.length_singleton]
    split
    next heq =>
      subst heq
      rw [if_pos (by omega), hk]
      simp
    next hne =>
      split
      next hlt =>
        rw [if_pos (by omega), List.getD_append _ _ _ _ hlt]
      next hge =>
        rw [if_neg (by omega)]

/-- One more byte, outside the request. -/
theorem filled_append_skip {bytes : Bytes} {byte : UInt8}
    (hskip : ∀ k < r.size.toNat, r.offset.toNat % 64 + k ≠ bytes.length) :
    r.filled (bytes ++ [byte]) = r.filled bytes := by
  unfold filled
  apply List.map_congr_left
  intro k hk
  rw [List.mem_range] at hk
  have hne := hskip k hk
  rw [List.length_append, List.length_singleton]
  split
  next hlt =>
    rw [if_pos (by omega), List.getD_append _ _ _ _ (by omega)]
  next hge =>
    rw [if_neg (by omega)]

/-- A byte of the stream goes to the read at the head of the queue. -/
theorem InRange.takeByte (h : r.InRange) {bytes : Bytes} (hlen : bytes.length < r.numBytes)
    (byte : UInt8) :
    (r.pendingAfter bytes).takeByte byte = some (r.pendingAfter (bytes ++ [byte])) := by
  have hmask : (r.pendingAfter bytes).mask =
      r.covers (UInt64.ofNat bytes.length) :: r.masks.drop (bytes.length + 1) := by
    change r.masks.drop bytes.length = _
    rw [List.drop_eq_getElem_cons (by rw [length_masks]; exact hlen)]
    congr 1
    unfold masks
    rw [List.getElem_map, List.getElem_range]
  have hptr : r.numReq * granularity - UInt64.ofNat (r.pendingAfter bytes).mask.length =
      UInt64.ofNat bytes.length := by
    change r.numReq * granularity - UInt64.ofNat (r.masks.drop bytes.length).length = _
    rw [List.length_drop, length_masks]
    exact h.readPtr (le_of_lt hlen)
  rw [PendingRead.takeByte_of_mask hmask hptr]
  unfold pendingAfter
  rw [List.length_append, List.length_singleton]
  congr 2
  split
  next hcovers =>
    have hbounds := (h.covers_iff hlen).mp hcovers
    change (r.filled bytes).set (UInt64.ofNat bytes.length - (r.offset - r.startAddr)).toNat _ = _
    rw [h.dataIndex hlen hbounds.1]
    apply filled_append_set
    omega
  next hcovers =>
    have hbounds := mt (h.covers_iff hlen).mpr hcovers
    symm
    apply filled_append_skip
    intro k hk heq
    apply hbounds
    omega

end IoReq

/-! ## Reads in the log -/

namespace LogEntry

/-- A read that was handed over, and the range of its transactions. -/
def readHandOver : LogEntry → Option (IoReq × Nat × Nat)
  | .handOver r first next => if r.isWrite then none else some (r, first, next)
  | _ => none

/-- A read that was answered, and its data. -/
def readResp : LogEntry → Option (IoReq × Bytes)
  | .resp r data => if r.isWrite then none else some (r, data)
  | _ => none

end LogEntry

/-- The reads that were handed over, and the range of transactions of each. -/
def Dramsys.readHandOvers (s : Dramsys Ddr) : List (IoReq × Nat × Nat) :=
  s.host.log.filterMap LogEntry.readHandOver

/-- The reads that were answered, and their data. -/
def Dramsys.readResps (s : Dramsys Ddr) : List (IoReq × Bytes) :=
  s.host.log.filterMap LogEntry.readResp

/-- The transactions of a read. -/
def ownTags (h : IoReq × Nat × Nat) : List Nat := List.range' h.2.1 (h.2.2 - h.2.1)

@[simp] theorem readHandOver_denialLog (rs : List IoReq) :
    (denialLog rs).filterMap LogEntry.readHandOver = [] :=
  filterMap_denialLog_eq_nil rs fun _ => rfl

@[simp] theorem readResp_denialLog (rs : List IoReq) :
    (denialLog rs).filterMap LogEntry.readResp = [] :=
  filterMap_denialLog_eq_nil rs fun _ => rfl

theorem readHandOver_serveLog (r : IoReq) (rs rs' : List IoReq) :
    (serveLog r rs rs').filterMap LogEntry.readHandOver = [] := by
  cases hw : r.isWrite <;> simp [serveLog, hw, List.filterMap_cons, LogEntry.readHandOver]

theorem readResp_serveLog (r : IoReq) (rs rs' : List IoReq) :
    (serveLog r rs rs').filterMap LogEntry.readResp = [] := by
  cases hw : r.isWrite <;> simp [serveLog, hw, List.filterMap_cons, LogEntry.readResp]

/-! ## The queue of reads -/

/-- The first read of the queue has received the bytes `part`, the others none. -/
def HoldsPart : List PendingRead → Bytes → Prop
  | [], part => part = []
  | p :: rest, part => p = p.req.pendingAfter part ∧ part.length < p.req.numBytes ∧
      ∀ q ∈ rest, q = q.req.pendingAfter []

/-- What was pushed into `read_rsp_queue`, as it went to the reads.  `front` is
a read that was answered and is still at the head of the queue. -/
structure Streams (front : Option PendingRead) (s : Dramsys Ddr) : Prop where
  parts : ∃ (blocks : List Bytes) (part : Bytes) (queue : List PendingRead),
    s.host.pendingReadReqQueue = front.toList ++ queue ∧
    s.pushed = blocks.flatten ++ part ++ s.conv.readRspQueue ∧
    s.readHandOvers.map Prod.fst = s.readResps.map Prod.fst ++ queue.map PendingRead.req ∧
    List.Forall₂ (fun resp block => block.length = resp.1.numBytes ∧ resp.2 = resp.1.filled block)
      s.readResps blocks ∧
    HoldsPart queue part

/-- The reads that were handed over, as transactions. -/
structure SendsLines (s : Dramsys Ddr) : Prop where
  inRange : ∀ h ∈ s.readHandOvers, h.1.InRange
  denied : ∀ r ∈ s.host.deniedReqQueue, r.InRange
  tags : readTags s.socket s.socket.length = s.readHandOvers.flatMap ownTags
  lines : ∀ h ∈ s.readHandOvers, h.2.2 = h.2.1 + h.1.numReq.toNat ∧
    ∀ j < h.1.numReq.toNat, s.socket[h.2.1 + j]? = some (h.1.readLine j)

theorem HoldsPart.append {queue : List PendingRead} {part : Bytes} (h : HoldsPart queue part)
    (hr : r.InRange) : HoldsPart (queue ++ [⟨r, r.masks, r.data⟩]) part := by
  have hnew : (⟨r, r.masks, r.data⟩ : PendingRead) = r.pendingAfter [] := r.pendingAfter_nil.symm
  have hpos := hr.end_le_numBytes
  have hsize := hr.size_pos
  cases queue with
  | nil =>
    cases h
    refine ⟨hnew, ?_, fun _ hq => absurd hq List.not_mem_nil⟩
    change 0 < r.numBytes
    omega
  | cons p rest =>
    refine ⟨h.1, h.2.1, fun q hq => ?_⟩
    rcases List.mem_append.mp hq with hq | hq
    · exact h.2.2 q hq
    · rw [List.mem_singleton.mp hq]
      exact hnew

/-- The read behind one that was answered has received nothing. -/
theorem HoldsPart.tail {p : PendingRead} {rest : List PendingRead} {part : Bytes}
    (h : HoldsPart (p :: rest) part) (hrange : ∀ q ∈ rest, q.req.InRange) : HoldsPart rest [] := by
  cases rest with
  | nil => rfl
  | cons q rest =>
    have hq := hrange q List.mem_cons_self
    have hpos := hq.end_le_numBytes
    have hsize := hq.size_pos
    refine ⟨h.2.2 q List.mem_cons_self, ?_, fun q' hq' => h.2.2 q' (List.mem_cons_of_mem q hq')⟩
    change 0 < q.req.numBytes
    omega

/-! ## Every call keeps the stream -/

section Frame

/-- What neither reads nor writes the stream of bytes keeps it. -/
theorem Streams.frame {front : Option PendingRead} (h : Streams front s)
    (hpending : s'.host.pendingReadReqQueue = s.host.pendingReadReqQueue)
    (hpushed : s'.pushed = s.pushed) (hqueue : s'.conv.readRspQueue = s.conv.readRspQueue)
    (hhanded : s'.readHandOvers = s.readHandOvers) (hresps : s'.readResps = s.readResps) :
    Streams front s' := by
  rcases h.parts with ⟨blocks, part, queue, h⟩
  refine ⟨blocks, part, queue, ?_⟩
  rw [hpending, hpushed, hqueue, hhanded, hresps]
  exact h

theorem SendsLines.frame (h : SendsLines s) (hdenied : ∀ r ∈ s'.host.deniedReqQueue, r.InRange)
    (hsocket : s'.socket = s.socket) (hhanded : s'.readHandOvers = s.readHandOvers) :
    SendsLines s' where
  inRange := by rw [hhanded]; exact h.inRange
  denied := hdenied
  tags := by rw [hsocket, hhanded]; exact h.tags
  lines := by rw [hsocket, hhanded]; exact h.lines

end Frame

theorem readTags_append_all {socket ps : List Payload} {command : Command}
    (hps : ∀ p ∈ ps, p.command = command) :
    readTags (socket ++ ps) (socket ++ ps).length = readTags socket socket.length ++
      if command = .read then List.range' socket.length ps.length else [] := by
  have hnew : ∀ i ∈ List.range' socket.length ps.length,
      isReadAt (socket ++ ps) i = decide (command = .read) := by
    intro i hi
    rw [List.mem_range'_1] at hi
    have hget : (socket ++ ps)[i]? = ps[i - socket.length]? :=
      List.getElem?_append_right hi.1
    have hlt : i - socket.length < ps.length := by omega
    unfold isReadAt
    rw [hget, List.getElem?_eq_getElem hlt]
    change decide (_ = Command.read) = _
    rw [hps _ (List.getElem_mem hlt)]
  have hold : readTags (socket ++ ps) socket.length = readTags socket socket.length :=
    readTags_append (le_refl _)
  unfold readTags at hold ⊢
  rw [List.length_append, List.range_add, List.filter_append, hold]
  congr 1
  have hrange : (List.range ps.length).map (fun x => socket.length + x) =
      List.range' socket.length ps.length := (List.range'_eq_map_range ..).symm
  rw [hrange]
  split
  next hread =>
    apply List.filter_eq_self.mpr
    intro i hi
    rw [hnew i hi]
    exact decide_eq_true hread
  next hread =>
    apply List.filter_eq_nil_iff.mpr
    intro i hi
    rw [hnew i hi]
    simpa using hread

theorem HandedOver.readHandOvers (h : HandedOver s r t) :
    t.readHandOvers =
      s.readHandOvers ++ if r.isWrite then [] else [(r, s.socket.length, t.socket.length)] := by
  unfold Dramsys.readHandOvers
  rw [h.host, List.filterMap_append]
  cases hw : r.isWrite <;> simp [LogEntry.readHandOver, hw]

theorem isWrite_of_mem_readHandOvers {h : IoReq × Nat × Nat} (hh : h ∈ s.readHandOvers) :
    h.1.isWrite = false := by
  unfold Dramsys.readHandOvers at hh
  obtain ⟨e, _, he⟩ := List.mem_filterMap.mp hh
  unfold LogEntry.readHandOver at he
  split at he
  · split at he
    · cases he
    next hw =>
      cases he
      exact Bool.eq_false_iff.mpr hw
  · cases he

theorem HandedOver.readResps (h : HandedOver s r t) : t.readResps = s.readResps := by
  unfold Dramsys.readResps
  rw [h.host, List.filterMap_append]
  exact List.append_nil _

theorem SendsLines.handOver (h : SendsLines s) (hr : r.InRange) (hover : HandedOver s r t) :
    SendsLines t := by
  have hsocket := hover.socket
  have hold : ∀ h' ∈ s.readHandOvers, h'.2.2 = h'.2.1 + h'.1.numReq.toNat ∧
      ∀ j < h'.1.numReq.toNat, t.socket[h'.2.1 + j]? = some (h'.1.readLine j) := by
    intro h' hh'
    refine ⟨(h.lines h' hh').1, fun j hj => ?_⟩
    have hget := (h.lines h' hh').2 j hj
    rw [hsocket, List.getElem?_append_left (List.getElem?_eq_some_iff.mp hget).1]
    exact hget
  have hdenied : ∀ q ∈ t.host.deniedReqQueue, q.InRange := by
    rw [hover.host]
    exact h.denied
  have hhanded := hover.readHandOvers
  cases hw : r.isWrite with
  | true =>
    rw [hw, if_pos rfl, List.append_nil] at hhanded
    refine ⟨?_, hdenied, ?_, ?_⟩
    · rw [hhanded]
      exact h.inRange
    · rw [hhanded, hsocket, readTags_append_all (IoReq.command_of_write hw s.burst)]
      rw [if_neg (by simp), List.append_nil]
      exact h.tags
    · rw [hhanded]
      exact hold
  | false =>
    rw [hw, if_neg Bool.false_ne_true] at hhanded
    have htrans := IoReq.transactions_of_read hw s.burst
    rw [htrans] at hsocket
    have hlength : t.socket.length = s.socket.length + r.numReq.toNat := by
      rw [hsocket, List.length_append, List.length_map, List.length_range]
    refine ⟨?_, hdenied, ?_, ?_⟩
    · rw [hhanded]
      intro h' hh'
      rcases List.mem_append.mp hh' with hh' | hh'
      · exact h.inRange h' hh'
      · rw [List.mem_singleton.mp hh']
        exact hr
    · have hread : ∀ p ∈ (List.range r.numReq.toNat).map r.readLine, p.command = .read := by
        intro p hp
        rcases List.mem_map.mp hp with ⟨j, _, rfl⟩
        rfl
      have hown : ownTags (r, s.socket.length, t.socket.length) =
          List.range' s.socket.length r.numReq.toNat := by
        unfold ownTags
        rw [hlength, Nat.add_sub_cancel_left]
      rw [hhanded, List.flatMap_append, List.flatMap_singleton, hown, hsocket,
        readTags_append_all hread, if_pos rfl, h.tags, List.length_map, List.length_range]
    · rw [hhanded]
      intro h' hh'
      rcases List.mem_append.mp hh' with hh' | hh'
      · exact hold h' hh'
      · rw [List.mem_singleton.mp hh']
        refine ⟨hlength, fun j hj => ?_⟩
        rw [hsocket, List.getElem?_append_right (Nat.le_add_right _ _), Nat.add_sub_cancel_left,
          List.getElem?_map, List.getElem?_range hj]
        rfl

theorem Streams.handOver {front : Option PendingRead} (h : Streams front s) (hr : r.InRange)
    (hover : HandedOver s r t) : Streams front t := by
  rcases h.parts with ⟨blocks, part, queue, hpending, hpushed, horder, hfilled, hpart⟩
  refine ⟨blocks, part, queue ++ r.pendingReads, ?_, ?_, ?_, ?_, ?_⟩
  · rw [hover.host]
    change s.host.pendingReadReqQueue ++ _ = _
    rw [hpending, List.append_assoc]
  · rw [hover.pushed, hover.conv]
    exact hpushed
  · rw [hover.readHandOvers, hover.readResps, List.map_append, horder, List.append_assoc,
      List.map_append]
    congr 2
    unfold IoReq.pendingReads
    cases r.isWrite <;> rfl
  · rw [hover.readResps]
    exact hfilled
  · unfold IoReq.pendingReads
    split
    · rw [List.append_nil]
      exact hpart
    · exact hpart.append hr

/-! ## The invariant of `ddr` -/

/-- The transactions and the stream together. -/
structure Assembles (front : Option PendingRead) (s : Dramsys Ddr) : Prop where
  lines : SendsLines s
  streams : Streams front s

namespace Assembles

variable {front : Option PendingRead}

/-- Entries of the log that are about no read. -/
theorem logged (h : Assembles front s) {d : Ddr} {es : List LogEntry}
    (hlog : d.log = s.host.log ++ es)
    (hpending : d.pendingReadReqQueue = s.host.pendingReadReqQueue)
    (hdenied : ∀ r ∈ d.deniedReqQueue, r.InRange)
    (hhanded : es.filterMap LogEntry.readHandOver = [])
    (hresps : es.filterMap LogEntry.readResp = []) : Assembles front { s with host := d } := by
  have hhanded' : ({ s with host := d } : Dramsys Ddr).readHandOvers = s.readHandOvers := by
    unfold Dramsys.readHandOvers
    rw [hlog, List.filterMap_append, hhanded, List.append_nil]
  have hresps' : ({ s with host := d } : Dramsys Ddr).readResps = s.readResps := by
    unfold Dramsys.readResps
    rw [hlog, List.filterMap_append, hresps, List.append_nil]
  constructor
  · exact h.lines.frame hdenied rfl hhanded'
  · exact h.streams.frame hpending rfl rfl hhanded' hresps'

theorem handOver (h : Assembles front s) (hr : r.InRange) (hover : HandedOver s r t) :
    Assembles front t :=
  ⟨h.lines.handOver hr hover, h.streams.handOver hr hover⟩

theorem submitted (h : Assembles front s) (hr : r.InRange) (hs : Submitted s r s') :
    Assembles front s' := by
  cases hs with
  | accepted _ hover =>
    have hsubmit : Assembles front (s.logged [.submit r]) :=
      h.logged rfl rfl h.lines.denied rfl rfl
    have hsent := hsubmit.handOver hr hover
    exact hsent.logged rfl rfl hsent.lines.denied rfl rfl
  | denied _ =>
    refine h.logged rfl rfl ?_ (readHandOver_denialLog [r]) (readResp_denialLog [r])
    intro q hq
    rcases List.mem_append.mp hq with hq | hq
    · exact h.lines.denied q hq
    · rw [List.mem_singleton.mp hq]
      exact hr

theorem served (h : Assembles none s) (hclient : client.Sends IoReq.InRange)
    (hs : Served client s s') : Assembles none s' := by
  cases hs with
  | idle => exact h
  | @served r rest rs rs' t _ hqueue hover hsends _ =>
    have hr : r.InRange := h.lines.denied r (by rw [hqueue]; exact List.mem_cons_self)
    refine (h.handOver hr hover).logged rfl rfl ?_ (readHandOver_serveLog r rs rs')
      (readResp_serveLog r rs rs')
    intro q hq
    rcases List.mem_append.mp hq with hq | hq
    · exact h.lines.denied q (by rw [hqueue]; exact List.mem_cons_of_mem r hq)
    · rcases hsends q hq with ⟨log, hlog⟩
      exact hclient log q hlog

/-- The queue of reads names reads that were handed over. -/
theorem of_mem_pending (h : Assembles none s) :
    ∀ p ∈ s.host.pendingReadReqQueue, p.req.InRange ∧ p.req.isWrite = false := by
  intro p hp
  rcases h.streams.parts with ⟨blocks, part, queue, hpending, _, horder, _, _⟩
  have hmem : p.req ∈ s.readHandOvers.map Prod.fst := by
    rw [horder]
    apply List.mem_append_right
    apply List.mem_map_of_mem
    rw [hpending] at hp
    exact hp
  rcases List.mem_map.mp hmem with ⟨h', hh', heq⟩
  rw [← heq]
  exact ⟨h.lines.inRange h' hh', isWrite_of_mem_readHandOvers hh'⟩

/-- A byte goes to the oldest read, which is answered when its mask is used up. -/
theorem take (h : Assembles none s) {byte : UInt8} {bytes : Bytes} {p p' : PendingRead}
    {ps : List PendingRead} (hbytes : s.conv.readRspQueue = byte :: bytes)
    (hpending : s.host.pendingReadReqQueue = p :: ps) (htake : p.takeByte byte = some p') :
    if p'.mask = [] then
      Assembles (some p') ((s.tookByte bytes p' ps).logged [.resp p'.req p'.data])
    else Assembles none (s.tookByte bytes p' ps) := by
  have hmem : ∀ q ∈ p :: ps, q.req.InRange ∧ q.req.isWrite = false := by
    rw [← hpending]
    exact h.of_mem_pending
  obtain ⟨hp, hread⟩ := hmem p List.mem_cons_self
  rcases h.streams.parts with ⟨blocks, part, queue, hqueue, hpushed, horder, hfilled, hpart⟩
  rw [hpending] at hqueue
  change p :: ps = queue at hqueue
  rw [← hqueue] at hpart horder
  have hnext := hp.takeByte hpart.2.1 byte
  rw [← hpart.1, htake] at hnext
  have hp' : p' = p.req.pendingAfter (part ++ [byte]) := Option.some.inj hnext
  have hpushed' : s.pushed = blocks.flatten ++ (part ++ [byte]) ++ bytes := by
    rw [hpushed, hbytes]
    simp
  have hmask : p'.mask.length = p.req.numBytes - (part.length + 1) := by
    rw [hp']
    change (p.req.masks.drop (part ++ [byte]).length).length = _
    rw [List.length_drop, IoReq.length_masks, List.length_append, List.length_singleton]
  have hreq : p'.req = p.req := by rw [hp']; rfl
  split
  next hdone =>
    rw [hdone, List.length_nil] at hmask
    have hlt := hpart.2.1
    have hlogged : ((s.tookByte bytes p' ps).logged [.resp p'.req p'.data]).readResps =
        s.readResps ++ [(p'.req, p'.data)] := by
      unfold Dramsys.readResps
      change (s.host.log ++ [LogEntry.resp p'.req p'.data]).filterMap _ = _
      rw [List.filterMap_append]
      simp [LogEntry.readResp, hreq, hread]
    have hhanded : ((s.tookByte bytes p' ps).logged [.resp p'.req p'.data]).readHandOvers =
        s.readHandOvers := by
      unfold Dramsys.readHandOvers
      change (s.host.log ++ [LogEntry.resp p'.req p'.data]).filterMap _ = _
      rw [List.filterMap_append]
      exact List.append_nil _
    constructor
    · exact h.lines.frame h.lines.denied rfl hhanded
    · refine ⟨blocks ++ [part ++ [byte]], [], ps, rfl, ?_, ?_, ?_, ?_⟩
      · change s.pushed = _ ++ bytes
        rw [hpushed']
        simp
      · rw [hhanded, hlogged, horder, hreq]
        simp
      · rw [hlogged]
        apply List.rel_append hfilled
        refine .cons ⟨?_, ?_⟩ .nil
        · change (part ++ [byte]).length = p'.req.numBytes
          rw [hreq, List.length_append, List.length_singleton]
          omega
        · rw [hp']
          rfl
      · exact hpart.tail fun q hq => (hmem q (List.mem_cons_of_mem p hq)).1
  next hmore =>
    have hpos := List.length_pos_of_ne_nil hmore
    constructor
    · exact h.lines.frame h.lines.denied rfl rfl
    · refine ⟨blocks, part ++ [byte], p' :: ps, rfl, hpushed', ?_, hfilled, ?_, ?_, hpart.2.2⟩
      · change s.readHandOvers.map Prod.fst = s.readResps.map Prod.fst ++ p'.req :: ps.map _
        rw [hreq]
        exact horder
      · rw [hreq]
        exact hp'
      · rw [hreq, List.length_append, List.length_singleton]
        omega

theorem pop {p : PendingRead} (h : Assembles (some p) s) : Assembles none s.popPending := by
  constructor
  · exact h.lines.frame h.lines.denied rfl rfl
  · rcases h.streams.parts with ⟨blocks, part, queue, hqueue, hrest⟩
    refine ⟨blocks, part, queue, ?_, hrest⟩
    change s.host.pendingReadReqQueue.tail = queue
    rw [hqueue]
    rfl

theorem rspCallback (hclient : client.Sends IoReq.InRange) (h : Assembles none s) (isWrite : Bool)
    (hcall : Returns (rspCallback client isWrite) s () s') : Assembles none s' := by
  unfold Dram.rspCallback at hcall
  split at hcall
  · rw [← returns_modify.mp hcall]
    constructor
    · exact h.lines.frame h.lines.denied rfl rfl
    · exact h.streams.frame rfl rfl rfl rfl rfl
  · rw [returns_get_bind] at hcall
    apply fillReads_induct hclient Assembles _ _ _ h hcall
    · intro s byte bytes p p' ps hbytes hpending htake hs
      exact hs.take hbytes hpending htake
    · intro p r s s' hr hs hsubmit
      exact hs.submitted hr hsubmit
    · intro p s hs
      exact hs.pop

end Assembles

end SoftHier.Dram
