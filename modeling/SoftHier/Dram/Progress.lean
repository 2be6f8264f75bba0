/-
  Dram/Progress.lean --- whatever comes next is handled to its end.

  Neither component ever reaches a fatal branch or a queue it finds empty: every
  END_REQ finds its request, every response finds what it answers, and every byte
  that comes back finds a read that waits for it.  Between two events no byte is
  left in `read_rsp_queue`.
-/
import SoftHier.Dram.ConvBuffers
import SoftHier.Dram.ReadOrder
import SoftHier.Dram.Spans
import SoftHier.Dram.WriteImage
import Mathlib.Algebra.BigOperators.Ring.List

set_option autoImplicit false

namespace SoftHier.Dram

open SoftHier.Foundation Program Dramsys

variable {client : Client} {s s' : Dramsys Ddr} {r : IoReq}

/-- The bursts of a DRAM that a line can be cut into. -/
def CutsLines (burst : UInt64) : Prop := 64 ≤ burst.toNat ∨ burst.toNat ∣ 64

/-! ## Requests of the client -/

theorem Submitted.burst (h : Submitted s r s') : s'.burst = s.burst := by
  cases h with
  | accepted _ hover => exact hover.burst
  | denied _ => rfl

theorem Submitted.readRspQueue (h : Submitted s r s') :
    s'.conv.readRspQueue = s.conv.readRspQueue := by
  cases h with
  | accepted _ hover =>
    rw [logged, hover.conv]
    rfl
  | denied _ => rfl

theorem returns_logEntry (e : LogEntry) (s : Dramsys Ddr) :
    Returns (logEntry e) s () (s.logged [e]) := rfl

theorem returns_submit (hr : r.InRange) (hcuts : CutsLines s.burst) :
    ∃ s', Returns (submit r) s () s' := by
  have hreq : ∃ st t, Returns (req r) (s.logged [.submit r]) st t := by
    unfold req
    by_cases hcan : (s.logged [.submit r]).conv.dramCanAcceptReq = true
    · obtain ⟨t, ht⟩ := (hr.sendable hcuts).returns (s := s.logged [.submit r])
      refine ⟨if r.isWrite then .ok else .pending, t, returns_get_bind.mpr ?_⟩
      rw [if_pos hcan]
      exact ht.bind rfl
    · refine ⟨.denied, { s with host := { s.host with
        deniedReqQueue := s.host.deniedReqQueue ++ [r]
        log := s.host.log ++ [.submit r] } }, returns_get_bind.mpr ?_⟩
      rw [if_neg hcan]
      exact rfl
  obtain ⟨st, t, ht⟩ := hreq
  exact ⟨_, (returns_logEntry _ s).bind (ht.bind (returns_logEntry _ t))⟩

theorem returns_submitAll {rs : List IoReq} (hrs : ∀ r ∈ rs, r.InRange)
    (hcuts : CutsLines s.burst) : ∃ s', Returns (forEach submit rs) s () s' := by
  induction rs generalizing s with
  | nil => exact ⟨s, returns_forEach_nil.mpr rfl⟩
  | cons r rs ih =>
    obtain ⟨t, ht⟩ := returns_submit (hrs r List.mem_cons_self) hcuts
    obtain ⟨s', hs'⟩ := ih (s := t) (fun q hq => hrs q (List.mem_cons_of_mem r hq))
      (by rw [(submit_inv ht).burst]; exact hcuts)
    exact ⟨s', returns_forEach_cons.mpr ⟨t, ht, hs'⟩⟩

theorem returns_callClient (hclient : client.Sends IoReq.InRange) (e : LogEntry)
    (hcuts : CutsLines s.burst) : ∃ s', Returns (callClient client e) s () s' := by
  obtain ⟨s', hs'⟩ := returns_submitAll (s := s.logged [e])
    (hclient (s.logged [e]).host.log) hcuts
  exact ⟨s', (returns_logEntry e s).bind (returns_get_bind.mpr hs')⟩

/-! ## `reqCallback` -/

theorem returns_serveDenied_full {fuel : Nat} (hfull : s.conv.dramCanAcceptReq = false) :
    Returns (serveDenied client fuel) s () s := by
  cases fuel with
  | zero => exact returns_pure.mpr ⟨rfl, rfl⟩
  | succ fuel =>
    rw [serveDenied, returns_get_bind, hfull, if_neg Bool.false_ne_true]
    exact returns_pure.mpr ⟨rfl, rfl⟩

/-- While nothing is accepted, a call on the client ends with nothing accepted. -/
theorem returns_callClient_full (hclient : client.Sends IoReq.InRange) (e : LogEntry)
    (hcuts : CutsLines s.burst) (hfull : s.conv.dramCanAcceptReq = false) :
    ∃ s', Returns (callClient client e) s () s' ∧ s'.conv.dramCanAcceptReq = false ∧
      s'.burst = s.burst := by
  obtain ⟨s', hs'⟩ := returns_callClient hclient e hcuts
  obtain ⟨rs, _, heq⟩ := callClient_denied hfull hs'
  refine ⟨s', hs', ?_, ?_⟩
  · rw [heq]
    exact hfull
  · rw [heq]
    rfl

theorem returns_reqCallback (hclient : client.Sends IoReq.InRange)
    (hdenied : ∀ r ∈ s.host.deniedReqQueue, r.InRange) (hcuts : CutsLines s.burst) :
    ∃ s', Returns (reqCallback client) s () s' := by
  cases hqueue : s.host.deniedReqQueue with
  | nil =>
    refine ⟨s, returns_get_bind.mpr ?_⟩
    rw [hqueue]
    exact returns_pure.mpr ⟨rfl, rfl⟩
  | cons r rest =>
    by_cases hcan : s.conv.dramCanAcceptReq = true
    · have hr : r.InRange := hdenied r (by rw [hqueue]; exact List.mem_cons_self)
      obtain ⟨t, ht⟩ := (hr.sendable hcuts).returns (s := s)
      have hover := paraSendRequest_handedOver ht
      have hcuts' : CutsLines t.burst := by rw [hover.burst]; exact hcuts
      obtain ⟨t₁, hgrant, hfull₁, hburst₁⟩ :=
        returns_callClient_full hclient (.grant r) hcuts' hover.dramCanAcceptReq
      have hresp : ∃ t₂, Returns (respWrite client r) t₁ () t₂ ∧
          t₂.conv.dramCanAcceptReq = false := by
        unfold respWrite
        cases r.isWrite with
        | true =>
          obtain ⟨t₂, ht₂, hfull₂, _⟩ := returns_callClient_full hclient (.resp r r.data)
            (by rw [hburst₁]; exact hcuts') hfull₁
          exact ⟨t₂, ht₂, hfull₂⟩
        | false => exact ⟨t₁, returns_pure.mpr ⟨rfl, rfl⟩, hfull₁⟩
      obtain ⟨t₂, hresp, hfull₂⟩ := hresp
      have hpop : Returns (modifyHost fun d => { d with deniedReqQueue := d.deniedReqQueue.tail })
          t₂ ⟨⟩ { t₂ with host := { t₂.host with
            deniedReqQueue := t₂.host.deniedReqQueue.tail } } := rfl
      refine ⟨{ t₂ with host := { t₂.host with
        deniedReqQueue := t₂.host.deniedReqQueue.tail } }, returns_get_bind.mpr ?_⟩
      rw [hqueue, List.length_cons, serveDenied, returns_get_bind, if_pos hcan, hqueue]
      exact ht.bind (hgrant.bind (hresp.bind (hpop.bind (returns_serveDenied_full hfull₂))))
    · exact ⟨s, returns_get_bind.mpr (returns_serveDenied_full (Bool.eq_false_iff.mpr hcan))⟩

theorem Served.readRspQueue (h : Served client s s') :
    s'.conv.readRspQueue = s.conv.readRspQueue := by
  cases h with
  | idle => rfl
  | served _ _ hover _ _ =>
    rw [hover.conv]

/-! ## `rspCallback` -/

/-- The oldest read still waits for a byte. -/
theorem Assembles.exists_takeByte (h : Assembles none s) {p : PendingRead} {ps : List PendingRead}
    (hpending : s.host.pendingReadReqQueue = p :: ps) (byte : UInt8) :
    ∃ p', p.takeByte byte = some p' := by
  have hp : p.req.InRange :=
    (h.of_mem_pending p (by rw [hpending]; exact List.mem_cons_self)).1
  obtain ⟨_, part, queue, hqueue, _, _, _, hpart⟩ := h.streams.parts
  rw [hpending] at hqueue
  change p :: ps = queue at hqueue
  rw [← hqueue] at hpart
  have hnext := hp.takeByte hpart.2.1 byte
  rw [← hpart.1] at hnext
  exact ⟨_, hnext⟩

/-- The loop takes bytes until none is left or no read waits. -/
theorem returns_fillReads (hclient : client.Sends IoReq.InRange) (h : Assembles none s)
    (hcuts : CutsLines s.burst) (hlt : s.conv.readRspQueue.length < 2 ^ 32) {fuel : Nat}
    (hfuel : s.conv.readRspQueue.length ≤ fuel) :
    ∃ s', Returns (fillReads client fuel) s () s' ∧
      (s'.conv.readRspQueue = [] ∨ s'.host.pendingReadReqQueue = []) := by
  induction fuel generalizing s with
  | zero =>
    refine ⟨s, returns_pure.mpr ⟨rfl, rfl⟩, .inl ?_⟩
    exact List.eq_nil_of_length_eq_zero (Nat.le_zero.mp hfuel)
  | succ fuel ih =>
    cases hqueue : s.conv.readRspQueue with
    | nil =>
      refine ⟨s, ?_, .inl hqueue⟩
      rw [fillReads, returns_get_bind, Conv.dramHasReadRsp, hqueue, if_neg (by simp)]
      exact returns_pure.mpr ⟨rfl, rfl⟩
    | cons byte bytes =>
      rw [hqueue, List.length_cons] at hlt hfuel
      have hhas : s.conv.dramHasReadRsp = true := by
        rw [Conv.dramHasReadRsp, hqueue, List.length_cons, Nat.mod_eq_of_lt hlt]
        simp
      cases hpending : s.host.pendingReadReqQueue with
      | nil =>
        refine ⟨s, ?_, .inr hpending⟩
        rw [fillReads, returns_get_bind, if_pos hhas, hpending]
        exact returns_pure.mpr ⟨rfl, rfl⟩
      | cons p ps =>
        obtain ⟨p', htake⟩ := h.exists_takeByte hpending byte
        have hget : s.conv.dramGetReadRspByte = (byte, { s.conv with readRspQueue := bytes }) := by
          rw [Conv.dramGetReadRspByte, hqueue]
        have hnext := h.take hqueue hpending htake
        -- one pass, up to the test of the mask
        have hpass : ∀ {s'}, Returns (if p'.mask.length = 0 then do
              callClient client (.resp p'.req p'.data)
              modifyHost fun d => { d with pendingReadReqQueue := d.pendingReadReqQueue.tail }
              fillReads client fuel
            else fillReads client fuel) (s.tookByte bytes p' ps) () s' →
            Returns (fillReads client (fuel + 1)) s () s' := by
          intro s' hrest
          have hbyte : p.takeByte s.conv.dramGetReadRspByte.1 = some p' := by
            rw [hget]
            exact htake
          rw [fillReads, returns_get_bind, if_pos hhas]
          simp only [hpending, hbyte]
          unfold modifyConv modifyHost
          rw [returns_modify_bind, returns_modify_bind]
          change Returns _ { s with
            conv := s.conv.dramGetReadRspByte.2
            host := { s.host with pendingReadReqQueue := p' :: ps } } () s'
          rw [hget]
          exact hrest
        by_cases hmask : p'.mask = []
        · rw [if_pos hmask] at hnext
          obtain ⟨t, hcall⟩ := returns_callClient hclient (.resp p'.req p'.data)
            (s := s.tookByte bytes p' ps) hcuts
          have ht : Assembles (some p') t ∧ t.burst = s.burst ∧ t.conv.readRspQueue = bytes := by
            refine callClient_induct (J := fun t => Assembles (some p') t ∧ t.burst = s.burst ∧
              t.conv.readRspQueue = bytes) hclient ?_ ⟨hnext, rfl, rfl⟩ hcall
            intro q v v' hq hv hsubmit
            exact ⟨hv.1.submitted hq hsubmit, hsubmit.burst.trans hv.2.1,
              hsubmit.readRspQueue.trans hv.2.2⟩
          have hpop : Assembles none t.popPending := ht.1.pop
          obtain ⟨s', hs', hend⟩ := ih hpop (by exact ht.2.1 ▸ hcuts)
            (by change t.conv.readRspQueue.length < _; rw [ht.2.2]; omega)
            (by change t.conv.readRspQueue.length ≤ _; rw [ht.2.2]; omega)
          refine ⟨s', hpass ?_, hend⟩
          rw [if_pos (by rw [hmask, List.length_nil])]
          exact hcall.bind (returns_modify_bind.mpr hs')
        · rw [if_neg hmask] at hnext
          obtain ⟨s', hs', hend⟩ := ih hnext hcuts (by change bytes.length < _; omega)
            (by change bytes.length ≤ _; omega)
          refine ⟨s', hpass ?_, hend⟩
          rw [if_neg fun h0 => hmask (List.length_eq_zero_iff.mp h0)]
          exact hs'

theorem returns_rspCallback (hclient : client.Sends IoReq.InRange) (h : Assembles none s)
    (hcuts : CutsLines s.burst) (hlt : s.conv.readRspQueue.length < 2 ^ 32) (isWrite : Bool) :
    ∃ s', Returns (rspCallback client isWrite) s () s' ∧ (isWrite = false →
      s'.conv.readRspQueue = [] ∨ s'.host.pendingReadReqQueue = []) := by
  cases isWrite with
  | true => exact ⟨{ s with conv := s.conv.drainWriteRsp }, rfl, fun hw => by cases hw⟩
  | false =>
    obtain ⟨s', hs', hend⟩ := returns_fillReads hclient h hcuts hlt (le_refl _)
    exact ⟨s', returns_get_bind.mpr hs', fun _ => hend⟩

/-! ## No byte is left over -/

/-- How many bytes the lines of some reads hold. -/
def lineBytes (rs : List IoReq) : Nat := (rs.map IoReq.numBytes).sum

theorem length_flatten_ownTags (h : SendsLines s) :
    64 * (s.readHandOvers.map ownTags).flatten.length =
      lineBytes (s.readHandOvers.map Prod.fst) := by
  have hline : ∀ p ∈ s.readHandOvers, p.1.numBytes = 64 * (ownTags p).length := by
    intro p hp
    rw [(h.inRange p hp).numBytes_eq, ownTags, List.length_range', (h.lines p hp).1,
      Nat.add_sub_cancel_left]
  unfold lineBytes
  rw [List.length_flatten, List.map_map, List.map_map, ← List.sum_map_mul_left]
  congr 1
  exact List.map_congr_left fun p hp => (hline p hp).symm

/-- The blocks of the stream are as long as the lines of the reads they answer. -/
theorem length_flatten_blocks {resps : List (IoReq × Bytes)} {blocks : List Bytes}
    (h : List.Forall₂ (fun resp block => block.length = resp.1.numBytes ∧
      resp.2 = resp.1.filled block) resps blocks) :
    blocks.flatten.length = lineBytes (resps.map Prod.fst) := by
  induction h with
  | nil => rfl
  | cons hhead _ ih =>
    rw [List.flatten_cons, List.length_append, ih, hhead.1]
    rfl

theorem lineBytes_append (rs rs' : List IoReq) :
    lineBytes (rs ++ rs') = lineBytes rs + lineBytes rs' := by
  unfold lineBytes
  rw [List.map_append, List.sum_append]

section Bytes

variable {ended : Nat} {responses : List (Nat × Bytes)}

/-- What was pushed is a line for each read transaction that was released. -/
theorem ReadPath.length_pushed_le (h : ReadPath ended responses s) :
    s.pushed.length ≤ lineBytes (s.readHandOvers.map Prod.fst) := by
  obtain ⟨released, hpushed, _, hwidth, htags⟩ := h.pushed_pieces
  have hle := htags.length_le
  rw [List.length_map] at hle
  rw [hpushed, length_flatMap_of_width hwidth, ← length_flatten_ownTags h.assembles.lines]
  omega

/-- When no read waits for bytes, no byte waits for a read. -/
theorem ReadPath.readRspQueue_eq_nil (h : ReadPath ended responses s)
    (hpending : s.host.pendingReadReqQueue = []) : s.conv.readRspQueue = [] := by
  have hle := h.length_pushed_le
  obtain ⟨blocks, part, queue, hqueue, hpushed, horder, hfilled, hpart⟩ :=
    h.assembles.streams.parts
  rw [hpending] at hqueue
  have hnone : queue = [] := hqueue.symm
  rw [hnone, List.map_nil, List.append_nil] at horder
  rw [horder, hpushed, List.length_append, List.length_append, length_flatten_blocks hfilled] at hle
  apply List.eq_nil_of_length_eq_zero
  omega

end Bytes

/-! ## The invariant -/

/-- The state between events over a DRAM whose bursts a line can be cut into. -/
structure Flows (ended : Nat) (responses : List (Nat × Bytes)) (s : Dramsys Ddr) : Prop where
  path : ReadPath ended responses s
  counts : Counts ended responses s
  cuts : CutsLines s.burst
  empty : s.conv.readRspQueue = []

/-- Sending does not touch the counters. -/
theorem sentFact_counts {ended : Nat} {responses : List (Nat × Bytes)}
    (haccepted : ∀ a ∈ responses, a.1 < ended) :
    SentFact fun s => ended ≤ s.socket.length ∧ Counts ended responses s where
  frame := by
    rintro s s' ⟨hended, hs⟩ hsocket _ _ hconv
    refine ⟨by rw [hsocket]; exact hended, ?_, hs.once, ?_⟩
    · rw [hconv.inflightReadCnt, hconv.readReqList]
      exact hs.inflight
    · rw [hconv.writeReqList, hsocket]
      exact hs.writes
  handOver := by
    rintro s r t ⟨hended, hs⟩ hover
    have hlt : ∀ a ∈ responses, a.1 < s.socket.length := fun a ha =>
      lt_of_lt_of_le (haccepted a ha) hended
    refine ⟨?_, ?_, hs.once, ?_⟩
    · rw [hover.socket, List.length_append]
      omega
    · rw [hover.conv]
      exact hs.inflight
    · rw [hover.conv, hover.socket, writeTags_append hended, writeAnswers_append hlt]
      exact hs.writes

/-- The length of a burst never changes. -/
theorem sentFact_burst (burst : UInt64) : SentFact fun s => s.burst = burst where
  frame := fun _ _ hs _ hburst _ _ => hburst.trans hs
  handOver := fun _ _ _ hs hover => hover.burst.trans hs

namespace Flows

variable {ended : Nat} {responses : List (Nat × Bytes)}

theorem start {burst : UInt64} (hcuts : CutsLines burst) : Flows 0 [] (World.start burst).sys where
  path := ReadPath.start burst
  counts := ⟨rfl, List.nodup_nil, rfl⟩
  cuts := hcuts
  empty := rfl

/-- A read that was released goes to `ddr`, which takes all its bytes. -/
theorem releaseReads (h : Flows ended responses s) (hclient : client.Sends IoReq.InRange)
    {fuel : Nat} (hfuel : s.conv.readReqList.length ≤ fuel) :
    ∃ s', Returns (Conv.releaseReads (callbacks client) fuel) s () s' ∧
      Flows ended responses s' ∧ Settled s' := by
  refine returns_releaseReads ?_ hfuel h
  intro s req reqs rsp h hlist hfind
  have hlen := (h.path.order.findRsp_eq_some hlist hfind).1
  have hpath := h.path.release hlist hfind
  have hcounts : Counts ended responses { s with
      conv := s.conv.releaseReq req reqs (rsp.2.take req.len.toNat)
      pushed := s.pushed ++ rsp.2.take req.len.toNat } := h.counts.releaseReq hlist
  have hqueue : (s.conv.releaseReq req reqs (rsp.2.take req.len.toNat)).readRspQueue.length <
      2 ^ 32 := by
    have hreq := req.len.toNat_lt
    change (s.conv.readRspQueue ++ _).length < _
    rw [h.empty, List.nil_append, List.length_take]
    omega
  obtain ⟨t, hcall, hend⟩ := returns_rspCallback hclient hpath.assembles h.cuts hqueue false
  have htpath : ReadPath ended responses t := hpath.rspCallback hclient false hcall
  refine ⟨le_of_eq hlen.symm, h.counts.lt_inflight, t, hcall, ⟨htpath, ?_, ?_, ?_⟩, ?_⟩
  · exact ((sentFact_counts hpath.order.accepted).rspCallback ⟨hpath.order.ended_le, hcounts⟩
      false hcall).2
  · rw [(sentFact_burst s.burst).rspCallback (s := { s with
      conv := s.conv.releaseReq req reqs (rsp.2.take req.len.toNat)
      pushed := s.pushed ++ rsp.2.take req.len.toNat }) rfl false hcall]
    exact h.cuts
  · exact (hend rfl).elim id htpath.readRspQueue_eq_nil
  · exact (onlySends_rspCallback false hcall).readReqList

/-- END_REQ is handled to its end while the reads in flight can be counted. -/
theorem endReq (h : Flows ended responses s) (hsettled : Settled s)
    (hclient : client.Sends IoReq.InRange) {p : Payload} (hp : s.socket[ended]? = some p)
    (hcount : p.command = .read → s.conv.readReqList.length + 1 < 2 ^ 31) :
    ∃ s', Returns (Conv.peqEndReq (callbacks client) p) s () s' ∧
      Flows (ended + 1) responses s' ∧ Settled s' := by
  have hlt : ended < s.socket.length := (List.getElem?_eq_some_iff.mp hp).1
  have hlist : s.conv.allReqList = p.toReq :: (s.socket.drop (ended + 1)).map Payload.toReq := by
    rw [h.path.order.requests, List.drop_eq_getElem_cons hlt, (List.getElem?_eq_some_iff.mp hp).2,
      List.map_cons]
  have hwrite : p.toReq.isWrite = true ↔ p.command = .write := decide_eq_true_iff
  generalize (s.socket.drop (ended + 1)).map Payload.toReq = rest at hlist
  have hqueue : (s.conv.acceptReq p.toReq rest).readRspQueue = s.conv.readRspQueue := by
    unfold Conv.acceptReq
    split <;> rfl
  have hpath : ReadPath (ended + 1) responses { s with conv := s.conv.acceptReq p.toReq rest } :=
    ⟨h.path.order.acceptReq hp hlist hwrite, ReadPath.assembles_of_conv h.path.assembles hqueue⟩
  have hcounts : Counts (ended + 1) responses { s with conv := s.conv.acceptReq p.toReq rest } :=
    h.counts.acceptReq hp hwrite
  obtain ⟨s', hcall⟩ := returns_reqCallback hclient (s := { s with
    conv := s.conv.acceptReq p.toReq rest }) h.path.assembles.lines.denied h.cuts
  have hserved := reqCallback_inv hcall
  have hroom : p.command = .read → s.conv.inflightReadCnt + 1 < 2 ^ 31 :=
    h.counts.inflight_lt_iff.mpr ∘ hcount
  refine ⟨s', returns_peqEndReq hlist hwrite hroom hcall, ⟨⟨hpath.order.onlySends hserved.onlySends,
    hpath.assembles.served hclient hserved⟩, ?_, ?_, ?_⟩, ?_⟩
  · exact ((sentFact_counts hpath.order.accepted).served
      (s := { s with conv := s.conv.acceptReq p.toReq rest }) ⟨hlt, hcounts⟩ hserved).2
  · rw [(sentFact_burst s.burst).served (s := { s with
      conv := s.conv.acceptReq p.toReq rest }) rfl hserved]
    exact h.cuts
  · rw [hserved.readRspQueue]
    exact hqueue.trans h.empty
  · intro req reqs hreads
    rw [hserved.onlySends.readReqList] at hreads
    rw [hserved.onlySends.outOrderRspList]
    exact h.path.order.settled_acceptReq hsettled p.toReq rest req reqs hreads

/-- BEGIN_RESP of a write is handled to its end. -/
theorem beginRespWrite (h : Flows ended responses s) (hsettled : Settled s) (client : Client)
    {i : Nat} {p : Payload} {data : Bytes}
    (hp : s.socket[i]? = some p) (hc : p.command = .write) (hi : i < ended)
    (hnew : i ∉ responses.map Prod.fst) (hdata : data.length = p.dataLength.toNat) :
    ∃ s', Returns (Conv.peqBeginResp (callbacks client) p data) s () s' ∧
      Flows ended (responses ++ [(i, data)]) s' ∧ Settled s' := by
  obtain ⟨req, rest, hlist⟩ :=
    h.path.order.exists_writeReq h.counts.once h.counts.writes hp hc hi hnew
  have hcall : Returns (rspCallback client true) { s with conv := s.conv.answerWrite rest } ()
      { s with conv := (s.conv.answerWrite rest).drainWriteRsp } := rfl
  have hcounts : Counts ended (responses ++ [(i, data)])
      { s with conv := s.conv.answerWrite rest } := h.counts.answerWrite hp hc hnew hlist
  refine ⟨_, returns_peqBeginResp_write hc hlist hcall, ⟨⟨?_, ?_⟩, ?_, h.cuts, h.empty⟩, hsettled⟩
  · exact h.path.order.answerWrite hp hc hi hdata rfl rfl rfl
  · exact ReadPath.assembles_of_conv h.path.assembles rfl
  · exact ⟨hcounts.inflight, hcounts.once, hcounts.writes⟩

/-- BEGIN_RESP of a read is handled to its end. -/
theorem beginRespRead (h : Flows ended responses s) (hclient : client.Sends IoReq.InRange)
    {i : Nat} {p : Payload} {data : Bytes}
    (hp : s.socket[i]? = some p) (hc : p.command = .read) (hi : i < ended)
    (hnew : i ∉ responses.map Prod.fst) (hdata : data.length = p.dataLength.toNat)
    (hbefore : ∀ j < i, ∀ q ∈ s.socket[j]?, q.command = .read → q.key = p.key →
      j ∈ responses.map Prod.fst) :
    ∃ s', Returns (Conv.peqBeginResp (callbacks client) p data) s () s' ∧
      Flows ended (responses ++ [(i, data)]) s' ∧ Settled s' := by
  obtain ⟨req, hfind, hlen⟩ := h.path.order.exists_findReq hp hc hi hnew
  have hread : i ∈ readTags s.socket s.socket.length := by
    rw [mem_readTags, isReadAt_eq hp, hc]
    exact ⟨(List.getElem?_eq_some_iff.mp hp).1, rfl⟩
  have hline : p.dataLength.toNat = 64 := by
    obtain ⟨r', j, hline⟩ := h.path.assembles.lines.line_of_tag hread
    rw [hp, Option.some.injEq] at hline
    rw [hline]
    rfl
  have hpark : Flows ended (responses ++ [(i, data)])
      { s with conv := s.conv.parkRsp req (data.take req.len.toNat) } :=
    ⟨⟨h.path.order.parkRsp hp hc hi hnew hdata hbefore hfind,
      ReadPath.assembles_of_conv h.path.assembles rfl⟩, h.counts.parkRsp hp hc hnew, h.cuts, h.empty⟩
  obtain ⟨s', hloop, hs'⟩ := hpark.releaseReads hclient (le_refl _)
  refine ⟨s', returns_peqBeginResp_read hc hfind ?_ hloop, hs'⟩
  rw [hlen, hline]
  decide

/-- BEGIN_RESP is handled to its end. -/
theorem beginResp {w : World} (h : Flows w.ended w.responses w.sys) (hsettled : Settled w.sys)
    (hclient : client.Sends IoReq.InRange) {i : Nat} {p : Payload} {data : Bytes}
    (hmay : MayAnswer w i p data) :
    ∃ s', Returns (Conv.peqBeginResp (callbacks client) p data) w.sys () s' ∧
      Flows w.ended (w.responses ++ [(i, data)]) s' ∧ Settled s' := by
  cases hc : p.command with
  | write =>
    exact h.beginRespWrite hsettled client hmay.sent hc hmay.accepted hmay.unanswered hmay.length
  | read =>
    refine h.beginRespRead hclient hmay.sent hc hmay.accepted hmay.unanswered hmay.length ?_
    intro j hj q hq hread hkey
    exact hmay.inOrder hc j hj q hq hread
      ⟨congrArg Prod.fst hkey, congrArg Prod.snd hkey⟩

theorem submit (h : Flows ended responses s) (hr : r.InRange) (hs : Submitted s r s') :
    Flows ended responses s' where
  path := h.path.submit hr hs
  counts := ((sentFact_counts h.path.order.accepted).submitted
    ⟨h.path.order.ended_le, h.counts⟩ hs).2
  cuts := by
    rw [hs.burst]
    exact h.cuts
  empty := by
    rw [hs.readRspQueue]
    exact h.empty

theorem step {w w' : World} (h : Flows w.ended w.responses w.sys) (hsettled : Settled w.sys)
    (hstep : Step IoReq.InRange w w') :
    Flows w'.ended w'.responses w'.sys ∧ Settled w'.sys := by
  cases hstep with
  | submit hr hs =>
    have hsubmit := submit_inv hs
    refine ⟨h.submit hr hsubmit, ?_⟩
    intro req reqs hreads
    rw [hsubmit.onlySends.readReqList] at hreads
    rw [hsubmit.onlySends.outOrderRspList]
    exact hsettled req reqs hreads
  | endReq hclient hp hs =>
    obtain ⟨s', hs', hflows⟩ := h.endReq hsettled hclient hp fun hc =>
      h.counts.inflight_lt_iff.mp (inflightReadCnt_of_peqEndReq hs hc)
    obtain rfl := (hs.unique hs').2
    exact hflows
  | beginResp hclient hmay hs =>
    obtain ⟨s', hs', hflows⟩ := h.beginResp hsettled hclient hmay
    obtain rfl := (hs.unique hs').2
    exact hflows

end Flows

/-! ## Every run -/

namespace World

/-- The reads that were accepted and not yet released. -/
def readsInFlight (w : World) : Nat := w.sys.conv.readReqList.length

/-- Whatever comes next is handled to its end: a request of the client, the next
END_REQ, and every response the DRAM may send, whatever the client does inside
the calls it receives.  The exception is an END_REQ that takes the number of reads
in flight to `2 ^ 31`, which the counter cannot hold. -/
structure Safe (w : World) : Prop where
  submit : ∀ r : IoReq, r.InRange → ∃ s, Returns (submit r) w.sys () s
  endReq : ∀ (client : Client) (p : Payload), client.Sends IoReq.InRange →
    w.sys.socket[w.ended]? = some p →
      ((∃ s, Returns (Conv.peqEndReq (callbacks client) p) w.sys () s) ↔
        (p.command = .read → w.readsInFlight + 1 < 2 ^ 31))
  beginResp : ∀ (client : Client) (t : Nat) (p : Payload) (data : Bytes),
    client.Sends IoReq.InRange → MayAnswer w t p data →
      ∃ s, Returns (Conv.peqBeginResp (callbacks client) p data) w.sys () s

theorem Reached.flows {w : World} (h : w.Reached IoReq.InRange) (hcuts : CutsLines w.sys.burst) :
    Flows w.ended w.responses w.sys ∧ Settled w.sys := by
  refine Reachable.invariant (I := fun w => CutsLines w.sys.burst →
    Flows w.ended w.responses w.sys ∧ Settled w.sys) ?_ ?_ h hcuts
  · rintro _ ⟨burst, rfl⟩ hcuts
    exact ⟨Flows.start hcuts, fun req reqs hlist => by cases hlist⟩
  · intro w w' _ hw hstep hcuts
    have hburst : w'.sys.burst = w.sys.burst :=
      (sentFact_burst w.sys.burst).step (fun _ _ _ hs => hs) rfl hstep
    rw [hburst] at hcuts
    exact (hw hcuts).1.step (hw hcuts).2 hstep

end World

/-- In every reachable state, over a DRAM whose bursts a line can be cut into, no
event ends in a fatal branch or in what C++ leaves undefined, but for the END_REQ
of one read too many. -/
theorem reached_safe {w : World} (h : w.Reached IoReq.InRange) (hcuts : CutsLines w.sys.burst) :
    w.Safe := by
  obtain ⟨hflows, hsettled⟩ := h.flows hcuts
  constructor
  · intro r hr
    exact returns_submit hr hcuts
  · intro client p hclient hp
    constructor
    · rintro ⟨s, hs⟩ hc
      exact hflows.counts.inflight_lt_iff.mp (inflightReadCnt_of_peqEndReq hs hc)
    · intro hcount
      obtain ⟨s, hs, _⟩ := hflows.endReq hsettled hclient hp hcount
      exact ⟨s, hs⟩
  · intro client t p data hclient hmay
    obtain ⟨s, hs, _⟩ := hflows.beginResp hsettled hclient hmay
    exact ⟨s, hs⟩

theorem byteWrite_inRange (id : Nat) (byte : UInt8) : (byteWrite id byte).InRange where
  base := (by decide : baseAddr ≤ 0x80000000)
  size_pos := (by decide : 1 ≤ (1 : UInt64).toNat)
  fits := (by decide : ((0x80000000 : UInt64) - baseAddr).toNat + (1 : UInt64).toNat ≤ 2 ^ 30)

/-- Two writes, the second of them denied and granted with the END_REQ of the first. -/
theorem grantedWorld_reached : grantedWorld.Reached IoReq.InRange := by
  have hclient : eagerClient.Sends IoReq.InRange := by
    intro log r hr
    unfold eagerClient at hr
    split at hr
    · rw [List.mem_singleton.mp hr]
      exact byteWrite_inRange _ 7
    · cases hr
  exact (((Reachable.start ⟨64, rfl⟩).next
    (step_submitted (byteWrite_inRange 0 5) (by decide +kernel))).next
      (step_submitted (byteWrite_inRange 1 6) (by decide +kernel))).next
        (step_requestEnded hclient (by decide +kernel))

theorem reached_safe_granted :
    grantedWorld.Safe ∧ grantedWorld.sys.host.deniedReqQueue = [byteWrite 2 7] :=
  ⟨reached_safe grantedWorld_reached (.inl (by decide +kernel)), by decide +kernel⟩

end SoftHier.Dram
