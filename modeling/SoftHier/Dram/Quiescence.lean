/-
  Dram/Quiescence.lean --- a silent client leaves nothing behind.

  When every transaction has got its END_REQ and its BEGIN_RESP, all queues are
  empty and every request was completed.  Once the client sends nothing more,
  each event of the DRAM does one unit of a known amount of work, so every run
  comes to that state after the same number of events, and none gets stuck
  before.
-/
import SoftHier.Dram.Progress

set_option autoImplicit false

namespace SoftHier.Dram

open SoftHier.Foundation Program Dramsys

variable {client : Client} {s s' : Dramsys Ddr}

namespace World

/-- Every transaction has got its END_REQ and its BEGIN_RESP. -/
def Quiescent (w : World) : Prop := w.ended = w.sys.socket.length ∧ ∀ t < w.ended, w.Answered t

/-- No queue of either component holds anything, and every request was completed
in the order the requests were sent in. -/
structure Complete (w : World) : Prop where
  allReqList : w.sys.conv.allReqList = []
  readReqList : w.sys.conv.readReqList = []
  outOrderRspList : w.sys.conv.outOrderRspList = []
  writeReqList : w.sys.conv.writeReqList = []
  readRspQueue : w.sys.conv.readRspQueue = []
  inflightReadCnt : w.sys.conv.inflightReadCnt = 0
  deniedReqQueue : w.sys.host.deniedReqQueue = []
  pendingReadReqQueue : w.sys.host.pendingReadReqQueue = []
  reads : w.sys.readResps.map Prod.fst =
    (w.log.filterMap LogEntry.submitted).filter fun r => !r.isWrite
  writes : w.log.filterMap LogEntry.completedWrite =
    (w.log.filterMap LogEntry.submitted).filter fun r => r.isWrite

end World

/-! ## Nothing is left of what was answered -/

section Answered

variable {ended : Nat} {responses : List (Nat × Bytes)}

/-- When all reads are answered, the loop that releases them leaves none. -/
theorem KeepsOrder.released_all (h : KeepsOrder ended responses s) (hsettled : Settled s)
    (hall : ∀ t < ended, t ∈ responses.map Prod.fst) :
    s.conv.readReqList = [] ∧ s.conv.outOrderRspList = [] ∧
      ∃ released : List (Nat × Bytes), released.map Prod.fst = readTags s.socket ended ∧
        (∀ p ∈ released, p ∈ responses) ∧ s.pushed = released.flatMap Prod.snd := by
  obtain ⟨released, pending, htags, hreorders, hpushed⟩ := h.reads
  have hpending : pending = [] := by
    cases pending with
    | nil => rfl
    | cons i pending =>
      exfalso
      have hwaiting := hreorders.waiting
      cases hlist : s.conv.readReqList with
      | nil =>
        rw [hlist] at hwaiting
        cases hwaiting
      | cons req reqs =>
        rw [hlist, List.map_cons, List.map_cons, List.cons.injEq] at hwaiting
        have hnone := find?_parked hwaiting.1.symm s.conv.outOrderRspList
        rw [hsettled req reqs hlist, Option.map_none] at hnone
        have hi : i ∈ readTags s.socket ended := by
          rw [← htags]
          exact List.mem_append_right _ List.mem_cons_self
        rw [mem_readTags] at hi
        obtain ⟨a, ha, hai⟩ := List.mem_map.mp (hall i hi.1)
        apply hreorders.unanswered hnone
        rw [← hai]
        refine List.mem_map_of_mem (List.mem_filter.mpr ⟨ha, ?_⟩)
        rw [hai]
        exact hi.2
  subst hpending
  rw [List.append_nil] at htags
  have hparked := hreorders.parked
  simp only [List.not_mem_nil, decide_false, List.filter_false, List.map_nil] at hparked
  exact ⟨List.map_eq_nil_iff.mp hreorders.waiting, List.map_eq_nil_iff.mp hparked, released, htags,
    fun p hp => List.mem_of_mem_filter (hreorders.released p hp), hpushed⟩

/-- When all writes are answered, none waits for its response. -/
theorem Counts.writeReqList_eq_nil (h : Counts ended responses s)
    (hall : ∀ t < ended, t ∈ responses.map Prod.fst) : s.conv.writeReqList = [] := by
  have hsub : writeTags s.socket ended ⊆ (writeAnswers s.socket responses).map Prod.fst := by
    intro t ht
    obtain ⟨hlt, hwrite⟩ := List.mem_filter.mp ht
    obtain ⟨a, ha, rfl⟩ := List.mem_map.mp (hall t (List.mem_range.mp hlt))
    exact List.mem_map_of_mem (List.mem_filter.mpr ⟨ha, hwrite⟩)
  have hnodup : (writeTags s.socket ended).Nodup := List.nodup_range.filter _
  have hle := (hnodup.subperm hsub).length_le
  have hwrites := h.writes
  rw [List.length_map] at hle
  apply List.eq_nil_of_length_eq_zero
  omega

theorem KeepsOrder.tags_subset (h : KeepsOrder ended responses s) :
    responses.map Prod.fst ⊆ List.range ended := by
  intro t ht
  obtain ⟨a, ha, rfl⟩ := List.mem_map.mp ht
  exact List.mem_range.mpr (h.accepted a ha)

theorem Flows.length_responses_le (h : Flows ended responses s) : responses.length ≤ ended := by
  have hle := (h.counts.once.subperm h.path.order.tags_subset).length_le
  rwa [List.length_map, List.length_range] at hle

/-- While a transaction waits for its answer, fewer than all are answered. -/
theorem Flows.length_responses_lt (h : Flows ended responses s) {t : Nat} (ht : t < ended)
    (hnew : t ∉ responses.map Prod.fst) : responses.length < ended := by
  have hsub : t :: responses.map Prod.fst ⊆ List.range ended :=
    List.cons_subset.mpr ⟨List.mem_range.mpr ht, h.path.order.tags_subset⟩
  have hle := ((List.nodup_cons.mpr ⟨hnew, h.counts.once⟩).subperm hsub).length_le
  rwa [List.length_cons, List.length_map, List.length_range] at hle

theorem Flows.answered_of_le (h : Flows ended responses s) (hle : ended ≤ responses.length) :
    ∀ t < ended, t ∈ responses.map Prod.fst := by
  intro t ht
  by_contra hnew
  have hlt := h.length_responses_lt ht hnew
  omega

/-- When every read has its bytes, none waits. -/
theorem Flows.pendingReadReqQueue_eq_nil (h : Flows ended responses s)
    (hended : ended = s.socket.length) {released : List (Nat × Bytes)}
    (htags : released.map Prod.fst = readTags s.socket ended)
    (hanswered : ∀ p ∈ released, p ∈ responses) (hpushed : s.pushed = released.flatMap Prod.snd) :
    s.host.pendingReadReqQueue = [] := by
  have hwidth : ∀ p ∈ released, p.2.length = 64 := by
    intro p hp
    have htag : p.1 ∈ readTags s.socket s.socket.length := by
      rw [← hended, ← htags]
      exact List.mem_map_of_mem hp
    obtain ⟨r, j, hline⟩ := h.path.assembles.lines.line_of_tag htag
    exact h.path.order.lengths p (hanswered p hp) _ hline
  have hbytes : s.pushed.length = lineBytes (s.readHandOvers.map Prod.fst) := by
    rw [hpushed, length_flatMap_of_width hwidth, ← length_flatten_ownTags h.path.assembles.lines,
      ← List.flatMap_def, ← h.path.assembles.lines.tags, ← hended, ← htags, List.length_map]
  obtain ⟨blocks, part, queue, hqueue, hstream, horder, hfilled, hpart⟩ :=
    h.path.assembles.streams.parts
  rw [hqueue]
  cases queue with
  | nil => rfl
  | cons p queue =>
    have hp : part.length < p.req.numBytes := hpart.2.1
    rw [horder, lineBytes_append, hstream, h.empty, List.append_nil, List.length_append,
      length_flatten_blocks hfilled, List.map_cons] at hbytes
    have hcons : lineBytes (p.req :: queue.map PendingRead.req) =
        p.req.numBytes + lineBytes (queue.map PendingRead.req) := List.sum_cons
    omega

end Answered

namespace World

variable {w w' : World}

/-- When the DRAM has answered everything, nothing is left. -/
theorem Reached.complete (h : w.Reached IoReq.InRange) (hcuts : CutsLines w.sys.burst)
    (hquiet : w.Quiescent) : w.Complete := by
  obtain ⟨hflows, hsettled⟩ := h.flows hcuts
  have horderly := h.orderly
  obtain ⟨hended, hall⟩ := hquiet
  have hsent : w.sys.conv.allReqList = [] := by
    rw [hflows.path.order.requests, hended, List.drop_length, List.map_nil]
  have hdenied := horderly.deniedReqQueue_eq_nil hsent
  obtain ⟨hreads, hparked, released, htags, hanswered, hpushed⟩ :=
    hflows.path.order.released_all hsettled hall
  have hpending := hflows.pendingReadReqQueue_eq_nil hended htags hanswered hpushed
  have hinOrder := horderly.ledger.inOrder
  rw [hdenied, List.append_nil] at hinOrder
  obtain ⟨_, _, queue, hqueue, _, hhanded, _, _⟩ := hflows.path.assembles.streams.parts
  rw [hpending] at hqueue
  have hnone : queue = [] := hqueue.symm
  rw [hnone, List.map_nil, List.append_nil] at hhanded
  refine ⟨hsent, hreads, hparked, hflows.counts.writeReqList_eq_nil hall, hflows.empty, ?_,
    hdenied, hpending, ?_, ?_⟩
  · rw [hflows.counts.inflight, hreads]
    rfl
  · rw [← hhanded, readHandOvers_eq, World.log, hinOrder]
  · rw [World.log, horderly.ledger.completions, hinOrder]

theorem Complete.quiescent (h : w.Reached IoReq.InRange) (hcuts : CutsLines w.sys.burst)
    (hcomplete : w.Complete) : w.Quiescent := by
  obtain ⟨hflows, _⟩ := h.flows hcuts
  have hrest : w.sys.socket.drop w.ended = [] := by
    have hrequests := hflows.path.order.requests
    rw [hcomplete.allReqList] at hrequests
    exact List.map_eq_nil_iff.mp hrequests.symm
  refine ⟨le_antisymm hflows.path.order.ended_le (List.drop_eq_nil_iff.mp hrest), ?_⟩
  intro t ht
  by_contra hnew
  obtain ⟨p, hp⟩ : ∃ p, w.sys.socket[t]? = some p :=
    ⟨_, List.getElem?_eq_getElem (lt_of_lt_of_le ht hflows.path.order.ended_le)⟩
  cases hc : p.command with
  | read =>
    obtain ⟨req, hfind, _⟩ := hflows.path.order.exists_findReq hp hc ht hnew
    rw [hcomplete.readReqList] at hfind
    cases hfind
  | write =>
    obtain ⟨req, rest, hlist⟩ :=
      hflows.path.order.exists_writeReq hflows.counts.once hflows.counts.writes hp hc ht hnew
    rw [hcomplete.writeReqList] at hlist
    cases hlist

/-! ## The work that is left -/

/-- How many events the DRAM still has to send: two for each transaction that has
got neither, the transactions of the queued requests included. -/
def work (w : World) : Nat :=
  2 * (w.sys.host.deniedReqQueue.map fun r => (r.transactions w.sys.burst).length).sum +
    2 * (w.sys.socket.length - w.ended) + (w.ended - w.responses.length)

end World

/-- No request passed, and none came to wait or ceased to. -/
structure SameRequests (s s' : Dramsys Ddr) : Prop where
  socket : s'.socket = s.socket
  burst : s'.burst = s.burst
  deniedReqQueue : s'.host.deniedReqQueue = s.host.deniedReqQueue

/-- The client sends nothing. -/
abbrev Silent : IoReq → Prop := fun _ => False

theorem SameRequests.rspCallback {v : Dramsys Ddr} (hclient : client.Sends Silent)
    (hv : SameRequests s v) (isWrite : Bool)
    (hcall : Returns (rspCallback client isWrite) v () s') : SameRequests s s' := by
  unfold Dram.rspCallback at hcall
  split at hcall
  · rw [← returns_modify.mp hcall]
    exact ⟨hv.socket, hv.burst, hv.deniedReqQueue⟩
  · rw [returns_get_bind] at hcall
    apply fillReads_induct hclient (fun _ v => SameRequests s v) _ _ _ hv hcall
    · intro u byte bytes p p' ps _ _ _ hu
      split
      · exact ⟨hu.socket, hu.burst, hu.deniedReqQueue⟩
      · exact ⟨hu.socket, hu.burst, hu.deniedReqQueue⟩
    · intro p r u u' hr _ _
      exact hr.elim
    · intro p u hu
      exact ⟨hu.socket, hu.burst, hu.deniedReqQueue⟩

/-- What END_REQ does to the requests when the client sends nothing. -/
theorem Served.work_eq (h : Served client s s') (hclient : client.Sends Silent) :
    (s'.host.deniedReqQueue.map fun r => (r.transactions s'.burst).length).sum + s'.socket.length =
      (s.host.deniedReqQueue.map fun r => (r.transactions s.burst).length).sum +
        s.socket.length := by
  cases h with
  | idle => rfl
  | @served r rest rs rs' t _ hqueue hover hsends _ =>
    have hnone : rs ++ rs' = [] := by
      rw [List.eq_nil_iff_forall_not_mem]
      intro q hq
      obtain ⟨log, hlog⟩ := hsends q hq
      exact hclient log q hlog
    change ((rest ++ (rs ++ rs')).map fun r => (r.transactions t.burst).length).sum +
      t.socket.length = _
    rw [hnone, List.append_nil, hqueue, hover.burst, hover.socket, List.map_cons, List.sum_cons,
      List.length_append]
    omega

namespace World

variable {w w' : World}

/-- Every event of the DRAM does one unit of work, and nothing else happens. -/
theorem work_step (hflows : Flows w.ended w.responses w.sys) (hstep : Step Silent w w') :
    w.work = w'.work + 1 := by
  have hended := hflows.path.order.ended_le
  have hanswered := hflows.length_responses_le
  unfold work
  cases hstep with
  | submit hr _ => exact hr.elim
  | endReq hclient hp hs =>
    obtain ⟨req, rest, _, _, hcall⟩ := peqEndReq_inv hs
    have hserved := reqCallback_inv (show Returns (reqCallback _) _ () _ from hcall)
    have heq := hserved.work_eq hclient
    have hlt := (List.getElem?_eq_some_iff.mp hp).1
    obtain ⟨ps, hsocket, _⟩ := hserved.onlySends.sent
    have hlen := congrArg List.length hsocket
    rw [List.length_append] at hlen
    simp only at heq hlen hlt ⊢
    omega
  | @beginResp client t p data s hclient hmay hs =>
    have hlt : w.responses.length < w.ended := hflows.length_responses_lt hmay.accepted hmay.unanswered
    have hsame : SameRequests w.sys s := by
      cases hc : p.command with
      | write =>
        obtain ⟨_, rest, _, hcall⟩ := peqBeginResp_write_inv hc hs
        have hanswer : SameRequests w.sys { w.sys with conv := w.sys.conv.answerWrite rest } :=
          ⟨rfl, rfl, rfl⟩
        exact hanswer.rspCallback hclient true hcall
      | read =>
        obtain ⟨req, _, hloop⟩ := peqBeginResp_read_inv hc hs
        have hpark : SameRequests w.sys
            { w.sys with conv := w.sys.conv.parkRsp req (data.take req.len.toNat) } :=
          ⟨rfl, rfl, rfl⟩
        apply releaseReads_induct _ _ hpark hloop
        · intro v req reqs rsp _ _ _ hv
          exact ⟨hv.socket, hv.burst, hv.deniedReqQueue⟩
        · intro v v' hv hcall
          exact hv.rspCallback hclient false hcall
    simp only [hsame.socket, hsame.burst, hsame.deniedReqQueue, List.length_append,
      List.length_singleton]
    omega

/-- The oldest transaction without an answer may be answered. -/
theorem exists_mayAnswer (h : KeepsOrder w.ended w.responses w.sys)
    (hlt : w.responses.length < w.ended) : ∃ t p data, MayAnswer w t p data := by
  have hex : ∃ t, t < w.ended ∧ ¬ w.Answered t := by
    by_contra hnone
    push Not at hnone
    have hsub : List.range w.ended ⊆ w.responses.map Prod.fst :=
      fun t ht => hnone t (List.mem_range.mp ht)
    have hle := (List.nodup_range.subperm hsub).length_le
    rw [List.length_range, List.length_map] at hle
    omega
  obtain ⟨hend, hnew⟩ := Nat.find_spec hex
  have hp := List.getElem?_eq_getElem (lt_of_lt_of_le hend h.ended_le)
  refine ⟨_, _, List.replicate _ 0, hp, hend, hnew, List.length_replicate, ?_⟩
  intro _ t' ht' _ _ _ _
  by_contra hnot
  exact Nat.find_min hex ht' ⟨lt_trans ht' hend, hnot⟩

/-- While there is work left, the DRAM may send an event. -/
theorem exists_step (hflows : Flows w.ended w.responses w.sys) (hsettled : Settled w.sys)
    (horderly : Orderly w.sys) (hwork : 0 < w.work) : ∃ w', Step Silent w w' := by
  have hidle : ∀ ok, idleClient.Sends ok := fun _ _ _ hr => absurd hr List.not_mem_nil
  -- answer what was accepted first: while nothing waits, the counter has room
  rcases Nat.lt_or_ge w.responses.length w.ended with hwaits | hall
  · obtain ⟨t, p, data, hmay⟩ := exists_mayAnswer hflows.path.order hwaits
    obtain ⟨s, hs, _⟩ := hflows.beginResp hsettled (hidle _) hmay
    exact ⟨_, .beginResp (hidle _) hmay hs⟩
  · have hreads := (hflows.path.order.released_all hsettled (hflows.answered_of_le hall)).1
    have hlt : w.ended < w.sys.socket.length := by
      by_contra hge
      have hsent : w.sys.conv.allReqList = [] := by
        rw [hflows.path.order.requests, List.drop_eq_nil_of_le (not_lt.mp hge), List.map_nil]
      have hdenied := horderly.deniedReqQueue_eq_nil hsent
      unfold work at hwork
      rw [hdenied, List.map_nil, List.sum_nil] at hwork
      omega
    have hp := List.getElem?_eq_getElem hlt
    obtain ⟨s, hs, _⟩ := hflows.endReq hsettled (hidle _) hp fun _ => by
      rw [hreads]
      decide
    exact ⟨_, .endReq (hidle _) hp hs⟩

/-- When no work is left, everything is answered. -/
theorem quiescent_of_work (hflows : Flows w.ended w.responses w.sys) (hwork : w.work = 0) :
    w.Quiescent := by
  have hended := hflows.path.order.ended_le
  unfold work at hwork
  exact ⟨by omega, hflows.answered_of_le (by omega)⟩

end World

/-- A step of a silent client is a step. -/
theorem Step.of_silent {ok : IoReq → Prop} {w w' : World} (h : Step Silent w w') : Step ok w w' := by
  have hsends : ∀ {client : Client}, client.Sends Silent → client.Sends ok :=
    fun hclient log r hr => (hclient log r hr).elim
  cases h with
  | submit hr _ => exact hr.elim
  | endReq hclient hp hs => exact .endReq (hsends hclient) hp hs
  | beginResp hclient hmay hs => exact .beginResp (hsends hclient) hmay hs

/-- Nothing is left of any request exactly when the DRAM has answered everything. -/
theorem complete_iff_quiescent {w : World} (h : w.Reached IoReq.InRange)
    (hcuts : CutsLines w.sys.burst) : w.Complete ↔ w.Quiescent :=
  ⟨fun hcomplete => hcomplete.quiescent h hcuts, fun hquiet => h.complete hcuts hquiet⟩

theorem complete_iff_quiescent_granted : ¬ grantedWorld.Complete := by
  rw [complete_iff_quiescent grantedWorld_reached (.inl (by decide +kernel))]
  intro hquiet
  exact absurd hquiet.1 (by decide +kernel)

/-- From any reachable state on, a run in which the client sends nothing can be
continued until it has `work` events, and then everything is complete. -/
theorem runs_drain {w w' : World} (h : w.Reached IoReq.InRange) (hcuts : CutsLines w.sys.burst)
    {n : Nat} (hsteps : Steps (Step Silent) n w w') :
    n ≤ w.work ∧ (n < w.work → ∃ w'', Step Silent w' w'') ∧ (n = w.work → w'.Complete) := by
  have hreached : w'.Reached IoReq.InRange := hsteps.reachable (fun _ _ hstep => hstep.of_silent) h
  have hone : ∀ v v' : World, v.Reached IoReq.InRange ∧ CutsLines v.sys.burst → Step Silent v v' →
      (v'.Reached IoReq.InRange ∧ CutsLines v'.sys.burst) ∧ v.work = v'.work + 1 := by
    rintro v v' ⟨hv, hcutsv⟩ hstep
    have hburst : v'.sys.burst = v.sys.burst :=
      (sentFact_burst v.sys.burst).step (fun _ _ _ hs => hs) rfl hstep
    exact ⟨⟨hv.next hstep.of_silent, by rw [hburst]; exact hcutsv⟩,
      World.work_step (hv.flows hcutsv).1 hstep⟩
  obtain ⟨⟨_, hcuts'⟩, hwork⟩ := hsteps.spent hone ⟨h, hcuts⟩
  obtain ⟨hflows, hsettled⟩ := hreached.flows hcuts'
  refine ⟨by omega, fun hlt => ?_, fun heq => ?_⟩
  · exact World.exists_step hflows hsettled hreached.orderly (by omega)
  · exact hreached.complete hcuts' (World.quiescent_of_work hflows (by omega))

/-- The DRAM takes the three writes and answers the second before the first. -/
def drainedWorld : World :=
  ((((grantedWorld.requestEnded idleClient).requestEnded idleClient).answered idleClient 1
    (List.replicate 64 0)).answered idleClient 0 (List.replicate 64 0)).answered idleClient 2
      (List.replicate 64 0)

theorem runs_drain_granted : grantedWorld.work = 5 ∧ drainedWorld.Complete := by
  have hidle : idleClient.Sends Silent := fun _ _ hr => absurd hr List.not_mem_nil
  have hwork : grantedWorld.work = 5 := by decide +kernel
  have hsteps : Steps (Step Silent) 5 grantedWorld drainedWorld :=
    (((((Steps.refl grantedWorld).next (step_requestEnded hidle (by decide +kernel))).next
      (step_requestEnded hidle (by decide +kernel))).next
        (step_answered hidle (by decide +kernel))).next
          (step_answered hidle (by decide +kernel))).next
            (step_answered hidle (by decide +kernel))
  exact ⟨hwork, (runs_drain grantedWorld_reached (.inl (by decide +kernel)) hsteps).2.2 hwork.symm⟩

end SoftHier.Dram
