/-
  Dram/Ledger.lean --- order and completion of the client's requests.

  The log of a run accounts for every request: what was submitted is what was
  sent, in that order, followed by the queue of denied requests.  The invariant
  that carries this is spread over both components: while a request is queued,
  `dramsys_conv` accepts nothing.
-/
import SoftHier.Dram.Calls
import SoftHier.Dram.Phases
import SoftHier.Dram.World

set_option autoImplicit false

namespace SoftHier.Dram

open SoftHier.Foundation Program Dramsys

variable {client : Client} {s s' t : Dramsys Ddr} {r : IoReq} {ok : IoReq → Prop}

/-! ## Reading the log -/

namespace LogEntry

/-- The request the client submits. -/
def submitted : LogEntry → Option IoReq
  | .submit r => some r
  | _ => none

/-- A request and the answer its submission got. -/
def answered : LogEntry → Option (IoReq × IoReqStatus)
  | .status r st => some (r, st)
  | _ => none

/-- The request that was answered IO_REQ_DENIED. -/
def deniedRequest : LogEntry → Option IoReq
  | .status r st => if st = .denied then some r else none
  | _ => none

/-- The request handed to `paraSendRequest`. -/
def handedOver : LogEntry → Option IoReq
  | .handOver r _ _ => some r
  | _ => none

/-- The request `grant` is called for. -/
def granted : LogEntry → Option IoReq
  | .grant r => some r
  | _ => none

/-- The write that is completed: by IO_REQ_OK or by `resp`. -/
def completedWrite : LogEntry → Option IoReq
  | .status r st => if st = .ok then some r else none
  | .resp r _ => if r.isWrite then some r else none
  | _ => none

/-- The calls of `grant`, and of `resp` for writes. -/
def grantOrWriteResp : LogEntry → Option LogEntry
  | .grant r => some (.grant r)
  | .resp r data => if r.isWrite then some (.resp r data) else none
  | _ => none

end LogEntry

/-- The calls on the client that serving a queued request makes, its own
requests there left out. -/
def serveCalls (r : IoReq) : List LogEntry :=
  if r.isWrite then [.grant r, .resp r r.data] else [.grant r]

/-- The log accounts for every request, with `queue` the denied ones that wait. -/
structure Ledger (queue : List IoReq) (log : List LogEntry) : Prop where
  /-- Handed over once, in the order of arrival, and none lost. -/
  inOrder : log.filterMap LogEntry.submitted = log.filterMap LogEntry.handedOver ++ queue
  /-- Every submission got one answer. -/
  answeredOnce : (log.filterMap LogEntry.answered).map Prod.fst = log.filterMap LogEntry.submitted
  /-- A request that is not denied is a write that got IO_REQ_OK or a read that
  got IO_REQ_PENDING. -/
  answers : ∀ a ∈ log.filterMap LogEntry.answered, a.2 = IoReqStatus.denied ∨ a.2 = a.1.accepted
  /-- Of the denied requests, those that left the queue were granted, once. -/
  grants : log.filterMap LogEntry.deniedRequest = log.filterMap LogEntry.granted ++ queue
  /-- A granted write gets one `resp`, after its `grant`. -/
  grantThenResp : log.filterMap LogEntry.grantOrWriteResp =
    (log.filterMap LogEntry.granted).flatMap serveCalls
  /-- A write that was handed over was completed once. -/
  completions : log.filterMap LogEntry.completedWrite =
    (log.filterMap LogEntry.handedOver).filter fun r => r.isWrite

/-- The invariant between events: the ledger, the queue of reads, and that
nothing is accepted while a request is queued. -/
structure Orderly (s : Dramsys Ddr) : Prop where
  ledger : Ledger s.host.deniedReqQueue s.host.log
  reads : ∀ p ∈ s.host.pendingReadReqQueue, p.req.isWrite = false
  blocked : s.host.deniedReqQueue ≠ [] → s.conv.dramCanAcceptReq = false

/-- While nothing waits to be accepted, no request is queued. -/
theorem Orderly.deniedReqQueue_eq_nil {s : Dramsys Ddr} (h : Orderly s)
    (hsent : s.conv.allReqList = []) : s.host.deniedReqQueue = [] := by
  by_contra hne
  have hfull := h.blocked hne
  rw [Conv.dramCanAcceptReq, hsent] at hfull
  exact absurd hfull (by decide)

/-! ## The log of denied requests -/

section DenialLog

variable (rs : List IoReq)

/-- What is read off the log of denied requests, request by request. -/
theorem filterMap_denialLog {α : Type} {f : LogEntry → Option α} {g : IoReq → List α}
    (h : ∀ r, [LogEntry.submit r, .status r .denied].filterMap f = g r) :
    (denialLog rs).filterMap f = rs.flatMap g := by
  unfold denialLog
  rw [List.filterMap_flatMap]
  exact congrArg (rs.flatMap ·) (funext h)

/-- Neither the submission nor the answer shows. -/
theorem filterMap_denialLog_eq_nil {α : Type} {f : LogEntry → Option α}
    (h : ∀ r, [LogEntry.submit r, .status r .denied].filterMap f = []) :
    (denialLog rs).filterMap f = [] :=
  (filterMap_denialLog rs h).trans (List.flatMap_eq_nil_iff.mpr fun _ _ => rfl)

@[simp] theorem submitted_denialLog : (denialLog rs).filterMap LogEntry.submitted = rs :=
  (filterMap_denialLog rs fun _ => rfl).trans (List.flatMap_singleton' rs)

@[simp] theorem answered_denialLog :
    (denialLog rs).filterMap LogEntry.answered = rs.map fun r => (r, IoReqStatus.denied) :=
  (filterMap_denialLog rs fun _ => rfl).trans List.map_eq_flatMap.symm

@[simp] theorem deniedRequest_denialLog : (denialLog rs).filterMap LogEntry.deniedRequest = rs :=
  (filterMap_denialLog rs fun _ => rfl).trans (List.flatMap_singleton' rs)

@[simp] theorem handedOver_denialLog : (denialLog rs).filterMap LogEntry.handedOver = [] :=
  filterMap_denialLog_eq_nil rs fun _ => rfl

@[simp] theorem granted_denialLog : (denialLog rs).filterMap LogEntry.granted = [] :=
  filterMap_denialLog_eq_nil rs fun _ => rfl

@[simp] theorem completedWrite_denialLog :
    (denialLog rs).filterMap LogEntry.completedWrite = [] :=
  filterMap_denialLog_eq_nil rs fun _ => rfl

@[simp] theorem grantOrWriteResp_denialLog :
    (denialLog rs).filterMap LogEntry.grantOrWriteResp = [] :=
  filterMap_denialLog_eq_nil rs fun _ => rfl

end DenialLog

/-! ## The log of a request taken off the queue -/

section ServeLog

variable {rs rs' : List IoReq}

theorem submitted_serveLog (h : r.isWrite = false → rs' = []) :
    (serveLog r rs rs').filterMap LogEntry.submitted = rs ++ rs' := by
  cases hw : r.isWrite with
  | true => simp [serveLog, hw, List.filterMap_cons, LogEntry.submitted]
  | false => simp [serveLog, hw, List.filterMap_cons, LogEntry.submitted, h hw]

theorem answered_serveLog (h : r.isWrite = false → rs' = []) :
    (serveLog r rs rs').filterMap LogEntry.answered =
      (rs ++ rs').map fun r => (r, IoReqStatus.denied) := by
  cases hw : r.isWrite with
  | true => simp [serveLog, hw, List.filterMap_cons, LogEntry.answered]
  | false => simp [serveLog, hw, List.filterMap_cons, LogEntry.answered, h hw]

theorem deniedRequest_serveLog (h : r.isWrite = false → rs' = []) :
    (serveLog r rs rs').filterMap LogEntry.deniedRequest = rs ++ rs' := by
  cases hw : r.isWrite with
  | true => simp [serveLog, hw, List.filterMap_cons, LogEntry.deniedRequest]
  | false => simp [serveLog, hw, List.filterMap_cons, LogEntry.deniedRequest, h hw]

theorem handedOver_serveLog : (serveLog r rs rs').filterMap LogEntry.handedOver = [] := by
  cases hw : r.isWrite <;> simp [serveLog, hw, List.filterMap_cons, LogEntry.handedOver]

theorem granted_serveLog : (serveLog r rs rs').filterMap LogEntry.granted = [r] := by
  cases hw : r.isWrite <;> simp [serveLog, hw, List.filterMap_cons, LogEntry.granted]

theorem completedWrite_serveLog :
    (serveLog r rs rs').filterMap LogEntry.completedWrite = [r].filter fun r => r.isWrite := by
  cases hw : r.isWrite <;> simp [serveLog, hw, List.filterMap_cons, LogEntry.completedWrite]

theorem grantOrWriteResp_serveLog :
    (serveLog r rs rs').filterMap LogEntry.grantOrWriteResp = serveCalls r := by
  cases hw : r.isWrite <;>
    simp [serveLog, serveCalls, hw, LogEntry.grantOrWriteResp]

end ServeLog

/-! ## Every call keeps the ledger -/

namespace Ledger

variable {queue rs' : List IoReq} {log : List LogEntry}

/-- A request that is sent at once, while none is queued. -/
theorem accept (hlog : Ledger [] log) (r : IoReq) (first next : Nat) :
    Ledger [] (log ++ [.submit r, .handOver r first next, .status r r.accepted]) := by
  have hst : r.accepted ≠ IoReqStatus.denied := by
    unfold IoReq.accepted
    split <;> simp
  constructor
  · simp [List.filterMap_cons, LogEntry.submitted, LogEntry.handedOver, hlog.inOrder]
  · simp [List.filterMap_cons, LogEntry.submitted, LogEntry.answered, hlog.answeredOnce]
  · intro a ha
    have hnew : [LogEntry.submit r, .handOver r first next, .status r r.accepted].filterMap
        LogEntry.answered = [(r, r.accepted)] := rfl
    rw [List.filterMap_append, hnew, List.mem_append, List.mem_singleton] at ha
    rcases ha with ha | rfl
    · exact hlog.answers a ha
    · exact .inr rfl
  · simp [List.filterMap_cons, LogEntry.deniedRequest, LogEntry.granted, hlog.grants, hst]
  · simp [List.filterMap_cons, LogEntry.grantOrWriteResp, LogEntry.granted, hlog.grantThenResp]
  · cases hw : r.isWrite <;>
      simp [List.filterMap_cons, LogEntry.completedWrite, LogEntry.handedOver, IoReq.accepted,
        hlog.completions, hw]

/-- Requests that are queued. -/
theorem deny (hlog : Ledger queue log) (rs : List IoReq) :
    Ledger (queue ++ rs) (log ++ denialLog rs) := by
  constructor
  · simp [hlog.inOrder]
  · simp [hlog.answeredOnce, Function.comp_def]
  · intro a ha
    rw [List.filterMap_append, answered_denialLog, List.mem_append, List.mem_map] at ha
    rcases ha with ha | ⟨q, _, rfl⟩
    · exact hlog.answers a ha
    · exact .inl rfl
  · simp [hlog.grants]
  · simp [hlog.grantThenResp]
  · simp [hlog.completions]

/-- The request at the head of the queue is served; meanwhile others are queued. -/
theorem serve (hlog : Ledger (r :: queue) log) (rs : List IoReq)
    (hread : r.isWrite = false → rs' = []) (first next : Nat) :
    Ledger (queue ++ (rs ++ rs')) (log ++ .handOver r first next :: serveLog r rs rs') := by
  constructor
  · simp [List.filterMap_cons, LogEntry.submitted, LogEntry.handedOver, hlog.inOrder,
      submitted_serveLog hread, handedOver_serveLog]
  · simp [List.filterMap_cons, LogEntry.submitted, LogEntry.answered, hlog.answeredOnce,
      submitted_serveLog hread, answered_serveLog hread, Function.comp_def]
  · intro a ha
    have hnew : (LogEntry.handOver r first next :: serveLog r rs rs').filterMap LogEntry.answered =
        (rs ++ rs').map fun r => (r, IoReqStatus.denied) := answered_serveLog hread
    rw [List.filterMap_append, hnew, List.mem_append, List.mem_map] at ha
    rcases ha with ha | ⟨q, _, rfl⟩
    · exact hlog.answers a ha
    · exact .inl rfl
  · simp [List.filterMap_cons, LogEntry.deniedRequest, LogEntry.granted, hlog.grants,
      deniedRequest_serveLog hread, granted_serveLog]
  · simp [List.filterMap_cons, LogEntry.grantOrWriteResp, LogEntry.granted, hlog.grantThenResp,
      grantOrWriteResp_serveLog, granted_serveLog]
  · simp [List.filterMap_cons, LogEntry.completedWrite, LogEntry.handedOver, hlog.completions,
      completedWrite_serveLog, handedOver_serveLog, List.filter_cons]

/-- The response of a read does not show in the ledger. -/
theorem respRead (hlog : Ledger queue log) (hr : r.isWrite = false) (data : Bytes) :
    Ledger queue (log ++ [.resp r data]) := by
  have hskip : ∀ {α : Type} (f : LogEntry → Option α), f (.resp r data) = none →
      (log ++ [LogEntry.resp r data]).filterMap f = log.filterMap f := by
    intro α f hf
    rw [List.filterMap_append, List.filterMap_cons, hf, List.filterMap_nil, List.append_nil]
  have hcompleted : LogEntry.completedWrite (.resp r data) = none := if_neg (by rw [hr]; simp)
  have hresp : LogEntry.grantOrWriteResp (.resp r data) = none := if_neg (by rw [hr]; simp)
  constructor
  · rw [hskip _ rfl, hskip _ rfl]
    exact hlog.inOrder
  · rw [hskip _ rfl, hskip _ rfl]
    exact hlog.answeredOnce
  · rw [hskip _ rfl]
    exact hlog.answers
  · rw [hskip _ rfl, hskip _ rfl]
    exact hlog.grants
  · rw [hskip _ hresp, hskip _ rfl]
    exact hlog.grantThenResp
  · rw [hskip _ hcompleted, hskip _ rfl]
    exact hlog.completions

end Ledger

theorem isWrite_of_mem_pendingReads {p : PendingRead} (h : p ∈ r.pendingReads) :
    p.req.isWrite = false := by
  unfold IoReq.pendingReads at h
  split at h
  · cases h
  next hw =>
    rw [List.mem_singleton] at h
    rw [h]
    exact Bool.eq_false_iff.mpr hw

theorem HandedOver.reads (h : HandedOver s r t)
    (hreads : ∀ p ∈ s.host.pendingReadReqQueue, p.req.isWrite = false) :
    ∀ p ∈ t.host.pendingReadReqQueue, p.req.isWrite = false := by
  intro p hp
  rw [h.host] at hp
  rcases List.mem_append.mp hp with hp | hp
  · exact hreads p hp
  · exact isWrite_of_mem_pendingReads hp

theorem Orderly.submitted (hs : Orderly s) (h : Submitted s r s') : Orderly s' := by
  cases h with
  | @accepted t hcan hover =>
    have hempty : s.host.deniedReqQueue = [] := by
      by_contra hne
      rw [hs.blocked hne] at hcan
      cases hcan
    refine ⟨?_, hover.reads hs.reads, fun _ => hover.dramCanAcceptReq⟩
    have hledger := hs.ledger
    rw [hempty] at hledger
    have haccept := hledger.accept r s.socket.length t.socket.length
    simp only [logged, hover.host, hempty, List.append_assoc]
    exact haccept
  | denied hfull =>
    exact ⟨hs.ledger.deny [r], hs.reads, fun _ => hfull⟩

/-- `reqCallback` restores the invariant after an END_REQ made room. -/
theorem Orderly.served (hledger : Ledger s.host.deniedReqQueue s.host.log)
    (hreads : ∀ p ∈ s.host.pendingReadReqQueue, p.req.isWrite = false)
    (h : Served client s s') : Orderly s' := by
  cases h with
  | idle hidle =>
    exact ⟨hledger, hreads, fun hne => hidle.resolve_right hne⟩
  | @served r rest rs rs' t hcan hqueue hover _ hread =>
    refine ⟨?_, hover.reads hreads, fun _ => hover.dramCanAcceptReq⟩
    rw [hqueue] at hledger
    have hserve := hledger.serve rs hread s.socket.length t.socket.length
    simp only [hover.host, List.append_assoc]
    exact hserve

theorem takeByte_req {p p' : PendingRead} {byte : UInt8} (h : p.takeByte byte = some p') :
    p'.req = p.req := by
  unfold PendingRead.takeByte at h
  split at h
  · cases h
  · cases h
    rfl

theorem Orderly.rspCallback (hclient : client.Sends ok) (hs : Orderly s) (isWrite : Bool)
    (h : Returns (rspCallback client isWrite) s () s') : Orderly s' := by
  unfold Dram.rspCallback at h
  split at h
  · rw [← returns_modify.mp h]
    exact ⟨hs.ledger, hs.reads, hs.blocked⟩
  · rw [returns_get_bind] at h
    apply fillReads_induct hclient (fun _ s => Orderly s) _ _ _ hs h
    · intro s byte bytes p p' ps hbytes hpending htake hs
      have hp : p.req.isWrite = false := hs.reads p (by rw [hpending]; exact List.mem_cons_self)
      have hreads : ∀ q ∈ p' :: ps, q.req.isWrite = false := by
        intro q hq
        rcases List.mem_cons.mp hq with rfl | hq
        · rw [takeByte_req htake]
          exact hp
        · exact hs.reads q (by rw [hpending]; exact List.mem_cons_of_mem p hq)
      split
      · refine ⟨?_, hreads, hs.blocked⟩
        apply hs.ledger.respRead _ p'.data
        rw [takeByte_req htake]
        exact hp
      · exact ⟨hs.ledger, hreads, hs.blocked⟩
    · intro p r s s' _ hs hsubmit
      exact hs.submitted hsubmit
    · intro p s hs
      exact ⟨hs.ledger, fun q hq => hs.reads q (List.mem_of_mem_tail hq), hs.blocked⟩

/-! ## Every step keeps the ledger -/

theorem orderly_start (burst : UInt64) : Orderly (World.start burst).sys := by
  refine ⟨?_, ?_, ?_⟩
  · constructor <;> simp [World.start]
  · intro p hp
    cases hp
  · intro hne
    exact absurd rfl hne

theorem Step.orderly {w w' : World} (hw : Orderly w.sys) (h : Step ok w w') : Orderly w'.sys := by
  cases h with
  | submit _ h => exact hw.submitted (submit_inv h)
  | endReq _ _ h =>
    obtain ⟨req, rest, _, _, hcall⟩ := peqEndReq_inv h
    have hserved := reqCallback_inv (show Returns (reqCallback _) _ () _ from hcall)
    apply Orderly.served _ _ hserved
    · exact hw.ledger
    · exact hw.reads
  | @beginResp client t p data s hclient hmay h =>
    have hconv : ∀ {s : Dramsys Ddr} (c : Conv) (pushed : Bytes),
        c.allReqList = s.conv.allReqList → Orderly s →
        Orderly { s with conv := c, pushed := pushed } := by
      intro s c pushed hlist hs
      refine ⟨hs.ledger, hs.reads, fun hne => ?_⟩
      have := hs.blocked hne
      unfold Conv.dramCanAcceptReq at this ⊢
      rw [hlist]
      exact this
    cases hp : p.command with
    | write =>
      obtain ⟨_, rest, _, hcall⟩ := peqBeginResp_write_inv hp h
      have hs := hconv (w.sys.conv.answerWrite rest) w.sys.pushed rfl hw
      exact hs.rspCallback hclient true hcall
    | read =>
      obtain ⟨req, _, hloop⟩ := peqBeginResp_read_inv hp h
      have hpark := hconv (w.sys.conv.parkRsp req (data.take req.len.toNat)) w.sys.pushed rfl hw
      apply releaseReads_induct _ _ hpark hloop
      · intro s req reqs rsp _ _ _ hs
        exact hconv _ _ rfl hs
      · intro s s' hs hcall
        exact hs.rspCallback hclient false hcall

theorem World.Reached.orderly {w : World} (h : w.Reached ok) : Orderly w.sys := by
  apply Reachable.invariant _ _ h
  · rintro w ⟨burst, rfl⟩
    exact orderly_start burst
  · intro w w' _ hw hstep
    exact hstep.orderly hw

/-- In every reachable state: nothing is accepted while a request is queued,
and the log accounts for every request. -/
theorem reached_orderly {w : World} (h : w.Reached ok) :
    (w.sys.host.deniedReqQueue ≠ [] → w.sys.conv.dramCanAcceptReq = false) ∧
      Ledger w.sys.host.deniedReqQueue w.log :=
  ⟨h.orderly.blocked, h.orderly.ledger⟩

/-- A write of one byte. -/
def byteWrite (id : Nat) (byte : UInt8) : IoReq := ⟨id, 0x80000000, 1, true, [byte], rfl⟩

/-- A client that sends one more write when it is granted something. -/
def eagerClient : Client := fun log =>
  match log.getLast? with
  | some (.grant r) => [byteWrite (r.id + 1) 7]
  | _ => []

/-- Two writes, the second of them denied, and the END_REQ of the first. -/
def grantedWorld : World :=
  (((World.start 64).submitted (byteWrite 0 5)).submitted (byteWrite 1 6)).requestEnded eagerClient

theorem reached_orderly_granted :
    grantedWorld.sys.host.deniedReqQueue = [byteWrite 2 7] ∧
      (grantedWorld.sys.host.deniedReqQueue ≠ [] →
        grantedWorld.sys.conv.dramCanAcceptReq = false) ∧
      Ledger grantedWorld.sys.host.deniedReqQueue grantedWorld.log := by
  have hreached : grantedWorld.Reached fun _ => True :=
    (((Reachable.start ⟨64, rfl⟩).next (step_submitted trivial (by decide +kernel))).next
      (step_submitted trivial (by decide +kernel))).next
        (step_requestEnded (fun _ _ _ => trivial) (by decide +kernel))
  exact ⟨by decide +kernel, reached_orderly hreached⟩

end SoftHier.Dram
