/-
  Dram/Exclusion.lean --- how many transactions wait for their END_REQ.

  `dram_can_accept_req` is asked once for a request of the client, and a request
  is then sent as all its transactions.  So one event sends at most one request,
  and what waits for END_REQ afterwards are the transactions of that request:
  the bound of `max_pending_req` is kept as long as every request handed over is
  a single transaction, and is broken by the first that is not.
-/
import SoftHier.Dram.Ledger
import SoftHier.Dram.Lines

set_option autoImplicit false

namespace SoftHier.Dram

open SoftHier.Foundation Program Dramsys

variable {client : Client} {s s' t u : Dramsys Ddr} {ok : IoReq → Prop}

/-- The requests handed to `paraSendRequest` so far. -/
def Dramsys.handOvers (s : Dramsys Ddr) : List IoReq :=
  s.host.log.filterMap LogEntry.handedOver

/-- From `s` to `s'` at most one request was sent, and only if there was room. -/
inductive SendsOne (s s' : Dramsys Ddr) : Prop
  | none : s'.handOvers = s.handOvers → s'.socket = s.socket →
      s'.conv.allReqList = s.conv.allReqList → s'.burst = s.burst → SendsOne s s'
  | one {r : IoReq} : r.Sendable s.burst → s.conv.dramCanAcceptReq = true →
      s'.handOvers = s.handOvers ++ [r] → s'.socket = s.socket ++ r.transactions s.burst →
      s'.conv.allReqList = (r.transactions s.burst).map Payload.toReq → s'.burst = s.burst →
      SendsOne s s'

theorem allReqList_eq_nil {c : Conv} (h : c.dramCanAcceptReq = true) : c.allReqList = [] := by
  unfold Conv.dramCanAcceptReq maxPendingReq at h
  rw [decide_eq_true_iff] at h
  apply List.eq_nil_of_length_eq_zero
  omega

namespace SendsOne

theorem refl (s : Dramsys Ddr) : SendsOne s s := .none rfl rfl rfl rfl

/-- Nothing is accepted after a request was sent, so two steps send one at most. -/
theorem trans (h1 : SendsOne s t) (h2 : SendsOne t u) : SendsOne s u := by
  rcases h1 with ⟨hlog1, hsock1, hlist1, hburst1⟩ | ⟨hsend1, hcan1, hlog1, hsock1, hlist1, hburst1⟩
  · rcases h2 with ⟨hlog2, hsock2, hlist2, hburst2⟩ |
      ⟨hsend2, hcan2, hlog2, hsock2, hlist2, hburst2⟩
    · exact .none (hlog2.trans hlog1) (hsock2.trans hsock1) (hlist2.trans hlist1)
        (hburst2.trans hburst1)
    · rw [hburst1] at hsend2 hsock2 hlist2
      rw [hlog1] at hlog2
      rw [hsock1] at hsock2
      unfold Conv.dramCanAcceptReq at hcan2
      rw [hlist1] at hcan2
      exact .one hsend2 hcan2 hlog2 hsock2 hlist2 (hburst2.trans hburst1)
  · rcases h2 with ⟨hlog2, hsock2, hlist2, hburst2⟩ | ⟨_, hcan2, _, _, _, _⟩
    · exact .one hsend1 hcan1 (hlog2.trans hlog1) (hsock2.trans hsock1) (hlist2.trans hlist1)
        (hburst2.trans hburst1)
    · have hempty := allReqList_eq_nil hcan2
      rw [hlist1, List.map_eq_nil_iff] at hempty
      exact absurd hempty hsend1.transactions_ne_nil

/-- Only `all_req_list` counts among the members of `dramsys_conv`. -/
theorem of_conv (c : Conv) (pushed : Bytes) (h : c.allReqList = s.conv.allReqList) :
    SendsOne s { s with conv := c, pushed := pushed } := .none rfl rfl h rfl

end SendsOne

theorem HandedOver.sendsOne {r : IoReq} {es : List LogEntry} {d : Ddr} (h : HandedOver s r t)
    (hcan : s.conv.dramCanAcceptReq = true) (hd : d.log = t.host.log ++ es)
    (hes : es.filterMap LogEntry.handedOver = []) : SendsOne s { t with host := d } := by
  refine SendsOne.one h.sendable hcan ?_ h.socket ?_ h.burst
  · unfold handOvers
    rw [hd, List.filterMap_append, hes, List.append_nil, h.host, List.filterMap_append]
    rfl
  · rw [h.conv, allReqList_eq_nil hcan]
    rfl

theorem Submitted.sendsOne {r : IoReq} (h : Submitted s r s') : SendsOne s s' := by
  cases h with
  | accepted hcan hover =>
    have hlogged : SendsOne s (s.logged [.submit r]) := by
      refine SendsOne.none ?_ rfl rfl rfl
      simp [handOvers, logged, List.filterMap_cons, LogEntry.handedOver]
    exact hlogged.trans (hover.sendsOne hcan rfl rfl)
  | denied hfull =>
    refine SendsOne.none ?_ rfl rfl rfl
    simp [handOvers, Dramsys.denied]

theorem Served.sendsOne (h : Served client s s') : SendsOne s s' := by
  cases h with
  | idle => exact SendsOne.refl s
  | served hcan _ hover _ _ => exact hover.sendsOne hcan rfl handedOver_serveLog

theorem sendsOne_rspCallback (isWrite : Bool)
    (h : Returns (rspCallback client isWrite) s () s') : SendsOne s s' := by
  unfold rspCallback at h
  split at h
  · rw [← returns_modify.mp h]
    exact .none rfl rfl rfl rfl
  · rw [returns_get_bind] at h
    apply fillReads_induct (fun _ _ _ => trivial) (fun _ v => SendsOne s v) _ _ _
      (SendsOne.refl s) h
    · intro v byte bytes p p' ps _ _ _ hv
      split
      · apply hv.trans
        refine SendsOne.none ?_ rfl rfl rfl
        simp [handOvers, logged, tookByte, List.filterMap_cons, LogEntry.handedOver]
      · exact hv.trans (.none rfl rfl rfl rfl)
    · intro p r v v' _ hv hsubmit
      exact hv.trans hsubmit.sendsOne
    · intro p v hv
      exact hv.trans (.none rfl rfl rfl rfl)

/-! ## Steps -/

/-- The transactions sent with BEGIN_REQ and not yet answered by END_REQ. -/
def World.outstanding (w : World) : Nat := w.sys.socket.length - w.ended

/-- What one event does to the transactions that wait for END_REQ. -/
structure Outstands (w w' : World) : Prop where
  burst : w'.sys.burst = w.sys.burst
  balance : w.ended + w.sys.conv.allReqList.length = w.sys.socket.length →
    w'.ended + w'.sys.conv.allReqList.length = w'.sys.socket.length
  sends : w'.sys.handOvers = w.sys.handOvers ∧
      w'.sys.conv.allReqList.length ≤ w.sys.conv.allReqList.length ∨
    ∃ r : IoReq, r.Sendable w.sys.burst ∧ w'.sys.handOvers = w.sys.handOvers ++ [r] ∧
      w'.sys.conv.allReqList.length = (r.transactions w.sys.burst).length

/-- An event that first removes the oldest `ended` entries and then sends. -/
theorem SendsOne.outstands {w w' : World} (h : SendsOne s w'.sys) (ended : Nat)
    (hhost : s.host = w.sys.host) (hburst : s.burst = w.sys.burst)
    (hsocket : s.socket = w.sys.socket)
    (hlist : s.conv.allReqList.length + ended = w.sys.conv.allReqList.length)
    (hended : w'.ended = w.ended + ended) : Outstands w w' := by
  have hlog : s.handOvers = w.sys.handOvers := by rw [handOvers, hhost]; rfl
  rcases h with ⟨hlog', hsock', hlist', hburst'⟩ | ⟨hsend, hcan, hlog', hsock', hlist', hburst'⟩
  · refine ⟨hburst'.trans hburst, ?_, .inl ⟨hlog'.trans hlog, ?_⟩⟩
    · rw [hsock', hlist', hsocket, hended]
      omega
    · rw [hlist']
      omega
  · have hempty := allReqList_eq_nil hcan
    rw [hempty, List.length_nil] at hlist
    rw [hburst] at hsend hsock' hlist'
    refine ⟨hburst'.trans hburst, ?_, .inr ⟨_, hsend, hlog'.trans (by rw [hlog]), ?_⟩⟩
    · rw [hsock', hlist', hsocket, hended, List.length_append, List.length_map]
      omega
    · rw [hlist', List.length_map]

theorem Step.outstands {w w' : World} (h : Step ok w w') : Outstands w w' := by
  cases h with
  | submit _ h => exact (submit_inv h).sendsOne.outstands 0 rfl rfl rfl rfl rfl
  | endReq _ _ h =>
    obtain ⟨req, rest, hlist, _, hcall⟩ := peqEndReq_inv h
    have hserved := (reqCallback_inv (show Returns (reqCallback _) _ () _ from hcall)).sendsOne
    refine SendsOne.outstands hserved 1 rfl rfl rfl ?_ rfl
    rw [hlist]
    unfold Conv.acceptReq
    split <;> rfl
  | @beginResp client t p data s _ _ h =>
    cases hp : p.command with
    | write =>
      obtain ⟨_, rest, _, hcall⟩ := peqBeginResp_write_inv hp h
      have hresp := sendsOne_rspCallback true
        (show Returns (rspCallback client true) _ () _ from hcall)
      exact SendsOne.outstands hresp 0 rfl rfl rfl rfl rfl
    | read =>
      obtain ⟨req, _, hloop⟩ := peqBeginResp_read_inv hp h
      have hsends : SendsOne w.sys s := by
        have hpark := SendsOne.of_conv (s := w.sys)
          (w.sys.conv.parkRsp req (data.take req.len.toNat)) w.sys.pushed rfl
        apply releaseReads_induct (J := SendsOne w.sys) _ _ hpark hloop
        · intro v req reqs rsp _ _ _ hv
          exact hv.trans (SendsOne.of_conv _ _ rfl)
        · intro v v' hv hcall
          exact hv.trans (sendsOne_rspCallback false hcall)
      exact SendsOne.outstands hsends 0 rfl rfl rfl rfl rfl

/-! ## Runs -/

theorem World.Run.balanced {burst : UInt64} {states : List World} (h : World.Run ok burst states) :
    ∀ v ∈ states, v.sys.burst = burst ∧
      v.ended + v.sys.conv.allReqList.length = v.sys.socket.length := by
  intro v hv
  apply Reachable.invariant (I := fun v => v.sys.burst = burst ∧
    v.ended + v.sys.conv.allReqList.length = v.sys.socket.length) _ _ (h.reachable v hv)
  · rintro v rfl
    exact ⟨rfl, rfl⟩
  · intro v v' _ hinv hstep
    have hout := hstep.outstands
    exact ⟨hout.burst.trans hinv.1, hout.balance hinv.2⟩

theorem World.Run.bounded_iff {burst : UInt64} {w : World} {past : List World}
    (h : World.Run ok burst (w :: past)) :
    (∀ v ∈ w :: past, v.sys.conv.allReqList.length ≤ maxPendingReq) ↔
      ∀ r ∈ w.sys.handOvers, r.Single burst := by
  generalize hstates : w :: past = states at h
  induction h generalizing w past with
  | @start v hv =>
    cases hstates
    rw [hv]
    constructor
    · intro _ r hr
      cases hr
    · intro _ v hv
      rw [List.mem_singleton] at hv
      rw [hv]
      exact Nat.zero_le _
  | @next v v' past' hrun hstep ih =>
    cases hstates
    have hprev := ih rfl
    have hburst := (World.Run.balanced hrun v List.mem_cons_self).1
    have hhead : (∀ u ∈ v' :: v :: past', u.sys.conv.allReqList.length ≤ maxPendingReq) ↔
        v'.sys.conv.allReqList.length ≤ maxPendingReq ∧ ∀ r ∈ v.sys.handOvers, r.Single burst := by
      rw [← hprev, List.forall_mem_cons]
    rw [hhead]
    rcases hstep.outstands.sends with ⟨hlog, hle⟩ | ⟨r, hsend, hlog, hlen⟩
    · rw [hlog]
      constructor
      · exact fun hboth => hboth.2
      · intro hall
        have hv := hprev.mpr hall v List.mem_cons_self
        exact ⟨le_trans hle hv, hall⟩
    · rw [hburst] at hsend hlen
      rw [hlog, hlen, hsend.length_transactions_le_iff]
      constructor
      · rintro ⟨hr, hall⟩ q hq
        rcases List.mem_append.mp hq with hq | hq
        · exact hall q hq
        · rw [List.mem_singleton.mp hq]
          exact hr
      · intro hall
        refine ⟨hall r ?_, fun q hq => hall q (List.mem_append_left _ hq)⟩
        exact List.mem_append_right _ (List.mem_singleton.mpr rfl)

/-- In every run, no more than `max_pending_req` transactions wait for END_REQ
exactly as long as every request handed over is `Single`; in particular so if
all that the client submits are. -/
theorem run_exclusive {burst : UInt64} {w : World} {past : List World}
    (h : World.Run ok burst (w :: past)) :
    (∀ v ∈ w :: past, v.outstanding = v.sys.conv.allReqList.length) ∧
      ((∀ v ∈ w :: past, v.outstanding ≤ maxPendingReq) ↔
        ∀ r ∈ w.sys.handOvers, r.Single burst) ∧
      ((∀ r ∈ w.log.filterMap LogEntry.submitted, r.Single burst) →
        ∀ v ∈ w :: past, v.outstanding ≤ maxPendingReq) := by
  have hout : ∀ v ∈ w :: past, v.outstanding = v.sys.conv.allReqList.length := by
    intro v hv
    have hbalance := (h.balanced v hv).2
    unfold World.outstanding
    omega
  have hiff : (∀ v ∈ w :: past, v.outstanding ≤ maxPendingReq) ↔
      ∀ r ∈ w.sys.handOvers, r.Single burst := by
    rw [← h.bounded_iff]
    constructor
    · intro hall v hv
      rw [← hout v hv]
      exact hall v hv
    · intro hall v hv
      rw [hout v hv]
      exact hall v hv
  refine ⟨hout, hiff, fun hall => hiff.mpr fun r hr => hall r ?_⟩
  have hledger := (World.Run.reached h w List.mem_cons_self).orderly.ledger
  change r ∈ w.sys.host.log.filterMap LogEntry.submitted
  rw [hledger.inOrder]
  exact List.mem_append_left _ hr

/-- A read of one line. -/
def lineRead : IoReq := ⟨0, 0x80000000, 64, false, List.replicate 64 0, rfl⟩

theorem run_exclusive_lineRead :
    ((World.start 64).submitted lineRead).outstanding ≤ maxPendingReq := by
  have hrun : World.Run (fun r => 1 ≤ r.size) 64
      [(World.start 64).submitted lineRead, World.start 64] :=
    .next (.start rfl) (step_submitted (by decide) (by decide +kernel))
  exact (run_exclusive hrun).2.1.mpr (by decide +kernel) _ List.mem_cons_self

/-- Two transactions wait for END_REQ after that read was submitted. -/
theorem not_run_exclusive :
    ¬ ∀ (burst : UInt64) (states : List World), World.Run (fun r => 1 ≤ r.size) burst states →
      ∀ v ∈ states, v.outstanding ≤ maxPendingReq := by
  intro h
  have hrun : World.Run (fun r => 1 ≤ r.size) 64
      [(World.start 64).submitted straddlingRead, World.start 64] :=
    .next (.start rfl) (step_submitted (by decide) (by decide +kernel))
  have hle := h 64 _ hrun _ List.mem_cons_self
  exact absurd hle (by decide +kernel)

end SoftHier.Dram
