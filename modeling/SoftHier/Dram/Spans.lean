/-
  Dram/Spans.lean --- the transactions are those of the requests handed over.

  Whatever happens, a transaction is sent only by `paraSendRequest`, and the log
  says which requests that was called for.  So what went through the socket is
  the transactions of one request after the other, and the log entry of each
  tells where its own begin.
-/
import SoftHier.Dram.Exclusion

set_option autoImplicit false

namespace SoftHier.Dram

open SoftHier.Foundation Program Dramsys

variable {client : Client} {s s' t : Dramsys Ddr} {r : IoReq} {ok : IoReq → Prop}

/-- A request that was handed over, and the range of its transactions. -/
def LogEntry.span : LogEntry → Option (IoReq × Nat × Nat)
  | .handOver r first next => some (r, first, next)
  | _ => none

/-- The requests that were handed over, each with the range of its transactions. -/
def Dramsys.spans (s : Dramsys Ddr) : List (IoReq × Nat × Nat) :=
  s.host.log.filterMap LogEntry.span

/-! ## What only hand-overs change -/

/-- What `dramsys_conv` counts, apart from the requests that wait for END_REQ. -/
structure SameCounts (c c' : Conv) : Prop where
  readReqList : c'.readReqList = c.readReqList
  outOrderRspList : c'.outOrderRspList = c.outOrderRspList
  writeReqList : c'.writeReqList = c.writeReqList
  inflightReadCnt : c'.inflightReadCnt = c.inflightReadCnt

theorem SameCounts.refl (c : Conv) : SameCounts c c := ⟨rfl, rfl, rfl, rfl⟩

/-- A fact that every `paraSendRequest` keeps, and that depends on the socket,
the hand-overs and what `dramsys_conv` counts only. -/
structure SentFact (J : Dramsys Ddr → Prop) : Prop where
  frame : ∀ s s', J s → s'.socket = s.socket → s'.burst = s.burst → s'.spans = s.spans →
    SameCounts s.conv s'.conv → J s'
  handOver : ∀ s r t, J s → HandedOver s r t → J t

namespace SentFact

variable {J : Dramsys Ddr → Prop}

/-- Entries of the log that hand nothing over. -/
theorem logged (h : SentFact J) (hs : J s) {d : Ddr} {es : List LogEntry}
    (hlog : d.log = s.host.log ++ es) (hes : es.filterMap LogEntry.span = []) :
    J { s with host := d } := by
  refine h.frame s _ hs rfl rfl ?_ (SameCounts.refl _)
  unfold spans
  rw [hlog, List.filterMap_append, hes, List.append_nil]

theorem submitted (h : SentFact J) (hs : J s) (hsubmit : Submitted s r s') : J s' := by
  cases hsubmit with
  | accepted _ hover =>
    have hlogged : J (s.logged [.submit r]) := h.logged hs rfl rfl
    exact h.logged (h.handOver _ _ _ hlogged hover) rfl rfl
  | denied _ => exact h.logged hs rfl rfl

theorem served (h : SentFact J) (hs : J s) (hserved : Served client s s') : J s' := by
  cases hserved with
  | idle => exact hs
  | @served r rest rs rs' t _ _ hover _ _ =>
    refine h.logged (h.handOver _ _ _ hs hover) rfl ?_
    have hdenials : ∀ rs, (denialLog rs).filterMap LogEntry.span = [] := fun rs =>
      filterMap_denialLog_eq_nil rs fun _ => rfl
    cases hw : r.isWrite <;> simp [serveLog, hw, List.filterMap_cons, LogEntry.span, hdenials]

theorem rspCallback (h : SentFact J) (hs : J s) (isWrite : Bool)
    (hcall : Returns (rspCallback client isWrite) s () s') : J s' := by
  unfold Dram.rspCallback at hcall
  split at hcall
  · rw [← returns_modify.mp hcall]
    exact h.frame s _ hs rfl rfl rfl ⟨rfl, rfl, rfl, rfl⟩
  · rw [returns_get_bind] at hcall
    apply fillReads_induct (fun _ _ _ => trivial) (fun _ v => J v) _ _ _ hs hcall
    · intro v byte bytes p p' ps _ _ _ hv
      have htook : J (v.tookByte bytes p' ps) := h.frame v _ hv rfl rfl rfl ⟨rfl, rfl, rfl, rfl⟩
      split
      · exact h.logged htook rfl rfl
      · exact htook
    · intro p r v v' _ hv hsubmit
      exact h.submitted hv hsubmit
    · intro p v hv
      exact h.frame v _ hv rfl rfl rfl (SameCounts.refl _)

/-- It holds after every event, if what `dramsys_conv` counts does not matter. -/
theorem step {w w' : World} (h : SentFact J)
    (hconv : ∀ s c pushed, J s → J { s with conv := c, pushed := pushed }) (hw : J w.sys)
    (hstep : Step ok w w') : J w'.sys := by
  cases hstep with
  | submit _ hsubmit => exact h.submitted hw (submit_inv hsubmit)
  | endReq _ _ hs =>
    obtain ⟨req, rest, _, _, hcall⟩ := peqEndReq_inv hs
    have hserved := reqCallback_inv (show Returns (reqCallback _) _ () _ from hcall)
    have haccept : J { w.sys with conv := w.sys.conv.acceptReq req rest } :=
      hconv w.sys _ w.sys.pushed hw
    exact h.served haccept hserved
  | @beginResp client i p data s _ _ hs =>
    cases hc : p.command with
    | write =>
      obtain ⟨_, rest, _, hcall⟩ := peqBeginResp_write_inv hc hs
      have hanswer : J { w.sys with conv := w.sys.conv.answerWrite rest } :=
        hconv w.sys _ w.sys.pushed hw
      exact h.rspCallback hanswer true (show Returns (Dram.rspCallback client true) _ () _ from hcall)
    | read =>
      obtain ⟨req, _, hloop⟩ := peqBeginResp_read_inv hc hs
      have hpark : J { w.sys with conv := w.sys.conv.parkRsp req (data.take req.len.toNat) } :=
        hconv w.sys _ w.sys.pushed hw
      apply releaseReads_induct _ _ hpark hloop
      · intro v req reqs rsp _ _ _ hv
        exact hconv v _ _ hv
      · intro v v' hv hcall
        exact h.rspCallback hv false hcall

end SentFact

/-! ## The socket -/

/-- The transactions of some requests, one request after the other. -/
def allTransactions (burst : UInt64) (spans : List (IoReq × Nat × Nat)) : List Payload :=
  spans.flatMap fun h => h.1.transactions burst

/-- What went through the socket, request by request. -/
structure Tiled (s : Dramsys Ddr) : Prop where
  socket : s.socket = allTransactions s.burst s.spans
  sendable : ∀ h ∈ s.spans, h.1.Sendable s.burst
  /-- A request's transactions begin where those of the requests before it end. -/
  first : ∀ i h, s.spans[i]? = some h →
    h.2.1 = (allTransactions s.burst (s.spans.take i)).length

theorem HandedOver.spans (h : HandedOver s r t) :
    t.spans = s.spans ++ [(r, s.socket.length, t.socket.length)] := by
  unfold Dramsys.spans
  rw [h.host, List.filterMap_append]
  rfl

theorem sentFact_tiled : SentFact Tiled where
  frame := by
    intro s s' hs hsocket hburst hspans _
    constructor
    · rw [hsocket, hburst, hspans]
      exact hs.socket
    · rw [hburst, hspans]
      exact hs.sendable
    · rw [hburst, hspans]
      exact hs.first
  handOver := by
    intro s r t hs hover
    constructor
    · rw [hover.socket, hover.spans, hover.burst, hs.socket]
      simp [allTransactions]
    · rw [hover.spans, hover.burst]
      intro h hh
      rcases List.mem_append.mp hh with hh | hh
      · exact hs.sendable h hh
      · rw [List.mem_singleton.mp hh]
        exact hover.sendable
    · rw [hover.spans, hover.burst]
      intro i h hi
      rcases Nat.lt_or_ge i s.spans.length with hlt | hge
      · rw [List.getElem?_append_left hlt] at hi
        rw [List.take_append_of_le_length (le_of_lt hlt)]
        exact hs.first i h hi
      · have hend : i = s.spans.length := by
          have hlast := (List.getElem?_eq_some_iff.mp hi).1
          rw [List.length_append, List.length_singleton] at hlast
          omega
        rw [hend, List.getElem?_concat_length, Option.some.injEq] at hi
        rw [hend, List.take_left, ← hi, ← hs.socket]

theorem World.Reached.tiled {w : World} (h : w.Reached ok) : Tiled w.sys := by
  apply Reachable.invariant (I := fun w => Tiled w.sys) _ _ h
  · rintro w ⟨burst, rfl⟩
    refine ⟨rfl, fun _ hh => absurd hh List.not_mem_nil, fun i h hi => ?_⟩
    cases hi
  · intro w w' _ hw hstep
    exact sentFact_tiled.step (fun _ _ _ hs => ⟨hs.socket, hs.sendable, hs.first⟩) hw hstep

/-! ## The requests -/

/-- Whatever the client submitted has property `ok`. -/
def SubmitsOnly (ok : IoReq → Prop) (s : Dramsys Ddr) : Prop :=
  ∀ r ∈ s.host.log.filterMap LogEntry.submitted, ok r

namespace SubmitsOnly

theorem logged (h : SubmitsOnly ok s) {d : Ddr} {es : List LogEntry}
    (hlog : d.log = s.host.log ++ es) (hes : ∀ r ∈ es.filterMap LogEntry.submitted, ok r) :
    SubmitsOnly ok { s with host := d } := by
  intro r hr
  rw [hlog, List.filterMap_append, List.mem_append] at hr
  exact hr.elim (h r) (hes r)

theorem handOver (h : SubmitsOnly ok s) (hover : HandedOver s r t) : SubmitsOnly ok t := by
  intro q hq
  rw [hover.host, List.filterMap_append] at hq
  rcases List.mem_append.mp hq with hq | hq
  · exact h q hq
  · cases hq

theorem submitted (h : SubmitsOnly ok s) (hr : ok r) (hsubmit : Submitted s r s') :
    SubmitsOnly ok s' := by
  have hone : ∀ q ∈ [r], ok q := by
    intro q hq
    rw [List.mem_singleton.mp hq]
    exact hr
  cases hsubmit with
  | accepted _ hover =>
    have hlogged : SubmitsOnly ok (s.logged [.submit r]) := h.logged rfl hone
    exact (hlogged.handOver hover).logged rfl fun q hq => absurd hq List.not_mem_nil
  | denied _ => exact h.logged rfl (by rw [submitted_denialLog]; exact hone)

theorem served (hclient : client.Sends ok) (h : SubmitsOnly ok s)
    (hserved : Served client s s') : SubmitsOnly ok s' := by
  cases hserved with
  | idle => exact h
  | served _ _ hover hsends hread =>
    apply (h.handOver hover).logged rfl
    intro q hq
    rw [submitted_serveLog hread] at hq
    obtain ⟨log, hlog⟩ := hsends q hq
    exact hclient log q hlog

theorem rspCallback (hclient : client.Sends ok) (h : SubmitsOnly ok s) (isWrite : Bool)
    (hcall : Returns (rspCallback client isWrite) s () s') : SubmitsOnly ok s' := by
  unfold Dram.rspCallback at hcall
  split at hcall
  · rw [← returns_modify.mp hcall]
    exact h
  · rw [returns_get_bind] at hcall
    apply fillReads_induct hclient (fun _ v => SubmitsOnly ok v) _ _ _ h hcall
    · intro v byte bytes p p' ps _ _ _ hv
      have htook : SubmitsOnly ok (v.tookByte bytes p' ps) := hv
      split
      · exact htook.logged rfl fun q hq => absurd hq List.not_mem_nil
      · exact htook
    · intro p r v v' hr hv hsubmit
      exact hv.submitted hr hsubmit
    · intro p v hv
      exact hv

theorem step {w w' : World} (h : SubmitsOnly ok w.sys) (hstep : Step ok w w') :
    SubmitsOnly ok w'.sys := by
  cases hstep with
  | submit hr hsubmit => exact h.submitted hr (submit_inv hsubmit)
  | endReq hclient _ hs =>
    obtain ⟨req, rest, _, _, hcall⟩ := peqEndReq_inv hs
    have hserved := reqCallback_inv (show Returns (reqCallback _) _ () _ from hcall)
    have haccept : SubmitsOnly ok { w.sys with conv := w.sys.conv.acceptReq req rest } := h
    exact haccept.served hclient hserved
  | @beginResp client i p data s hclient _ hs =>
    cases hc : p.command with
    | write =>
      obtain ⟨_, rest, _, hcall⟩ := peqBeginResp_write_inv hc hs
      have hanswer : SubmitsOnly ok { w.sys with conv := w.sys.conv.answerWrite rest } := h
      exact hanswer.rspCallback hclient true hcall
    | read =>
      obtain ⟨req, _, hloop⟩ := peqBeginResp_read_inv hc hs
      have hpark : SubmitsOnly ok
          { w.sys with conv := w.sys.conv.parkRsp req (data.take req.len.toNat) } := h
      apply releaseReads_induct _ _ hpark hloop
      · intro v req reqs rsp _ _ _ hv
        exact hv
      · intro v v' hv hcall
        exact hv.rspCallback hclient false hcall

end SubmitsOnly

theorem World.Reached.submitsOnly {w : World} (h : w.Reached ok) : SubmitsOnly ok w.sys := by
  apply Reachable.invariant (I := fun w => SubmitsOnly ok w.sys) _ _ h
  · rintro w ⟨burst, rfl⟩ r hr
    cases hr
  · intro w w' _ hw hstep
    exact hw.step hstep

theorem handOvers_eq (s : Dramsys Ddr) : s.handOvers = s.spans.map Prod.fst := by
  unfold handOvers spans
  rw [List.map_filterMap]
  apply List.filterMap_congr
  intro e _
  cases e <;> rfl

/-- What was handed over was submitted before. -/
theorem World.Reached.handOvers_isPrefix {w : World} (h : w.Reached ok) :
    w.sys.spans.map Prod.fst <+: w.log.filterMap LogEntry.submitted := by
  rw [← handOvers_eq, World.log, h.orderly.ledger.inOrder]
  exact List.prefix_append _ _

theorem World.Reached.spans_ok {w : World} (h : w.Reached ok) : ∀ p ∈ w.sys.spans, ok p.1 := by
  intro p hp
  exact h.submitsOnly p.1 (h.handOvers_isPrefix.subset (List.mem_map_of_mem hp))

end SoftHier.Dram
