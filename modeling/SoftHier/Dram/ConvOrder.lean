/-
  Dram/ConvOrder.lean --- `dramsys_conv` alone keeps the order of reads.

  In every run what was released is the longest prefix of the accepted reads
  that is answered, and whatever comes next is handled to its end unless it
  answers a read that an `int` cannot count.
-/
import SoftHier.Dram.ConvBuffers

set_option autoImplicit false

namespace SoftHier.Dram

open SoftHier.Foundation Program

variable {ok : SendCall → Prop} {s s' : Dramsys Unit}

/-! ## Every run -/

theorem ConvStep.buffers {w w' : ConvWorld} (h : Buffers ok w.ended w.responses w.sys)
    (hdrained : Drained w.sys) (hstep : ConvStep ok w w') :
    Buffers ok w'.ended w'.responses w'.sys ∧ Drained w'.sys := by
  cases hstep with
  | @send c s hok hrun =>
    have hsent := SendCall.sent_of_issue hrun
    have hps : FromCalls ok [c.payload] := by
      intro p hp
      exact ⟨c, hok, List.mem_singleton.mp hp⟩
    exact ⟨h.sends hsent hps, hdrained.sends hsent⟩
  | @endReq user p s huser hp hrun =>
    obtain ⟨s', hs', hbuffers, hdrained'⟩ := h.endReq hdrained huser hp fun hc =>
      h.counts.inflight_lt_iff.mp (inflightReadCnt_of_peqEndReq hrun hc)
    obtain rfl := (hrun.unique hs').2
    exact ⟨hbuffers, hdrained'⟩
  | @beginResp user t p data s huser hmay hrun =>
    have hlen : p.command = .read → p.dataLength.toNat < 2 ^ 31 := fun hc =>
      h.countable_of_returns hmay.sent hc hmay.accepted hmay.unanswered hrun
    obtain ⟨s', hs', hbuffers, hdrained'⟩ := h.beginResp hdrained huser hmay.sent hmay.accepted
      hmay.unanswered hmay.length hmay.inOrder hlen
    obtain rfl := (hrun.unique hs').2
    exact ⟨hbuffers, hdrained'⟩

/-! ## The queue of bytes -/

section Queue

variable {δ : Type} {taken : Bytes}

/-- What was pushed and not taken is in the queue. -/
def Holds (taken : Bytes) (s : Dramsys δ) : Prop := s.pushed = taken ++ s.conv.readRspQueue

theorem Holds.sent {ps : List Payload} (h : Holds taken s) (hs : Sent s ps s') :
    Holds taken s' := by
  unfold Holds
  rw [hs.pushed, hs.conv]
  exact h

theorem Holds.step {w w' : ConvWorld} (h : Holds taken w.sys)
    (hstep : ConvStep ok w w') : Holds taken w'.sys := by
  cases hstep with
  | send _ hrun => exact h.sent (SendCall.sent_of_issue hrun)
  | @endReq user p s huser hp hrun =>
    obtain ⟨req, rest, _, _, hcall⟩ := peqEndReq_inv hrun
    have haccept : Holds taken { w.sys with conv := w.sys.conv.acceptReq req rest } := by
      unfold Holds Conv.acceptReq
      split <;> exact h
    obtain ⟨s', ps, hs', hsent, _⟩ := huser.returns_updateRequest
      { w.sys with conv := w.sys.conv.acceptReq req rest }
    obtain rfl := (hcall.unique hs').2
    exact haccept.sent hsent
  | @beginResp user t p data s huser hmay hrun =>
    cases hc : p.command with
    | write =>
      obtain ⟨_, rest, _, hcall⟩ := peqBeginResp_write_inv hc hrun
      have hanswer : Holds taken { w.sys with conv := w.sys.conv.answerWrite rest } := h
      obtain ⟨s', ps, hs', hsent, _⟩ := huser.returns_response true
        { w.sys with conv := w.sys.conv.answerWrite rest }
      obtain rfl := (hcall.unique hs').2
      exact hanswer.sent hsent
    | read =>
      obtain ⟨req, _, hloop⟩ := peqBeginResp_read_inv hc hrun
      have hpark : Holds taken
          { w.sys with conv := w.sys.conv.parkRsp req (data.take req.len.toNat) } := h
      apply releaseReads_induct _ _ hpark hloop
      · intro v req reqs rsp _ _ _ hv
        change v.pushed ++ _ = taken ++ (v.conv.readRspQueue ++ _)
        rw [hv, List.append_assoc]
      · intro v v' hv hcall
        obtain ⟨s', ps, hs', hsent, _⟩ := huser.returns_response false v
        obtain rfl := (hcall.unique hs').2
        exact hv.sent hsent

end Queue

namespace ConvWorld

variable {w : ConvWorld}

theorem Reached.buffers (h : w.Reached ok) :
    Buffers ok w.ended w.responses w.sys ∧ Drained w.sys := by
  refine Reachable.invariant (I := fun w =>
    Buffers ok w.ended w.responses w.sys ∧ Drained w.sys) ?_ ?_ h
  · rintro _ rfl
    exact ⟨Buffers.start, fun req reqs hlist => by cases hlist⟩
  · intro w w' _ hw hstep
    exact hstep.buffers hw.1 hw.2

/-- Nothing is taken from the queue. -/
theorem Reached.holds (h : w.Reached ok) : Holds [] w.sys := by
  refine Reachable.invariant (I := fun w => Holds [] w.sys) ?_ ?_ h
  · rintro _ rfl
    rfl
  · intro w w' _ hw hstep
    exact hw.step hstep

/-! ## What was pushed -/

theorem find?_answer (h : (w.responses.map Prod.fst).Nodup) {a : Nat × Bytes}
    (ha : a ∈ w.responses) : w.responses.find? (fun b => b.1 = a.1) = some a := by
  generalize w.responses = l at h ha
  induction l with
  | nil => cases ha
  | cons b l ih =>
    rw [List.map_cons, List.nodup_cons] at h
    rcases List.mem_cons.mp ha with rfl | ha
    · rw [List.find?_cons_of_pos (by simp)]
    · have hne : b.1 ≠ a.1 := fun heq => h.1 (by
        rw [heq]
        exact List.mem_map_of_mem ha)
      rw [List.find?_cons_of_neg (by simpa using hne)]
      exact ih h.2 ha

/-- What came out of the buffer is the longest answered prefix. -/
theorem answeredReads_eq (hdrained : Drained w.sys)
    {released : List (Nat × Bytes)} {pending : List Nat}
    (htags : released.map Prod.fst ++ pending = w.acceptedReads)
    (hreorders : Reorders (keyAt w.sys.socket) released pending
      (readAnswers w.sys.socket w.responses) (w.sys.conv.readReqList.map fun r => some r.key)
      (w.sys.conv.outOrderRspList.map fun e => (some e.1.key, e.2))) :
    w.answeredReads = released.map Prod.fst := by
  have hreleased : ∀ t ∈ released.map Prod.fst, decide (w.Answered t) = true := by
    intro t ht
    obtain ⟨a, ha, rfl⟩ := List.mem_map.mp ht
    rw [decide_eq_true_iff]
    exact List.mem_map_of_mem (List.mem_filter.mp (hreorders.released a ha)).1
  have hpending : pending.takeWhile (fun t => decide (w.Answered t)) = [] := by
    cases pending with
    | nil => rfl
    | cons i pending =>
      rw [List.takeWhile_cons_of_neg]
      rw [decide_eq_true_iff]
      intro hanswered
      have hwaiting := hreorders.waiting
      rw [List.map_cons] at hwaiting
      obtain ⟨req, reqs, hlist, hkey, -⟩ := List.map_eq_cons_iff.mp hwaiting
      have hnone := hreorders.unanswered (by
        rw [find?_parked hkey.symm, hdrained req reqs hlist]
        rfl)
      have hread : isReadAt w.sys.socket i = true := by
        have hmem : i ∈ w.acceptedReads := by
          rw [← htags]
          exact List.mem_append_right _ List.mem_cons_self
        exact (mem_readTags.mp hmem).2
      obtain ⟨a, ha, heq⟩ := List.mem_map.mp hanswered
      refine hnone (List.mem_map.mpr ⟨a, List.mem_filter.mpr ⟨ha, ?_⟩, heq⟩)
      rw [heq]
      exact hread
  unfold answeredReads
  rw [← htags, List.takeWhile_append_of_pos hreleased, hpending, List.append_nil]

/-- The writes that wait are those accepted and not answered. -/
theorem length_writeReqList (h : Buffers ok w.ended w.responses w.sys) :
    w.sys.conv.writeReqList.length =
      (w.acceptedWrites.filter fun t => ! decide (w.Answered t)).length := by
  have hnodup : w.acceptedWrites.Nodup := List.nodup_range.filter _
  have honce : ((writeAnswers w.sys.socket w.responses).map Prod.fst).Nodup :=
    h.once.sublist (List.filter_sublist.map Prod.fst)
  have hperm : (w.acceptedWrites.filter fun t => decide (w.Answered t)).Perm
      ((writeAnswers w.sys.socket w.responses).map Prod.fst) := by
    refine (List.perm_ext_iff_of_nodup (hnodup.filter _) honce).mpr fun t => ?_
    constructor
    · intro ht
      obtain ⟨hwrite, hanswered⟩ := List.mem_filter.mp ht
      obtain ⟨a, ha, rfl⟩ := List.mem_map.mp (of_decide_eq_true hanswered)
      exact List.mem_map_of_mem (List.mem_filter.mpr ⟨ha, (List.mem_filter.mp hwrite).2⟩)
    · intro ht
      obtain ⟨a, ha, rfl⟩ := List.mem_map.mp ht
      obtain ⟨ha, hwrite⟩ := List.mem_filter.mp ha
      refine List.mem_filter.mpr ⟨List.mem_filter.mpr
        ⟨List.mem_range.mpr (h.order.accepted a ha), hwrite⟩, ?_⟩
      exact decide_eq_true (List.mem_map_of_mem ha)
  have hsplit := List.length_eq_length_filter_add (l := w.acceptedWrites)
    fun t => decide (w.Answered t)
  have hlength := hperm.length_eq
  have hwrites := h.writes
  rw [List.length_map] at hlength
  change _ + _ = w.acceptedWrites.length at hwrites
  omega

/-- The bytes that were pushed are those of the answered reads. -/
theorem pushed_eq (h : Buffers ok w.ended w.responses w.sys) (hdrained : Drained w.sys) :
    w.sys.pushed = w.answeredReads.flatMap w.responseData := by
  obtain ⟨released, pending, htags, hreorders, hpushed⟩ := h.order.reads
  rw [hpushed, answeredReads_eq hdrained htags hreorders, List.flatMap_map]
  apply List.flatMap_congr
  intro a ha
  unfold responseData
  rw [find?_answer h.once (List.mem_filter.mp (hreorders.released a ha)).1]
  rfl

/-- The reads that wait are those accepted behind the answered prefix. -/
theorem length_readReqList (h : Buffers ok w.ended w.responses w.sys) (hdrained : Drained w.sys) :
    w.sys.conv.readReqList.length = w.waitingReads.length := by
  obtain ⟨released, pending, htags, hreorders, -⟩ := h.order.reads
  have hwaiting := congrArg List.length hreorders.waiting
  rw [List.length_map, List.length_map] at hwaiting
  unfold waitingReads
  rw [answeredReads_eq hdrained htags hreorders, hwaiting]
  unfold acceptedReads
  rw [← htags, List.drop_left]

theorem inOrder_of_buffers (h : Buffers ok w.ended w.responses w.sys) (hdrained : Drained w.sys)
    (hholds : Holds [] w.sys) : w.InOrder where
  queue := hholds.symm.trans (pushed_eq h hdrained)
  inflight := h.inflight
  reads := length_readReqList h hdrained
  writes := length_writeReqList h

/-- Every read that the DRAM may answer next is shorter than 2^31 bytes. -/
def AnswersCountable (w : ConvWorld) : Prop :=
  ∀ t p data, w.MayAnswer t p data → p.command = .read → p.dataLength.toNat < 2 ^ 31

/-- The next transaction to be accepted is a write, or a read that an `int` can count
with the reads in flight. -/
def AcceptsCountable (w : ConvWorld) : Prop :=
  ∀ p, w.sys.socket[w.ended]? = some p → p.command = .read →
    w.waitingReads.length + 1 < 2 ^ 31

theorem Reached.answersCountable (h : w.Reached SendCall.Countable) : w.AnswersCountable :=
  fun _ _ _ hmay hc => h.buffers.1.countable hmay.sent hc

/-- Every user sends calls that nothing is asked of. -/
theorem sends_true (user : ConvUser) : user.Sends fun _ => True :=
  ⟨fun _ _ _ _ => trivial, fun _ _ _ => trivial⟩

theorem safe_of_buffers (h : Buffers ok w.ended w.responses w.sys) (hdrained : Drained w.sys)
    (hcount : w.AnswersCountable) (haccept : w.AcceptsCountable) : w.Safe where
  send := fun c => returns_issue c w.sys
  endReq := fun user p hp => by
    obtain ⟨s', hs', -⟩ := h.unrestricted.endReq hdrained (sends_true user) hp fun hc => by
      rw [length_readReqList h hdrained]
      exact haccept p hp hc
    exact ⟨s', hs'⟩
  beginResp := fun user t p data hmay => by
    obtain ⟨s', hs', -⟩ := h.unrestricted.beginResp hdrained (sends_true user) hmay.sent
      hmay.accepted hmay.unanswered hmay.length hmay.inOrder (hcount t p data hmay)
    exact ⟨s', hs'⟩

/-- A user that sends nothing from its callbacks. -/
def quiet : ConvUser := ⟨fun _ _ => [], fun _ => []⟩

theorem quiet_sends : quiet.Sends ok := ⟨nofun, nofun⟩

theorem Safe.answersCountable (h : w.Safe) (hw : Buffers ok w.ended w.responses w.sys) :
    w.AnswersCountable := by
  intro t p data hmay hc
  obtain ⟨s', hs'⟩ := h.beginResp quiet t p data hmay
  exact hw.countable_of_returns hmay.sent hc hmay.accepted hmay.unanswered hs'

theorem Safe.acceptsCountable (h : w.Safe) (hw : Buffers ok w.ended w.responses w.sys)
    (hdrained : Drained w.sys) : w.AcceptsCountable := by
  intro p hp hc
  obtain ⟨s', hs'⟩ := h.endReq quiet p hp
  rw [← length_readReqList hw hdrained]
  exact hw.counts.inflight_lt_iff.mp (inflightReadCnt_of_peqEndReq hs' hc)

/-! ## The order and the safety of every run -/

/-- The queue is always in order; whatever comes next is handled to its end unless it
answers a read of 2^31 bytes or more, or accepts the read that makes 2^31 in flight. -/
theorem reached_inOrder (h : w.Reached ok) :
    w.InOrder ∧ (w.Safe ↔ w.AnswersCountable ∧ w.AcceptsCountable) := by
  obtain ⟨hbuffers, hdrained⟩ := h.buffers
  refine ⟨inOrder_of_buffers hbuffers hdrained h.holds, fun hsafe => ?_, fun hcount => ?_⟩
  · exact ⟨hsafe.answersCountable hbuffers, hsafe.acceptsCountable hbuffers hdrained⟩
  · exact safe_of_buffers hbuffers hdrained hcount.1 hcount.2

/-- A call that reads. -/
def readCall (addr length : UInt64) (h : length.toNat < 2 ^ 32) : SendCall where
  addr := addr
  length := length
  isWrite := false
  strobEnable := false
  buf := []
  strbBuf := []
  length_lt := h
  le_buf := nofun
  le_strbBuf := nofun

/-- The world after a call. -/
def sent (w : ConvWorld) (c : SendCall) : ConvWorld :=
  { w with sys := finalState c.issue w.sys }

/-- The world after the END_REQ of a transaction. -/
def accepted (w : ConvWorld) (p : Payload) : ConvWorld :=
  { w with sys := finalState (Conv.peqEndReq quiet.callbacks p) w.sys, ended := w.ended + 1 }

/-- The world after the BEGIN_RESP of a transaction. -/
def responded (w : ConvWorld) (t : Nat) (p : Payload) (data : Bytes) : ConvWorld :=
  { w with
    sys := finalState (Conv.peqBeginResp quiet.callbacks p data) w.sys
    responses := w.responses ++ [(t, data)] }

theorem reached_start : start.Reached ok := Reachable.start rfl

theorem Reached.sent {c : SendCall} (h : w.Reached ok) (hc : ok c) : (w.sent c).Reached ok := by
  obtain ⟨s, hs⟩ := returns_issue c w.sys
  have hstep := ConvStep.send hc hs
  rw [← hs.finalState] at hstep
  exact h.next hstep

theorem Reached.accepted {p : Payload} (h : w.Reached ok) (hp : w.sys.socket[w.ended]? = some p)
    (hcount : w.sys.conv.readReqList.length + 1 < 2 ^ 31) : (w.accepted p).Reached ok := by
  obtain ⟨s, hs, -⟩ := h.buffers.1.endReq h.buffers.2 quiet_sends hp fun _ => hcount
  have hstep := ConvStep.endReq (quiet_sends : quiet.Sends ok) hp hs
  rw [← hs.finalState] at hstep
  exact h.next hstep

theorem Reached.responded {t : Nat} {p : Payload} {data : Bytes} (h : w.Reached ok)
    (hmay : w.MayAnswer t p data) (hlen : p.command = .read → p.dataLength.toNat < 2 ^ 31) :
    (w.responded t p data).Reached ok := by
  obtain ⟨s, hs, -⟩ := h.buffers.1.beginResp h.buffers.2 quiet_sends hmay.sent hmay.accepted
    hmay.unanswered hmay.length hmay.inOrder hlen
  have hstep := ConvStep.beginResp (quiet_sends : quiet.Sends ok) hmay hs
  rw [← hs.finalState] at hstep
  exact h.next hstep

/-- Two reads, the second of which is answered first. -/
def swapped : ConvWorld :=
  let a := readCall 0 4 (by decide)
  let b := readCall 64 4 (by decide)
  ((((start.sent a).sent b).accepted a.payload).accepted b.payload).responded 1 b.payload
    [5, 6, 7, 8]

theorem reached_inOrder_swapped :
    swapped.sys.conv.readRspQueue = [] ∧ swapped.sys.conv.outOrderRspList.length = 1 ∧
      swapped.Safe := by
  have hreached : swapped.Reached SendCall.Countable := by
    apply Reached.responded
    · exact (((reached_start.sent (fun _ => by decide)).sent (fun _ => by decide)).accepted
        (by decide +kernel) (by decide +kernel)).accepted (by decide +kernel) (by decide +kernel)
    · refine ⟨by decide +kernel, by decide +kernel, by decide +kernel, by decide +kernel, ?_⟩
      intro _ t ht p hp _ hkey
      obtain rfl : t = 0 := by omega
      obtain rfl := Option.some.inj hp
      exact absurd hkey (by decide +kernel)
    · decide +kernel
  have hall : swapped.sys.socket[swapped.ended]? = none := by decide +kernel
  refine ⟨by decide +kernel, by decide +kernel, (reached_inOrder hreached).2.mpr
    ⟨hreached.answersCountable, fun p hp _ => ?_⟩⟩
  rw [hall] at hp
  cases hp

/-- A read of 2^31 + 1 bytes that was accepted. -/
def longRead : ConvWorld :=
  let a := readCall 0 0x80000001 (by decide)
  (start.sent a).accepted a.payload

theorem not_reached_safe : ¬ ∀ w : ConvWorld, w.Reached (fun _ => True) → w.InOrder ∧ w.Safe := by
  intro hall
  have hreached : longRead.Reached fun _ => True :=
    (reached_start.sent trivial).accepted (by decide +kernel) (by decide +kernel)
  have hcount := (hall longRead hreached).2.answersCountable hreached.buffers.1
  have hmay : longRead.MayAnswer 0 (readCall 0 0x80000001 (by decide)).payload
      (List.replicate 0x80000001 0) := by
    refine ⟨by decide +kernel, by decide +kernel, by decide +kernel, List.length_replicate, ?_⟩
    intro _ t ht
    exact absurd ht (Nat.not_lt_zero t)
  exact absurd (hcount 0 _ _ hmay rfl) (by decide +kernel)

end ConvWorld

end SoftHier.Dram
