/-
  Dram/ConvBuffers.lean --- the lists of `dramsys_conv` are a reorder buffer.

  Whatever the user sends and whenever, one event keeps the lists those of a
  reorder buffer and the counters what they count.  After every event the oldest
  read that waits has no response among the parked ones.
-/
import SoftHier.Dram.ConvRuns
import Mathlib.Data.List.Perm.Subperm

set_option autoImplicit false

namespace SoftHier.Dram

open SoftHier.Foundation Program

variable {ok : SendCall → Prop} {ended : Nat} {responses : List (Nat × Bytes)}
  {s s' : Dramsys Unit} {ps : List Payload}

/-! ## The calls of the user -/

theorem returns_issue (c : SendCall) (s : Dramsys Unit) : ∃ s', Returns c.issue s () s' := by
  have h32 : c.length.toUInt32.toNat ≤ c.length.toNat := by
    rw [UInt64.toNat_toUInt32]
    exact Nat.mod_le _ _
  unfold SendCall.issue Conv.dramSendReq
  rw [if_neg, if_neg]
  · exact ⟨_, rfl⟩
  · rw [Bool.and_eq_true, decide_eq_true_iff]
    rintro ⟨hwrite, hshort⟩
    have := c.le_buf hwrite
    omega
  · rw [Bool.and_eq_true, decide_eq_true_iff]
    rintro ⟨hstrob, hshort⟩
    have := c.le_strbBuf hstrob
    omega

theorem SendCall.sent_of_issue {c : SendCall} {u : Unit} (h : Returns c.issue s u s') :
    Sent s [c.payload] s' := conv_dramSendReq_sent h

/-- The calls made in a callback are all sent. -/
theorem returns_issueAll (calls : List SendCall) (s : Dramsys Unit) :
    ∃ s', Returns (forEach SendCall.issue calls) s () s' ∧
      Sent s (calls.map SendCall.payload) s' := by
  induction calls generalizing s with
  | nil => exact ⟨s, returns_forEach_nil.mpr rfl, Sent.refl s⟩
  | cons c calls ih =>
    obtain ⟨t, ht⟩ := returns_issue c s
    obtain ⟨s', hs', hsent⟩ := ih t
    exact ⟨s', returns_forEach_cons.mpr ⟨t, ht, hs'⟩, (SendCall.sent_of_issue ht).trans hsent⟩

/-- The transactions are those of calls with property `ok`. -/
def FromCalls (ok : SendCall → Prop) (ps : List Payload) : Prop :=
  ∀ p ∈ ps, ∃ c, ok c ∧ p = c.payload

theorem fromCalls_map {calls : List SendCall} (h : ∀ c ∈ calls, ok c) :
    FromCalls ok (calls.map SendCall.payload) := by
  intro p hp
  obtain ⟨c, hc, rfl⟩ := List.mem_map.mp hp
  exact ⟨c, h c hc, rfl⟩

theorem ConvUser.Sends.returns_response {user : ConvUser} (h : user.Sends ok) (isWrite : Bool)
    (s : Dramsys Unit) :
    ∃ s' ps, Returns (user.callbacks.response isWrite) s () s' ∧ Sent s ps s' ∧
      FromCalls ok ps := by
  obtain ⟨s', hs', hsent⟩ := returns_issueAll (user.onResponse isWrite s) s
  exact ⟨s', _, hs', hsent, fromCalls_map (h.onResponse isWrite s)⟩

theorem ConvUser.Sends.returns_updateRequest {user : ConvUser} (h : user.Sends ok)
    (s : Dramsys Unit) :
    ∃ s' ps, Returns user.callbacks.updateRequest s () s' ∧ Sent s ps s' ∧ FromCalls ok ps := by
  obtain ⟨s', hs', hsent⟩ := returns_issueAll (user.onUpdateRequest s) s
  exact ⟨s', _, hs', hsent, fromCalls_map (h.onUpdateRequest s)⟩

theorem Sent.onlySends (h : Sent s ps s') : OnlySends s s' where
  sent := ⟨ps, h.socket, by rw [h.conv]⟩
  readReqList := by rw [h.conv]
  outOrderRspList := by rw [h.conv]
  pushed := h.pushed

/-! ## Writes by their place -/

/-- The writes among the first `n` transactions. -/
def writeTags (socket : List Payload) (n : Nat) : List Nat :=
  (List.range n).filter fun i => ! isReadAt socket i

/-- The responses that answer writes. -/
def writeAnswers (socket : List Payload) (responses : List (Nat × Bytes)) : List (Nat × Bytes) :=
  responses.filter fun a => ! isReadAt socket a.1

theorem writeTags_append {socket : List Payload} {n : Nat} (hn : n ≤ socket.length) :
    writeTags (socket ++ ps) n = writeTags socket n := by
  unfold writeTags
  apply List.filter_congr
  intro i hi
  rw [List.mem_range] at hi
  rw [isReadAt_append (by omega)]

theorem writeAnswers_append {socket : List Payload} (h : ∀ a ∈ responses, a.1 < socket.length) :
    writeAnswers (socket ++ ps) responses = writeAnswers socket responses := by
  unfold writeAnswers
  apply List.filter_congr
  intro a ha
  rw [isReadAt_append (h a ha)]

theorem length_writeTags_succ (socket : List Payload) (n : Nat) :
    (writeTags socket (n + 1)).length =
      (writeTags socket n).length + if isReadAt socket n then 0 else 1 := by
  unfold writeTags
  rw [List.range_succ, List.filter_append, List.length_append]
  cases hn : isReadAt socket n <;> simp [hn]

theorem length_writeAnswers_append (socket : List Payload) (responses : List (Nat × Bytes))
    (i : Nat) (data : Bytes) :
    (writeAnswers socket (responses ++ [(i, data)])).length =
      (writeAnswers socket responses).length + if isReadAt socket i then 0 else 1 := by
  unfold writeAnswers
  rw [List.filter_append, List.length_append]
  cases hi : isReadAt socket i <;> simp [hi]

theorem isReadAt_eq {socket : List Payload} {i : Nat} {p : Payload} (hp : socket[i]? = some p) :
    isReadAt socket i = decide (p.command = .read) := by
  unfold isReadAt
  rw [hp]
  rfl

theorem nodup_answer (h : (responses.map Prod.fst).Nodup) {i : Nat}
    (hnew : i ∉ responses.map Prod.fst) (data : Bytes) :
    ((responses ++ [(i, data)]).map Prod.fst).Nodup := by
  rw [List.map_append, List.nodup_append]
  refine ⟨h, by simp, fun a ha b hb heq => hnew ?_⟩
  have hb : b = i := List.mem_singleton.mp hb
  rw [← hb, ← heq]
  exact ha

/-! ## Nothing is missing -/

namespace KeepsOrder

variable {δ : Type} {s : Dramsys δ}

/-- A read that may be answered is found in `read_req_list`. -/
theorem exists_findReq (h : KeepsOrder ended responses s) {i : Nat} {p : Payload}
    (hp : s.socket[i]? = some p) (hc : p.command = .read) (hi : i < ended)
    (hnew : i ∉ responses.map Prod.fst) :
    ∃ req, Conv.findReq s.conv.readReqList p = some req ∧ req.len = p.dataLength := by
  obtain ⟨released, pending, htags, hreorders, -⟩ := h.reads
  have hread : isReadAt s.socket i = true := by
    rw [isReadAt_eq hp, hc]
    rfl
  have hpending : i ∈ pending := by
    apply hreorders.mem_pending
    · rw [htags, mem_readTags]
      exact ⟨hi, hread⟩
    · exact fun hin => hnew (List.map_subset _ List.filter_sublist.subset hin)
  have hmem : keyAt s.socket i ∈ s.conv.readReqList.map fun r => some r.key := by
    rw [hreorders.waiting]
    exact List.mem_map_of_mem hpending
  obtain ⟨r, hr, hkey⟩ := List.mem_map.mp hmem
  have hkey : r.key = p.key := by
    unfold keyAt at hkey
    rw [hp] at hkey
    exact Option.some.inj hkey
  have hsome : (Conv.findReq s.conv.readReqList p).isSome = true := by
    unfold Conv.findReq
    rw [List.find?_isSome]
    refine ⟨r, hr, ?_⟩
    unfold Req.key Payload.key at hkey
    rw [Prod.mk.injEq] at hkey
    simp [hkey.1, hkey.2]
  obtain ⟨req, hreq⟩ := Option.isSome_iff_exists.mp hsome
  refine ⟨req, hreq, ?_⟩
  have hfound := List.find?_some hreq
  simp only [Bool.and_eq_true, beq_iff_eq] at hfound
  exact hfound.2

/-- While a write waits for its answer, `write_req_list` is not empty. -/
theorem exists_writeReq (h : KeepsOrder ended responses s) (honce : (responses.map Prod.fst).Nodup)
    (hwrites : s.conv.writeReqList.length + (writeAnswers s.socket responses).length =
      (writeTags s.socket ended).length) {i : Nat} {p : Payload}
    (hp : s.socket[i]? = some p) (hc : p.command = .write) (hi : i < ended)
    (hnew : i ∉ responses.map Prod.fst) : ∃ req rest, s.conv.writeReqList = req :: rest := by
  have hwrite : isReadAt s.socket i = false := by
    rw [isReadAt_eq hp, hc]
    rfl
  have hanswers : ∀ t ∈ (writeAnswers s.socket responses).map Prod.fst,
      t ∈ writeTags s.socket ended ∧ t ≠ i := by
    intro t ht
    obtain ⟨a, ha, rfl⟩ := List.mem_map.mp ht
    obtain ⟨ha, hnot⟩ := List.mem_filter.mp ha
    refine ⟨List.mem_filter.mpr ⟨List.mem_range.mpr (h.accepted a ha), hnot⟩, fun heq => ?_⟩
    rw [← heq] at hnew
    exact hnew (List.mem_map_of_mem ha)
  have hnodup : (i :: (writeAnswers s.socket responses).map Prod.fst).Nodup := by
    rw [List.nodup_cons]
    refine ⟨fun hmem => (hanswers i hmem).2 rfl, ?_⟩
    exact honce.sublist (List.filter_sublist.map Prod.fst)
  have hsubset :
      i :: (writeAnswers s.socket responses).map Prod.fst ⊆ writeTags s.socket ended := by
    intro t ht
    rcases List.mem_cons.mp ht with rfl | ht
    · exact List.mem_filter.mpr ⟨List.mem_range.mpr hi, by rw [hwrite]; rfl⟩
    · exact (hanswers t ht).1
  have hle := (List.subperm_of_subset hnodup hsubset).length_le
  rw [List.length_cons, List.length_map] at hle
  cases hlist : s.conv.writeReqList with
  | nil =>
    rw [hlist, List.length_nil] at hwrites
    omega
  | cons req rest => exact ⟨req, rest, rfl⟩

end KeepsOrder

/-! ## The counters -/

/-- The reads in flight and the writes that wait, counted; no transaction is
answered twice. -/
structure Counts {δ : Type} (ended : Nat) (responses : List (Nat × Bytes)) (s : Dramsys δ) :
    Prop where
  inflight : s.conv.inflightReadCnt = s.conv.readReqList.length
  once : (responses.map Prod.fst).Nodup
  writes : s.conv.writeReqList.length + (writeAnswers s.socket responses).length =
    (writeTags s.socket ended).length

namespace Counts

variable {δ : Type} {s : Dramsys δ}

/-- The counter has room for one more exactly when there are fewer reads. -/
theorem inflight_lt_iff (h : Counts ended responses s) :
    s.conv.inflightReadCnt + 1 < 2 ^ 31 ↔ s.conv.readReqList.length + 1 < 2 ^ 31 := by
  rw [h.inflight]
  omega

theorem lt_inflight (h : Counts ended responses s) : -2 ^ 31 < s.conv.inflightReadCnt := by
  rw [h.inflight]
  omega

theorem acceptReq (h : Counts ended responses s) {p : Payload} {req : Req} {rest : List Req}
    (hp : s.socket[ended]? = some p) (hwrite : req.isWrite = true ↔ p.command = .write) :
    Counts (ended + 1) responses { s with conv := s.conv.acceptReq req rest } := by
  have hread := isReadAt_eq hp
  refine ⟨?_, h.once, ?_⟩
  · unfold Conv.acceptReq
    split
    · exact h.inflight
    · change s.conv.inflightReadCnt + 1 = ((s.conv.readReqList ++ [req]).length : Nat)
      rw [h.inflight, List.length_append]
      rfl
  · change _ + (writeAnswers s.socket responses).length = (writeTags s.socket (ended + 1)).length
    have hwrites := h.writes
    rw [length_writeTags_succ, hread]
    unfold Conv.acceptReq
    cases hc : p.command with
    | read =>
      have hnot : ¬ req.isWrite = true := by
        rw [hwrite, hc]
        exact nofun
      rw [if_neg hnot]
      simp only [decide_true, if_true]
      exact hwrites
    | write =>
      rw [if_pos (hwrite.mpr hc)]
      simp only [List.length_append, List.length_singleton]
      have : decide (Command.write = Command.read) = false := by decide
      rw [this, if_neg Bool.false_ne_true]
      omega

theorem answerWrite (h : Counts ended responses s) {i : Nat} {p : Payload} {data : Bytes}
    {req : Req} {rest : List Req} (hp : s.socket[i]? = some p) (hc : p.command = .write)
    (hnew : i ∉ responses.map Prod.fst) (hlist : s.conv.writeReqList = req :: rest) :
    Counts ended (responses ++ [(i, data)]) { s with conv := s.conv.answerWrite rest } where
  inflight := h.inflight
  once := nodup_answer h.once hnew data
  writes := by
    have hwrites := h.writes
    have hnot : decide (Command.write = Command.read) = false := by decide
    rw [hlist, List.length_cons] at hwrites
    change rest.length + (writeAnswers s.socket (responses ++ [(i, data)])).length = _
    rw [length_writeAnswers_append, isReadAt_eq hp, hc, hnot, if_neg Bool.false_ne_true]
    change _ = (writeTags s.socket ended).length
    omega

theorem parkRsp (h : Counts ended responses s) {i : Nat} {p : Payload} {data rsp : Bytes}
    {req : Req} (hp : s.socket[i]? = some p) (hc : p.command = .read)
    (hnew : i ∉ responses.map Prod.fst) :
    Counts ended (responses ++ [(i, data)]) { s with conv := s.conv.parkRsp req rsp } where
  inflight := h.inflight
  once := nodup_answer h.once hnew data
  writes := by
    have hwrites := h.writes
    change _ + (writeAnswers s.socket (responses ++ [(i, data)])).length = _
    rw [length_writeAnswers_append, isReadAt_eq hp, hc, decide_eq_true rfl, if_pos rfl]
    exact hwrites

theorem releaseReq (h : Counts ended responses s) {req : Req} {reqs : List Req} {data : Bytes}
    (hlist : s.conv.readReqList = req :: reqs) :
    Counts ended responses { s with
      conv := s.conv.releaseReq req reqs data
      pushed := s.pushed ++ data } where
  inflight := by
    have hcount := h.inflight
    rw [hlist, List.length_cons] at hcount
    change s.conv.inflightReadCnt - 1 = (reqs.length : Int)
    omega
  once := h.once
  writes := h.writes

end Counts

/-! ## The invariant -/

/-- The lists of `dramsys_conv` and the counters kept with them. -/
structure Buffers (ok : SendCall → Prop) (ended : Nat) (responses : List (Nat × Bytes))
    (s : Dramsys Unit) : Prop where
  order : KeepsOrder ended responses s
  calls : FromCalls ok s.socket
  inflight : s.conv.inflightReadCnt = s.conv.readReqList.length
  once : (responses.map Prod.fst).Nodup
  writes : s.conv.writeReqList.length + (writeAnswers s.socket responses).length =
    (writeTags s.socket ended).length

/-- The oldest read that waits has no response among the parked ones. -/
def Drained (s : Dramsys Unit) : Prop :=
  ∀ req reqs, s.conv.readReqList = req :: reqs →
    Conv.findRsp s.conv.outOrderRspList req = none

theorem Drained.sends (h : Drained s) (hs : Sent s ps s') : Drained s' := by
  unfold Drained
  rw [hs.conv]
  exact h

namespace Buffers

theorem start : Buffers ok 0 [] ConvWorld.start.sys where
  order := KeepsOrder.start rfl rfl rfl
  calls := fun _ hp => absurd hp List.not_mem_nil
  inflight := rfl
  once := List.nodup_nil
  writes := rfl

theorem answered_lt (h : Buffers ok ended responses s) : ∀ a ∈ responses, a.1 < s.socket.length :=
  fun a ha => lt_of_lt_of_le (h.order.accepted a ha) h.order.ended_le

theorem sends (h : Buffers ok ended responses s) (hs : Sent s ps s') (hps : FromCalls ok ps) :
    Buffers ok ended responses s' where
  order := h.order.onlySends hs.onlySends
  calls := by
    rw [hs.socket]
    intro p hp
    rcases List.mem_append.mp hp with hp | hp
    · exact h.calls p hp
    · exact hps p hp
  inflight := by
    rw [hs.conv]
    exact h.inflight
  once := h.once
  writes := by
    rw [hs.conv, hs.socket, writeTags_append h.order.ended_le, writeAnswers_append h.answered_lt]
    exact h.writes

theorem counts (h : Buffers ok ended responses s) : Counts ended responses s :=
  ⟨h.inflight, h.once, h.writes⟩

/-- END_REQ accepts the oldest transaction. -/
theorem acceptReq (h : Buffers ok ended responses s) {p : Payload} {req : Req} {rest : List Req}
    (hp : s.socket[ended]? = some p) (hlist : s.conv.allReqList = req :: rest)
    (hwrite : req.isWrite = true ↔ p.command = .write) :
    Buffers ok (ended + 1) responses { s with conv := s.conv.acceptReq req rest } :=
  have hcounts := h.counts.acceptReq hp hwrite
  ⟨h.order.acceptReq hp hlist hwrite, h.calls, hcounts.inflight, hcounts.once, hcounts.writes⟩

/-- BEGIN_RESP of a write drops the oldest write that waits. -/
theorem answerWrite (h : Buffers ok ended responses s) {i : Nat} {p : Payload} {data : Bytes}
    {req : Req} {rest : List Req} (hp : s.socket[i]? = some p) (hc : p.command = .write)
    (hi : i < ended) (hnew : i ∉ responses.map Prod.fst)
    (hdata : data.length = p.dataLength.toNat) (hlist : s.conv.writeReqList = req :: rest) :
    Buffers ok ended (responses ++ [(i, data)]) { s with conv := s.conv.answerWrite rest } :=
  have hcounts := h.counts.answerWrite hp hc hnew hlist
  ⟨h.order.answerWrite hp hc hi hdata rfl rfl rfl, h.calls, hcounts.inflight, hcounts.once,
    hcounts.writes⟩

/-- BEGIN_RESP of a read parks the response. -/
theorem parkRsp (h : Buffers ok ended responses s) {i : Nat} {p : Payload} {data : Bytes}
    {req : Req} (hp : s.socket[i]? = some p) (hc : p.command = .read) (hi : i < ended)
    (hnew : i ∉ responses.map Prod.fst) (hdata : data.length = p.dataLength.toNat)
    (hbefore : ∀ j < i, ∀ q ∈ s.socket[j]?, q.command = .read → q.key = p.key →
      j ∈ responses.map Prod.fst)
    (hfind : Conv.findReq s.conv.readReqList p = some req) :
    Buffers ok ended (responses ++ [(i, data)])
      { s with conv := s.conv.parkRsp req (data.take req.len.toNat) } :=
  have hcounts := h.counts.parkRsp hp hc hnew
  ⟨h.order.parkRsp hp hc hi hnew hdata hbefore hfind, h.calls, hcounts.inflight, hcounts.once,
    hcounts.writes⟩

/-- The loop releases one read. -/
theorem releaseReq (h : Buffers ok ended responses s) {req : Req} {reqs : List Req}
    {rsp : Req × Bytes} (hlist : s.conv.readReqList = req :: reqs)
    (hfind : Conv.findRsp s.conv.outOrderRspList req = some rsp) :
    Buffers ok ended responses { s with
      conv := s.conv.releaseReq req reqs (rsp.2.take req.len.toNat)
      pushed := s.pushed ++ rsp.2.take req.len.toNat } :=
  have hcounts := h.counts.releaseReq hlist
  ⟨h.order.releaseReq hlist hfind, h.calls, hcounts.inflight, hcounts.once, hcounts.writes⟩

/-- The loop comes to its end, and then nothing is left to release. -/
theorem releaseReads (h : Buffers ok ended responses s) {user : ConvUser} (huser : user.Sends ok)
    {fuel : Nat} (hfuel : s.conv.readReqList.length ≤ fuel) :
    ∃ s', Returns (Conv.releaseReads user.callbacks fuel) s () s' ∧
      Buffers ok ended responses s' ∧ Drained s' := by
  refine returns_releaseReads ?_ hfuel h
  intro s req reqs rsp h hlist hfind
  obtain ⟨t, ps, hcall, hsent, hps⟩ := huser.returns_response false { s with
    conv := s.conv.releaseReq req reqs (rsp.2.take req.len.toNat)
    pushed := s.pushed ++ rsp.2.take req.len.toNat }
  refine ⟨le_of_eq (h.order.findRsp_eq_some hlist hfind).1.symm, h.counts.lt_inflight, t, hcall,
    (h.releaseReq hlist hfind).sends hsent hps, ?_⟩
  rw [hsent.conv]
  rfl

/-- A read that may be answered is found in `read_req_list`. -/
theorem exists_findReq (h : Buffers ok ended responses s) {i : Nat} {p : Payload}
    (hp : s.socket[i]? = some p) (hc : p.command = .read) (hi : i < ended)
    (hnew : i ∉ responses.map Prod.fst) :
    ∃ req, Conv.findReq s.conv.readReqList p = some req ∧ req.len = p.dataLength :=
  h.order.exists_findReq hp hc hi hnew

/-- While a write waits for its answer, `write_req_list` is not empty. -/
theorem exists_writeReq (h : Buffers ok ended responses s) {i : Nat} {p : Payload}
    (hp : s.socket[i]? = some p) (hc : p.command = .write) (hi : i < ended)
    (hnew : i ∉ responses.map Prod.fst) : ∃ req rest, s.conv.writeReqList = req :: rest :=
  h.order.exists_writeReq h.once h.writes hp hc hi hnew

/-! ## One event -/

/-- END_REQ is handled to its end while the reads in flight can be counted. -/
theorem endReq (h : Buffers ok ended responses s) (hdrained : Drained s) {user : ConvUser}
    (huser : user.Sends ok) {p : Payload} (hp : s.socket[ended]? = some p)
    (hcount : p.command = .read → s.conv.readReqList.length + 1 < 2 ^ 31) :
    ∃ s', Returns (Conv.peqEndReq user.callbacks p) s () s' ∧
      Buffers ok (ended + 1) responses s' ∧ Drained s' := by
  have hlt : ended < s.socket.length := (List.getElem?_eq_some_iff.mp hp).1
  have hlist : s.conv.allReqList = p.toReq :: (s.socket.drop (ended + 1)).map Payload.toReq := by
    rw [h.order.requests, List.drop_eq_getElem_cons hlt, (List.getElem?_eq_some_iff.mp hp).2,
      List.map_cons]
  have hwrite : p.toReq.isWrite = true ↔ p.command = .write := decide_eq_true_iff
  obtain ⟨s', ps, hcall, hsent, hps⟩ := huser.returns_updateRequest { s with
    conv := s.conv.acceptReq p.toReq ((s.socket.drop (ended + 1)).map Payload.toReq) }
  have hlt : p.command = .read → s.conv.inflightReadCnt + 1 < 2 ^ 31 := h.counts.inflight_lt_iff.mpr
    ∘ hcount
  refine ⟨s', returns_peqEndReq hlist hwrite hlt hcall,
    (h.acceptReq hp hlist hwrite).sends hsent hps,
    Drained.sends (h.order.settled_acceptReq hdrained _ _) hsent⟩

/-- BEGIN_RESP is handled to its end. -/
theorem beginResp (h : Buffers ok ended responses s) (hdrained : Drained s) {user : ConvUser}
    (huser : user.Sends ok) {t : Nat} {p : Payload} {data : Bytes} (hp : s.socket[t]? = some p)
    (ht : t < ended) (hnew : t ∉ responses.map Prod.fst)
    (hdata : data.length = p.dataLength.toNat)
    (hbefore : p.command = .read → ∀ j < t, ∀ q ∈ s.socket[j]?, q.command = .read →
      q.key = p.key → j ∈ responses.map Prod.fst)
    (hlen : p.command = .read → p.dataLength.toNat < 2 ^ 31) :
    ∃ s', Returns (Conv.peqBeginResp user.callbacks p data) s () s' ∧
      Buffers ok ended (responses ++ [(t, data)]) s' ∧ Drained s' := by
  cases hc : p.command with
  | read =>
    obtain ⟨req, hfind, hreq⟩ := h.exists_findReq hp hc ht hnew
    obtain ⟨s', hloop, hbuffers, hdrained'⟩ :=
      (h.parkRsp hp hc ht hnew hdata (hbefore hc) hfind).releaseReads huser
        (le_refl s.conv.readReqList.length)
    exact ⟨s', returns_peqBeginResp_read hc hfind (by rw [hreq]; exact hlen hc) hloop, hbuffers,
      hdrained'⟩
  | write =>
    obtain ⟨req, rest, hlist⟩ := h.exists_writeReq hp hc ht hnew
    obtain ⟨s', ps, hcall, hsent, hps⟩ := huser.returns_response true { s with
      conv := s.conv.answerWrite rest }
    have hdrained' : Drained { s with conv := s.conv.answerWrite rest } := hdrained
    exact ⟨s', returns_peqBeginResp_write hc hlist hcall,
      (h.answerWrite hp hc ht hnew hdata hlist).sends hsent hps, hdrained'.sends hsent⟩

/-- A read of 2^31 bytes or more is not copied to its end. -/
theorem countable_of_returns (h : Buffers ok ended responses s) {callbacks : Callbacks Unit}
    {t : Nat} {p : Payload} {data : Bytes} (hp : s.socket[t]? = some p) (hc : p.command = .read)
    (ht : t < ended) (hnew : t ∉ responses.map Prod.fst)
    (hrun : Returns (Conv.peqBeginResp callbacks p data) s () s') :
    p.dataLength.toNat < 2 ^ 31 := by
  obtain ⟨req, hfind, hreq⟩ := h.exists_findReq hp hc ht hnew
  by_contra hlong
  unfold Conv.peqBeginResp at hrun
  rw [returns_get_bind, hc] at hrun
  simp only [hfind] at hrun
  rw [hreq, if_pos (not_lt.mp hlong)] at hrun
  exact not_returns_throw hrun

/-- The condition on the calls does not matter for what the lists hold. -/
theorem unrestricted (h : Buffers ok ended responses s) :
    Buffers (fun _ => True) ended responses s where
  order := h.order
  calls := fun p hp => by
    obtain ⟨c, _, hc⟩ := h.calls p hp
    exact ⟨c, trivial, hc⟩
  inflight := h.inflight
  once := h.once
  writes := h.writes

/-- Reads shorter than 2^31 bytes stay so in the transactions. -/
theorem countable (h : Buffers SendCall.Countable ended responses s) {t : Nat} {p : Payload}
    (hp : s.socket[t]? = some p) (hc : p.command = .read) : p.dataLength.toNat < 2 ^ 31 := by
  obtain ⟨c, hcount, rfl⟩ := h.calls p (List.mem_of_getElem? hp)
  have hread : c.isWrite = false := by
    cases hw : c.isWrite with
    | false => rfl
    | true =>
      unfold SendCall.payload Conv.payloadOf at hc
      rw [hw] at hc
      cases hc
  have hlength := hcount hread
  change c.length.toUInt32.toNat < 2 ^ 31
  rw [UInt64.toNat_toUInt32]
  omega

end Buffers

end SoftHier.Dram
