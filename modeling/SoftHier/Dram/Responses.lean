/-
  Dram/Responses.lean --- `dramsys_conv` gives reads back in their order.

  A transaction is known by its place among those sent.  `read_req_list` and
  `out_order_rsp_list` are the two halves of a reorder buffer whose key is the
  address and length of a read, so the bytes pushed into `read_rsp_queue` are
  the responses of the reads, in the order the reads were accepted in.
-/
import SoftHier.Dram.Sending
import SoftHier.Dram.Phases
import SoftHier.Foundation.Reorder

set_option autoImplicit false

namespace SoftHier.Dram

open SoftHier.Foundation Program

variable {δ : Type} {s s' t : Dramsys δ} {ended : Nat} {responses : List (Nat × Bytes)}

/-! ## Transactions by their place -/

/-- What `dramsys_conv` tells reads apart by. -/
def Req.key (r : Req) : UInt64 × UInt32 := (r.addr, r.len)

def Payload.key (p : Payload) : UInt64 × UInt32 := (p.address, p.dataLength)

def keyAt (socket : List Payload) (i : Nat) : Option (UInt64 × UInt32) :=
  socket[i]?.map Payload.key

def isReadAt (socket : List Payload) (i : Nat) : Bool :=
  socket[i]?.any fun p => decide (p.command = .read)

/-- The reads among the first `n` transactions. -/
def readTags (socket : List Payload) (n : Nat) : List Nat :=
  (List.range n).filter (isReadAt socket)

/-- The responses that answer reads. -/
def readAnswers (socket : List Payload) (responses : List (Nat × Bytes)) : List (Nat × Bytes) :=
  responses.filter fun a => isReadAt socket a.1

section Append

variable {socket ps : List Payload}

theorem isReadAt_append {i : Nat} (hi : i < socket.length) :
    isReadAt (socket ++ ps) i = isReadAt socket i := by
  unfold isReadAt
  rw [List.getElem?_append_left hi]

theorem keyAt_append {i : Nat} (hi : i < socket.length) :
    keyAt (socket ++ ps) i = keyAt socket i := by
  unfold keyAt
  rw [List.getElem?_append_left hi]

theorem readTags_append {n : Nat} (hn : n ≤ socket.length) :
    readTags (socket ++ ps) n = readTags socket n := by
  unfold readTags
  apply List.filter_congr
  intro i hi
  rw [List.mem_range] at hi
  exact isReadAt_append (by omega)

theorem readAnswers_append (h : ∀ a ∈ responses, a.1 < socket.length) :
    readAnswers (socket ++ ps) responses = readAnswers socket responses := by
  unfold readAnswers
  apply List.filter_congr
  intro a ha
  exact isReadAt_append (h a ha)

end Append

theorem mem_readTags {socket : List Payload} {n i : Nat} :
    i ∈ readTags socket n ↔ i < n ∧ isReadAt socket i = true := by
  unfold readTags
  rw [List.mem_filter, List.mem_range]

theorem readTags_succ (socket : List Payload) (n : Nat) :
    readTags socket (n + 1) =
      readTags socket n ++ if isReadAt socket n then [n] else [] := by
  unfold readTags
  rw [List.range_succ, List.filter_append]
  congr 1
  cases hn : isReadAt socket n <;> simp [hn]

/-! ## Parked responses by the key of a read -/

section Parked

variable {socket : List Payload} {i : Nat} {req : Req}

theorem sameKey_of_keyAt (hkey : keyAt socket i = some req.key) :
    (fun e : Req × Bytes => decide (keyAt socket i = some e.1.key)) =
      fun e => Conv.sameKey req e.1 := by
  funext e
  rw [hkey]
  unfold Conv.sameKey Req.key
  simp [Prod.ext_iff, Bool.decide_and, beq_eq_decide]

/-- What `dramsys_conv` finds for a read is the first response of the read's key. -/
theorem find?_parked (hkey : keyAt socket i = some req.key) (rsps : List (Req × Bytes)) :
    (rsps.map fun e => (some e.1.key, e.2)).find? (fun q => keyAt socket i = q.1) =
      (Conv.findRsp rsps req).map fun e => (some e.1.key, e.2) := by
  rw [List.find?_map]
  unfold Conv.findRsp
  rw [← sameKey_of_keyAt hkey]
  rfl

/-- What it erases is that response. -/
theorem eraseP_parked (hkey : keyAt socket i = some req.key) (rsps : List (Req × Bytes)) :
    (Conv.eraseRsp rsps req).map (fun e => (some e.1.key, e.2)) =
      (rsps.map fun e => (some e.1.key, e.2)).eraseP fun q => keyAt socket i = q.1 := by
  rw [List.eraseP_map]
  unfold Conv.eraseRsp
  rw [← sameKey_of_keyAt hkey]
  rfl

end Parked

/-! ## The invariant of `dramsys_conv` -/

/-- The lists of `dramsys_conv`, when `ended` transactions have got their
END_REQ and `responses` came. -/
structure KeepsOrder (ended : Nat) (responses : List (Nat × Bytes)) (s : Dramsys δ) : Prop where
  ended_le : ended ≤ s.socket.length
  requests : s.conv.allReqList = (s.socket.drop ended).map Payload.toReq
  accepted : ∀ a ∈ responses, a.1 < ended
  lengths : ∀ a ∈ responses, ∀ p ∈ s.socket[a.1]?, a.2.length = p.dataLength.toNat
  reads : ∃ released pending, released.map Prod.fst ++ pending = readTags s.socket ended ∧
    Reorders (keyAt s.socket) released pending (readAnswers s.socket responses)
      (s.conv.readReqList.map fun r => some r.key)
      (s.conv.outOrderRspList.map fun e => (some e.1.key, e.2)) ∧
    s.pushed = released.flatMap Prod.snd

/-- From `s` to `s'` transactions were sent, and the reads that wait did not change. -/
structure OnlySends (s s' : Dramsys δ) : Prop where
  sent : ∃ ps, s'.socket = s.socket ++ ps ∧
    s'.conv.allReqList = s.conv.allReqList ++ ps.map Payload.toReq
  readReqList : s'.conv.readReqList = s.conv.readReqList
  outOrderRspList : s'.conv.outOrderRspList = s.conv.outOrderRspList
  pushed : s'.pushed = s.pushed

namespace OnlySends

theorem refl (s : Dramsys δ) : OnlySends s s where
  sent := ⟨[], (List.append_nil _).symm, (List.append_nil _).symm⟩
  readReqList := rfl
  outOrderRspList := rfl
  pushed := rfl

theorem trans (h1 : OnlySends s t) (h2 : OnlySends t s') : OnlySends s s' where
  sent := by
    rcases h1.sent with ⟨ps, hsocket, hlist⟩
    rcases h2.sent with ⟨qs, hsocket', hlist'⟩
    refine ⟨ps ++ qs, ?_, ?_⟩
    · rw [hsocket', hsocket, List.append_assoc]
    · rw [hlist', hlist, List.map_append, List.append_assoc]
  readReqList := h2.readReqList.trans h1.readReqList
  outOrderRspList := h2.outOrderRspList.trans h1.outOrderRspList
  pushed := h2.pushed.trans h1.pushed

end OnlySends

namespace KeepsOrder

theorem start {s : Dramsys δ} (hsocket : s.socket = []) (hconv : s.conv = {})
    (hpushed : s.pushed = []) : KeepsOrder 0 [] s where
  ended_le := Nat.zero_le _
  requests := by rw [hsocket, hconv]; rfl
  accepted := fun _ ha => absurd ha List.not_mem_nil
  lengths := fun _ ha => absurd ha List.not_mem_nil
  reads := by
    refine ⟨[], [], rfl, ?_, ?_⟩
    · rw [hconv]
      exact Reorders.nil _
    · rw [hpushed]
      rfl

theorem onlySends (h : KeepsOrder ended responses s) (hs : OnlySends s s') :
    KeepsOrder ended responses s' := by
  rcases hs.sent with ⟨ps, hsocket, hlist⟩
  have hlt : ∀ a ∈ responses, a.1 < s.socket.length := fun a ha =>
    lt_of_lt_of_le (h.accepted a ha) h.ended_le
  refine ⟨?_, ?_, h.accepted, ?_, ?_⟩
  · rw [hsocket, List.length_append]
    exact le_trans h.ended_le (Nat.le_add_right _ _)
  · rw [hlist, hsocket, List.drop_append_of_le_length h.ended_le, List.map_append, h.requests]
  · intro a ha
    rw [hsocket, List.getElem?_append_left (hlt a ha)]
    exact h.lengths a ha
  · rcases h.reads with ⟨released, pending, htags, hreorders, hpushed⟩
    refine ⟨released, pending, ?_, ?_, ?_⟩
    · rw [hsocket, readTags_append h.ended_le]
      exact htags
    · rw [hs.readReqList, hs.outOrderRspList, hsocket, readAnswers_append hlt]
      apply hreorders.congr
      intro i hi
      rw [htags, mem_readTags] at hi
      exact keyAt_append (lt_of_lt_of_le hi.1 h.ended_le)
    · rw [hs.pushed]
      exact hpushed

/-- END_REQ accepts the oldest transaction. -/
theorem acceptReq (h : KeepsOrder ended responses s) {p : Payload} {req : Req} {rest : List Req}
    (hp : s.socket[ended]? = some p) (hlist : s.conv.allReqList = req :: rest)
    (hwrite : req.isWrite = true ↔ p.command = .write) :
    KeepsOrder (ended + 1) responses { s with conv := s.conv.acceptReq req rest } := by
  have hlt : ended < s.socket.length := (List.getElem?_eq_some_iff.mp hp).1
  have hdrop : s.socket.drop ended = p :: s.socket.drop (ended + 1) := by
    rw [List.drop_eq_getElem_cons hlt, (List.getElem?_eq_some_iff.mp hp).2]
  have hreq := h.requests
  rw [hlist, hdrop, List.map_cons, List.cons.injEq] at hreq
  have hkey : keyAt s.socket ended = some req.key := by
    unfold keyAt
    rw [hp, hreq.1]
    rfl
  refine ⟨hlt, ?_, fun a ha => Nat.lt_succ_of_lt (h.accepted a ha), h.lengths, ?_⟩
  · rw [← hreq.2]
    unfold Conv.acceptReq
    split <;> rfl
  · rcases h.reads with ⟨released, pending, htags, hreorders, hpushed⟩
    change ∃ released pending, _ = readTags s.socket (ended + 1) ∧ _ ∧ s.pushed = _
    rw [readTags_succ]
    unfold Conv.acceptReq
    cases hc : p.command with
    | read =>
      have hread : isReadAt s.socket ended = true := by
        unfold isReadAt
        rw [hp]
        simp [hc]
      have hw : ¬ req.isWrite = true := by
        rw [hwrite, hc]
        intro h
        cases h
      rw [if_neg hw, if_pos hread]
      refine ⟨released, pending ++ [ended], ?_, ?_, hpushed⟩
      · rw [← List.append_assoc, htags]
      · rw [List.map_append, List.map_singleton, ← hkey]
        apply hreorders.accept
        intro j hj
        rw [htags, mem_readTags] at hj
        exact hj.1
    | write =>
      have hread : ¬ isReadAt s.socket ended = true := by
        unfold isReadAt
        rw [hp]
        simp [hc]
      rw [if_pos (hwrite.mpr hc), if_neg hread, List.append_nil]
      exact ⟨released, pending, htags, hreorders, hpushed⟩

theorem accepted_concat (h : KeepsOrder ended responses s) {i : Nat} {data : Bytes}
    (hi : i < ended) : ∀ a ∈ responses ++ [(i, data)], a.1 < ended := by
  intro a ha
  rcases List.mem_append.mp ha with ha | ha
  · exact h.accepted a ha
  · rw [List.mem_singleton.mp ha]
    exact hi

theorem lengths_concat (h : KeepsOrder ended responses s) {i : Nat} {p : Payload} {data : Bytes}
    (hp : s.socket[i]? = some p) (hdata : data.length = p.dataLength.toNat) :
    ∀ a ∈ responses ++ [(i, data)], ∀ q ∈ s.socket[a.1]?, a.2.length = q.dataLength.toNat := by
  intro a ha
  rcases List.mem_append.mp ha with ha | ha
  · exact h.lengths a ha
  · rw [List.mem_singleton.mp ha]
    intro q hq
    change s.socket[i]? = some q at hq
    rw [hp] at hq
    cases hq
    exact hdata

/-- BEGIN_RESP of a write. -/
theorem answerWrite (h : KeepsOrder ended responses s) {i : Nat} {p : Payload} {data : Bytes}
    {c : Conv} (hp : s.socket[i]? = some p) (hc : p.command = .write) (hi : i < ended)
    (hdata : data.length = p.dataLength.toNat) (hall : c.allReqList = s.conv.allReqList)
    (hread : c.readReqList = s.conv.readReqList)
    (hout : c.outOrderRspList = s.conv.outOrderRspList) :
    KeepsOrder ended (responses ++ [(i, data)]) { s with conv := c } := by
  have hnot : isReadAt s.socket i = false := by
    unfold isReadAt
    rw [hp]
    simp [hc]
  refine ⟨h.ended_le, ?_, ?_, ?_, ?_⟩
  · rw [← h.requests]
    exact hall
  · exact h.accepted_concat hi
  · exact h.lengths_concat hp hdata
  · rcases h.reads with ⟨released, pending, htags, hreorders, hpushed⟩
    refine ⟨released, pending, htags, ?_, hpushed⟩
    have hanswers : readAnswers s.socket (responses ++ [(i, data)]) =
        readAnswers s.socket responses := by
      unfold readAnswers
      rw [List.filter_append, List.filter_cons_of_neg (by simp [hnot]), List.filter_nil,
        List.append_nil]
    rw [hread, hout]
    change Reorders (keyAt s.socket) released pending
      (readAnswers s.socket (responses ++ [(i, data)])) _ _
    rw [hanswers]
    exact hreorders

/-- BEGIN_RESP of a read parks the response under the read's key. -/
theorem parkRsp (h : KeepsOrder ended responses s) {i : Nat} {p : Payload} {data : Bytes}
    {req : Req} (hp : s.socket[i]? = some p) (hc : p.command = .read) (hi : i < ended)
    (hnew : i ∉ responses.map Prod.fst) (hdata : data.length = p.dataLength.toNat)
    (hbefore : ∀ j < i, ∀ q ∈ s.socket[j]?, q.command = .read → q.key = p.key →
      j ∈ responses.map Prod.fst)
    (hfind : Conv.findReq s.conv.readReqList p = some req) :
    KeepsOrder ended (responses ++ [(i, data)])
      { s with conv := s.conv.parkRsp req (data.take req.len.toNat) } := by
  have hread : isReadAt s.socket i = true := by
    unfold isReadAt
    rw [hp]
    simp [hc]
  have hreq : req.addr = p.address ∧ req.len = p.dataLength := by
    simpa [Conv.findReq] using List.find?_some hfind
  have hkey : keyAt s.socket i = some req.key := by
    unfold keyAt Req.key
    rw [hp, hreq.1, hreq.2]
    rfl
  have htake : data.take req.len.toNat = data := by
    apply List.take_of_length_le
    rw [hdata, hreq.2]
  rw [htake]
  have hmem : ∀ {j : Nat}, isReadAt s.socket j = true → j ∈ responses.map Prod.fst →
      j ∈ (readAnswers s.socket responses).map Prod.fst := by
    intro j hj hmem
    rcases List.mem_map.mp hmem with ⟨a, ha, rfl⟩
    exact List.mem_map_of_mem (List.mem_filter.mpr ⟨ha, hj⟩)
  refine ⟨h.ended_le, h.requests, ?_, ?_, ?_⟩
  · exact h.accepted_concat hi
  · exact h.lengths_concat hp hdata
  · rcases h.reads with ⟨released, pending, htags, hreorders, hpushed⟩
    refine ⟨released, pending, htags, ?_, hpushed⟩
    have hanswers : readAnswers s.socket (responses ++ [(i, data)]) =
        readAnswers s.socket responses ++ [(i, data)] := by
      unfold readAnswers
      rw [List.filter_append, List.filter_cons_of_pos (by simp [hread]), List.filter_nil]
    have hanswer := hreorders.answer (i := i) (by rw [htags, mem_readTags]; exact ⟨hi, hread⟩)
      (fun hin => hnew (List.map_subset _ List.filter_sublist.subset hin)) (fun j hj hk hlt => by
        rw [htags, mem_readTags] at hj
        apply hmem hj.2
        unfold isReadAt at hj
        rcases Option.any_eq_true _ _ |>.mp hj.2 with ⟨q, hq, hqc⟩
        apply hbefore j hlt q hq (of_decide_eq_true hqc)
        unfold keyAt at hk
        rw [hq, hp] at hk
        exact Option.some.inj hk) data
    change Reorders (keyAt s.socket) released pending
      (readAnswers s.socket (responses ++ [(i, data)])) (s.conv.readReqList.map fun r => some r.key)
      ((s.conv.outOrderRspList ++ [(req, data)]).map fun e => (some e.1.key, e.2))
    rw [hanswers, List.map_append, List.map_singleton, ← hkey]
    exact hanswer

/-- The response found for the oldest read is its own, and as long as the read. -/
theorem findRsp_eq_some (h : KeepsOrder ended responses s) {req : Req} {reqs : List Req}
    {rsp : Req × Bytes} (hlist : s.conv.readReqList = req :: reqs)
    (hfind : Conv.findRsp s.conv.outOrderRspList req = some rsp) :
    rsp.2.length = req.len.toNat ∧
      ∃ released i pending, released.map Prod.fst ++ i :: pending = readTags s.socket ended ∧
        keyAt s.socket i = some req.key ∧
        Reorders (keyAt s.socket) (released ++ [(i, rsp.2)]) pending
          (readAnswers s.socket responses) (reqs.map fun r => some r.key)
          ((s.conv.outOrderRspList.map fun e => (some e.1.key, e.2)).eraseP
            fun q => keyAt s.socket i = q.1) ∧
        s.pushed = released.flatMap Prod.snd := by
  rcases h.reads with ⟨released, pending, htags, hreorders, hpushed⟩
  have hwaiting := hreorders.waiting
  rw [hlist] at hwaiting
  cases pending with
  | nil => cases hwaiting
  | cons i pending =>
    rw [List.map_cons, List.map_cons, List.cons.injEq] at hwaiting
    have hkey : keyAt s.socket i = some req.key := hwaiting.1.symm
    have hfound : (s.conv.outOrderRspList.map fun e => (some e.1.key, e.2)).find?
        (fun q => keyAt s.socket i = q.1) = some (some rsp.1.key, rsp.2) := by
      rw [find?_parked hkey, hfind]
      rfl
    have hrelease := hreorders.release hfound
    rw [hlist] at hrelease
    refine ⟨?_, released, i, pending, htags, hkey, hrelease, hpushed⟩
    have hanswer : (i, rsp.2) ∈ readAnswers s.socket responses :=
      hrelease.released _ (List.mem_append_right _ (List.mem_singleton.mpr rfl))
    rcases hp : s.socket[i]? with _ | p
    · unfold keyAt at hkey
      rw [hp] at hkey
      cases hkey
    · rw [h.lengths _ (List.mem_filter.mp hanswer).1 p hp]
      unfold keyAt at hkey
      rw [hp] at hkey
      rw [show p.dataLength = req.len from congrArg Prod.snd (Option.some.inj hkey)]

/-- The loop releases the response of the oldest read. -/
theorem releaseReq (h : KeepsOrder ended responses s) {req : Req} {reqs : List Req}
    {rsp : Req × Bytes} (hlist : s.conv.readReqList = req :: reqs)
    (hfind : Conv.findRsp s.conv.outOrderRspList req = some rsp) :
    KeepsOrder ended responses { s with
      conv := s.conv.releaseReq req reqs (rsp.2.take req.len.toNat)
      pushed := s.pushed ++ rsp.2.take req.len.toNat } := by
  refine ⟨h.ended_le, h.requests, h.accepted, h.lengths, ?_⟩
  obtain ⟨hlength, released, i, pending, htags, hkey, hrelease, hpushed⟩ :=
    h.findRsp_eq_some hlist hfind
  rw [List.take_of_length_le (le_of_eq hlength)]
  refine ⟨released ++ [(i, rsp.2)], pending, ?_, ?_, ?_⟩
  · rw [List.map_append, List.append_assoc]
    exact htags
  · change Reorders (keyAt s.socket) _ pending _ (reqs.map fun r => some r.key)
      ((Conv.eraseRsp s.conv.outOrderRspList req).map fun e => (some e.1.key, e.2))
    rw [eraseP_parked hkey]
    exact hrelease
  · change s.pushed ++ rsp.2 = _
    rw [List.flatMap_append, hpushed]
    simp

/-- A read that is accepted releases nothing. -/
theorem settled_acceptReq (h : KeepsOrder ended responses s) (hsettled : Settled s) (req : Req)
    (rest : List Req) : Settled { s with conv := s.conv.acceptReq req rest } := by
  intro req' reqs hreads
  unfold Conv.acceptReq at hreads ⊢
  split at hreads
  next hw =>
    simp only [hw, if_true]
    exact hsettled req' reqs hreads
  next hw =>
    rw [if_neg hw]
    change s.conv.readReqList ++ [req] = req' :: reqs at hreads
    change Conv.findRsp s.conv.outOrderRspList req' = none
    cases hold : s.conv.readReqList with
    | cons req'' reqs'' =>
      rw [hold, List.cons_append, List.cons.injEq] at hreads
      rw [← hreads.1]
      exact hsettled req'' reqs'' hold
    | nil =>
      -- no read waits, so no response is parked
      obtain ⟨released, pending, -, hreorders, -⟩ := h.reads
      have hwaiting := hreorders.waiting
      have hparked := hreorders.parked
      rw [hold, List.map_nil] at hwaiting
      have hpending : pending = [] := List.map_eq_nil_iff.mp hwaiting.symm
      rw [hpending, List.filter_eq_nil_iff.mpr (by simp), List.map_nil, List.map_eq_nil_iff]
        at hparked
      rw [hparked]
      rfl

end KeepsOrder

end SoftHier.Dram
