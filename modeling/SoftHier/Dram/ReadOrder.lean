/-
  Dram/ReadOrder.lean --- a read returns the bytes of its own transactions.

  `dramsys_conv` hands over bytes in the order reads were accepted, and `ddr`
  cuts that stream at the lengths of the reads it handed over.  Neither knows
  the other's requests; that the two orders are the same follows from the order
  of END_REQs and from the transactions of a read being sent one after another.
-/
import SoftHier.Dram.Assembly
import SoftHier.Foundation.Framing

set_option autoImplicit false

namespace SoftHier.Dram

open SoftHier.Foundation Program Dramsys

variable {client : Client} {s s' t : Dramsys Ddr} {r : IoReq}

/-! ## `ddr` only sends -/

theorem HandedOver.onlySends (h : HandedOver s r t) : OnlySends s t where
  sent := ⟨_, h.socket, by rw [h.conv]⟩
  readReqList := by rw [h.conv]
  outOrderRspList := by rw [h.conv]
  pushed := h.pushed

/-- Changes to `ddr` and to `read_rsp_queue` do not count. -/
theorem OnlySends.of_host {c : Conv} {d : Ddr} (hall : c.allReqList = s.conv.allReqList)
    (hread : c.readReqList = s.conv.readReqList)
    (hout : c.outOrderRspList = s.conv.outOrderRspList) :
    OnlySends s { s with conv := c, host := d } where
  sent := ⟨[], (List.append_nil _).symm, by rw [List.map_nil, List.append_nil]; exact hall⟩
  readReqList := hread
  outOrderRspList := hout
  pushed := rfl

theorem Submitted.onlySends (h : Submitted s r s') : OnlySends s s' := by
  cases h with
  | accepted _ hover =>
    have hsubmit : OnlySends s (s.logged [.submit r]) := OnlySends.of_host rfl rfl rfl
    exact (hsubmit.trans hover.onlySends).trans (OnlySends.of_host rfl rfl rfl)
  | denied _ => exact OnlySends.of_host rfl rfl rfl

theorem Served.onlySends (h : Served client s s') : OnlySends s s' := by
  cases h with
  | idle => exact OnlySends.refl s
  | served _ _ hover _ _ => exact hover.onlySends.trans (OnlySends.of_host rfl rfl rfl)

theorem onlySends_rspCallback (isWrite : Bool)
    (h : Returns (rspCallback client isWrite) s () s') : OnlySends s s' := by
  unfold rspCallback at h
  split at h
  · rw [← returns_modify.mp h]
    exact OnlySends.of_host rfl rfl rfl
  · rw [returns_get_bind] at h
    apply fillReads_induct (fun _ _ _ => trivial) (fun _ v => OnlySends s v) _ _ _
      (OnlySends.refl s) h
    · intro v byte bytes p p' ps _ _ _ hv
      split
      · exact hv.trans (OnlySends.of_host rfl rfl rfl)
      · exact hv.trans (OnlySends.of_host rfl rfl rfl)
    · intro p r v v' _ hv hsubmit
      exact hv.trans hsubmit.onlySends
    · intro p v hv
      exact hv.trans (OnlySends.of_host rfl rfl rfl)

/-! ## The invariant over both components -/

/-- The reads in `dramsys_conv`, and the reads in `ddr`. -/
structure ReadPath (ended : Nat) (responses : List (Nat × Bytes)) (s : Dramsys Ddr) : Prop where
  order : KeepsOrder ended responses s
  assembles : Assembles none s

namespace ReadPath

variable {ended : Nat} {responses : List (Nat × Bytes)}

theorem start (burst : UInt64) : ReadPath 0 [] (World.start burst).sys where
  order := KeepsOrder.start rfl rfl rfl
  assembles := {
    lines := {
      inRange := fun _ h => absurd h List.not_mem_nil
      denied := fun _ h => absurd h List.not_mem_nil
      tags := rfl
      lines := fun _ h => absurd h List.not_mem_nil }
    streams := ⟨[], [], [], rfl, rfl, rfl, .nil, rfl⟩ }

/-- `ddr` neither reads nor writes the lists of `dramsys_conv` that hold requests. -/
theorem assembles_of_conv (h : Assembles none s) {c : Conv}
    (hqueue : c.readRspQueue = s.conv.readRspQueue) : Assembles none { s with conv := c } where
  lines := h.lines.frame h.lines.denied rfl rfl
  streams := h.streams.frame rfl rfl hqueue rfl rfl

theorem submit (h : ReadPath ended responses s) (hr : r.InRange) (hs : Submitted s r s') :
    ReadPath ended responses s' where
  order := h.order.onlySends hs.onlySends
  assembles := h.assembles.submitted hr hs

theorem rspCallback (hclient : client.Sends IoReq.InRange) (h : ReadPath ended responses s)
    (isWrite : Bool) (hcall : Returns (rspCallback client isWrite) s () s') :
    ReadPath ended responses s' where
  order := h.order.onlySends (onlySends_rspCallback isWrite hcall)
  assembles := h.assembles.rspCallback hclient isWrite hcall

/-- One pass of the loop that releases reads. -/
theorem release (h : ReadPath ended responses s) {req : Req} {reqs : List Req}
    {rsp : Req × Bytes} (hlist : s.conv.readReqList = req :: reqs)
    (hfind : Conv.findRsp s.conv.outOrderRspList req = some rsp) :
    ReadPath ended responses { s with
      conv := s.conv.releaseReq req reqs (rsp.2.take req.len.toNat)
      pushed := s.pushed ++ rsp.2.take req.len.toNat } where
  order := h.order.releaseReq hlist hfind
  assembles := by
    constructor
    · exact h.assembles.lines.frame h.assembles.lines.denied rfl rfl
    · rcases h.assembles.streams.parts with ⟨blocks, part, queue, hpending, hpushed, hrest⟩
      refine ⟨blocks, part, queue, hpending, ?_, hrest⟩
      change s.pushed ++ _ = _ ++ (s.conv.readRspQueue ++ _)
      rw [hpushed, List.append_assoc]

theorem step {w w' : World} (h : ReadPath w.ended w.responses w.sys)
    (hstep : Step IoReq.InRange w w') : ReadPath w'.ended w'.responses w'.sys := by
  cases hstep with
  | submit hr hs => exact h.submit hr (submit_inv hs)
  | endReq hclient hp hs =>
    obtain ⟨req, rest, hlist, hwrite, hcall⟩ := peqEndReq_inv hs
    have hserved := reqCallback_inv (show Returns (reqCallback _) _ () _ from hcall)
    have hassembles := assembles_of_conv h.assembles (c := w.sys.conv.acceptReq req rest)
      (by unfold Conv.acceptReq; split <;> rfl)
    constructor
    · exact (h.order.acceptReq hp hlist hwrite).onlySends hserved.onlySends
    · exact hassembles.served hclient hserved
  | @beginResp client i p data s hclient hmay hs =>
    cases hc : p.command with
    | write =>
      obtain ⟨_, rest, _, hcall⟩ := peqBeginResp_write_inv hc hs
      have hnext : ReadPath w.ended (w.responses ++ [(i, data)])
          { w.sys with conv := w.sys.conv.answerWrite rest } := by
        constructor
        · exact h.order.answerWrite hmay.sent hc hmay.accepted hmay.length rfl rfl rfl
        · exact assembles_of_conv h.assembles rfl
      exact hnext.rspCallback hclient true hcall
    | read =>
      obtain ⟨req, hfind, hloop⟩ := peqBeginResp_read_inv hc hs
      have hbefore : ∀ j < i, ∀ q ∈ w.sys.socket[j]?, q.command = .read → q.key = p.key →
          j ∈ w.responses.map Prod.fst := by
        intro j hj q hq hread hkey
        apply hmay.inOrder hc j hj q hq hread
        exact ⟨congrArg Prod.fst hkey, congrArg Prod.snd hkey⟩
      have hpark : ReadPath w.ended (w.responses ++ [(i, data)])
          { w.sys with conv := w.sys.conv.parkRsp req (data.take req.len.toNat) } := by
        constructor
        · exact h.order.parkRsp hmay.sent hc hmay.accepted hmay.unanswered hmay.length hbefore hfind
        · exact assembles_of_conv h.assembles rfl
      apply releaseReads_induct (J := ReadPath w.ended (w.responses ++ [(i, data)])) _ _ hpark hloop
      · intro v req reqs rsp hlist hfind _ hv
        exact hv.release hlist hfind
      · intro v v' hv hcall
        exact hv.rspCallback hclient false hcall

end ReadPath

theorem World.Reached.readPath {w : World} (h : w.Reached IoReq.InRange) :
    ReadPath w.ended w.responses w.sys := by
  apply Reachable.invariant (I := fun w => ReadPath w.ended w.responses w.sys) _ _ h
  · rintro w ⟨burst, rfl⟩
    exact ReadPath.start burst
  · intro w w' _ hw hstep
    exact hw.step hstep

/-! ## The data of a read -/

theorem readTags_mono (socket : List Payload) {n m : Nat} (h : n ≤ m) :
    readTags socket n <+: readTags socket m := by
  unfold readTags
  apply List.IsPrefix.filter
  obtain ⟨k, rfl⟩ := Nat.exists_eq_add_of_le h
  rw [List.range_add]
  exact List.prefix_append _ _

/-- The transactions of reads are lines of reads that were handed over. -/
theorem SendsLines.line_of_tag (h : SendsLines s) {i : Nat}
    (hi : i ∈ readTags s.socket s.socket.length) :
    ∃ r j, s.socket[i]? = some (IoReq.readLine r j) := by
  rw [h.tags, List.mem_flatMap] at hi
  obtain ⟨h', hh', hi⟩ := hi
  unfold ownTags at hi
  obtain ⟨hnext, hlines⟩ := h.lines h' hh'
  rw [List.mem_range'_1] at hi
  obtain ⟨j, rfl⟩ := Nat.exists_eq_add_of_le hi.1
  exact ⟨h'.1, j, hlines j (by omega)⟩

theorem readHandOvers_eq (s : Dramsys Ddr) : s.readHandOvers.map Prod.fst =
    (s.host.log.filterMap LogEntry.handedOver).filter fun r => !r.isWrite := by
  unfold Dramsys.readHandOvers
  induction s.host.log with
  | nil => rfl
  | cons e log ih =>
    rw [List.filterMap_cons, List.filterMap_cons]
    cases e with
    | handOver r first next =>
      cases hw : r.isWrite <;> simp [LogEntry.readHandOver, LogEntry.handedOver, hw, ih]
    | submit r => exact ih
    | status r st => exact ih
    | grant r => exact ih
    | resp r data => exact ih

/-- The reads that were answered are the first that were handed over. -/
theorem Streams.resps_isPrefix {front : Option PendingRead} (h : Streams front s) :
    s.readResps.map Prod.fst <+: s.readHandOvers.map Prod.fst := by
  rcases h.parts with ⟨_, _, queue, _, _, horder, _, _⟩
  rw [horder]
  exact List.prefix_append _ _

/-- What was pushed into `read_rsp_queue` are responses of one line each, in
the order in which the transactions were sent. -/
theorem ReadPath.pushed_pieces {ended : Nat} {responses : List (Nat × Bytes)}
    (h : ReadPath ended responses s) : ∃ released : List (Nat × Bytes),
      s.pushed = released.flatMap Prod.snd ∧ (∀ p ∈ released, p ∈ responses) ∧
        (∀ p ∈ released, p.2.length = 64) ∧
        released.map Prod.fst <+: (s.readHandOvers.map ownTags).flatten := by
  obtain ⟨released, pending, htags, hreorders, hpushed⟩ := h.order.reads
  have hlines := h.assembles.lines
  have hanswered : ∀ p ∈ released, p ∈ responses := fun p hp =>
    (List.mem_filter.mp (hreorders.released p hp)).1
  have hpre : released.map Prod.fst <+: readTags s.socket s.socket.length := by
    apply List.IsPrefix.trans _ (readTags_mono s.socket h.order.ended_le)
    rw [← htags]
    exact List.prefix_append _ _
  refine ⟨released, hpushed, hanswered, ?_, ?_⟩
  · intro p hp
    obtain ⟨r', j, hline⟩ := hlines.line_of_tag (hpre.subset (List.mem_map_of_mem hp))
    exact h.order.lengths p (hanswered p hp) _ hline
  · rw [hlines.tags, List.flatMap_def] at hpre
    exact hpre

/-- The stream is cut into one block for each read that was answered. -/
theorem Streams.blocks (h : Streams none s) : ∃ blocks : List Bytes,
    blocks.flatten <+: s.pushed ∧ blocks.length = s.readResps.length ∧
      ∀ (i : Nat) (block : Bytes), blocks[i]? = some block →
        ∃ r data first next, s.readResps[i]? = some (r, data) ∧
          s.readHandOvers[i]? = some (r, first, next) ∧ block.length = r.numBytes ∧
          data = r.filled block := by
  obtain ⟨blocks, part, queue, _, hpushed, horder, hfilled, _⟩ := h.parts
  refine ⟨blocks, ?_, hfilled.length_eq.symm, ?_⟩
  · rw [hpushed, List.append_assoc]
    exact List.prefix_append _ _
  · intro i block hblock
    obtain ⟨hi, rfl⟩ := List.getElem?_eq_some_iff.mp hblock
    obtain ⟨hlength, hget⟩ := List.forall₂_iff_get.mp hfilled
    have hi' : i < s.readResps.length := by omega
    have hresp := List.getElem?_eq_getElem hi'
    have hreq : (s.readHandOvers.map Prod.fst)[i]? = some s.readResps[i].1 := by
      rw [horder, List.getElem?_append_left (by rw [List.length_map]; exact hi'),
        List.getElem?_map, hresp]
      rfl
    rw [List.getElem?_map, Option.map_eq_some_iff] at hreq
    obtain ⟨⟨r, first, next⟩, hhanded, heq⟩ := hreq
    have hblock := hget i hi' hi
    refine ⟨r, s.readResps[i].2, first, next, ?_, hhanded, ?_, ?_⟩
    · rw [hresp, show r = s.readResps[i].1 from heq]
    · rw [show r = s.readResps[i].1 from heq]
      exact hblock.1
    · rw [show r = s.readResps[i].1 from heq]
      exact hblock.2

/-- The data of a read are the responses to its own transactions. -/
theorem ReadPath.resp_pieces {ended : Nat} {responses : List (Nat × Bytes)}
    (h : ReadPath ended responses s) {i : Nat} {data : Bytes}
    (hresp : s.readResps[i]? = some (r, data)) :
    ∃ first next, s.readHandOvers[i]? = some (r, first, next) ∧
      ∃ pieces : List (Nat × Bytes), pieces.map Prod.fst = ownTags (r, first, next) ∧
        (∀ p ∈ pieces, p ∈ responses) ∧ (∀ p ∈ pieces, p.2.length = 64) ∧
        data = r.filled (pieces.flatMap Prod.snd) := by
  obtain ⟨released, hpushed, hanswered, hwidth, htags⟩ := h.pushed_pieces
  obtain ⟨blocks, hpre, hcount, hblocks⟩ := h.assembles.streams.blocks
  have hlines := h.assembles.lines
  rw [hpushed] at hpre
  have hsize : ∀ (i : Nat) (block : Bytes) (own : List Nat), blocks[i]? = some block →
      (s.readHandOvers.map ownTags)[i]? = some own → block.length = 64 * own.length := by
    intro i block own hblock hown
    obtain ⟨r, data, first, next, _, hhanded, hlength, _⟩ := hblocks i block hblock
    rw [List.getElem?_map, hhanded, Option.map_some, Option.some.injEq] at hown
    have hmem := List.mem_of_getElem? hhanded
    have hnext : next = first + r.numReq.toNat := (hlines.lines _ hmem).1
    rw [hlength, (hlines.inRange _ hmem).numBytes_eq, ← hown, ownTags, List.length_range', hnext,
      Nat.add_sub_cancel_left]
  have hi : i < blocks.length := by
    rw [hcount]
    exact (List.getElem?_eq_some_iff.mp hresp).1
  have hblock := List.getElem?_eq_getElem hi
  obtain ⟨r', data', first, next, hresp', hhanded, _, hdata⟩ := hblocks i _ hblock
  rw [hresp, Option.some.injEq, Prod.mk.injEq] at hresp'
  obtain ⟨rfl, rfl⟩ := hresp'
  have hown : (s.readHandOvers.map ownTags)[i]? = some (ownTags (r, first, next)) := by
    rw [List.getElem?_map, hhanded]
    rfl
  obtain ⟨pieces, hpieces, hsub, hrecord⟩ :=
    record_pieces (by omega) hwidth htags hpre hsize hblock hown
  refine ⟨first, next, hhanded, pieces, hpieces, fun p hp => hanswered p (hsub p hp),
    fun p hp => hwidth p (hsub p hp), ?_⟩
  rw [hdata, hrecord]

/-- Byte `k` of a read that is filled from one response a line. -/
theorem IoReq.InRange.filled_byte (hr : r.InRange) {first : Nat} {pieces : List (Nat × Bytes)}
    (hpieces : pieces.map Prod.fst = List.range' first r.numReq.toNat)
    (hwidth : ∀ p ∈ pieces, p.2.length = 64) {k : Nat} (hk : k < r.size.toNat) :
    (r.offset.toNat % 64 + k) / 64 < r.numReq.toNat ∧
      ∃ answer, (first + (r.offset.toNat % 64 + k) / 64, answer) ∈ pieces ∧
        (r.filled (pieces.flatMap Prod.snd))[k]? = answer[(r.offset.toNat + k) % 64]? := by
  have hend := hr.end_le_numBytes
  have hbytes := hr.numBytes_eq
  have hcount : pieces.length = r.numReq.toNat := by
    rw [← List.length_map Prod.fst, hpieces, List.length_range']
  have hpos : r.offset.toNat % 64 + k < 64 * pieces.length := by omega
  obtain ⟨p, hp, hbyte⟩ := getElem?_flatMap_of_width hwidth hpos
  have hj := (List.getElem?_eq_some_iff.mp hp).1
  rw [hcount] at hj
  have htag : p.1 = first + (r.offset.toNat % 64 + k) / 64 := by
    have hget : (pieces.map Prod.fst)[(r.offset.toNat % 64 + k) / 64]? = some p.1 := by
      rw [List.getElem?_map, hp]
      rfl
    rw [hpieces, List.getElem?_range' hj, Option.some.injEq, Nat.one_mul] at hget
    exact hget.symm
  refine ⟨hj, p.2, ?_, ?_⟩
  · rw [← htag]
    exact List.mem_of_getElem? hp
  · have hmod : (r.offset.toNat % 64 + k) % 64 = (r.offset.toNat + k) % 64 := by omega
    have hlt : r.offset.toNat % 64 + k < (pieces.flatMap Prod.snd).length := by
      rw [length_flatMap_of_width hwidth]
      exact hpos
    rw [← hmod, ← hbyte, IoReq.filled, List.getElem?_map, List.getElem?_range hk, Option.map_some,
      if_pos hlt, List.getD_eq_getElem?_getD, List.getElem?_eq_getElem hlt]
    rfl

/-- Byte `k` of the data of a read comes from the response to the transaction
of the line it lies in. -/
theorem ReadPath.resp_byte {ended : Nat} {responses : List (Nat × Bytes)}
    (h : ReadPath ended responses s) {i : Nat} {data : Bytes}
    (hresp : s.readResps[i]? = some (r, data)) :
    ∃ first next, s.readHandOvers[i]? = some (r, first, next) ∧ data.length = r.size.toNat ∧
      ∀ k < r.size.toNat, ∃ t answer, first ≤ t ∧ t < next ∧
        s.socket[t]? = some ⟨.read, UInt64.ofNat ((r.offset.toNat + k) / 64 * 64), 64, [], []⟩ ∧
        (t, answer) ∈ responses ∧ data[k]? = answer[(r.offset.toNat + k) % 64]? := by
  obtain ⟨first, next, hhanded, pieces, hpieces, hanswered, hwidth, hdata⟩ := h.resp_pieces hresp
  have hmem := List.mem_of_getElem? hhanded
  have hr : r.InRange := h.assembles.lines.inRange _ hmem
  obtain ⟨hnext, hline⟩ := h.assembles.lines.lines _ hmem
  have hnext : next = first + r.numReq.toNat := hnext
  refine ⟨first, next, hhanded, ?_, fun k hk => ?_⟩
  · rw [hdata, IoReq.filled, List.length_map, List.length_range]
  · rw [ownTags, hnext, Nat.add_sub_cancel_left] at hpieces
    obtain ⟨hj, answer, hin, hbyte⟩ := hr.filled_byte hpieces hwidth hk
    have haddr : r.offset.toNat / 64 + (r.offset.toNat % 64 + k) / 64 =
        (r.offset.toNat + k) / 64 := by omega
    refine ⟨_, answer, Nat.le_add_right _ _, by omega, ?_, hanswered _ hin, ?_⟩
    · rw [hline _ hj, IoReq.readLine, IoReq.lineAddr, haddr]
    · rw [hdata]
      exact hbyte

/-- In every reachable state: the reads that were answered are the first that
the client submitted, in that order; and byte `k` of the data that was returned
for one of them is byte `(offset + k) mod 64` of the response to the transaction
that was sent for it and for that line. -/
theorem reads_complete {w : World} (h : w.Reached IoReq.InRange) :
    w.sys.readResps.map Prod.fst <+:
        (w.log.filterMap LogEntry.submitted).filter (fun r => !r.isWrite) ∧
      ∀ (i : Nat) (r : IoReq) (data : Bytes), w.sys.readResps[i]? = some (r, data) →
        ∃ first next, w.sys.readHandOvers[i]? = some (r, first, next) ∧
          data.length = r.size.toNat ∧
          ∀ k < r.size.toNat, ∃ t answer, first ≤ t ∧ t < next ∧
            w.sys.socket[t]? =
              some ⟨.read, UInt64.ofNat ((r.offset.toNat + k) / 64 * 64), 64, [], []⟩ ∧
            (t, answer) ∈ w.responses ∧ data[k]? = answer[(r.offset.toNat + k) % 64]? := by
  have hpath := h.readPath
  constructor
  · apply hpath.assembles.streams.resps_isPrefix.trans
    rw [readHandOvers_eq, World.log, h.orderly.ledger.inOrder, List.filter_append]
    exact List.prefix_append _ _
  · intro i r data hresp
    exact hpath.resp_byte hresp

/-- A client that sends nothing from inside a call. -/
def idleClient : Client := fun _ => []

/-- A read of two lines; the second line is answered first. -/
def straddledWorld : World :=
  (((((World.start 64).submitted straddlingRead).requestEnded idleClient).requestEnded
    idleClient).answered idleClient 1 (List.replicate 64 2)).answered idleClient 0
      (List.replicate 64 1)

theorem reads_complete_straddling :
    straddledWorld.sys.readResps = [(straddlingRead, [1, 2])] ∧
      ∃ t answer, straddledWorld.sys.socket[t]? = some ⟨.read, 64, 64, [], []⟩ ∧
        (t, answer) ∈ straddledWorld.responses ∧ answer[0]? = some 2 := by
  have hidle : idleClient.Sends IoReq.InRange := fun _ _ hr => absurd hr List.not_mem_nil
  have hreached : straddledWorld.Reached IoReq.InRange :=
    (((((Reachable.start ⟨64, rfl⟩).next (step_submitted (by decide) (by decide +kernel))).next
      (step_requestEnded hidle (by decide +kernel))).next
        (step_requestEnded hidle (by decide +kernel))).next
          (step_answered hidle (by decide +kernel))).next
            (step_answered hidle (by decide +kernel))
  have hresps : straddledWorld.sys.readResps = [(straddlingRead, [1, 2])] := by decide +kernel
  obtain ⟨first, next, _, _, hbytes⟩ :=
    (reads_complete hreached).2 0 straddlingRead [1, 2] (by rw [hresps]; rfl)
  obtain ⟨t, answer, _, _, hsocket, hanswer, hbyte⟩ := hbytes 1 (by decide)
  exact ⟨hresps, t, answer, hsocket, hanswer, hbyte.symm⟩

end SoftHier.Dram
