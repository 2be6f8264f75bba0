/-
  Dram/Memory.lean --- the component is a memory.

  What a client wants of `ddr` is a byte memory that carries out its requests one
  after the other, in the order they were submitted.  The component is that
  memory over every DRAM which answers a read transaction with the bytes that the
  transactions sent before it left in the cells: requests are split into lines and
  bursts, queued and granted later, answered out of order and put together again,
  and none of it shows in the data.
-/
import SoftHier.Foundation.Replay
import SoftHier.Dram.Quiescence
import SoftHier.Dram.ReadOrder
import SoftHier.Dram.Spans
import SoftHier.Dram.WriteImage

set_option autoImplicit false

namespace SoftHier.Dram

open SoftHier.Foundation Program Dramsys

variable {r : IoReq}

/-! ## The memory a client wants -/

/-- The bytes of a memory, by their offset. -/
abbrev Memory : Type := Nat → UInt8

namespace IoReq

/-- The cells a request writes. -/
def cells (r : IoReq) : List (Nat × UInt8) :=
  if r.isWrite then (List.range r.size.toNat).map fun k => (r.offset.toNat + k, r.data.getD k 0)
  else []

/-- The bytes a request reads. -/
def loaded (m : Memory) (r : IoReq) : Bytes :=
  (List.range r.size.toNat).map fun k => m (r.offset.toNat + k)

end IoReq

/-- The memory that carries out one request after the other. -/
def byteMemory : Machine Memory IoReq (IoReq × Bytes) where
  next := fun m r => storeCells m r.cells
  answer := fun m r => if r.isWrite then none else some (r, r.loaded m)

/-! ## The DRAM -/

/-- The cells when transaction `t` is carried out, after those sent before it. -/
def memoryAt (m : Memory) (socket : List Payload) (t : Nat) : Memory :=
  storeCells m ((socket.take t).flatMap Payload.enabled)

/-- The DRAM answers a read transaction with what the transactions sent before it
left in the cells. -/
def AnswersFrom (m : Memory) (w : World) : Prop :=
  ∀ t data, (t, data) ∈ w.responses → ∀ p, w.sys.socket[t]? = some p → p.command = .read →
    data = p.addresses.map (memoryAt m w.sys.socket t)

/-! ## Requests and their transactions -/

/-- A read transaction changes nothing. -/
theorem enabled_readLine (r : IoReq) (j : Nat) : (r.readLine j).enabled = [] := by
  unfold Payload.enabled IoReq.readLine
  rw [List.filterMap_eq_nil_iff]
  intro i _
  rw [List.getElem?_nil, if_neg (by simp)]

/-- The transactions of a request write the cells of the request. -/
theorem IoReq.InRange.enabled_transactions (h : r.InRange) {burst : UInt64}
    (hsend : r.Sendable burst) : (r.transactions burst).flatMap Payload.enabled = r.cells := by
  unfold IoReq.cells
  cases hw : r.isWrite with
  | false =>
    rw [IoReq.transactions_of_read hw, List.flatMap_map, if_neg Bool.false_ne_true,
      List.flatMap_eq_nil_iff]
    exact fun j _ => enabled_readLine r j
  | true =>
    have hburst : 64 ≤ burst.toNat ∨ burst.toNat ∣ 64 := by
      by_cases hlt : burst.toNat < 64
      · exact .inr (hsend.burst_dvd hw hlt).2
      · exact .inl (not_lt.mp hlt)
    rw [IoReq.transactions_of_write hw hburst, if_pos rfl]
    exact (h.writtenBy_pieces hburst).enabled

theorem enabled_allTransactions {burst : UInt64} {spans : List (IoReq × Nat × Nat)}
    (hrange : ∀ h ∈ spans, h.1.InRange) (hsend : ∀ h ∈ spans, h.1.Sendable burst) :
    (allTransactions burst spans).flatMap Payload.enabled =
      (spans.map Prod.fst).flatMap IoReq.cells := by
  unfold allTransactions
  rw [List.flatMap_assoc, List.flatMap_map]
  apply List.flatMap_congr
  intro h hh
  exact (hrange h hh).enabled_transactions (hsend h hh)

/-- The memory after some requests is that after the cells they write. -/
theorem after_byteMemory (m : Memory) (rs : List IoReq) :
    byteMemory.after m rs = storeCells m (rs.flatMap IoReq.cells) := by
  rw [storeCells_flatMap]
  rfl

/-! ## The memory at a transaction -/

theorem readHandOvers_eq_filter (s : Dramsys Ddr) :
    s.readHandOvers = s.spans.filter fun h => !h.1.isWrite := by
  unfold readHandOvers spans
  rw [List.filter_filterMap]
  apply List.filterMap_congr
  intro e _
  cases e with
  | handOver r first next =>
    cases hw : r.isWrite <;> simp [LogEntry.readHandOver, LogEntry.span, hw, Option.filter]
  | submit r => rfl
  | status r st => rfl
  | grant r => rfl
  | resp r data => rfl

section Reached

variable {w : World} {m : Memory} {before later : List (IoReq × Nat × Nat)} {first next : Nat}

/-- While a read's own transactions are carried out, the memory is the one that
the requests before it left. -/
theorem World.Reached.memoryAt_eq (h : w.Reached IoReq.InRange)
    (hspans : w.sys.spans = before ++ (r, first, next) :: later) (hread : r.isWrite = false)
    {t : Nat} (ht : first ≤ t) (htn : t < first + r.numReq.toNat) :
    memoryAt m w.sys.socket t = byteMemory.after m (before.map Prod.fst) := by
  have htiled := h.tiled
  have hmem : ∀ p ∈ before, p ∈ w.sys.spans := fun p hp => by
    rw [hspans]
    exact List.mem_append_left _ hp
  have hfirst : first = (allTransactions w.sys.burst before).length := by
    have hat : w.sys.spans[before.length]? = some (r, first, next) := by
      rw [hspans, List.getElem?_append_right (le_refl _), Nat.sub_self]
      rfl
    have := htiled.first _ _ hat
    rwa [hspans, List.take_left] at this
  have htake : w.sys.socket.take t =
      allTransactions w.sys.burst before ++ (r.transactions w.sys.burst).take (t - first) := by
    have hsocket : w.sys.socket = allTransactions w.sys.burst before ++
        (r.transactions w.sys.burst ++ allTransactions w.sys.burst later) := by
      rw [htiled.socket, hspans]
      simp [allTransactions]
    have hlength : t - first ≤ (r.transactions w.sys.burst).length := by
      rw [IoReq.transactions_of_read hread, List.length_map, List.length_range]
      omega
    rw [hsocket, List.take_append, List.take_of_length_le (by omega), ← hfirst,
      List.take_append_of_le_length hlength]
  have hreads : ((r.transactions w.sys.burst).take (t - first)).flatMap Payload.enabled = [] := by
    rw [List.flatMap_eq_nil_iff]
    intro p hp
    have hp := List.mem_of_mem_take hp
    rw [IoReq.transactions_of_read hread] at hp
    obtain ⟨j, _, rfl⟩ := List.mem_map.mp hp
    exact enabled_readLine r j
  unfold memoryAt
  rw [htake, List.flatMap_append, hreads, List.append_nil,
    enabled_allTransactions (fun p hp => h.spans_ok p (hmem p hp))
      (fun p hp => htiled.sendable p (hmem p hp)), after_byteMemory]

/-- The data a read returns are what the requests before it left at its address. -/
theorem World.Reached.data_eq_loaded (h : w.Reached IoReq.InRange) (hmem : AnswersFrom m w) {i : Nat}
    {data : Bytes} (hresp : w.sys.readResps[i]? = some (r, data)) :
    ∃ before first next later, w.sys.spans = before ++ (r, first, next) :: later ∧
      (before.filter fun h => !h.1.isWrite).length = i ∧ r.isWrite = false ∧
      data = r.loaded (byteMemory.after m (before.map Prod.fst)) := by
  obtain ⟨first, next, hhanded, hlength, hbytes⟩ := h.readPath.resp_byte hresp
  have hin := List.mem_of_getElem? hhanded
  have hr : r.InRange := h.readPath.assembles.lines.inRange _ hin
  have hread : r.isWrite = false := isWrite_of_mem_readHandOvers hin
  have hnext : next = first + r.numReq.toNat := (h.readPath.assembles.lines.lines _ hin).1
  rw [readHandOvers_eq_filter] at hhanded
  obtain ⟨before, later, hspans, hcount⟩ := exists_split_of_filter hhanded
  refine ⟨before, first, next, later, hspans, hcount, hread, ?_⟩
  apply List.ext_getElem?
  intro k
  unfold IoReq.loaded
  by_cases hk : k < r.size.toNat
  · obtain ⟨t, answer, hfirst, hlast, hsocket, hanswer, hbyte⟩ := hbytes k hk
    have hdata := hmem t answer hanswer _ hsocket rfl
    have hfits := hr.fits
    have haddr : (UInt64.ofNat ((r.offset.toNat + k) / 64 * 64)).toNat +
        (r.offset.toNat + k) % 64 = r.offset.toNat + k := by
      rw [UInt64.toNat_ofNat']
      omega
    have hline : (r.offset.toNat + k) % 64 < (64 : UInt32).toNat := Nat.mod_lt _ (by decide)
    rw [hbyte, hdata, List.getElem?_map, Payload.addresses, List.getElem?_map,
      List.getElem?_range hline, List.getElem?_map, List.getElem?_range hk]
    simp only [Option.map_some, haddr]
    rw [h.memoryAt_eq hspans hread hfirst (by omega)]
  · rw [List.getElem?_eq_none (by omega), List.getElem?_eq_none (by simp; omega)]

/-- When no request is queued, the DRAM was sent every cell that was written. -/
theorem World.Reached.memoryAt_all (h : w.Reached IoReq.InRange)
    (hdenied : w.sys.host.deniedReqQueue = []) :
    memoryAt m w.sys.socket w.sys.socket.length =
      byteMemory.after m (w.log.filterMap LogEntry.submitted) := by
  have htiled := h.tiled
  have hinOrder := h.orderly.ledger.inOrder
  rw [hdenied, List.append_nil] at hinOrder
  have hhanded : w.log.filterMap LogEntry.submitted = w.sys.spans.map Prod.fst := by
    rw [← handOvers_eq]
    exact hinOrder
  unfold memoryAt
  rw [List.take_length, htiled.socket,
    enabled_allTransactions (fun p hp => h.spans_ok p hp) htiled.sendable, hhanded,
    after_byteMemory]

/-- In every reachable state, over every DRAM that answers from the cells: the
reads that were answered, and the data they returned, are the first answers that
the memory gives when it carries out the submitted requests one after the other.
When everything is complete they are all its answers, and the cells are its cells. -/
theorem reads_refine_memory {m : Memory} {w : World} (h : w.Reached IoReq.InRange)
    (hmem : AnswersFrom m w) :
    w.sys.readResps <+: byteMemory.replay m (w.log.filterMap LogEntry.submitted) ∧
      (w.Complete →
        w.sys.readResps = byteMemory.replay m (w.log.filterMap LogEntry.submitted) ∧
          memoryAt m w.sys.socket w.sys.socket.length =
            byteMemory.after m (w.log.filterMap LogEntry.submitted)) := by
  have hasks : ∀ (m : Memory) (r : IoReq), (byteMemory.answer m r).isSome = !r.isWrite := by
    intro m r
    cases hw : r.isWrite <;> simp [byteMemory, hw]
  have hfirst : w.sys.readResps <+:
      byteMemory.replay m (w.log.filterMap LogEntry.submitted) := by
    refine List.IsPrefix.trans ?_ (byteMemory.replay_isPrefix m h.handOvers_isPrefix)
    apply Machine.isPrefix_replay hasks
    rintro i ⟨r, data⟩ hresp
    obtain ⟨before, first, next, later, hspans, hcount, hread, hdata⟩ :=
      h.data_eq_loaded hmem hresp
    refine ⟨before.map Prod.fst, r, later.map Prod.fst, ?_, ?_, ?_⟩
    · rw [hspans, List.map_append, List.map_cons]
    · rw [List.filter_map, List.length_map]
      exact hcount
    · rw [hdata]
      simp [byteMemory, hread]
  refine ⟨hfirst, fun hcomplete => ⟨hfirst.eq_of_length ?_, h.memoryAt_all hcomplete.deniedReqQueue⟩⟩
  have hreads := congrArg List.length hcomplete.reads
  rw [List.length_map] at hreads
  rw [hreads, Machine.length_replay hasks]

end Reached

/-- A write and a read of the same two lines, the read queued behind the write;
the second line of the read is answered first. -/
def readBackWorld : World :=
  (((((((((World.start 64).submitted straddlingWrite).submitted straddlingRead).requestEnded
    idleClient).requestEnded idleClient).requestEnded idleClient).requestEnded
      idleClient).answered idleClient 3 (0xCD :: List.replicate 63 9)).answered
        idleClient 0 (List.replicate 64 0)).answered idleClient 2 (List.replicate 63 9 ++ [0xAB])

theorem reads_refine_memory_readBack :
    readBackWorld.sys.readResps = [(straddlingRead, [0xAB, 0xCD])] ∧
      readBackWorld.sys.readResps <+:
        byteMemory.replay (fun _ => 9) (readBackWorld.log.filterMap LogEntry.submitted) := by
  have hidle : idleClient.Sends IoReq.InRange := fun _ _ hr => absurd hr List.not_mem_nil
  have hsent : ((((World.start 64).submitted straddlingWrite).submitted straddlingRead).requestEnded
      idleClient).Reached IoReq.InRange :=
    (((Reachable.start ⟨64, rfl⟩).next (step_submitted (by decide) (by decide +kernel))).next
      (step_submitted (by decide) (by decide +kernel))).next
        (step_requestEnded hidle (by decide +kernel))
  have hreached : readBackWorld.Reached IoReq.InRange :=
    (((((hsent.next (step_requestEnded hidle (by decide +kernel))).next
      (step_requestEnded hidle (by decide +kernel))).next
        (step_requestEnded hidle (by decide +kernel))).next
          (step_answered hidle (by decide +kernel))).next
            (step_answered hidle (by decide +kernel))).next
              (step_answered hidle (by decide +kernel))
  have hanswers : ∀ a ∈ readBackWorld.responses, ∀ p ∈ readBackWorld.sys.socket[a.1]?,
      p.command = .read →
        a.2 = p.addresses.map (memoryAt (fun _ => 9) readBackWorld.sys.socket a.1) := by
    decide +kernel
  exact ⟨by decide +kernel, (reads_refine_memory hreached
    fun t data hmem p hp hread => hanswers (t, data) hmem p hp hread).1⟩

end SoftHier.Dram
