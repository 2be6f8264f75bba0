/-
  Dram/Polling.lean --- a user that asks for responses instead of being called.

  Between the events a user may take bytes off `read_rsp_queue`, one at a time
  or many, and entries off `write_rsp_queue`.  However it mixes the two ways, it
  gets the bytes of the answered reads in the order of the reads, each once; what
  it asks for beyond those is made up as zero.
-/
import SoftHier.Dram.ConvOrder

set_option autoImplicit false

namespace SoftHier.Dram

open SoftHier.Foundation Program

variable {δ : Type} {ok : SendCall → Prop}

/-! ## The functions -/

/-- The loop of `dram_get_read_rsp`: the bytes it stores in the buffer. -/
def fillBuffer : Nat → Program Fault (Dramsys δ) Bytes
  | 0 => pure []
  | n + 1 => do
    let s ← get
    match s.conv.readRspQueue with
    | byte :: queue => do
      modifyConv fun c => { c with readRspQueue := queue }
      let bytes ← fillBuffer n
      pure (byte :: bytes)
    | [] => do
      let bytes ← fillBuffer n
      pure (0 :: bytes)

/-- `dram_get_read_rsp`, which counts with an `int`. -/
def dramGetReadRsp (length : UInt64) : Program Fault (Dramsys δ) Bytes :=
  if 2 ^ 31 ≤ length.toNat then throw .undefined else fillBuffer length.toNat

/-- `dram_get_read_rsp_byte`. -/
def dramGetReadRspByte : Program Fault (Dramsys δ) UInt8 := do
  let s ← get
  modifyConv fun c => c.dramGetReadRspByte.2
  pure s.conv.dramGetReadRspByte.1

/-- `dram_get_write_rsp`. -/
def dramGetWriteRsp : Program Fault (Dramsys δ) Nat := do
  let s ← get
  match s.conv.writeRspQueue with
  | [] => throw .undefined
  | _ :: queue => do
    modifyConv fun c => { c with writeRspQueue := queue }
    pure 1

/-! ## What they do -/

/-- The first bytes of the queue were taken. -/
def Dramsys.took (s : Dramsys δ) (n : Nat) : Dramsys δ :=
  { s with conv := { s.conv with readRspQueue := s.conv.readRspQueue.drop n } }

/-- What is handed out for `n` bytes: the queue, and then zeros. -/
def padded (queue : Bytes) (n : Nat) : Bytes :=
  queue.take n ++ List.replicate (n - queue.length) 0

theorem fillBuffer_eq (n : Nat) (s : Dramsys δ) :
    Returns (fillBuffer n) s (padded s.conv.readRspQueue n) (s.took n) := by
  induction n generalizing s with
  | zero => exact returns_pure.mpr ⟨by simp [padded], rfl⟩
  | succ n ih =>
    rw [fillBuffer, returns_get_bind]
    cases hqueue : s.conv.readRspQueue with
    | nil =>
      have hrest := ih s
      have htook : s.took n = s.took (n + 1) := by
        unfold Dramsys.took
        rw [hqueue, List.drop_nil, List.drop_nil]
      rw [hqueue, htook] at hrest
      refine hrest.bind (returns_pure.mpr ⟨?_, rfl⟩)
      simp [padded, List.replicate_succ]
    | cons byte queue =>
      have hrest := ih { s with conv := { s.conv with readRspQueue := queue } }
      have htook : Dramsys.took { s with conv := { s.conv with readRspQueue := queue } } n =
          s.took (n + 1) := by
        unfold Dramsys.took
        rw [hqueue, List.drop_succ_cons]
      rw [htook] at hrest
      refine returns_modify_bind.mpr (hrest.bind (returns_pure.mpr ⟨?_, rfl⟩))
      simp [padded]

theorem Conv.dramGetReadRspByte_snd (c : Conv) :
    c.dramGetReadRspByte.2 = { c with readRspQueue := c.readRspQueue.drop 1 } := by
  obtain ⟨_, _, _, _, queue, _, _⟩ := c
  cases queue <;> rfl

theorem dramGetReadRspByte_eq (s : Dramsys δ) :
    ∃ byte, Returns dramGetReadRspByte s byte (s.took 1) ∧
      padded s.conv.readRspQueue 1 = [byte] := by
  refine ⟨s.conv.dramGetReadRspByte.1, returns_get_bind.mpr (returns_modify_bind.mpr
    (returns_pure.mpr ⟨rfl, ?_⟩)), ?_⟩
  · change { s with conv := s.conv.dramGetReadRspByte.2 } = s.took 1
    rw [Conv.dramGetReadRspByte_snd]
    rfl
  · unfold Conv.dramGetReadRspByte padded
    cases s.conv.readRspQueue with
    | nil => rfl
    | cons byte queue => simp

/-! ## Runs -/

/-- One call that asks for bytes: how many `dram_has_read_rsp` promised, how many
were asked for, and what came. -/
structure Poll where
  available : Nat
  asked : Nat
  bytes : Bytes
deriving Repr, DecidableEq

/-- `dramsys_conv` with a user that may also poll. -/
structure PolledWorld where
  core : ConvWorld
  polls : List Poll
  /-- How often `dram_get_write_rsp` returned. -/
  writeRsps : Nat

namespace PolledWorld

def start : PolledWorld := ⟨.start, [], 0⟩

/-- After a call that asked for bytes and got them. -/
def polled (w : PolledWorld) (asked : Nat) (bytes : Bytes) (s : Dramsys Unit) : PolledWorld where
  core := { w.core with sys := s }
  polls := w.polls ++ [⟨w.core.sys.conv.readRspQueue.length, asked, bytes⟩]
  writeRsps := w.writeRsps

end PolledWorld

/-- An event, or a call between events. -/
inductive PollStep (ok : SendCall → Prop) (w : PolledWorld) : PolledWorld → Prop
  | event {core : ConvWorld} : ConvStep ok w.core core → PollStep ok w { w with core := core }
  | getReadRsp {length : UInt64} {bytes : Bytes} {s : Dramsys Unit} :
      Returns (dramGetReadRsp length) w.core.sys bytes s →
      PollStep ok w (w.polled length.toNat bytes s)
  | getReadRspByte {byte : UInt8} {s : Dramsys Unit} :
      Returns dramGetReadRspByte w.core.sys byte s → PollStep ok w (w.polled 1 [byte] s)
  | getWriteRsp {s : Dramsys Unit} :
      Returns dramGetWriteRsp w.core.sys 1 s →
      PollStep ok w { w with core := { w.core with sys := s }, writeRsps := w.writeRsps + 1 }

namespace PolledWorld

def Reached (ok : SendCall → Prop) (w : PolledWorld) : Prop :=
  Reachable (fun s => s = start) (PollStep ok) w

end PolledWorld

/-! ## What an event does to the queues -/

section Event

variable {s s' : Dramsys Unit}

/-- Each answered write is in `write_rsp_queue` or was taken from it. -/
def CountsWrites (taken : Nat) (responses : List (Nat × Bytes)) (s : Dramsys δ) : Prop :=
  taken + s.conv.writeRspQueue.length = (writeAnswers s.socket responses).length

theorem CountsWrites.sent {taken : Nat} {responses : List (Nat × Bytes)} {ps : List Payload}
    (h : CountsWrites taken responses s) (hlt : ∀ a ∈ responses, a.1 < s.socket.length)
    (hs : Sent s ps s') : CountsWrites taken responses s' := by
  unfold CountsWrites
  rw [hs.socket, writeAnswers_append hlt, hs.conv]
  exact h

theorem CountsWrites.step {taken : Nat} {w w' : ConvWorld}
    (h : CountsWrites taken w.responses w.sys) (hbuffers : Buffers ok w.ended w.responses w.sys)
    (hstep : ConvStep ok w w') : CountsWrites taken w'.responses w'.sys := by
  have hlt := hbuffers.answered_lt
  cases hstep with
  | send _ hrun => exact h.sent hlt (SendCall.sent_of_issue hrun)
  | @endReq user p s huser hp hrun =>
    obtain ⟨req, rest, _, _, hcall⟩ := peqEndReq_inv hrun
    have haccept : CountsWrites taken w.responses
        { w.sys with conv := w.sys.conv.acceptReq req rest } := by
      unfold CountsWrites Conv.acceptReq
      split <;> exact h
    obtain ⟨s', ps, hs', hsent, _⟩ := huser.returns_updateRequest
      { w.sys with conv := w.sys.conv.acceptReq req rest }
    obtain rfl := (hcall.unique hs').2
    exact haccept.sent hlt hsent
  | @beginResp user t p data s huser hmay hrun =>
    have hread := isReadAt_eq hmay.sent
    have hlt' : ∀ a ∈ w.responses ++ [(t, data)], a.1 < w.sys.socket.length := by
      intro a ha
      rcases List.mem_append.mp ha with ha | ha
      · exact hlt a ha
      · rw [List.mem_singleton.mp ha]
        exact (List.getElem?_eq_some_iff.mp hmay.sent).1
    have hcount := length_writeAnswers_append w.sys.socket w.responses t data
    unfold CountsWrites at h
    rw [hread] at hcount
    cases hc : p.command with
    | write =>
      obtain ⟨_, rest, _, hcall⟩ := peqBeginResp_write_inv hc hrun
      have hanswer : CountsWrites taken (w.responses ++ [(t, data)])
          { w.sys with conv := w.sys.conv.answerWrite rest } := by
        change taken + (w.sys.conv.writeRspQueue ++ [1]).length = _
        rw [hc] at hcount
        rw [hcount, List.length_append, ← Nat.add_assoc, h]
        rfl
      obtain ⟨s', ps, hs', hsent, _⟩ := huser.returns_response true
        { w.sys with conv := w.sys.conv.answerWrite rest }
      obtain rfl := (hcall.unique hs').2
      exact hanswer.sent hlt' hsent
    | read =>
      obtain ⟨req, _, hloop⟩ := peqBeginResp_read_inv hc hrun
      have hpark : CountsWrites taken (w.responses ++ [(t, data)])
          { w.sys with conv := w.sys.conv.parkRsp req (data.take req.len.toNat) } := by
        change taken + w.sys.conv.writeRspQueue.length = _
        rw [hc] at hcount
        rw [hcount, h]
        rfl
      refine (releaseReads_induct (J := fun v => CountsWrites taken (w.responses ++ [(t, data)]) v ∧
        w.sys.socket.length ≤ v.socket.length) ?_ ?_ ⟨hpark, le_refl _⟩ hloop).1
      · intro v req reqs rsp _ _ _ hv
        exact hv
      · rintro v v' ⟨hv, hle⟩ hcall
        obtain ⟨s', ps, hs', hsent, _⟩ := huser.returns_response false v
        obtain rfl := (hcall.unique hs').2
        refine ⟨hv.sent (fun a ha => lt_of_lt_of_le (hlt' a ha) hle) hsent, ?_⟩
        rw [hsent.socket, List.length_append]
        omega

end Event

/-! ## Every run -/

namespace PolledWorld

/-- The invariant: the bytes that were handed out and not made up, with what is
still queued, are what was pushed. -/
structure Follows (ok : SendCall → Prop) (w : PolledWorld) : Prop where
  buffers : Buffers ok w.core.ended w.core.responses w.core.sys
  drained : Drained w.core.sys
  holds : Holds (w.polls.flatMap fun p => p.bytes.take p.available) w.core.sys
  padding : ∀ p ∈ w.polls, p.bytes.length = p.asked ∧
    p.bytes.drop p.available = List.replicate (p.asked - p.available) 0
  writes : CountsWrites w.writeRsps w.core.responses w.core.sys

variable {w w' : PolledWorld}

/-- What the padding adds can be told from what was queued. -/
theorem padded_parts (queue : Bytes) (n : Nat) :
    (padded queue n).take queue.length = queue.take n ∧ (padded queue n).length = n ∧
      (padded queue n).drop queue.length = List.replicate (n - queue.length) 0 := by
  unfold padded
  rcases Nat.le_total n queue.length with hle | hge
  · have hzero : n - queue.length = 0 := by omega
    have hlen : (queue.take n).length = n := by rw [List.length_take]; omega
    rw [hzero, List.replicate_zero, List.append_nil]
    exact ⟨List.take_of_length_le (by omega), hlen, List.drop_eq_nil_of_le (by omega)⟩
  · rw [List.take_of_length_le hge]
    refine ⟨List.take_left, ?_, List.drop_left⟩
    rw [List.length_append, List.length_replicate]
    omega

theorem Follows.poll (h : Follows ok w) (n : Nat) :
    Follows ok (w.polled n (padded w.core.sys.conv.readRspQueue n) (w.core.sys.took n)) := by
  obtain ⟨htaken, hlength, hzeros⟩ := padded_parts w.core.sys.conv.readRspQueue n
  refine ⟨?_, h.drained, ?_, ?_, h.writes⟩
  · exact ⟨⟨h.buffers.order.ended_le, h.buffers.order.requests, h.buffers.order.accepted,
      h.buffers.order.lengths, h.buffers.order.reads⟩, h.buffers.calls, h.buffers.inflight,
      h.buffers.once, h.buffers.writes⟩
  · change w.core.sys.pushed = _ ++ w.core.sys.conv.readRspQueue.drop n
    rw [polled, List.flatMap_append, List.flatMap_singleton, htaken, List.append_assoc,
      List.take_append_drop]
    exact h.holds
  · intro p hp
    rcases List.mem_append.mp hp with hp | hp
    · exact h.padding p hp
    · rw [List.mem_singleton.mp hp]
      exact ⟨hlength, hzeros⟩

theorem Follows.step (h : Follows ok w) (hstep : PollStep ok w w') : Follows ok w' := by
  cases hstep with
  | event hcore =>
    obtain ⟨hbuffers, hdrained⟩ := hcore.buffers h.buffers h.drained
    exact ⟨hbuffers, hdrained, h.holds.step hcore, h.padding, h.writes.step h.buffers hcore⟩
  | @getReadRsp length bytes s hrun =>
    unfold dramGetReadRsp at hrun
    split at hrun
    · exact absurd hrun not_returns_throw
    · obtain ⟨rfl, rfl⟩ := hrun.unique (fillBuffer_eq length.toNat w.core.sys)
      exact h.poll length.toNat
  | @getReadRspByte byte s hrun =>
    obtain ⟨byte', hrun', hbyte⟩ := dramGetReadRspByte_eq w.core.sys
    obtain ⟨rfl, rfl⟩ := hrun.unique hrun'
    rw [← hbyte]
    exact h.poll 1
  | @getWriteRsp s hrun =>
    unfold dramGetWriteRsp at hrun
    rw [returns_get_bind] at hrun
    cases hqueue : w.core.sys.conv.writeRspQueue with
    | nil =>
      rw [hqueue] at hrun
      exact absurd hrun not_returns_throw
    | cons entry queue =>
      simp only [hqueue] at hrun
      unfold modifyConv at hrun
      rw [returns_modify_bind] at hrun
      obtain ⟨_, rfl⟩ := returns_pure.mp hrun
      refine ⟨⟨⟨h.buffers.order.ended_le, h.buffers.order.requests, h.buffers.order.accepted,
        h.buffers.order.lengths, h.buffers.order.reads⟩, h.buffers.calls, h.buffers.inflight,
        h.buffers.once, h.buffers.writes⟩, h.drained, h.holds, h.padding, ?_⟩
      have hwrites := h.writes
      unfold CountsWrites at hwrites
      rw [hqueue, List.length_cons] at hwrites
      change w.writeRsps + 1 + queue.length = _
      rw [← hwrites]
      omega

theorem Reached.follows (h : w.Reached ok) : Follows ok w := by
  refine Reachable.invariant (I := Follows ok) ?_ ?_ h
  · rintro _ rfl
    exact ⟨Buffers.start, (fun req reqs hlist => by cases hlist), rfl,
      fun _ hp => absurd hp List.not_mem_nil, rfl⟩
  · intro w w' _ hw hstep
    exact hw.step hstep

/-- The answered writes are those whose responses came. -/
theorem length_answeredWrites {w : ConvWorld} (h : Buffers ok w.ended w.responses w.sys) :
    (writeAnswers w.sys.socket w.responses).length =
      (w.acceptedWrites.filter fun t => decide (w.Answered t)).length := by
  have hwait := ConvWorld.length_writeReqList h
  have hsplit := List.length_eq_length_filter_add (l := w.acceptedWrites)
    fun t => decide (w.Answered t)
  have hwrites := h.writes
  change _ + _ = w.acceptedWrites.length at hwrites
  omega

end PolledWorld

/-- In every run, however the user mixes the calls that ask for bytes: what came
out of the queue, with what is still in it, is the data of the answered reads in
the order of the reads; what a call returned beyond that is zero; and every
answered write is reported once. -/
theorem polls_in_order {w : PolledWorld} (h : w.Reached ok) :
    (w.polls.flatMap fun p => p.bytes.take p.available) ++ w.core.sys.conv.readRspQueue =
        w.core.answeredReads.flatMap w.core.responseData ∧
      (∀ p ∈ w.polls, p.bytes.length = p.asked ∧
        p.bytes.drop p.available = List.replicate (p.asked - p.available) 0) ∧
      w.writeRsps + w.core.sys.conv.writeRspQueue.length =
        (w.core.acceptedWrites.filter fun t => decide (w.core.Answered t)).length := by
  have hw := h.follows
  refine ⟨?_, hw.padding, ?_⟩
  · rw [← ConvWorld.pushed_eq hw.buffers hw.drained]
    exact hw.holds.symm
  · rw [← PolledWorld.length_answeredWrites hw.buffers]
    exact hw.writes

namespace PolledWorld

variable {w : PolledWorld}

/-- After a call of `dram_get_read_rsp`. -/
def gotReadRsp (w : PolledWorld) (n : Nat) : PolledWorld :=
  w.polled n (padded w.core.sys.conv.readRspQueue n) (w.core.sys.took n)

theorem Reached.gotReadRsp (h : w.Reached ok) {n : UInt64} (hlt : n.toNat < 2 ^ 31) :
    (w.gotReadRsp n.toNat).Reached ok := by
  have hrun : Returns (dramGetReadRsp n) w.core.sys
      (padded w.core.sys.conv.readRspQueue n.toNat) (w.core.sys.took n.toNat) := by
    unfold dramGetReadRsp
    rw [if_neg (not_le.mpr hlt)]
    exact fillBuffer_eq n.toNat w.core.sys
  exact h.next (.getReadRsp hrun)

/-- A user that never polled. -/
theorem reached_of_core {core : ConvWorld} (h : core.Reached ok) :
    PolledWorld.Reached ok ⟨core, [], 0⟩ := by
  refine Reachable.invariant (I := fun core => PolledWorld.Reached ok ⟨core, [], 0⟩) ?_ ?_ h
  · rintro _ rfl
    exact .start rfl
  · intro core core' _ hcore hstep
    exact hcore.next (.event hstep)

end PolledWorld

/-- A read of five bytes that was answered. -/
def answeredRead : ConvWorld :=
  let a := ConvWorld.readCall 0 5 (by decide)
  ((ConvWorld.start.sent a).accepted a.payload).responded 0 a.payload [5, 6, 7, 8, 9]

/-- Three bytes are asked for, twice. -/
def polledTwice : PolledWorld :=
  (PolledWorld.gotReadRsp ⟨answeredRead, [], 0⟩ 3).gotReadRsp 3

theorem polls_in_order_twice :
    polledTwice.polls = [⟨5, 3, [5, 6, 7]⟩, ⟨2, 3, [8, 9, 0]⟩] ∧
      (polledTwice.polls.flatMap fun p => p.bytes.take p.available) ++
          polledTwice.core.sys.conv.readRspQueue =
        polledTwice.core.answeredReads.flatMap polledTwice.core.responseData := by
  have hread : answeredRead.Reached fun _ => True := by
    apply ConvWorld.Reached.responded
    · exact (ConvWorld.reached_start.sent trivial).accepted (by decide +kernel) (by decide +kernel)
    · refine ⟨by decide +kernel, by decide +kernel, by decide +kernel, by decide +kernel, ?_⟩
      intro _ t ht
      exact absurd ht (Nat.not_lt_zero t)
    · decide +kernel
  have hreached : polledTwice.Reached fun _ => True :=
    ((PolledWorld.reached_of_core hread).gotReadRsp (n := 3) (by decide)).gotReadRsp (n := 3)
      (by decide)
  exact ⟨by decide +kernel, (polls_in_order hreached).1⟩

end SoftHier.Dram
