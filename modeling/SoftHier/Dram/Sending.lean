/-
  Dram/Sending.lean --- what sending a request does.

  A call of `dram_send_req` appends transactions to the socket and to
  `all_req_list` and touches nothing else; so does `paraSendRequest`, up to the
  entry of a read in `pending_read_req_queue`.  The transactions are a function
  of the request and of the burst length.
-/
import SoftHier.Dram.Ddr

set_option autoImplicit false

namespace SoftHier.Dram

open SoftHier.Foundation Program

variable {δ : Type}

/-- What `dramsys_conv` remembers of a transaction. -/
def Payload.toReq (p : Payload) : Req := ⟨p.address, p.dataLength, decide (p.command = .write)⟩

/-- From `s` to `s'` the transactions `ps` were sent, and the write buffers may
have been filled. -/
structure Sent (s : Dramsys δ) (ps : List Payload) (s' : Dramsys δ) : Prop where
  socket : s'.socket = s.socket ++ ps
  conv : s'.conv = { s.conv with allReqList := s.conv.allReqList ++ ps.map Payload.toReq }
  burst : s'.burst = s.burst
  pushed : s'.pushed = s.pushed
  host : s'.host = s.host

namespace Sent

theorem refl (s : Dramsys δ) : Sent s [] s where
  socket := by rw [List.append_nil]
  conv := by rw [List.map_nil, List.append_nil]
  burst := rfl
  pushed := rfl
  host := rfl

theorem trans {s t u : Dramsys δ} {ps qs : List Payload} (h1 : Sent s ps t) (h2 : Sent t qs u) :
    Sent s (ps ++ qs) u where
  socket := by rw [h2.socket, h1.socket, List.append_assoc]
  conv := by rw [h2.conv, h1.conv, List.map_append, List.append_assoc]
  burst := h2.burst.trans h1.burst
  pushed := h2.pushed.trans h1.pushed
  host := h2.host.trans h1.host

end Sent

/-! ## One call of the library -/

theorem toReq_payloadOf (addr length : UInt64) (isWrite strobEnable : Bool) (buf strbBuf : Bytes) :
    (Conv.payloadOf addr length isWrite strobEnable buf strbBuf).toReq =
      ⟨addr, length.toUInt32, isWrite⟩ := by
  unfold Conv.payloadOf Payload.toReq
  cases isWrite <;> rfl

theorem conv_dramSendReq_sent {addr length : UInt64} {isWrite strobEnable : Bool}
    {buf strbBuf : Bytes} {s s' : Dramsys δ} {u : Unit}
    (h : Returns (Conv.dramSendReq addr length isWrite strobEnable buf strbBuf) s u s') :
    Sent s [Conv.payloadOf addr length isWrite strobEnable buf strbBuf] s' := by
  unfold Conv.dramSendReq at h
  split at h
  · exact absurd h not_returns_throw
  · split at h
    · exact absurd h not_returns_throw
    · rw [returns_modify_bind] at h
      have hs' := returns_modify.mp h
      rw [← hs']
      refine ⟨rfl, ?_, rfl, rfl, rfl⟩
      rw [List.map_singleton, toReq_payloadOf]

/-- The transactions of one call of the library's `dram_send_req`, whose buffers
begin with `buf` and `strbBuf`. -/
def burstsOf (burst addr length : UInt64) (isWrite strobEnable : Bool) (buf strbBuf : Bytes) :
    List Payload :=
  if isWrite && strobEnable && decide (burst < length) then
    (List.range (length / burst).toNat).map fun i =>
      Conv.payloadOf (addr + UInt64.ofNat i * burst) burst isWrite strobEnable
        (buf.drop (i * burst.toNat)) (strbBuf.drop (i * burst.toNat))
  else [Conv.payloadOf addr length isWrite strobEnable buf strbBuf]

/-- The library can cut a write of that length into bursts. -/
def Cuts (burst length : UInt64) (isWrite : Bool) : Prop :=
  isWrite = true → burst < length → burst ≠ 0 ∧ length % burst = 0

theorem sent_forEach {body : Nat → Program Fault (Dramsys δ) Unit} {f : Nat → Payload}
    (hbody : ∀ i s u s', Returns (body i) s u s' → Sent s [f i] s') {is : List Nat}
    {s s' : Dramsys δ} {u : Unit} (h : Returns (forEach body is) s u s') :
    Sent s (is.map f) s' := by
  induction is generalizing s with
  | nil =>
    rw [returns_forEach_nil] at h
    rw [← h]
    exact Sent.refl s
  | cons i is ih =>
    obtain ⟨t, hone, hrest⟩ := returns_forEach_cons.mp h
    exact (hbody i s () t hone).trans (ih hrest)

theorem dramSendReq_sent {addr length : UInt64} {isWrite : Bool} {s s' : Dramsys δ} {u : Unit}
    (h : Returns (dramSendReq addr length isWrite isWrite) s u s') :
    Cuts s.burst length isWrite ∧
      Sent s (burstsOf s.burst addr length isWrite isWrite s.wbuffer.bytes s.wstrobe.bytes) s' := by
  unfold dramSendReq at h
  rw [returns_get_bind] at h
  unfold burstsOf
  split at h
  next hcond =>
    rw [if_pos hcond]
    split at h
    · exact absurd h not_returns_throw
    next hzero =>
      split at h
      · exact absurd h not_returns_throw
      next hrem =>
        refine ⟨fun _ _ => ⟨hzero, not_not.mp hrem⟩, ?_⟩
        apply sent_forEach _ h
        intro i s u s' hi
        exact conv_dramSendReq_sent hi
  next hcond =>
    rw [if_neg hcond]
    refine ⟨fun hw hlt => absurd ?_ hcond, conv_dramSendReq_sent h⟩
    rw [hw]
    exact decide_eq_true hlt

/-- A whole burst of a buffer ends inside the buffer. -/
theorem burst_end_le {i b n : Nat} (hi : i < n / b) : i * b + b ≤ n :=
  calc i * b + b = (i + 1) * b := (Nat.succ_mul i b).symm
    _ ≤ n / b * b := Nat.mul_le_mul_right b hi
    _ ≤ n := Nat.div_mul_le_self n b

/-- Only the first `length` bytes of the buffers are sent. -/
theorem burstsOf_congr {burst addr length : UInt64} {isWrite strobEnable : Bool}
    {buf buf' strbBuf strbBuf' : Bytes}
    (hbuf : ∀ k n, k + n ≤ length.toNat → slice buf k n = slice buf' k n)
    (hstrb : ∀ k n, k + n ≤ length.toNat → slice strbBuf k n = slice strbBuf' k n) :
    burstsOf burst addr length isWrite strobEnable buf strbBuf =
      burstsOf burst addr length isWrite strobEnable buf' strbBuf' := by
  have hpiece : ∀ (a len : UInt64) (k : Nat), k + len.toNat ≤ length.toNat →
      Conv.payloadOf a len isWrite strobEnable (buf.drop k) (strbBuf.drop k) =
        Conv.payloadOf a len isWrite strobEnable (buf'.drop k) (strbBuf'.drop k) := by
    intro a len k hk
    have h32 : len.toUInt32.toNat ≤ len.toNat := by
      rw [UInt64.toNat_toUInt32]
      exact Nat.mod_le _ _
    have hb : (buf.drop k).take len.toUInt32.toNat = (buf'.drop k).take len.toUInt32.toNat :=
      hbuf k _ (by omega)
    have hs : (strbBuf.drop k).take len.toNat = (strbBuf'.drop k).take len.toNat :=
      hstrb k _ hk
    unfold Conv.payloadOf
    rw [hb, hs]
  unfold burstsOf
  split
  next hcond =>
    apply List.map_congr_left
    intro i hi
    apply hpiece
    rw [List.mem_range, UInt64.toNat_div] at hi
    exact burst_end_le hi
  next hcond =>
    have := hpiece addr length 0 (by omega)
    rw [List.drop_zero, List.drop_zero, List.drop_zero, List.drop_zero] at this
    rw [this]

/-! ## The lines of a request -/

namespace IoReq

variable (r : IoReq)

/-- The transactions of line `iter`. -/
def lineTransactions (burst : UInt64) (iter : Nat) (line : Bytes) (mask : List Bool) :
    List Payload :=
  burstsOf burst (r.startAddr + UInt64.ofNat iter * granularity) granularity r.isWrite r.isWrite
    line (mask.map byteEnabled)

/-- The transactions a request is sent as. -/
def transactions (burst : UInt64) : List Payload :=
  (List.range r.numReq.toNat).flatMap fun iter =>
    r.lineTransactions burst iter (slice r.lineData (64 * iter) 64) (slice r.masks (64 * iter) 64)

theorem length_masks : r.masks.length = r.numBytes := by
  rw [masks, List.length_map, List.length_range]

/-- What the C++ code leaves undefined, or the library refuses, does not happen. -/
structure Sendable (burst : UInt64) : Prop where
  bounded : r.numBytes < 2 ^ 31
  filled : r.numReq.toNat * 64 ≤ r.numBytes
  cuts : Cuts burst granularity r.isWrite

end IoReq

theorem sendLines_sent {r : IoReq} {n iter : Nat} {maskQ : List Bool} {dataQ : Bytes}
    {s s' : Dramsys Ddr} {u : Unit} (h : Returns (sendLines r iter n maskQ dataQ) s u s') :
    n * 64 ≤ maskQ.length ∧ (n = 0 ∨ Cuts s.burst granularity r.isWrite) ∧
      Sent s ((List.range n).flatMap fun j => r.lineTransactions s.burst (iter + j)
        (slice dataQ (64 * j) 64) (slice maskQ (64 * j) 64)) s' := by
  induction n generalizing iter maskQ dataQ s with
  | zero =>
    rw [sendLines, returns_pure] at h
    rw [← h.2]
    exact ⟨by omega, .inl rfl, Sent.refl s⟩
  | succ n ih =>
    rw [sendLines] at h
    split at h
    · exact absurd h not_returns_throw
    next hlen =>
      rw [not_or, not_lt, not_lt] at hlen
      rw [returns_modify_bind] at h
      obtain ⟨_, t, hsend, hrest⟩ := returns_bind.mp h
      obtain ⟨hcuts, hline⟩ := dramSendReq_sent hsend
      obtain ⟨hmask, _, hlines⟩ := ih hrest
      rw [List.length_drop] at hmask
      refine ⟨by omega, .inr hcuts, ?_⟩
      have hfirst : burstsOf s.burst (r.startAddr + UInt64.ofNat iter * granularity) granularity
          r.isWrite r.isWrite (s.wbuffer.fill (dataQ.take 64)).bytes
          (s.wstrobe.fill ((maskQ.take 64).map byteEnabled)).bytes =
            r.lineTransactions s.burst (iter + 0) (slice dataQ (64 * 0) 64)
              (slice maskQ (64 * 0) 64) := by
        apply burstsOf_congr
        · intro k n hk
          change k + n ≤ 64 at hk
          apply Buffer.slice_fill <;> rw [List.length_take] <;> omega
        · intro k n hk
          change k + n ≤ 64 at hk
          apply Buffer.slice_fill <;> rw [List.length_map, List.length_take] <;> omega
      have hburst : t.burst = s.burst := hline.burst
      have hshift : (List.range n).flatMap (fun j => r.lineTransactions t.burst (iter + 1 + j)
            (slice (dataQ.drop 64) (64 * j) 64) (slice (maskQ.drop 64) (64 * j) 64)) =
          (List.range n).flatMap fun j => r.lineTransactions s.burst (iter + (j + 1))
            (slice dataQ (64 * (j + 1)) 64) (slice maskQ (64 * (j + 1)) 64) := by
        apply List.flatMap_congr
        intro j _
        rw [hburst, show iter + 1 + j = iter + (j + 1) by omega]
        unfold slice
        rw [List.drop_drop, List.drop_drop, show 64 + 64 * j = 64 * (j + 1) by omega]
      rw [List.range_succ_eq_map, List.flatMap_cons, List.flatMap_map, ← hfirst]
      rw [hshift] at hlines
      exact { (hline.trans hlines) with }

/-! ## One request -/

namespace IoReq

variable {r : IoReq} {burst : UInt64}

/-- The entry of a read in `pending_read_req_queue`. -/
def pendingReads (r : IoReq) : List PendingRead :=
  if r.isWrite then [] else [⟨r, r.masks, r.data⟩]

theorem numReq_toNat (r : IoReq) :
    r.numReq.toNat = 1 + (r.offset + r.size - 1 - r.startAddr).toNat / 64 := by
  have h6 : (granClog.toNat % 64) = 6 := rfl
  have h1 : (1 : UInt64).toNat = 1 := rfl
  have hlt := (r.offset + r.size - 1 - r.startAddr).toNat_lt
  unfold numReq
  rw [UInt64.toNat_add, UInt64.toNat_shiftRight, h6, h1, Nat.shiftRight_eq_div_pow]
  apply Nat.mod_eq_of_lt
  omega

theorem Sendable.numBytes_eq (h : r.Sendable burst) : r.numBytes = r.numReq.toNat * 64 := by
  have hle : r.numBytes ≤ 64 * r.numReq.toNat := by
    unfold numBytes
    rw [UInt64.toNat_mul]
    exact Nat.mod_le _ _
  have := h.filled
  omega

/-- How many transactions a line is sent as. -/
def perLine (r : IoReq) (burst : UInt64) : Nat :=
  if r.isWrite = true ∧ burst.toNat < 64 then 64 / burst.toNat else 1

theorem length_lineTransactions (iter : Nat) (line : Bytes) (mask : List Bool) :
    (r.lineTransactions burst iter line mask).length = r.perLine burst := by
  have hlt : burst < granularity ↔ burst.toNat < 64 := UInt64.lt_iff_toNat_lt
  unfold lineTransactions burstsOf perLine
  cases hw : r.isWrite with
  | false => simp
  | true =>
    by_cases hb : burst.toNat < 64
    · have hdiv : (granularity / burst).toNat = 64 / burst.toNat := UInt64.toNat_div _ _
      simp [hlt.mpr hb, hb, hdiv]
    · simp [mt hlt.mp hb, hb]

theorem length_transactions (r : IoReq) (burst : UInt64) :
    (r.transactions burst).length = r.numReq.toNat * r.perLine burst := by
  unfold transactions
  rw [List.length_flatMap, List.map_congr_left fun iter _ => length_lineTransactions iter _ _,
    List.map_const', List.length_range, List.sum_replicate_nat]

/-- A line is cut into bursts of the same length. -/
theorem Sendable.burst_dvd (h : r.Sendable burst) (hwrite : r.isWrite = true)
    (hlt : burst.toNat < 64) : 0 < burst.toNat ∧ burst.toNat ∣ 64 := by
  have hcuts := h.cuts hwrite (UInt64.lt_iff_toNat_lt.mpr hlt)
  refine ⟨Nat.pos_of_ne_zero fun h0 => hcuts.1 (UInt64.toNat_inj.mp h0), ?_⟩
  have hrem := congrArg UInt64.toNat hcuts.2
  rw [UInt64.toNat_mod] at hrem
  exact Nat.dvd_of_mod_eq_zero hrem

theorem Sendable.perLine_pos (h : r.Sendable burst) : 0 < r.perLine burst := by
  unfold perLine
  split
  next hcond =>
    obtain ⟨hpos, -⟩ := h.burst_dvd hcond.1 hcond.2
    exact Nat.div_pos (by omega) hpos
  · exact Nat.one_pos

/-- A request is sent as one transaction at least. -/
theorem Sendable.transactions_ne_nil (h : r.Sendable burst) : r.transactions burst ≠ [] := by
  apply List.ne_nil_of_length_pos
  rw [length_transactions]
  apply Nat.mul_pos _ h.perLine_pos
  rw [numReq_toNat]
  omega

end IoReq

/-- From `s` to `s'` the request `r` was sent. -/
structure HandedOver (s : Dramsys Ddr) (r : IoReq) (s' : Dramsys Ddr) : Prop where
  sendable : r.Sendable s.burst
  socket : s'.socket = s.socket ++ r.transactions s.burst
  conv : s'.conv = { s.conv with
    allReqList := s.conv.allReqList ++ (r.transactions s.burst).map Payload.toReq }
  burst : s'.burst = s.burst
  pushed : s'.pushed = s.pushed
  host : s'.host = { s.host with
    log := s.host.log ++ [.handOver r s.socket.length s'.socket.length]
    pendingReadReqQueue := s.host.pendingReadReqQueue ++ r.pendingReads }

theorem paraSendRequest_handedOver {r : IoReq} {s s' : Dramsys Ddr} {u : Unit}
    (h : Returns (paraSendRequest r) s u s') : HandedOver s r s' := by
  unfold paraSendRequest at h
  split at h
  · exact absurd h not_returns_throw
  next hbound =>
    rw [not_le] at hbound
    rw [returns_get_bind] at h
    obtain ⟨_, t, hlines, h⟩ := returns_bind.mp h
    rw [returns_get_bind] at h
    obtain ⟨hfill, hcuts, hsent⟩ := sendLines_sent hlines
    have hsendable : r.Sendable s.burst := by
      refine ⟨hbound, ?_, ?_⟩
      · rw [IoReq.masks, List.length_map, List.length_range] at hfill
        exact hfill
      · refine hcuts.resolve_left ?_
        rw [IoReq.numReq_toNat]
        omega
    have htrans : t.socket = s.socket ++ r.transactions s.burst := by
      rw [hsent.socket, IoReq.transactions]
      simp only [Nat.zero_add]
    have hconv : t.conv = { s.conv with
        allReqList := s.conv.allReqList ++ (r.transactions s.burst).map Payload.toReq } := by
      rw [hsent.conv, IoReq.transactions]
      simp only [Nat.zero_add]
    obtain ⟨_, v, hlog, h⟩ := returns_bind.mp h
    have hv := returns_modify.mp hlog
    cases hw : r.isWrite with
    | true =>
      rw [hw, if_pos rfl, returns_pure] at h
      rw [← h.2, ← hv]
      refine ⟨hsendable, htrans, hconv, hsent.burst, hsent.pushed, ?_⟩
      rw [IoReq.pendingReads, hw, if_pos rfl, List.append_nil, hsent.host]
    | false =>
      rw [hw, if_neg Bool.false_ne_true] at h
      rw [← returns_modify.mp h, ← hv]
      refine ⟨hsendable, htrans, hconv, hsent.burst, hsent.pushed, ?_⟩
      rw [IoReq.pendingReads, hw, if_neg Bool.false_ne_true, hsent.host]

namespace HandedOver

variable {s s' : Dramsys Ddr} {r : IoReq}

/-- Nothing more is accepted once a request was sent. -/
theorem dramCanAcceptReq (h : HandedOver s r s') : s'.conv.dramCanAcceptReq = false := by
  have hpos := List.length_pos_of_ne_nil h.sendable.transactions_ne_nil
  unfold Conv.dramCanAcceptReq maxPendingReq
  rw [decide_eq_false_iff_not, h.conv]
  simp only [List.length_append, List.length_map]
  omega

end HandedOver

end SoftHier.Dram
