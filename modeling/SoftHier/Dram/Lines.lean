/-
  Dram/Lines.lean --- the 64-bit arithmetic of lines.

  `ddr` computes the lines of a request in unsigned 64-bit arithmetic.  The
  numbers below are what comes out of it: for every request as a remainder, and
  without one for a request that lies below 2^30.
-/
import SoftHier.Dram.Sending

set_option autoImplicit false

namespace SoftHier.Dram

open SoftHier.Foundation

namespace IoReq

variable {r : IoReq}

theorem startAddr_toNat (r : IoReq) : r.startAddr.toNat = r.offset.toNat / 64 * 64 := by
  have h6 : granClog.toNat % 64 = 6 := rfl
  have hlt := r.offset.toNat_lt
  unfold startAddr
  rw [UInt64.toNat_shiftLeft, UInt64.toNat_shiftRight, h6, Nat.shiftLeft_eq,
    Nat.shiftRight_eq_div_pow]
  apply Nat.mod_eq_of_lt
  omega

/-- Where in its first line a request starts. -/
theorem offset_sub_startAddr (r : IoReq) :
    (r.offset - r.startAddr).toNat = r.offset.toNat % 64 := by
  have hlt := r.offset.toNat_lt
  rw [UInt64.toNat_sub, startAddr_toNat]
  omega

/-- Where, counted from the start of the first line, the last byte lies. -/
theorem last_toNat (r : IoReq) : (r.offset + r.size - 1 - r.startAddr).toNat =
    (r.offset.toNat % 64 + r.size.toNat + (2 ^ 64 - 1)) % 2 ^ 64 := by
  have h1 : (1 : UInt64).toNat = 1 := rfl
  have hlt := r.offset.toNat_lt
  rw [UInt64.toNat_sub, UInt64.toNat_sub, UInt64.toNat_add, startAddr_toNat, h1]
  omega

/-- Where, counted from the start of the first line, the request ends. -/
theorem end_toNat (r : IoReq) : (r.offset + r.size - r.startAddr).toNat =
    (r.offset.toNat % 64 + r.size.toNat) % 2 ^ 64 := by
  have hlt := r.offset.toNat_lt
  rw [UInt64.toNat_sub, UInt64.toNat_add, startAddr_toNat]
  omega

/-! ## One transaction -/

/-- The request lies in one 64-byte line, its size taken modulo 2^64, and, if it
is a write, a burst holds a line. -/
def Single (r : IoReq) (burst : UInt64) : Prop :=
  (r.offset.toNat % 64 + r.size.toNat - 1) % 2 ^ 64 < 64 ∧ (r.isWrite = true → 64 ≤ burst.toNat)

instance (r : IoReq) (burst : UInt64) : Decidable (r.Single burst) :=
  inferInstanceAs (Decidable (_ ∧ _))

/-- A request is sent as one transaction exactly if it is `Single`. -/
theorem Sendable.length_transactions_le_iff {burst : UInt64} (h : r.Sendable burst) :
    (r.transactions burst).length ≤ maxPendingReq ↔ r.Single burst := by
  have hnum := r.numReq_toNat
  rw [last_toNat] at hnum
  have hbound := h.bounded
  rw [h.numBytes_eq] at hbound
  have hper : r.perLine burst ≤ 1 ↔ (r.isWrite = true → 64 ≤ burst.toNat) := by
    unfold perLine
    split
    next hcond =>
      obtain ⟨-, hdvd⟩ := h.burst_dvd hcond.1 hcond.2
      have hmul : burst.toNat * (64 / burst.toNat) = 64 := Nat.mul_div_cancel' hdvd
      constructor
      · intro hle
        have hmul' : burst.toNat * (64 / burst.toNat) ≤ burst.toNat * 1 := Nat.mul_le_mul_left _ hle
        omega
      · intro hle
        have := hle hcond.1
        omega
    next hcond =>
      rw [not_and, not_lt] at hcond
      exact ⟨fun _ => hcond, fun _ => le_refl 1⟩
  have hpos := h.perLine_pos
  have hlines : r.numReq.toNat = 1 ↔ (r.offset.toNat % 64 + r.size.toNat - 1) % 2 ^ 64 < 64 := by
    omega
  rw [length_transactions]
  unfold Single maxPendingReq
  rw [← hlines, ← hper]
  constructor
  · intro hle
    have h1 : r.numReq.toNat * 1 ≤ 1 := le_trans (Nat.mul_le_mul_left _ hpos) hle
    have h2 : r.numReq.toNat = 1 := by omega
    rw [h2, Nat.one_mul] at hle
    exact ⟨h2, hle⟩
  · rintro ⟨h1, h2⟩
    rw [h1, Nat.one_mul]
    exact h2

/-! ## Requests below 2^30 -/

/-- The requests the component is meant for. -/
structure InRange (r : IoReq) : Prop where
  base : baseAddr ≤ r.addr
  size_pos : 1 ≤ r.size.toNat
  fits : r.offset.toNat + r.size.toNat ≤ 2 ^ 30

instance (r : IoReq) : Decidable r.InRange :=
  decidable_of_iff (baseAddr ≤ r.addr ∧ 1 ≤ r.size.toNat ∧ r.offset.toNat + r.size.toNat ≤ 2 ^ 30)
    ⟨fun h => ⟨h.1, h.2.1, h.2.2⟩, fun h => ⟨h.base, h.size_pos, h.fits⟩⟩

theorem InRange.numReq_toNat (h : r.InRange) :
    r.numReq.toNat = 1 + (r.offset.toNat % 64 + r.size.toNat - 1) / 64 := by
  have hfits := h.fits
  have hpos := h.size_pos
  rw [IoReq.numReq_toNat, last_toNat]
  omega

theorem InRange.numBytes_eq (h : r.InRange) : r.numBytes = 64 * r.numReq.toNat := by
  have hfits := h.fits
  have h64 : granularity.toNat = 64 := rfl
  unfold numBytes
  rw [UInt64.toNat_mul, h64, h.numReq_toNat]
  omega

/-- The lines hold the request. -/
theorem InRange.end_le_numBytes (h : r.InRange) :
    r.offset.toNat % 64 + r.size.toNat ≤ r.numBytes := by
  have hpos := h.size_pos
  rw [h.numBytes_eq, h.numReq_toNat]
  omega

theorem InRange.numBytes_lt (h : r.InRange) : r.numBytes < 2 ^ 32 := by
  have hfits := h.fits
  rw [h.numBytes_eq, h.numReq_toNat]
  omega

theorem InRange.covers_iff (h : r.InRange) {n : Nat} (hn : n < r.numBytes) :
    r.covers (UInt64.ofNat n) = true ↔
      r.offset.toNat % 64 ≤ n ∧ n < r.offset.toNat % 64 + r.size.toNat := by
  have hfits := h.fits
  have hlt := h.numBytes_lt
  unfold covers
  rw [Bool.and_eq_true, decide_eq_true_iff, decide_eq_true_iff, UInt64.le_iff_toNat_le,
    UInt64.lt_iff_toNat_lt, offset_sub_startAddr, end_toNat, UInt64.toNat_ofNat']
  omega

/-- Where byte `n` of the lines goes in the request's data. -/
theorem InRange.dataIndex (h : r.InRange) {n : Nat} (hn : n < r.numBytes)
    (hstart : r.offset.toNat % 64 ≤ n) :
    (UInt64.ofNat n - (r.offset - r.startAddr)).toNat = n - r.offset.toNat % 64 := by
  have hlt := h.numBytes_lt
  rw [UInt64.toNat_sub, offset_sub_startAddr, UInt64.toNat_ofNat']
  omega

/-- `read_ptr` counts the bytes that came back. -/
theorem InRange.readPtr (h : r.InRange) {n : Nat} (hn : n ≤ r.numBytes) :
    r.numReq * granularity - UInt64.ofNat (r.numBytes - n) = UInt64.ofNat n := by
  have hlt := h.numBytes_lt
  have hmul : (r.numReq * granularity).toNat = r.numBytes := by
    unfold numBytes
    rw [UInt64.mul_comm]
  apply UInt64.toNat_inj.mp
  rw [UInt64.toNat_sub, hmul, UInt64.toNat_ofNat', UInt64.toNat_ofNat']
  omega

/-- The address of line `j`. -/
theorem lineAddr (r : IoReq) (j : Nat) : r.startAddr + UInt64.ofNat j * granularity =
    UInt64.ofNat ((r.offset.toNat / 64 + j) * 64) := by
  have h64 : granularity.toNat = 64 := rfl
  apply UInt64.toNat_inj.mp
  rw [UInt64.toNat_add, UInt64.toNat_mul, startAddr_toNat, UInt64.toNat_ofNat',
    UInt64.toNat_ofNat', h64]
  omega

/-! ## The transactions of reads and writes -/

/-- Line `j` of a read. -/
def readLine (r : IoReq) (j : Nat) : Payload :=
  ⟨.read, r.startAddr + UInt64.ofNat j * granularity, 64, [], []⟩

theorem transactions_of_read (h : r.isWrite = false) (burst : UInt64) :
    r.transactions burst = (List.range r.numReq.toNat).map r.readLine := by
  unfold transactions
  rw [List.map_eq_flatMap]
  apply List.flatMap_congr
  intro j _
  unfold lineTransactions burstsOf Conv.payloadOf
  rw [h]
  rfl

theorem command_of_write (h : r.isWrite = true) (burst : UInt64) :
    ∀ p ∈ r.transactions burst, p.command = .write := by
  intro p hp
  unfold transactions at hp
  rw [List.mem_flatMap] at hp
  obtain ⟨j, _, hp⟩ := hp
  unfold lineTransactions burstsOf at hp
  rw [h] at hp
  split at hp
  · rw [List.mem_map] at hp
    obtain ⟨i, _, rfl⟩ := hp
    rfl
  · rw [List.mem_singleton] at hp
    rw [hp]
    rfl

end IoReq

/-- A read of the last byte of a line and the first of the next. -/
def straddlingRead : IoReq := ⟨0, 0x8000003f, 2, false, [0, 0], rfl⟩

example : ¬ straddlingRead.Single 64 := by decide

end SoftHier.Dram
