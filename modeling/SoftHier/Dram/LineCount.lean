/-
  Dram/LineCount.lean --- how many lines a request is sent as.

  `paraSendRequest` counts lines as one more than the number of the last byte
  over 64.  For a request of no bytes there is no last byte: the subtraction
  goes one below the first byte of the request, and below zero when that is the
  first byte of a line.
-/
import SoftHier.Dram.Assembly
import SoftHier.Dram.WriteImage
import Mathlib.Order.Interval.Finset.Nat

set_option autoImplicit false

namespace SoftHier.Dram

open SoftHier.Foundation Program

/-! ## The bytes of a read, one after the other -/

namespace PendingRead

/-- `read_ptr` for the next byte. -/
def readPtr (p : PendingRead) : UInt64 :=
  p.req.numReq * granularity - UInt64.ofNat p.mask.length

/-- The subtraction of `read_ptr` does not go below zero. -/
def NoUnderflow (p : PendingRead) : Prop := p.mask.length ≤ (p.req.numReq * granularity).toNat

/-- Take some bytes: the read as each byte found it, and the read afterwards.
`none` when a mask is popped empty. -/
def takeBytes (p : PendingRead) : Bytes → Option (List PendingRead × PendingRead)
  | [] => some ([], p)
  | byte :: bytes => do
    let p' ← p.takeByte byte
    let (found, q) ← p'.takeBytes bytes
    some (p :: found, q)

end PendingRead

namespace IoReq

variable {r : IoReq}

/-! ## Lines -/

/-- The 64-byte lines that hold bytes of the request. -/
def lines (r : IoReq) : Finset Nat :=
  (Finset.range r.size.toNat).image fun k => (r.offset.toNat + k) / 64

theorem lines_eq_Icc (h : 1 ≤ r.size.toNat) : r.lines =
    Finset.Icc (r.offset.toNat / 64) ((r.offset.toNat + r.size.toNat - 1) / 64) := by
  ext line
  unfold lines
  rw [Finset.mem_image, Finset.mem_Icc]
  constructor
  · rintro ⟨k, hk, rfl⟩
    rw [Finset.mem_range] at hk
    omega
  · rintro ⟨hlow, hhigh⟩
    by_cases hfirst : line = r.offset.toNat / 64
    · exact ⟨0, Finset.mem_range.mpr (by omega), by omega⟩
    · -- the first byte of a later line
      exact ⟨64 * line - r.offset.toNat, Finset.mem_range.mpr (by omega), by omega⟩

theorem lines_of_size_zero (h : r.size.toNat = 0) : r.lines = ∅ := by
  unfold lines
  rw [h]
  rfl

theorem InRange.numReq_eq_card (h : r.InRange) : r.numReq.toNat = r.lines.card := by
  have hpos := h.size_pos
  rw [h.numReq_toNat, lines_eq_Icc hpos, Nat.card_Icc]
  omega

/-! ## Reading back -/

/-- While bytes of its lines come back, `read_ptr` counts them. -/
theorem InRange.takeBytes (h : r.InRange) (rest : Bytes) : ∀ bytes : Bytes,
    bytes.length + rest.length ≤ r.numBytes →
    ∃ found, (r.pendingAfter bytes).takeBytes rest = some (found, r.pendingAfter (bytes ++ rest)) ∧
      found.map (fun p => p.readPtr.toNat) = List.range' bytes.length rest.length ∧
      ∀ p ∈ found, p.NoUnderflow := by
  induction rest with
  | nil =>
    intro bytes _
    exact ⟨[], by rw [List.append_nil]; rfl, rfl, by simp⟩
  | cons byte rest ih =>
    intro bytes hlen
    rw [List.length_cons] at hlen
    obtain ⟨found, hfound, hptrs, hunder⟩ := ih (bytes ++ [byte])
      (by rw [List.length_append, List.length_singleton]; omega)
    have hmask : (r.pendingAfter bytes).mask.length = r.numBytes - bytes.length := by
      change (r.masks.drop bytes.length).length = _
      rw [List.length_drop, length_masks]
    have hptr : (r.pendingAfter bytes).readPtr.toNat = bytes.length := by
      have hlt := h.numBytes_lt
      have hread := h.readPtr (n := bytes.length) (by omega)
      unfold PendingRead.readPtr
      rw [hmask]
      change (r.numReq * granularity - _).toNat = _
      rw [hread, UInt64.toNat_ofNat', Nat.mod_eq_of_lt (by omega)]
    have hno : (r.pendingAfter bytes).NoUnderflow := by
      unfold PendingRead.NoUnderflow
      rw [hmask]
      change _ ≤ (r.numReq * granularity).toNat
      rw [UInt64.mul_comm]
      exact Nat.sub_le _ _
    refine ⟨r.pendingAfter bytes :: found, ?_, ?_, ?_⟩
    · unfold PendingRead.takeBytes
      rw [h.takeByte (by omega) byte]
      rw [List.append_assoc, List.singleton_append] at hfound
      simp only [Option.bind_eq_bind, Option.bind_some, hfound]
    · rw [List.map_cons, hptr, hptrs, List.length_append, List.length_singleton, List.length_cons,
        List.range'_succ]
    · intro p hp
      rcases List.mem_cons.mp hp with rfl | hp
      · exact hno
      · exact hunder p hp

/-! ## Requests of every size -/

/-- `paraSendRequest` runs to its end, and sends each line that holds bytes of
the request as one line transaction, and nothing else; it takes all entries of
`data_q` and `mask_q`, 64 a line; and the bytes that come back for a read are
counted from 0 by `read_ptr`. -/
structure SentByLines (r : IoReq) (s : Dramsys Ddr) : Prop where
  lines : r.numReq.toNat = r.lines.card
  sent : ∃ s', Returns (paraSendRequest r) s () s' ∧
    s'.socket = s.socket ++ (List.range r.lines.card).flatMap fun line =>
      r.lineTransactions s.burst line (slice r.lineData (64 * line) 64)
        (slice r.masks (64 * line) 64)
  drained : r.lineData.length = 64 * r.lines.card ∧ r.masks.length = 64 * r.lines.card
  counted : r.isWrite = false → ∀ bytes : Bytes, bytes.length = 64 * r.lines.card →
    ∃ found q, (⟨r, r.masks, r.data⟩ : PendingRead).takeBytes bytes = some (found, q) ∧
      q.mask = [] ∧ found.map (fun p => p.readPtr.toNat) = List.range (64 * r.lines.card) ∧
      ∀ p ∈ found, p.NoUnderflow

/-- The library can send a line of the request: it is read, or it is no longer
than a burst, or it is cut into bursts. -/
def LinesAccepted (r : IoReq) (burst : UInt64) : Prop :=
  r.isWrite = true → 64 ≤ burst.toNat ∨ burst.toNat ∣ 64

instance (r : IoReq) (burst : UInt64) : Decidable (r.LinesAccepted burst) :=
  inferInstanceAs (Decidable (_ → _))

theorem InRange.sendable_of_accepted (h : r.InRange) {burst : UInt64}
    (hburst : r.LinesAccepted burst) : r.Sendable burst := by
  cases hw : r.isWrite with
  | true => exact h.sendable (hburst hw)
  | false =>
    have hline : r.Sendable 64 := h.sendable (.inl (le_refl 64))
    refine ⟨hline.bounded, hline.filled, fun hwrite => ?_⟩
    rw [hw] at hwrite
    cases hwrite

theorem InRange.sentByLines (h : r.InRange) {s : Dramsys Ddr}
    (hburst : r.LinesAccepted s.burst) : r.SentByLines s := by
  have hcard := h.numReq_eq_card
  have hbytes := h.numBytes_eq
  refine ⟨hcard, ?_, ?_, ?_⟩
  · obtain ⟨s', hs'⟩ := (h.sendable_of_accepted hburst).returns
    refine ⟨s', hs', ?_⟩
    rw [(paraSendRequest_handedOver hs').socket, transactions, hcard]
  · rw [length_lineData, length_masks, hbytes, hcard]
    exact ⟨rfl, rfl⟩
  · intro _ bytes hlen
    rw [← hcard, ← hbytes] at hlen
    obtain ⟨found, hfound, hptrs, hunder⟩ := h.takeBytes bytes []
      (by rw [List.length_nil]; omega)
    rw [pendingAfter_nil] at hfound
    refine ⟨found, _, hfound, ?_, ?_, hunder⟩
    · change r.masks.drop bytes.length = []
      rw [List.drop_eq_nil_iff, length_masks]
      omega
    · rw [hptrs, hlen, hbytes, hcard, List.length_nil, List.range_eq_range']

/-- For every request from BASE_ADDR on that ends within 2^30 bytes, of any size:
it is sent line by line exactly when it has a byte and the library accepts its
lines. -/
theorem sentByLines_iff (hbase : baseAddr ≤ r.addr)
    (hfits : r.offset.toNat + r.size.toNat ≤ 2 ^ 30) (s : Dramsys Ddr) :
    r.SentByLines s ↔ 1 ≤ r.size.toNat ∧ r.LinesAccepted s.burst := by
  constructor
  · intro h
    have hpos : 1 ≤ r.size.toNat := by
      by_contra hzero
      have hcard := h.lines
      rw [lines_of_size_zero (by omega), Finset.card_empty, IoReq.numReq_toNat] at hcard
      omega
    refine ⟨hpos, fun hw => ?_⟩
    by_contra hburst
    rw [not_or, not_le] at hburst
    obtain ⟨t, hraises, -⟩ :=
      raises_paraSendRequest hw ⟨hbase, hpos, hfits⟩ hburst.1 hburst.2
    obtain ⟨s', hreturns, -⟩ := h.sent
    unfold Raises at hraises
    unfold Returns at hreturns
    rw [hraises] at hreturns
    cases hreturns
  · rintro ⟨hpos, hburst⟩
    exact InRange.sentByLines ⟨hbase, hpos, hfits⟩ hburst

/-- Two bytes across a line boundary are two lines. -/
theorem sentByLines_iff_straddling :
    straddlingRead.SentByLines (World.start 64).sys ∧ straddlingRead.lines.card = 2 :=
  ⟨(sentByLines_iff (by decide) (by decide) _).mpr (by decide), by decide⟩

/-- A read of no bytes inside a line. -/
def emptyRead : IoReq := ⟨0, 0x80000004, 0, false, [], rfl⟩

/-- It is sent as one line, though no line holds a byte of it. -/
theorem not_sentByLines : ¬ ∀ (r : IoReq) (s : Dramsys Ddr), baseAddr ≤ r.addr →
    r.offset.toNat + r.size.toNat ≤ 2 ^ 30 → r.LinesAccepted s.burst → r.SentByLines s := by
  intro h
  have hsent := h emptyRead (World.start 64).sys (by decide) (by decide) (by decide)
  exact absurd hsent.lines (by decide)

/-- At the start of a line a request of no bytes reads from an empty queue. -/
theorem raises_of_empty_aligned (hsize : r.size = 0) (haligned : r.offset.toNat % 64 = 0)
    (s : Dramsys Ddr) : Raises (paraSendRequest r) s .undefined s := by
  have hsize' : r.size.toNat = 0 := by rw [hsize]; rfl
  have hnum : r.numReq.toNat = 2 ^ 58 := by
    rw [IoReq.numReq_toNat, last_toNat, hsize', haligned]
    rfl
  have hbytes : r.numBytes = 0 := by
    have h64 : granularity.toNat = 64 := rfl
    unfold numBytes
    rw [UInt64.toNat_mul, h64, hnum]
    rfl
  obtain ⟨n, hn⟩ : ∃ n, (2 : Nat) ^ 58 = n + 1 := ⟨2 ^ 58 - 1, rfl⟩
  have hmasks : r.masks.length < 64 := by
    rw [length_masks, hbytes]
    decide
  unfold paraSendRequest
  rw [hbytes, if_neg (by decide), raises_get_bind, hnum, hn, sendLines, if_pos (.inl hmasks)]
  exact (raises_throw _ s).bind _

end IoReq

end SoftHier.Dram
