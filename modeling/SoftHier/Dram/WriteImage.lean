/-
  Dram/WriteImage.lean --- what a write changes in the memory.

  `paraSendRequest` copies a request line by line into one staging buffer and
  one strobe buffer, and the library cuts each line into bursts.  Every
  transaction is a piece of the request's lines: its bytes, its strobes and its
  address are those of one position.  Walking through the pieces in order is
  walking through the lines byte by byte.
-/
import SoftHier.Foundation.Blocks
import SoftHier.Dram.Lines
import SoftHier.Dram.World
import Mathlib.Data.List.Nodup

set_option autoImplicit false

namespace SoftHier.Dram

open SoftHier.Foundation Program

/-! ## What a memory takes from a transaction -/

namespace Payload

/-- The addresses of a transaction. -/
def addresses (p : Payload) : List Nat :=
  (List.range p.dataLength.toNat).map fun j => p.address.toNat + j

/-- The bytes whose strobe is `TLM_BYTE_ENABLED`, with their addresses. -/
def enabled (p : Payload) : List (Nat × UInt8) :=
  (List.range p.dataLength.toNat).filterMap fun j =>
    if p.byteEnable[j]? = some 0xff then some (p.address.toNat + j, p.data.getD j 0) else none

end Payload

/-- The transactions write the request and nothing else. -/
structure IoReq.WrittenBy (r : IoReq) (burst : Nat) (ps : List Payload) : Prop where
  command : ∀ p ∈ ps, p.command = .write
  length : ∀ p ∈ ps, p.dataLength.toNat = min burst 64
  buffers : ∀ p ∈ ps, p.data.length = p.dataLength.toNat ∧ p.byteEnable.length = p.dataLength.toNat
  aligned : ∀ p ∈ ps, p.dataLength.toNat ∣ p.address.toNat
  disjoint : ps.Pairwise fun p q => p.addresses.Disjoint q.addresses
  /-- Together they are the lines that hold the request. -/
  tiles : ∀ a, (∃ p ∈ ps, a ∈ p.addresses) ↔
    64 * (r.offset.toNat / 64) ≤ a ∧ a < 64 * ((r.offset.toNat + r.size.toNat + 63) / 64)
  /-- The enabled bytes are those of the request, in order. -/
  enabled : ps.flatMap Payload.enabled =
    (List.range r.size.toNat).map fun k => (r.offset.toNat + k, r.data.getD k 0)
  /-- No address is enabled twice. -/
  once : ((ps.flatMap Payload.enabled).map Prod.fst).Nodup

namespace IoReq

variable {r : IoReq}

/-! ## Transactions as pieces of the lines -/

/-- The transaction that writes `b` bytes at position `k` of the lines. -/
def piece (r : IoReq) (b k : Nat) : Payload where
  command := .write
  address := UInt64.ofNat (64 * (r.offset.toNat / 64) + k)
  dataLength := UInt32.ofNat b
  data := slice r.lineData k b
  byteEnable := (slice r.masks k b).map byteEnabled

/-- What byte `n` of the lines changes in the memory. -/
def cell (r : IoReq) (n : Nat) : Option (Nat × UInt8) :=
  if r.covers (UInt64.ofNat n) then
    some (64 * (r.offset.toNat / 64) + n, r.lineData.getD n 0)
  else none

/-- The pieces of `b` bytes of the lines, in the order they are sent. -/
def pieces (r : IoReq) (b : Nat) : List Payload :=
  (List.range r.numReq.toNat).flatMap fun j =>
    (List.range (64 / b)).map fun i => r.piece b (64 * j + i * b)

theorem length_lineData (r : IoReq) : r.lineData.length = r.numBytes := by
  rw [lineData, List.length_map, List.length_range]

/-- Burst `i` of line `j` is a piece of the lines. -/
theorem payloadOf_burst (r : IoReq) {b j i : Nat} (hb : b ≤ 64) (hi : i * b + b ≤ 64)
    (burst : UInt64) (hburst : burst.toNat = b) :
    Conv.payloadOf (r.startAddr + UInt64.ofNat j * granularity + UInt64.ofNat i * burst) burst true
        true ((slice r.lineData (64 * j) 64).drop (i * b))
        (((slice r.masks (64 * j) 64).map byteEnabled).drop (i * b)) =
      r.piece b (64 * j + i * b) := by
  have h32 : burst.toUInt32 = UInt32.ofNat b := by
    apply UInt32.toNat_inj.mp
    rw [UInt64.toNat_toUInt32, UInt32.toNat_ofNat', hburst]
  have h32' : (UInt32.ofNat b).toNat = b := by
    rw [UInt32.toNat_ofNat']
    omega
  have haddr : r.startAddr + UInt64.ofNat j * granularity + UInt64.ofNat i * burst =
      UInt64.ofNat (64 * (r.offset.toNat / 64) + (64 * j + i * b)) := by
    have hcast : burst = UInt64.ofNat b := by rw [← hburst, UInt64.ofNat_toNat]
    rw [lineAddr, hcast, ← UInt64.ofNat_mul, ← UInt64.ofNat_add]
    congr 1
    ring
  have hdata : ((slice r.lineData (64 * j) 64).drop (i * b)).take b =
      slice r.lineData (64 * j + i * b) b := slice_slice hi
  have hmask : (((slice r.masks (64 * j) 64).map byteEnabled).drop (i * b)).take b =
      (slice r.masks (64 * j + i * b) b).map byteEnabled := by
    rw [← List.map_drop, ← List.map_take]
    congr 1
    exact slice_slice hi
  unfold Conv.payloadOf piece
  rw [h32, h32', hburst, haddr]
  simp only [if_true, hdata, hmask]

/-- A write is sent as the pieces of its lines. -/
theorem transactions_of_write (hw : r.isWrite = true) {burst : UInt64}
    (hburst : 64 ≤ burst.toNat ∨ burst.toNat ∣ 64) :
    r.transactions burst = r.pieces (min burst.toNat 64) := by
  have h64 : granularity.toNat = 64 := rfl
  unfold transactions pieces
  apply List.flatMap_congr
  intro j _
  unfold lineTransactions burstsOf
  rw [hw]
  by_cases hlt : burst.toNat < 64
  · have hdvd : burst.toNat ∣ 64 := by
      rcases hburst with hge | hdvd
      · omega
      · exact hdvd
    have hlt' : burst < granularity := UInt64.lt_iff_toNat_lt.mpr hlt
    have hdiv : (granularity / burst).toNat = 64 / burst.toNat := UInt64.toNat_div _ _
    rw [if_pos (by simp [hlt']), hdiv, Nat.min_eq_left (le_of_lt hlt)]
    apply List.map_congr_left
    intro i hi
    apply payloadOf_burst r (le_of_lt hlt) _ burst rfl
    rw [List.mem_range] at hi
    exact burst_end_le hi
  · have hlt' : ¬ burst < granularity := mt UInt64.lt_iff_toNat_lt.mp hlt
    rw [if_neg (by simp [hlt']), Nat.min_eq_right (not_lt.mp hlt)]
    have hone := payloadOf_burst r (j := j) (i := 0) (le_refl 64) (le_refl 64) granularity rfl
    have hzero : UInt64.ofNat 0 * granularity = 0 := rfl
    rw [hzero, UInt64.add_zero, Nat.zero_mul, List.drop_zero, List.drop_zero] at hone
    rw [hone]
    rfl

/-! ## A piece in range -/

section Piece

variable {b k : Nat}

theorem piece_dataLength (hb : b ≤ 64) : (r.piece b k).dataLength.toNat = b := by
  change (UInt32.ofNat b).toNat = b
  rw [UInt32.toNat_ofNat']
  omega

theorem InRange.piece_address (h : r.InRange) (hk : k + b ≤ r.numBytes) :
    (r.piece b k).address.toNat = 64 * (r.offset.toNat / 64) + k := by
  have hlt := h.numBytes_lt
  have hfits := h.fits
  change (UInt64.ofNat (64 * (r.offset.toNat / 64) + k)).toNat = _
  rw [UInt64.toNat_ofNat']
  omega

theorem piece_buffers (hb : b ≤ 64) (hk : k + b ≤ r.numBytes) :
    (r.piece b k).data.length = (r.piece b k).dataLength.toNat ∧
      (r.piece b k).byteEnable.length = (r.piece b k).dataLength.toNat := by
  have hdata : (slice r.lineData k b).length = b :=
    length_slice (by rw [length_lineData]; exact hk)
  have hmask : (slice r.masks k b).length = b := length_slice (by rw [length_masks]; exact hk)
  rw [piece_dataLength hb]
  refine ⟨hdata, ?_⟩
  change ((slice r.masks k b).map byteEnabled).length = b
  rw [List.length_map, hmask]

theorem InRange.piece_addresses (h : r.InRange) (hb : b ≤ 64) (hk : k + b ≤ r.numBytes) :
    (r.piece b k).addresses =
      (List.range b).filterMap fun j => some (64 * (r.offset.toNat / 64) + (k + j)) := by
  unfold Payload.addresses
  rw [piece_dataLength hb, h.piece_address hk, ← List.filterMap_eq_map]
  apply List.filterMap_congr
  intro j _
  rw [Function.comp_apply, Nat.add_assoc]

/-- The strobe of byte `j` of a piece. -/
theorem piece_byteEnable {j : Nat} (hj : j < b) (hk : k + b ≤ r.numBytes) :
    (r.piece b k).byteEnable[j]? = some (byteEnabled (r.covers (UInt64.ofNat (k + j)))) := by
  have hn : k + j < r.numBytes := by omega
  change ((slice r.masks k b).map byteEnabled)[j]? = _
  rw [List.getElem?_map, getElem?_slice, if_pos hj, masks, List.getElem?_map,
    List.getElem?_range hn]
  rfl

theorem InRange.piece_enabled (h : r.InRange) (hb : b ≤ 64) (hk : k + b ≤ r.numBytes) :
    (r.piece b k).enabled = (List.range b).filterMap fun j => r.cell (k + j) := by
  unfold Payload.enabled
  rw [piece_dataLength hb, h.piece_address hk]
  apply List.filterMap_congr
  intro j hj
  rw [List.mem_range] at hj
  have hdata : (r.piece b k).data.getD j 0 = r.lineData.getD (k + j) 0 := by
    change (slice r.lineData k b).getD j 0 = _
    rw [List.getD_eq_getElem?_getD, List.getD_eq_getElem?_getD, getElem?_slice, if_pos hj]
  rw [piece_byteEnable hj hk, hdata, cell, Nat.add_assoc]
  cases r.covers (UInt64.ofNat (k + j)) with
  | true => rfl
  | false => rfl

end Piece

/-! ## All pieces -/

section Pieces

variable {b : Nat}

/-- A piece starts at a multiple of its length and ends inside the lines. -/
theorem InRange.exists_of_mem_pieces (h : r.InRange) (hdvd : b ∣ 64) {p : Payload}
    (hp : p ∈ r.pieces b) : ∃ k, p = r.piece b k ∧ k + b ≤ r.numBytes ∧ b ∣ k := by
  unfold pieces at hp
  obtain ⟨j, hj, hp⟩ := List.mem_flatMap.mp hp
  obtain ⟨i, hi, rfl⟩ := List.mem_map.mp hp
  rw [List.mem_range] at hi hj
  refine ⟨64 * j + i * b, rfl, ?_, ?_⟩
  · have hend : i * b + b ≤ 64 := burst_end_le hi
    rw [h.numBytes_eq]
    omega
  · exact Nat.dvd_add (Dvd.dvd.mul_right hdvd j) (Nat.dvd_mul_left b i)

/-- What the pieces say byte by byte, one after the other, is what the lines say
byte by byte. -/
theorem flatMap_pieces {β : Type} (hdvd : b ∣ 64) (f : Payload → List β) (g : Nat → Option β)
    (hf : ∀ k, k + b ≤ 64 * r.numReq.toNat →
      f (r.piece b k) = (List.range b).filterMap fun j => g (k + j)) :
    (r.pieces b).flatMap f = (List.range (64 * r.numReq.toNat)).filterMap g := by
  have hline : ∀ j < r.numReq.toNat,
      ((List.range (64 / b)).map fun i => r.piece b (64 * j + i * b)).flatMap f =
        (List.range 64).filterMap fun n => g (j * 64 + n) := by
    intro j hj
    have hblocks := flatMap_range_blocks (fun n => g (j * 64 + n)) b (64 / b)
    rw [Nat.div_mul_cancel hdvd] at hblocks
    rw [List.flatMap_map, ← hblocks]
    apply List.flatMap_congr
    intro i hi
    rw [List.mem_range] at hi
    have hend : i * b + b ≤ 64 := burst_end_le hi
    rw [hf _ (by omega)]
    apply List.filterMap_congr
    intro t _
    congr 1
    ring
  have hlines := flatMap_range_blocks g 64 r.numReq.toNat
  unfold pieces
  rw [List.flatMap_assoc, Nat.mul_comm 64, ← hlines]
  apply List.flatMap_congr
  intro j hj
  exact hline j (List.mem_range.mp hj)

/-- The enabled bytes are those of the request, in order. -/
theorem InRange.filterMap_cell (h : r.InRange) :
    (List.range r.numBytes).filterMap r.cell =
      (List.range r.size.toNat).map fun k => (r.offset.toNat + k, r.data.getD k 0) := by
  have hend := h.end_le_numBytes
  obtain ⟨rest, hrest⟩ := Nat.exists_eq_add_of_le hend
  have hbefore : (List.range (r.offset.toNat % 64)).filterMap r.cell = [] := by
    rw [List.filterMap_eq_nil_iff]
    intro n hn
    rw [List.mem_range] at hn
    have hcovers := h.covers_iff (n := n) (by omega)
    rw [cell, if_neg]
    rw [hcovers]
    omega
  have hinside : ((List.range r.size.toNat).map (r.offset.toNat % 64 + ·)).filterMap r.cell =
      (List.range r.size.toNat).map fun k => (r.offset.toNat + k, r.data.getD k 0) := by
    rw [List.filterMap_map, ← List.filterMap_eq_map]
    apply List.filterMap_congr
    intro k hk
    rw [List.mem_range] at hk
    have hn : r.offset.toNat % 64 + k < r.numBytes := by omega
    have hcovers : r.covers (UInt64.ofNat (r.offset.toNat % 64 + k)) = true :=
      (h.covers_iff hn).mpr (by omega)
    have hdata : r.lineData.getD (r.offset.toNat % 64 + k) 0 = r.data.getD k 0 := by
      rw [List.getD_eq_getElem?_getD, lineData, List.getElem?_map, List.getElem?_range hn,
        Option.map_some, Option.getD_some, if_pos hcovers, h.dataIndex hn (by omega)]
      congr 1
      omega
    rw [Function.comp_apply, Function.comp_apply, cell, if_pos hcovers, hdata]
    congr 2
    omega
  have hafter : ((List.range rest).map (r.offset.toNat % 64 + r.size.toNat + ·)).filterMap r.cell =
      [] := by
    rw [List.filterMap_eq_nil_iff]
    intro n hn
    obtain ⟨k, hk, rfl⟩ := List.mem_map.mp hn
    rw [List.mem_range] at hk
    have hcovers := h.covers_iff (n := r.offset.toNat % 64 + r.size.toNat + k) (by omega)
    rw [cell, if_neg]
    rw [hcovers]
    omega
  rw [hrest, List.range_add, List.filterMap_append, List.range_add, List.filterMap_append, hbefore,
    hinside, hafter, List.nil_append, List.append_nil]

/-- The lines are the smallest run of lines that holds the request. -/
theorem InRange.lines_end (h : r.InRange) :
    64 * (r.offset.toNat / 64) + 64 * r.numReq.toNat =
      64 * ((r.offset.toNat + r.size.toNat + 63) / 64) := by
  have hpos := h.size_pos
  rw [h.numReq_toNat]
  omega

theorem InRange.writtenBy_pieces (h : r.InRange) {burst : Nat}
    (hburst : 64 ≤ burst ∨ burst ∣ 64) : r.WrittenBy burst (r.pieces (min burst 64)) := by
  have hle : min burst 64 ≤ 64 := Nat.min_le_right _ _
  have hdvd : min burst 64 ∣ 64 := by
    rcases hburst with hge | hdvd
    · rw [Nat.min_eq_right hge]
    · rwa [Nat.min_eq_left (Nat.le_of_dvd (by decide) hdvd)]
  have hmem := fun p (hp : p ∈ r.pieces (min burst 64)) => h.exists_of_mem_pieces hdvd hp
  have hbytes := h.numBytes_eq
  have haddresses := flatMap_pieces (r := r) hdvd Payload.addresses
    (fun n => some (64 * (r.offset.toNat / 64) + n))
    (fun k hk => h.piece_addresses hle (by rw [hbytes]; exact hk))
  have henabled := flatMap_pieces (r := r) hdvd Payload.enabled r.cell
    (fun k hk => h.piece_enabled hle (by rw [hbytes]; exact hk))
  rw [← hbytes, h.filterMap_cell] at henabled
  have hall : (r.pieces (min burst 64)).flatMap Payload.addresses =
      (List.range (64 * r.numReq.toNat)).map (64 * (r.offset.toNat / 64) + ·) := by
    rw [haddresses, ← List.filterMap_eq_map]
    rfl
  refine
    { command := ?_, length := ?_, buffers := ?_, aligned := ?_, disjoint := ?_, tiles := ?_,
      enabled := henabled, once := ?_ }
  · intro p hp
    obtain ⟨k, rfl, -, -⟩ := hmem p hp
    rfl
  · intro p hp
    obtain ⟨k, rfl, -, -⟩ := hmem p hp
    exact piece_dataLength hle
  · intro p hp
    obtain ⟨k, rfl, hk, -⟩ := hmem p hp
    exact piece_buffers hle hk
  · intro p hp
    obtain ⟨k, rfl, hk, hdvdk⟩ := hmem p hp
    rw [piece_dataLength hle, h.piece_address hk]
    exact Nat.dvd_add (Dvd.dvd.mul_right hdvd _) hdvdk
  · have hnodup : ((r.pieces (min burst 64)).flatMap Payload.addresses).Nodup := by
      rw [hall]
      exact List.Nodup.map (fun a b => Nat.add_left_cancel) List.nodup_range
    exact (List.nodup_flatMap.mp hnodup).2
  · intro a
    rw [← List.mem_flatMap, hall, ← h.lines_end, List.mem_map]
    constructor
    · rintro ⟨n, hn, rfl⟩
      rw [List.mem_range] at hn
      omega
    · rintro ⟨hge, hlt⟩
      exact ⟨a - 64 * (r.offset.toNat / 64), List.mem_range.mpr (by omega), by omega⟩
  · rw [henabled, List.map_map]
    exact List.Nodup.map (fun a b => Nat.add_left_cancel) List.nodup_range

end Pieces

end IoReq

/-! ## Sending returns -/

theorem returns_forEach_of {α ε σ : Type} {body : α → Program ε σ Unit} {xs : List α}
    (h : ∀ x ∈ xs, ∀ s, ∃ s', Returns (body x) s () s') (s : σ) :
    ∃ s', Returns (forEach body xs) s () s' := by
  induction xs generalizing s with
  | nil => exact ⟨s, returns_forEach_nil.mpr rfl⟩
  | cons x xs ih =>
    rw [List.forall_mem_cons] at h
    obtain ⟨t, ht⟩ := h.1 s
    obtain ⟨s', hs'⟩ := ih h.2 t
    exact ⟨s', returns_forEach_cons.mpr ⟨t, ht, hs'⟩⟩

section Returning

variable {δ : Type}

theorem returns_conv_dramSendReq {addr length : UInt64} {isWrite strobEnable : Bool}
    {buf strbBuf : Bytes} (hbuf : length.toNat ≤ buf.length) (hstrb : length.toNat ≤ strbBuf.length)
    (s : Dramsys δ) :
    ∃ s', Returns (Conv.dramSendReq addr length isWrite strobEnable buf strbBuf) s () s' := by
  have h32 : length.toUInt32.toNat ≤ length.toNat := by
    rw [UInt64.toNat_toUInt32]
    exact Nat.mod_le _ _
  unfold Conv.dramSendReq
  rw [if_neg (by simp; omega), if_neg (by simp; omega)]
  exact ⟨_, rfl⟩

/-- The library sends a line whenever it can cut it. -/
theorem returns_dramSendReq {s : Dramsys δ} {isWrite : Bool}
    (hcuts : Cuts s.burst granularity isWrite) (addr : UInt64) :
    ∃ s', Returns (dramSendReq addr granularity isWrite isWrite) s () s' := by
  have h64 : granularity.toNat = 64 := rfl
  have hbuf := s.wbuffer.length_bytes
  have hstrb := s.wstrobe.length_bytes
  unfold dramSendReq
  rw [show (∃ s', Returns (get >>= _) s () s') ↔ _ from
    exists_congr fun s' => returns_get_bind]
  split
  next hcond =>
    rw [Bool.and_eq_true, Bool.and_eq_true, decide_eq_true_iff] at hcond
    obtain ⟨hzero, hrem⟩ := hcuts hcond.1.1 hcond.2
    have hlt : s.burst.toNat < 64 := UInt64.lt_iff_toNat_lt.mp hcond.2
    rw [if_neg hzero, if_neg (not_not.mpr hrem)]
    refine returns_forEach_of (fun i hi t => ?_) s
    rw [List.mem_range, UInt64.toNat_div, h64] at hi
    have hend : i * s.burst.toNat + s.burst.toNat ≤ 64 := burst_end_le hi
    exact returns_conv_dramSendReq (by rw [List.length_drop]; omega)
      (by rw [List.length_drop]; omega) t
  next hcond => exact returns_conv_dramSendReq (by omega) (by omega) s

end Returning

theorem returns_sendLines {r : IoReq} {n iter : Nat} {maskQ : List Bool} {dataQ : Bytes}
    {s : Dramsys Ddr} (hmask : n * 64 ≤ maskQ.length) (hdata : n * 64 ≤ dataQ.length)
    (hcuts : Cuts s.burst granularity r.isWrite) :
    ∃ s', Returns (sendLines r iter n maskQ dataQ) s () s' := by
  induction n generalizing iter maskQ dataQ s with
  | zero => exact ⟨s, rfl⟩
  | succ n ih =>
    obtain ⟨t, ht⟩ := returns_dramSendReq (s := { s with
      wbuffer := s.wbuffer.fill (dataQ.take 64)
      wstrobe := s.wstrobe.fill ((maskQ.take 64).map byteEnabled) }) hcuts
      (r.startAddr + UInt64.ofNat iter * granularity)
    have hburst : t.burst = s.burst := (dramSendReq_sent ht).2.burst
    have hrest : ∃ s', Returns (sendLines r (iter + 1) n (maskQ.drop 64) (dataQ.drop 64)) t () s' :=
      ih (by rw [List.length_drop]; omega) (by rw [List.length_drop]; omega)
        (by rw [hburst]; exact hcuts)
    obtain ⟨s', hs'⟩ := hrest
    refine ⟨s', ?_⟩
    rw [sendLines, if_neg (by omega), returns_modify_bind]
    exact ht.bind hs'

/-- A request is sent whenever nothing is left undefined and the library does
not refuse it. -/
theorem IoReq.Sendable.returns {r : IoReq} {s : Dramsys Ddr} (h : r.Sendable s.burst) :
    ∃ s', Returns (paraSendRequest r) s () s' := by
  have hfilled := h.filled
  have hlines : ∃ t, Returns (sendLines r 0 r.numReq.toNat r.masks r.lineData) s () t :=
    returns_sendLines (by rw [IoReq.length_masks]; exact hfilled)
      (by rw [IoReq.length_lineData]; exact hfilled) h.cuts
  obtain ⟨t, ht⟩ := hlines
  unfold paraSendRequest
  rw [if_neg (not_le.mpr h.bounded)]
  cases hw : r.isWrite with
  | true => exact ⟨_, Returns.bind (returns_get.mpr ⟨rfl, rfl⟩) (ht.bind rfl)⟩
  | false => exact ⟨_, Returns.bind (returns_get.mpr ⟨rfl, rfl⟩) (ht.bind rfl)⟩

namespace IoReq

variable {r : IoReq}

theorem InRange.sendable (h : r.InRange) {burst : UInt64}
    (hburst : 64 ≤ burst.toNat ∨ burst.toNat ∣ 64) : r.Sendable burst where
  bounded := by
    have hfits := h.fits
    rw [h.numBytes_eq, h.numReq_toNat]
    omega
  filled := by rw [h.numBytes_eq, Nat.mul_comm]
  cuts := by
    intro _ hlt
    have hlt : burst.toNat < 64 := UInt64.lt_iff_toNat_lt.mp hlt
    rcases hburst with hge | hdvd
    · omega
    · refine ⟨fun hzero => ?_, ?_⟩
      · rw [hzero] at hdvd
        exact absurd hdvd (by decide)
      · apply UInt64.toNat_inj.mp
        rw [UInt64.toNat_mod]
        exact Nat.mod_eq_zero_of_dvd hdvd

end IoReq

/-! ## A burst that does not divide a line -/

/-- How the library ends when a burst is shorter than a line and does not divide
it. -/
def cutFault (burst : UInt64) : Fault :=
  if burst = 0 then .undefined
  else .fatal "dramsys_conv" "cannot tackle strob write with misaligned size"

theorem raises_dramSendReq {δ : Type} {s : Dramsys δ} (hlt : s.burst.toNat < 64)
    (hdvd : ¬ s.burst.toNat ∣ 64) (addr : UInt64) :
    Raises (dramSendReq addr granularity true true) s (cutFault s.burst) s := by
  have hlt' : s.burst < granularity := UInt64.lt_iff_toNat_lt.mpr hlt
  have hrem : granularity % s.burst ≠ 0 := by
    intro hrem
    have := congrArg UInt64.toNat hrem
    rw [UInt64.toNat_mod] at this
    exact hdvd (Nat.dvd_of_mod_eq_zero this)
  unfold dramSendReq cutFault
  rw [raises_get_bind, if_pos (by simp [hlt'])]
  by_cases hzero : s.burst = 0
  · rw [if_pos hzero, if_pos hzero]
    exact raises_throw _ s
  · rw [if_neg hzero, if_neg hzero, if_pos hrem]
    exact raises_throw _ s

/-- Nothing is sent of a write that cannot be cut. -/
theorem raises_paraSendRequest {r : IoReq} {s : Dramsys Ddr} (hw : r.isWrite = true)
    (h : r.InRange) (hlt : s.burst.toNat < 64) (hdvd : ¬ s.burst.toNat ∣ 64) :
    ∃ s', Raises (paraSendRequest r) s (cutFault s.burst) s' ∧ s'.socket = s.socket ∧
      s'.conv = s.conv := by
  have hsendable : r.Sendable 64 := h.sendable (.inl (le_refl 64))
  have hfilled := hsendable.filled
  obtain ⟨n, hn⟩ := Nat.exists_eq_succ_of_ne_zero
    (show r.numReq.toNat ≠ 0 by rw [h.numReq_toNat]; omega)
  refine ⟨{ s with
    wbuffer := s.wbuffer.fill (r.lineData.take 64)
    wstrobe := s.wstrobe.fill ((r.masks.take 64).map byteEnabled) }, ?_, rfl, rfl⟩
  have hmask := r.length_masks
  have hdata := r.length_lineData
  unfold paraSendRequest
  rw [if_neg (not_le.mpr hsendable.bounded), raises_get_bind, hn, sendLines, if_neg (by omega), hw]
  refine Raises.bind ?_ _
  rw [raises_modify_bind]
  exact (raises_dramSendReq (by exact hlt) (by exact hdvd) _).bind _

/-! ## A write -/

/-- A write below 2^30 is sent as transactions that write it and nothing else, on
every DRAM whose bursts hold a line or divide it; on any other the run ends
before a transaction is sent, in the fatal branch unless a burst is empty. -/
theorem paraSendRequest_write {r : IoReq} (hw : r.isWrite = true) (h : r.InRange)
    (s : Dramsys Ddr) :
    (64 ≤ s.burst.toNat ∨ s.burst.toNat ∣ 64 →
      ∃ s' ps, Returns (paraSendRequest r) s () s' ∧ s'.socket = s.socket ++ ps ∧
        r.WrittenBy s.burst.toNat ps) ∧
    (s.burst.toNat < 64 → ¬ s.burst.toNat ∣ 64 →
      ∃ s', Raises (paraSendRequest r) s (cutFault s.burst) s' ∧ s'.socket = s.socket) := by
  constructor
  · intro hburst
    obtain ⟨s', hs'⟩ := (h.sendable hburst).returns
    have hsocket := (paraSendRequest_handedOver hs').socket
    rw [IoReq.transactions_of_write hw hburst] at hsocket
    exact ⟨s', _, hs', hsocket, h.writtenBy_pieces hburst⟩
  · intro hlt hdvd
    obtain ⟨s', hs', hsocket, -⟩ := raises_paraSendRequest hw h hlt hdvd
    exact ⟨s', hs', hsocket⟩

/-- A write of the last byte of a line and the first of the next. -/
def straddlingWrite : IoReq := ⟨0, 0x8000003f, 2, true, [0xAB, 0xCD], rfl⟩

theorem paraSendRequest_write_straddling :
    (∃ s' ps, Returns (paraSendRequest straddlingWrite) (World.start 32).sys () s' ∧
      s'.socket = (World.start 32).sys.socket ++ ps ∧ straddlingWrite.WrittenBy 32 ps) ∧
    ∃ s', Raises (paraSendRequest straddlingWrite) (World.start 48).sys
      (.fatal "dramsys_conv" "cannot tackle strob write with misaligned size") s' ∧
      s'.socket = (World.start 48).sys.socket :=
  ⟨(paraSendRequest_write rfl (by decide) (World.start 32).sys).1 (.inr (by decide)),
    (paraSendRequest_write rfl (by decide) (World.start 48).sys).2 (by decide) (by decide)⟩

end SoftHier.Dram
