/-
  Gapy/Crc.lean --- the checksum of a byte string and of an ELF segment.

  Source: `compute_crc` of `gapylib/utils.py` and `BinarySegment._compute_crc` of
  `chips/pulp/rom_v2.py`.  The loops hold the division register reflected; what
  they leave is the remainder by `0x104C11DB7` of the message with its first 32
  bits complemented, itself complemented.
-/
import SoftHier.Foundation.BinaryPoly
import SoftHier.Gapy.Templates

set_option autoImplicit false

namespace SoftHier.Gapy

open SoftHier.Foundation
open Polynomial

/-! ## The loops -/

/-- One round of the inner loop. -/
def crcBit (crc : Nat) : Nat :=
  let mask := if crc &&& 1 = 1 then 0xffffffff else 0
  (crc >>> 1) ^^^ (0xEDB88320 &&& mask)

/-- The body of the outer loop: `crc ^ data`, then `for _ in range(7, -1, -1)`. -/
def crcByte (crc : Nat) (data : UInt8) : Nat := crcBit^[8] (crc ^^^ data.toNat)

/-- `compute_crc`. -/
def computeCrc (init : Nat) (buff : Bytes) : Nat := buff.foldl crcByte init ^^^ 0xffffffff

/-- `BinarySegment.crc`, which is what `_compute_crc` returns. -/
def BinarySegment.crc (b : BinarySegment) : Nat :=
  b.data.foldl crcByte 0xffffffff ^^^ 0xffffffff

/-! ## The polynomials -/

/-- The bits of a message: bytes in order, each byte from its least significant bit. -/
def messageBits (b : Bytes) : List Bool := b.flatMap fun data => bits 8 data.toNat

/-- `M(x)`. -/
noncomputable def messagePoly (b : Bytes) : (ZMod 2)[X] := ofBits (messageBits b)

/-- The generator `0x104C11DB7`: bit `i` of the number is the coefficient of `x^i`. -/
noncomputable def crcGenerator : (ZMod 2)[X] := ofBits (bits 33 0x104C11DB7).reverse

/-- A 32-bit number bit-reversed: bit 0 is the coefficient of `x^31`. -/
noncomputable def reversedPoly (crc : Nat) : (ZMod 2)[X] := ofBits (bits 32 crc)

/-- The constant of the loops is the generator below its leading term, bit-reversed. -/
theorem crcGenerator_eq_divisor : crcGenerator = ShiftRegister.divisor 32 0xEDB88320 := by
  have hbits : (bits 33 0x104C11DB7).reverse = true :: bits 32 0xEDB88320 := by decide
  rw [crcGenerator, hbits, ofBits_cons, length_bits, if_pos rfl, ShiftRegister.divisor]

/-! ## The loops divide -/

/-- The mask is all ones or zero, so that the constant is added or not. -/
theorem crcBit_eq_shift (crc : Nat) : crcBit crc = ShiftRegister.shift 0xEDB88320 crc := by
  have hand : crc &&& 1 = crc % 2 := Nat.and_one_is_mod crc
  rw [crcBit, ShiftRegister.shift, hand, Nat.testBit_zero]
  by_cases h : crc % 2 = 1
  · simp only [h, if_true, decide_true]
    rfl
  · simp only [h, if_false, decide_false, Bool.false_eq_true]
    rfl

theorem crcByte_eq_absorb (crc : Nat) (data : UInt8) :
    crcByte crc data = ShiftRegister.absorb 0xEDB88320 8 crc data.toNat := by
  rw [crcByte, ShiftRegister.absorb, funext crcBit_eq_shift]

theorem foldl_crcByte (init : Nat) (b : Bytes) :
    b.foldl crcByte init =
      (b.map UInt8.toNat).foldl (ShiftRegister.absorb 0xEDB88320 8) init := by
  rw [List.foldl_map]
  congr 1
  funext crc data
  exact crcByte_eq_absorb crc data

theorem messageBits_eq (b : Bytes) :
    messageBits b = (b.map UInt8.toNat).flatMap (bits 8) := by
  rw [messageBits, List.flatMap_map]

theorem mem_map_toNat_lt {b : Bytes} : ∀ word ∈ b.map UInt8.toNat, word < 2 ^ 8 := by
  intro word h
  obtain ⟨data, -, rfl⟩ := List.mem_map.mp h
  exact data.toNat_lt

theorem foldl_crcByte_lt {init : Nat} (hinit : init < 2 ^ 32) (b : Bytes) :
    b.foldl crcByte init < 2 ^ 32 := by
  rw [foldl_crcByte]
  exact (ShiftRegister.residue_foldl_absorb (by decide) (by decide) mem_map_toNat_lt hinit).1

theorem computeCrc_lt {init : Nat} (hinit : init < 2 ^ 32) (b : Bytes) :
    computeCrc init b < 2 ^ 32 :=
  Nat.xor_lt_two_pow (foldl_crcByte_lt hinit b) (by decide)

/-- The complement of the checksum is what the loops leave. -/
theorem computeCrc_xor (init : Nat) (b : Bytes) :
    computeCrc init b ^^^ 0xffffffff = b.foldl crcByte init := by
  rw [computeCrc, Nat.xor_xor_cancel_right]

/-- The loops leave the remainder, whatever register they start from. -/
theorem reversedPoly_foldl_crcByte {init : Nat} (hinit : init < 2 ^ 32) (b : Bytes) :
    reversedPoly (b.foldl crcByte init) =
      (X ^ 32 * messagePoly b + X ^ (8 * b.length) * reversedPoly init) % crcGenerator := by
  have h := ShiftRegister.ofBits_foldl_absorb (w := 32) (g := 0xEDB88320) (k := 8) (r := init)
    (by decide) (by decide) (mem_map_toNat_lt (b := b)) hinit
  rwa [← foldl_crcByte, ← messageBits_eq, List.length_map, ← crcGenerator_eq_divisor] at h

theorem reversedPoly_ones : reversedPoly 0xffffffff = ∑ i ∈ Finset.range 32, X ^ i := by
  have hbits : bits 32 0xffffffff = List.replicate 32 true := by decide
  rw [reversedPoly, hbits, ofBits_replicate_true]

/-- A checksum is taken up again from the complement of what was returned. -/
theorem computeCrc_append (init : Nat) (a b : Bytes) :
    computeCrc init (a ++ b) = computeCrc (computeCrc init a ^^^ 0xffffffff) b := by
  rw [computeCrc_xor, computeCrc, List.foldl_append, computeCrc]

/-! ## Differences within a window -/

/-- Every difference of the two messages is among the `n` bits from bit `k`. -/
def DifferWithin (k n : Nat) (a b : Bytes) : Prop :=
  ∀ i : Nat, (messageBits a)[i]? ≠ (messageBits b)[i]? → k ≤ i ∧ i < k + n

theorem not_X_dvd_crcDivisor : ¬ X ∣ ShiftRegister.divisor 32 0xEDB88320 :=
  ShiftRegister.not_X_dvd_divisor (by decide)

/-- Equal checksums leave no difference within 32 bits. -/
theorem eq_of_computeCrc_eq {init : Nat} (hinit : init < 2 ^ 32) {a b : Bytes}
    (hlen : a.length = b.length) {k : Nat} (hwindow : DifferWithin k 32 a b)
    (h : computeCrc init a = computeCrc init b) : a = b := by
  have hregister : a.foldl crcByte init = b.foldl crcByte init := by
    rw [← computeCrc_xor, h, computeCrc_xor]
  rw [foldl_crcByte, foldl_crcByte] at hregister
  rw [DifferWithin, messageBits_eq, messageBits_eq] at hwindow
  have hmap := ShiftRegister.eq_of_foldl_absorb_eq not_X_dvd_crcDivisor (by decide) (by decide)
    mem_map_toNat_lt mem_map_toNat_lt (by simpa using hlen) hwindow hinit hregister
  exact List.map_injective_iff.mpr (fun _ _ => UInt8.toNat.inj) hmap

/-! ## The standard CRC-32 -/

/-- The checksum is the CRC-32 of the bytes: the complemented remainder of the message with its
first 32 bits complemented, the same for a segment, below `2 ^ 32`, continued over a
concatenation, and different for messages that differ within 32 bits. -/
theorem computeCrc_isCrc32 :
    (∀ b : Bytes, reversedPoly (computeCrc 0xffffffff b ^^^ 0xffffffff) =
      (X ^ 32 * messagePoly b + X ^ (8 * b.length) * ∑ i ∈ Finset.range 32, X ^ i) %
        crcGenerator) ∧
    (∀ segment : BinarySegment, segment.crc = computeCrc 0xffffffff segment.data) ∧
    (∀ b : Bytes, computeCrc 0xffffffff b < 2 ^ 32) ∧
    (∀ a b : Bytes, computeCrc 0xffffffff (a ++ b) =
      computeCrc (computeCrc 0xffffffff a ^^^ 0xffffffff) b) ∧
    ∀ a b : Bytes, a.length = b.length → a ≠ b → ∀ k : Nat, DifferWithin k 32 a b →
      computeCrc 0xffffffff a ≠ computeCrc 0xffffffff b := by
  have hones : 0xffffffff < 2 ^ 32 := by decide
  refine ⟨fun b => ?_, fun _ => rfl, computeCrc_lt hones, computeCrc_append 0xffffffff, ?_⟩
  · rw [computeCrc_xor, reversedPoly_foldl_crcByte hones, reversedPoly_ones]
  · intro a b hlen hne k hwindow heq
    exact hne (eq_of_computeCrc_eq hones hlen hwindow heq)

/-- Two messages that differ in the last bit of one byte and the first of the next. -/
theorem computeCrc_isCrc32_twoBits :
    computeCrc 0xffffffff [0x00, 0x80, 0x01] ≠ computeCrc 0xffffffff [0x00, 0x00, 0x00] := by
  refine computeCrc_isCrc32.2.2.2.2 _ _ rfl (by decide) 15 fun i hi => ?_
  by_contra hout
  refine hi ?_
  by_cases hlow : i < 15
  · have hbits : ∀ j < 15, (messageBits [0x00, 0x80, 0x01])[j]? =
        (messageBits [0x00, 0x00, 0x00])[j]? := by decide
    exact hbits i hlow
  · have hlen : 24 ≤ i := by omega
    rw [List.getElem?_eq_none hlen, List.getElem?_eq_none hlen]

/-- The check value of the standard CRC-32: that of the digits 1 to 9. -/
example : computeCrc 0xffffffff [0x31, 0x32, 0x33, 0x34, 0x35, 0x36, 0x37, 0x38, 0x39] =
    0xCBF43926 := by decide +kernel

end SoftHier.Gapy
