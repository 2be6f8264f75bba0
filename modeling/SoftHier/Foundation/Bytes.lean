/-
  Foundation/Bytes.lean --- byte strings: slices and little-endian numbers.
-/
import Mathlib.Data.List.Basic
import Mathlib.Data.Nat.Bitwise
import Mathlib.Tactic.Ring

set_option autoImplicit false

namespace SoftHier.Foundation

/-- A byte string. -/
abbrev Bytes : Type := List UInt8

/-! ## Slices -/

section Slice

variable {α : Type}

/-- The `len` elements of `l` from position `pos`; shorter where `l` ends before. -/
def slice (l : List α) (pos len : Nat) : List α := (l.drop pos).take len

theorem length_slice {l : List α} {pos len : Nat} (h : pos + len ≤ l.length) :
    (slice l pos len).length = len := by
  simp only [slice, List.length_take, List.length_drop]
  omega

@[simp] theorem slice_zero_length (l : List α) : slice l 0 l.length = l := by
  simp [slice]

theorem getElem?_slice (l : List α) (pos len k : Nat) :
    (slice l pos len)[k]? = if k < len then l[pos + k]? else none := by
  simp only [slice, List.getElem?_take, List.getElem?_drop]

/-- A slice of a slice, when the inner one stays inside the outer one. -/
theorem slice_slice {l : List α} {pos len p n : Nat} (h : p + n ≤ len) :
    slice (slice l pos len) p n = slice l (pos + p) n := by
  simp only [slice, List.drop_take, List.take_take, List.drop_drop]
  congr 1
  omega

theorem slice_append_of_le {a b : List α} {pos len : Nat} (h : pos + len ≤ a.length) :
    slice (a ++ b) pos len = slice a pos len := by
  simp only [slice]
  rw [List.drop_append_of_le_length (by omega), List.take_append_of_le_length]
  rw [List.length_drop]
  omega

theorem slice_append_add (a b : List α) (p len : Nat) :
    slice (a ++ b) (a.length + p) len = slice b p len := by
  simp only [slice, List.drop_append]
  rw [List.drop_eq_nil_of_le (by omega), List.nil_append, Nat.add_sub_cancel_left]

/-- The block in the middle of a concatenation is the slice at its position. -/
theorem slice_append_mid (a b c : List α) :
    slice (a ++ (b ++ c)) a.length b.length = b := by
  have h := slice_append_add a (b ++ c) 0 b.length
  rw [Nat.add_zero] at h
  rw [h, slice_append_of_le (by omega), slice_zero_length]

end Slice

/-! ## Little-endian numbers -/

/-- The `n` little-endian bytes of `v`. -/
def leBytes : Nat → Nat → Bytes
  | 0, _ => []
  | n + 1, v => UInt8.ofNat (v % 256) :: leBytes n (v / 256)

/-- The number a byte string stands for, least significant byte first. -/
def leValue : Bytes → Nat
  | [] => 0
  | b :: bs => b.toNat + 256 * leValue bs

@[simp] theorem length_leBytes (n v : Nat) : (leBytes n v).length = n := by
  induction n generalizing v with
  | zero => rfl
  | succ n ih => rw [leBytes, List.length_cons, ih]

theorem leValue_leBytes {n v : Nat} (h : v < 256 ^ n) : leValue (leBytes n v) = v := by
  induction n generalizing v with
  | zero =>
    have : v = 0 := by simpa using h
    simp [leBytes, leValue, this]
  | succ n ih =>
    have hdiv : v / 256 < 256 ^ n := by
      rw [Nat.pow_succ] at h
      exact Nat.div_lt_of_lt_mul (by rwa [Nat.mul_comm])
    have hbyte : (UInt8.ofNat (v % 256)).toNat = v % 256 := by
      rw [UInt8.toNat_ofNat']
      omega
    rw [leBytes, leValue, ih hdiv, hbyte]
    omega

theorem leBytes_leValue (bs : Bytes) : leBytes bs.length (leValue bs) = bs := by
  induction bs with
  | nil => rfl
  | cons b bs ih =>
    have hb : b.toNat < 256 := b.toNat_lt
    have hmod : (b.toNat + 256 * leValue bs) % 256 = b.toNat := by omega
    have hdiv : (b.toNat + 256 * leValue bs) / 256 = leValue bs := by omega
    rw [List.length_cons, leBytes, leValue, hmod, hdiv, ih, UInt8.ofNat_toNat]

theorem leValue_lt (bs : Bytes) : leValue bs < 256 ^ bs.length := by
  induction bs with
  | nil => simp [leValue]
  | cons b bs ih =>
    have hb : b.toNat < 256 := b.toNat_lt
    rw [leValue, List.length_cons, Nat.pow_succ]
    omega

/-- Bit `i` of a little-endian number is bit `i % 8` of byte `i / 8`. -/
theorem testBit_leValue (bs : Bytes) (i : Nat) :
    (leValue bs).testBit i = (bs.getD (i / 8) 0).toNat.testBit (i % 8) := by
  induction bs generalizing i with
  | nil => simp [leValue]
  | cons b bs ih =>
    have hb : b.toNat < 2 ^ 8 := b.toNat_lt
    have hval : leValue (b :: bs) = 2 ^ 8 * leValue bs + b.toNat := by
      rw [leValue]
      omega
    rw [hval, Nat.testBit_two_pow_mul_add _ hb]
    by_cases hi : i < 8
    · rw [if_pos hi, Nat.div_eq_of_lt hi, Nat.mod_eq_of_lt hi]
      rfl
    · obtain ⟨j, rfl⟩ : ∃ j, i = j + 8 := ⟨i - 8, by omega⟩
      rw [if_neg hi, Nat.add_sub_cancel, ih, Nat.add_div_right _ (by omega),
        Nat.add_mod_right]
      rfl

end SoftHier.Foundation
