/-
  Foundation/Utf8.lean --- the UTF-8 bytes of a text.

  A text and its bytes determine each other, the bytes are at least as many as
  the characters, and as many only where every character is ASCII.
-/
import SoftHier.Foundation.Bytes

set_option autoImplicit false

namespace SoftHier.Foundation

namespace Utf8

/-- The bytes of a text. -/
def encode (text : String) : Bytes := text.toList.flatMap String.utf8EncodeChar

/-- The text some bytes stand for, if they are valid. -/
def decode? (b : Bytes) : Option String := String.fromUTF8? b.toByteArray

/-- Every character of a text is ASCII. -/
def Ascii (text : String) : Prop := ∀ c ∈ text.toList, c.toNat < 128

instance (text : String) : Decidable (Ascii text) :=
  List.decidableBAll (fun c : Char => c.toNat < 128) text.toList

theorem toByteArray_encode (text : String) : (encode text).toByteArray = text.toByteArray := by
  rw [← String.utf8Encode_toList]
  rfl

@[simp] theorem decode?_encode (text : String) : decode? (encode text) = some text := by
  unfold decode? String.fromUTF8?
  rw [toByteArray_encode, dif_pos text.isValidUTF8]
  rfl

theorem encode_injective : Function.Injective encode := by
  intro a b h
  have hdecode := congrArg decode? h
  rwa [decode?_encode, decode?_encode, Option.some.injEq] at hdecode

/-! ## Lengths -/

theorem utf8Size_eq_one_iff {c : Char} : c.utf8Size = 1 ↔ c.toNat < 128 := by
  rw [Char.utf8Size_eq_one_iff, UInt32.le_iff_toNat_le]
  exact Nat.lt_succ_iff.symm

theorem length_encode_cons (c : Char) (l : List Char) :
    ((c :: l).flatMap String.utf8EncodeChar).length =
      c.utf8Size + (l.flatMap String.utf8EncodeChar).length := by
  rw [List.flatMap_cons, List.length_append, String.length_utf8EncodeChar]

theorem length_le_flatMap (l : List Char) :
    l.length ≤ (l.flatMap String.utf8EncodeChar).length := by
  induction l with
  | nil => exact le_refl _
  | cons c l ih =>
    have hpos := Char.utf8Size_pos c
    rw [length_encode_cons, List.length_cons]
    omega

/-- A text has as many bytes as characters exactly when it is ASCII. -/
theorem length_encode_eq_iff (text : String) :
    (encode text).length = text.length ↔ Ascii text := by
  rw [← String.length_toList]
  unfold encode Ascii
  induction text.toList with
  | nil => simp
  | cons c l ih =>
    have hpos := Char.utf8Size_pos c
    have hle := length_le_flatMap l
    rw [length_encode_cons, List.length_cons, List.forall_mem_cons, ← ih, ← utf8Size_eq_one_iff]
    omega

/-! ## The terminating zero -/

/-- The bytes of an ASCII text without NUL hold no zero. -/
theorem ne_zero_of_mem_encode {text : String} (hascii : Ascii text) (hnul : '\x00' ∉ text.toList) :
    ∀ b ∈ encode text, b ≠ 0 := by
  intro b hb hzero
  obtain ⟨c, hc, hbc⟩ := List.mem_flatMap.mp hb
  have hlt := hascii c hc
  rw [String.utf8EncodeChar_eq_singleton (utf8Size_eq_one_iff.mpr hlt), List.mem_singleton] at hbc
  have hval : c.toNat = 0 := by
    have h := congrArg UInt8.toNat (hbc.symm.trans hzero)
    rw [UInt32.toNat_toUInt8] at h
    have hlt' : c.val.toNat < 128 := hlt
    have h' : c.val.toNat % 256 = 0 := h
    exact (Nat.mod_eq_of_lt (by omega)).symm.trans h'
  refine hnul ?_
  have hchar : c = '\x00' := Char.ext (UInt32.toNat_inj.mp hval)
  rw [← hchar]
  exact hc

/-- Reading up to the first zero gives back the bytes before it. -/
theorem takeWhile_terminated {b : Bytes} (h : ∀ x ∈ b, x ≠ 0) :
    (b ++ [0]).takeWhile (· ≠ 0) = b := by
  induction b with
  | nil => rfl
  | cons x b ih =>
    have hx : x ≠ 0 := h x List.mem_cons_self
    rw [List.cons_append, List.takeWhile_cons_of_pos (by simpa using hx),
      ih fun y hy => h y (List.mem_cons_of_mem x hy)]

end Utf8

end SoftHier.Foundation
