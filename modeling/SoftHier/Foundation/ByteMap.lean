/-
  Foundation/ByteMap.lean --- partial byte maps: which addresses hold a byte,
  and which one.
-/
import SoftHier.Foundation.Bytes

set_option autoImplicit false

namespace SoftHier.Foundation

/-- A memory image: the byte at each address, where there is one. -/
abbrev ByteMap : Type := Nat → Option UInt8

namespace ByteMap

/-- The image that holds nothing. -/
def empty : ByteMap := fun _ => none

/-- Write a buffer over an image. -/
def overlay (f : ByteMap) (base : Nat) (data : Bytes) : ByteMap := fun a =>
  if base ≤ a ∧ a < base + data.length then data[a - base]? else f a

/-- The image holds nothing in a range. -/
def Free (f : ByteMap) (base len : Nat) : Prop :=
  ∀ a, base ≤ a → a < base + len → f a = none

@[simp] theorem overlay_nil (f : ByteMap) (base : Nat) : overlay f base [] = f := by
  funext a
  simp only [overlay, List.length_nil, Nat.add_zero]
  rw [if_neg (by omega)]

theorem overlay_of_mem {f : ByteMap} {base a : Nat} {data : Bytes} (h1 : base ≤ a)
    (h2 : a < base + data.length) : overlay f base data a = data[a - base]? :=
  if_pos ⟨h1, h2⟩

theorem overlay_of_not_mem {f : ByteMap} {base a : Nat} {data : Bytes}
    (h : a < base ∨ base + data.length ≤ a) : overlay f base data a = f a :=
  if_neg (by omega)

/-- Writing a buffer in two parts. -/
theorem overlay_take_drop (f : ByteMap) (base n : Nat) (data : Bytes) (hn : n ≤ data.length) :
    overlay (overlay f base (data.take n)) (base + n) (data.drop n) = overlay f base data := by
  funext a
  have htake : (data.take n).length = n := by rw [List.length_take]; omega
  have hdrop : (data.drop n).length = data.length - n := List.length_drop
  by_cases h1 : a < base
  · rw [overlay_of_not_mem (by omega), overlay_of_not_mem (by omega),
      overlay_of_not_mem (by omega)]
  · by_cases h2 : a < base + n
    · rw [overlay_of_not_mem (by omega), overlay_of_mem (by omega) (by omega),
        overlay_of_mem (by omega) (by omega), List.getElem?_take, if_pos (by omega)]
    · by_cases h3 : a < base + data.length
      · rw [overlay_of_mem (by omega) (by omega), overlay_of_mem (by omega) (by omega),
          List.getElem?_drop]
        congr 1
        omega
      · rw [overlay_of_not_mem (by omega), overlay_of_not_mem (by omega),
          overlay_of_not_mem (by omega)]

theorem isSome_overlay {f : ByteMap} {base a : Nat} {data : Bytes} :
    (overlay f base data a).isSome = true ↔
      (base ≤ a ∧ a < base + data.length) ∨ (f a).isSome = true := by
  by_cases h : base ≤ a ∧ a < base + data.length
  · rw [overlay_of_mem h.1 h.2, List.getElem?_eq_getElem (by omega)]
    simp [h]
  · rw [overlay_of_not_mem (by omega)]
    simp [h]

/-- The little-endian word of `width` bytes at `a`, absent bytes read as zero. -/
def word (f : ByteMap) (width a : Nat) : Nat :=
  leValue ((List.range width).map fun j => (f (a + j)).getD 0)

theorem testBit_word (f : ByteMap) (width a i : Nat) :
    (word f width a).testBit i =
      (decide (i / 8 < width) && ((f (a + i / 8)).getD 0).toNat.testBit (i % 8)) := by
  rw [word, testBit_leValue]
  by_cases h : i / 8 < width
  · simp [List.getD_eq_getElem?_getD, h]
  · simp [List.getD_eq_getElem?_getD, h]

theorem word_lt (f : ByteMap) (width a : Nat) : word f width a < 256 ^ width := by
  have h := leValue_lt ((List.range width).map fun j => (f (a + j)).getD 0)
  rwa [List.length_map, List.length_range] at h

theorem word_eq_zero {f : ByteMap} {width a : Nat} (h : ∀ j < width, f (a + j) = none) :
    word f width a = 0 := by
  refine Nat.eq_of_testBit_eq fun i => ?_
  rw [testBit_word, Nat.zero_testBit]
  by_cases hi : i / 8 < width
  · simp [h _ hi]
  · simp [hi]

/-- The bytes of the word are the bytes of the image. -/
theorem leBytes_word (f : ByteMap) (width a : Nat) :
    leBytes width (word f width a) = (List.range width).map fun j => (f (a + j)).getD 0 := by
  rw [word]
  have h := leBytes_leValue ((List.range width).map fun j => (f (a + j)).getD 0)
  rwa [List.length_map, List.length_range] at h

end ByteMap

end SoftHier.Foundation
