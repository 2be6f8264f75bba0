/-
  Foundation/BinaryPoly.lean --- rows of bits as polynomials over GF(2), and the
  shift register that divides them.

  A row of bits is a polynomial with the coefficient of the highest degree
  first.  A number is read through the row of its low bits, least significant
  first, so the register is held reflected: its bit 0 is the coefficient of the
  highest degree, and a shift to the right multiplies by `X`.  What the register
  holds after any number of words is the remainder of the words' polynomial.
-/
import Mathlib.Algebra.CharP.Two
import Mathlib.Algebra.Field.ZMod
import Mathlib.Data.Nat.Bitwise
import Mathlib.RingTheory.AdjoinRoot

set_option autoImplicit false

namespace SoftHier.Foundation

open Polynomial

/-! ## The bits of a number -/

/-- The low `w` bits of `n`, least significant first. -/
def bits (w n : Nat) : List Bool := (List.range w).map n.testBit

@[simp] theorem length_bits (w n : Nat) : (bits w n).length = w := by simp [bits]

theorem bits_succ (w n : Nat) : bits (w + 1) n = n.testBit 0 :: bits w (n >>> 1) := by
  rw [bits, List.range_succ_eq_map, List.map_cons, List.map_map, bits]
  congr 1
  refine List.map_congr_left fun i _ => ?_
  rw [Nat.testBit_shiftRight, Nat.add_comm]
  rfl

theorem bits_add (v w n : Nat) : bits (v + w) n = bits v n ++ bits w (n >>> v) := by
  induction v generalizing n with
  | zero => rw [Nat.zero_add, Nat.shiftRight_zero]; rfl
  | succ v ih =>
    rw [Nat.add_right_comm, bits_succ, ih, bits_succ, List.cons_append, ← Nat.shiftRight_add,
      Nat.add_comm 1 v]

theorem bits_zero (w : Nat) : bits w 0 = List.replicate w false := by
  refine List.eq_replicate_iff.mpr ⟨length_bits w 0, fun b hb => ?_⟩
  obtain ⟨i, -, rfl⟩ := List.mem_map.mp hb
  exact Nat.zero_testBit i

theorem bits_xor (w m n : Nat) :
    bits w (m ^^^ n) = List.zipWith xor (bits w m) (bits w n) := by
  rw [bits, bits, bits, List.zipWith_map, List.zipWith_self]
  exact List.map_congr_left fun i _ => Nat.testBit_xor m n i

/-- A number of `v` bits has only zeros above them. -/
theorem bits_add_of_lt {v n : Nat} (h : n < 2 ^ v) (w : Nat) :
    bits (v + w) n = bits v n ++ List.replicate w false := by
  rw [bits_add, Nat.shiftRight_eq_zero n v h, bits_zero]

theorem bits_injOn {w m n : Nat} (hm : m < 2 ^ w) (hn : n < 2 ^ w) (h : bits w m = bits w n) :
    m = n := by
  refine Nat.eq_of_testBit_eq fun i => ?_
  by_cases hi : i < w
  · exact List.map_inj_left.mp h i (List.mem_range.mpr hi)
  · have hw : 2 ^ w ≤ 2 ^ i := Nat.pow_le_pow_right (by decide) (by omega)
    rw [Nat.testBit_lt_two_pow (by omega), Nat.testBit_lt_two_pow (by omega)]

theorem length_flatMap_bits (w : Nat) (xs : List Nat) :
    (xs.flatMap (bits w)).length = w * xs.length := by
  simp [List.length_flatMap, Nat.mul_comm]

/-- Words of `w` bits are known from their bits in a row. -/
theorem eq_of_flatMap_bits_eq {w : Nat} {xs ys : List Nat} (hx : ∀ x ∈ xs, x < 2 ^ w)
    (hy : ∀ y ∈ ys, y < 2 ^ w) (hlen : xs.length = ys.length)
    (h : xs.flatMap (bits w) = ys.flatMap (bits w)) : xs = ys := by
  induction xs generalizing ys with
  | nil => exact (List.length_eq_zero_iff.mp hlen.symm).symm
  | cons x xs ih =>
    cases ys with
    | nil => simp at hlen
    | cons y ys =>
      rw [List.flatMap_cons, List.flatMap_cons] at h
      obtain ⟨hhead, htail⟩ := List.append_inj h (by simp)
      rw [List.forall_mem_cons] at hx hy
      rw [bits_injOn hx.1 hy.1 hhead, ih hx.2 hy.2 (by simpa using hlen) htail]

/-! ## A row of bits as a polynomial -/

/-- The polynomial with the coefficients `l`, that of the highest degree first. -/
noncomputable def ofBits : List Bool → (ZMod 2)[X]
  | [] => 0
  | b :: l => (if b then X ^ l.length else 0) + ofBits l

@[simp] theorem ofBits_nil : ofBits [] = 0 := rfl

theorem ofBits_cons (b : Bool) (l : List Bool) :
    ofBits (b :: l) = (if b then X ^ l.length else 0) + ofBits l := rfl

theorem ofBits_append (a b : List Bool) :
    ofBits (a ++ b) = ofBits a * X ^ b.length + ofBits b := by
  induction a with
  | nil => simp
  | cons x a ih =>
    rw [List.cons_append, ofBits_cons, ofBits_cons, ih, List.length_append]
    cases x
    · simp
    · rw [if_pos rfl, if_pos rfl]
      ring

theorem ofBits_eq_zero {l : List Bool} (h : ∀ b ∈ l, b = false) : ofBits l = 0 := by
  induction l with
  | nil => rfl
  | cons b l ih =>
    rw [List.forall_mem_cons] at h
    rw [ofBits_cons, h.1, ih h.2]
    simp

@[simp] theorem ofBits_replicate_false (n : Nat) : ofBits (List.replicate n false) = 0 :=
  ofBits_eq_zero fun _ hb => List.eq_of_mem_replicate hb

theorem ofBits_replicate_true (n : Nat) :
    ofBits (List.replicate n true) = ∑ i ∈ Finset.range n, X ^ i := by
  induction n with
  | zero => rfl
  | succ n ih =>
    rw [List.replicate_succ, ofBits_cons, ih, if_pos rfl, List.length_replicate,
      Finset.sum_range_succ, add_comm]

theorem degree_ofBits_lt (l : List Bool) : (ofBits l).degree < l.length := by
  induction l with
  | nil => simp
  | cons b l ih =>
    have hlen : ((l.length : Nat) : WithBot Nat) < ((l.length + 1 : Nat) : WithBot Nat) := by
      exact_mod_cast Nat.lt_succ_self _
    rw [ofBits_cons, List.length_cons]
    refine lt_of_le_of_lt (degree_add_le _ _) (max_lt ?_ (ih.trans hlen))
    cases b
    · simp
    · rw [if_pos rfl]
      exact lt_of_le_of_lt (degree_X_pow_le _) hlen

/-- Only a row of zeros is the zero polynomial. -/
theorem eq_false_of_ofBits_eq_zero {l : List Bool} (h : ofBits l = 0) : ∀ b ∈ l, b = false := by
  induction l with
  | nil => simp
  | cons b l ih =>
    have hb : b = false := by
      cases b with
      | false => rfl
      | true =>
        rw [ofBits_cons, if_pos rfl] at h
        have hmonic := monic_X_pow_add (degree_ofBits_lt l)
        rw [h] at hmonic
        exact absurd rfl hmonic.ne_zero
    rw [List.forall_mem_cons]
    refine ⟨hb, ih ?_⟩
    rwa [hb, ofBits_cons, if_neg Bool.false_ne_true, zero_add] at h

/-- Exclusive or is addition: there are no carries. -/
theorem ofBits_zipWith_xor {a b : List Bool} (h : a.length = b.length) :
    ofBits (List.zipWith xor a b) = ofBits a + ofBits b := by
  induction a generalizing b with
  | nil => simp [List.length_eq_zero_iff.mp h.symm]
  | cons x a ih =>
    cases b with
    | nil => simp at h
    | cons y b =>
      have hlen : a.length = b.length := by simpa using h
      have hzip : (List.zipWith xor a b).length = b.length := by
        rw [List.length_zipWith, hlen, min_self]
      rw [List.zipWith_cons_cons, ofBits_cons, ofBits_cons, ofBits_cons, ih hlen, hzip, hlen]
      have hxor : (if xor x y then (X : (ZMod 2)[X]) ^ b.length else 0) =
          (if x then X ^ b.length else 0) + (if y then X ^ b.length else 0) := by
        cases x <;> cases y <;> simp [CharTwo.add_self_eq_zero]
      rw [hxor]
      ring

theorem ofBits_bits_xor (w m n : Nat) :
    ofBits (bits w (m ^^^ n)) = ofBits (bits w m) + ofBits (bits w n) := by
  rw [bits_xor, ofBits_zipWith_xor (by simp)]

/-! ## The shift register -/

namespace ShiftRegister

/-- One shift: the bit that falls out decides whether `g` is added. -/
def shift (g r : Nat) : Nat := (r >>> 1) ^^^ (if r.testBit 0 then g else 0)

/-- A word of `k` bits added at the low end, then `k` shifts. -/
def absorb (g k r word : Nat) : Nat := (shift g)^[k] (r ^^^ word)

/-- What a register of `w` bits divides by: the leading term, then the bits of `g`. -/
noncomputable def divisor (w g : Nat) : (ZMod 2)[X] := X ^ w + ofBits (bits w g)

variable {w g : Nat}

theorem monic_divisor (w g : Nat) : (divisor w g).Monic :=
  monic_X_pow_add (by simpa using degree_ofBits_lt (bits w g))

theorem degree_divisor (w g : Nat) : (divisor w g).degree = w := by
  have hlt : (ofBits (bits w g)).degree < ((X : (ZMod 2)[X]) ^ w).degree := by
    rw [degree_X_pow]
    simpa using degree_ofBits_lt (bits w g)
  rw [divisor, degree_add_eq_left_of_degree_lt hlt, degree_X_pow]

theorem shift_lt {r : Nat} (hg : g < 2 ^ w) (hr : r < 2 ^ w) : shift g r < 2 ^ w := by
  have hhalf : r >>> 1 < 2 ^ w := lt_of_le_of_lt (Nat.shiftRight_le r 1) hr
  refine Nat.xor_lt_two_pow hhalf ?_
  split
  · exact hg
  · exact Nat.two_pow_pos w

/-- The class of what the register holds. -/
noncomputable def residue (w g r : Nat) : AdjoinRoot (divisor w g) :=
  AdjoinRoot.mk (divisor w g) (ofBits (bits w r))

theorem residue_xor (m n : Nat) : residue w g (m ^^^ n) = residue w g m + residue w g n := by
  simp only [residue, ofBits_bits_xor, map_add]

/-- A shift to the right of `w` bits, with the bit that falls out put back on top. -/
theorem X_mul_ofBits_bits {r : Nat} (hr : r < 2 ^ w) :
    X * ofBits (bits w r) = (if r.testBit 0 then X ^ w else 0) + ofBits (bits w (r >>> 1)) := by
  have htop := congrArg ofBits (bits_add_of_lt hr 1)
  rw [bits_succ, ofBits_cons, ofBits_append, length_bits, ofBits_replicate_false, add_zero,
    List.length_replicate, pow_one] at htop
  rw [htop, mul_comm]

theorem residue_shift {r : Nat} (hr : r < 2 ^ w) :
    residue w g (shift g r) = AdjoinRoot.root (divisor w g) * residue w g r := by
  rw [residue, residue, ← AdjoinRoot.mk_X, ← map_mul, AdjoinRoot.mk_eq_mk, X_mul_ofBits_bits hr,
    shift, ofBits_bits_xor]
  cases r.testBit 0
  · simp [bits_zero]
  · refine ⟨1, ?_⟩
    have hdouble : (X : (ZMod 2)[X]) ^ w + X ^ w = 0 := CharTwo.add_self_eq_zero _
    rw [if_pos rfl, if_pos rfl, divisor]
    linear_combination -hdouble

/-- Shifting multiplies by the root, and stays in the register. -/
theorem residue_iterate_shift (hg : g < 2 ^ w) {r : Nat} (hr : r < 2 ^ w) (n : Nat) :
    (shift g)^[n] r < 2 ^ w ∧
      residue w g ((shift g)^[n] r) = AdjoinRoot.root (divisor w g) ^ n * residue w g r := by
  induction n with
  | zero => exact ⟨hr, by rw [pow_zero, one_mul]; rfl⟩
  | succ n ih =>
    rw [Function.iterate_succ_apply']
    exact ⟨shift_lt hg ih.1, by rw [residue_shift ih.1, ih.2, pow_succ']; ring⟩

/-- A word of `k` bits is at the top of the register. -/
theorem residue_word {k word : Nat} (hk : k ≤ w) (hword : word < 2 ^ k) :
    residue w g word = AdjoinRoot.root (divisor w g) ^ (w - k) *
      AdjoinRoot.mk (divisor w g) (ofBits (bits k word)) := by
  have hbits := bits_add_of_lt hword (w - k)
  rw [Nat.add_sub_cancel' hk] at hbits
  rw [residue, hbits, ofBits_append, ofBits_replicate_false, add_zero, List.length_replicate,
    map_mul, map_pow, AdjoinRoot.mk_X, mul_comm]

theorem residue_absorb (hg : g < 2 ^ w) {k r word : Nat} (hk : k ≤ w) (hr : r < 2 ^ w)
    (hword : word < 2 ^ k) :
    absorb g k r word < 2 ^ w ∧
      residue w g (absorb g k r word) = AdjoinRoot.root (divisor w g) ^ k * residue w g r +
        AdjoinRoot.root (divisor w g) ^ w *
          AdjoinRoot.mk (divisor w g) (ofBits (bits k word)) := by
  have hwide : word < 2 ^ w := lt_of_lt_of_le hword (Nat.pow_le_pow_right (by decide) hk)
  obtain ⟨hlt, hres⟩ := residue_iterate_shift hg (Nat.xor_lt_two_pow hr hwide) k
  refine ⟨hlt, ?_⟩
  rw [absorb, hres, residue_xor, residue_word hk hword, mul_add, ← mul_assoc, ← pow_add,
    Nat.add_sub_cancel' hk]

/-- The register after a row of words, as a class. -/
theorem residue_foldl_absorb (hg : g < 2 ^ w) {k : Nat} (hk : k ≤ w) {words : List Nat}
    (hwords : ∀ word ∈ words, word < 2 ^ k) {r : Nat} (hr : r < 2 ^ w) :
    words.foldl (absorb g k) r < 2 ^ w ∧
      residue w g (words.foldl (absorb g k) r) =
        AdjoinRoot.mk (divisor w g) (X ^ w * ofBits (words.flatMap (bits k)) +
          X ^ (k * words.length) * ofBits (bits w r)) := by
  induction words generalizing r with
  | nil => exact ⟨hr, by simp [residue]⟩
  | cons word words ih =>
    rw [List.forall_mem_cons] at hwords
    obtain ⟨hlt, hres⟩ := residue_absorb hg hk hr hwords.1
    obtain ⟨hlt', hres'⟩ := ih hwords.2 hlt
    have hpow : (X : (ZMod 2)[X]) ^ (k * (word :: words).length) =
        X ^ (k * words.length) * X ^ k := by
      rw [List.length_cons, mul_add, mul_one, pow_add]
    refine ⟨hlt', ?_⟩
    rw [List.foldl_cons, hres', List.flatMap_cons, ofBits_append, length_flatMap_bits, hpow]
    rw [residue, residue] at hres
    simp only [map_add, map_mul, map_pow, AdjoinRoot.mk_X, hres]
    ring

/-- The register holds the remainder of the words' polynomial, moved up by its width, with
what it held at the start in front. -/
theorem ofBits_foldl_absorb (hg : g < 2 ^ w) {k : Nat} (hk : k ≤ w) {words : List Nat}
    (hwords : ∀ word ∈ words, word < 2 ^ k) {r : Nat} (hr : r < 2 ^ w) :
    ofBits (bits w (words.foldl (absorb g k) r)) =
      (X ^ w * ofBits (words.flatMap (bits k)) + X ^ (k * words.length) * ofBits (bits w r)) %
        divisor w g := by
  have hres := (residue_foldl_absorb hg hk hwords hr).2
  have hdeg : (ofBits (bits w (words.foldl (absorb g k) r))).degree < (divisor w g).degree := by
    rw [degree_divisor]
    simpa using degree_ofBits_lt (bits w (words.foldl (absorb g k) r))
  rw [← mod_eq_of_dvd_sub (AdjoinRoot.mk_eq_mk.mp hres),
    (mod_eq_self_iff (monic_divisor w g).ne_zero).mpr hdeg]

/-! ### Bursts -/

/-- The lowest coefficient of the divisor is the top bit of `g`. -/
theorem not_X_dvd_divisor {v : Nat} (hg : g.testBit v) : ¬ X ∣ divisor (v + 1) g := by
  have htop : bits 1 (g >>> v) = [true] := by
    simp [bits, hg]
  rw [X_dvd_iff, divisor, bits_add, htop, ofBits_append, ofBits_cons]
  simp

/-- A row that is zero outside a window, as the polynomial of the window. -/
theorem ofBits_window {l : List Bool} {k n : Nat}
    (h : ∀ i, l[i]? = some true → k ≤ i ∧ i < k + n) :
    ofBits l = ofBits ((l.drop k).take n) * X ^ ((l.drop k).drop n).length := by
  have hfront : ofBits (l.take k) = 0 := by
    refine ofBits_eq_zero fun b hb => ?_
    obtain ⟨i, hi⟩ := List.mem_iff_getElem?.mp hb
    rw [List.getElem?_take] at hi
    split at hi
    · cases b with
      | false => rfl
      | true => have := h i hi; omega
    · cases hi
  have hback : ofBits ((l.drop k).drop n) = 0 := by
    refine ofBits_eq_zero fun b hb => ?_
    obtain ⟨i, hi⟩ := List.mem_iff_getElem?.mp hb
    rw [List.getElem?_drop, List.getElem?_drop] at hi
    cases b with
    | false => rfl
    | true => have := h _ hi; omega
  conv_lhs => rw [← List.take_append_drop k l, ← List.take_append_drop n (l.drop k)]
  rw [ofBits_append, hfront, zero_mul, zero_add, ofBits_append, hback, add_zero]

/-- A divisor that `X` does not divide tells apart two rows that differ within a window as wide
as the register. -/
theorem eq_of_dvd_of_window (hX : ¬ X ∣ divisor w g) {a b : List Bool} (hlen : a.length = b.length)
    {k : Nat} (hwindow : ∀ i, a[i]? ≠ b[i]? → k ≤ i ∧ i < k + w) {n : Nat}
    (h : divisor w g ∣ X ^ n * (ofBits a + ofBits b)) : a = b := by
  set l := List.zipWith xor a b with hl
  have hget : ∀ i : Nat, l[i]? = some true → a[i]? ≠ b[i]? := by
    intro i hi heq
    rw [hl, List.getElem?_zipWith, heq] at hi
    cases hb : b[i]? with
    | none => rw [hb] at hi; cases hi
    | some x => rw [hb] at hi; simp at hi
  have hcoprime : IsCoprime (divisor w g) X := (prime_X.coprime_iff_not_dvd.mpr hX).symm
  have hzero : ∀ i, l[i]? = some true → k ≤ i ∧ i < k + w := fun i hi => hwindow i (hget i hi)
  have hw := ofBits_window hzero
  rw [← ofBits_zipWith_xor hlen, ← hl, hw] at h
  have hdvd : divisor w g ∣ ofBits ((l.drop k).take w) :=
    hcoprime.pow_right.dvd_of_dvd_mul_right (hcoprime.pow_right.dvd_of_dvd_mul_left h)
  have hdeg : (ofBits ((l.drop k).take w)).degree < (divisor w g).degree := by
    rw [degree_divisor]
    refine lt_of_lt_of_le (degree_ofBits_lt _) ?_
    exact_mod_cast List.length_take_le _ _
  rw [eq_zero_of_dvd_of_degree_lt hdvd hdeg, zero_mul] at hw
  have hall := eq_false_of_ofBits_eq_zero hw
  refine List.ext_getElem hlen fun i ha hb => ?_
  have hi : l[i]? = some (xor a[i] b[i]) := by
    rw [hl, List.getElem?_zipWith, List.getElem?_eq_getElem ha, List.getElem?_eq_getElem hb]
  have hfalse := hall _ (List.mem_of_getElem? hi)
  simpa using hfalse

/-- Two rows of words that differ within a window as wide as the register leave it different. -/
theorem eq_of_foldl_absorb_eq (hX : ¬ X ∣ divisor w g) (hg : g < 2 ^ w) {k : Nat} (hk : k ≤ w)
    {xs ys : List Nat} (hx : ∀ x ∈ xs, x < 2 ^ k) (hy : ∀ y ∈ ys, y < 2 ^ k)
    (hlen : xs.length = ys.length) {n : Nat}
    (hwindow : ∀ i : Nat, (xs.flatMap (bits k))[i]? ≠ (ys.flatMap (bits k))[i]? →
      n ≤ i ∧ i < n + w) {r : Nat} (hr : r < 2 ^ w)
    (h : xs.foldl (absorb g k) r = ys.foldl (absorb g k) r) : xs = ys := by
  have hclass := congrArg (residue w g) h
  rw [(residue_foldl_absorb hg hk hx hr).2, (residue_foldl_absorb hg hk hy hr).2, hlen,
    AdjoinRoot.mk_eq_mk, add_sub_add_right_eq_sub, ← mul_sub, CharTwo.sub_eq_add] at hclass
  have hbits := eq_of_dvd_of_window hX (by rw [length_flatMap_bits, length_flatMap_bits, hlen])
    hwindow hclass
  exact eq_of_flatMap_bits_eq hx hy hlen hbits

end ShiftRegister

end SoftHier.Foundation
