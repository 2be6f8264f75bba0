/-
  Foundation/Numeral.lean --- numbers as text: the decimal and hexadecimal
  forms a program prints, the readers that take them back, the order of texts of
  digits, and the lines of a text.
-/
import Mathlib.Data.Char
import Mathlib.Data.List.Basic
import Mathlib.Data.List.Lex
import Mathlib.Tactic.IntervalCases
import Mathlib.Tactic.Positivity

set_option autoImplicit false

namespace SoftHier.Foundation

/-- A text, character by character. -/
abbrev Text : Type := List Char

namespace Numeral

/-! ## Decimal -/

/-- `str(n)`. -/
def decimal (n : Nat) : Text := Nat.toDigits 10 n

/-- `int(text)` on decimal digits. -/
def ofDecimal (t : Text) : Nat := Nat.ofDigitChars 10 t 0

@[simp] theorem ofDecimal_decimal (n : Nat) : ofDecimal (decimal n) = n :=
  Nat.ofDigitChars_ten_toDigits

theorem decimal_injective : Function.Injective decimal :=
  Function.LeftInverse.injective ofDecimal_decimal

@[simp] theorem decimal_inj {a b : Nat} : decimal a = decimal b ↔ a = b :=
  decimal_injective.eq_iff

/-! ## The order of digits -/

/-- A text of decimal digits. -/
def IsDigits (t : Text) : Prop := ∀ c ∈ t, c.isDigit

theorem isDigits_decimal (n : Nat) : IsDigits (decimal n) :=
  fun _ hc => Nat.isDigit_of_mem_toDigits (by decide) (by decide) hc

theorem ofDecimal_append (s t : Text) :
    ofDecimal (s ++ t) = ofDecimal s * 10 ^ t.length + ofDecimal t := by
  unfold ofDecimal
  rw [Nat.ofDigitChars_append, Nat.ofDigitChars_eq_ofDigitChars_zero, Nat.mul_comm]

theorem ofDecimal_cons (c : Char) (t : Text) :
    ofDecimal (c :: t) = (c.toNat - '0'.toNat) * 10 ^ t.length + ofDecimal t := by
  unfold ofDecimal
  rw [Nat.ofDigitChars_cons, Nat.ofDigitChars_eq_ofDigitChars_zero, Nat.mul_zero, Nat.zero_add,
    Nat.mul_comm]

theorem digit_bounds {c : Char} (h : c.isDigit) : '0'.toNat ≤ c.toNat ∧ c.toNat ≤ '9'.toNat := by
  rw [Char.isDigit, Bool.and_eq_true, decide_eq_true_eq, decide_eq_true_eq] at h
  exact h

theorem ofDecimal_lt {t : Text} (h : IsDigits t) : ofDecimal t < 10 ^ t.length := by
  induction t with
  | nil => decide
  | cons c t ih =>
    have hrest := ih fun d hd => h d (List.mem_cons_of_mem c hd)
    have hdigit : c.toNat ≤ 57 := (digit_bounds (h c List.mem_cons_self)).2
    have hzero : '0'.toNat = 48 := rfl
    rw [ofDecimal_cons, List.length_cons, Nat.pow_succ]
    have := Nat.mul_le_mul_right (10 ^ t.length) (show c.toNat - '0'.toNat ≤ 9 by omega)
    omega

/-- The first digits of a number. -/
theorem ofDecimal_take {t : Text} (h : IsDigits t) (k : Nat) :
    ofDecimal (t.take k) = ofDecimal t / 10 ^ (t.length - k) := by
  have hrest : ofDecimal (t.drop k) < 10 ^ (t.drop k).length :=
    ofDecimal_lt fun c hc => h c (List.mem_of_mem_drop hc)
  conv_rhs => rw [← List.take_append_drop k t, ofDecimal_append]
  rw [List.take_append_drop, ← List.length_drop, Nat.add_comm,
    Nat.add_mul_div_right _ _ (by positivity), Nat.div_eq_of_lt hrest, Nat.zero_add]

/-- Texts of as many digits are ordered as their numbers. -/
theorem lt_iff_ofDecimal_lt {s t : Text} (hs : IsDigits s) (ht : IsDigits t)
    (hlen : s.length = t.length) : s < t ↔ ofDecimal s < ofDecimal t := by
  induction s generalizing t with
  | nil =>
    obtain rfl := List.length_eq_zero_iff.mp hlen.symm
    exact iff_of_false (List.not_lt_nil []) (lt_irrefl _)
  | cons a s ih =>
    cases t with
    | nil => cases hlen
    | cons b t =>
      replace hlen := Nat.succ.inj hlen
      have hs' : IsDigits s := fun c hc => hs c (List.mem_cons_of_mem a hc)
      have ht' : IsDigits t := fun c hc => ht c (List.mem_cons_of_mem b hc)
      have ha := (digit_bounds (hs a List.mem_cons_self)).1
      have hb := (digit_bounds (ht b List.mem_cons_self)).1
      have hvs := ofDecimal_lt hs'
      have hvt := ofDecimal_lt ht'
      have hstep : ∀ {i j : Nat}, i < j → (i + 1) * 10 ^ t.length ≤ j * 10 ^ t.length :=
        fun h => Nat.mul_le_mul_right _ h
      rw [List.cons_lt_cons_iff, ih hs' ht' hlen, ofDecimal_cons, ofDecimal_cons, hlen]
      rw [hlen] at hvs
      rcases lt_trichotomy a b with hab | rfl | hab
      · have := hstep (show a.toNat - '0'.toNat < b.toNat - '0'.toNat from
          Nat.sub_lt_sub_right ha hab)
        rw [Nat.add_mul, Nat.one_mul] at this
        exact iff_of_true (.inl hab) (by omega)
      · simp
      · have := hstep (show b.toNat - '0'.toNat < a.toNat - '0'.toNat from
          Nat.sub_lt_sub_right hb hab)
        rw [Nat.add_mul, Nat.one_mul] at this
        refine iff_of_false ?_ (by omega)
        rintro (h | ⟨rfl, -⟩)
        · exact lt_asymm hab h
        · exact lt_irrefl a hab

theorem length_decimal_le {a b : Nat} (h : a ≤ b) : (decimal a).length ≤ (decimal b).length := by
  have hlen : ∀ n, 0 < (decimal n).length := fun n => Nat.length_toDigits_pos
  refine (Nat.length_toDigits_le_iff (by decide) (hlen b)).mpr (lt_of_le_of_lt h ?_)
  exact (Nat.length_toDigits_le_iff (by decide) (hlen b)).mp le_rfl

/-! ## Hexadecimal -/

/-- `%X`. -/
def upperHex (n : Nat) : Text := (Nat.toDigits 16 n).map Char.toUpper

/-- Zeros in front of a number, up to a width. -/
def zeroPad (width : Nat) (t : Text) : Text := List.replicate (width - t.length) '0' ++ t

/-- The value of an upper-case hexadecimal digit. -/
def hexDigit? (c : Char) : Option Nat :=
  if '0' ≤ c ∧ c ≤ '9' then some (c.toNat - '0'.toNat)
  else if 'A' ≤ c ∧ c ≤ 'F' then some (c.toNat - 'A'.toNat + 10)
  else none

/-- Read hexadecimal digits after the value `acc`. -/
def readHex (acc : Nat) : Text → Option Nat
  | [] => some acc
  | c :: cs =>
      match hexDigit? c with
      | none => none
      | some d => readHex (16 * acc + d) cs

/-- Read a non-empty upper-case hexadecimal number. -/
def ofUpperHex? (t : Text) : Option Nat := if t = [] then none else readHex 0 t

theorem hexDigit?_digitChar {d : Nat} (h : d < 16) :
    hexDigit? (Nat.digitChar d).toUpper = some d := by
  interval_cases d <;> decide

theorem readHex_append (acc : Nat) (s t : Text) :
    readHex acc (s ++ t) = (readHex acc s).bind fun v => readHex v t := by
  induction s generalizing acc with
  | nil => rfl
  | cons c s ih =>
    simp only [List.cons_append, readHex]
    cases hexDigit? c with
    | none => rfl
    | some d => exact ih _

theorem readHex_zeros (n : Nat) (t : Text) :
    readHex 0 (List.replicate n '0' ++ t) = readHex 0 t := by
  induction n with
  | zero => rfl
  | succ n ih =>
    rw [List.replicate_succ, List.cons_append, readHex,
      show hexDigit? '0' = some 0 from by decide]
    exact ih

theorem readHex_upperHex (n : Nat) : readHex 0 (upperHex n) = some n := by
  induction n using Nat.strong_induction_on with
  | h n ih =>
    by_cases hn : n < 16
    · rw [upperHex, Nat.toDigits_of_lt_base hn]
      simp [readHex, hexDigit?_digitChar hn]
    · rw [upperHex, Nat.toDigits_of_base_le (by omega) (by omega), List.map_append,
        readHex_append]
      have hrec := ih (n / 16) (by omega)
      rw [upperHex] at hrec
      rw [hrec]
      simp only [Option.bind_some, List.map_cons, List.map_nil, readHex,
        hexDigit?_digitChar (Nat.mod_lt n (by omega : 0 < 16))]
      congr 1
      omega

theorem upperHex_ne_nil (n : Nat) : upperHex n ≠ [] := by
  simp [upperHex, Nat.toDigits_ne_nil]

@[simp] theorem ofUpperHex?_upperHex (n : Nat) : ofUpperHex? (upperHex n) = some n := by
  rw [ofUpperHex?, if_neg (upperHex_ne_nil n), readHex_upperHex]

@[simp] theorem ofUpperHex?_zeroPad (width n : Nat) :
    ofUpperHex? (zeroPad width (upperHex n)) = some n := by
  have hne : zeroPad width (upperHex n) ≠ [] := by
    simp [zeroPad, upperHex_ne_nil]
  rw [ofUpperHex?, if_neg hne, zeroPad, readHex_zeros, readHex_upperHex]

/-- A number below `16 ^ width` is printed on exactly `width` digits. -/
theorem length_zeroPad_upperHex {width n : Nat} (hw : 0 < width) (h : n < 16 ^ width) :
    (zeroPad width (upperHex n)).length = width := by
  have hlen : (upperHex n).length ≤ width := by
    rw [upperHex, List.length_map, Nat.length_toDigits_le_iff (by omega) hw]
    exact h
  rw [zeroPad, List.length_append, List.length_replicate]
  omega

theorem isSome_hexDigit?_of_mem_upperHex {c : Char} {n : Nat} (h : c ∈ upperHex n) :
    (hexDigit? c).isSome := by
  induction n using Nat.strong_induction_on with
  | h n ih =>
    by_cases hn : n < 16
    · rw [upperHex, Nat.toDigits_of_lt_base hn, List.map_singleton, List.mem_singleton] at h
      rw [h, hexDigit?_digitChar hn, Option.isSome_some]
    · rw [upperHex, Nat.toDigits_of_base_le (by omega) (by omega), List.map_append,
        List.mem_append, List.map_singleton, List.mem_singleton] at h
      rcases h with h | h
      · exact ih (n / 16) (by omega) h
      · rw [h, hexDigit?_digitChar (Nat.mod_lt n (by omega)), Option.isSome_some]

theorem mem_upperHex {c : Char} {n : Nat} (h : c ∈ upperHex n) : c ≠ ' ' ∧ c ≠ '\n' := by
  have hdigit := isSome_hexDigit?_of_mem_upperHex h
  constructor
  · rintro rfl
    exact absurd hdigit (by decide)
  · rintro rfl
    exact absurd hdigit (by decide)

theorem mem_zeroPad_upperHex {c : Char} {width n : Nat} (h : c ∈ zeroPad width (upperHex n)) :
    c ≠ ' ' ∧ c ≠ '\n' := by
  rw [zeroPad, List.mem_append] at h
  rcases h with h | h
  · rw [List.eq_of_mem_replicate h]; decide
  · exact mem_upperHex h

end Numeral

/-! ## Lines -/

/-- The lines of a text. -/
def textLines : Text → List Text
  | [] => []
  | c :: cs =>
      if c = '\n' then [] :: textLines cs
      else
        match textLines cs with
        | [] => [[c]]
        | line :: rest => (c :: line) :: rest

theorem textLines_append_newline {line : Text} (h : ∀ c ∈ line, c ≠ '\n') (rest : Text) :
    textLines (line ++ '\n' :: rest) = line :: textLines rest := by
  induction line with
  | nil => simp [textLines]
  | cons c line ih =>
    have hc : c ≠ '\n' := h c List.mem_cons_self
    rw [List.cons_append, textLines, if_neg hc, ih fun d hd => h d (List.mem_cons_of_mem _ hd)]

end SoftHier.Foundation
