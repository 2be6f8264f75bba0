/-
  Gapy/StimuliOrder.lean --- the order of the lines of a preload file.

  `__add_mem_word` stores an address as its decimal text and `__gen_stim_slm`
  sorts these texts.  Texts of as many digits are ordered as their numbers; of a
  shorter and a longer one, the longer one counts with its first digits only.
-/
import SoftHier.Gapy.StimuliImage

set_option autoImplicit false

namespace SoftHier.Gapy.RtlTestbench

open SoftHier.Foundation

/-! ## The order of texts -/

theorem textLe_iff_not_lt (s t : Text) : textLe s t = true ↔ ¬ t < s := by
  induction s generalizing t with
  | nil => exact iff_of_true rfl (List.not_lt_nil t)
  | cons a s ih =>
    cases t with
    | nil => exact iff_of_false (by simp [textLe]) (not_not.mpr (List.nil_lt_cons a s))
    | cons b t =>
      rw [textLe, List.cons_lt_cons_iff]
      by_cases hab : a = b
      · subst hab
        simp [ih]
      · have hle : a.toNat < b.toNat ↔ a < b := Iff.rfl
        have hlt : a < b ↔ ¬ b < a := by
          rw [not_lt]
          exact ⟨le_of_lt, fun h => lt_of_le_of_ne h hab⟩
        rw [if_neg hab, decide_eq_true_eq, hle, hlt, not_or]
        exact (and_iff_left fun h => hab h.1.symm).symm

theorem textLe_iff (s t : Text) : textLe s t = true ↔ s ≤ t :=
  (textLe_iff_not_lt s t).trans not_lt

/-- A text is compared with as many characters as it has. -/
theorem textLe_take {s t : Text} (h : s.length ≤ t.length) :
    textLe s t = textLe s (t.take s.length) := by
  induction s generalizing t with
  | nil => rfl
  | cons a s ih =>
    cases t with
    | nil => exact absurd h (Nat.not_succ_le_zero _)
    | cons b t =>
      rw [List.length_cons, List.take_succ_cons, textLe, textLe, ih (Nat.le_of_succ_le_succ h)]

/-- The texts of two numbers are ordered as the smaller one and the first digits of the
larger one. -/
theorem textLe_decimal_iff {a b : Nat} (h : a ≤ b) :
    textLe (Numeral.decimal a) (Numeral.decimal b) = true ↔
      a ≤ b / 10 ^ ((Numeral.decimal b).length - (Numeral.decimal a).length) := by
  have hlen := Numeral.length_decimal_le h
  have hdigits := Numeral.isDigits_decimal b
  rw [textLe_take hlen, textLe_iff_not_lt, Numeral.lt_iff_ofDecimal_lt
    (fun c hc => hdigits c (List.mem_of_mem_take hc)) (Numeral.isDigits_decimal a)
    (List.length_take_of_le hlen), not_lt, Numeral.ofDecimal_take hdigits,
    Numeral.ofDecimal_decimal, Numeral.ofDecimal_decimal]

/-! ## The addresses of the lines -/

/-- The address a line begins with. -/
def lineAddress? (stimFormat : StimFormat) (line : Text) : Option Nat :=
  match stimFormat, line with
  | .slm, '@' :: rest => Numeral.ofUpperHex? (rest.takeWhile (· ≠ ' '))
  | .slm, _ => none
  | .plain, line => Numeral.ofUpperHex? (line.takeWhile (· ≠ '_'))

/-- The addresses of the lines of a file. -/
def addresses? (stimFormat : StimFormat) (file : Text) : Option (List Nat) :=
  (textLines file).mapM (lineAddress? stimFormat)

/-- The lines of a file come in strictly increasing order of their addresses. -/
def InOrder (stimFormat : StimFormat) (file : Text) : Prop :=
  ∃ addresses, addresses? stimFormat file = some addresses ∧ addresses.Pairwise (· < ·)

/-- The images `__add_mem` builds, call by call. -/
inductive Built (width : Nat) : Mem → Prop
  | empty : Built width Dict.empty
  | addMem {mem : Mem} (base size : Nat) (data : Bytes) :
      Built width mem → Built width (addMem mem base size data width)

/-- The image has a word at an address. -/
def Mem.Holds (mem : Mem) (a : Nat) : Prop := Numeral.decimal a ∈ mem.keys

/-- Of two addresses, the smaller one is at most what the first digits of the larger one
are, as many as it has itself. -/
def LeadingOrdered (mem : Mem) : Prop :=
  ∀ a b, mem.Holds a → mem.Holds b → a < b →
    a ≤ b / 10 ^ ((Numeral.decimal b).length - (Numeral.decimal a).length)

/-- Every key is the decimal text of an address. -/
def DecimalKeys (mem : Mem) : Prop := ∀ k ∈ mem.keys, ∃ a, k = Numeral.decimal a

theorem decimalKeys_addMemWord {mem : Mem} (h : DecimalKeys mem) (base size : Nat) (data : Bytes)
    (width : Nat) : DecimalKeys (addMemWord mem base size data width).2 := by
  intro k hk
  rcases Dict.mem_keys_set.mp hk with rfl | hk
  · exact ⟨_, rfl⟩
  · exact h k hk

theorem decimalKeys_addMemLoop (width : Nat) : ∀ (fuel : Nat) {mem : Mem} (base size : Nat)
    (data : Bytes), DecimalKeys mem → DecimalKeys (addMemLoop width fuel mem base size data) := by
  intro fuel
  induction fuel with
  | zero => exact fun _ _ _ h => h
  | succ fuel ih =>
    intro mem base size data h
    rw [addMemLoop]
    split
    · exact ih _ _ _ (decimalKeys_addMemWord h base size data width)
    · exact h

theorem Built.decimalKeys {width : Nat} {mem : Mem} (h : Built width mem) : DecimalKeys mem := by
  induction h with
  | empty => exact fun k hk => absurd hk List.not_mem_nil
  | addMem base size data _ ih => exact decimalKeys_addMemLoop width size base size data ih

theorem pairwise_sortedKeys (mem : Mem) :
    (sortedKeys mem).Pairwise fun k k' => textLe k k' = true := by
  refine List.pairwise_mergeSort ?_ ?_ mem.keys
  · intro a b c hab hbc
    rw [textLe_iff] at *
    exact le_trans hab hbc
  · intro a b
    rw [Bool.or_eq_true, textLe_iff, textLe_iff]
    exact le_total a b

/-! ## Reading the lines -/

/-- What a line begins with, up to a character that is no hexadecimal digit. -/
theorem takeWhile_upperHex {c : Char} (hc : Numeral.hexDigit? c = none) (n : Nat) (rest : Text) :
    (Numeral.upperHex n ++ c :: rest).takeWhile (· ≠ c) = Numeral.upperHex n := by
  rw [List.takeWhile_append_of_pos, List.takeWhile_cons_of_neg (by simp), List.append_nil]
  intro d hd
  have hdigit := Numeral.isSome_hexDigit?_of_mem_upperHex hd
  rw [decide_eq_true_eq]
  rintro rfl
  rw [hc] at hdigit
  cases hdigit

/-- A line is the address, the value and nothing but them. -/
theorem stimLine_cases (mem : Mem) (width : Nat) (stimFormat : StimFormat) (key : Text) :
    ∃ line, stimLine mem width stimFormat key = line ++ ['\n'] ∧ (∀ c ∈ line, c ≠ '\n') ∧
      lineAddress? stimFormat line = some (Numeral.ofDecimal key) := by
  have haddress : ∀ c ∈ Numeral.upperHex (Numeral.ofDecimal key), c ≠ '\n' :=
    fun c hc => (Numeral.mem_upperHex hc).2
  have hvalue : ∀ c ∈ Numeral.zeroPad (width * 2) (Numeral.upperHex ((mem.get key).getD 0)),
      c ≠ '\n' := fun c hc => (Numeral.mem_zeroPad_upperHex hc).2
  unfold stimLine
  cases stimFormat with
  | slm =>
    refine ⟨'@' :: Numeral.upperHex (Numeral.ofDecimal key) ++
      ' ' :: Numeral.zeroPad (width * 2) (Numeral.upperHex ((mem.get key).getD 0)),
      by simp, ?_, ?_⟩
    · simp only [List.cons_append, List.mem_cons, List.mem_append]
      rintro c (rfl | hc | rfl | hc)
      · decide
      · exact haddress c hc
      · decide
      · exact hvalue c hc
    · rw [List.cons_append, lineAddress?, takeWhile_upperHex (by decide),
        Numeral.ofUpperHex?_upperHex]
  | plain =>
    refine ⟨Numeral.upperHex (Numeral.ofDecimal key) ++
      '_' :: Numeral.zeroPad (width * 2) (Numeral.upperHex ((mem.get key).getD 0)),
      by simp, ?_, ?_⟩
    · simp only [List.mem_cons, List.mem_append]
      rintro c (hc | rfl | hc)
      · exact haddress c hc
      · decide
      · exact hvalue c hc
    · rw [lineAddress?, takeWhile_upperHex (by decide), Numeral.ofUpperHex?_upperHex]

theorem addresses?_flatMap (mem : Mem) (width : Nat) (stimFormat : StimFormat)
    (keys : List Text) :
    addresses? stimFormat (keys.flatMap (stimLine mem width stimFormat)) =
      some (keys.map Numeral.ofDecimal) := by
  induction keys with
  | nil => rfl
  | cons key keys ih =>
    obtain ⟨line, hline, hnewline, haddress⟩ := stimLine_cases mem width stimFormat key
    rw [addresses?] at ih ⊢
    rw [List.flatMap_cons, hline, List.append_assoc, List.singleton_append,
      textLines_append_newline hnewline, List.mapM_cons, haddress, ih]
    rfl

/-- The lines come in the order of the sorted keys. -/
theorem inOrder_genStimSlm_iff {mem : Mem} {width : Nat} {stimFormat : StimFormat} :
    InOrder stimFormat (genStimSlm mem width stimFormat) ↔
      (sortedKeys mem).Pairwise fun k k' => Numeral.ofDecimal k < Numeral.ofDecimal k' := by
  unfold InOrder genStimSlm
  rw [addresses?_flatMap, ← List.pairwise_map]
  simp only [Option.some.injEq, exists_eq_left']

/-! ## The order of the lines -/

/-- Of two keys the one that is printed first is the smaller one as a text. -/
theorem sortedKeys_cases (mem : Mem) {R : Text → Text → Prop} (h : (sortedKeys mem).Pairwise R)
    {k k' : Text} (hk : k ∈ mem.keys) (hk' : k' ∈ mem.keys) (hne : k ≠ k') : R k k' ∨ R k' k := by
  have hboth : (sortedKeys mem).Pairwise fun x y => R x y ∨ R y x := h.imp Or.inl
  have : Std.Symm fun x y => R x y ∨ R y x := ⟨fun _ _ h => h.symm⟩
  exact hboth.forall ((sortedKeys_perm mem).mem_iff.mpr hk)
    ((sortedKeys_perm mem).mem_iff.mpr hk') hne

theorem textLe_of_inOrder {mem : Mem}
    (h : (sortedKeys mem).Pairwise fun k k' => Numeral.ofDecimal k < Numeral.ofDecimal k')
    {a b : Nat} (ha : mem.Holds a) (hb : mem.Holds b) (hlt : a < b) :
    textLe (Numeral.decimal a) (Numeral.decimal b) = true := by
  have hboth := h.and (pairwise_sortedKeys mem)
  have hne : Numeral.decimal a ≠ Numeral.decimal b := by
    rw [ne_eq, Numeral.decimal_inj]
    exact hlt.ne
  rcases sortedKeys_cases mem hboth ha hb hne with ⟨-, h⟩ | ⟨h, -⟩
  · exact h
  · rw [Numeral.ofDecimal_decimal, Numeral.ofDecimal_decimal] at h
    exact absurd hlt (lt_asymm h)

/-- The lines are in order exactly when the digits of the addresses are. -/
theorem genStimSlm_inOrder_iff {width : Nat} {mem : Mem} (h : Built width mem)
    (stimFormat : StimFormat) :
    InOrder stimFormat (genStimSlm mem width stimFormat) ↔ LeadingOrdered mem := by
  rw [inOrder_genStimSlm_iff]
  constructor
  · intro hsorted a b ha hb hlt
    exact (textLe_decimal_iff hlt.le).mp (textLe_of_inOrder hsorted ha hb hlt)
  · intro hleading
    have hnodup : (sortedKeys mem).Nodup :=
      (sortedKeys_perm mem).nodup_iff.mpr mem.nodup_keys
    refine List.Pairwise.imp_of_mem ?_ (hnodup.and (pairwise_sortedKeys mem))
    rintro k k' hk hk' ⟨hne, hle⟩
    replace hk := (sortedKeys_perm mem).mem_iff.mp hk
    replace hk' := (sortedKeys_perm mem).mem_iff.mp hk'
    obtain ⟨a, rfl⟩ := h.decimalKeys k hk
    obtain ⟨b, rfl⟩ := h.decimalKeys k' hk'
    rw [Numeral.ofDecimal_decimal, Numeral.ofDecimal_decimal]
    by_contra hge
    have hle' := (textLe_decimal_iff (not_lt.mp hge)).mpr
      (hleading b a hk' hk (lt_of_le_of_ne (not_lt.mp hge) fun heq => hne (heq ▸ rfl)))
    rw [textLe_iff] at hle hle'
    exact hne (le_antisymm hle hle')

theorem inOrder_twoRegions :
    InOrder .slm (genStimSlm (addMem (addMem Dict.empty 0x1c000000 4 [1, 2, 3, 4] 4)
      0x1a000000 2 [5, 6] 4) 4 .slm) := by
  refine (genStimSlm_inOrder_iff (.addMem _ _ _ (.addMem _ _ _ .empty)) .slm).mpr ?_
  intro a b ha hb hlt
  have hkeys : (addMem (addMem Dict.empty 0x1c000000 4 [1, 2, 3, 4] 4)
      0x1a000000 2 [5, 6] 4).keys =
      [Numeral.decimal 0x1c000000, Numeral.decimal 0x1a000000] := by decide +kernel
  unfold Mem.Holds at ha hb
  rw [hkeys, List.mem_pair, Numeral.decimal_inj, Numeral.decimal_inj] at ha hb
  obtain rfl : a = 0x1a000000 := by omega
  obtain rfl : b = 0x1c000000 := by omega
  decide +kernel

/-- Twelve bytes from address 8 on: 12 and 16 come before 8. -/
theorem not_genStimSlm_inOrder : ¬ ∀ (width : Nat) (mem : Mem), Built width mem →
    ∀ stimFormat, InOrder stimFormat (genStimSlm mem width stimFormat) := by
  intro hall
  have hsorted := inOrder_genStimSlm_iff.mp
    (hall 4 _ (.addMem 8 12 (List.replicate 12 0) .empty) .slm)
  have hle := textLe_of_inOrder hsorted (a := 8) (b := 12) (by unfold Mem.Holds; decide +kernel)
    (by unfold Mem.Holds; decide +kernel) (by decide)
  exact absurd hle (by decide)

end SoftHier.Gapy.RtlTestbench
