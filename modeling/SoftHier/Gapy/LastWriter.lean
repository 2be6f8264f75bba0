/-
  Gapy/LastWriter.lean --- what a sequence of `__add_mem` calls leaves in memory.

  The mask of `__add_mem_word` is `width` BITS wide and starts at the first byte
  the call writes in the word.  So a call sets the bits of its bytes, clears the
  bits its mask reaches, and leaves every other bit alone.  One word merge, one
  call and a sequence of calls are described bit by bit, and the last writer of
  every byte wins exactly where the masks happen to reach far enough and no
  further.
-/
import SoftHier.Gapy.StimuliImage

set_option autoImplicit false

namespace SoftHier.Gapy.RtlTestbench

open SoftHier.Foundation

/-! ## Calls and the bytes of the dictionary -/

/-- The arguments of one call `__add_mem(mem, base, size, data, width)`. -/
structure MemCall where
  base : Nat
  size : Nat
  data : Bytes

/-- A sequence of calls, from the empty dictionary. -/
def addMemCalls (width : Nat) (calls : List MemCall) : Mem :=
  calls.foldl (fun mem c => addMem mem c.base c.size c.data width) Dict.empty

/-- The byte the dictionary stands for at an address. -/
def byteOf (width : Nat) (mem : Mem) (a : Nat) : UInt8 :=
  UInt8.ofNat ((mem.get (Numeral.decimal (a - a % width))).getD 0 >>> (8 * (a % width)))

/-- The addresses a call covers. -/
def MemCall.Covers (c : MemCall) (a : Nat) : Prop := c.base ≤ a ∧ a < c.base + c.size

instance (c : MemCall) (a : Nat) : Decidable (c.Covers a) :=
  inferInstanceAs (Decidable (_ ∧ _))

/-- The byte a call gives at an address.  `from_bytes` reads a buffer shorter
than `size` as if zeros followed. -/
def MemCall.byteAt (c : MemCall) (a : Nat) : Option UInt8 :=
  if c.Covers a then some (c.data.getD (a - c.base) 0) else none

/-- The byte given by the last call that covers the address, or 0. -/
def lastByte (calls : List MemCall) (a : Nat) : UInt8 :=
  (calls.reverse.findSome? fun c => c.byteAt a).getD 0

/-- The byte at every address is the one its last writer gave. -/
def LastWriterWins (width : Nat) (calls : List MemCall) : Prop :=
  ∀ a, byteOf width (addMemCalls width calls) a = lastByte calls a

/-! ## The bits a call sets and clears -/

/-- Bit `i` of the byte the call gives at `a` is set. -/
def MemCall.Sets (c : MemCall) (a i : Nat) : Prop :=
  c.Covers a ∧ (c.data.getD (a - c.base) 0).toNat.testBit i = true

/-- The first address a call writes in the word of `a`. -/
def MemCall.wordStart (c : MemCall) (width a : Nat) : Nat := max c.base (a - a % width)

/-- The mask `((1 << width) - 1) << (shift * 8)` the call applies to the word of
`a` reaches bit `i` of the byte at `a`. -/
def MemCall.Clears (c : MemCall) (width a i : Nat) : Prop :=
  c.wordStart width a < min (c.base + c.size) (a - a % width + width) ∧
    c.wordStart width a ≤ a ∧ 8 * (a - c.wordStart width a) + i < width

instance (c : MemCall) (a i : Nat) : Decidable (c.Sets a i) :=
  inferInstanceAs (Decidable (_ ∧ _))

instance (c : MemCall) (width a i : Nat) : Decidable (c.Clears width a i) :=
  inferInstanceAs (Decidable (_ ∧ _ ∧ _))

/-- The masks reach far enough, and no further.  Take the last call that covers
a byte.  A bit it sets is reached by no mask after it.  A bit it leaves zero is,
for every earlier call that had set it, reached by a mask after that call. -/
def MasksFit (width : Nat) (calls : List MemCall) : Prop :=
  ∀ pre c post a, calls = pre ++ c :: post → c.Covers a → (∀ d ∈ post, ¬ d.Covers a) →
    ∀ i < 8,
      (c.Sets a i → ∀ d ∈ post, ¬ d.Clears width a i) ∧
      (¬ c.Sets a i → ∀ earlier d between, pre = earlier ++ d :: between → d.Sets a i →
        ∃ e ∈ between ++ c :: post, e.Clears width a i)

/-! ## Bits of the dictionary -/

/-- Bit `i` of the byte the dictionary stands for at `a`. -/
def bitOf (width : Nat) (mem : Mem) (a i : Nat) : Bool :=
  ((mem.get (Numeral.decimal (a - a % width))).getD 0).testBit (8 * (a % width) + i)

theorem testBit_byteOf (width : Nat) (mem : Mem) (a : Nat) {i : Nat} (hi : i < 8) :
    (byteOf width mem a).toNat.testBit i = bitOf width mem a i := by
  rw [byteOf, UInt8.toNat_ofNat', Nat.testBit_mod_two_pow, Nat.testBit_shiftRight, bitOf]
  simp [hi]

/-- Two bytes are equal when their eight bits are. -/
theorem byte_eq_of_testBit {x y : UInt8}
    (h : ∀ i < 8, x.toNat.testBit i = y.toNat.testBit i) : x = y := by
  refine UInt8.toNat_inj.mp (Nat.eq_of_testBit_eq fun i => ?_)
  by_cases hi : i < 8
  · exact h i hi
  · have hpow : 2 ^ 8 ≤ 2 ^ i := Nat.pow_le_pow_right (by omega) (by omega)
    have hx : x.toNat < 2 ^ i := lt_of_lt_of_le x.toNat_lt hpow
    have hy : y.toNat < 2 ^ i := lt_of_lt_of_le y.toNat_lt hpow
    rw [Nat.testBit_lt_two_pow hx, Nat.testBit_lt_two_pow hy]

/-- The bytes of a dictionary are those of the image it represents. -/
theorem Represents.byteOf_eq {width : Nat} (hw : 0 < width) {mem : Mem} {f : ByteMap}
    (h : Represents width mem f) (a : Nat) : byteOf width mem a = (f a).getD 0 := by
  refine byte_eq_of_testBit fun i hi => ?_
  have hlt := Nat.mod_lt a hw
  have hle := Nat.mod_le a width
  have hdvd : width ∣ a - a % width := Nat.dvd_sub_mod a
  have hdiv : (8 * (a % width) + i) / 8 = a % width := by omega
  have hmod : (8 * (a % width) + i) % 8 = i := by omega
  have haddr : a - a % width + a % width = a := by omega
  rw [testBit_byteOf width mem a hi, bitOf, h.getD hdvd, ByteMap.testBit_word, hdiv, hmod, haddr,
    decide_eq_true hlt, Bool.true_and]

theorem getD_take (data : Bytes) (n k : Nat) :
    (data.take n).getD k 0 = if k < n then data.getD k 0 else 0 := by
  rw [List.getD_eq_getElem?_getD, List.getElem?_take, List.getD_eq_getElem?_getD]
  split <;> rfl

/-- One merged word: outside the word nothing changes; inside, the bits of the
mask go and the bits of the bytes taken come. -/
theorem bitOf_addMemWord {width k : Nat} (hk : width = 2 ^ k) (mem : Mem) (base size : Nat)
    (data : Bytes) (a : Nat) {i : Nat} (hi : i < 8) :
    bitOf width (addMemWord mem base size data width).2 a i =
      if a - a % width = base - base % width then
        (bitOf width mem a i && !decide (base ≤ a ∧ 8 * (a - base) + i < width)) ||
          (decide (base ≤ a ∧ a < base + (addMemWord mem base size data width).1) &&
            (data.getD (a - base) 0).toNat.testBit i)
      else bitOf width mem a i := by
  have hpos : 0 < width := hk ▸ Nat.two_pow_pos k
  have hamod := Nat.mod_lt a hpos
  have hbmod := Nat.mod_lt base hpos
  have hale := Nat.mod_le a width
  have hble := Nat.mod_le base width
  have hfst : (addMemWord mem base size data width).1 = min (width - base % width) size := by
    simp only [addMemWord, alignedBase_eq hk]
    congr 1
    omega
  rw [hfst]
  obtain ⟨n, hn⟩ : ∃ n, n = min (width - base % width) size := ⟨_, rfl⟩
  have hshift : base - (base - base % width) = base % width := by omega
  simp only [addMemWord, alignedBase_eq hk, hshift, ← hn, bitOf]
  split
  · rename_i hword
    rw [hword, Dict.get_set_self, Option.getD_some, Nat.testBit_or, NatBits.testBit_andNot,
      Nat.testBit_shiftLeft, Nat.testBit_shiftLeft, testBit_leValue, Nat.one_shiftLeft,
      Nat.testBit_two_pow_sub_one, getD_take]
    by_cases hle : base ≤ a
    · -- the byte lies at or behind the first byte written
      have hge : 8 * (a % width) + i ≥ base % width * 8 := by omega
      have hdist : 8 * (a % width) + i - base % width * 8 = 8 * (a - base) + i := by omega
      have hdiv : (8 * (a - base) + i) / 8 = a - base := by omega
      have hmod : (8 * (a - base) + i) % 8 = i := by omega
      rw [hdist, hdiv, hmod]
      by_cases hin : a - base < n
      · simp [hge, hle, hin, show a < base + n by omega]
      · simp [hge, hle, hin, show ¬ a < base + n by omega]
    · have hlt : ¬ 8 * (a % width) + i ≥ base % width * 8 := by omega
      simp [hlt, hle]
  · rename_i hword
    have hne : Numeral.decimal (base - base % width) ≠ Numeral.decimal (a - a % width) :=
      fun h => hword (Numeral.decimal_injective h).symm
    rw [Dict.get_set_of_ne _ hne]

/-! ## One call -/

/-- Two different words of a power-of-two width share no address. -/
theorem aligned_apart {width k a b : Nat} (hk : width = 2 ^ k)
    (h : a - a % width ≠ b - b % width) :
    a - a % width + width ≤ b - b % width ∨ b - b % width + width ≤ a - a % width := by
  have hpos : 0 < width := hk ▸ Nat.two_pow_pos k
  obtain ⟨q, hq⟩ := Nat.dvd_sub_mod a (n := width)
  obtain ⟨r, hr⟩ := Nat.dvd_sub_mod b (n := width)
  rw [hq, hr] at h ⊢
  rcases Nat.lt_or_gt_of_ne (fun e => h (by rw [e]) : q ≠ r) with hlt | hlt
  · exact Or.inl (by rw [← Nat.mul_succ]; exact Nat.mul_le_mul_left _ hlt)
  · exact Or.inr (by rw [← Nat.mul_succ]; exact Nat.mul_le_mul_left _ hlt)

/-- In the word of its base a call writes from its base on. -/
theorem MemCall.clears_first {c : MemCall} {width a i : Nat} (hpos : 0 < width) (hsize : 0 < c.size)
    (hword : a - a % width = c.base - c.base % width) :
    c.Clears width a i ↔ c.base ≤ a ∧ 8 * (a - c.base) + i < width := by
  have hbmod := Nat.mod_lt c.base hpos
  have hble := Nat.mod_le c.base width
  have hstart : c.wordStart width a = c.base := by
    unfold MemCall.wordStart
    rw [hword]
    exact Nat.max_eq_left (Nat.sub_le _ _)
  unfold MemCall.Clears
  rw [hstart, hword]
  refine and_iff_right ?_
  rw [lt_min_iff]
  omega

/-- In the other words a call does what its rest behind the first word does. -/
theorem MemCall.clears_rest {width base size n a i : Nat} {data rest : Bytes} (hpos : 0 < width)
    (hn : n = min (width - base % width) size)
    (hapart : a - a % width + width ≤ base - base % width ∨
      base - base % width + width ≤ a - a % width) :
    MemCall.Clears ⟨base + n, size - n, rest⟩ width a i ↔
      MemCall.Clears ⟨base, size, data⟩ width a i := by
  have hamod := Nat.mod_lt a hpos
  have hale := Nat.mod_le a width
  have hbmod := Nat.mod_lt base hpos
  have hble := Nat.mod_le base width
  have hend : base + n + (size - n) = base + size := by omega
  unfold MemCall.Clears MemCall.wordStart
  rcases hapart with hbefore | hbehind
  · -- the word lies before the call
    have hmax : ∀ b, base ≤ b → ¬ max b (a - a % width) ≤ a := by
      intro b hb hle
      have := le_trans (le_max_left b _) hle
      omega
    exact iff_of_false (fun h => hmax _ (Nat.le_add_right _ _) h.2.1)
      fun h => hmax _ (le_refl _) h.2.1
  · have hle : base + n ≤ a - a % width := by omega
    rw [hend, Nat.max_eq_right hle, Nat.max_eq_right (Nat.le_trans (Nat.le_add_right _ _) hle)]

/-- A whole call sets the bits of its bytes and clears the bits its masks reach. -/
theorem bitOf_addMem {width k : Nat} (hk : width = 2 ^ k) :
    ∀ (size : Nat) (mem : Mem) (base : Nat) (data : Bytes) (a i : Nat), i < 8 →
      bitOf width (addMem mem base size data width) a i =
        ((bitOf width mem a i && !decide (MemCall.Clears ⟨base, size, data⟩ width a i)) ||
          decide (MemCall.Sets ⟨base, size, data⟩ a i)) := by
  have hpos : 0 < width := hk ▸ Nat.two_pow_pos k
  intro size
  induction size using Nat.strong_induction_on with
  | h size ih =>
    intro mem base data a i hi
    have hamod := Nat.mod_lt a hpos
    have hbmod := Nat.mod_lt base hpos
    have hale := Nat.mod_le a width
    have hble := Nat.mod_le base width
    rw [addMem_unfold hpos]
    split
    · rename_i hs
      have hword := bitOf_addMemWord hk mem base size data a hi
      have hfst : (addMemWord mem base size data width).1 = min (width - base % width) size := by
        simp only [addMemWord, alignedBase_eq hk]
        congr 1
        omega
      generalize addMemWord mem base size data width = r at hword hfst
      obtain ⟨n, mem'⟩ := r
      simp only at hword hfst ⊢
      rw [ih (size - n) (by omega) mem' (base + n) (data.drop n) a i hi, hword]
      by_cases hsame : a - a % width = base - base % width
      · -- the word of `base`: the rest of the call starts behind it
        have hrest : ¬ MemCall.Clears ⟨base + n, size - n, data.drop n⟩ width a i := by
          rintro ⟨hlt, -, -⟩
          rw [lt_min_iff] at hlt
          have hstart := le_max_left (base + n) (a - a % width)
          simp only [MemCall.wordStart] at hlt
          omega
        have hrest' : ¬ MemCall.Sets ⟨base + n, size - n, data.drop n⟩ a i := by
          simp only [MemCall.Sets, MemCall.Covers]
          omega
        have hclear : MemCall.Clears ⟨base, size, data⟩ width a i ↔
            base ≤ a ∧ 8 * (a - base) + i < width :=
          MemCall.clears_first hpos (by exact hs) hsame
        have hset : MemCall.Sets ⟨base, size, data⟩ a i ↔ (base ≤ a ∧ a < base + n) ∧
            (data.getD (a - base) 0).toNat.testBit i = true := by
          simp only [MemCall.Sets, MemCall.Covers]
          refine and_congr_left fun _ => ?_
          omega
        simp [hsame, hrest, hrest', hclear, hset]
      · -- another word: the word of `base` has no say in it
        have hdisj := aligned_apart hk hsame
        have hclear : MemCall.Clears ⟨base + n, size - n, data.drop n⟩ width a i ↔
            MemCall.Clears ⟨base, size, data⟩ width a i :=
          MemCall.clears_rest hpos hfst hdisj
        have hset : MemCall.Sets ⟨base + n, size - n, data.drop n⟩ a i ↔
            MemCall.Sets ⟨base, size, data⟩ a i := by
          have hcov : MemCall.Covers ⟨base + n, size - n, data.drop n⟩ a ↔
              MemCall.Covers ⟨base, size, data⟩ a := by
            simp only [MemCall.Covers]
            omega
          rw [MemCall.Sets, MemCall.Sets, hcov]
          refine and_congr_right fun hc => ?_
          have hpast : base + n ≤ a := (hcov.mpr hc).1
          rw [List.getD_eq_getElem?_getD, List.getD_eq_getElem?_getD, List.getElem?_drop,
            show n + (a - (base + n)) = a - base by omega]
        rw [if_neg hsame, decide_eq_decide.mpr hclear, decide_eq_decide.mpr hset]
    · have hz : size = 0 := by omega
      subst hz
      have hclear : ¬ MemCall.Clears ⟨base, 0, data⟩ width a i := by
        simp only [MemCall.Clears, MemCall.wordStart]
        omega
      have hset : ¬ MemCall.Sets ⟨base, 0, data⟩ a i := by
        simp only [MemCall.Sets, MemCall.Covers]
        omega
      simp [hclear, hset]

/-! ## A sequence of calls -/

/-- One round of the fold of `addMemCalls`. -/
def addMemCall (width : Nat) (mem : Mem) (c : MemCall) : Mem :=
  addMem mem c.base c.size c.data width

/-- A bit that is set after a sequence was set before it and never cleared, or
some call set it and none after that cleared it. -/
theorem bitOf_foldl {width k : Nat} (hk : width = 2 ^ k) (a : Nat) {i : Nat} (hi : i < 8) :
    ∀ (calls : List MemCall) (mem : Mem),
      bitOf width (calls.foldl (addMemCall width) mem) a i = true ↔
        (bitOf width mem a i = true ∧ ∀ d ∈ calls, ¬ d.Clears width a i) ∨
          ∃ earlier d between, calls = earlier ++ d :: between ∧ d.Sets a i ∧
            ∀ e ∈ between, ¬ e.Clears width a i := by
  intro calls
  induction calls with
  | nil => intro mem; simp
  | cons c rest ih =>
    intro mem
    have hstep : bitOf width (addMemCall width mem c) a i = true ↔
        (bitOf width mem a i = true ∧ ¬ c.Clears width a i) ∨ c.Sets a i := by
      rw [addMemCall, bitOf_addMem hk c.size mem c.base c.data a i hi]
      simp
    rw [List.foldl_cons, ih, hstep]
    constructor
    · rintro (⟨⟨hbit, hc⟩ | hset, hrest⟩ | ⟨earlier, d, between, rfl, hd, hkeep⟩)
      · refine Or.inl ⟨hbit, fun d hd => ?_⟩
        rcases List.mem_cons.mp hd with rfl | hd
        · exact hc
        · exact hrest d hd
      · exact Or.inr ⟨[], c, rest, rfl, hset, hrest⟩
      · exact Or.inr ⟨c :: earlier, d, between, rfl, hd, hkeep⟩
    · rintro (⟨hbit, hkeep⟩ | ⟨earlier, d, between, heq, hd, hkeep⟩)
      · exact Or.inl ⟨Or.inl ⟨hbit, hkeep c List.mem_cons_self⟩,
          fun d hd => hkeep d (List.mem_cons_of_mem _ hd)⟩
      · cases earlier with
        | nil =>
          obtain ⟨rfl, rfl⟩ := List.cons.inj heq
          exact Or.inl ⟨Or.inr hd, hkeep⟩
        | cons e earlier =>
          obtain ⟨rfl, rfl⟩ := List.cons.inj heq
          exact Or.inr ⟨earlier, d, between, rfl, hd, hkeep⟩

theorem bitOf_empty (width a i : Nat) : bitOf width Dict.empty a i = false := by
  simp [bitOf]

/-- The bits of a byte after its last writer `c`. -/
theorem bitOf_last {width k : Nat} (hk : width = 2 ^ k) {pre post : List MemCall} {c : MemCall}
    {a i : Nat} (hi : i < 8) (hpost : ∀ d ∈ post, ¬ d.Covers a) :
    bitOf width (addMemCalls width (pre ++ c :: post)) a i = true ↔
      (c.Sets a i ∧ ∀ e ∈ post, ¬ e.Clears width a i) ∨
        ∃ earlier d between, pre = earlier ++ d :: between ∧ d.Sets a i ∧
          ∀ e ∈ between ++ c :: post, ¬ e.Clears width a i := by
  have hcalls : addMemCalls width (pre ++ c :: post) =
      (pre ++ c :: post).foldl (addMemCall width) Dict.empty := rfl
  rw [hcalls, List.foldl_append, bitOf_foldl hk a hi, bitOf_foldl hk a hi, bitOf_empty]
  constructor
  · rintro (⟨⟨hfalse, -⟩ | ⟨earlier, d, between, rfl, hd, hkeep⟩, hrest⟩ |
      ⟨earlier, d, between, heq, hd, hkeep⟩)
    · exact absurd hfalse (by decide)
    · refine Or.inr ⟨earlier, d, between, rfl, hd, fun e he => ?_⟩
      rcases List.mem_append.mp he with he | he
      · exact hkeep e he
      · exact hrest e he
    · cases earlier with
      | nil =>
        obtain ⟨rfl, rfl⟩ := List.cons.inj heq
        exact Or.inl ⟨hd, hkeep⟩
      | cons e earlier =>
        -- a later call that sets a bit of the byte would cover it
        obtain ⟨rfl, rfl⟩ := List.cons.inj heq
        exact absurd hd.1 (hpost d (by simp))
  · rintro (⟨hset, hkeep⟩ | ⟨earlier, d, between, rfl, hd, hkeep⟩)
    · exact Or.inr ⟨[], c, post, rfl, hset, hkeep⟩
    · exact Or.inl ⟨Or.inr ⟨earlier, d, between, rfl, hd,
        fun e he => hkeep e (List.mem_append_left _ he)⟩,
        fun e he => hkeep e (List.mem_append_right _ he)⟩

theorem byteAt_eq_none_iff {c : MemCall} {a : Nat} : c.byteAt a = none ↔ ¬ c.Covers a := by
  unfold MemCall.byteAt
  split <;> simp [*]

theorem lastByte_of_last {pre post : List MemCall} {c : MemCall} {a : Nat} (hc : c.Covers a)
    (hpost : ∀ d ∈ post, ¬ d.Covers a) :
    lastByte (pre ++ c :: post) a = c.data.getD (a - c.base) 0 := by
  have hnone : post.reverse.findSome? (fun c => c.byteAt a) = none :=
    List.findSome?_eq_none_iff.mpr fun d hd =>
      byteAt_eq_none_iff.mpr (hpost d (List.mem_reverse.mp hd))
  have hsome : c.byteAt a = some (c.data.getD (a - c.base) 0) := if_pos hc
  rw [lastByte, List.reverse_append, List.reverse_cons, List.append_assoc,
    List.findSome?_append, hnone, List.singleton_append, List.findSome?_cons, hsome]
  rfl

/-- Either no call covers an address, or there is a last one that does. -/
theorem exists_last_or_none (calls : List MemCall) (a : Nat) :
    (∀ d ∈ calls, ¬ d.Covers a) ∨
      ∃ pre c post, calls = pre ++ c :: post ∧ c.Covers a ∧ ∀ d ∈ post, ¬ d.Covers a := by
  induction calls with
  | nil => exact Or.inl (by simp)
  | cons c rest ih =>
    rcases ih with hnone | ⟨pre, d, post, rfl, hd, hpost⟩
    · by_cases hc : c.Covers a
      · exact Or.inr ⟨[], c, rest, rfl, hc, hnone⟩
      · exact Or.inl (List.forall_mem_cons.mpr ⟨hc, hnone⟩)
    · exact Or.inr ⟨c :: pre, d, post, rfl, hd, hpost⟩

/-- A byte no call covers stays zero. -/
theorem byteOf_of_uncovered {width k : Nat} (hk : width = 2 ^ k) {calls : List MemCall} {a : Nat}
    (h : ∀ d ∈ calls, ¬ d.Covers a) :
    byteOf width (addMemCalls width calls) a = lastByte calls a := by
  have hlast : lastByte calls a = 0 := by
    have hnone : calls.reverse.findSome? (fun c => c.byteAt a) = none :=
      List.findSome?_eq_none_iff.mpr fun d hd =>
        byteAt_eq_none_iff.mpr (h d (List.mem_reverse.mp hd))
    rw [lastByte, hnone]
    rfl
  refine byte_eq_of_testBit fun i hi => ?_
  rw [testBit_byteOf _ _ _ hi, hlast, Bool.eq_iff_iff]
  have hcalls : addMemCalls width calls = calls.foldl (addMemCall width) Dict.empty := rfl
  rw [hcalls, bitOf_foldl hk a hi, bitOf_empty]
  constructor
  · rintro (⟨hfalse, -⟩ | ⟨earlier, d, between, rfl, hd, -⟩)
    · exact absurd hfalse (by decide)
    · exact absurd hd.1 (h d (by simp))
  · intro hbit
    simp at hbit

/-- Masks up to a byte wide stay inside the first byte written: calls that share
no address never harm one another. -/
theorem masksFit_of_apart {width : Nat} (hw : width ≤ 8) {calls : List MemCall}
    (h : calls.Pairwise fun c d => ∀ a, ¬ (c.Covers a ∧ d.Covers a)) : MasksFit width calls := by
  have hcovers : ∀ {d : MemCall} {a i : Nat}, d.Clears width a i → d.Covers a := by
    intro d a i hd
    simp only [MemCall.Clears, MemCall.wordStart, MemCall.Covers] at hd ⊢
    omega
  rintro pre c post a rfl hc hpost i hi
  obtain ⟨-, -, hapart⟩ := List.pairwise_append.mp h
  refine ⟨fun _ d hd hclear => hpost d hd (hcovers hclear), ?_⟩
  rintro - earlier d between rfl hd
  exact absurd ⟨hd.1, hc⟩ (hapart d (by simp) c List.mem_cons_self a)

/-! ## Last writer wins -/

/-- For every width that is a power of two and every sequence of calls: the last
writer of every byte wins exactly when the masks fit. -/
theorem addMem_lastWriterWins_iff {width k : Nat} (hk : width = 2 ^ k) (calls : List MemCall) :
    LastWriterWins width calls ↔ MasksFit width calls := by
  constructor
  · rintro hwins pre c post a rfl hc hpost i hi
    have hbyte := hwins a
    rw [lastByte_of_last hc hpost] at hbyte
    have hbit : bitOf width (addMemCalls width (pre ++ c :: post)) a i = true ↔ _ :=
      bitOf_last hk hi hpost
    rw [← testBit_byteOf _ _ _ hi, hbyte] at hbit
    refine ⟨fun hset => ?_, ?_⟩
    · rcases hbit.mp hset.2 with ⟨-, hkeep⟩ | ⟨_, _, between, -, -, hkeep⟩
      · exact hkeep
      · exact fun d hd => hkeep d (List.mem_append_right _ (List.mem_cons_of_mem _ hd))
    · rintro hset earlier d between rfl hd
      by_contra hkeep
      exact hset ⟨hc, hbit.mpr (Or.inr ⟨earlier, d, between, rfl, hd,
        fun e he hclear => hkeep ⟨e, he, hclear⟩⟩)⟩
  · intro hfit a
    rcases exists_last_or_none calls a with hnone | ⟨pre, c, post, rfl, hc, hpost⟩
    · exact byteOf_of_uncovered hk hnone
    · rw [lastByte_of_last hc hpost]
      refine byte_eq_of_testBit fun i hi => ?_
      obtain ⟨hlow, hhigh⟩ := hfit pre c post a rfl hc hpost i hi
      rw [testBit_byteOf _ _ _ hi, Bool.eq_iff_iff, bitOf_last hk hi hpost]
      constructor
      · rintro (⟨hset, -⟩ | ⟨earlier, d, between, rfl, hd, hkeep⟩)
        · exact hset.2
        · by_contra hbit
          obtain ⟨e, he, hclear⟩ := hhigh (fun hset => hbit hset.2) earlier d between rfl hd
          exact hkeep e he hclear
      · intro hbit
        exact Or.inl ⟨⟨hc, hbit⟩, hlow ⟨hc, hbit⟩⟩

/-- Two buffers side by side in one word are both kept. -/
theorem addMem_lastWriterWins_iff_shared :
    LastWriterWins 4 [⟨1, 2, [1, 2]⟩, ⟨3, 1, [3]⟩] := by
  refine (addMem_lastWriterWins_iff (k := 2) rfl _).mpr (masksFit_of_apart (by decide) ?_)
  refine List.pairwise_pair.mpr fun a h => ?_
  obtain ⟨hfirst, hsecond⟩ := h
  simp only [MemCall.Covers] at hfirst hsecond
  omega

/-- A byte `0xF0` written over by a `0x01` is left as `0xF1`. -/
theorem not_lastWriterWins : ¬ LastWriterWins 4 [⟨0, 1, [0xF0]⟩, ⟨0, 1, [0x01]⟩] := by
  intro h
  exact absurd (h 0) (by decide +kernel)

end SoftHier.Gapy.RtlTestbench
