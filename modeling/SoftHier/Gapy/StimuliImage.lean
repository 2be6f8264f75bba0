/-
  Gapy/StimuliImage.lean --- the preload file of the RTL testbench is the memory
  image of the ELF.

  `Represents` ties the word dictionary to a byte map.  One word merge overlays
  the bytes it takes, provided they fall on bytes the map does not hold yet: the
  mask of the source clears the low `width` bits of the first byte written, so
  a byte that was already there is not what this file relies on.
-/
import SoftHier.Foundation.ByteMap
import SoftHier.Gapy.RtlTestbench

set_option autoImplicit false

namespace SoftHier.Gapy.RtlTestbench

open SoftHier.Foundation

/-- The dictionary lists exactly the words that hold a byte of the map, under
their aligned addresses, with the bytes of the map and zeros elsewhere. -/
structure Represents (width : Nat) (mem : Mem) (f : ByteMap) : Prop where
  key : ∀ k ∈ mem.keys, ∃ a, k = Numeral.decimal a ∧ width ∣ a
  value : ∀ a v, width ∣ a → mem.get (Numeral.decimal a) = some v → v = f.word width a
  listed : ∀ a, width ∣ a →
    ((mem.get (Numeral.decimal a)).isSome = true ↔ ∃ j < width, (f (a + j)).isSome = true)

theorem represents_empty (width : Nat) : Represents width Dict.empty ByteMap.empty where
  key := by simp
  value := by simp
  listed := by simp [ByteMap.empty]

theorem Represents.getD {width : Nat} {mem : Mem} {f : ByteMap} (h : Represents width mem f)
    {a : Nat} (ha : width ∣ a) :
    (mem.get (Numeral.decimal a)).getD 0 = f.word width a := by
  cases hget : mem.get (Numeral.decimal a) with
  | some v => exact h.value a v ha hget
  | none =>
    have hnone : ¬ ∃ j < width, (f (a + j)).isSome = true := by
      rw [← h.listed a ha, hget]; simp
    refine (ByteMap.word_eq_zero fun j hj => ?_).symm
    by_contra hne
    exact hnone ⟨j, hj, Option.isSome_iff_ne_none.mpr hne⟩

/-! ## One word -/

/-- The bits of a merged word: the new bytes from `shift` on, the old ones
elsewhere, when the old word is zero wherever a new byte goes. -/
theorem merge_word {width shift n : Nat} {f : ByteMap} {a : Nat} {data : Bytes}
    (hw : width ≤ 8) (hn : 0 < n) (hlen : data.length = n) (hfit : shift + n ≤ width)
    (hfree : f.Free (a + shift) n) :
    NatBits.andNot (f.word width a) (((1 <<< width) - 1) <<< (shift * 8)) |||
        (leValue data <<< (shift * 8)) =
      (f.overlay (a + shift) data).word width a := by
  refine Nat.eq_of_testBit_eq fun i => ?_
  rw [Nat.testBit_or, NatBits.testBit_andNot, ByteMap.testBit_word, ByteMap.testBit_word,
    Nat.testBit_shiftLeft, Nat.testBit_shiftLeft, testBit_leValue, Nat.one_shiftLeft,
    Nat.testBit_two_pow_sub_one]
  by_cases hlow : i < shift * 8
  · -- below the first byte written: nothing is cleared, nothing is added
    have hsame : f.overlay (a + shift) data (a + i / 8) = f (a + i / 8) :=
      ByteMap.overlay_of_not_mem (Or.inl (by omega))
    simp [hsame, show ¬ i ≥ shift * 8 by omega]
  · have hdiv : (i - shift * 8) / 8 = i / 8 - shift := by omega
    have hmod : (i - shift * 8) % 8 = i % 8 := by omega
    have hge : i ≥ shift * 8 := by omega
    rw [hdiv, hmod]
    by_cases hin : i / 8 < shift + n
    · -- a byte written: it held nothing before
      have hold : f (a + i / 8) = none := hfree _ (by omega) (by omega)
      have hnew : f.overlay (a + shift) data (a + i / 8) = data[i / 8 - shift]? := by
        rw [ByteMap.overlay_of_mem (by omega) (by omega)]
        congr 1
        omega
      simp [hold, hnew, hge, show i / 8 < width by omega]
    · -- above the last byte written: the mask has ended, the data too
      have hsame : f.overlay (a + shift) data (a + i / 8) = f (a + i / 8) :=
        ByteMap.overlay_of_not_mem (Or.inr (by omega))
      have hmask : ¬ i - shift * 8 < width := by omega
      have hend : data[i / 8 - shift]? = none := List.getElem?_eq_none (by omega)
      simp [hsame, hmask, hend]

/-- The aligned base of the source, for a width that is a power of two. -/
theorem alignedBase_eq {width k : Nat} (hk : width = 2 ^ k) (base : Nat) :
    NatBits.andNot base (width - 1) = base - base % width := by
  rw [hk, NatBits.andNot_two_pow_sub_one]

theorem addMemWord_represents {width k base size : Nat} {mem : Mem} {f : ByteMap} {data : Bytes}
    (hk : width = 2 ^ k) (hw : width ≤ 8) (h : Represents width mem f) (hs : 0 < size)
    (hlen : data.length = size) (hfree : f.Free base size) :
    Represents width (addMemWord mem base size data width).2
      (f.overlay base (data.take (addMemWord mem base size data width).1)) := by
  have hpos : 0 < width := hk ▸ Nat.two_pow_pos k
  have hmod : base % width < width := Nat.mod_lt _ hpos
  have hle := Nat.mod_le base width
  obtain ⟨aligned, haligned⟩ : ∃ a, a = base - base % width := ⟨_, rfl⟩
  have hdvd : width ∣ aligned := haligned ▸ Nat.dvd_sub_mod base
  obtain ⟨n, hn⟩ : ∃ n, n = min (width - (base - aligned)) size := ⟨_, rfl⟩
  have htake : (data.take n).length = n := by rw [List.length_take]; omega
  have hbase : aligned + (base - aligned) = base := by omega
  have hstep : addMemWord mem base size data width = (n, mem.set (Numeral.decimal aligned)
      ((f.overlay base (data.take n)).word width aligned)) := by
    have hfree' : f.Free (aligned + (base - aligned)) n :=
      fun a h1 h2 => hfree a (by omega) (by omega)
    have hmerge := merge_word hw (by omega) htake (by omega) hfree'
    rw [hbase] at hmerge
    simp only [addMemWord, alignedBase_eq hk, ← haligned, ← hn, h.getD hdvd, hmerge]
  rw [hstep]
  dsimp only
  -- a multiple of `width` other than `aligned` has no byte of the buffer in its word
  have houtside : ∀ a, width ∣ a → a ≠ aligned → ∀ j < width,
      f.overlay base (data.take n) (a + j) = f (a + j) := by
    intro a ha hne j hj
    obtain ⟨q, rfl⟩ := ha
    obtain ⟨r, hr⟩ := hdvd
    refine ByteMap.overlay_of_not_mem ?_
    rw [htake]
    rcases Nat.lt_or_gt_of_ne (fun e => hne (by rw [hr, e]) : q ≠ r) with hlt | hlt
    · have : width * (q + 1) ≤ width * r := Nat.mul_le_mul_left _ hlt
      rw [Nat.mul_add, Nat.mul_one] at this
      omega
    · have : width * (r + 1) ≤ width * q := Nat.mul_le_mul_left _ hlt
      rw [Nat.mul_add, Nat.mul_one] at this
      omega
  refine ⟨?_, ?_, ?_⟩
  · intro key hkey
    rcases Dict.mem_keys_set.mp hkey with rfl | hkey
    · exact ⟨aligned, rfl, hdvd⟩
    · exact h.key key hkey
  · intro a v ha hget
    rw [Dict.get_set] at hget
    by_cases heq : a = aligned
    · rw [if_pos (by rw [heq]), Option.some.injEq] at hget
      rw [← hget, heq]
    · rw [if_neg (by simpa using Ne.symm heq)] at hget
      rw [h.value a v ha hget, ByteMap.word, ByteMap.word]
      congr 1
      refine List.map_congr_left fun j hj => ?_
      rw [houtside a ha heq j (List.mem_range.mp hj)]
  · intro a ha
    rw [Dict.get_set]
    by_cases heq : a = aligned
    · rw [if_pos (by rw [heq])]
      refine ⟨fun _ => ⟨base - aligned, by omega, ?_⟩, fun _ => rfl⟩
      rw [heq, hbase]
      exact ByteMap.isSome_overlay.mpr (Or.inl ⟨le_refl _, by omega⟩)
    · rw [if_neg (by simpa using Ne.symm heq), h.listed a ha]
      refine exists_congr fun j => and_congr_right fun hj => ?_
      rw [houtside a ha heq j hj]

/-! ## A whole buffer -/

theorem addMem_represents {width k : Nat} (hk : width = 2 ^ k) (hw : width ≤ 8) :
    ∀ (size : Nat) (mem : Mem) (f : ByteMap) (base : Nat) (data : Bytes),
      Represents width mem f → data.length = size → f.Free base size →
      Represents width (addMem mem base size data width) (f.overlay base data) := by
  have hpos : 0 < width := hk ▸ Nat.two_pow_pos k
  intro size
  induction size using Nat.strong_induction_on with
  | h size ih =>
    intro mem f base data h hlen hfree
    rw [addMem_unfold hpos]
    split
    · rename_i hs
      have hrep := addMemWord_represents hk hw h hs hlen hfree
      have h1 := one_le_iterSize hpos hs mem base data
      have h2 := iterSize_le width base size mem data
      generalize addMemWord mem base size data width = r at hrep h1 h2
      obtain ⟨n, mem'⟩ := r
      simp only at hrep h1 h2 ⊢
      have htake : (data.take n).length = n := by rw [List.length_take]; omega
      rw [← ByteMap.overlay_take_drop f base n data (by omega)]
      refine ih (size - n) (by omega) _ _ _ _ hrep (by rw [List.length_drop]; omega) ?_
      intro a ha hb
      rw [ByteMap.overlay_of_not_mem (by omega)]
      exact hfree a (by omega) (by omega)
    · have hnil : data = [] := List.eq_nil_of_length_eq_zero (by omega)
      rw [hnil, ByteMap.overlay_nil]
      exact h

/-! ## The segments of an ELF -/

/-- An image with one segment loaded over it. -/
def loadOver (f : ByteMap) (s : ElfSegment) : ByteMap :=
  (f.overlay s.pPaddr s.data).overlay (s.pPaddr + s.pFilesz)
    (List.replicate (s.pMemsz - s.pFilesz) 0)

theorem loadOver_apply (f : ByteMap) (s : ElfSegment) (a : Nat) :
    loadOver f s a = (s.loadByte a).or (f a) := by
  have hlen := s.data_length
  unfold loadOver ElfSegment.loadByte
  by_cases h1 : a < s.pPaddr
  · rw [if_pos h1, ByteMap.overlay_of_not_mem (by omega), ByteMap.overlay_of_not_mem (by omega),
      Option.none_or]
  · by_cases h2 : a < s.pPaddr + s.pFilesz
    · rw [if_neg h1, if_pos h2, ByteMap.overlay_of_not_mem (by omega),
        ByteMap.overlay_of_mem (by omega) (by omega), List.getElem?_eq_getElem (by omega)]
      rfl
    · by_cases h3 : a < s.pPaddr + s.pMemsz
      · rw [if_neg h1, if_neg h2, if_pos h3,
          ByteMap.overlay_of_mem (by omega) (by rw [List.length_replicate]; omega),
          List.getElem?_replicate, if_pos (by omega)]
        rfl
      · rw [if_neg h1, if_neg h2, if_neg h3,
          ByteMap.overlay_of_not_mem (by rw [List.length_replicate]; omega),
          ByteMap.overlay_of_not_mem (by omega), Option.none_or]

theorem loadByte_isSome_of_mem {s : ElfSegment} {a : Nat} (h1 : s.pPaddr ≤ a)
    (h2 : a < s.pPaddr + s.pFilesz ∨ a < s.pPaddr + s.pMemsz) : s.loadByte a ≠ none := by
  have hlen := s.data_length
  unfold ElfSegment.loadByte
  rw [if_neg (by omega)]
  split
  · rw [List.getElem?_eq_getElem (by omega)]; simp
  · rw [if_pos (by omega)]; simp

theorem addSegment_represents {width k : Nat} (hk : width = 2 ^ k) (hw : width ≤ 8) {mem : Mem}
    {f : ByteMap} {s : ElfSegment} (h : Represents width mem f) (hload : s.IsLoad)
    (hfree : ∀ a, s.loadByte a = none ∨ f a = none) :
    Represents width (addSegment width mem s) (loadOver f s) := by
  have hlen := s.data_length
  have hfree' : ∀ a, s.pPaddr ≤ a → (a < s.pPaddr + s.pFilesz ∨ a < s.pPaddr + s.pMemsz) →
      f a = none := fun a h1 h2 => (hfree a).resolve_left (loadByte_isSome_of_mem h1 h2)
  have hfile : Represents width (addMem mem s.pPaddr s.data.length s.data width)
      (f.overlay s.pPaddr s.data) :=
    addMem_represents hk hw _ _ _ _ _ h rfl fun a h1 h2 => hfree' a h1 (Or.inl (by omega))
  unfold addSegment
  rw [if_pos hload]
  by_cases hmem : s.pFilesz < s.pMemsz
  · simp only [if_pos hmem]
    refine addMem_represents hk hw _ _ _ _ _ hfile List.length_replicate fun a h1 h2 => ?_
    rw [ByteMap.overlay_of_not_mem (by omega)]
    exact hfree' a (by omega) (Or.inr (by omega))
  · simp only [if_neg hmem]
    rw [loadOver, show s.pMemsz - s.pFilesz = 0 by omega, List.replicate_zero,
      ByteMap.overlay_nil]
    exact hfile

/-- The memory image of the loadable ranges. -/
def loadImage (segments : List ElfSegment) : ByteMap := fun a =>
  (segments.filter fun s => s.IsLoad).findSome? fun s => s.loadByte a

/-- Segments whose loadable ranges share no address, and none with `f`. -/
def LoadsFree (f : ByteMap) : List ElfSegment → Prop
  | [] => True
  | s :: rest =>
      if s.IsLoad then
        (∀ a, s.loadByte a = none ∨ f a = none) ∧ LoadsFree (loadOver f s) rest
      else LoadsFree f rest

theorem loadsFree_of_pairwise :
    ∀ (segments : List ElfSegment) (f : ByteMap),
      ((segments.filter fun s => s.IsLoad).Pairwise
        fun s t => ∀ a, s.loadByte a = none ∨ t.loadByte a = none) →
      (∀ s ∈ segments, s.IsLoad → ∀ a, s.loadByte a = none ∨ f a = none) →
      LoadsFree f segments := by
  intro segments
  induction segments with
  | nil => intro f _ _; trivial
  | cons s rest ih =>
    intro f hpair hfree
    have hrest : ∀ t ∈ rest, t.IsLoad → ∀ a, t.loadByte a = none ∨ f a = none :=
      fun t ht => hfree t (List.mem_cons_of_mem _ ht)
    unfold LoadsFree
    by_cases hs : s.IsLoad
    · rw [List.filter_cons_of_pos (by simpa using hs), List.pairwise_cons] at hpair
      rw [if_pos hs]
      refine ⟨hfree s List.mem_cons_self hs, ih _ hpair.2 fun t ht hload a => ?_⟩
      rw [loadOver_apply]
      have hst := hpair.1 t (List.mem_filter.mpr ⟨ht, by simpa using hload⟩) a
      rcases hrest t ht hload a with h | h
      · exact Or.inl h
      · rcases hst with h' | h'
        · exact Or.inr (by rw [h', h]; rfl)
        · exact Or.inl h'
    · rw [List.filter_cons_of_neg (by simpa using hs)] at hpair
      rw [if_neg hs]
      exact ih f hpair hrest

theorem loadImage_eq_none_of_loadsFree :
    ∀ {segments : List ElfSegment} {f : ByteMap} {a : Nat}, LoadsFree f segments → f a ≠ none →
      loadImage segments a = none := by
  intro segments
  induction segments with
  | nil => intro f a _ _; rfl
  | cons s rest ih =>
    intro f a hfree ha
    unfold LoadsFree at hfree
    by_cases hs : s.IsLoad
    · rw [if_pos hs] at hfree
      have hnone := (hfree.1 a).resolve_right ha
      rw [loadImage, List.filter_cons_of_pos (by simpa using hs), List.findSome?_cons, hnone]
      exact ih hfree.2 (by rw [loadOver_apply, hnone]; exact ha)
    · rw [if_neg hs] at hfree
      rw [loadImage, List.filter_cons_of_neg (by simpa using hs)]
      exact ih hfree ha

/-- Loading a list of segments overlays their image. -/
theorem segments_represents {width k : Nat} (hk : width = 2 ^ k) (hw : width ≤ 8) :
    ∀ (segments : List ElfSegment) (mem : Mem) (f : ByteMap),
      Represents width mem f → LoadsFree f segments →
      Represents width (segments.foldl (addSegment width) mem)
        (fun a => (loadImage segments a).or (f a)) := by
  intro segments
  induction segments with
  | nil => intro mem f h _; exact h
  | cons s rest ih =>
    intro mem f h hfree
    unfold LoadsFree at hfree
    by_cases hs : s.IsLoad
    · rw [if_pos hs] at hfree
      have himage : (fun a => (loadImage (s :: rest) a).or (f a)) =
          fun a => (loadImage rest a).or (loadOver f s a) := by
        funext a
        rw [loadOver_apply, loadImage, List.filter_cons_of_pos (by simpa using hs),
          List.findSome?_cons]
        cases hb : s.loadByte a with
        | none => rfl
        | some b =>
          -- the bytes of `s` are not touched by the rest
          have hnone : loadImage rest a = none :=
            loadImage_eq_none_of_loadsFree hfree.2 (by rw [loadOver_apply, hb]; simp)
          rw [hnone]
          rfl
      rw [List.foldl_cons, himage]
      exact ih _ _ (addSegment_represents hk hw h hs hfree.1) hfree.2
    · rw [if_neg hs] at hfree
      have hskip : addSegment width mem s = mem := by rw [addSegment, if_neg hs]
      have himage : loadImage (s :: rest) = loadImage rest := by
        funext a
        rw [loadImage, List.filter_cons_of_neg (by simpa using hs), loadImage]
      rw [List.foldl_cons, hskip, himage]
      exact ih _ _ h hfree

/-! ## Reading the file back -/

/-- Read one line `@A V`, with `V` on exactly 8 digits. -/
def decodeStimLine? (line : Text) : Option (Nat × Nat) :=
  match line with
  | '@' :: rest =>
      match rest.dropWhile (· ≠ ' ') with
      | ' ' :: value =>
          if value.length = 8 then do
            let a ← Numeral.ofUpperHex? (rest.takeWhile (· ≠ ' '))
            let v ← Numeral.ofUpperHex? value
            some (a, v)
          else none
      | _ => none
  | _ => none

/-- Read a stimuli file: the words it lists, in order. -/
def decodeStimuli? (file : Text) : Option (List (Nat × Nat)) :=
  (textLines file).mapM decodeStimLine?

theorem takeWhile_dropWhile_blank {l : Text} (h : ∀ c ∈ l, c ≠ ' ') (rest : Text) :
    (l ++ ' ' :: rest).takeWhile (· ≠ ' ') = l ∧
      (l ++ ' ' :: rest).dropWhile (· ≠ ' ') = ' ' :: rest := by
  induction l with
  | nil => simp
  | cons c l ih =>
    obtain ⟨h1, h2⟩ := ih fun d hd => h d (List.mem_cons_of_mem _ hd)
    have hc : c ≠ ' ' := h c List.mem_cons_self
    refine ⟨?_, ?_⟩
    · rw [List.cons_append, List.takeWhile_cons_of_pos (by simpa using hc), h1]
    · rw [List.cons_append, List.dropWhile_cons_of_pos (by simpa using hc), h2]

theorem decodeStimLine?_line {a v : Nat} (hv : v < 16 ^ 8) :
    decodeStimLine? ('@' :: Numeral.upperHex a ++
      ' ' :: Numeral.zeroPad 8 (Numeral.upperHex v)) = some (a, v) := by
  obtain ⟨h1, h2⟩ := takeWhile_dropWhile_blank (fun c hc => (Numeral.mem_upperHex hc).1)
    (Numeral.zeroPad 8 (Numeral.upperHex v)) (l := Numeral.upperHex a)
  rw [List.cons_append, decodeStimLine?, h1, h2]
  simp [Numeral.length_zeroPad_upperHex (by omega : 0 < 8) hv]

theorem stimLine_slm (mem : Mem) (key : Text) :
    stimLine mem 4 .slm key =
      ('@' :: Numeral.upperHex (Numeral.ofDecimal key) ++
        ' ' :: Numeral.zeroPad 8 (Numeral.upperHex ((mem.get key).getD 0))) ++ '\n' :: [] := by
  simp [stimLine]

theorem stimLine_no_newline {a v : Nat} :
    ∀ c ∈ '@' :: Numeral.upperHex a ++ ' ' :: Numeral.zeroPad 8 (Numeral.upperHex v),
      c ≠ '\n' := by
  intro c hc
  simp only [List.cons_append, List.mem_cons, List.mem_append] at hc
  rcases hc with rfl | hc | rfl | hc
  · decide
  · exact (Numeral.mem_upperHex hc).2
  · decide
  · exact (Numeral.mem_zeroPad_upperHex hc).2

/-- The printed dictionary reads back as its words, key by key. -/
theorem decodeStimuli?_lines {mem : Mem} :
    ∀ (keys : List Text), (∀ k ∈ keys, (mem.get k).getD 0 < 16 ^ 8) →
      decodeStimuli? (keys.flatMap (stimLine mem 4 .slm)) =
        some (keys.map fun k => (Numeral.ofDecimal k, (mem.get k).getD 0)) := by
  intro keys
  induction keys with
  | nil => intro _; rfl
  | cons k keys ih =>
    intro h
    have hk := h k List.mem_cons_self
    have hrest := ih fun k' hk' => h k' (List.mem_cons_of_mem _ hk')
    rw [decodeStimuli?] at hrest ⊢
    rw [List.flatMap_cons, stimLine_slm, List.append_assoc, List.singleton_append,
      textLines_append_newline stimLine_no_newline, List.mapM_cons, decodeStimLine?_line hk, hrest]
    rfl

theorem sortedKeys_perm (mem : Mem) : (sortedKeys mem).Perm mem.keys :=
  List.mergeSort_perm _ _

/-! ## The stimuli file of an ELF -/

/-- The words of a stimuli file are the memory image of the ELF. -/
structure IsMemoryImage (elf : ElfFile) (words : List (Nat × Nat)) : Prop where
  aligned : ∀ w ∈ words, 4 ∣ w.1
  below : ∀ w ∈ words, w.2 < 2 ^ 32
  once : (words.map Prod.fst).Nodup
  listed : ∀ A, A ∈ words.map Prod.fst ↔
    4 ∣ A ∧ ∃ a, A ≤ a ∧ a < A + 4 ∧ ∃ s ∈ elf.loads, s.loadByte a ≠ none
  loaded : ∀ w ∈ words, ∀ j < 4, ∀ s ∈ elf.loads, ∀ b, s.loadByte (w.1 + j) = some b →
    (leBytes 4 w.2)[j]? = some b
  zero : ∀ w ∈ words, ∀ j < 4, (∀ s ∈ elf.loads, s.loadByte (w.1 + j) = none) →
    (leBytes 4 w.2)[j]? = some 0

theorem loadImage_of_mem {elf : ElfFile} (h : elf.DisjointLoads) {s : ElfSegment}
    (hs : s ∈ elf.loads) {a : Nat} {b : UInt8} (hb : s.loadByte a = some b) :
    loadImage elf.segments a = some b := by
  change elf.loads.findSome? (fun s => s.loadByte a) = some b
  unfold ElfFile.DisjointLoads at h
  generalize elf.loads = l at h hs
  induction l with
  | nil => simp at hs
  | cons t l ih =>
    rw [List.pairwise_cons] at h
    rw [List.findSome?_cons]
    rcases List.mem_cons.mp hs with rfl | hs'
    · rw [hb]
    · have hnone : t.loadByte a = none := (h.1 s hs' a).resolve_right (by rw [hb]; simp)
      rw [hnone]
      exact ih h.2 hs'

theorem represents_parseBinaries {width k : Nat} (hk : width = 2 ^ k) (hw : width ≤ 8)
    {elf : ElfFile} (h : elf.DisjointLoads) :
    Represents width (parseBinaries width [elf]) (loadImage elf.segments) := by
  have hrep := segments_represents hk hw elf.segments Dict.empty
    ByteMap.empty (represents_empty width)
    (loadsFree_of_pairwise elf.segments ByteMap.empty h fun _ _ _ _ => Or.inr rfl)
  have himage : (fun a => (loadImage elf.segments a).or (ByteMap.empty a)) =
      loadImage elf.segments := by
    funext a
    exact Option.or_none
  rwa [himage] at hrep

/-- Every ELF with pairwise disjoint loadable ranges, whatever their alignment,
size, order and number: the stimuli file is exactly its memory image. -/
theorem genJtagStimuli_isMemoryImage (elf : ElfFile) (h : elf.DisjointLoads) :
    ∃ words, decodeStimuli? (genJtagStimuli elf) = some words ∧ IsMemoryImage elf words := by
  have hrep := represents_parseBinaries (k := 2) (show 4 = 2 ^ 2 from rfl) (by decide) h
  unfold genJtagStimuli genStimSlm
  generalize parseBinaries 4 [elf] = mem at hrep
  have hperm := sortedKeys_perm mem
  -- every key is the text of a word address, and its word is a word of the image
  have hkey : ∀ k ∈ sortedKeys mem, 4 ∣ Numeral.ofDecimal k ∧
      k = Numeral.decimal (Numeral.ofDecimal k) ∧
      (mem.get k).getD 0 = (loadImage elf.segments).word 4 (Numeral.ofDecimal k) := by
    intro k hk
    obtain ⟨a, rfl, ha⟩ := hrep.key k (hperm.mem_iff.mp hk)
    rw [Numeral.ofDecimal_decimal]
    exact ⟨ha, rfl, hrep.getD ha⟩
  have hlt : ∀ k ∈ sortedKeys mem, (mem.get k).getD 0 < 16 ^ 8 := by
    intro k hk
    have := ByteMap.word_lt (loadImage elf.segments) 4 (Numeral.ofDecimal k)
    rw [(hkey k hk).2.2]
    omega
  refine ⟨_, decodeStimuli?_lines _ hlt, ?_⟩
  have haddr : ((sortedKeys mem).map fun k => (Numeral.ofDecimal k, (mem.get k).getD 0)).map
      Prod.fst = (sortedKeys mem).map Numeral.ofDecimal := by
    rw [List.map_map]
    rfl
  have hbytes : ∀ k ∈ sortedKeys mem, ∀ j < 4, (leBytes 4 ((mem.get k).getD 0))[j]? =
      some ((loadImage elf.segments (Numeral.ofDecimal k + j)).getD 0) := by
    intro k hk j hj
    rw [(hkey k hk).2.2, ByteMap.leBytes_word, List.getElem?_map,
      List.getElem?_range hj]
    rfl
  refine ⟨?_, ?_, ?_, ?_, ?_, ?_⟩
  · rintro w hw
    obtain ⟨k, hk, rfl⟩ := List.mem_map.mp hw
    exact (hkey k hk).1
  · rintro w hw
    obtain ⟨k, hk, rfl⟩ := List.mem_map.mp hw
    exact hlt k hk
  · rw [haddr]
    refine (List.nodup_map_iff_inj_on (hperm.nodup_iff.mpr mem.nodup_keys)).mpr ?_
    intro k hk k' hk' heq
    rw [(hkey k hk).2.1, (hkey k' hk').2.1, heq]
  · intro A
    rw [haddr, List.mem_map]
    constructor
    · rintro ⟨k, hk, rfl⟩
      obtain ⟨hdvd, hdec, -⟩ := hkey k hk
      obtain ⟨v, hv⟩ := Dict.mem_keys_iff.mp (hperm.mem_iff.mp hk)
      rw [hdec] at hv
      obtain ⟨j, hj, hsome⟩ := (hrep.listed _ hdvd).mp (by rw [hv]; rfl)
      obtain ⟨b, hb⟩ := Option.isSome_iff_exists.mp hsome
      obtain ⟨s, hs, hsb⟩ := List.exists_of_findSome?_eq_some hb
      exact ⟨hdvd, _, Nat.le_add_right _ j, by omega, s, hs, by rw [hsb]; simp⟩
    · rintro ⟨hdvd, a, h1, h2, s, hs, hsome⟩
      obtain ⟨b, hb⟩ := Option.ne_none_iff_exists'.mp hsome
      have hget := (hrep.listed A hdvd).mpr ⟨a - A, by omega, by
        rw [show A + (a - A) = a by omega, loadImage_of_mem h hs hb]
        rfl⟩
      obtain ⟨v, hv⟩ := Option.isSome_iff_exists.mp hget
      exact ⟨Numeral.decimal A, hperm.mem_iff.mpr (Dict.mem_keys_iff.mpr ⟨v, hv⟩),
        Numeral.ofDecimal_decimal A⟩
  · rintro w hw j hj s hs b hb
    obtain ⟨k, hk, rfl⟩ := List.mem_map.mp hw
    rw [hbytes k hk j hj, loadImage_of_mem h hs hb]
    rfl
  · rintro w hw j hj hnone
    obtain ⟨k, hk, rfl⟩ := List.mem_map.mp hw
    have himage : loadImage elf.segments (Numeral.ofDecimal k + j) = none :=
      List.findSome?_eq_none_iff.mpr hnone
    rw [hbytes k hk j hj, himage]
    rfl

/-- Two segments that share a word: file bytes, then bytes to be cleared. -/
theorem genJtagStimuli_isMemoryImage_shared :
    let elf : ElfFile :=
      { eEntry := 128
        segments := [⟨"PT_LOAD", 126, 3, 3, [1, 2, 3], rfl⟩, ⟨"PT_LOAD", 130, 1, 4, [4], rfl⟩] }
    ∃ words, decodeStimuli? (genJtagStimuli elf) = some words ∧ IsMemoryImage elf words := by
  intro elf
  refine genJtagStimuli_isMemoryImage elf ?_
  have hloads : elf.loads = elf.segments := by decide
  rw [ElfFile.DisjointLoads, hloads]
  refine List.pairwise_pair.mpr fun a => ?_
  by_cases ha : a < 130
  · exact .inr (if_pos ha)
  · refine .inl ?_
    simp only [ElfSegment.loadByte]
    rw [if_neg (by omega), if_neg (by omega), if_neg (by omega)]

end SoftHier.Gapy.RtlTestbench
