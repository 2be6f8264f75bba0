/-
  Gapy/RtlTestbench.lean --- the memory preload files of the RTL testbench.

  Source: `gapy/bin/gapylib/chips/gap/rtl_testbench.py`.  The ELF segments are
  merged word by word into a dictionary keyed by the decimal text of the word
  address, and the dictionary is printed one word a line.

  The memory image a dictionary stands for is a partial map from addresses to
  bytes (`Represents`).  One `__add_mem_word` overlays the bytes it takes on
  that map, `__add_mem` overlays a whole buffer, and the printed text reads back
  as the words of the map.
-/
import SoftHier.Foundation.Bitwise
import SoftHier.Foundation.Dict
import SoftHier.Foundation.Numeral
import SoftHier.Gapy.Elf

set_option autoImplicit false

namespace SoftHier.Gapy.RtlTestbench

open SoftHier.Foundation

/-! ## The source -/

/-- `mem`: the words collected so far, keyed by `str(address)`. -/
abbrev Mem : Type := Dict Text Nat

/-- `__add_mem_word`: merge the head of `data` into the word that holds `base`.
Returns the number of bytes taken. -/
def addMemWord (mem : Mem) (base size : Nat) (data : Bytes) (width : Nat) : Nat × Mem :=
  let alignedBase := NatBits.andNot base (width - 1)
  let shift := base - alignedBase
  let iterSize := min (width - shift) size
  let value := (mem.get (Numeral.decimal alignedBase)).getD 0
  let value := NatBits.andNot value (((1 <<< width) - 1) <<< (shift * 8))
  let value := value ||| (leValue (data.take iterSize) <<< (shift * 8))
  (iterSize, mem.set (Numeral.decimal alignedBase) value)

/-- The `while size > 0` loop of `__add_mem`, for at most `fuel` rounds. -/
def addMemLoop (width : Nat) : Nat → Mem → Nat → Nat → Bytes → Mem
  | 0, mem, _, _, _ => mem
  | fuel + 1, mem, base, size, data =>
      if 0 < size then
        let (iterSize, mem) := addMemWord mem base size data width
        addMemLoop width fuel mem (base + iterSize) (size - iterSize) (data.drop iterSize)
      else mem

/-- `__add_mem`.  Every round takes at least one byte, so `size` rounds are
enough (`addMem_unfold`). -/
def addMem (mem : Mem) (base size : Nat) (data : Bytes) (width : Nat) : Mem :=
  addMemLoop width size mem base size data

/-- The body of the segment loop of `__parse_binaries`. -/
def addSegment (width : Nat) (mem : Mem) (segment : ElfSegment) : Mem :=
  if segment.IsLoad then
    let mem := addMem mem segment.pPaddr segment.data.length segment.data width
    if segment.pFilesz < segment.pMemsz then
      let size := segment.pMemsz - segment.pFilesz
      addMem mem (segment.pPaddr + segment.pFilesz) size (List.replicate size 0) width
    else mem
  else mem

/-- `__parse_binaries`. -/
def parseBinaries (width : Nat) (binaries : List ElfFile) : Mem :=
  binaries.foldl (fun mem binary => binary.segments.foldl (addSegment width) mem) Dict.empty

/-- `stim_format`: `'slm'`, or anything else. -/
inductive StimFormat where
  | slm
  | plain
  deriving DecidableEq, Repr

/-- The line `__gen_stim_slm` writes for one key. -/
def stimLine (mem : Mem) (width : Nat) (stimFormat : StimFormat) (key : Text) : Text :=
  let address := Numeral.upperHex (Numeral.ofDecimal key)
  let value := Numeral.zeroPad (width * 2) (Numeral.upperHex ((mem.get key).getD 0))
  match stimFormat with
  | .slm => '@' :: address ++ ' ' :: value ++ ['\n']
  | .plain => address ++ '_' :: value ++ ['\n']

/-- The order of texts: the first characters that differ decide. -/
def textLe : Text → Text → Bool
  | [], _ => true
  | _ :: _, [] => false
  | a :: as, b :: bs => if a = b then textLe as bs else decide (a.toNat < b.toNat)

/-- `sorted(mem.keys())`: the keys are texts, so the order is the textual one. -/
def sortedKeys (mem : Mem) : List Text := mem.keys.mergeSort textLe

/-- `__gen_stim_slm`: the text written to the file. -/
def genStimSlm (mem : Mem) (width : Nat) (stimFormat : StimFormat) : Text :=
  (sortedKeys mem).flatMap (stimLine mem width stimFormat)

/-- `gen_jtag_stimuli`. -/
def genJtagStimuli (binary : ElfFile) : Text :=
  genStimSlm (parseBinaries 4 [binary]) 4 .slm

/-! ## The loop -/

theorem one_le_iterSize {width size : Nat} (hw : 0 < width) (hs : 0 < size) (mem : Mem)
    (base : Nat) (data : Bytes) : 1 ≤ (addMemWord mem base size data width).1 := by
  have h := NatBits.le_andNot_add base (width - 1)
  simp only [addMemWord]
  omega

theorem iterSize_le (width base size : Nat) (mem : Mem) (data : Bytes) :
    (addMemWord mem base size data width).1 ≤ size := Nat.min_le_right _ _

/-- More fuel than bytes changes nothing. -/
theorem addMemLoop_fuel {width : Nat} (hw : 0 < width) :
    ∀ (fuel fuel' : Nat) (mem : Mem) (base size : Nat) (data : Bytes),
      size ≤ fuel → size ≤ fuel' →
      addMemLoop width fuel mem base size data = addMemLoop width fuel' mem base size data := by
  intro fuel
  induction fuel with
  | zero =>
    intro fuel' mem base size data h h'
    have hz : size = 0 := by omega
    subst hz
    cases fuel' <;> simp [addMemLoop]
  | succ fuel ih =>
    intro fuel' mem base size data h h'
    rcases Nat.eq_zero_or_pos size with rfl | hs
    · cases fuel' <;> simp [addMemLoop]
    · obtain ⟨fuel', rfl⟩ : ∃ n, fuel' = n + 1 := ⟨fuel' - 1, by omega⟩
      have h1 := one_le_iterSize hw hs mem base data
      simp only [addMemLoop, hs, if_true]
      exact ih fuel' _ _ _ _ (by omega) (by omega)

/-- `addMem` is the loop of the source: test, one word, and again. -/
theorem addMem_unfold {width : Nat} (hw : 0 < width) (mem : Mem) (base size : Nat)
    (data : Bytes) :
    addMem mem base size data width =
      if 0 < size then
        addMem (addMemWord mem base size data width).2
          (base + (addMemWord mem base size data width).1)
          (size - (addMemWord mem base size data width).1)
          (data.drop (addMemWord mem base size data width).1) width
      else mem := by
  rcases Nat.eq_zero_or_pos size with rfl | hs
  · simp [addMem, addMemLoop]
  · obtain ⟨n, rfl⟩ : ∃ n, size = n + 1 := ⟨size - 1, by omega⟩
    have h1 := one_le_iterSize hw hs mem base data
    rw [if_pos hs]
    simp only [addMem, addMemLoop, hs, if_true]
    exact addMemLoop_fuel hw _ _ _ _ _ _ (by omega) (by omega)

end SoftHier.Gapy.RtlTestbench
