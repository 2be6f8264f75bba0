/-
  Dram/ElfImage.lean --- what `elfloader_read_elf` leaves in the buffer.

  The loader resizes a vector of zeros for the part of a segment that has no
  file bytes and never writes it, so there the buffer keeps what it held before.
  Where that was zero, the buffer holds the image that `__parse_binaries` of the
  Python tools builds from the same file.
-/
import SoftHier.Foundation.Lists
import SoftHier.Dram.ElfBlocks
import SoftHier.Gapy.LastWriter

set_option autoImplicit false

namespace SoftHier.Dram.ElfLoader

open SoftHier.Foundation Program

variable {file : Bytes} {dest : Dest} {c : ElfClass} {eh : Ehdr} {phs : List Phdr} {s : Loader}

/-! ## What is to be loaded -/

/-- `ELFFile` presents a segment with the header fields and the file bytes that
the program header gives it. -/
structure PresentedAs (file : Bytes) (ph : Phdr) (segment : Gapy.ElfSegment) : Prop where
  pType : segment.IsLoad ↔ ph.IsLoad
  pPaddr : segment.pPaddr = ph.pPaddr
  pFilesz : segment.pFilesz = ph.pFilesz
  pMemsz : segment.pMemsz = ph.pMemsz
  data : segment.data = slice file ph.pOffset ph.pFilesz

/-- The buffer holds the segments and is unchanged elsewhere. -/
structure Loaded (file : Bytes) (dest : Dest) (phs : List Phdr) (before after : Bytes) :
    Prop where
  length : after.length = before.length
  loaded : ∀ ph ∈ loads phs, ∀ i < ph.pMemsz, after[ph.position dest + i]? = ph.byteAt file i
  unchanged : ∀ k, (∀ ph ∈ loads phs, ¬ ph.Covers dest k) → after[k]? = before[k]?
  /-- The bytes are those of the dictionary that `__parse_binaries` builds. -/
  asParsed : ∀ width e, width = 2 ^ e → width ≤ 8 → ∀ elf : Gapy.ElfFile,
    List.Forall₂ (PresentedAs file) phs elf.segments →
    ∀ ph ∈ loads phs, ∀ i < ph.pMemsz, after[ph.position dest + i]? =
      some (Gapy.RtlTestbench.byteOf width (Gapy.RtlTestbench.parseBinaries width [elf])
        (ph.pPaddr + i))

/-- What the buffer held behind the file bytes of a segment was zero. -/
def ZeroBehind (dest : Dest) (before : Bytes) (ph : Phdr) : Prop :=
  ∀ i, ph.pFilesz ≤ i → i < ph.pMemsz → before[ph.position dest + i]? = some 0

/-! ## The same file, read by the Python tools -/

namespace PresentedAs

variable {ph : Phdr} {segment : Gapy.ElfSegment}

theorem covered (h : PresentedAs file ph segment) (hle : ph.pFilesz ≤ ph.pMemsz) {a : Nat}
    (ha : segment.loadByte a ≠ none) :
    ph.pPaddr ≤ a ∧ ph.Covers dest (ph.position dest + (a - ph.pPaddr)) := by
  unfold Gapy.ElfSegment.loadByte at ha
  rw [h.pPaddr, h.pFilesz, h.pMemsz] at ha
  split at ha
  · exact absurd rfl ha
  · unfold Phdr.Covers
    split at ha
    · omega
    · split at ha
      · omega
      · exact absurd rfl ha

/-- The reader of the Python tools finds the same bytes in a segment. -/
theorem loadByte_eq (h : PresentedAs file ph segment) {i : Nat} (hi : i < ph.pMemsz) :
    segment.loadByte (ph.pPaddr + i) = ph.byteAt file i := by
  unfold Gapy.ElfSegment.loadByte Phdr.byteAt
  rw [h.pPaddr, h.pFilesz, h.pMemsz, if_neg (by omega)]
  by_cases hfile : i < ph.pFilesz
  · rw [if_pos (by omega), if_pos hfile, h.data, getElem?_slice, Nat.add_sub_cancel_left,
      if_pos hfile]
  · rw [if_neg (by omega), if_neg hfile, if_pos (by omega)]

end PresentedAs

theorem forall₂_loads {segments : List Gapy.ElfSegment}
    (h : List.Forall₂ (PresentedAs file) phs segments) :
    List.Forall₂ (PresentedAs file) (loads phs) (segments.filter fun t => t.IsLoad) := by
  refine List.rel_filter (fun ph segment hpres => ?_) h
  change decide ph.IsLoad = true ↔ decide segment.IsLoad = true
  rw [decide_eq_true_iff, decide_eq_true_iff]
  exact hpres.pType.symm

/-- Two addresses are one exactly when their places in the buffer are. -/
theorem place_eq {p q a : Nat} (hp : p ≤ a) (hq : q ≤ a)
    (hpk : dest.offset p + (a - p) < dest.destSize.toNat)
    (hqk : dest.offset q + (a - q) < dest.destSize.toNat) :
    dest.offset p + (a - p) = dest.offset q + (a - q) := by
  have hsize := dest.destSize.toNat_lt
  have hbase := dest.destBaseAddr.toNat_lt
  have hoffset : ∀ x, dest.offset x = (2 ^ 64 - dest.destBaseAddr.toNat + x % 2 ^ 64) % 2 ^ 64 := by
    intro x
    unfold Dest.offset
    rw [UInt64.toNat_sub, UInt64.toNat_ofNat']
  rw [hoffset] at hpk hqk
  rw [hoffset, hoffset]
  omega

theorem Placed.disjointLoads (h : Placed dest phs) {elf : Gapy.ElfFile}
    (helf : List.Forall₂ (PresentedAs file) phs elf.segments) : elf.DisjointLoads := by
  refine pairwise_of_forall₂ (forall₂_loads helf) ?_ h.disjoint
  intro p hp q hq segment segment' hpres hpres' hpq a
  by_contra hboth
  rw [not_or] at hboth
  obtain ⟨hpa, hcp⟩ : p.pPaddr ≤ a ∧ p.Covers dest (p.position dest + (a - p.pPaddr)) :=
    hpres.covered (h.filesz_le p hp) hboth.1
  obtain ⟨hqa, hcq⟩ : q.pPaddr ≤ a ∧ q.Covers dest (q.position dest + (a - q.pPaddr)) :=
    hpres'.covered (h.filesz_le q hq) hboth.2
  have heq := place_eq hpa hqa (h.inside p hp _ hcp) (h.inside q hq _ hcq)
  change p.position dest + (a - p.pPaddr) = q.position dest + (a - q.pPaddr) at heq
  rw [← heq] at hcq
  exact hpq _ ⟨hcp, hcq⟩

/-- A byte of a segment is the byte of the dictionary `__parse_binaries` builds. -/
theorem Placed.byteOf_eq (h : Placed dest phs) {width e : Nat} (hwidth : width = 2 ^ e)
    (hle : width ≤ 8) {elf : Gapy.ElfFile}
    (helf : List.Forall₂ (PresentedAs file) phs elf.segments) {ph : Phdr} (hph : ph ∈ loads phs)
    {i : Nat} (hi : i < ph.pMemsz) {b : UInt8} (hb : ph.byteAt file i = some b) :
    Gapy.RtlTestbench.byteOf width (Gapy.RtlTestbench.parseBinaries width [elf]) (ph.pPaddr + i) =
      b := by
  have hdisjoint := h.disjointLoads helf
  have hpos : 0 < width := hwidth ▸ Nat.two_pow_pos e
  have hrep := Gapy.RtlTestbench.represents_parseBinaries hwidth hle hdisjoint
  obtain ⟨segment, hsegment, hpres⟩ := exists_left_of_forall₂ (forall₂_loads helf).flip hph
  have hbyte := (hpres.loadByte_eq hi).trans hb
  rw [hrep.byteOf_eq hpos, Gapy.RtlTestbench.loadImage_of_mem hdisjoint hsegment hbyte]
  rfl

/-! ## What is loaded -/

section Blocks

variable {before : Bytes} (hplaced : Placed dest phs)
  (hcopy : ∀ ph ∈ loads phs, ph.Copyable file) (hbuf : dest.destSize.toNat ≤ before.length)

include hplaced hcopy hbuf

theorem blocks_fit_buffer :
    ∀ b ∈ blocks file dest phs, b.1 + b.2.length ≤ before.length := fun _ hb =>
  le_trans (blocks_fit hplaced hcopy hb) hbuf

/-- No block reaches behind the file bytes of a segment. -/
theorem getElem?_behind {ph : Phdr} (hph : ph ∈ loads phs) {i : Nat} (hge : ph.pFilesz ≤ i)
    (hlt : i < ph.pMemsz) :
    (overwriteAll before (blocks file dest phs))[ph.position dest + i]? =
      before[ph.position dest + i]? := by
  refine getElem?_overwriteAll_of_not_taken (blocks_fit_buffer hplaced hcopy hbuf) ?_
  intro b hb htakes
  obtain ⟨q, hq, _, rfl⟩ := mem_blocks.mp hb
  have hcovers : ph.Covers dest (ph.position dest + i) := ⟨by omega, by omega⟩
  obtain rfl := hplaced.unique hph hq hcovers (covers_of_takes hplaced hcopy hq htakes)
  have := ((takes_block hcopy hph).mp htakes).2
  omega

theorem getElem?_file {ph : Phdr} (hph : ph ∈ loads phs) {i : Nat} (hlt : i < ph.pFilesz) :
    (overwriteAll before (blocks file dest phs))[ph.position dest + i]? =
      file[ph.pOffset + i]? := by
  have hmem : ph.block file dest ∈ blocks file dest phs :=
    mem_blocks.mpr ⟨ph, hph, by omega, rfl⟩
  have htakes : Takes (ph.block file dest) (ph.position dest + i) :=
    (takes_block hcopy hph).mpr ⟨by omega, by omega⟩
  rw [getElem?_overwriteAll_of_taken (blocks_fit_buffer hplaced hcopy hbuf)
    (blocks_disjoint hplaced hcopy) hmem htakes]
  change (slice file ph.pOffset ph.pFilesz)[ph.position dest + i - ph.position dest]? = _
  rw [Nat.add_sub_cancel_left, getElem?_slice, if_pos hlt]

theorem loaded_overwriteAll (hzero : ∀ ph ∈ loads phs, ZeroBehind dest before ph) :
    Loaded file dest phs before (overwriteAll before (blocks file dest phs)) := by
  have hfit := blocks_fit_buffer hplaced hcopy hbuf
  have hlength : (overwriteAll before (blocks file dest phs)).length = before.length :=
    length_overwriteAll hfit
  have hloaded : ∀ ph ∈ loads phs, ∀ i < ph.pMemsz,
      (overwriteAll before (blocks file dest phs))[ph.position dest + i]? = ph.byteAt file i := by
    intro ph hph i hi
    unfold Phdr.byteAt
    by_cases hfile : i < ph.pFilesz
    · rw [if_pos hfile, getElem?_file hplaced hcopy hbuf hph hfile]
    · rw [if_neg hfile, getElem?_behind hplaced hcopy hbuf hph (by omega) hi]
      exact hzero ph hph i (by omega) hi
  refine ⟨hlength, hloaded, ?_, ?_⟩
  · intro k hk
    refine getElem?_overwriteAll_of_not_taken hfit fun b hb htakes => ?_
    obtain ⟨ph, hph, _, rfl⟩ := mem_blocks.mp hb
    exact hk ph hph (covers_of_takes hplaced hcopy hph htakes)
  · intro width e hwidth hle elf helf ph hph i hi
    have hend := hplaced.end_le hph (by omega)
    obtain ⟨b, hb⟩ : ∃ b,
        (overwriteAll before (blocks file dest phs))[ph.position dest + i]? = some b :=
      ⟨_, List.getElem?_eq_getElem (by omega)⟩
    rw [hb, hplaced.byteOf_eq hwidth hle helf hph hi ((hloaded ph hph i hi).symm.trans hb)]

end Blocks

/-- A run leaves the segments in the buffer exactly when their file bytes can be
copied and the bytes behind them were zero before. -/
theorem elfloaderReadElf_loaded_iff (hpass : Passes file c eh phs) (hplaced : Placed dest phs)
    (hbuf : dest.destSize.toNat ≤ s.destBuffer.length) :
    (∃ s', Returns (elfloaderReadElf file dest) s () s' ∧
      Loaded file dest phs s.destBuffer s'.destBuffer) ↔
    ∀ ph ∈ loads phs, ph.Copyable file ∧ ZeroBehind dest s.destBuffer ph := by
  have hfits := hplaced.fits hpass
  have hrun : ∀ s', Returns (elfloaderReadElf file dest) s () s' ↔
      (∀ ph ∈ loads phs, ph.Copyable file) ∧
        s' = phs.foldl (Loader.copied file dest) { s with entry := eh.eEntry } := fun s' =>
    (returns_elfloaderReadElf hpass).trans
      (returns_loadSegments (s := { s with entry := eh.eEntry }) hfits hbuf)
  constructor
  · rintro ⟨s', hs', hloaded⟩
    obtain ⟨hcopy, rfl⟩ := (hrun s').mp hs'
    rw [destBuffer_foldl] at hloaded
    intro ph hph
    refine ⟨hcopy ph hph, fun i hge hlt => ?_⟩
    have hbyte := hloaded.loaded ph hph i hlt
    have hbehind := getElem?_behind hplaced hcopy hbuf hph hge hlt
    unfold Phdr.byteAt at hbyte
    rw [if_neg (by omega)] at hbyte
    exact hbehind.symm.trans hbyte
  · intro hall
    have hcopy : ∀ ph ∈ loads phs, ph.Copyable file := fun ph hph => (hall ph hph).1
    refine ⟨_, (hrun _).mpr ⟨hcopy, rfl⟩, ?_⟩
    rw [destBuffer_foldl]
    exact loaded_overwriteAll hplaced hcopy hbuf fun ph hph => (hall ph hph).2

/-- An ELF32 file with one segment: two file bytes and four bytes in memory. -/
def bssElf : Bytes :=
  [0x7f, 0x45, 0x4c, 0x46, 1, 1, 1, 0] ++ List.replicate 8 0 ++
  leBytes 2 2 ++ leBytes 2 243 ++ leBytes 4 1 ++
  leBytes 4 0x80000000 ++ leBytes 4 52 ++ leBytes 4 84 ++ leBytes 4 0 ++
  leBytes 2 52 ++ leBytes 2 32 ++ leBytes 2 1 ++ leBytes 2 40 ++ leBytes 2 1 ++ leBytes 2 0 ++
  [1, 124, 0x80000000, 0x80000000, 2, 4, 6, 4].flatMap (leBytes 4) ++
  [0, 0, 0, 0, 126, 1, 0, 0, 1, 0].flatMap (leBytes 4) ++
  [0xAA, 0xBB] ++ [0]

def bssEhdr : Ehdr := ⟨0x80000000, 52, 84, 1, 1, 0⟩

def bssPhdr : Phdr := ⟨1, 124, 0x80000000, 2, 4⟩

/-- A DRAM of eight bytes at 0x80000000. -/
def tinyDest : Dest := ⟨8, 0x80000000, by decide⟩

theorem passes_bssElf : Passes bssElf .elf32 bssEhdr [bssPhdr] where
  size := by decide +kernel
  elfClass := by decide +kernel
  ehdr := by decide +kernel
  phdrTable := by decide +kernel
  phdrs := by decide +kernel
  segments := by decide +kernel
  sections := by decide +kernel

theorem placed_bssPhdr : Placed tinyDest [bssPhdr] where
  filesz_le := by decide +kernel
  inside := by
    intro ph hph k hk
    obtain rfl := List.mem_singleton.mp hph
    have hend : bssPhdr.position tinyDest + bssPhdr.pMemsz = 4 := by decide +kernel
    have hsize : tinyDest.destSize.toNat = 8 := rfl
    have := hk.2
    omega
  disjoint := List.pairwise_singleton _ _

theorem elfloaderReadElf_loaded_zero :
    ∃ s', Returns (elfloaderReadElf bssElf tinyDest) ⟨List.replicate 8 0, [], 0⟩ () s' ∧
      Loaded bssElf tinyDest [bssPhdr] (List.replicate 8 0) s'.destBuffer := by
  refine (elfloaderReadElf_loaded_iff passes_bssElf placed_bssPhdr (by decide)).mpr ?_
  intro ph hph
  obtain rfl := List.mem_singleton.mp hph
  refine ⟨⟨by decide, fun _ => by decide +kernel⟩, fun i _ hi => ?_⟩
  have hpos : bssPhdr.position tinyDest = 0 := by decide +kernel
  have hmem : bssPhdr.pMemsz = 4 := rfl
  rw [hpos, List.getElem?_replicate, if_pos (by omega)]

/-- Over a buffer that is not zero, the bytes behind the file bytes stay. -/
theorem not_loaded : ¬ ∀ (file : Bytes) (dest : Dest) (c : ElfClass) (eh : Ehdr)
    (phs : List Phdr) (s : Loader), Passes file c eh phs → Placed dest phs →
    dest.destSize.toNat ≤ s.destBuffer.length →
    ∃ s', Returns (elfloaderReadElf file dest) s () s' ∧
      Loaded file dest phs s.destBuffer s'.destBuffer := by
  intro hall
  obtain ⟨s', hs', hloaded⟩ := hall bssElf tinyDest .elf32 bssEhdr [bssPhdr]
    ⟨List.replicate 8 0xff, [], 0⟩ passes_bssElf placed_bssPhdr (by decide)
  have hbyte := hloaded.loaded bssPhdr (by decide) 2 (by decide)
  rw [← hs'.finalState] at hbyte
  exact absurd hbyte (by decide +kernel)

end SoftHier.Dram.ElfLoader
