/-
  Dram/ElfBlocks.lean --- what `elfloader_read_elf` writes.

  Every PT_LOAD segment is one block written over the buffer: its file bytes, at
  the place its physical address has in the buffer.  A run returns exactly when
  the bytes of every block can be copied.
-/
import SoftHier.Foundation.Blocks
import SoftHier.Dram.ElfLoader
import Mathlib.Data.List.Pairwise

set_option autoImplicit false

namespace SoftHier.Dram.ElfLoader

open SoftHier.Foundation Program

variable {file : Bytes} {dest : Dest} {c : ElfClass} {eh : Ehdr} {phs : List Phdr}
  {s s' : Loader} {u : Unit}

/-! ## Segments and their places -/

/-- `address - dest_base_addr`. -/
def Dest.offset (dest : Dest) (address : Nat) : Nat :=
  (UInt64.ofNat address - dest.destBaseAddr).toNat

namespace Phdr

/-- A segment that is to be loaded. -/
def IsLoad (ph : Phdr) : Prop := ph.pType = ptLoad

instance (ph : Phdr) : Decidable ph.IsLoad := inferInstanceAs (Decidable (_ = _))

/-- Where the target range of a segment begins in the buffer. -/
def position (dest : Dest) (ph : Phdr) : Nat := dest.offset ph.pPaddr

/-- The places of the buffer that belong to the target range. -/
def Covers (dest : Dest) (ph : Phdr) (k : Nat) : Prop :=
  ph.position dest ≤ k ∧ k < ph.position dest + ph.pMemsz

/-- Byte `i` of a segment: the file bytes first, then zeros. -/
def byteAt (file : Bytes) (ph : Phdr) (i : Nat) : Option UInt8 :=
  if i < ph.pFilesz then file[ph.pOffset + i]? else some 0

/-- The file bytes of a segment lie in the file, and an `int` can count them. -/
structure Copyable (file : Bytes) (ph : Phdr) : Prop where
  countable : ph.pFilesz < 2 ^ 31
  inFile : ph.pFilesz ≠ 0 → ph.pOffset + ph.pFilesz ≤ file.length

/-- The block a segment is copied as. -/
def block (file : Bytes) (dest : Dest) (ph : Phdr) : Nat × Bytes :=
  (ph.position dest, slice file ph.pOffset ph.pFilesz)

end Phdr

/-- The segments to be loaded. -/
def loads (phs : List Phdr) : List Phdr := phs.filter fun ph => ph.IsLoad

/-- Every assertion of `elfloader_read_elf` holds of the file; `phs` are its
program headers. -/
structure Passes (file : Bytes) (c : ElfClass) (eh : Ehdr) (phs : List Phdr) : Prop where
  size : ehdrSize ≤ file.length
  elfClass : elfClass? file = some c
  ehdr : readEhdr file c = .ok eh
  phdrTable : (eh.ePhoff + eh.ePhnum * c.phdrSize) % 2 ^ 64 ≤ file.length
  phdrs : (List.range eh.ePhnum).mapM (readPhdr file c eh) = .ok phs
  segments : ∀ ph ∈ phs, ph.IsLoad → ph.pMemsz ≠ 0 → ph.pFilesz ≠ 0 →
    c.wrap (ph.pOffset + ph.pFilesz) ≤ file.length
  sections : checkSections file c eh = .ok ()

/-- The target ranges lie in the buffer and share no place. -/
structure Placed (dest : Dest) (phs : List Phdr) : Prop where
  filesz_le : ∀ ph ∈ loads phs, ph.pFilesz ≤ ph.pMemsz
  inside : ∀ ph ∈ loads phs, ∀ k, ph.Covers dest k → k < dest.destSize.toNat
  disjoint : (loads phs).Pairwise fun p q => ∀ k, ¬ (p.Covers dest k ∧ q.Covers dest k)

/-! ## Copying one segment -/

theorem toNat_index {address i : Nat} (h : dest.offset address + i < dest.destSize.toNat) :
    (UInt64.ofNat address - dest.destBaseAddr + UInt64.ofNat i).toNat =
      dest.offset address + i := by
  have hsize := dest.destSize.toNat_lt
  unfold Dest.offset at h ⊢
  rw [UInt64.toNat_add, UInt64.toNat_ofNat']
  omega

/-- One round of the loop of `write`, inside the buffer. -/
theorem returns_writeByte {address pos i : Nat}
    (h : dest.offset address + i < dest.destSize.toNat)
    (hbuf : dest.destSize.toNat ≤ s.destBuffer.length) :
    Returns (writeByte file dest address pos i) s u s' ↔
      ∃ byte, file[pos + i]? = some byte ∧ i + 1 ≠ 2 ^ 31 ∧
        s' = { s with destBuffer := s.destBuffer.set (dest.offset address + i) byte } := by
  have hindex := toNat_index h
  unfold writeByte
  rw [returns_get_bind]
  simp only
  rw [if_neg (by rw [UInt64.le_iff_toNat_le, hindex]; omega), hindex]
  cases hbyte : file[pos + i]? with
  | none => simp
  | some byte =>
    simp only
    rw [if_neg (by omega), returns_modify_bind]
    by_cases hlast : i + 1 = 2 ^ 31
    · rw [if_pos hlast]
      simp [hlast]
    · rw [if_neg hlast, returns_pure]
      constructor
      · rintro ⟨_, rfl⟩
        exact ⟨byte, rfl, hlast, rfl⟩
      · rintro ⟨byte', heq, _, rfl⟩
        cases heq
        exact ⟨rfl, rfl⟩

/-- One more byte of the block is written. -/
theorem returns_writeByte_next {address pos n : Nat} {d : Bytes} (hn : d.length = n)
    (h : dest.offset address + n < dest.destSize.toNat)
    (hbuf : dest.destSize.toNat ≤ s.destBuffer.length) :
    Returns (writeByte file dest address pos n)
        { s with destBuffer := overwrite s.destBuffer (dest.offset address) d } u s' ↔
      ∃ byte, file[pos + n]? = some byte ∧ n + 1 ≠ 2 ^ 31 ∧
        s' = { s with
          destBuffer := overwrite s.destBuffer (dest.offset address) (d ++ [byte]) } := by
  subst hn
  have hlen : (overwrite s.destBuffer (dest.offset address) d).length = s.destBuffer.length :=
    length_overwrite (by omega)
  rw [returns_writeByte h (by rw [hlen]; exact hbuf)]
  apply exists_congr
  intro byte
  rw [set_overwrite (by omega) byte]

theorem slice_succ {pos n : Nat} {byte : UInt8} (h : file[pos + n]? = some byte) :
    slice file pos (n + 1) = slice file pos n ++ [byte] := by
  unfold slice
  rw [List.take_add_one, List.getElem?_drop, h]
  rfl

/-- `write` returns when its bytes lie in the file and an `int` can count them;
it writes one block. -/
theorem returns_write {address len pos : Nat}
    (h : dest.offset address + len ≤ dest.destSize.toNat)
    (hbuf : dest.destSize.toNat ≤ s.destBuffer.length) :
    Returns (write file dest address len pos) s u s' ↔
      len < 2 ^ 31 ∧ (len ≠ 0 → pos + len ≤ file.length) ∧
        s' = { s with
          destBuffer := overwrite s.destBuffer (dest.offset address) (slice file pos len) } := by
  unfold write
  induction len generalizing s' u with
  | zero =>
    have hnil : slice file pos 0 = [] := List.take_zero
    rw [List.range_zero, returns_forEach_nil, hnil, overwrite_nil]
    exact ⟨fun heq => ⟨by decide, fun hne => absurd rfl hne, heq.symm⟩, fun heq => heq.2.2.symm⟩
  | succ n ih =>
    rw [List.range_succ, returns_forEach_append]
    constructor
    · rintro ⟨t, hfirst, hlast⟩
      obtain ⟨hcount, hfile, rfl⟩ := (ih (by omega)).mp hfirst
      have hlen : (slice file pos n).length = n := by
        by_cases hn : n = 0
        · rw [hn]
          exact List.length_eq_zero_iff.mpr List.take_zero
        · exact length_slice (hfile hn)
      obtain ⟨byte, hbyte, hne, rfl⟩ := (returns_writeByte_next hlen (by omega) hbuf).mp
        (returns_forEach_singleton.mp hlast)
      have hlt := (List.getElem?_eq_some_iff.mp hbyte).1
      refine ⟨by omega, fun _ => by omega, ?_⟩
      rw [slice_succ hbyte]
    · rintro ⟨hcount, hfile, rfl⟩
      have hin := hfile (Nat.succ_ne_zero n)
      obtain ⟨byte, hbyte⟩ : ∃ byte, file[pos + n]? = some byte :=
        ⟨_, List.getElem?_eq_getElem (by omega)⟩
      refine ⟨_, (ih (by omega)).mpr ⟨by omega, fun _ => by omega, rfl⟩, ?_⟩
      rw [returns_forEach_singleton,
        returns_writeByte_next (length_slice (by omega)) (by omega) hbuf, slice_succ hbyte]
      exact ⟨byte, hbyte, by omega, rfl⟩

/-! ## The loop over the program headers -/

namespace Phdr

variable {ph : Phdr}

theorem length_block (h : ph.Copyable file) : (ph.block file dest).2.length = ph.pFilesz := by
  by_cases hzero : ph.pFilesz = 0
  · unfold block
    rw [hzero]
    rfl
  · exact length_slice (h.inFile hzero)

end Phdr

/-- The state after a segment was copied. -/
def Loader.copied (file : Bytes) (dest : Dest) (s : Loader) (ph : Phdr) : Loader :=
  if ph.IsLoad ∧ ph.pFilesz ≠ 0 then
    { s with
      destBuffer := overwrite s.destBuffer (ph.block file dest).1 (ph.block file dest).2
      sections := s.sections ++ [(ph.pPaddr, ph.pMemsz)] }
  else s

/-- What the loop needs to know of a segment. -/
structure Fits (file : Bytes) (dest : Dest) (c : ElfClass) (ph : Phdr) : Prop where
  filesz_le : ph.IsLoad → ph.pFilesz ≤ ph.pMemsz
  inside : ph.IsLoad → ph.pMemsz ≠ 0 → ph.position dest + ph.pMemsz ≤ dest.destSize.toNat
  passes : ph.IsLoad → ph.pMemsz ≠ 0 → ph.pFilesz ≠ 0 →
    c.wrap (ph.pOffset + ph.pFilesz) ≤ file.length

/-- `zeros.resize` never asks for too much. -/
theorem wrap_resize_lt {m f : Nat} (hle : f ≤ m) (hm : m < 2 ^ 63) :
    c.wrap (m + 2 ^ 64 - f) < 2 ^ 63 := by
  cases c with
  | elf32 =>
    change (m + 2 ^ 64 - f) % 2 ^ 32 < 2 ^ 63
    omega
  | elf64 =>
    change (m + 2 ^ 64 - f) % 2 ^ 64 < 2 ^ 63
    omega

theorem returns_loadSegment {ph : Phdr} (h : Fits file dest c ph)
    (hbuf : dest.destSize.toNat ≤ s.destBuffer.length) :
    Returns (loadSegment file dest c ph) s u s' ↔
      (ph.IsLoad → ph.Copyable file) ∧ s' = s.copied file dest ph := by
  unfold loadSegment Loader.copied
  by_cases hload : ph.pType = ptLoad ∧ ph.pMemsz ≠ 0
  · have hisLoad : ph.IsLoad := hload.1
    have hle := h.filesz_le hload.1
    have hin := h.inside hload.1 hload.2
    have hsize := dest.destSize_lt
    have hresize : ¬ 2 ^ 63 ≤ c.wrap (ph.pMemsz + 2 ^ 64 - ph.pFilesz) :=
      not_le.mpr (wrap_resize_lt hle (by omega))
    rw [if_pos hload, if_neg hresize]
    by_cases hzero : ph.pFilesz = 0
    · rw [if_neg (not_not.mpr hzero), if_neg (fun hboth => hboth.2 hzero)]
      have hcopy : ph.Copyable file := ⟨by rw [hzero]; decide, fun hne => absurd hzero hne⟩
      constructor
      · intro hrun
        exact ⟨fun _ => hcopy, (returns_pure.mp hrun).2.symm⟩
      · rintro ⟨_, rfl⟩
        exact returns_pure.mpr ⟨rfl, rfl⟩
    · have hcheck : check (decide (c.wrap (ph.pOffset + ph.pFilesz) ≤ file.length)) = .ok () := by
        rw [decide_eq_true (h.passes hload.1 hload.2 hzero)]
        rfl
      have hfit : dest.offset ph.pPaddr + ph.pFilesz ≤ dest.destSize.toNat := by
        change ph.position dest + ph.pFilesz ≤ _
        omega
      have hbuf' : dest.destSize.toNat ≤ ({ s with
          sections := s.sections ++ [(ph.pPaddr, ph.pMemsz)] } : Loader).destBuffer.length := hbuf
      rw [if_pos hzero, if_pos ⟨hisLoad, hzero⟩, returns_eval_bind hcheck,
        returns_modify_bind]
      constructor
      · intro hrun
        obtain ⟨_, t, hrun, hend⟩ := returns_bind.mp hrun
        obtain ⟨hcount, hfile, rfl⟩ := (returns_write hfit hbuf').mp hrun
        exact ⟨fun _ => ⟨hcount, hfile⟩, (returns_pure.mp hend).2.symm⟩
      · rintro ⟨hcopy, rfl⟩
        have hrun := (returns_write (u := ()) hfit hbuf').mpr
          ⟨(hcopy hisLoad).countable, (hcopy hisLoad).inFile, rfl⟩
        exact returns_bind.mpr ⟨(), _, hrun, returns_pure.mpr ⟨rfl, rfl⟩⟩
  · rw [if_neg hload]
    have hzero : ph.IsLoad → ph.pFilesz = 0 := by
      intro hisLoad
      have hle := h.filesz_le hisLoad
      have hmem : ph.pMemsz = 0 := by
        by_contra hne
        exact hload ⟨hisLoad, hne⟩
      omega
    rw [if_neg fun hboth => hboth.2 (hzero hboth.1), returns_pure]
    constructor
    · rintro ⟨_, rfl⟩
      refine ⟨fun hisLoad => ?_, rfl⟩
      exact ⟨by rw [hzero hisLoad]; decide, fun hne => absurd (hzero hisLoad) hne⟩
    · rintro ⟨_, rfl⟩
      exact ⟨rfl, rfl⟩

theorem Loader.length_copied {ph : Phdr} (h : Fits file dest c ph)
    (hcopy : ph.IsLoad → ph.Copyable file) (hbuf : dest.destSize.toNat ≤ s.destBuffer.length) :
    (s.copied file dest ph).destBuffer.length = s.destBuffer.length := by
  unfold Loader.copied
  split
  next hload =>
    have hle := h.filesz_le hload.1
    have hin := h.inside hload.1 (by omega)
    refine length_overwrite ?_
    rw [Phdr.length_block (hcopy hload.1)]
    change ph.position dest + ph.pFilesz ≤ _
    omega
  next => rfl

theorem returns_loadSegments (h : ∀ ph ∈ phs, Fits file dest c ph)
    (hbuf : dest.destSize.toNat ≤ s.destBuffer.length) :
    Returns (forEach (loadSegment file dest c) phs) s u s' ↔
      (∀ ph ∈ loads phs, ph.Copyable file) ∧ s' = phs.foldl (Loader.copied file dest) s := by
  have hmem : ∀ phs : List Phdr, (∀ ph ∈ loads phs, ph.Copyable file) ↔
      ∀ ph ∈ phs, ph.IsLoad → ph.Copyable file := by
    intro phs
    unfold loads
    simp only [List.mem_filter, decide_eq_true_iff, and_imp]
  rw [hmem]
  induction phs generalizing s with
  | nil =>
    rw [returns_forEach_nil]
    exact ⟨fun heq => ⟨nofun, heq.symm⟩, fun heq => heq.2.symm⟩
  | cons ph phs ih =>
    have hhead := h ph List.mem_cons_self
    have htail : ∀ q ∈ phs, Fits file dest c q := fun q hq => h q (List.mem_cons_of_mem ph hq)
    rw [returns_forEach_cons, List.forall_mem_cons, List.foldl_cons]
    constructor
    · rintro ⟨t, hone, hrest⟩
      obtain ⟨hcopy, rfl⟩ := (returns_loadSegment hhead hbuf).mp hone
      have hlen := Loader.length_copied hhead hcopy hbuf
      obtain ⟨hall, rfl⟩ := (ih htail (by rw [hlen]; exact hbuf)).mp hrest
      exact ⟨⟨hcopy, hall⟩, rfl⟩
    · rintro ⟨⟨hcopy, hall⟩, rfl⟩
      have hlen := Loader.length_copied hhead hcopy hbuf
      exact ⟨_, (returns_loadSegment hhead hbuf).mpr ⟨hcopy, rfl⟩,
        (ih htail (by rw [hlen]; exact hbuf)).mpr ⟨hall, rfl⟩⟩

/-- The segments that have file bytes, as blocks. -/
def blocks (file : Bytes) (dest : Dest) (phs : List Phdr) : List (Nat × Bytes) :=
  (phs.filter fun ph => ph.IsLoad ∧ ph.pFilesz ≠ 0).map (Phdr.block file dest)

theorem destBuffer_foldl (phs : List Phdr) (s : Loader) :
    (phs.foldl (Loader.copied file dest) s).destBuffer =
      overwriteAll s.destBuffer (blocks file dest phs) := by
  unfold blocks
  induction phs generalizing s with
  | nil => rfl
  | cons ph phs ih =>
    rw [List.foldl_cons, ih]
    unfold Loader.copied
    by_cases hload : ph.IsLoad ∧ ph.pFilesz ≠ 0
    · rw [if_pos hload, List.filter_cons_of_pos (by simpa using hload)]
      rfl
    · rw [if_neg hload, List.filter_cons_of_neg (by simpa using hload)]

/-- The whole run, for a file that passes the assertions. -/
theorem returns_elfloaderReadElf (h : Passes file c eh phs) :
    Returns (elfloaderReadElf file dest) s u s' ↔
      Returns (forEach (loadSegment file dest c) phs) { s with entry := eh.eEntry } () s' := by
  have hsize : check (decide (ehdrSize ≤ file.length)) = .ok () := by
    rw [decide_eq_true h.size]
    rfl
  have htable : check (decide ((eh.ePhoff + eh.ePhnum * c.phdrSize) % 2 ^ 64 ≤ file.length)) =
      .ok () := by
    rw [decide_eq_true h.phdrTable]
    rfl
  unfold elfloaderReadElf
  rw [returns_eval_bind hsize, h.elfClass]
  simp only
  rw [returns_eval_bind h.ehdr, returns_modify_bind, returns_eval_bind htable]
  constructor
  · intro hrun
    obtain ⟨_, t, hloop, hend⟩ := returns_bind.mp hrun
    rw [(returns_reading.mp hend).2] at hloop
    exact (returns_forEach_reading h.phdrs).mp hloop
  · intro hloop
    exact returns_bind.mpr ⟨(), s', (returns_forEach_reading h.phdrs).mpr hloop,
      returns_reading.mpr ⟨h.sections, rfl⟩⟩

/-! ## The blocks in the buffer -/

theorem mem_loads {ph : Phdr} : ph ∈ loads phs ↔ ph ∈ phs ∧ ph.IsLoad := by
  unfold loads
  rw [List.mem_filter, decide_eq_true_iff]

namespace Placed

theorem end_le (h : Placed dest phs) {ph : Phdr} (hph : ph ∈ loads phs) (hne : ph.pMemsz ≠ 0) :
    ph.position dest + ph.pMemsz ≤ dest.destSize.toNat := by
  have hlast := h.inside ph hph (ph.position dest + ph.pMemsz - 1) (by
    unfold Phdr.Covers
    omega)
  omega

theorem fits (h : Placed dest phs) (hpass : Passes file c eh phs) :
    ∀ ph ∈ phs, Fits file dest c ph := fun ph hph => {
  filesz_le := fun hload => h.filesz_le ph (mem_loads.mpr ⟨hph, hload⟩)
  inside := fun hload hne => h.end_le (mem_loads.mpr ⟨hph, hload⟩) hne
  passes := hpass.segments ph hph }

/-- A place belongs to one segment only. -/
theorem unique (h : Placed dest phs) {p q : Phdr} (hp : p ∈ loads phs) (hq : q ∈ loads phs)
    {k : Nat} (hkp : p.Covers dest k) (hkq : q.Covers dest k) : p = q := by
  by_contra hne
  have : Std.Symm fun p q : Phdr => ∀ k, ¬ (p.Covers dest k ∧ q.Covers dest k) :=
    ⟨fun _ _ hpq k hk => hpq k hk.symm⟩
  exact h.disjoint.forall hp hq hne k ⟨hkp, hkq⟩

end Placed

section Blocks

variable (hplaced : Placed dest phs) (hcopy : ∀ ph ∈ loads phs, ph.Copyable file)

theorem mem_blocks {b : Nat × Bytes} :
    b ∈ blocks file dest phs ↔ ∃ ph ∈ loads phs, ph.pFilesz ≠ 0 ∧ ph.block file dest = b := by
  unfold blocks
  rw [List.mem_map]
  simp only [List.mem_filter, decide_eq_true_iff, mem_loads, and_assoc]

include hcopy in
theorem takes_block {ph : Phdr} (hph : ph ∈ loads phs) {k : Nat} :
    Takes (ph.block file dest) k ↔
      ph.position dest ≤ k ∧ k < ph.position dest + ph.pFilesz := by
  unfold Takes
  rw [Phdr.length_block (hcopy ph hph)]
  rfl

include hplaced hcopy

theorem covers_of_takes {ph : Phdr} (hph : ph ∈ loads phs) {k : Nat}
    (hk : Takes (ph.block file dest) k) : ph.Covers dest k := by
  obtain ⟨h1, h2⟩ := (takes_block hcopy hph).mp hk
  have hle := hplaced.filesz_le ph hph
  exact ⟨h1, by omega⟩

theorem blocks_fit {b : Nat × Bytes} (hb : b ∈ blocks file dest phs) :
    b.1 + b.2.length ≤ dest.destSize.toNat := by
  obtain ⟨ph, hph, hne, rfl⟩ := mem_blocks.mp hb
  have hle := hplaced.filesz_le ph hph
  have hend := hplaced.end_le hph (by omega)
  rw [Phdr.length_block (hcopy ph hph)]
  change ph.position dest + ph.pFilesz ≤ _
  omega

theorem blocks_disjoint :
    (blocks file dest phs).Pairwise fun a b => ∀ k, ¬ (Takes a k ∧ Takes b k) := by
  have hsub : (phs.filter fun ph => ph.IsLoad ∧ ph.pFilesz ≠ 0).Sublist (loads phs) := by
    apply List.monotone_filter_right
    intro ph hph
    rw [decide_eq_true_iff] at hph ⊢
    exact hph.1
  unfold blocks
  rw [List.pairwise_map]
  refine (hplaced.disjoint.sublist hsub).imp_of_mem fun {p q} hp hq hpq k hk => ?_
  exact hpq k ⟨covers_of_takes hplaced hcopy (hsub.subset hp) hk.1,
    covers_of_takes hplaced hcopy (hsub.subset hq) hk.2⟩

end Blocks

end SoftHier.Dram.ElfLoader
