/-
  Dram/ElfReads.lean --- the reads of `elfloader_read_elf`.

  Every assertion compares a sum of two header fields with the size of the file.
  The sums wrap, and some of what the fields lead to is not compared with anything,
  so a read can be past the end of the file.  It is not exactly when the headers
  satisfy the conditions below, one for each stage of the loader.

  A pointer into the file is its position, a natural number: one that leaves the
  file does not come back by wrapping.
-/
import SoftHier.Dram.ElfBlocks

set_option autoImplicit false

namespace SoftHier.Dram.ElfLoader

open SoftHier.Foundation Program

variable {file : Bytes} {dest : Dest} {c : ElfClass} {eh : Ehdr} {s s' : Loader}

/-! ## Fields and strings -/

theorem field_of_le {pos n : Nat} (h : pos + n ≤ file.length) :
    field file pos n = .ok (leValue (slice file pos n)) := if_pos h

theorem field_of_lt {pos n : Nat} (h : file.length < pos + n) :
    field file pos n = .error .strayRead := if_neg (not_le.mpr h)

theorem getElem?_drop_cons {pos : Nat} {b : UInt8} (h : file[pos]? = some b) :
    file.drop pos = b :: file.drop (pos + 1) := by
  obtain ⟨hlt, rfl⟩ := List.getElem?_eq_some_iff.mp h
  exact List.drop_eq_getElem_cons hlt

theorem drop_eq_nil {pos : Nat} (h : file[pos]? = none) : file.drop pos = [] :=
  List.drop_eq_nil_of_le (List.getElem?_eq_none_iff.mp h)

/-- `strcmp` runs off the end of a file that ends within the literal. -/
theorem strEq_eq (literal : Bytes) (pos : Nat) : strEq file pos literal =
    if file.drop pos <+: literal then .error .strayRead
    else .ok (decide (literal ++ [0] <+: file.drop pos)) := by
  induction literal generalizing pos with
  | nil =>
    rw [strEq]
    cases hb : file[pos]? with
    | none => rw [drop_eq_nil hb, if_pos List.nil_prefix]
    | some b =>
      rw [getElem?_drop_cons hb, if_neg (by simp)]
      by_cases hzero : b = 0
      · simp [hzero]
      · simp [hzero, Ne.symm hzero]
  | cons a as ih =>
    rw [strEq]
    cases hb : file[pos]? with
    | none => rw [drop_eq_nil hb, if_pos List.nil_prefix]
    | some b =>
      rw [getElem?_drop_cons hb]
      by_cases hsame : b = a
      · simp only [ih, hsame, List.cons_append, List.cons_prefix_cons, true_and, if_true]
      · simp only [List.cons_append, List.cons_prefix_cons, hsame, Ne.symm hsame, false_and,
          if_false, decide_false]

/-- `strnlen` stops at a zero, at its bound, or runs off the end of the file. -/
theorem strnlen_cases (file : Bytes) (n pos : Nat) :
    (0 ∈ (file.drop pos).take n ∧ ∃ k < n, strnlen file pos n = .ok k) ∨
      (0 ∉ (file.drop pos).take n ∧ n ≤ (file.drop pos).length ∧ strnlen file pos n = .ok n) ∨
      0 ∉ (file.drop pos).take n ∧ (file.drop pos).length < n ∧
        strnlen file pos n = .error .strayRead := by
  induction n generalizing pos with
  | zero =>
    refine .inr (.inl ⟨?_, Nat.zero_le _, rfl⟩)
    rw [List.take_zero]
    exact List.not_mem_nil
  | succ n ih =>
    rw [strnlen]
    cases hb : file[pos]? with
    | none =>
      rw [drop_eq_nil hb, List.take_nil]
      exact .inr (.inr ⟨List.not_mem_nil, Nat.zero_lt_succ n, rfl⟩)
    | some b =>
      rw [getElem?_drop_cons hb, List.take_succ_cons, List.length_cons, List.mem_cons]
      by_cases hzero : b = 0
      · simp only [if_pos hzero]
        exact .inl ⟨.inl hzero.symm, 0, Nat.zero_lt_succ n, rfl⟩
      · simp only [if_neg hzero]
        rcases ih (pos + 1) with ⟨hmem, k, hk, hrun⟩ | ⟨hmem, hlen, hrun⟩ | ⟨hmem, hlen, hrun⟩
        · exact .inl ⟨.inr hmem, k + 1, Nat.succ_lt_succ hk, by rw [hrun]; rfl⟩
        · refine .inr (.inl ⟨?_, Nat.succ_le_succ hlen, by rw [hrun]; rfl⟩)
          exact not_or.mpr ⟨Ne.symm hzero, hmem⟩
        · refine .inr (.inr ⟨?_, Nat.succ_lt_succ hlen, by rw [hrun]; rfl⟩)
          exact not_or.mpr ⟨Ne.symm hzero, hmem⟩

/-! ## The tables of headers -/

theorem readPhdr_of_le {i : Nat} (h : eh.ePhoff + (i + 1) * c.phdrSize ≤ file.length) :
    ∃ ph, readPhdr file c eh i = .ok ph := by
  unfold readPhdr
  cases c with
  | elf32 =>
    simp only [ElfClass.phdrSize] at h ⊢
    simp (disch := omega) only [field_of_le]
    exact ⟨_, rfl⟩
  | elf64 =>
    simp only [ElfClass.phdrSize] at h ⊢
    simp (disch := omega) only [field_of_le]
    exact ⟨_, rfl⟩

theorem readPhdr_of_lt {i : Nat} (h : file.length < eh.ePhoff + i * c.phdrSize) :
    readPhdr file c eh i = .error .strayRead := by
  have hfirst := field_of_lt (n := 4) (Nat.lt_add_right 4 h)
  unfold readPhdr
  cases c with
  | elf32 =>
    simp only [hfirst]
    rfl
  | elf64 =>
    simp only [hfirst]
    rfl

theorem readShdr_of_le {i : Nat} (h : eh.eShoff + (i + 1) * c.shdrSize ≤ file.length) :
    ∃ sh, readShdr file c eh i = .ok sh := by
  unfold readShdr
  cases c with
  | elf32 =>
    simp only [ElfClass.shdrSize] at h ⊢
    simp (disch := omega) only [field_of_le]
    exact ⟨_, rfl⟩
  | elf64 =>
    simp only [ElfClass.shdrSize] at h ⊢
    simp (disch := omega) only [field_of_le]
    exact ⟨_, rfl⟩

theorem readShdr_of_lt {i : Nat} (h : file.length < eh.eShoff + i * c.shdrSize) :
    readShdr file c eh i = .error .strayRead := by
  have hfirst := field_of_lt (n := 4) (Nat.lt_add_right 4 h)
  unfold readShdr
  cases c with
  | elf32 =>
    simp only [hfirst]
    rfl
  | elf64 =>
    simp only [hfirst]
    rfl

/-- The offsets in a header are numbers of at most 64 bits, the counts of 16. -/
structure Ehdr.Sized (eh : Ehdr) : Prop where
  ePhoff : eh.ePhoff < 2 ^ 64
  eShoff : eh.eShoff < 2 ^ 64
  ePhnum : eh.ePhnum < 2 ^ 16
  eShnum : eh.eShnum < 2 ^ 16

theorem leValue_slice_lt {pos n : Nat} (h : pos + n ≤ file.length) :
    leValue (slice file pos n) < 256 ^ n := by
  have hlt := leValue_lt (slice file pos n)
  rwa [length_slice h] at hlt

/-- A file that is long enough has a header. -/
theorem readEhdr_of_le (h : ehdrSize ≤ file.length) (c : ElfClass) :
    ∃ eh, readEhdr file c = .ok eh ∧ eh.Sized := by
  have hlen : 64 ≤ file.length := h
  have hlt : ∀ pos n, pos + n ≤ 64 → leValue (slice file pos n) < 256 ^ n :=
    fun pos n hle => leValue_slice_lt (le_trans hle hlen)
  have hword : ∀ pos, pos + 4 ≤ 64 → leValue (slice file pos 4) < 2 ^ 64 :=
    fun pos hle => lt_trans (hlt pos 4 hle) (by decide)
  unfold readEhdr
  cases c with
  | elf32 =>
    simp (disch := omega) only [field_of_le]
    exact ⟨_, rfl, hword 28 (by decide), hword 32 (by decide), hlt 44 2 (by decide),
      hlt 48 2 (by decide)⟩
  | elf64 =>
    simp (disch := omega) only [field_of_le]
    exact ⟨_, rfl, hlt 32 8 (by decide), hlt 40 8 (by decide), hlt 56 2 (by decide),
      hlt 60 2 (by decide)⟩

/-- A table of headers whose end was compared with the size of the file is in the
file, or the sum wrapped and no header is. -/
theorem table_cases {off n size : Nat} (hoff : off < 2 ^ 64) (hn : n < 2 ^ 16) (hsize : size ≤ 64)
    (hlen : file.length < 2 ^ 63) (h : (off + n * size) % 2 ^ 64 ≤ file.length) :
    (off + n * size < 2 ^ 64 ∧ ∀ i < n, off + (i + 1) * size ≤ file.length) ∨
      2 ^ 64 ≤ off + n * size ∧ 0 < n ∧ ∀ i, file.length < off + i * size := by
  have hbytes : n * size < 2 ^ 16 * 64 := by
    calc n * size ≤ n * 64 := Nat.mul_le_mul_left n hsize
      _ < 2 ^ 16 * 64 := Nat.mul_lt_mul_of_pos_right hn (by decide)
  by_cases hwrap : off + n * size < 2 ^ 64
  · rw [Nat.mod_eq_of_lt hwrap] at h
    refine .inl ⟨hwrap, fun i hi => ?_⟩
    have := Nat.mul_le_mul_right size (Nat.succ_le_of_lt hi)
    exact le_trans (Nat.add_le_add_left this off) h
  · refine .inr ⟨not_lt.mp hwrap, ?_, fun i => ?_⟩
    · rcases Nat.eq_zero_or_pos n with rfl | hpos
      · rw [Nat.zero_mul] at hwrap
        exact absurd hoff hwrap
      · exact hpos
    · omega

/-! ## Segments -/

/-- `address - dest_base_addr + i`. -/
def Dest.index (dest : Dest) (address i : Nat) : Nat :=
  (UInt64.ofNat address - dest.destBaseAddr + UInt64.ofNat i).toNat

/-- The state after a byte was copied. -/
def Loader.stored (s : Loader) (index : Nat) (byte : UInt8) : Loader :=
  { s with destBuffer := s.destBuffer.set index byte }

/-- A round of `write` into a buffer that is large enough. -/
theorem writeByte_eq {address pos i : Nat} (hs : dest.destSize.toNat ≤ s.destBuffer.length) :
    writeByte file dest address pos i s =
      if dest.index address i < dest.destSize.toNat then
        match file[pos + i]? with
        | none => .error .strayRead s
        | some byte =>
          if i + 1 = 2 ^ 31 then .error .undefined (s.stored (dest.index address i) byte)
          else .ok () (s.stored (dest.index address i) byte)
      else .error .assertion s := by
  unfold writeByte
  change (if dest.destSize ≤ UInt64.ofNat address - dest.destBaseAddr + UInt64.ofNat i then
    throw .assertion else _ : Program LoaderFault Loader Unit) s = _
  have hassert : dest.destSize ≤ UInt64.ofNat address - dest.destBaseAddr + UInt64.ofNat i ↔
      ¬ dest.index address i < dest.destSize.toNat := by
    rw [UInt64.le_iff_toNat_le, not_lt]
    rfl
  by_cases hindex : dest.index address i < dest.destSize.toNat
  · rw [if_neg (by rw [hassert]; exact not_not.mpr hindex), if_pos hindex]
    cases file[pos + i]? with
    | none => rfl
    | some byte =>
      have hroom : ¬ s.destBuffer.length ≤ dest.index address i := by omega
      change (if s.destBuffer.length ≤ dest.index address i then _ else _ :
        Program LoaderFault Loader Unit) s = _
      rw [if_neg hroom]
      change (if i + 1 = 2 ^ 31 then throw .undefined else pure () :
        Program LoaderFault Loader Unit) (s.stored (dest.index address i) byte) = _
      by_cases hlast : i + 1 = 2 ^ 31
      · simp only [if_pos hlast]
        rfl
      · simp only [if_neg hlast]
        rfl
  · rw [if_pos (hassert.mpr hindex), if_neg hindex]
    rfl

/-- A round of `write` reads its byte when its assertion holds, and is followed by
another one unless the counter overflows. -/
theorem steered_writeByte (file : Bytes) (address pos : Nat) :
    Steered (fun s : Loader => dest.destSize.toNat ≤ s.destBuffer.length) LoaderFault.strayRead
      (fun i => dest.index address i < dest.destSize.toNat ∧ i + 1 ≠ 2 ^ 31)
      (fun i => dest.index address i < dest.destSize.toNat → pos + i < file.length)
      (writeByte file dest address pos) := by
  constructor
  · intro i s hs
    unfold Raises
    rw [writeByte_eq hs]
    by_cases hindex : dest.index address i < dest.destSize.toNat
    · simp only [hindex, true_imp_iff]
      cases hbyte : file[pos + i]? with
      | none =>
        have hlen := List.getElem?_eq_none_iff.mp hbyte
        exact iff_of_true ⟨s, rfl⟩ (not_lt.mpr hlen)
      | some byte =>
        have hlt := (List.getElem?_eq_some_iff.mp hbyte).1
        refine iff_of_false ?_ (not_not.mpr hlt)
        by_cases hlast : i + 1 = 2 ^ 31
        · simp only [if_pos hlast]
          rintro ⟨s', h⟩
          cases h
        · simp only [if_neg hlast]
          rintro ⟨s', h⟩
          cases h
    · simp only [if_neg hindex]
      refine iff_of_false ?_ (not_not.mpr fun h => absurd h hindex)
      rintro ⟨s', h⟩
      cases h
  · intro i s hs hin
    unfold Returns
    rw [writeByte_eq hs]
    by_cases hindex : dest.index address i < dest.destSize.toNat
    · obtain ⟨byte, hbyte⟩ : ∃ byte, file[pos + i]? = some byte :=
        ⟨_, List.getElem?_eq_getElem (hin hindex)⟩
      simp only [hbyte, hindex, true_and]
      by_cases hlast : i + 1 = 2 ^ 31
      · simp only [if_pos hlast]
        refine iff_of_false ?_ (not_not.mpr hlast)
        rintro ⟨s', h⟩
        cases h
      · simp only [if_neg hlast]
        exact iff_of_true ⟨_, rfl⟩ hlast
    · simp only [if_neg hindex]
      refine iff_of_false ?_ fun h => hindex h.1
      rintro ⟨s', h⟩
      cases h
  · intro i s s' hs h
    unfold Returns at h
    rw [writeByte_eq hs] at h
    split at h
    · split at h
      · cases h
      · split at h
        · cases h
        · cases h
          change _ ≤ (s.destBuffer.set _ _).length
          rw [List.length_set]
          exact hs
    · cases h

/-- The buffer has room for as many bytes as lie between the place of an address and its
end. -/
theorem index_lt {address i : Nat} (h : i < dest.destSize.toNat - dest.offset address) :
    dest.index address i < dest.destSize.toNat := by
  have hlt : dest.offset address + i < dest.destSize.toNat := by omega
  unfold Dest.index
  rw [toNat_index hlt]
  exact hlt

theorem le_index (dest : Dest) (address : Nat) :
    dest.destSize.toNat ≤ dest.index address (dest.destSize.toNat - dest.offset address) := by
  have hsize := dest.destSize_lt
  have hoffset : dest.offset address < 2 ^ 64 :=
    (UInt64.ofNat address - dest.destBaseAddr).toNat_lt
  have hindex : dest.index address (dest.destSize.toNat - dest.offset address) =
      (dest.offset address + (dest.destSize.toNat - dest.offset address)) % 2 ^ 64 := by
    unfold Dest.index
    rw [UInt64.toNat_add, UInt64.toNat_ofNat', Nat.add_mod_mod]
    rfl
  rw [hindex]
  omega

/-- How many of `len` bytes `write` gets to: as many as the buffer has room for, and as
an `int` counts. -/
def Dest.reach (dest : Dest) (address len : Nat) : Nat :=
  min len (min (dest.destSize.toNat - dest.offset address) (2 ^ 31))

/-- `write` reads within the file when the bytes it gets to lie there. -/
theorem upToStop_write_iff {address len pos : Nat} :
    UpToStop (fun i => dest.index address i < dest.destSize.toNat ∧ i + 1 ≠ 2 ^ 31)
        (fun i => dest.index address i < dest.destSize.toNat → pos + i < file.length)
        (List.range len) ↔
      (0 < dest.reach address len → pos + dest.reach address len ≤ file.length) := by
  have hreach : ∀ j, j < dest.reach address len ↔ j < len ∧
      j < dest.destSize.toNat - dest.offset address ∧ j < 2 ^ 31 := by
    intro j
    unfold Dest.reach
    omega
  have hstop := le_index dest address
  rw [upToStop_range]
  constructor
  · intro h hpos
    by_contra hover
    -- the first byte past the file is reached
    have hj : file.length - pos < dest.reach address len := by omega
    obtain ⟨hlen, hroom, hcount⟩ := (hreach _).mp hj
    have hread := h (file.length - pos) hlen (fun i hi => ⟨index_lt (by omega), by omega⟩)
      (index_lt hroom)
    omega
  · intro h j hj hgoes hindex
    have hroom : j < dest.destSize.toNat - dest.offset address := by
      by_contra hge
      rcases Nat.lt_or_eq_of_le (not_lt.mp hge) with hlt | heq
      · exact absurd (hgoes _ hlt).1 (not_lt.mpr hstop)
      · rw [← heq] at hindex
        exact absurd hindex (not_lt.mpr hstop)
    have hcount : j < 2 ^ 31 := by
      by_contra hge
      exact (hgoes (2 ^ 31 - 1) (by omega)).2 (by decide)
    have hlt := (hreach j).mpr ⟨hj, hroom, hcount⟩
    have := h (by omega)
    omega

theorem goes_write_iff {address len : Nat} :
    (∀ i ∈ List.range len, dest.index address i < dest.destSize.toNat ∧ i + 1 ≠ 2 ^ 31) ↔
      len ≤ dest.destSize.toNat - dest.offset address ∧ len < 2 ^ 31 := by
  simp only [List.mem_range]
  constructor
  · intro h
    refine ⟨?_, ?_⟩
    · by_contra hge
      exact absurd (h _ (not_le.mp hge)).1 (not_lt.mpr (le_index dest address))
    · by_contra hge
      exact (h (2 ^ 31 - 1) (by omega)).2 (by decide)
  · exact fun ⟨hroom, hcount⟩ i hi => ⟨index_lt (by omega), by omega⟩

namespace Phdr

/-- The bytes of a segment that `write` gets to lie in the file, where the assertion on
the segment holds. -/
def CopyInside (file : Bytes) (dest : Dest) (c : ElfClass) (ph : Phdr) : Prop :=
  ph.IsLoad → ph.pMemsz ≠ 0 → c.wrap (ph.pOffset + ph.pFilesz) ≤ file.length →
    0 < dest.reach ph.pPaddr ph.pFilesz →
      ph.pOffset + dest.reach ph.pPaddr ph.pFilesz ≤ file.length

/-- The loader goes on behind a segment: the assertions on it hold, an `int` counts its
bytes, and `zeros.resize` is not asked for too much. -/
def GoesOn (file : Bytes) (dest : Dest) (c : ElfClass) (ph : Phdr) : Prop :=
  ph.IsLoad → ph.pMemsz ≠ 0 →
    (ph.pFilesz ≠ 0 → c.wrap (ph.pOffset + ph.pFilesz) ≤ file.length ∧
      ph.pFilesz ≤ dest.destSize.toNat - dest.offset ph.pPaddr ∧ ph.pFilesz < 2 ^ 31) ∧
    c.wrap (ph.pMemsz + 2 ^ 64 - ph.pFilesz) < 2 ^ 63

end Phdr

/-- `zeros.resize`. -/
def resizeZeros (c : ElfClass) (ph : Phdr) : Program LoaderFault Loader Unit :=
  if 2 ^ 63 ≤ c.wrap (ph.pMemsz + 2 ^ 64 - ph.pFilesz) then throw .lengthError else pure ()

theorem not_raises_resizeZeros {ph : Phdr} : ¬ Raises (resizeZeros c ph) s .strayRead s' := by
  intro h
  unfold resizeZeros at h
  split at h
  · cases (raises_throw_iff.mp h).1
  · exact not_raises_pure h

theorem returns_resizeZeros {ph : Phdr} : Returns (resizeZeros c ph) s () s' ↔
    c.wrap (ph.pMemsz + 2 ^ 64 - ph.pFilesz) < 2 ^ 63 ∧ s = s' := by
  unfold resizeZeros
  split
  next hlarge => exact iff_of_false not_returns_throw fun h => absurd h.1 (not_lt.mpr hlarge)
  next hfits =>
    rw [returns_pure]
    exact ⟨fun h => ⟨not_le.mp hfits, h.2⟩, fun h => ⟨rfl, h.2⟩⟩

/-- The state after a segment was entered in `sections`. -/
def Loader.entered (s : Loader) (ph : Phdr) : Loader :=
  { s with sections := s.sections ++ [(ph.pPaddr, ph.pMemsz)] }

/-- What is done with a segment. -/
theorem loadSegment_cases (c : ElfClass) (ph : Phdr) (s : Loader) :
    (¬ (ph.IsLoad ∧ ph.pMemsz ≠ 0) ∧ loadSegment file dest c ph s = .ok () s) ∨
    (ph.IsLoad ∧ ph.pMemsz ≠ 0) ∧
      (ph.pFilesz = 0 ∧ loadSegment file dest c ph s = resizeZeros c ph s ∨
        ph.pFilesz ≠ 0 ∧
          (file.length < c.wrap (ph.pOffset + ph.pFilesz) ∧
              loadSegment file dest c ph s = .error .assertion s ∨
            c.wrap (ph.pOffset + ph.pFilesz) ≤ file.length ∧
              loadSegment file dest c ph s =
                (write file dest ph.pPaddr ph.pFilesz ph.pOffset >>= fun _ => resizeZeros c ph)
                  (s.entered ph))) := by
  unfold loadSegment
  by_cases hload : ph.IsLoad ∧ ph.pMemsz ≠ 0
  · right
    refine ⟨hload, ?_⟩
    rw [if_pos (show ph.pType = ptLoad ∧ ph.pMemsz ≠ 0 from hload)]
    by_cases hzero : ph.pFilesz = 0
    · left
      rw [if_neg (not_not.mpr hzero)]
      exact ⟨hzero, rfl⟩
    · right
      refine ⟨hzero, ?_⟩
      rw [if_pos hzero]
      by_cases hcheck : c.wrap (ph.pOffset + ph.pFilesz) ≤ file.length
      · right
        rw [decide_eq_true hcheck]
        exact ⟨hcheck, rfl⟩
      · left
        rw [decide_eq_false hcheck]
        exact ⟨not_le.mp hcheck, rfl⟩
  · left
    rw [if_neg (show ¬ (ph.pType = ptLoad ∧ ph.pMemsz ≠ 0) from hload)]
    exact ⟨hload, rfl⟩

/-- A segment makes the loader read past the file unless the bytes it gets to lie there. -/
theorem steered_loadSegment (file : Bytes) (c : ElfClass) :
    Steered (fun s : Loader => dest.destSize.toNat ≤ s.destBuffer.length) LoaderFault.strayRead
      (Phdr.GoesOn file dest c) (Phdr.CopyInside file dest c) (loadSegment file dest c) := by
  constructor
  · intro ph s hs
    unfold Raises Phdr.CopyInside
    rcases loadSegment_cases c ph s with ⟨hnot, heq⟩ | ⟨hload, ⟨hzero, heq⟩ | ⟨hne, hcases⟩⟩
    · rw [heq]
      refine iff_of_false nofun (not_not.mpr fun hload hmem => absurd ⟨hload, hmem⟩ hnot)
    · rw [heq]
      refine iff_of_false (fun ⟨s', h⟩ => not_raises_resizeZeros h) (not_not.mpr ?_)
      intro _ _ _ hreach
      unfold Dest.reach at hreach
      omega
    · rcases hcases with ⟨hcheck, heq⟩ | ⟨hcheck, heq⟩
      · rw [heq]
        exact iff_of_false nofun (not_not.mpr fun _ _ h => absurd h (not_le.mpr hcheck))
      · rw [heq]
        have hwrite := (steered_writeByte file ph.pPaddr ph.pOffset).exists_raises_iff
          (List.range ph.pFilesz) (s := s.entered ph) hs
        rw [upToStop_write_iff] at hwrite
        simp only [hload.1, hload.2, ne_eq, not_false_eq_true, true_imp_iff, hcheck]
        rw [← hwrite]
        constructor
        · rintro ⟨s', h⟩
          rcases raises_bind.mp h with h | ⟨_, t, -, h⟩
          · exact ⟨s', h⟩
          · exact absurd h not_raises_resizeZeros
        · rintro ⟨s', h⟩
          exact ⟨s', raises_bind.mpr (.inl h)⟩
  · intro ph s hs hinside
    unfold Returns Phdr.GoesOn
    rcases loadSegment_cases c ph s with ⟨hnot, heq⟩ | ⟨hload, ⟨hzero, heq⟩ | ⟨hne, hcases⟩⟩
    · rw [heq]
      exact iff_of_true ⟨s, rfl⟩ fun hload hmem => absurd ⟨hload, hmem⟩ hnot
    · rw [heq]
      simp only [hload.1, hload.2, hzero, ne_eq, not_false_eq_true, true_imp_iff, not_true,
        false_imp_iff, true_and]
      rw [← hzero]
      exact ⟨fun ⟨s', h⟩ => (returns_resizeZeros.mp h).1,
        fun h => ⟨s, returns_resizeZeros.mpr ⟨h, rfl⟩⟩⟩
    · rcases hcases with ⟨hcheck, heq⟩ | ⟨hcheck, heq⟩
      · rw [heq]
        refine iff_of_false nofun fun h => ?_
        exact absurd ((h hload.1 hload.2).1 hne).1 (not_le.mpr hcheck)
      · rw [heq]
        have hstop : UpToStop _ _ (List.range ph.pFilesz) :=
          upToStop_write_iff.mpr (hinside hload.1 hload.2 hcheck)
        have hwrite := (steered_writeByte file ph.pPaddr ph.pOffset).exists_returns_iff
          (s := s.entered ph) hs hstop
        rw [goes_write_iff] at hwrite
        simp only [hload.1, hload.2, hne, ne_eq, not_false_eq_true, true_imp_iff, hcheck, true_and]
        rw [← hwrite]
        constructor
        · rintro ⟨s', h⟩
          obtain ⟨_, t, hrun, hend⟩ := returns_bind.mp h
          exact ⟨⟨t, hrun⟩, (returns_resizeZeros.mp hend).1⟩
        · rintro ⟨⟨t, hrun⟩, hsmall⟩
          exact ⟨t, returns_bind.mpr ⟨(), t, hrun, returns_resizeZeros.mpr ⟨hsmall, rfl⟩⟩⟩
  · intro ph s s' hs h
    unfold Returns at h
    rcases loadSegment_cases c ph s with ⟨hnot, heq⟩ | ⟨hload, ⟨hzero, heq⟩ | ⟨hne, hcases⟩⟩
    · rw [heq] at h
      cases h
      exact hs
    · rw [heq] at h
      rw [← (returns_resizeZeros.mp h).2]
      exact hs
    · rcases hcases with ⟨hcheck, heq⟩ | ⟨hcheck, heq⟩
      · rw [heq] at h
        cases h
      · rw [heq] at h
        obtain ⟨_, t, hrun, hend⟩ := returns_bind.mp h
        rw [← (returns_resizeZeros.mp hend).2]
        exact (steered_writeByte file ph.pPaddr ph.pOffset).keeps_forEach
          (s := s.entered ph) _ hs hrun

end SoftHier.Dram.ElfLoader
