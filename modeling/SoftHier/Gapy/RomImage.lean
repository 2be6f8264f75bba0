/-
  Gapy/RomImage.lean --- the binary a boot ROM finds in a flash.

  `readBinary` is the boot ROM: it reads the main header, then the header of
  each segment, and takes the segment from the flash offset the header gives.
  What it gets from the image of an accepted flash is the binary of the ELF
  file.
-/
import SoftHier.Gapy.PartitionImage

set_option autoImplicit false

namespace SoftHier.Gapy

open SoftHier.Foundation Program

/-! ## The reader -/

/-- The main header as the boot ROM reads it. -/
structure RomHeaderFields where
  romHeaderSize : Nat
  nbSegments : Nat
  entry : Nat
  deriving DecidableEq, Repr

/-- The main header of the ROM at a position. -/
def readRomHeader (image : Bytes) (pos : Nat) : RomHeaderFields where
  romHeaderSize := readNat image pos 4
  nbSegments := readNat image (pos + 4) 4
  entry := readNat image (pos + 8) 4

/-- A segment header as the boot ROM reads it. -/
structure RomSegmentFields where
  flashOffset : Nat
  memAddr : Nat
  size : Nat
  deriving DecidableEq, Repr

/-- The header of segment `i` of the ROM at a position. -/
def readRomSegment (image : Bytes) (pos i : Nat) : RomSegmentFields :=
  let header := pos + (16 + 16 * i)
  { flashOffset := readNat image header 4
    memAddr := readNat image (header + 4) 4
    size := readNat image (header + 8) 4 }

/-- The binary the boot ROM copies to memory. -/
def readBinary (image : Bytes) (pos : Nat) : Binary where
  entry := (readRomHeader image pos).entry
  segments := (List.range (readRomHeader image pos).nbSegments).map fun i =>
    let segment := readRomSegment image pos i
    { base := segment.memAddr, data := slice image segment.flashOffset segment.size }

/-! ## Where the segments lie -/

namespace RomFlashSection

theorem header_fields (size : Int) (binary : Binary) :
    (RomHeader.filled size binary).fields =
      [⟨"rom_header_size", .scalar .I, .int size⟩,
        ⟨"nb_segments", .scalar .I, .int binary.segments.length⟩,
        ⟨"entry", .scalar .I, .int binary.entry⟩, ⟨"unused", .scalar .I, .int 0⟩] := rfl

theorem segmentHeader_fields (flashOffset : Int) (b : BinarySegment) :
    (RomSegmentHeader.filled flashOffset b).fields =
      [⟨"flash_offset", .scalar .I, .int flashOffset⟩, ⟨"mem_addr", .scalar .I, .int b.base⟩,
        ⟨"size", .scalar .I, .int b.size⟩,
        ⟨"crc", .scalar .I, .int ((b.size + 4096 - 1) / 4096 : Nat)⟩] := rfl

theorem segment_fields (b : BinarySegment) :
    (RomSegment.filled b).fields = [⟨"data", .bytes (.int b.size), .bytes b.data⟩] := rfl

theorem size_segmentSpec (b : BinarySegment) : (RomSegment.spec b).size = b.data.length := by
  change (b.size : Int) + 0 = _
  rw [Int.add_zero, BinarySegment.size]

/-- The headers before segment header `i`. -/
theorem specsSize_take_headers {binary : Binary} {i : Nat} (hi : i ≤ binary.segments.length) :
    specsSize ((created binary).take (1 + i)) = ((16 + 16 * i : Nat) : Int) := by
  have hheaders : specsSize
      ((binary.segments.map fun _ => RomSegmentHeader.spec).take i) = 16 * i := by
    rw [PartitionTableSection.specsSize_of_forall 16]
    · rw [List.length_take, List.length_map, Nat.min_eq_left hi]
    · intro spec hspec
      obtain ⟨b, -, rfl⟩ := List.mem_map.mp (List.mem_of_mem_take hspec)
      rfl
  have htake : (created binary).take (1 + i) =
      RomHeader.spec :: (binary.segments.map fun _ => RomSegmentHeader.spec).take i := by
    rw [created, Nat.add_comm 1 i, List.append_assoc, List.singleton_append, List.take_succ_cons,
      List.take_append_of_le_length (by rw [List.length_map]; exact hi)]
  rw [htake, specsSize_cons, hheaders]
  change (16 : Int) + 16 * i = _
  push_cast
  rfl

/-- Everything before segment `i`: all headers, and the segments before it. -/
def segmentStart (binary : Binary) (i : Nat) : Nat :=
  16 + 16 * binary.segments.length + ((binary.segments.take i).map fun b => b.data.length).sum

theorem specsSize_take_segments (binary : Binary) (i : Nat) :
    specsSize ((created binary).take (1 + binary.segments.length + i)) =
      (segmentStart binary i : Int) := by
  have hlen : ([RomHeader.spec] ++ binary.segments.map fun _ => RomSegmentHeader.spec).length =
      1 + binary.segments.length := by
    rw [List.length_append, List.length_map, List.length_singleton]
  have htake : (created binary).take (1 + binary.segments.length + i) =
      (created binary).take (1 + binary.segments.length) ++
        (binary.segments.take i).map RomSegment.spec := by
    rw [created, ← hlen, List.take_length_add_append, List.take_left', List.map_take]
    rfl
  have hsegments : ∀ l : List BinarySegment, specsSize (l.map RomSegment.spec) =
      ((l.map fun b => b.data.length).sum : Nat) := by
    intro l
    induction l with
    | nil => rfl
    | cons b l ih =>
      rw [List.map_cons, specsSize_cons, ih, size_segmentSpec, List.map_cons, List.sum_cons]
      push_cast
      rfl
  rw [htake, specsSize_append, specsSize_take_headers (le_refl _), hsegments, segmentStart]
  push_cast
  rfl

/-- The segments follow one another. -/
theorem segmentStart_add_le {binary : Binary} {i j : Nat} {b : BinarySegment}
    (hb : binary.segments[i]? = some b) (hij : i < j) :
    segmentStart binary i + b.data.length ≤ segmentStart binary j := by
  obtain ⟨k, rfl⟩ : ∃ k, j = i + (1 + k) := ⟨j - (i + 1), by omega⟩
  have htake : binary.segments.take (i + (1 + k)) =
      binary.segments.take i ++ b :: ((binary.segments.drop (i + 1)).take k) := by
    have hi : i < binary.segments.length := (List.getElem?_eq_some_iff.mp hb).1
    have hbi : binary.segments[i] = b := (List.getElem?_eq_some_iff.mp hb).2
    rw [List.take_add, List.drop_eq_getElem_cons hi, hbi, Nat.add_comm 1 k, List.take_succ_cons]
  rw [segmentStart, segmentStart, htake, List.map_append, List.sum_append, List.map_cons,
    List.sum_cons]
  omega

/-! ## Reading a filled section -/

section Read

variable {u : FlashSection RomAttrs} {specs : List StructSpec} {image full : Bytes}
  {binary : Binary} {size : Int} {pos : Nat}

/-- The main header, read from an image that holds the section. -/
theorem FilledTo.readHeader (hu : u.structs = [])
    (himage : (u.holding "rom" specs).getImage = .ok image) (hholds : HoldsAt full pos image)
    (h : FilledTo pos size binary binary.segments.length specs) :
    0 ≤ size ∧ readRomHeader full pos =
      { romHeaderSize := size.toNat, nbSegments := binary.segments.length,
        entry := binary.entry } := by
  obtain ⟨b, off, hb, hoff, hat, hfit⟩ := FlashSection.holdsAt_struct hu himage h.header
  obtain rfl : off = 0 := by simpa using hoff
  have hheader := hholds.trans hat hfit
  have hfields := header_fields size binary
  obtain ⟨hnonneg, hsize⟩ := hheader.readField hb (j := 0) (by rw [hfields]; rfl)
    (show ((0 : Nat) : Int) = _ by rw [hfields]; rfl)
  obtain ⟨-, hnb⟩ := hheader.readField hb (j := 1) (by rw [hfields]; rfl)
    (show ((4 : Nat) : Int) = _ by rw [hfields]; rfl)
  obtain ⟨-, hentry⟩ := hheader.readField hb (j := 2) (by rw [hfields]; rfl)
    (show ((8 : Nat) : Int) = _ by rw [hfields]; rfl)
  simp only [ScalarFormat.size, Int.toNat_natCast, Nat.add_zero] at hsize hnb hentry
  exact ⟨hnonneg, by simp only [readRomHeader, hsize, hnb, hentry]⟩

/-- The header of a segment, and the segment where it says. -/
theorem FilledTo.readSegment (hu : u.structs = [])
    (himage : (u.holding "rom" specs).getImage = .ok image) (hholds : HoldsAt full pos image)
    (h : FilledTo pos size binary binary.segments.length specs) {i : Nat} {b : BinarySegment}
    (hb : binary.segments[i]? = some b) :
    readRomSegment full pos i =
        { flashOffset := pos + segmentStart binary i, memAddr := b.base, size := b.data.length } ∧
      slice full (pos + segmentStart binary i) b.data.length = b.data := by
  have hi : i < binary.segments.length := (List.getElem?_eq_some_iff.mp hb).1
  have hheader := h.segmentHeader i b hb
  have hsegment := h.segment i b hb
  rw [if_pos hi] at hheader hsegment
  rw [specsSize_take_segments] at hheader
  obtain ⟨c, off, hc, hoff, hat, hfit⟩ := FlashSection.holdsAt_struct hu himage hheader
  rw [specsSize_take_congr h.sizes, specsSize_take_headers (le_of_lt hi)] at hoff
  obtain rfl : off = 16 + 16 * i := by exact_mod_cast hoff
  have hfields := segmentHeader_fields ((pos : Int) + (segmentStart binary i : Int)) b
  have hread := hholds.trans hat hfit
  obtain ⟨-, hoffset⟩ := hread.readField hc (j := 0) (by rw [hfields]; rfl)
    (show ((0 : Nat) : Int) = _ by rw [hfields]; rfl)
  obtain ⟨-, haddr⟩ := hread.readField hc (j := 1) (by rw [hfields]; rfl)
    (show ((4 : Nat) : Int) = _ by rw [hfields]; rfl)
  obtain ⟨-, hsize⟩ := hread.readField hc (j := 2) (by rw [hfields]; rfl)
    (show ((8 : Nat) : Int) = _ by rw [hfields]; rfl)
  obtain ⟨d, off, hd, hoff, hat, hfit⟩ := FlashSection.holdsAt_struct hu himage hsegment
  rw [specsSize_take_congr h.sizes, specsSize_take_segments] at hoff
  obtain rfl : off = segmentStart binary i := by exact_mod_cast hoff
  have hdata := (hholds.trans hat hfit).field_array hd (j := 0) (by rw [segment_fields]; rfl)
    (show ((0 : Nat) : Int) = _ by rw [segment_fields]; rfl)
  rw [PyNumber.toInt_int, Int.toNat_natCast, fitBytes_self (v := b.data) (n := b.size) rfl,
    Nat.add_zero] at hdata
  constructor
  · simp only [ScalarFormat.size, Int.toNat_natCast, Nat.add_zero] at hoffset haddr hsize
    have hsum : ((pos : Int) + (segmentStart binary i : Int)).toNat =
        pos + segmentStart binary i := by omega
    rw [hsum] at hoffset
    simp only [readRomSegment, hoffset, haddr, hsize, BinarySegment.size]
  · exact hdata

/-- The whole binary, read from an image that holds the section. -/
theorem FilledTo.readBinary_eq (hu : u.structs = [])
    (himage : (u.holding "rom" specs).getImage = .ok image) (hholds : HoldsAt full pos image)
    (h : FilledTo pos size binary binary.segments.length specs) :
    readBinary full pos = binary := by
  have hsegments : (readBinary full pos).segments = binary.segments := by
    refine List.ext_getElem? fun i => ?_
    simp only [readBinary, (h.readHeader hu himage hholds).2, List.getElem?_map]
    cases hb : binary.segments[i]? with
    | none =>
      rw [List.getElem?_eq_none (by
        rw [List.length_range]; exact List.getElem?_eq_none_iff.mp hb), Option.map_none]
    | some b =>
      have hi : i < binary.segments.length := (List.getElem?_eq_some_iff.mp hb).1
      obtain ⟨hheader, hdata⟩ := h.readSegment hu himage hholds hb
      rw [List.getElem?_range hi, Option.map_some, hheader]
      simp only [hdata]
  have hentry : (readBinary full pos).entry = binary.entry := by
    simp only [readBinary, (h.readHeader hu himage hholds).2]
  cases hbinary : readBinary full pos
  rw [hbinary] at hsegments hentry
  cases binary
  simp only at hsegments hentry
  rw [hsegments, hentry]

end Read

end RomFlashSection

namespace Flash

variable {host : Host} {f f' : Flash}

/-- A ROM section of a parsed flash whose binary is an ELF file, with its
values. -/
theorem ParseOf.rom_at {entries : List ContentSection}
    {created placed : List (String × Section)} (hof : ParseOf host f f' entries created placed)
    {i : Nat} {t : FlashSection RomAttrs} (ht : f'.sections.values[i]? = some (.rom t))
    {value : PyValue} {file : PyFile} {elf : ElfFile} (hvalue : t.getProperty "binary" = .ok value)
    (hfile : value.openable = .ok file) (helf : host.openElf file = .ok elf) :
    ∃ (u : FlashSection RomAttrs) (specs : List StructSpec) (size : Int),
      t = u.holding "rom" specs ∧ u.structs = [] ∧ t.getSize = .ok size ∧
      RomFlashSection.FilledTo t.offset size (Binary.ofElf elf)
        (Binary.ofElf elf).segments.length specs := by
  obtain ⟨c, o, name, template, placedSection, hset, hfinalize⟩ := hof.at_index ht
  have hkind : template = .rom :=
    (Section.kind_new template name _).symm.trans (Section.kind_finalized hset hfinalize).symm
  subst hkind
  obtain ⟨t₀, ht₀, rfl⟩ := Section.returns_within hset
  cases hfinalize
  obtain ⟨s₁, boot, hstart, hrest⟩ := RomFlashSection.returns_create ht₀
  obtain ⟨properties, rfl, -⟩ := FlashSection.returns_setContent hstart
  obtain ⟨binary, hbinary, hfill⟩ | ⟨hnone, hfill⟩ := hrest
  · obtain ⟨-, hno⟩ | ⟨value', file', elf', hvalue', hfile', helf', hsome⟩ :=
      RomFlashSection.parseBinary_cases hbinary
    · cases hno
    obtain rfl := Option.some.inj hsome
    have hlayout := RomFlashSection.keepsLayout_fill _ _ _ _ _ hfill
    have hproperty := hvalue'
    unfold FlashSection.getProperty at hproperty hvalue
    rw [hlayout.properties] at hvalue
    obtain rfl : value = value' := Except.ok.inj (hvalue.symm.trans hproperty)
    obtain rfl : file = file' := Except.ok.inj (hfile.symm.trans hfile')
    obtain rfl : elf = elf' := Except.ok.inj (helf.symm.trans helf')
    obtain ⟨u, specs, size, rfl, -, hu, -, hsize, hfilled⟩ :=
      RomFlashSection.fill_filledTo (by rfl) hfill
    refine ⟨u, specs, size, rfl, hu, hsize, ?_⟩
    rw [hlayout.offset]
    exact hfilled
  · obtain ⟨size, s₂, hread, hfill⟩ := returns_bind.mp hfill
    obtain ⟨-, rfl⟩ := returns_reading.mp hread
    have hlayout := keepsLayout_setField _ _ _ _ _ _ hfill
    obtain ⟨hdefault, -⟩ | ⟨value', file', elf', -, -, -, hsome⟩ :=
      RomFlashSection.parseBinary_cases hnone
    case inr => cases hsome
    unfold FlashSection.getProperty at hdefault hvalue
    rw [hlayout.properties] at hvalue
    rw [Except.ok.inj (hvalue.symm.trans hdefault)] at hfile
    cases hfile

/-- Reading a ROM section back from the image of the flash: the main header
gives the section's size, the number of segments and the entry point, the header
of each segment says where its bytes are, and the segments do not overlap.  The
boot ROM gets the binary of the ELF file. -/
theorem rom_readBack (hfresh : f.Fresh) (hnames : f.DistinctNames)
    (hparse : Returns (parseContent host true) f () f') {full : Bytes}
    (hfull : Returns (getImage host none none) f' full f') {p : Nat}
    {t : FlashSection RomAttrs} (ht : f'.sections.values[p]? = some (.rom t))
    {value : PyValue} {file : PyFile} {elf : ElfFile} (hvalue : t.getProperty "binary" = .ok value)
    (hfile : value.openable = .ok file) (helf : host.openElf file = .ok elf) :
    (∃ size, t.getSize = .ok (size : Nat) ∧
      readRomHeader full t.offset.toNat =
        { romHeaderSize := size, nbSegments := elf.loads.length, entry := elf.eEntry }) ∧
    (∀ i segment, elf.loads[i]? = some segment →
      (readRomSegment full t.offset.toNat i).memAddr = segment.pPaddr ∧
      (readRomSegment full t.offset.toNat i).size = segment.data.length ∧
      slice full (readRomSegment full t.offset.toNat i).flashOffset segment.data.length =
        segment.data) ∧
    (∀ i j, i < j → j < elf.loads.length →
      (readRomSegment full t.offset.toNat i).flashOffset +
          (readRomSegment full t.offset.toNat i).size ≤
        (readRomSegment full t.offset.toNat j).flashOffset) ∧
    readBinary full t.offset.toNat = Binary.ofElf elf := by
  obtain ⟨entries, created, placed, hof⟩ := parseContent_parseOf hfresh hnames hparse
  obtain ⟨u, specs, size, rfl, hu, hsize, hfilled⟩ := hof.rom_at ht hvalue hfile helf
  obtain ⟨image, himage, -, hoffset, hholds⟩ :=
    hof.holdsAt_section hfull (List.mem_of_getElem? ht)
  have himage : (u.holding "rom" specs).getImage = .ok image := himage
  have hholds : HoldsAt full (u.holding "rom" specs).offset.toNat image := hholds
  have hpos : (((u.holding "rom" specs).offset.toNat : Nat) : Int) =
      (u.holding "rom" specs).offset := Int.toNat_of_nonneg hoffset
  rw [← hpos] at hfilled
  generalize (u.holding "rom" specs).offset.toNat = pos at *
  have hlen : (Binary.ofElf elf).segments.length = elf.loads.length := List.length_map _
  have hget : ∀ {i : Nat} {segment : ElfSegment}, elf.loads[i]? = some segment →
      (Binary.ofElf elf).segments[i]? = some ⟨segment.pPaddr, segment.data⟩ := by
    intro i segment hi
    change (elf.loads.map _)[i]? = _
    rw [List.getElem?_map, hi]
    rfl
  obtain ⟨hnonneg, hheader⟩ := hfilled.readHeader hu himage hholds
  refine ⟨⟨size.toNat, ?_, ?_⟩, ?_, ?_, hfilled.readBinary_eq hu himage hholds⟩
  · rw [hsize, Int.toNat_of_nonneg hnonneg]
  · rw [hheader, hlen]
    rfl
  · intro i segment hi
    obtain ⟨hread, hdata⟩ := hfilled.readSegment hu himage hholds (hget hi)
    rw [hread]
    exact ⟨rfl, rfl, hdata⟩
  · intro i j hij hj
    have hi : i < elf.loads.length := lt_trans hij hj
    have hbi := hget (List.getElem?_eq_getElem hi)
    have hbj := hget (List.getElem?_eq_getElem hj)
    rw [(hfilled.readSegment hu himage hholds hbi).1, (hfilled.readSegment hu himage hholds hbj).1]
    have hle := RomFlashSection.segmentStart_add_le hbi hij
    simp only at hle ⊢
    omega

/-- A ROM behind a raw section, with a binary of two segments. -/
theorem rom_readBack_two :
    let elf : ElfFile :=
      { eEntry := 128
        segments := [⟨"PT_LOAD", 128, 2, 2, [1, 2], rfl⟩, ⟨"PT_LOAD", 512, 1, 4, [3], rfl⟩] }
    let host : Host := { Host.noFiles with openElf := fun _ => .ok elf }
    let rom : ContentSection :=
      { name := some "rom", template := some "rom",
        properties := some (Dict.empty.set "binary" (.str "app")) }
    let f := ofContent 256 Dict.empty [rawEntry "data" 8, rom]
    ∃ f' full t, Returns (parseContent host true) f () f' ∧
      Returns (getImage host none none) f' full f' ∧
      f'.sections.values[1]? = some (.rom t) ∧
      readBinary full t.offset.toNat = Binary.ofElf elf := by
  intro elf host rom f
  have hparse : Returns (parseContent host true) f () _ :=
    returns_of_returned? (by decide +kernel)
  have hkind : (finalState (parseContent host true) f).sections.values[1]?.map
      (fun s => (s.kind, s.base.getProperty "binary")) = some (.rom, .ok (.str "app")) := by
    decide +kernel
  obtain ⟨s, hs, hs'⟩ := Option.map_eq_some_iff.mp hkind
  obtain ⟨t, rfl⟩ := Section.exists_rom (congrArg Prod.fst hs')
  have hsome : (returned? (getImage host none none)
      (finalState (parseContent host true) f)).isSome = true := by decide +kernel
  obtain ⟨full, hfull⟩ := Option.isSome_iff_exists.mp hsome
  have himage := returns_getImage_of_returned? (by decide +kernel) hfull
  have hread := rom_readBack ⟨rfl, rfl, rfl⟩ (by decide +kernel) hparse himage hs
    (congrArg Prod.snd hs') rfl rfl
  exact ⟨_, full, t, hparse, himage, hs, hread.2.2.2⟩

end Flash

end SoftHier.Gapy
