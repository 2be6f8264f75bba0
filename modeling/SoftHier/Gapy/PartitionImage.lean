/-
  Gapy/PartitionImage.lean --- the partition table a board finds in a flash.

  `readPartitionEntry` is the reader: a header of 32 bytes, then entries of 32
  bytes, without padding.  What it reads from the image of an accepted flash are
  the sections behind the table, each at the place where its bytes are.
-/
import SoftHier.Gapy.ReadBack

set_option autoImplicit false

namespace SoftHier.Gapy

open SoftHier.Foundation Program

/-! ## The reader -/

/-- An entry as a board reads it. -/
structure PartitionEntry where
  partitionType : Nat
  partitionSubtype : Nat
  offset : Nat
  size : Nat
  deriving DecidableEq, Repr

/-- The number of entries of the table at a position. -/
def readNbEntries (image : Bytes) (pos : Nat) : Nat := readNat image (pos + 3) 1

/-- Entry number `i` of the table at a position. -/
def readPartitionEntry (image : Bytes) (pos i : Nat) : PartitionEntry :=
  let entry := pos + (32 + 32 * i)
  { partitionType := readNat image (entry + 2) 1
    partitionSubtype := readNat image (entry + 3) 1
    offset := readNat image (entry + 4) 4
    size := readNat image (entry + 8) 4 }

/-! ## Where the entries lie -/

namespace PartitionTableSection

theorem specsSize_of_forall (size : Int) {specs : List StructSpec}
    (h : ∀ spec ∈ specs, spec.size = size) : specsSize specs = size * specs.length := by
  induction specs with
  | nil => simp
  | cons spec specs ih =>
    rw [specsSize_cons, ih fun s hs => h s (List.mem_cons_of_mem spec hs),
      h spec List.mem_cons_self, List.length_cons, Nat.cast_add, Int.mul_add]
    omega

theorem specsSize_created_take {k i : Nat} (hi : i ≤ k) :
    specsSize ((created k).take (1 + i)) = ((32 + 32 * i : Nat) : Int) := by
  have hentries : specsSize (((List.range k).map PartitionTableSectionHeader.spec).take i) =
      32 * i := by
    rw [specsSize_of_forall 32]
    · rw [List.length_take, List.length_map, List.length_range, Nat.min_eq_left hi]
    · intro spec hspec
      obtain ⟨j, -, rfl⟩ := List.mem_map.mp (List.mem_of_mem_take hspec)
      rfl
  rw [created, Nat.add_comm 1 i, List.take_succ_cons, specsSize_cons, hentries]
  change (32 : Int) + 32 * i = _
  push_cast
  rfl

/-- What a filled entry holds. -/
theorem filled_fields (i : Nat) (v : SectionView) (size : Int) :
    (PartitionTableSectionHeader.filled i v size).fields =
      [⟨"magic_number", .scalar .H, .int 0x01BA⟩, ⟨"type", .scalar .B, .int v.partitionType⟩,
        ⟨"subtype", .scalar .B, .int v.partitionSubtype⟩, ⟨"offset", .scalar .I, .int v.offset⟩,
        ⟨"size", .scalar .I, .int size⟩, ⟨"name", .bytes (.int 16), .bytes (utf8 v.name ++ [0])⟩,
        ⟨"flags", .scalar .I, .int 0⟩] := rfl

theorem header_fields (n : Nat) :
    (PartitionTableHeader.filled n).fields =
      [⟨"magic_number", .scalar .H, .int 0x02BA⟩,
        ⟨"partition_table_version", .scalar .B, .int 1⟩, ⟨"nb_entries", .scalar .B, .int n⟩,
        ⟨"crc", .scalar .B, .int 0⟩, ⟨"padding", .bytes (.int 11), .bytes []⟩,
        ⟨"md5", .bytes (.int 16), .bytes []⟩] := rfl

/-- An entry of the table, read from an image that holds it. -/
theorem readPartitionEntry_of_holdsAt {image b : Bytes} {pos i : Nat} {v : SectionView} {size : Nat}
    (h : HoldsAt image (pos + (32 + 32 * i)) b)
    (hb : (PartitionTableSectionHeader.filled i v size).pack = .ok b) :
    0 ≤ v.offset ∧ readPartitionEntry image pos i =
      { partitionType := v.partitionType, partitionSubtype := v.partitionSubtype,
        offset := v.offset.toNat, size := size } := by
  have hfields := filled_fields i v size
  obtain ⟨-, htype⟩ := h.readField hb (j := 1) (by rw [hfields]; rfl) (show ((2 : Nat) : Int) = _ by
    rw [hfields]; rfl)
  obtain ⟨-, hsubtype⟩ := h.readField hb (j := 2) (by rw [hfields]; rfl)
    (show ((3 : Nat) : Int) = _ by rw [hfields]; rfl)
  obtain ⟨hoff, hoffset⟩ := h.readField hb (j := 3) (by rw [hfields]; rfl)
    (show ((4 : Nat) : Int) = _ by rw [hfields]; rfl)
  obtain ⟨-, hsize⟩ := h.readField hb (j := 4) (by rw [hfields]; rfl)
    (show ((8 : Nat) : Int) = _ by rw [hfields]; rfl)
  refine ⟨hoff, ?_⟩
  simp only [ScalarFormat.size, Int.toNat_natCast] at htype hsubtype hoffset hsize
  simp only [readPartitionEntry, htype, hsubtype, hoffset, hsize]

end PartitionTableSection

namespace Flash

variable {host : Host} {f f' : Flash}

/-- How a partition table of a parsed flash was placed and finalized. -/
theorem ParseOf.partitionTable_run {entries : List ContentSection}
    {created placed : List (String × Section)} (hof : ParseOf host f f' entries created placed)
    {p : Nat} {t : FlashSection PartitionAttrs}
    (ht : f'.sections.values[p]? = some (.partitionTable t)) :
    ∃ c o name t₀,
      Returns (PartitionTableSection.setContent (f.contextWith f'.sections.keys) o c)
        ((PartitionTableSection.new name p).setAlignments
          (f.flashAttributes.get "section_start_align")
          (f.flashAttributes.get "section_size_align")) () t₀ ∧
      Returns (PartitionTableSection.finalize (f'.sections.values.map Section.view)) t₀ () t := by
  obtain ⟨c, o, name, template, placedSection, hset, hfinalize⟩ := hof.at_index ht
  have hkind : template = .partitionTable :=
    (Section.kind_new template name _).symm.trans (Section.kind_finalized hset hfinalize).symm
  subst hkind
  obtain ⟨t₀, ht₀, rfl⟩ := Section.returns_within hset
  obtain ⟨t₁, ht₁, hwrap⟩ := Section.returns_within hfinalize
  obtain rfl : t = t₁ := Section.partitionTable.inj hwrap
  exact ⟨c, o, name, t₀, ht₀, ht₁⟩

/-- A partition table of a parsed flash, with the values `finalize` gave it. -/
theorem ParseOf.partitionTable_at {entries : List ContentSection}
    {created placed : List (String × Section)} (hof : ParseOf host f f' entries created placed)
    {p : Nat} {t : FlashSection PartitionAttrs}
    (ht : f'.sections.values[p]? = some (.partitionTable t)) :
    ∃ (u : FlashSection PartitionAttrs) (specs : List StructSpec),
      t = u.holding "partition table" specs ∧ u.structs = [] ∧
      PartitionTableSection.FilledTo ((f'.sections.values.map Section.view).drop (p + 1))
        (f'.sections.length - (p + 1)) (f'.sections.length - (p + 1)) specs := by
  obtain ⟨c, o, name, t₀, ht₀, ht₁⟩ := hof.partitionTable_run ht
  obtain ⟨s₁, hstart, rfl⟩ := PartitionTableSection.returns_create ht₀
  obtain ⟨properties, hs₁, -⟩ := FlashSection.returns_setContent hstart
  have hself : s₁.self = {} := by rw [hs₁]; rfl
  have hstructs : s₁.structs = [] := by rw [hs₁]; rfl
  have hid : s₁.sectionId = p := by rw [hs₁]; rfl
  obtain ⟨u, specs, rfl, -, hu, hfilled⟩ := PartitionTableSection.finalize_filledTo hself ht₁
  refine ⟨u, specs, rfl, hu.trans hstructs, ?_⟩
  have hcount : (f'.sections.keys.drop (p + 1)).length = f'.sections.length - (p + 1) := by
    rw [List.length_drop, Dict.length_keys]
  rw [hid] at hfilled
  rw [← hcount]
  exact hfilled

/-- Reading the partition table back from the image of the flash: one entry for
every section behind the table, in order, with the section's types, offset and
size; and the bytes of the image at that offset are the section. -/
theorem partitionTable_readBack (hfresh : f.Fresh) (hnames : f.DistinctNames)
    (hparse : Returns (parseContent host true) f () f') {full : Bytes}
    (hfull : Returns (getImage host none none) f' full f') {p : Nat}
    {t : FlashSection PartitionAttrs} (ht : f'.sections.values[p]? = some (.partitionTable t)) :
    readNbEntries full t.offset.toNat = f'.sections.length - p - 1 ∧
      ∀ i, i < f'.sections.length - p - 1 → ∃ s bytes,
        f'.sections.values[p + 1 + i]? = some s ∧ s.getImage = .ok bytes ∧
        s.getSize = .ok bytes.length ∧ 0 ≤ s.offset ∧
        readPartitionEntry full t.offset.toNat i =
          { partitionType := s.partitionType, partitionSubtype := s.partitionSubtype,
            offset := s.offset.toNat, size := bytes.length } ∧
        slice full s.offset.toNat bytes.length = bytes := by
  obtain ⟨entries, created, placed, hof⟩ := parseContent_parseOf hfresh hnames hparse
  obtain ⟨u, specs, rfl, hu, hfilled⟩ := hof.partitionTable_at ht
  obtain ⟨image, himage, -, -, hholds⟩ := hof.holdsAt_section hfull (List.mem_of_getElem? ht)
  have himage : (u.holding "partition table" specs).getImage = .ok image := himage
  have hsub : f'.sections.length - p - 1 = f'.sections.length - (p + 1) := by omega
  rw [hsub]
  constructor
  · obtain ⟨b, pos, hb, hpos, hholdsb, hfit⟩ :=
      FlashSection.holdsAt_struct hu himage hfilled.header
    obtain rfl : pos = 0 := by simpa using hpos
    have hheader := hholds.trans hholdsb hfit
    have hfields := PartitionTableSection.header_fields
      ((f'.sections.values.map Section.view).drop (p + 1)).length
    obtain ⟨-, hread⟩ := hheader.readField hb (j := 2) (by rw [hfields]; rfl)
      (show ((3 : Nat) : Int) = _ by rw [hfields]; rfl)
    simp only [ScalarFormat.size, Int.toNat_natCast, Nat.add_zero, List.length_drop,
      List.length_map, Dict.length_values] at hread
    exact hread
  · intro i hi
    obtain ⟨v, size, hv, hsize, hentry⟩ := hfilled.done i hi hi
    rw [List.getElem?_drop, List.getElem?_map] at hv
    obtain ⟨s, hs, rfl⟩ := Option.map_eq_some_iff.mp hv
    obtain ⟨bytes, hbytes, hlen, hoffset, hat⟩ :=
      hof.holdsAt_section hfull (List.mem_of_getElem? hs)
    have hsizeLen : size = bytes.length := Except.ok.inj (hsize.symm.trans hlen)
    rw [hsizeLen] at hentry
    obtain ⟨b, pos, hb, hpos, hholdsb, hfit⟩ := FlashSection.holdsAt_struct hu himage hentry
    rw [specsSize_take_congr hfilled.sizes,
      PartitionTableSection.specsSize_created_take (le_of_lt hi)] at hpos
    obtain rfl : pos = 32 + 32 * i := by exact_mod_cast hpos
    obtain ⟨-, hread⟩ := PartitionTableSection.readPartitionEntry_of_holdsAt
      (hholds.trans hholdsb hfit) hb
    exact ⟨s, bytes, hs, hbytes, hlen, hoffset, hread, hat⟩

/-- A table in front of a raw section. -/
theorem partitionTable_readBack_raw :
    let table : ContentSection :=
      { name := some "table", template := some "partition table", properties := none }
    let f := ofContent 256 Dict.empty [table, rawEntry "data" 8]
    ∃ f' full t, Returns (parseContent Host.noFiles true) f () f' ∧
      Returns (getImage Host.noFiles none none) f' full f' ∧
      f'.sections.values[0]? = some (.partitionTable t) ∧
      readNbEntries full t.offset.toNat = 1 := by
  intro table f
  have hparse : Returns (parseContent Host.noFiles true) f () _ :=
    returns_of_returned? (by decide +kernel)
  have hkind : (finalState (parseContent Host.noFiles true) f).sections.values[0]?.map
      Section.kind = some .partitionTable := by decide +kernel
  obtain ⟨s, hs, hs'⟩ := Option.map_eq_some_iff.mp hkind
  obtain ⟨t, rfl⟩ := Section.exists_partitionTable hs'
  have hsome : (returned? (getImage Host.noFiles none none)
      (finalState (parseContent Host.noFiles true) f)).isSome = true := by decide +kernel
  obtain ⟨full, hfull⟩ := Option.isSome_iff_exists.mp hsome
  have hlength : (finalState (parseContent Host.noFiles true) f).sections.length = 2 := by
    decide +kernel
  have hparsed : (finalState (parseContent Host.noFiles true) f).contentParsed = true := by
    decide +kernel
  have himage := returns_getImage_of_returned? hparsed hfull
  have hread := (partitionTable_readBack ⟨rfl, rfl, rfl⟩ (by decide +kernel) hparse himage hs).1
  rw [hlength] at hread
  exact ⟨_, full, t, hparse, himage, hs, hread⟩

end Flash

end SoftHier.Gapy
