/-
  Gapy/RomSection.lean --- what a ROM section holds once its content is set.

  The headers come first, then the segments; `fill` writes the values when the
  places of all structures are known and moves nothing.
-/
import SoftHier.Gapy.SectionImage
import SoftHier.Gapy.Templates

set_option autoImplicit false

namespace SoftHier.Gapy

open SoftHier.Foundation Program FlashSection

/-! ## The structures -/

/-- `RomEmptyHeader`, freshly created. -/
def RomEmptyHeader.spec : StructSpec :=
  .ofDecls "ROM header" RomEmptyHeader.fields (by simp [RomEmptyHeader.fields])

/-- `RomHeader`, freshly created. -/
def RomHeader.spec : StructSpec :=
  .ofDecls "ROM header" RomHeader.fields (by simp [RomHeader.fields, FieldDecl.toSpec])

/-- `RomSegmentHeader`, freshly created. -/
def RomSegmentHeader.spec : StructSpec :=
  .ofDecls "Binary segment header" RomSegmentHeader.fields
    (by simp [RomSegmentHeader.fields, FieldDecl.toSpec])

/-- `RomSegment`, freshly created. -/
def RomSegment.spec (b : BinarySegment) : StructSpec :=
  .ofDecls "Binary segment" (RomSegment.fields b.size) (by simp [RomSegment.fields])

/-- The main header with its values. -/
def RomHeader.filled (size : Int) (binary : Binary) : StructSpec :=
  ((RomHeader.spec.set "rom_header_size" (.int size)).set "nb_segments"
    (.int binary.segments.length)).set "entry" (.int binary.entry)

/-- The header of a segment with its values. -/
def RomSegmentHeader.filled (flashOffset : Int) (b : BinarySegment) : StructSpec :=
  (((RomSegmentHeader.spec.set "flash_offset" (.int flashOffset)).set "mem_addr"
    (.int b.base)).set "size" (.int b.size)).set "crc" (.int ((b.size + 4096 - 1) / 4096 : Nat))

/-- A segment with its content. -/
def RomSegment.filled (b : BinarySegment) : StructSpec :=
  (RomSegment.spec b).set "data" (.bytes b.data)

namespace RomFlashSection

variable {host : Host} {s s' : FlashSection RomAttrs} {t : String} {specs : List StructSpec}

/-- The structures of a ROM with a binary, before their values are set. -/
def created (binary : Binary) : List StructSpec :=
  [RomHeader.spec] ++ binary.segments.map (fun _ => RomSegmentHeader.spec) ++
    binary.segments.map RomSegment.spec

/-! ## Creating -/

theorem keeps_parseBinary (h : Host) : Keeps Eq (parseBinary h) := by
  unfold parseBinary
  refine keeps_bind (R := Eq) (fun _ _ _ => Eq.trans) (keeps_reading (fun _ => rfl) _)
    fun path => ?_
  split
  · exact keeps_pure (fun _ => rfl) _
  · refine keeps_bind (R := Eq) (fun _ _ _ => Eq.trans) (keeps_reading (fun _ => rfl) _)
      fun file => ?_
    split
    · exact keeps_pure (fun _ => rfl) _
    · exact keeps_throw _
    · exact keeps_throw _

/-- A binary comes from the file the `binary` property names, none from its default. -/
theorem parseBinary_cases {binary : Option Binary} (h : Returns (parseBinary host) s binary s') :
    (s.getProperty "binary" = .ok .none ∧ binary = none) ∨
      ∃ value file elf, s.getProperty "binary" = .ok value ∧ value.openable = .ok file ∧
        host.openElf file = .ok elf ∧ binary = some (Binary.ofElf elf) := by
  unfold parseBinary at h
  obtain ⟨value, s₁, hread, h⟩ := returns_bind.mp h
  obtain ⟨hvalue, rfl⟩ := returns_reading.mp hread
  split at h
  next hnone => exact .inl ⟨by rw [hvalue, hnone], (returns_pure.mp h).1.symm⟩
  · obtain ⟨file, s₁, hread, h⟩ := returns_bind.mp h
    obtain ⟨hfile, rfl⟩ := returns_reading.mp hread
    split at h
    next elf helf => exact .inr ⟨value, file, elf, hvalue, hfile, helf, (returns_pure.mp h).1.symm⟩
    · exact absurd h not_returns_throw
    · exact absurd h not_returns_throw

theorem returns_createHeaders {segments : List BinarySegment} {n : Nat} (hn : s.structs.length = n)
    (h : Returns (forEach (createHeader n) segments) (s.holding t specs) () s') :
    s' = (s.withSelf { s.self with
        segmentHeaders :=
          s.self.segmentHeaders ++ refsFrom n specs.length segments.length }).holding
      t (specs ++ segments.map fun _ => RomSegmentHeader.spec) := by
  obtain ⟨created, hcreated, rfl⟩ := returns_forEach_create
    (fun _ spec => spec = RomSegmentHeader.spec)
    (fun refs (a : RomAttrs) => { a with segmentHeaders := a.segmentHeaders ++ refs })
    (fun a => by simp) (fun r rs a => by simp) (fun x u u' specs hlen h => by
      exact ⟨_, rfl, (h.unique (returns_newOf_filed hlen _ _ RomSegmentHeader.spec.nodup _)).2⟩)
    hn h
  rw [forall₂_eq_map (f := fun _ => RomSegmentHeader.spec) hcreated]

theorem returns_createSegments {segments : List BinarySegment} {n : Nat} (hn : s.structs.length = n)
    (h : Returns (forEach (createSegment n) segments) (s.holding t specs) () s') :
    s' = (s.withSelf { s.self with
        segments :=
          s.self.segments ++ refsFrom n specs.length segments.length }).holding
      t (specs ++ segments.map RomSegment.spec) := by
  obtain ⟨created, hcreated, rfl⟩ := returns_forEach_create
    (fun b spec => spec = RomSegment.spec b)
    (fun refs (a : RomAttrs) => { a with segments := a.segments ++ refs })
    (fun a => by simp) (fun r rs a => by simp) (fun b u u' specs hlen h => by
      exact ⟨_, rfl, (h.unique (returns_newOf_filed hlen _ _ (RomSegment.spec b).nodup _)).2⟩)
    hn h
  rw [forall₂_eq_map hcreated]

/-- The state in which the values of a ROM with a binary are filled in. -/
def unfilled (s : FlashSection RomAttrs) (boot : PyValue) (binary : Binary) :
    FlashSection RomAttrs :=
  (s.withSelf
    { segmentHeaders := s.self.segmentHeaders ++
        refsFrom s.structs.length 1 binary.segments.length
      segments := s.self.segments ++
        refsFrom s.structs.length (1 + binary.segments.length) binary.segments.length
      binary := some binary
      topStruct := some s.structs.length
      header := some ⟨s.structs.length, 0⟩
      boot := boot }).holding "rom" (created binary)

/-- The state in which the size of a ROM without a binary is filled in. -/
def unfilledEmpty (s : FlashSection RomAttrs) (boot : PyValue) : FlashSection RomAttrs :=
  (s.withSelf
    { s.self with
      binary := none
      topStruct := some s.structs.length
      header := some ⟨s.structs.length, 0⟩
      boot := boot }).holding "rom" [RomEmptyHeader.spec]

/-- `set_content` up to the point where the values are filled in. -/
theorem returns_create {offset : Int} {content : ContentSection}
    (h : Returns (setContent host offset content) s () s') :
    ∃ s₁ boot, Returns (FlashSection.setContent offset content) s () s₁ ∧
      ((∃ binary, Returns (parseBinary host) s₁ (some binary) s₁ ∧
          Returns (fill ⟨s.structs.length, 0⟩ binary) (unfilled s₁ boot binary) () s') ∨
        (Returns (parseBinary host) s₁ none s₁ ∧
          Returns (do
              CStruct.setField ⟨s.structs.length, 0⟩ "rom_header_size"
                (.int (← Program.reading FlashSection.getSize)))
            (unfilledEmpty s₁ boot) () s')) := by
  obtain ⟨_, s₁, hstart, h⟩ := returns_bind.mp h
  obtain ⟨properties, hs₁, -⟩ := FlashSection.returns_setContent hstart
  have hlen : s₁.structs.length = s.structs.length := by rw [hs₁]; rfl
  have hfresh : s₁.currentOffset = s₁.offset := by rw [hs₁]; rfl
  refine ⟨s₁, ?_⟩
  obtain ⟨binary, s₂, hparse, h⟩ := returns_bind.mp h
  obtain rfl : s₁ = s₂ := keeps_parseBinary host _ _ _ hparse
  rw [returns_modifySelf_bind] at h
  obtain ⟨boot, s₃, hboot, h⟩ := returns_bind.mp h
  obtain ⟨-, rfl⟩ := returns_reading.mp hboot
  refine ⟨boot, hstart, ?_⟩
  rw [← hlen]
  simp only [returns_modifySelf_bind, withSelf_withSelf, withSelf_self] at h
  have h := (returns_newParent (by exact hfresh) "rom").advance h
  simp only [returns_modifySelf_bind, withSelf_holding, withSelf_withSelf, withSelf_self,
    holding_self, withSelf_structs] at h
  cases binary with
  | none =>
    refine .inr ⟨hparse, ?_⟩
    have h := (returns_newOf (by rfl) _ _ RomEmptyHeader.spec.nodup).advance h
    exact h
  | some binary =>
    refine .inl ⟨binary, hparse, ?_⟩
    have h := (returns_newOf (by rfl) _ _ RomHeader.spec.nodup).advance h
    simp only [returns_modifySelf_bind, withSelf_holding, withSelf_withSelf, withSelf_self,
      holding_self] at h
    obtain ⟨_, s₄, hheaders, h⟩ := returns_bind.mp h
    obtain rfl := returns_createHeaders (by rfl) hheaders
    obtain ⟨_, s₅, hsegments, h⟩ := returns_bind.mp h
    obtain rfl := returns_createSegments (by rfl) hsegments
    have hcount : ([RomHeader.spec] ++ binary.segments.map fun _ => RomSegmentHeader.spec).length =
        1 + binary.segments.length := by
      rw [List.length_append, List.length_map, List.length_singleton]
    rw [unfilled, ← hcount]
    exact h

/-! ## Filling -/

theorem keepsLayout_fillSegment (p : BinarySegment × Nat) : KeepsLayout (fillSegment p) := by
  unfold fillSegment
  refine keepsLayout_bind (keeps_get SameLayout.refl) fun _ => ?_
  refine keepsLayout_bind (keepsLayout_refAt _ _) fun _ => ?_
  refine keepsLayout_bind (keepsLayout_refAt _ _) fun _ => ?_
  refine keepsLayout_bind (keepsLayout_fieldOffset _ _) fun _ => ?_
  refine keepsLayout_bind (keepsLayout_setField _ _ _) fun _ => ?_
  refine keepsLayout_bind (keepsLayout_setField _ _ _) fun _ => ?_
  refine keepsLayout_bind (keepsLayout_setField _ _ _) fun _ => ?_
  refine keepsLayout_bind (keepsLayout_setField _ _ _) fun _ => ?_
  exact keepsLayout_setField _ _ _

theorem keepsLayout_fill (header : CStructRef) (binary : Binary) :
    KeepsLayout (fill header binary) := by
  unfold fill
  refine keepsLayout_bind (keeps_reading SameLayout.refl _) fun _ => ?_
  refine keepsLayout_bind (keepsLayout_setField _ _ _) fun _ => ?_
  refine keepsLayout_bind (keepsLayout_setField _ _ _) fun _ => ?_
  refine keepsLayout_bind (keepsLayout_setField _ _ _) fun _ => ?_
  exact keepsLayout_forEach keepsLayout_fillSegment _

/-- `set_content` places the headers and the segments behind one another. -/
theorem placedAt_setContent {offset : Int} {content : ContentSection}
    (h : Returns (setContent host offset content) s () s') :
    ∃ specs, s.PlacedAt s' (s.startOffset offset) content specs ∧
      ∀ spec ∈ specs, 0 ≤ spec.size := by
  obtain ⟨s₁, boot, hstart, ⟨binary, -, hfill⟩ | ⟨-, hfill⟩⟩ := returns_create h
  all_goals obtain ⟨properties, rfl, hget⟩ := FlashSection.returns_setContent hstart
  · refine ⟨created binary, PlacedAt.of_sameLayout hget (keepsLayout_fill _ _ _ _ _ hfill), ?_⟩
    intro spec hspec
    simp only [created, List.mem_append, List.mem_singleton, List.mem_map] at hspec
    obtain (rfl | ⟨b, -, rfl⟩) | ⟨b, -, rfl⟩ := hspec
    · decide
    · decide
    · exact Int.natCast_nonneg _
  · obtain ⟨size, s₂, hsize, hfill⟩ := returns_bind.mp hfill
    obtain ⟨-, rfl⟩ := returns_reading.mp hsize
    refine ⟨[RomEmptyHeader.spec],
      PlacedAt.of_sameLayout hget (keepsLayout_setField _ _ _ _ _ _ hfill), ?_⟩
    intro spec hspec
    rw [List.mem_singleton.mp hspec]
    decide

/-- The structures once the values of the main header and of the first `m`
segments are set. -/
structure FilledTo (offset size : Int) (binary : Binary) (m : Nat) (specs : List StructSpec) :
    Prop where
  sizes : specs.map StructSpec.size = (created binary).map StructSpec.size
  header : specs[0]? = some (RomHeader.filled size binary)
  segmentHeader : ∀ i b, binary.segments[i]? = some b → specs[1 + i]? =
    some (if i < m then
      RomSegmentHeader.filled
        (offset + specsSize ((created binary).take (1 + binary.segments.length + i))) b
    else RomSegmentHeader.spec)
  segment : ∀ i b, binary.segments[i]? = some b →
    specs[1 + binary.segments.length + i]? =
      some (if i < m then RomSegment.filled b else RomSegment.spec b)

theorem getElem?_created_header {binary : Binary} {i : Nat} {b : BinarySegment}
    (h : binary.segments[i]? = some b) :
    (created binary)[1 + i]? = some RomSegmentHeader.spec := by
  have hlt : i < binary.segments.length := (List.getElem?_eq_some_iff.mp h).1
  rw [created, List.append_assoc, List.getElem?_append_right (by simp),
    List.getElem?_append_left (by simp; omega), List.getElem?_map]
  simp only [List.length_singleton, Nat.add_sub_cancel_left, h, Option.map_some]

theorem getElem?_created_segment {binary : Binary} {i : Nat} {b : BinarySegment}
    (h : binary.segments[i]? = some b) :
    (created binary)[1 + binary.segments.length + i]? = some (RomSegment.spec b) := by
  have hlen : ([RomHeader.spec] ++ binary.segments.map fun _ => RomSegmentHeader.spec).length =
      1 + binary.segments.length := by
    rw [List.length_append, List.length_map, List.length_singleton]
  rw [created, List.getElem?_append_right (by omega), hlen, Nat.add_sub_cancel_left,
    List.getElem?_map, h, Option.map_some]

/-- One pass of the loop fills one header and one segment. -/
theorem fillSegment_filledTo {offset size : Int} {binary : Binary} {n m : Nat}
    {b : BinarySegment} {u : FlashSection RomAttrs} (hn : u.structs.length = n)
    (hoffset : u.offset = offset)
    (hheaders : u.self.segmentHeaders = refsFrom n 1 binary.segments.length)
    (hsegments : u.self.segments =
      refsFrom n (1 + binary.segments.length) binary.segments.length)
    (hb : binary.segments[m]? = some b) (hfilled : FilledTo offset size binary m specs)
    (h : Returns (fillSegment (b, m)) (u.holding t specs) () s') :
    ∃ specs', s' = u.holding t specs' ∧ FilledTo offset size binary (m + 1) specs' := by
  have hlt : m < binary.segments.length := (List.getElem?_eq_some_iff.mp hb).1
  unfold fillSegment at h
  rw [returns_get_bind] at h
  simp only [holding_self, hheaders, hsegments, refAt, getElem?_refsFrom hlt] at h
  have hsegment := hfilled.segment m b hb
  have hheader := hfilled.segmentHeader m b hb
  rw [if_neg (lt_irrefl m)] at hsegment hheader
  have h := (returns_fieldOffset_head hn hsegment rfl).advance h
  obtain ⟨specs₁, h₁, h⟩ := setField_bind_inv hn hheader (by decide) h
  obtain ⟨specs₂, h₂, h⟩ := h₁.bind_inv hn
    (by simp only [StructSpec.fieldNames_set]; decide) h
  obtain ⟨specs₃, h₃, h⟩ := h₂.bind_inv hn
    (by simp only [StructSpec.fieldNames_set]; decide) h
  obtain ⟨specs₄, h₄, h⟩ := h₃.bind_inv hn
    (by simp only [StructSpec.fieldNames_set]; decide) h
  have hsegment₄ := (h₄.others (1 + binary.segments.length + m) (by omega)).trans hsegment
  obtain ⟨specs₅, h₅, rfl⟩ := setField_inv hn hsegment₄ (by simp [RomSegment.spec,
    StructSpec.fieldNames, StructSpec.ofDecls, RomSegment.fields, FieldDecl.toSpec]) h
  refine ⟨specs₅, rfl, ?_, ?_, ?_, ?_⟩
  · rw [h₅.sizes, h₄.sizes, hfilled.sizes]
  · rw [h₅.others 0 (by omega), h₄.others 0 (by omega), hfilled.header]
  · intro i c hc
    have hi : i < binary.segments.length := (List.getElem?_eq_some_iff.mp hc).1
    rw [h₅.others (1 + i) (by omega)]
    by_cases him : i = m
    · subst him
      obtain rfl : b = c := Option.some.inj (hb.symm.trans hc)
      rw [h₄.at_index, if_pos (by omega), ← hoffset, ← specsSize_take_congr hfilled.sizes]
      rfl
    · rw [h₄.others (1 + i) (by omega), hfilled.segmentHeader i c hc]
      simp only [show i < m + 1 ↔ i < m by omega]
  · intro i c hc
    by_cases him : i = m
    · subst him
      obtain rfl : b = c := Option.some.inj (hb.symm.trans hc)
      rw [h₅.at_index, if_pos (by omega)]
      rfl
    · have hi : i < binary.segments.length := (List.getElem?_eq_some_iff.mp hc).1
      rw [h₅.others _ (by omega), h₄.others _ (by omega), hfilled.segment i c hc]
      simp only [show i < m + 1 ↔ i < m by omega]

/-- The values of a ROM section that was empty before. -/
theorem fill_filledTo {boot : PyValue} {binary : Binary} (hself : s.self = {})
    (h : Returns (fill ⟨s.structs.length, 0⟩ binary) (unfilled s boot binary) () s') :
    ∃ u specs size, s' = FlashSection.holding u "rom" specs ∧ u.offset = s.offset ∧
      u.structs = s.structs ∧ u.self.binary = some binary ∧
      s'.getSize = .ok size ∧ FilledTo s.offset size binary binary.segments.length specs := by
  have hlayout := keepsLayout_fill _ _ _ _ _ h
  unfold unfilled at h hlayout
  generalize ha : ({
    segmentHeaders := _, segments := _, binary := _, topStruct := _, header := _, boot := _ } :
      RomAttrs) = a at h hlayout
  rw [hself] at ha
  obtain ⟨size, s₁, hread, h⟩ := returns_bind.mp h
  obtain ⟨hsize, rfl⟩ := returns_reading.mp hread
  have hheaders : a.segmentHeaders = refsFrom s.structs.length 1 binary.segments.length := by
    rw [← ha]
    exact List.nil_append _
  have hsegments : a.segments =
      refsFrom s.structs.length (1 + binary.segments.length) binary.segments.length := by
    rw [← ha]
    exact List.nil_append _
  have hbinary : a.binary = some binary := by rw [← ha]
  have hheader : (created binary)[0]? = some RomHeader.spec := rfl
  obtain ⟨specs₁, h₁, h⟩ := setField_bind_inv (by rfl) hheader (by decide) h
  obtain ⟨specs₂, h₂, h⟩ := h₁.bind_inv (by rfl)
    (by simp only [StructSpec.fieldNames_set]; decide) h
  obtain ⟨specs₃, h₃, h⟩ := h₂.bind_inv (by rfl)
    (by simp only [StructSpec.fieldNames_set]; decide) h
  have hinit : FilledTo s.offset size binary 0 specs₃ := by
    refine ⟨h₃.sizes, h₃.at_index, fun i b hb => ?_, fun i b hb => ?_⟩
    · rw [h₃.others _ (by omega), getElem?_created_header hb, if_neg (by omega)]
    · rw [h₃.others _ (by omega), getElem?_created_segment hb, if_neg (by omega)]
  obtain ⟨specs, rfl, hfilled⟩ := forEach_zipIdx_induct
    (fun m u => ∃ specs, u = (s.withSelf a).holding "rom" specs ∧
      FilledTo s.offset size binary m specs)
    (fun m b u u' hb hI hbody => by
      obtain ⟨specs, rfl, hfilled⟩ := hI
      exact fillSegment_filledTo (by rfl) rfl hheaders hsegments hb hfilled hbody)
    ⟨specs₃, rfl, hinit⟩ h
  refine ⟨s.withSelf a, specs, size, rfl, rfl, rfl, hbinary, ?_, hfilled⟩
  exact hlayout.getSize.trans hsize

end RomFlashSection

end SoftHier.Gapy
