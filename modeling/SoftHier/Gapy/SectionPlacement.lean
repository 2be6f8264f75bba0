/-
  Gapy/SectionPlacement.lean --- placing and finalizing any section.

  Whatever its class, a section whose content was set has allocated a list of
  structures from its start on, and finalizing it changes values only.
-/
import SoftHier.Gapy.BlockSections
import SoftHier.Gapy.PartitionSection
import SoftHier.Gapy.ReadfsSection

set_option autoImplicit false

namespace SoftHier.Gapy

open SoftHier.Foundation Program

/-! ## What every class inherits -/

theorem FlashSection.sameLayout_base {σ : Type} (s : FlashSection σ) : s.SameLayout s.base :=
  ⟨rfl, rfl, rfl, rfl, rfl, rfl, rfl, rfl⟩

theorem FlashSection.PlacedAt.base {σ : Type} {s s' : FlashSection σ} {start : Int}
    {content : ContentSection} {specs : List StructSpec}
    (h : s.PlacedAt s' start content specs) : s.base.PlacedAt s'.base start content specs :=
  ⟨h.name, h.sectionId, h.sizeAlign, h.startAlign, h.offset, h.property, h.layouts, h.allocated⟩

namespace Section

/-- The class of a section. -/
def kind : Section → SectionTemplate
  | .rom _ => .rom
  | .partitionTable _ => .partitionTable
  | .readfs _ => .readfs
  | .hostfs _ => .hostfs
  | .lfs _ => .lfs
  | .raw _ => .raw

@[simp] theorem kind_new (t : SectionTemplate) (name : String) (sectionId : Nat) :
    (t.new name sectionId).kind = t := by cases t <;> rfl

@[simp] theorem kind_setAlignments (startAlign sizeAlign : Option Int) (s : Section) :
    (s.setAlignments startAlign sizeAlign).kind = s.kind := by cases s <;> rfl

theorem exists_partitionTable {s : Section} (h : s.kind = .partitionTable) :
    ∃ t, s = .partitionTable t := by
  cases s with
  | partitionTable t => exact ⟨t, rfl⟩
  | _ => exact absurd h nofun

theorem exists_rom {s : Section} (h : s.kind = .rom) : ∃ t, s = .rom t := by
  cases s with
  | rom t => exact ⟨t, rfl⟩
  | _ => exact absurd h nofun

/-- The same class, and the same section but for values and attributes. -/
structure SameLayout (s s' : Section) : Prop where
  kind : s'.kind = s.kind
  base : s.base.SameLayout s'.base

theorem SameLayout.refl (s : Section) : s.SameLayout s := ⟨rfl, FlashSection.SameLayout.refl _⟩

/-- What a partition table sees of a section is part of the layout. -/
theorem SameLayout.view {s s' : Section} (h : s.SameLayout s') : s'.view = s.view := by
  have hsize : s'.getSize = s.getSize := h.base.getSize
  have hname : s'.name = s.name := h.base.name
  have hoffset : s'.offset = s.offset := h.base.offset
  have htype : s'.partitionType = s.partitionType ∧ s'.partitionSubtype = s.partitionSubtype := by
    have hkind := h.kind
    cases s <;> cases s' <;> first | exact ⟨rfl, rfl⟩ | exact absurd hkind nofun
  simp only [Section.view, hname, hoffset, hsize, htype]

theorem returns_within {σ : Type} {wrap : FlashSection σ → Section} {p : SectionM σ Unit}
    {s : FlashSection σ} {s' : Section} (h : within wrap p s = .ok () s') :
    ∃ t, Returns p s () t ∧ s' = wrap t := by
  unfold within at h
  cases hp : p s with
  | ok u t =>
    rw [hp] at h
    cases h
    exact ⟨t, hp, rfl⟩
  | error e t =>
    rw [hp] at h
    cases h

theorem within_of_returns {σ : Type} {wrap : FlashSection σ → Section} {p : SectionM σ Unit}
    {s t : FlashSection σ} (h : Returns p s () t) : within wrap p s = .ok () (wrap t) := by
  unfold Returns at h
  unfold within
  rw [h]

/-! ## Placing -/

/-- Where a section starts when its content is set at an offset. -/
def startOffset (flash : FlashContext) (offset : Int) : Section → Int
  | .lfs s => LfsSection.startOffset flash s offset
  | s => s.base.startOffset offset

/-- A section starts where the base class says, or at the alignment of a LittleFS. -/
theorem startOffset_cases (flash : FlashContext) (offset : Int) (s : Section) :
    s.startOffset flash offset = s.base.startOffset offset ∨
      ∃ a, flash.attributes.get "littlefs_align" = some a ∧
        s.startOffset flash offset = alignUp offset a := by
  cases s with
  | lfs s =>
    have hlfs : (lfs s).startOffset flash offset = LfsSection.startOffset flash s offset := rfl
    rw [hlfs]
    unfold LfsSection.startOffset
    cases flash.attributes.get "littlefs_align" with
    | none => exact .inl rfl
    | some a => exact .inr ⟨a, rfl, rfl⟩
  | rom s => exact .inl rfl
  | partitionTable s => exact .inl rfl
  | readfs s => exact .inl rfl
  | hostfs s => exact .inl rfl
  | raw s => exact .inl rfl

/-- At the start of the flash no alignment moves a section. -/
theorem startOffset_zero (flash : FlashContext) (s : Section) : s.startOffset flash 0 = 0 := by
  rcases s.startOffset_cases flash 0 with hbase | ⟨a, -, hlfs⟩
  · rw [hbase]
    unfold FlashSection.startOffset
    cases s.base.startAlign with
    | none => rfl
    | some a => exact alignUp_zero a
  · rw [hlfs]
    exact alignUp_zero a

/-- The structures a section allocates are not negative, or the section is raw
and takes the size of its property. -/
def AllocatesNonneg (flash : FlashContext) (s' : Section) (specs : List StructSpec) : Prop :=
  (∀ spec ∈ specs, 0 ≤ spec.size) ∨
    s'.kind = .raw ∧ ∃ property size, s'.base.getProperty "size" = .ok property ∧
      RawSection.requestedNumber flash s'.offset property = .ok size ∧
      specs = [RawSection.headerSpec size]

theorem setContent_inv {host : Host} {flash : FlashContext} {offset : Int}
    {content : ContentSection} {s s' : Section}
    (h : Returns (Section.setContent host flash offset content) s () s') :
    s'.kind = s.kind ∧ ∃ specs,
      s.base.PlacedAt s'.base (s.startOffset flash offset) content specs ∧
        s'.AllocatesNonneg flash specs := by
  cases s with
  | rom s =>
    obtain ⟨t, ht, rfl⟩ := returns_within h
    obtain ⟨specs, hplaced, hnonneg⟩ := RomFlashSection.placedAt_setContent ht
    exact ⟨rfl, specs, hplaced.base, .inl hnonneg⟩
  | partitionTable s =>
    obtain ⟨t, ht, rfl⟩ := returns_within h
    obtain ⟨specs, hplaced, hnonneg⟩ := PartitionTableSection.placedAt_setContent ht
    exact ⟨rfl, specs, hplaced.base, .inl hnonneg⟩
  | readfs s =>
    obtain ⟨t, ht, rfl⟩ := returns_within h
    obtain ⟨specs, hplaced, hnonneg⟩ := ReadfsSection.placedAt_setContent ht
    exact ⟨rfl, specs, hplaced.base, .inl hnonneg⟩
  | hostfs s =>
    obtain ⟨t, ht, rfl⟩ := returns_within h
    exact ⟨rfl, [], (HostfsSection.placedAt_setContent ht).base, .inl (by simp)⟩
  | lfs s =>
    obtain ⟨t, ht, rfl⟩ := returns_within h
    obtain ⟨specs, hplaced, hnonneg⟩ := LfsSection.placedAt_setContent ht
    exact ⟨rfl, specs, hplaced.base, .inl hnonneg⟩
  | raw s =>
    obtain ⟨t, ht, rfl⟩ := returns_within h
    obtain ⟨property, size, hproperty, hsize, hplaced⟩ := RawSection.placedAt_setContent ht
    refine ⟨rfl, _, hplaced.base, .inr ⟨rfl, property, size, hproperty, ?_, rfl⟩⟩
    have hoffset : (Section.raw t).offset = s.startOffset offset := hplaced.offset
    rw [hoffset]
    exact hsize

/-! ## Finalizing -/

/-- Only a partition table has something to finalize. -/
theorem returns_finalize_of_kind {s : Section} (h : s.kind ≠ .partitionTable)
    (views : List SectionView) : Returns (Section.finalize views) s () s := by
  cases s with
  | partitionTable s => exact absurd rfl h
  | _ => rfl

theorem finalize_inv {views : List SectionView} {s s' : Section}
    (h : Returns (Section.finalize views) s () s') : s.SameLayout s' := by
  cases s with
  | partitionTable s =>
    obtain ⟨t, ht, rfl⟩ := returns_within h
    have hlayout := PartitionTableSection.keepsLayout_finalize views _ _ _ ht
    exact ⟨rfl, (s.sameLayout_base.symm.trans hlayout).trans t.sameLayout_base⟩
  | rom s => cases h; exact SameLayout.refl _
  | readfs s => cases h; exact SameLayout.refl _
  | hostfs s => cases h; exact SameLayout.refl _
  | lfs s => cases h; exact SameLayout.refl _
  | raw s => cases h; exact SameLayout.refl _

/-- Setting the content and finalizing keep the class. -/
theorem kind_finalized {host : Host} {flash : FlashContext} {offset : Int}
    {content : ContentSection} {views : List SectionView} {startAlign sizeAlign : Option Int}
    {s s' s'' : Section}
    (hset : Returns (Section.setContent host flash offset content)
      (s.setAlignments startAlign sizeAlign) () s')
    (hfinalize : Returns (Section.finalize views) s' () s'') : s''.kind = s.kind := by
  have hcontent := (setContent_inv hset).1
  rw [kind_setAlignments] at hcontent
  exact (finalize_inv hfinalize).kind.trans hcontent

end Section

end SoftHier.Gapy
