/-
  Gapy/BlockSections.lean --- the sections that are at most one block of bytes.

  A HostFS holds nothing, a LittleFS at most one array, a raw section exactly
  one.  A raw section takes its size from its property without looking at its
  sign, so it is the only one that can be smaller than nothing.
-/
import SoftHier.Gapy.SectionImage
import SoftHier.Gapy.Templates

set_option autoImplicit false

namespace SoftHier.Gapy

open SoftHier.Foundation Program FlashSection

/-- A started section without structures of its own. -/
theorem FlashSection.PlacedAt.of_started {σ : Type} {s s' : FlashSection σ} {start : Int}
    {content : ContentSection} {properties : Dict String FlashSectionProperty}
    (hget : ∀ name, properties.get name =
      (s.properties.get name).map fun p => p.given (content.properties.bind fun d => d.get name))
    (h : (s.started properties start).SameLayout s') : s.PlacedAt s' start content [] where
  name := h.name
  sectionId := h.sectionId
  sizeAlign := h.sizeAlign
  startAlign := h.startAlign
  offset := h.offset
  property name := by rw [h.properties]; exact hget name
  layouts := by rw [h.layouts]; exact (List.append_nil _).symm
  allocated := by
    rw [FlashSection.allocated, h.offset, h.currentOffset]
    exact Int.sub_self start

/-- The properties of a started section. -/
theorem FlashSection.get_of_started {σ : Type} {s : FlashSection σ} {offset start : Int}
    {content : ContentSection} {properties : Dict String FlashSectionProperty}
    (h : Returns (FlashSection.setContent offset content) s () (s.started properties start)) :
    ∀ name, properties.get name =
      (s.properties.get name).map fun p =>
        p.given (content.properties.bind fun d => d.get name) := by
  obtain ⟨_, heq, hget⟩ := FlashSection.returns_setContent h
  have hproperties : properties = _ := congrArg FlashSection.properties heq
  rw [hproperties]
  exact hget

/-! ## HostFS -/

namespace HostfsSection

theorem placedAt_setContent {host : Host} {s s' : FlashSection Unit} {offset : Int}
    {content : ContentSection} (h : Returns (setContent host offset content) s () s') :
    s.PlacedAt s' (s.startOffset offset) content [] := by
  obtain ⟨_, s₁, hstart, h⟩ := returns_bind.mp h
  obtain ⟨properties, rfl, hget⟩ := FlashSection.returns_setContent hstart
  obtain ⟨files, s₁, hread, h⟩ := returns_bind.mp h
  obtain ⟨-, rfl⟩ := returns_reading.mp hread
  obtain ⟨items, s₁, hread, h⟩ := returns_bind.mp h
  obtain ⟨-, rfl⟩ := returns_reading.mp hread
  exact .of_started hget
    (keepsLayout_forEach (fun _ => keeps_reading SameLayout.refl _) items _ _ _ h)

end HostfsSection

/-! ## Raw -/

namespace RawSection

variable {flash : FlashContext} {s s' : FlashSection Unit}

/-- `RawHeader`, freshly created. -/
def headerSpec (size : PyNumber) : StructSpec :=
  .ofDecls "header" (RawHeader.fields size) (by simp [RawHeader.fields])

theorem size_headerSpec (size : PyNumber) : (headerSpec size).size = size.toInt := by
  simp [StructSpec.size, fieldsSize, headerSpec, StructSpec.ofDecls, RawHeader.fields,
    FieldDecl.toSpec, FieldSpec.size, FormatItem.size]

/-- The size a raw section takes, at a place in a flash: the value of its
property, or the rest of the flash. -/
def requestedSize (flash : FlashContext) (start : Int) (property : PyValue) :
    Except PyError Int := do
  let size ← property.ofCommandLine
  if size.eqInt (-1) then pure (flash.size - start) else size.operand

/-- The size its array is given, which may be a boolean. -/
def requestedNumber (flash : FlashContext) (start : Int) (property : PyValue) :
    Except PyError PyNumber := do
  let size ← property.ofCommandLine
  if size.eqInt (-1) then pure (.int (flash.size - start)) else size.number

theorem requestedSize_eq_map (flash : FlashContext) (start : Int) (property : PyValue) :
    requestedSize flash start property =
      (requestedNumber flash start property).map PyNumber.toInt := by
  unfold requestedSize requestedNumber
  cases property.ofCommandLine with
  | error e => rfl
  | ok size =>
    simp only [bind, Except.bind]
    split
    · rfl
    · exact PyValue.operand_eq_map size

theorem requestedSize_of_number {start : Int} {property : PyValue} {size : PyNumber}
    (h : requestedNumber flash start property = .ok size) :
    requestedSize flash start property = .ok size.toInt := by
  rw [requestedSize_eq_map, h]
  rfl

/-- `set_content` makes one array, of the size it is asked for. -/
theorem returns_create {offset : Int} {content : ContentSection}
    (h : Returns (setContent flash offset content) s () s') :
    ∃ properties property size,
      Returns (FlashSection.setContent offset content) s ()
        (s.started properties (s.startOffset offset)) ∧
      s'.getProperty "size" = .ok property ∧
      requestedNumber flash (s.startOffset offset) property = .ok size ∧
      s' = (s.started properties (s.startOffset offset)).holding "readfs" [headerSpec size] := by
  obtain ⟨_, s₁, hstart, h⟩ := returns_bind.mp h
  obtain ⟨properties, rfl, -⟩ := FlashSection.returns_setContent hstart
  have h := (returns_newParent (by rfl) "readfs").advance h
  obtain ⟨property, s₁, hread, h⟩ := returns_bind.mp h
  obtain ⟨hproperty, rfl⟩ := returns_reading.mp hread
  obtain ⟨value, s₁, hread, h⟩ := returns_bind.mp h
  obtain ⟨hvalue, rfl⟩ := returns_reading.mp hread
  rw [returns_get_bind] at h
  obtain ⟨header, s₁, hnew, h⟩ := returns_bind.mp h
  obtain ⟨size, s₂, hread, h⟩ := returns_bind.mp h
  obtain ⟨hsize, rfl⟩ := returns_reading.mp hread
  -- creating the structure and declaring its field is the constructor of the class
  have hconstruct : Returns (CStruct.newOf (RawHeader.fields size) "header" s.structs.length)
      ((s.started properties (s.startOffset offset)).holding "readfs" []) header s' :=
    Returns.bind hnew (Returns.bind h (returns_pure.mpr ⟨rfl, rfl⟩))
  obtain ⟨-, rfl⟩ := hconstruct.unique (returns_newOf (by rfl) _ _ (headerSpec size).nodup)
  refine ⟨properties, property, size, hstart, hproperty, ?_, rfl⟩
  unfold requestedNumber
  simp only [hvalue, bind, Except.bind]
  simp only [holding_offset] at hsize
  split
  next hrest =>
    rw [if_pos hrest] at hsize
    exact hsize
  next hgiven =>
    rw [if_neg hgiven] at hsize
    exact hsize

/-- `set_content` allocates the size it is asked for. -/
theorem placedAt_setContent {offset : Int} {content : ContentSection}
    (h : Returns (setContent flash offset content) s () s') :
    ∃ property size, s'.getProperty "size" = .ok property ∧
      requestedNumber flash (s.startOffset offset) property = .ok size ∧
      s.PlacedAt s' (s.startOffset offset) content [headerSpec size] := by
  obtain ⟨properties, property, size, hstart, hproperty, hsize, rfl⟩ := returns_create h
  exact ⟨property, size, hproperty, hsize,
    .of_sameLayout (a := ()) (get_of_started hstart) (SameLayout.refl _)⟩

end RawSection

/-! ## LittleFS -/

namespace LfsSection

variable {host : Host} {flash : FlashContext} {s s' : FlashSection LfsAttrs}

/-- `LfsHeader`, freshly created. -/
def headerSpec (size : PyNumber) : StructSpec :=
  .ofDecls "header" (LfsHeader.fields size) (by simp [LfsHeader.fields])

theorem size_headerSpec (size : PyNumber) : (headerSpec size).size = size.toInt := by
  simp [StructSpec.size, fieldsSize, headerSpec, StructSpec.ofDecls, LfsHeader.fields,
    FieldDecl.toSpec, FieldSpec.size, FormatItem.size]

/-- Where the section starts. -/
def startOffset (flash : FlashContext) (s : FlashSection LfsAttrs) (offset : Int) : Int :=
  match flash.attributes.get "littlefs_align" with
  | some align => alignUp offset align
  | none => s.startOffset offset

theorem returns_realign {offset : Int} {properties : Dict String FlashSectionProperty}
    (h : Returns (realign flash offset) (s.started properties (s.startOffset offset)) () s') :
    s' = s.started properties (startOffset flash s offset) := by
  unfold realign at h
  unfold startOffset
  cases ha : flash.attributes.get "littlefs_align" with
  | none =>
    rw [ha] at h
    exact (returns_pure.mp h).2.symm
  | some align =>
    rw [ha] at h
    exact (returns_modify.mp h).symm

/-- The attributes `set_content` takes from the properties of a content. -/
def attributesOf (flash : FlashContext) (name : String) (extImg : Bool)
    (rootDir imgPath size : PyValue) : LfsAttrs where
  rootDir := rootDir
  size := size
  imgPath := if imgPath = .none then .str (flash.imagePath ++ "." ++ name) else imgPath
  extImg := if imgPath = .none then extImg else true

/-- Reading the properties changes attributes only. -/
theorem returns_readProperties {content : ContentSection} {size : PyNumber}
    (h : Returns (readProperties flash content) s size s') :
    ∃ rootDir imgPath property value, content.property "root_dir" = .ok rootDir ∧
      content.property "img_path" = .ok imgPath ∧ s.getProperty "size" = .ok property ∧
      RawSection.requestedNumber flash s.offset property = .ok size ∧
      s' = s.withSelf (attributesOf flash s.name s.self.extImg rootDir imgPath value) := by
  unfold readProperties at h
  obtain ⟨rootDir, s₁, hread, h⟩ := returns_bind.mp h
  obtain ⟨hrootDir, rfl⟩ := returns_reading.mp hread
  rw [returns_modifySelf_bind] at h
  obtain ⟨property, s₁, hread, h⟩ := returns_bind.mp h
  obtain ⟨hproperty, rfl⟩ := returns_reading.mp hread
  rw [returns_modifySelf_bind] at h
  obtain ⟨imgPath, s₁, hread, h⟩ := returns_bind.mp h
  obtain ⟨himgPath, rfl⟩ := returns_reading.mp hread
  rw [returns_get_bind, returns_modifySelf_bind] at h
  obtain ⟨value, s₁, hread, h⟩ := returns_bind.mp h
  obtain ⟨hvalue, rfl⟩ := returns_reading.mp hread
  rw [returns_modifySelf_bind] at h
  obtain ⟨hsize, rfl⟩ := returns_reading.mp h
  refine ⟨rootDir, imgPath, property,
    if value.eqInt (-1) then .int (flash.size - s.offset) else value,
    hrootDir, himgPath, hproperty, ?_, ?_⟩
  · unfold RawSection.requestedNumber
    simp only [hvalue, bind, Except.bind]
    by_cases hrest : value.eqInt (-1) = true
    · rw [if_pos hrest] at hsize ⊢
      exact hsize
    · rw [if_neg hrest] at hsize ⊢
      exact hsize
  · rw [withSelf_withSelf, withSelf_withSelf, withSelf_withSelf]
    unfold attributesOf
    by_cases hgiven : imgPath = .none
    · simp only [if_pos hgiven]
      rfl
    · simp only [if_neg hgiven]
      rfl

theorem keepsLayout_fill (header : CStructRef) (size : PyNumber) :
    KeepsLayout (fill host flash header size) := by
  unfold fill
  refine keepsLayout_bind (keeps_get SameLayout.refl) fun s => ?_
  have hset : ∀ path, KeepsLayout (do
      CStruct.setField header "data" (.bytes (← outcome (readImage host path))) :
        SectionM LfsAttrs Unit) := fun path =>
    keepsLayout_bind (keeps_reading SameLayout.refl _) fun _ => keepsLayout_setField _ _ _
  dsimp only
  split
  · refine keepsLayout_bind (keeps_reading SameLayout.refl _) fun code => ?_
    split
    · exact keepsLayout_bind (keeps_throw _) fun _ => hset _
    · exact hset _
  · split
    · exact hset _
    · exact keeps_pure SameLayout.refl _

/-- `set_content` makes one array and fills it, or makes none. -/
theorem returns_create {offset : Int} {content : ContentSection}
    (h : Returns (setContent host flash offset content) s () s') :
    ∃ properties rootDir imgPath property value size,
      Returns (FlashSection.setContent offset content) s ()
        (s.started properties (s.startOffset offset)) ∧
      content.property "root_dir" = .ok rootDir ∧ content.property "img_path" = .ok imgPath ∧
      (s.started properties 0).getProperty "size" = .ok property ∧
      RawSection.requestedNumber flash (startOffset flash s offset) property = .ok size ∧
      ((0 < size.toInt ∧
          Returns (fill host flash ⟨s.structs.length, 0⟩ size)
            (((s.started properties (startOffset flash s offset)).withSelf
              (attributesOf flash s.name s.self.extImg rootDir imgPath value)).holding "readfs"
                [headerSpec size]) () s') ∨
        size.toInt ≤ 0 ∧ s' = ((s.started properties (startOffset flash s offset)).withSelf
          (attributesOf flash s.name s.self.extImg rootDir imgPath value)).holding "readfs" []) := by
  obtain ⟨_, s₁, hstart, h⟩ := returns_bind.mp h
  obtain ⟨properties, rfl, -⟩ := FlashSection.returns_setContent hstart
  obtain ⟨_, s₁, hrealign, h⟩ := returns_bind.mp h
  obtain rfl := returns_realign hrealign
  have h := (returns_newParent (by rfl) "readfs").advance h
  obtain ⟨size, s₁, hread, h⟩ := returns_bind.mp h
  obtain ⟨rootDir, imgPath, property, value, hrootDir, himgPath, hproperty, hsize, rfl⟩ :=
    returns_readProperties hread
  rw [withSelf_holding] at h
  refine ⟨properties, rootDir, imgPath, property, value, size, hstart, hrootDir, himgPath,
    hproperty, hsize, ?_⟩
  by_cases hpos : 0 < size.toInt
  · rw [if_pos hpos] at h
    exact .inl ⟨hpos, (returns_newOf (by rfl) _ _ (headerSpec size).nodup).advance h⟩
  · rw [if_neg hpos] at h
    exact .inr ⟨not_lt.mp hpos, (returns_pure.mp h).2.symm⟩

/-- `set_content` allocates one array or nothing. -/
theorem placedAt_setContent {offset : Int} {content : ContentSection}
    (h : Returns (setContent host flash offset content) s () s') :
    ∃ specs, s.PlacedAt s' (startOffset flash s offset) content specs ∧
      ∀ spec ∈ specs, 0 ≤ spec.size := by
  obtain ⟨properties, rootDir, imgPath, property, value, size, hstart, -, -, -, -, hmade⟩ :=
    returns_create h
  have hget := get_of_started hstart
  obtain ⟨hpos, hfill⟩ | ⟨-, rfl⟩ := hmade
  · refine ⟨[headerSpec size], .of_sameLayout hget (keepsLayout_fill _ _ _ _ _ hfill), ?_⟩
    intro spec hspec
    rw [List.mem_singleton.mp hspec, size_headerSpec]
    exact le_of_lt hpos
  · exact ⟨[], .of_sameLayout hget (SameLayout.refl _), by simp⟩

end LfsSection

end SoftHier.Gapy
