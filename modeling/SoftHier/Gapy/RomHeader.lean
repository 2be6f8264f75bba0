/-
  Gapy/RomHeader.lean --- the size in the header of a ROM.

  Whatever was in the section before, setting its content stores the size of the
  section in the header, and what is filled in behind it leaves the size alone.
-/
import SoftHier.Gapy.RomSection

set_option autoImplicit false

namespace SoftHier.Gapy

open SoftHier.Foundation Program

/-! ## The size in the header -/

/-- The value of a field of the structure behind a reference. -/
def FlashSection.storedAt {σ : Type} (s : FlashSection σ) (r : CStructRef) (name : String) :
    Option FieldValue :=
  (s.structAt r).bind fun c => (c.fields.get name).map CStructField.value

/-- The `rom_header_size` stored in the header of a ROM. -/
def RomFlashSection.romHeaderSize (s : FlashSection RomAttrs) : Option FieldValue :=
  s.self.header.bind fun r => s.storedAt r "rom_header_size"

namespace FlashSection

variable {σ : Type} {s s' : FlashSection σ}

/-- Only the structure behind the reference changes. -/
theorem structAt_update (r r' : CStructRef) (f : CStruct → CStruct) :
    ({ s with structs := s.structs.modify r.parent fun p =>
        { p with structs := p.structs.modify r.index f } } : FlashSection σ).structAt r' =
      if r = r' then (s.structAt r').map f else s.structAt r' := by
  unfold structAt
  rw [List.getElem?_modify]
  cases s.structs[r'.parent]? with
  | none => exact (ite_self none).symm
  | some p =>
    have hsame : r = r' ↔ r.parent = r'.parent ∧ r.index = r'.index := by
      cases r
      cases r'
      exact CStructRef.mk.injEq .. ▸ Iff.rfl
    by_cases hparent : r.parent = r'.parent
    · by_cases hindex : r.index = r'.index
      · simp [hsame, hparent, hindex]
      · simp [hsame, hparent, hindex]
    · simp [hsame, hparent]

/-- A field that is set has the value, and fields with other names keep theirs. -/
theorem setField_storedAt {r : CStructRef} {name : String} {value : FieldValue}
    (h : Returns (CStruct.setField r name value : SectionM σ Unit) s () s') :
    s'.self = s.self ∧ s'.storedAt r name = some value ∧
      ∀ r' name', name ≠ name' → s'.storedAt r' name' = s.storedAt r' name' := by
  obtain ⟨c, f, hc, -, rfl⟩ := updated_of_setField h
  refine ⟨rfl, ?_, fun r' name' hname => ?_⟩
  · unfold storedAt
    rw [structAt_update, if_pos rfl, hc, Option.map_some, Option.bind_some, Dict.get_set_self]
    rfl
  · unfold storedAt
    rw [structAt_update]
    split
    next hr =>
      subst hr
      rw [hc, Option.map_some, Option.bind_some, Option.bind_some, Dict.get_set_of_ne _ hname]
    · rfl

theorem returns_setField_iff {r : CStructRef} {name : String} {value : FieldValue} :
    (∃ s', Returns (CStruct.setField r name value : SectionM σ Unit) s () s') ↔
      (s.storedAt r name).isSome := by
  unfold CStruct.setField storedAt
  simp only [returns_get_bind]
  cases s.structAt r with
  | none =>
    refine iff_of_false ?_ Bool.false_ne_true
    rintro ⟨s', h⟩
    exact not_returns_throw h
  | some c =>
    simp only [Option.bind_some, Option.isSome_map]
    cases c.fields.get name with
    | none =>
      refine iff_of_false ?_ Bool.false_ne_true
      rintro ⟨s', h⟩
      exact not_returns_throw h
    | some f => exact iff_of_true ⟨_, returns_modify.mpr rfl⟩ rfl

/-- Setting a field takes none away and adds none. -/
theorem isSome_storedAt_setField {r : CStructRef} {name : String} {value : FieldValue}
    (h : Returns (CStruct.setField r name value : SectionM σ Unit) s () s') (r' : CStructRef)
    (name' : String) :
    (s'.storedAt r' name').isSome = (s.storedAt r' name').isSome := by
  obtain ⟨-, hset, hothers⟩ := setField_storedAt h
  have hstored := returns_setField_iff.mp ⟨s', h⟩
  by_cases hname : name = name'
  · subst hname
    by_cases hr : r = r'
    · subst hr
      rw [hset, hstored]
      rfl
    · obtain ⟨c, f, -, -, rfl⟩ := updated_of_setField h
      unfold storedAt
      rw [structAt_update, if_neg hr]
  · rw [hothers r' name' hname]

end FlashSection

namespace RomFlashSection

variable {host : Host} {s s' : FlashSection RomAttrs}

/-- The header of a ROM holds the size the section reports. -/
def HoldsSize (s : FlashSection RomAttrs) : Prop :=
  ∃ size, s.getSize = .ok size ∧ romHeaderSize s = some (.int size)

/-- The second section has the header of the first. -/
def KeepsHeader (s s' : FlashSection RomAttrs) : Prop := romHeaderSize s' = romHeaderSize s

theorem KeepsHeader.refl (s : FlashSection RomAttrs) : KeepsHeader s s := rfl

theorem KeepsHeader.trans ⦃s t u : FlashSection RomAttrs⦄ (h : KeepsHeader s t)
    (h' : KeepsHeader t u) : KeepsHeader s u := Eq.trans h' h

theorem keepsHeader_setField (r : CStructRef) {name : String} (value : FieldValue)
    (hname : name ≠ "rom_header_size") : Keeps KeepsHeader (CStruct.setField r name value) := by
  intro s u s' h
  obtain ⟨hself, -, hothers⟩ := FlashSection.setField_storedAt h
  unfold KeepsHeader romHeaderSize
  rw [hself]
  cases s.self.header with
  | none => rfl
  | some header => exact hothers header _ hname

theorem keepsHeader_refAt (refs : List CStructRef) (i : Nat) :
    Keeps KeepsHeader (refAt refs i : SectionM RomAttrs CStructRef) := by
  unfold refAt
  cases refs[i]? with
  | some r => exact keeps_pure .refl r
  | none => exact keeps_throw _

theorem keepsHeader_fillSegment (p : BinarySegment × Nat) : Keeps KeepsHeader (fillSegment p) := by
  unfold fillSegment
  refine keeps_bind .trans (keeps_get .refl) fun _ => ?_
  refine keeps_bind .trans (keepsHeader_refAt _ _) fun _ => ?_
  refine keeps_bind .trans (keepsHeader_refAt _ _) fun _ => ?_
  refine keeps_bind .trans (keeps_reading .refl _) fun _ => ?_
  refine keeps_bind .trans (keepsHeader_setField _ _ (by decide)) fun _ => ?_
  refine keeps_bind .trans (keepsHeader_setField _ _ (by decide)) fun _ => ?_
  refine keeps_bind .trans (keepsHeader_setField _ _ (by decide)) fun _ => ?_
  refine keeps_bind .trans (keepsHeader_setField _ _ (by decide)) fun _ => ?_
  exact keepsHeader_setField _ _ (by decide)

/-- Storing the size, and what follows in the ROM. -/
theorem holdsSize_of_store {r : CStructRef} {size : Int} {u : FlashSection RomAttrs}
    (hheader : s.self.header = some r) (hsize : s.getSize = .ok size)
    (hstore : Returns (CStruct.setField r "rom_header_size" (.int size)) s () u)
    (hlayout : u.SameLayout s') (hkeeps : KeepsHeader u s') : HoldsSize s' := by
  obtain ⟨hself, hvalue, -⟩ := FlashSection.setField_storedAt hstore
  have hstored := keepsLayout_setField _ _ _ _ _ _ hstore
  refine ⟨size, ?_, ?_⟩
  · rw [hlayout.getSize, hstored.getSize]
    exact hsize
  · rw [hkeeps]
    unfold romHeaderSize
    rw [hself, hheader]
    exact hvalue

/-- What is filled in behind the size. -/
def fillRest (header : CStructRef) (binary : Binary) : SectionM RomAttrs Unit := do
  CStruct.setField header "nb_segments" (.int binary.segments.length)
  CStruct.setField header "entry" (.int binary.entry)
  Program.forEach fillSegment binary.segments.zipIdx

theorem keepsLayout_fillRest (header : CStructRef) (binary : Binary) :
    FlashSection.KeepsLayout (fillRest header binary) := by
  refine FlashSection.keepsLayout_bind (keepsLayout_setField _ _ _) fun _ => ?_
  refine FlashSection.keepsLayout_bind (keepsLayout_setField _ _ _) fun _ => ?_
  exact FlashSection.keepsLayout_forEach keepsLayout_fillSegment _

theorem keepsHeader_fillRest (header : CStructRef) (binary : Binary) :
    Keeps KeepsHeader (fillRest header binary) := by
  refine keeps_bind .trans (keepsHeader_setField _ _ (by decide)) fun _ => ?_
  refine keeps_bind .trans (keepsHeader_setField _ _ (by decide)) fun _ => ?_
  exact keeps_forEach .refl .trans fun p _ => keepsHeader_fillSegment p

/-- Whatever was in the section before, setting its content stores its size. -/
theorem holdsSize_setContent {offset : Int} {content : ContentSection}
    (h : Returns (setContent host offset content) s () s') : HoldsSize s' := by
  obtain ⟨s₁, boot, hstart, hfill⟩ := returns_create h
  obtain ⟨properties, rfl, -⟩ := FlashSection.returns_setContent hstart
  obtain ⟨binary, -, hfill⟩ | ⟨-, hfill⟩ := hfill
  · obtain ⟨size, s₂, hread, hfill⟩ := returns_bind.mp hfill
    obtain ⟨hsize, rfl⟩ := returns_reading.mp hread
    obtain ⟨_, u, hstore, hrest⟩ := returns_bind.mp hfill
    exact holdsSize_of_store rfl hsize hstore (keepsLayout_fillRest _ _ _ _ _ hrest)
      (keepsHeader_fillRest _ _ _ _ _ hrest)
  · obtain ⟨size, s₂, hread, hstore⟩ := returns_bind.mp hfill
    obtain ⟨hsize, rfl⟩ := returns_reading.mp hread
    exact holdsSize_of_store rfl hsize hstore (.refl _) (.refl _)

end RomFlashSection

end SoftHier.Gapy
