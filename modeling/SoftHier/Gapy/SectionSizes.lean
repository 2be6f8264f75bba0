/-
  Gapy/SectionSizes.lean --- the sizes of sections.

  A raw section or a LittleFS takes the rest of the flash, or a size that has nothing
  to do with the flash.
-/
import SoftHier.Gapy.FlashPrepare

set_option autoImplicit false

namespace SoftHier.Gapy

open SoftHier.Foundation Program

/-! ## One section -/

/-- A LittleFS allocates the size it is asked for, or nothing. -/
theorem LfsSection.allocated_setContent {host : Host} {flash : FlashContext} {offset : Int}
    {content : ContentSection} {s s' : FlashSection LfsAttrs}
    (h : Returns (LfsSection.setContent host flash offset content) s () s') :
    ∃ property requested, s'.getProperty "size" = .ok property ∧
      RawSection.requestedSize flash s'.offset property = .ok requested ∧
      s'.allocated = max requested 0 := by
  obtain ⟨properties, rootDir, imgPath, property, value, requested, hstart, -, -, hproperty,
    hrequested, hmade⟩ := returns_create h
  have hget := FlashSection.get_of_started hstart
  obtain ⟨hpos, hfill⟩ | ⟨hle, hs'⟩ := hmade
  · have hlayout := keepsLayout_fill _ _ _ _ _ hfill
    have hplaced : s.PlacedAt s' (startOffset flash s offset) content [headerSpec requested] :=
      .of_sameLayout hget hlayout
    refine ⟨property, requested.toInt, ?_, ?_, ?_⟩
    · unfold FlashSection.getProperty at hproperty ⊢
      rw [hlayout.properties]
      exact hproperty
    · rw [hplaced.offset]
      exact RawSection.requestedSize_of_number hrequested
    · rw [hplaced.allocated, specsSize_cons, specsSize_nil, size_headerSpec, Int.add_zero]
      omega
  · have hplaced : s.PlacedAt s' (startOffset flash s offset) content [] := by
      rw [hs']
      exact .of_sameLayout hget (FlashSection.SameLayout.refl _)
    refine ⟨property, requested.toInt, ?_, ?_, ?_⟩
    · rw [hs']
      exact hproperty
    · rw [hplaced.offset]
      exact RawSection.requestedSize_of_number hrequested
    · rw [hplaced.allocated, specsSize_nil]
      omega

namespace Section

variable {host : Host} {flash : FlashContext} {offset : Int} {content : ContentSection}
  {s s' : Section}

/-- The section is to take the rest of the flash. -/
def TakesRest (s : Section) : Prop :=
  ∃ v w, s.base.getProperty "size" = .ok v ∧ v.ofCommandLine = .ok w ∧ w.eqInt (-1) = true

/-- A raw section has the size it is asked for, rounded up. -/
theorem size_raw (h : Returns (Section.setContent host flash offset content) s () s')
    (hkind : s'.kind = .raw) {size : Int} (hsize : s'.getSize = .ok size) {v : PyValue}
    (hv : s'.base.getProperty "size" = .ok v) :
    ∃ requested, RawSection.requestedSize flash s'.offset v = .ok requested ∧
      size = FlashSection.roundUp s'.base.sizeAlign requested := by
  obtain ⟨u, rfl⟩ : ∃ u, s' = .raw u := by
    cases s' with
    | raw u => exact ⟨u, rfl⟩
    | _ => cases hkind
  obtain ⟨t, rfl⟩ : ∃ t, s = .raw t := by
    have hsame := (setContent_inv h).1
    cases s with
    | raw t => exact ⟨t, rfl⟩
    | _ => cases hsame
  obtain ⟨u', hset, hwrap⟩ := returns_within h
  obtain rfl : u = u' := Section.raw.inj hwrap
  obtain ⟨property, requested, hproperty, hrequested, hplaced⟩ :=
    RawSection.placedAt_setContent hset
  have hv : u.getProperty "size" = .ok v := hv
  cases hproperty.symm.trans hv
  have hallocated : u.allocated = requested.toInt := by
    rw [hplaced.allocated, specsSize_cons, specsSize_nil, RawSection.size_headerSpec,
      Int.add_zero]
  have hoffset : (Section.raw u).offset = t.startOffset offset := hplaced.offset
  rw [hoffset]
  have hrequested := RawSection.requestedSize_of_number hrequested
  refine ⟨requested.toInt, hrequested, ?_⟩
  have hsize : u.getSize = .ok size := hsize
  obtain ⟨v', w, given, hv', hw, rfl, hgiven⟩ := FlashSection.getSize_inv hsize
  cases hv.symm.trans hv'
  have hgiven : given = requested.toInt := by
    unfold RawSection.requestedSize at hrequested
    simp only [hw, bind, Except.bind] at hrequested
    rcases hgiven with ⟨-, rfl⟩ | ⟨hforced, hoperand, -⟩
    · exact hallocated
    · rw [if_neg fun hrest => hforced (.inr hrest)] at hrequested
      exact Except.ok.inj (hoperand.symm.trans hrequested)
  rw [hgiven]
  rfl

/-- The size of a section that takes the flash from its offset up to a limit. -/
def restSize (limit : Int) (s : Section) : Int :=
  FlashSection.roundUp s.base.sizeAlign
    (if s.kind = .lfs then max (limit - s.offset) 0 else limit - s.offset)

/-- A LittleFS has the size it is asked for, rounded up. -/
theorem size_lfs (h : Returns (Section.setContent host flash offset content) s () s')
    (hkind : s'.kind = .lfs) {size : Int} (hsize : s'.getSize = .ok size) {v w : PyValue}
    (hv : s'.base.getProperty "size" = .ok v) (hw : v.ofCommandLine = .ok w) :
    ∃ requested, RawSection.requestedSize flash s'.offset v = .ok requested ∧
      size = FlashSection.roundUp s'.base.sizeAlign
        (if w.eqInt (-1) then max requested 0 else requested) := by
  obtain ⟨u, rfl⟩ : ∃ u, s' = .lfs u := by
    cases s' with
    | lfs u => exact ⟨u, rfl⟩
    | _ => cases hkind
  obtain ⟨t, rfl⟩ : ∃ t, s = .lfs t := by
    have hsame := (setContent_inv h).1
    cases s with
    | lfs t => exact ⟨t, rfl⟩
    | _ => cases hsame
  obtain ⟨u', hset, hwrap⟩ := returns_within h
  obtain rfl : u = u' := Section.lfs.inj hwrap
  obtain ⟨property, requested, hproperty, hrequested, hallocated⟩ :=
    LfsSection.allocated_setContent hset
  have hv : u.getProperty "size" = .ok v := hv
  cases hproperty.symm.trans hv
  refine ⟨requested, hrequested, ?_⟩
  have hsize : u.getSize = .ok size := hsize
  obtain ⟨v', w', given, hv', hw', rfl, hgiven⟩ := FlashSection.getSize_inv hsize
  cases hv.symm.trans hv'
  cases hw.symm.trans hw'
  suffices hcontent : given = if w.eqInt (-1) then max requested 0 else requested by
    rw [hcontent]
    rfl
  unfold RawSection.requestedSize at hrequested
  simp only [hw, bind, Except.bind] at hrequested
  rcases hgiven with ⟨hunforced, rfl⟩ | ⟨hforced, hoperand, -⟩
  · by_cases hrest : w.eqInt (-1) = true
    · rw [if_pos hrest]
      exact hallocated
    · -- an absent size has no operand
      rw [if_neg hrest, hunforced.resolve_right hrest] at hrequested
      cases hrequested
  · have hrest : ¬ w.eqInt (-1) = true := fun hrest => hforced (.inr hrest)
    rw [if_neg hrest] at hrequested ⊢
    exact Except.ok.inj (hoperand.symm.trans hrequested)

/-- A raw section or a LittleFS takes the rest of the flash, or a size that has
nothing to do with the flash. -/
theorem size_inv (h : Returns (Section.setContent host flash offset content) s () s')
    (hkind : s'.kind = .raw ∨ s'.kind = .lfs) {size : Int} (hsize : s'.getSize = .ok size) :
    s'.TakesRest ∧ size = s'.restSize flash.size ∨
      ¬ s'.TakesRest ∧ ∃ v w requested, s'.base.getProperty "size" = .ok v ∧
        v.ofCommandLine = .ok w ∧ w.operand = .ok requested ∧
        size = FlashSection.roundUp s'.base.sizeAlign requested := by
  obtain ⟨v, w, -, hv, hw, -⟩ := FlashSection.getSize_inv hsize
  have hrest_iff : s'.TakesRest ↔ w.eqInt (-1) = true := by
    refine ⟨?_, fun heq => ⟨v, w, hv, hw, heq⟩⟩
    rintro ⟨v', w', hv', hw', heq⟩
    cases hv.symm.trans hv'
    cases hw.symm.trans hw'
    exact heq
  have hrequested_eq : RawSection.requestedSize flash s'.offset v =
      if w.eqInt (-1) then .ok (flash.size - s'.offset) else w.operand := by
    unfold RawSection.requestedSize
    rw [hw]
    rfl
  obtain ⟨requested, hrequested, hsize⟩ : ∃ requested,
      RawSection.requestedSize flash s'.offset v = .ok requested ∧
      size = FlashSection.roundUp s'.base.sizeAlign
        (if s'.kind = .lfs ∧ w.eqInt (-1) = true then max requested 0 else requested) := by
    rcases hkind with hraw | hlfs
    · obtain ⟨requested, hrequested, hsize⟩ := size_raw h hraw hsize hv
      refine ⟨requested, hrequested, ?_⟩
      rw [if_neg (by rw [hraw]; exact nofun)]
      exact hsize
    · obtain ⟨requested, hrequested, hsize⟩ := size_lfs h hlfs hsize hv hw
      refine ⟨requested, hrequested, ?_⟩
      simp only [hlfs, true_and]
      exact hsize
  rw [hrequested_eq] at hrequested
  by_cases hrest : w.eqInt (-1) = true
  · left
    rw [if_pos hrest] at hrequested
    cases hrequested
    refine ⟨hrest_iff.mpr hrest, ?_⟩
    simp only [hrest, and_true] at hsize
    exact hsize
  · right
    rw [if_neg hrest] at hrequested
    rw [if_neg fun h => hrest h.2] at hsize
    exact ⟨fun h => hrest (hrest_iff.mp h), v, w, requested, hv, hw, hrequested, hsize⟩

end Section

end SoftHier.Gapy
