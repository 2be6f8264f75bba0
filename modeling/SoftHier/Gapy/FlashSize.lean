/-
  Gapy/FlashSize.lean --- one content in flashes of two sizes.

  The loops in front of the placement never look at the size of the flash.  Of the
  section classes only the raw section and the LittleFS do, and only for a size
  that is the rest of the flash.
-/
import SoftHier.Gapy.SectionSizes

set_option autoImplicit false

namespace SoftHier.Gapy

open SoftHier.Foundation Program

/-! ## The loops in front of the placement -/

namespace Flash

variable {host : Host} {f f' : Flash}

/-- The same flash with another size. -/
def resize (size : Nat) (f : Flash) : Flash := { f with size := size }

theorem commutes_createSection (size : Nat) (c : ContentSection) :
    Commutes (resize size) (createSection host c) := by
  intro f
  unfold createSection
  cases c.name with
  | none => rfl
  | some name =>
    cases c.template with
    | none => rfl
    | some templateName =>
      refine commutes_get_bind (fun u => ?_) f
      dsimp only [resize]
      cases u.sectionsTemplates.get templateName with
      | none => rfl
      | some template => rfl

theorem commutes_overwriteOne (size : Nat) (sectionName : String) (property : String × String) :
    Commutes (resize size) (overwriteOne sectionName property) := by
  unfold overwriteOne
  refine commutes_get_bind fun u => ?_
  have hcontent : (resize size u).contentSections = u.contentSections := rfl
  rw [hcontent]
  cases u.contentSections.find? fun c => c.name = some sectionName with
  | none => rfl
  | some content =>
    unfold sectionAt
    refine commutes_reading_bind (by rfl) fun s => ?_
    exact commutes_reading_bind (by rfl) fun properties => rfl

theorem commutes_handleSectionProperties (size : Nat) :
    Commutes (resize size) handleSectionProperties := by
  unfold handleSectionProperties
  refine commutes_get_bind fun u => commutes_forEach (fun p => ?_) _ u
  unfold overwriteSectionProperties
  refine commutes_get_bind fun v => ?_
  have hcontent : (resize size v).contentSections = v.contentSections := rfl
  rw [hcontent]
  cases v.contentSections.find? fun c => c.name = some p.1 with
  | none => rfl
  | some _ => exact commutes_forEach (commutes_overwriteOne size p.1) p.2 v

/-- The size of the flash makes no difference to the placement loop's start. -/
theorem commutes_prepare (size : Nat) : Commutes (resize size) (prepare host) := by
  unfold prepare
  refine commutes_bind (fun _ => rfl) fun _ => ?_
  refine commutes_get_bind fun u => ?_
  exact commutes_bind (commutes_forEach (commutes_createSection size) _)
    (fun _ => commutes_handleSectionProperties size) u

end Flash

/-! ## A section in flashes of two sizes -/

namespace Section

variable {host : Host} {flash : FlashContext} {limit : Int} {offset : Int}
  {content : ContentSection} {s t u : Section}

/-- Two sections that are shown alike. -/
structure SamePlace (s t : Section) : Prop where
  name : s.name = t.name
  offset : s.offset = t.offset
  size : s.getSize = t.getSize

/-- The section does not take the rest of the flash, or would have the same size up
to either limit. -/
def SameRest (limit limit' : Int) (s : Section) : Prop :=
  s.kind = .raw ∨ s.kind = .lfs → s.TakesRest → s.restSize limit = s.restSize limit'

/-- The other classes never look at the size of the flash. -/
theorem eq_of_setContent (hkind : u.kind ≠ .raw ∧ u.kind ≠ .lfs)
    (hs : Returns (Section.setContent host flash offset content) u () s)
    (ht : Returns (Section.setContent host { flash with size := limit } offset content) u () t) :
    s = t := by
  have hsame : Section.setContent host { flash with size := limit } offset content u =
      Section.setContent host flash offset content u := by
    cases u with
    | raw _ => exact absurd rfl hkind.1
    | lfs _ => exact absurd rfl hkind.2
    | _ => rfl
  unfold Returns at hs ht
  rw [hsame] at ht
  exact (Returns.unique hs ht).2

/-- Two runs of `set_content` in flashes of two sizes leave the same place exactly
when no rest is taken that differs. -/
theorem samePlace_iff
    (hs : Returns (Section.setContent host flash offset content) u () s)
    (ht : Returns (Section.setContent host { flash with size := limit } offset content) u () t)
    {size size' : Int} (hsize : s.getSize = .ok size) (hsize' : t.getSize = .ok size') :
    s.SamePlace t ↔ t.SameRest flash.size limit := by
  by_cases hkind : t.kind = .raw ∨ t.kind = .lfs
  · obtain ⟨hkinds, specs, hplaced, -⟩ := setContent_inv hs
    obtain ⟨hkindt, specs', hplaced', -⟩ := setContent_inv ht
    have hname : s.name = t.name := hplaced.name.trans hplaced'.name.symm
    have hoffset : s.offset = t.offset := by
      refine hplaced.offset.trans (Eq.trans ?_ hplaced'.offset.symm)
      cases u <;> rfl
    have halign : s.base.sizeAlign = t.base.sizeAlign :=
      hplaced.sizeAlign.trans hplaced'.sizeAlign.symm
    have hproperty : s.base.getProperty "size" = t.base.getProperty "size" := by
      unfold FlashSection.getProperty
      rw [hplaced.property, hplaced'.property]
    have hsamekind : s.kind = t.kind := hkinds.trans hkindt.symm
    have hrest : s.TakesRest ↔ t.TakesRest := by
      unfold TakesRest
      rw [hproperty]
    have hrestSize : s.restSize flash.size = t.restSize flash.size := by
      unfold restSize
      rw [halign, hsamekind, hoffset]
    have hsizes : s.SamePlace t ↔ size = size' := by
      refine ⟨fun h => ?_, fun h => ⟨hname, hoffset, ?_⟩⟩
      · exact Except.ok.inj (hsize.symm.trans (h.size.trans hsize'))
      · rw [hsize, hsize', h]
    rw [hsizes]
    unfold SameRest
    obtain ⟨htakes, hrests⟩ | ⟨hnot, v, w, requested, hv, hw, hoperand, hgiven⟩ :=
      size_inv hs (hsamekind ▸ hkind) hsize
    · obtain ⟨-, hrests'⟩ | ⟨hnot', -⟩ := size_inv ht hkind hsize'
      · rw [hrests, hrests', hrestSize]
        exact ⟨fun h _ _ => h, fun h => h hkind (hrest.mp htakes)⟩
      · exact absurd (hrest.mp htakes) hnot'
    · obtain ⟨htakes', -⟩ | ⟨-, v', w', requested', hv', hw', hoperand', hgiven'⟩ :=
        size_inv ht hkind hsize'
      · exact absurd (hrest.mpr htakes') hnot
      · cases (hproperty ▸ hv).symm.trans hv'
        cases hw.symm.trans hw'
        cases hoperand.symm.trans hoperand'
        refine iff_of_true ?_ fun _ htakes => absurd (hrest.mpr htakes) hnot
        rw [hgiven, hgiven', halign]
  · have hkindt := (setContent_inv ht).1
    rw [hkindt, not_or] at hkind
    obtain rfl := eq_of_setContent hkind hs ht
    refine iff_of_true ⟨rfl, rfl, rfl⟩ fun hkind' => ?_
    rw [hkindt] at hkind'
    exact absurd hkind' (not_or.mpr hkind)

theorem SameLayout.sameRest {s s' : Section} (h : s.SameLayout s') (limit limit' : Int) :
    s'.SameRest limit limit' ↔ s.SameRest limit limit' := by
  have hproperty : s'.base.getProperty "size" = s.base.getProperty "size" := by
    unfold FlashSection.getProperty
    rw [h.base.properties]
  have hrestSize : ∀ l, s'.restSize l = s.restSize l := by
    intro l
    have hoffset : s'.offset = s.offset := h.base.offset
    unfold restSize
    rw [h.kind, h.base.sizeAlign, hoffset]
  unfold SameRest TakesRest
  rw [h.kind, hproperty, hrestSize, hrestSize]

/-- Finalizing leaves the place of a section. -/
theorem SameLayout.samePlace {s s' : Section} (h : s.SameLayout s') : s.SamePlace s' :=
  ⟨h.base.name.symm, h.base.offset.symm, h.base.getSize.symm⟩

theorem SamePlace.symm {s t : Section} (h : s.SamePlace t) : t.SamePlace s :=
  ⟨h.name.symm, h.offset.symm, h.size.symm⟩

theorem SamePlace.trans {s t u : Section} (h : s.SamePlace t) (h' : t.SamePlace u) :
    s.SamePlace u :=
  ⟨h.name.trans h'.name, h.offset.trans h'.offset, h.size.trans h'.size⟩

end Section

/-! ## A layout in flashes of two sizes -/

namespace Flash

variable {host : Host} {flash : FlashContext} {limit : Int} {n n' : Nat}
  {startAlign sizeAlign : Option Int} {offset : Int} {cs : List ContentSection}
  {es ps qs : List (String × Section)}

/-- The same section shown alike; a partition table is the same altogether. -/
structure SamePlaced (p q : String × Section) : Prop where
  place : p.2.SamePlace q.2
  kind : p.2.kind = q.2.kind
  table : q.2.kind = .partitionTable → p.2 = q.2

/-- Two placements of one list of sections leave the same places when no rest is
taken that differs. -/
theorem Placements.samePlaced
    (h : Placements host flash n startAlign sizeAlign offset cs es ps)
    (h' : Placements host { flash with size := limit } n' startAlign sizeAlign offset cs es qs)
    (hrest : ∀ q ∈ qs, q.2.SameRest flash.size limit) : List.Forall₂ SamePlaced ps qs := by
  induction h generalizing qs with
  | nil =>
    cases h'
    exact .nil
  | cons content reported _ _ ih =>
    cases h' with
    | cons content' reported' _ rest' =>
      rw [List.forall_mem_cons] at hrest
      have hplace := (Section.samePlace_iff content content' reported reported').mpr hrest.1
      have hkind := (Section.setContent_inv content).1
      have hkind' := (Section.setContent_inv content').1
      refine .cons ⟨hplace, hkind.trans hkind'.symm, fun htable => ?_⟩ (ih ?_ hrest.2)
      · refine Section.eq_of_setContent ?_ content content'
        rw [← hkind', htable]
        exact ⟨nofun, nofun⟩
      · have hsize := hplace.size
        rw [reported, reported', Except.ok.injEq] at hsize
        rw [hplace.offset, hsize]
        exact rest'

/-- The rest that is taken is the same where the places are. -/
theorem Placements.sameRest
    (h : Placements host flash n startAlign sizeAlign offset cs es ps)
    (h' : Placements host { flash with size := limit } n' startAlign sizeAlign offset cs es qs)
    (hplace : List.Forall₂ (fun p q => p.2.SamePlace q.2) ps qs) :
    ∀ q ∈ qs, q.2.SameRest flash.size limit := by
  induction h generalizing qs with
  | nil =>
    cases h'
    exact fun q hq => absurd hq List.not_mem_nil
  | cons content reported _ _ ih =>
    cases h' with
    | cons content' reported' _ rest' =>
      obtain ⟨hhead, htail⟩ := List.forall₂_cons.mp hplace
      rw [List.forall_mem_cons]
      refine ⟨(Section.samePlace_iff content content' reported reported').mp hhead, ih ?_ htail⟩
      have hsize := hhead.size
      rw [reported, reported', Except.ok.injEq] at hsize
      rw [hhead.offset, hsize]
      exact rest'

theorem Placements.take (h : Placements host flash n startAlign sizeAlign offset cs es ps)
    (k : Nat) :
    Placements host flash n startAlign sizeAlign offset (cs.take k) (es.take k) (ps.take k) := by
  induction h generalizing k with
  | nil offset =>
    simp only [List.take_nil]
    exact .nil offset
  | cons content reported fits rest ih =>
    cases k with
    | zero => exact .nil _
    | succ k => exact .cons content reported fits (ih k)

end Flash

end SoftHier.Gapy
