/-
  Gapy/PlannedSections.lean --- one section and the plan.

  What a section holds once it was given the contents of some entries, whatever its
  class; what `set_content` and `finalize` make of it; and where it lies then.
-/
import SoftHier.Gapy.PlanEntries
import SoftHier.Gapy.PlannedFiles

set_option autoImplicit false

namespace SoftHier.Gapy

open SoftHier.Foundation Program

variable {host : Host} {flash : FlashContext}

/-! ## Any section -/

namespace Section

theorem refines_within {σ β : Type} {wrap : FlashSection σ → Section} {p : SectionM σ Unit}
    {P : Program PyError Section Unit} {s : FlashSection σ} (hP : P (wrap s) = within wrap p s)
    {Q : β → Unit → FlashSection σ → Prop} {S : β → Unit → Section → Prop} {x : Except PyError β}
    (h : Refines p s Q x) (hrel : ∀ b t, Q b () t → S b () (wrap t)) : Refines P (wrap s) S x := by
  cases h with
  | @returns b a t run related =>
    exact .returns (hP.trans (within_of_returns run)) (hrel b t related)
  | @raises e t run =>
    have hraises : Raises P (wrap s) e (wrap t) := by
      unfold Raises at run ⊢
      rw [hP]
      unfold within
      rw [run]
    exact .raises hraises

/-- What the class of a section has filed for some contents. -/
def Filed (host : Host) (later : Nat) (done : List ContentSection) : Section → Prop
  | .rom s => RomFlashSection.Filed s
  | .partitionTable s => PartitionTableSection.Reserves later done.length s
  | .readfs s => ReadfsSection.KeepsPaths host done s
  | .hostfs _ => True
  | .lfs s => s.self.extImg = done.any ContentSection.namesImage
  | .raw _ => True

/-- The section of a name, among a number of sections, once it was given some contents. -/
structure Given (host : Host) (count : Nat) (name : String) (owner : SectionTemplate × Nat)
    (done : List ContentSection) (s : Section) : Prop where
  name : s.name = name
  kind : s.kind = owner.1
  sectionId : s.sectionId = owner.2
  valued : FlashSection.Valued owner.1 done s.base.properties
  filed : s.Filed host (count - (owner.2 + 1)) done

section Given

variable {count : Nat} {name : String} {owner : SectionTemplate × Nat} {done : List ContentSection}
  {s : Section}

theorem given_new (host : Host) (count : Nat) (name : String) (owner : SectionTemplate × Nat) :
    (owner.1.new name owner.2).Given host count name owner [] := by
  obtain ⟨template, sectionId⟩ := owner
  have hvalued := FlashSection.valued_declared template
  cases template with
  | rom =>
    exact ⟨rfl, rfl, rfl, hvalued, fun _ h => absurd h List.not_mem_nil,
      fun _ h => absurd h List.not_mem_nil⟩
  | partitionTable => exact ⟨rfl, rfl, rfl, hvalued, PartitionTableSection.reserves_new rfl⟩
  | readfs => exact ⟨rfl, rfl, rfl, hvalued, ReadfsSection.keepsPaths_new rfl⟩
  | hostfs => exact ⟨rfl, rfl, rfl, hvalued, trivial⟩
  | lfs => exact ⟨rfl, rfl, rfl, hvalued, rfl⟩
  | raw => exact ⟨rfl, rfl, rfl, hvalued, trivial⟩

theorem Given.setAlignments (h : s.Given host count name owner done)
    (startAlign sizeAlign : Option Int) :
    (s.setAlignments startAlign sizeAlign).Given host count name owner done := by
  obtain ⟨hname, hkind, hid, hvalued, hfiled⟩ := h
  cases s with
  | rom s => exact ⟨hname, hkind, hid, hvalued, hfiled.segmentHeader, hfiled.segment⟩
  | partitionTable s =>
    exact ⟨hname, hkind, hid, hvalued, hfiled.header, hfiled.unreached, hfiled.entry,
      hfiled.entries⟩
  | readfs s =>
    exact ⟨hname, hkind, hid, hvalued, hfiled.paths, hfiled.filed.fileHeader, hfiled.filed.file⟩
  | hostfs s => exact ⟨hname, hkind, hid, hvalued, trivial⟩
  | lfs s => exact ⟨hname, hkind, hid, hvalued, hfiled⟩
  | raw s => exact ⟨hname, hkind, hid, hvalued, trivial⟩

end Given

/-- What `set_content` allocates, and what the class files for it.  A ROM stores its
size, so it looks at its size before anybody asks. -/
theorem refines_setContent_took (host : Host) (flash : FlashContext) {count : Nat} {e : PlanEntry}
    {sectionId : Nat} {s : Section}
    (h : s.Given host count e.name (e.template, sectionId) e.earlier)
    (hcount : flash.sectionNames.length = count) (hlater : e.later = count - (sectionId + 1))
    (offset : Int) :
    ∃ x : Except PyError Int,
      Refines (Section.setContent host flash offset e.content) s
        (fun allocated _ s' => FlashSection.Took e allocated s'.base ∧
          s'.Filed host e.later e.contents) x ∧
      (x >>= reportedSize s.base.startAlign s.base.sizeAlign (e.value "size")) =
        e.demand host flash (s.startOffset flash offset) >>=
          reportedSize s.base.startAlign s.base.sizeAlign (e.value "size") := by
  obtain ⟨hname, hkind, hid, hvalued, hfiled⟩ := h
  rw [← hlater] at hfiled
  cases s with
  | rom s =>
    have he : e.template = .rom := hkind.symm
    refine ⟨_, refines_within (by rfl) (RomFlashSection.refines_setContent he hvalued hfiled offset)
      fun _ _ h => ⟨⟨h.1.allocated, h.1.valued⟩, h.2⟩, ?_⟩
    have htwice : ∀ allocated, (reportedSize s.startAlign s.sizeAlign (e.value "size") allocated >>=
        fun _ => reportedSize s.startAlign s.sizeAlign (e.value "size") allocated) =
        reportedSize s.startAlign s.sizeAlign (e.value "size") allocated := by
      intro allocated
      cases reportedSize s.startAlign s.sizeAlign (e.value "size") allocated <;> rfl
    simp only [PlanEntry.demand, he, bind_assoc, pure_bind]
    exact bind_congr fun _ => bind_congr fun binary => htwice _
  | partitionTable s =>
    have he : e.template = .partitionTable := hkind.symm
    have hsections : (flash.sectionNames.drop (s.sectionId + 1)).length = e.later := by
      have hid' : s.sectionId = sectionId := hid
      rw [List.length_drop, hcount, hid', hlater]
    refine ⟨_, refines_within (by rfl)
      (PartitionTableSection.refines_setContent hvalued hfiled hsections offset)
      fun _ _ h => ⟨⟨h.1.allocated, h.1.valued⟩, ?_⟩, ?_⟩
    · change PartitionTableSection.Reserves e.later e.contents.length _
      rw [PlanEntry.length_contents]
      exact h.2
    · simp only [PlanEntry.demand, he]
  | readfs s =>
    have he : e.template = .readfs := hkind.symm
    refine ⟨_, refines_within (by rfl) (ReadfsSection.refines_setContent hvalued hfiled offset)
      fun _ _ h => ⟨⟨h.1.allocated, h.1.valued⟩, h.2⟩, ?_⟩
    simp only [PlanEntry.demand, he]
  | hostfs s =>
    have he : e.template = .hostfs := hkind.symm
    refine ⟨_, refines_within (by rfl) (HostfsSection.refines_setContent hvalued offset)
      fun _ _ h => ⟨⟨h.allocated, h.valued⟩, trivial⟩, ?_⟩
    simp only [PlanEntry.demand, he]
  | lfs s =>
    have he : e.template = .lfs := hkind.symm
    refine ⟨_, refines_within (by rfl)
      (LfsSection.refines_setContent hname.symm hvalued hfiled offset)
      fun _ _ h => ⟨⟨h.1.allocated, h.1.valued⟩, h.2⟩, ?_⟩
    simp only [PlanEntry.demand, he]
    rfl
  | raw s =>
    have he : e.template = .raw := hkind.symm
    refine ⟨_, refines_within (by rfl) (RawSection.refines_setContent hvalued offset)
      fun _ _ h => ⟨⟨h.allocated, h.valued⟩, trivial⟩, ?_⟩
    simp only [PlanEntry.demand, he]
    rfl

/-- What `set_content` leaves in the header of a ROM. -/
theorem holdsSize_setContent {flash : FlashContext} {offset : Int} {content : ContentSection}
    {s : Section} {t : FlashSection RomAttrs}
    (h : Returns (Section.setContent host flash offset content) s () (.rom t)) :
    RomFlashSection.HoldsSize t := by
  obtain ⟨s₀, rfl⟩ := exists_rom (setContent_inv h).1.symm
  obtain ⟨t', ht', hwrap⟩ := returns_within h
  obtain rfl : t = t' := Section.rom.inj hwrap
  exact RomFlashSection.holdsSize_setContent ht'

/-- Whatever the class, `set_content` allocates the demand of the entry, and the section
starts where the class puts it. -/
theorem refines_setContent (host : Host) (flash : FlashContext) {count : Nat} {e : PlanEntry}
    {sectionId : Nat} {s : Section}
    (h : s.Given host count e.name (e.template, sectionId) e.earlier)
    (hcount : flash.sectionNames.length = count) (hlater : e.later = count - (sectionId + 1))
    (hstart : s.base.startAlign = flash.attributes.get "section_start_align") (offset : Int) :
    ∃ x : Except PyError Int,
      Refines (Section.setContent host flash offset e.content) s
        (fun allocated _ s' => s'.Given host count e.name (e.template, sectionId) e.contents ∧
          s'.offset = Flash.placedOffset flash.attributes e.template offset ∧
          s'.getSize = reportedSize s.base.startAlign s.base.sizeAlign (e.value "size") allocated ∧
          ∀ t, s' = .rom t → RomFlashSection.HoldsSize t)
        x ∧
      (x >>= reportedSize s.base.startAlign s.base.sizeAlign (e.value "size")) =
        e.demand host flash (Flash.placedOffset flash.attributes e.template offset) >>=
          reportedSize s.base.startAlign s.base.sizeAlign (e.value "size") := by
  have hoffset : s.startOffset flash offset =
      Flash.placedOffset flash.attributes e.template offset := by
    rw [Flash.startOffset_eq hstart, h.kind]
  obtain ⟨x, hrun, hx⟩ := refines_setContent_took host flash h hcount hlater offset
  rw [hoffset] at hx
  refine ⟨x, hrun.weaken fun allocated _ s' _ run hs' => ?_, hx⟩
  obtain ⟨hkind, specs, hplaced, -⟩ := setContent_inv run
  obtain ⟨htook, hfiled⟩ := hs'
  have hsize := FlashSection.getSize_eq_reportedSize
    (htook.valued.getProperty (FlashSection.declared_size e.template))
  refine ⟨⟨hplaced.name.trans h.name, hkind.trans h.kind, hplaced.sectionId.trans h.sectionId,
    htook.valued, hlater ▸ hfiled⟩, hplaced.offset.trans hoffset, ?_, ?_⟩
  · rw [hplaced.startAlign, hplaced.sizeAlign, htook.allocated] at hsize
    exact hsize
  · rintro t rfl
    exact holdsSize_setContent run

/-! ### Where a section lies -/

/-- A section lies where the plan says. -/
structure At (s : Section) (p : PlannedSection) : Prop where
  name : s.name = p.name
  kind : s.kind = p.template
  start : s.offset = p.start
  size : s.getSize = .ok p.size

theorem At.unique {s : Section} {p q : PlannedSection} (hp : s.At p) (hq : s.At q) : p = q := by
  obtain ⟨name, template, start, size⟩ := p
  obtain ⟨name', template', start', size'⟩ := q
  obtain rfl : name = name' := hp.name.symm.trans hq.name
  obtain rfl : template = template' := hp.kind.symm.trans hq.kind
  obtain rfl : start = start' := hp.start.symm.trans hq.start
  obtain rfl : size = size' := Except.ok.inj (hp.size.symm.trans hq.size)
  rfl

theorem At.of_sameLayout {s s' : Section} {p : PlannedSection} (h : s.At p)
    (hlayout : s.SameLayout s') : s'.At p where
  name := hlayout.base.name.trans h.name
  kind := hlayout.kind.trans h.kind
  start := hlayout.base.offset.trans h.start
  size := hlayout.base.getSize.trans h.size

/-- What a step makes of its section: it lies where the plan says, has the size the
entries give, and as a ROM it holds its size in its header. -/
structure LaidBy (s : Section) (p : PlanStep) : Prop where
  at_plan : s.At p.planned
  property : s.base.getProperty "size" = .ok (p.entry.value "size")
  header : ∀ t, s = .rom t → RomFlashSection.HoldsSize t

/-- A section is as the last step of its name left it; without a step it is as it was
created. -/
def Lies (name : String) (owner : SectionTemplate × Nat) : Option PlanStep → Section → Prop
  | some p, s => s.LaidBy p
  | none, s => s = owner.1.new name owner.2

theorem Lies.exists_size {name : String} {owner : SectionTemplate × Nat} {last : Option PlanStep}
    {s : Section} (h : s.Lies name owner last) : ∃ size, s.getSize = .ok size := by
  cases last with
  | none =>
    obtain rfl : s = _ := h
    exact ⟨0, (Flash.untouched_offset ⟨owner.1, name, owner.2, rfl⟩).2⟩
  | some p =>
    have hlaid : s.LaidBy p := h
    exact ⟨p.size, hlaid.at_plan.size⟩

/-- A section that is finalized stays where it lies.  A partition table needs to have
been reached, and to have no more entries reserved than there are sections. -/
theorem refines_finalize {count : Nat} {name : String} {owner : SectionTemplate × Nat}
    {done : List ContentSection} {last : Option PlanStep} {s : Section}
    (h : s.Given host count name owner done) (hlies : s.Lies name owner last)
    (hlast : last = none → done.length = 0) {views : List SectionView}
    (hcount : views.length = count) (hsizes : ∀ v ∈ views, ∃ size, v.size = .ok size) :
    Refines (Section.finalize views) s
      (fun _ _ s' => s'.Given host count name owner done ∧ s'.Lies name owner last)
      (if owner.1 ≠ .partitionTable then .ok ()
        else if done.length = 0 then .error .attributeError
        else if count - (owner.2 + 1) < (count - (owner.2 + 1)) * done.length then
          .error .indexError
        else .ok ()) := by
  by_cases htable : owner.1 = .partitionTable
  · rw [if_neg (not_not.mpr htable)]
    obtain ⟨s, rfl⟩ := exists_partitionTable (h.kind.trans htable)
    obtain ⟨hname, hkind, hid, hvalued, hfiled⟩ := h
    have hlater : (views.drop (s.sectionId + 1)).length = count - (owner.2 + 1) := by
      have hid' : s.sectionId = owner.2 := hid
      rw [List.length_drop, hcount, hid']
    have hfinalize := refines_within (P := Section.finalize views) (by rfl)
      (PartitionTableSection.refines_finalize hfiled hlater hsizes)
      (S := fun _ _ s' => ∃ t, s' = .partitionTable t ∧ s.KeepsFields t)
      fun _ t hkept => ⟨t, rfl, hkept⟩
    refine hfinalize.weaken ?_
    rintro _ _ _ hx run ⟨t, rfl, hkept⟩
    have hlayout := finalize_inv run
    have hvalued' : FlashSection.Valued owner.1 done t.properties := by
      rw [hkept.layout.properties]
      exact hvalued
    refine ⟨⟨hlayout.base.name.trans hname, hkind, hlayout.base.sectionId.trans hid, hvalued',
      hfiled.of_keepsFields hkept⟩, ?_⟩
    cases last with
    | none =>
      rw [if_pos (hlast rfl)] at hx
      cases hx
    | some p =>
      have hlaid : LaidBy _ p := hlies
      refine ⟨hlaid.at_plan.of_sameLayout hlayout, ?_, nofun⟩
      unfold FlashSection.getProperty
      rw [hlayout.base.properties]
      exact hlaid.property
  · rw [if_pos htable]
    exact .returns (returns_finalize_of_kind (h.kind ▸ htable) views) ⟨h, hlies⟩

end Section

end SoftHier.Gapy
