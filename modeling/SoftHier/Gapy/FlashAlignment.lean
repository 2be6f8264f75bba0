/-
  Gapy/FlashAlignment.lean --- the alignments of the sections after a parse.

  Every section rounds the flash offset it is given up to the start alignment of
  the flash, and reports a size rounded up to the size alignment.  A LittleFS
  section then takes the flash offset again, rounds it up to its own alignment
  and forgets what the base class chose.  So it meets its own alignment always,
  and the start alignment of the flash where the flash offset happens to.
-/
import SoftHier.Gapy.PlannedFlash

set_option autoImplicit false

namespace SoftHier.Gapy

open SoftHier.Foundation Program

namespace Flash

variable {host : Host} {f f' : Flash}

/-! ## What the attributes ask for -/

/-- The alignments of the flash are powers of two, where they are given. -/
def PowerAligned (f : Flash) : Prop :=
  ∀ name ∈ ["section_start_align", "section_size_align", "littlefs_align"], ∀ a,
    f.flashAttributes.get name = some a → ∃ k : Nat, a = 2 ^ k

/-- Every offset and every size is aligned as the attributes say. -/
structure LayoutAligned (f : Flash) : Prop where
  start : ∀ a, f.flashAttributes.get "section_start_align" = some a →
    ∀ s ∈ f.sections.values, a ∣ s.offset
  size : ∀ a, f.flashAttributes.get "section_size_align" = some a →
    ∀ s ∈ f.sections.values, ∃ size, s.getSize = .ok size ∧ a ∣ size
  littlefs : ∀ a, f.flashAttributes.get "littlefs_align" = some a →
    ∀ s ∈ f.sections.values, s.kind = .lfs → a ∣ s.offset

/-- Where the content puts a LittleFS: the end of the section in front of it in the
plan, rounded up to the LittleFS alignment, is a multiple of the start alignment. -/
def LittlefsStartsFit (host : Host) (f : Flash) : Prop :=
  ∀ startAlign littlefsAlign, f.flashAttributes.get "section_start_align" = some startAlign →
    f.flashAttributes.get "littlefs_align" = some littlefsAlign →
    ∀ steps name p, f.planSteps host false = .ok steps →
      (PlanStep.last steps).get name = some p → p.entry.template = .lfs →
      startAlign ∣ alignUp p.offset littlefsAlign

/-! ## One step -/

theorem placedOffset_littlefs {attributes : Dict String Int} {a : Int}
    (h : attributes.get "littlefs_align" = some a) (offset : Int) :
    placedOffset attributes .lfs offset = alignUp offset a := by
  unfold placedOffset
  rw [h]

/-- Only the alignment of a LittleFS can spoil the start alignment. -/
theorem dvd_placedOffset {attributes : Dict String Int} {k : Nat}
    (h : attributes.get "section_start_align" = some (2 ^ k)) {kind : SectionTemplate}
    {offset : Int} (hlfs : kind = .lfs → ∀ b, attributes.get "littlefs_align" = some b →
      (2 : Int) ^ k ∣ alignUp offset b) : (2 : Int) ^ k ∣ placedOffset attributes kind offset := by
  have hround : (2 : Int) ^ k ∣
      FlashSection.roundUp (attributes.get "section_start_align") offset := by
    rw [h]
    exact dvd_alignUp_two_pow offset k
  unfold placedOffset
  split
  next hb => exact hlfs rfl _ hb
  · exact hround

/-- A reported size is rounded up to the size alignment. -/
theorem dvd_reportedSize {startAlign : Option Int} {k : Nat} {property : PyValue}
    {allocated size : Int}
    (h : reportedSize startAlign (some (2 ^ k)) property allocated = .ok size) :
    (2 : Int) ^ k ∣ size := by
  obtain ⟨-, content, -, rfl, -⟩ := reportedSize_inv h
  exact dvd_alignUp_two_pow content k

/-! ## A whole parse -/

/-- A parse, with the check or without, follows the steps the content has without. -/
theorem follows_of_returns {checkOverflow : Bool} (hfresh : f.Fresh)
    (h : Returns (parseContent host checkOverflow) f () f') :
    ∃ steps, f.planSteps host false = .ok steps ∧ FollowsPlan host f f' steps := by
  obtain ⟨steps, hsteps, hfollows⟩ := (refines_parseContent hfresh checkOverflow).of_returns h
  cases checkOverflow with
  | true => exact ⟨steps, planSteps_of_checked hsteps, hfollows⟩
  | false => exact ⟨steps, hsteps, hfollows⟩

/-- For every content a parse accepts, whatever the classes and the names of its
sections: the layout is aligned exactly when the content puts its LittleFS sections
where they fit. -/
theorem parseContent_layoutAligned_iff {checkOverflow : Bool} (hfresh : f.Fresh)
    (halign : f.PowerAligned) (h : Returns (parseContent host checkOverflow) f () f') :
    f'.LayoutAligned ↔ LittlefsStartsFit host f := by
  obtain ⟨steps, hsteps, hfollows⟩ := follows_of_returns hfresh h
  have hattributes := hfollows.frame.1
  -- a section is empty at zero, or a step of the plan
  have hcases : ∀ s ∈ f'.sections.values, s.offset = 0 ∧ s.getSize = .ok 0 ∨
      ∃ name p, (PlanStep.last steps).get name = some p ∧ p.Taken host f ∧ s.At p.planned := by
    intro s hs
    obtain ⟨name, hget⟩ := Dict.exists_get_of_mem_values hs
    rcases hfollows.laidBy_or_untouched hget with huntouched | ⟨p, hlast, hlaid⟩
    · exact .inl (untouched_offset huntouched)
    · exact .inr ⟨name, p, hlast, taken_of_mem hsteps (PlanStep.mem_of_get_last hlast).1,
        hlaid.at_plan⟩
  constructor
  · intro hlayout startAlign littlefsAlign hstart hlittlefs steps' name p hsteps' hlast hlfs
    obtain rfl := Except.ok.inj (hsteps.symm.trans hsteps')
    obtain ⟨s, hs, hlaid⟩ := hfollows.exists_laidBy hlast
    have htaken := taken_of_mem hsteps (PlanStep.mem_of_get_last hlast).1
    have hdvd := hlayout.start startAlign (by rw [hattributes]; exact hstart) s
      (Dict.mem_values_of_get hs)
    have hoffset : s.offset = p.start := hlaid.at_plan.start
    rw [hoffset, htaken.start, hlfs, placedOffset_littlefs hlittlefs] at hdvd
    exact hdvd
  · intro hfit
    refine ⟨fun a ha s hs => ?_, fun a ha s hs => ?_, fun a ha s hs hkind => ?_⟩
    · rw [hattributes] at ha
      obtain ⟨hzero, -⟩ | ⟨name, p, hlast, htaken, hat⟩ := hcases s hs
      · rw [hzero]
        exact Int.dvd_zero a
      · obtain ⟨k, rfl⟩ := halign _ (by simp) a ha
        rw [hat.start, PlanStep.planned, htaken.start]
        exact dvd_placedOffset ha fun hlfs b hb => hfit _ b ha hb steps name p hsteps hlast hlfs
    · rw [hattributes] at ha
      obtain ⟨-, hsize⟩ | ⟨_, p, -, htaken, hat⟩ := hcases s hs
      · exact ⟨0, hsize, Int.dvd_zero a⟩
      · obtain ⟨k, rfl⟩ := halign _ (by simp) a ha
        obtain ⟨allocated, -, hreported⟩ := htaken.size
        rw [ha] at hreported
        exact ⟨p.size, hat.size, dvd_reportedSize hreported⟩
    · rw [hattributes] at ha
      obtain ⟨hzero, -⟩ | ⟨_, p, -, htaken, hat⟩ := hcases s hs
      · rw [hzero]
        exact Int.dvd_zero a
      · obtain ⟨k, rfl⟩ := halign _ (by simp) a ha
        have hlfs : p.entry.template = .lfs := hat.kind.symm.trans hkind
        rw [hat.start, PlanStep.planned, htaken.start, hlfs, placedOffset_littlefs ha]
        exact dvd_alignUp_two_pow p.offset k

/-- A LittleFS in a content. -/
def lfsEntry (name : String) (size : Int) : ContentSection where
  name := some name
  template := some "lfs"
  properties := some (Dict.empty.set "size" (.int size))

/-- Sections on boundaries of 4 KiB, a LittleFS of 4 KiB on one of 256 bytes,
behind a raw section of some size. -/
def mixedFlash (size : Int) : Flash :=
  ofContent 0x10000 ((Dict.empty.set "section_start_align" 0x1000).set "littlefs_align" 0x100)
    [rawEntry "a" size, lfsEntry "b" 0x1000]

theorem mixedFlash_powerAligned (size : Int) : (mixedFlash size).PowerAligned := by
  intro name hname a ha
  simp only [List.mem_cons, List.not_mem_nil, or_false] at hname
  rcases hname with rfl | rfl | rfl
  · obtain rfl : 0x1000 = a := by simpa [mixedFlash, ofContent, Dict.get_set] using ha
    exact ⟨12, rfl⟩
  · simp [mixedFlash, ofContent, Dict.get_set] at ha
  · obtain rfl : 0x100 = a := by simpa [mixedFlash, ofContent, Dict.get_set] using ha
    exact ⟨8, rfl⟩

/-- Behind 4 KiB the LittleFS starts on a boundary of both. -/
theorem parseContent_layoutAligned_iff_mixed :
    ∃ f', Returns (parseContent Host.noFiles true) (mixedFlash 0x1000) () f' ∧
      f'.LayoutAligned := by
  have hparse : Returns (parseContent Host.noFiles true) (mixedFlash 0x1000) () _ :=
    returns_of_returned? (by decide +kernel)
  refine ⟨_, hparse, (parseContent_layoutAligned_iff ⟨rfl, rfl, rfl⟩ (mixedFlash_powerAligned _)
    hparse).mpr ?_⟩
  intro startAlign littlefsAlign hstart hlittlefs steps name p hsteps hlast hlfs
  obtain rfl : 0x1000 = startAlign := Option.some.inj hstart
  obtain rfl : 0x100 = littlefsAlign := Option.some.inj hlittlefs
  have hoffsets : (planSteps Host.noFiles (mixedFlash 0x1000) false).map
      (fun steps => steps.map PlanStep.offset) = .ok [0, 0x1000] := by rfl
  rw [hsteps] at hoffsets
  have hmem : p.offset ∈ [0, 0x1000] := by
    rw [← Except.ok.inj hoffsets]
    exact List.mem_map_of_mem (PlanStep.mem_of_get_last hlast).1
  rcases List.mem_cons.mp hmem with hzero | hmem
  · rw [hzero]
    decide
  · rw [List.mem_singleton.mp hmem]
    decide

/-- Behind 256 bytes the LittleFS starts at 256, which is no boundary of 4 KiB. -/
theorem not_parseContent_layoutAligned : ¬ ∀ (host : Host) (f f' : Flash) (checkOverflow : Bool),
    f.Fresh → f.PowerAligned → Returns (parseContent host checkOverflow) f () f' →
    f'.LayoutAligned := by
  intro h
  have hparse : Returns (parseContent Host.noFiles true) (mixedFlash 0x100) () _ :=
    returns_of_returned? (by decide +kernel)
  have haligned := h _ _ _ _ ⟨rfl, rfl, rfl⟩ (mixedFlash_powerAligned _) hparse
  have hoffset : (finalState (parseContent Host.noFiles true)
      (mixedFlash 0x100)).sections.values[1]?.map Section.offset = some 0x100 := by decide +kernel
  have hattribute : (finalState (parseContent Host.noFiles true)
      (mixedFlash 0x100)).flashAttributes.get "section_start_align" = some 0x1000 := by
    decide +kernel
  obtain ⟨s, hs, hoff⟩ := Option.map_eq_some_iff.mp hoffset
  have hdvd := haligned.start 0x1000 hattribute s (List.mem_of_getElem? hs)
  rw [hoff] at hdvd
  exact absurd hdvd (by decide)

/-- A LittleFS alignment that is no finer than the start alignment always fits. -/
theorem littlefsStartsFit_of_dvd (halign : f.PowerAligned)
    (h : ∀ a b, f.flashAttributes.get "section_start_align" = some a →
      f.flashAttributes.get "littlefs_align" = some b → a ∣ b) : LittlefsStartsFit host f := by
  intro a b ha hb steps name p _ _ _
  obtain ⟨k, rfl⟩ := halign _ (by simp) b hb
  exact Int.dvd_trans (h a _ ha hb) (dvd_alignUp_two_pow p.offset k)

end Flash

end SoftHier.Gapy
