/-
  Gapy/SizeRejection.lean --- impossible sizes a parse accepts.

  The overflow check looks at the end of every section.  A raw section takes a
  size below zero as it is, so it ends in front of its start, and what its size is
  taken from, the rest of the flash, is negative behind a start that was rounded
  up beyond the end.
-/
import SoftHier.Gapy.PlannedFlash
import SoftHier.Gapy.SectionSizes

set_option autoImplicit false

namespace SoftHier.Gapy

open SoftHier.Foundation Program

/-! ## What an entry asks for -/

namespace PlanEntry

variable {h : Host} {flash : FlashContext} {start allocated : Int} {e : PlanEntry}

theorem demand_raw (hkind : e.template = .raw) (hdemand : e.demand h flash start = .ok allocated) :
    RawSection.requestedSize flash start (e.value "size") = .ok allocated := by
  unfold demand at hdemand
  rw [hkind] at hdemand
  obtain ⟨_, -, hdemand⟩ := bind_eq_ok_iff.mp hdemand
  exact hdemand

/-- A LittleFS asks for the size it is given, or for nothing. -/
theorem demand_lfs (hkind : e.template = .lfs) (hdemand : e.demand h flash start = .ok allocated) :
    ∃ requested, RawSection.requestedSize flash start (e.value "size") = .ok requested ∧
      allocated = max requested 0 := by
  unfold demand at hdemand
  rw [hkind] at hdemand
  obtain ⟨_, -, hdemand⟩ := bind_eq_ok_iff.mp hdemand
  obtain ⟨rootDir, -, hdemand⟩ := bind_eq_ok_iff.mp hdemand
  obtain ⟨imgPath, -, hdemand⟩ := bind_eq_ok_iff.mp hdemand
  obtain ⟨size, hsize, hdemand⟩ := bind_eq_ok_iff.mp hdemand
  refine ⟨size.toInt, RawSection.requestedSize_of_number hsize, ?_⟩
  split at hdemand
  next hpos =>
    obtain ⟨_, -, hdemand⟩ := bind_eq_ok_iff.mp hdemand
    rw [← Except.ok.inj hdemand, max_eq_left hpos.le]
  next hle => rw [← Except.ok.inj hdemand, max_eq_right (not_lt.mp hle)]

/-- Only a raw section can ask for less than nothing. -/
theorem demand_nonneg {h : Host} {flash : FlashContext} {start allocated : Int}
    (hkind : e.template ≠ .raw) (hdemand : e.demand h flash start = .ok allocated) :
    0 ≤ allocated := by
  have hwhole := hdemand
  unfold demand at hdemand
  obtain ⟨_, -, hdemand⟩ := bind_eq_ok_iff.mp hdemand
  cases htemplate : e.template with
  | rom =>
    rw [htemplate] at hdemand
    obtain ⟨binary, -, hdemand⟩ := bind_eq_ok_iff.mp hdemand
    exact Except.ok.inj hdemand ▸ romBytes_nonneg binary
  | partitionTable =>
    rw [htemplate] at hdemand
    obtain rfl := Except.ok.inj hdemand
    omega
  | readfs =>
    rw [htemplate] at hdemand
    obtain ⟨paths, -, hdemand⟩ := bind_eq_ok_iff.mp hdemand
    obtain ⟨sizes, -, hdemand⟩ := bind_eq_ok_iff.mp hdemand
    obtain ⟨_, -, hdemand⟩ := bind_eq_ok_iff.mp hdemand
    exact Except.ok.inj hdemand ▸ readfsBytes_nonneg paths sizes
  | hostfs =>
    rw [htemplate] at hdemand
    obtain ⟨files, -, hdemand⟩ := bind_eq_ok_iff.mp hdemand
    obtain ⟨items, -, hdemand⟩ := bind_eq_ok_iff.mp hdemand
    obtain ⟨_, -, hdemand⟩ := bind_eq_ok_iff.mp hdemand
    exact le_of_eq (Except.ok.inj hdemand)
  | lfs =>
    obtain ⟨requested, -, rfl⟩ := demand_lfs htemplate hwhole
    exact le_max_right _ _
  | raw => exact absurd htemplate hkind

end PlanEntry

namespace PlanStep

variable {host : Host} {f : Flash} {p : PlanStep}

/-- A raw section has the size it asks for, rounded up. -/
theorem Taken.size_raw (h : p.Taken host f) (hkind : p.entry.template = .raw) :
    ∃ requested,
      RawSection.requestedSize f.context p.start (p.entry.value "size") = .ok requested ∧
      p.size = FlashSection.roundUp (f.flashAttributes.get "section_size_align") requested := by
  obtain ⟨allocated, hdemand, hreported⟩ := h.size
  have hrequested := PlanEntry.demand_raw hkind hdemand
  refine ⟨allocated, hrequested, ?_⟩
  obtain ⟨given, content, hgiven, hsize, -, hcontent⟩ := reportedSize_inv hreported
  rcases hcontent with ⟨-, rfl⟩ | ⟨hforced, requested, hnumber, rfl⟩
  · exact hsize
  · -- a size that is given is the size that is asked for
    unfold RawSection.requestedSize at hrequested
    simp only [hgiven, bind, Except.bind] at hrequested
    rw [if_neg fun hrest => hforced (.inr hrest), PyValue.operand_eq_map, hnumber] at hrequested
    rw [hsize, ← Except.ok.inj hrequested]

/-- Any other section has a size that is not negative. -/
theorem Taken.size_nonneg (h : p.Taken host f) (hkind : p.entry.template ≠ .raw) : 0 ≤ p.size := by
  obtain ⟨allocated, hdemand, hreported⟩ := h.size
  obtain ⟨given, content, -, hsize, hle, -⟩ := reportedSize_inv hreported
  rw [hsize]
  exact FlashSection.roundUp_nonneg
    (le_trans (PlanEntry.demand_nonneg hkind hdemand) hle) _

/-- A raw section or a LittleFS that takes the rest of the flash and has room there
ends where the flash does. -/
theorem Taken.stop_of_rest (h : p.Taken host f)
    (hkind : p.entry.template = .raw ∨ p.entry.template = .lfs)
    (halign : f.flashAttributes.get "section_size_align" = none) {w : PyValue}
    (hw : (p.entry.value "size").ofCommandLine = .ok w) (hrest : w.eqInt (-1) = true)
    (hend : p.stop ≤ f.size) : p.stop = f.size := by
  obtain ⟨allocated, hdemand, hreported⟩ := h.size
  have hrequested : RawSection.requestedSize f.context p.start (p.entry.value "size") =
      .ok (f.size - p.start) := by
    unfold RawSection.requestedSize
    simp only [hw, bind, Except.bind, hrest, if_true]
    rfl
  have hroom : (f.size : Int) - p.start ≤ allocated := by
    rcases hkind with hraw | hlfs
    · exact le_of_eq (Except.ok.inj (hrequested.symm.trans (PlanEntry.demand_raw hraw hdemand)))
    · obtain ⟨requested, hrequested', rfl⟩ := PlanEntry.demand_lfs hlfs hdemand
      rw [Except.ok.inj (hrequested.symm.trans hrequested')]
      exact le_max_left _ _
  rw [halign] at hreported
  obtain ⟨given, content, -, hsize, hle, -⟩ := reportedSize_inv hreported
  have hsize : p.size = content := hsize
  unfold stop at hend ⊢
  omega

end PlanStep

/-! ## The sizes after a parse -/

namespace Flash

variable {host : Host} {f f' : Flash}

/-- A layout without impossible sizes: no size is negative, no section starts
behind the end of the flash, and without a size alignment a raw section or a
LittleFS that takes the rest of the flash ends where the flash does. -/
structure SizesPossible (f : Flash) : Prop where
  nonneg : ∀ s ∈ f.sections.values, ∃ size, s.getSize = .ok size ∧ 0 ≤ size
  starts : ∀ s ∈ f.sections.values, s.offset ≤ f.size
  rest : f.flashAttributes.get "section_size_align" = none → ∀ s ∈ f.sections.values,
    s.kind = .raw ∨ s.kind = .lfs → s.TakesRest →
      ∃ size, s.getSize = .ok size ∧ 0 ≤ size ∧ s.offset + size = f.size

/-- Every raw section asks for a size that is not negative once it is rounded up to the
size alignment: the size its entries give it, or the flash behind the end of the section
in front of it in the plan, rounded up to the start alignment. -/
def RawSizesFit (host : Host) (f : Flash) : Prop :=
  ∀ steps name p requested, f.planSteps host true = .ok steps →
    (PlanStep.last steps).get name = some p → p.entry.template = .raw →
    RawSection.requestedSize f.context
        (FlashSection.roundUp (f.flashAttributes.get "section_start_align") p.offset)
        (p.entry.value "size") = .ok requested →
      0 ≤ FlashSection.roundUp (f.flashAttributes.get "section_size_align") requested

theorem placedOffset_raw (attributes : Dict String Int) (offset : Int) :
    placedOffset attributes .raw offset =
      FlashSection.roundUp (attributes.get "section_start_align") offset := rfl

/-- For every content a parse accepts, whatever the sizes, the alignments and the
names in it: the layout has no impossible sizes exactly when the raw sections
ask for none. -/
theorem sizesPossible_iff (hfresh : f.Fresh) (h : Returns (parseContent host true) f () f') :
    SizesPossible f' ↔ RawSizesFit host f := by
  obtain ⟨steps, hsteps, hfollows⟩ := (refines_parseContent hfresh true).of_returns h
  obtain ⟨hattributes, hlimit⟩ := hfollows.frame
  constructor
  · intro hpossible steps' name p requested hsteps' hlast hraw hrequested
    obtain rfl := Except.ok.inj (hsteps.symm.trans hsteps')
    obtain ⟨s, hs, hlaid⟩ := hfollows.exists_laidBy hlast
    have htaken := taken_of_mem hsteps (PlanStep.mem_of_get_last hlast).1
    obtain ⟨size, hsize, hnonneg⟩ := hpossible.nonneg s (Dict.mem_values_of_get hs)
    obtain ⟨requested', hrequested', hsize'⟩ := htaken.size_raw hraw
    rw [htaken.start, hraw, placedOffset_raw] at hrequested'
    obtain rfl := Except.ok.inj (hrequested.symm.trans hrequested')
    rw [← hsize', show p.size = size from Except.ok.inj (hlaid.at_plan.size.symm.trans hsize)]
    exact hnonneg
  · intro hfit
    have hall : ∀ s ∈ f'.sections.values, ∃ p, p.Taken host f ∧ s.LaidBy p ∧ 0 ≤ p.size ∧
        p.stop ≤ f.size := by
      intro s hs
      obtain ⟨name, hget⟩ := Dict.exists_get_of_mem_values hs
      obtain ⟨p, hlast, hlaid⟩ := hfollows.exists_last hsteps hget
      have hp := (PlanStep.mem_of_get_last hlast).1
      have htaken := taken_of_mem hsteps hp
      refine ⟨p, htaken, hlaid, ?_, stop_le_of_mem hsteps hp⟩
      by_cases hraw : p.entry.template = .raw
      · obtain ⟨requested, hrequested, hsize⟩ := htaken.size_raw hraw
        rw [htaken.start, hraw, placedOffset_raw] at hrequested
        rw [hsize]
        exact hfit steps name p requested hsteps hlast hraw hrequested
      · exact htaken.size_nonneg hraw
    refine ⟨fun s hs => ?_, fun s hs => ?_, fun halign s hs hkind hrest => ?_⟩
    · obtain ⟨p, -, hlaid, hnonneg, -⟩ := hall s hs
      exact ⟨p.size, hlaid.at_plan.size, hnonneg⟩
    · obtain ⟨p, -, hlaid, hnonneg, hle⟩ := hall s hs
      have hstart : s.offset = p.start := hlaid.at_plan.start
      unfold PlanStep.stop at hle
      rw [hlimit, hstart]
      omega
    · obtain ⟨p, htaken, hlaid, hnonneg, hle⟩ := hall s hs
      obtain ⟨v, w, hv, hw, hminus⟩ := hrest
      obtain rfl := Except.ok.inj (hv.symm.trans hlaid.property)
      have hkind' : p.entry.template = s.kind := hlaid.at_plan.kind.symm
      have hstart : s.offset = p.start := hlaid.at_plan.start
      rw [← hkind'] at hkind
      rw [hattributes] at halign
      refine ⟨p.size, hlaid.at_plan.size, hnonneg, ?_⟩
      rw [hstart, hlimit]
      exact htaken.stop_of_rest hkind halign hw hminus hle

/-- A flash of 24 bytes with a raw section of some size and one that takes the
rest, on boundaries of 16 bytes. -/
def restFlash (size : Int) : Flash :=
  ofContent 24 (Dict.empty.set "section_start_align" 16) [rawEntry "a" size, rawEntry "b" (-1)]

/-- Behind 10 bytes there is a rest of 8. -/
theorem sizesPossible_iff_rest : ∃ f',
    Returns (parseContent Host.noFiles true) (restFlash 10) () f' ∧ SizesPossible f' := by
  have hparse : Returns (parseContent Host.noFiles true) (restFlash 10) () _ :=
    returns_of_returned? (by decide +kernel)
  refine ⟨_, hparse, (sizesPossible_iff ⟨rfl, rfl, rfl⟩ hparse).mpr ?_⟩
  intro steps name p requested hsteps hlast hraw hrequested
  obtain rfl : [_, _] = steps := Except.ok.inj hsteps
  rcases List.mem_cons.mp (PlanStep.mem_of_get_last hlast).1 with rfl | hp
  · obtain rfl : 10 = requested := Except.ok.inj hrequested
    decide
  · obtain rfl := List.mem_singleton.mp hp
    obtain rfl : 8 = requested := Except.ok.inj hrequested
    decide

/-- Behind 20 bytes the rest starts at 32 and has -8 bytes. -/
theorem not_sizesPossible : ¬ ∀ (host : Host) (f f' : Flash), f.Fresh →
    (∀ name a, f.flashAttributes.get name = some a → 1 ≤ a) →
    Returns (parseContent host true) f () f' → SizesPossible f' := by
  intro h
  have hparse : Returns (parseContent Host.noFiles true) (restFlash 20) () _ :=
    returns_of_returned? (by decide +kernel)
  have hattributes : ∀ name a, (restFlash 20).flashAttributes.get name = some a → 1 ≤ a := by
    intro name a ha
    have hmem := Dict.get_eq_some_iff.mp ha
    obtain ⟨-, rfl⟩ := Prod.mk.inj (List.mem_singleton.mp hmem)
    decide
  have hpossible := h _ _ _ ⟨rfl, rfl, rfl⟩ hattributes hparse
  have hoffset : (finalState (parseContent Host.noFiles true)
      (restFlash 20)).sections.values[1]?.map Section.offset = some 32 := by decide +kernel
  obtain ⟨s, hs, hoff⟩ := Option.map_eq_some_iff.mp hoffset
  have hstarts := hpossible.starts s (List.mem_of_getElem? hs)
  rw [hoff] at hstarts
  exact absurd hstarts (by decide +kernel)

end Flash

end SoftHier.Gapy
