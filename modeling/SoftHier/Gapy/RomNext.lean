/-
  Gapy/RomNext.lean --- the section behind a ROM.

  The header of a ROM holds the size of its section, from which the runtime
  computes where the next section of the flash starts.  The size is stored while
  the ROM is placed; the next section rounds the flash offset it is given
  afterwards.
-/
import SoftHier.Gapy.PlannedFlash

set_option autoImplicit false

namespace SoftHier.Gapy

open SoftHier.Foundation Program

/-- The runtime gets from a ROM to a section: the offset of the ROM and the size in
its header make up the offset of the section. -/
def RomFlashSection.FindsNext (t : FlashSection RomAttrs) (next : Section) : Prop :=
  ∃ size, RomFlashSection.romHeaderSize t = some (.int size) ∧ t.offset + size = next.offset

namespace Flash

variable {host : Host} {f f' : Flash}

/-! ## Neighbouring steps -/

/-- A plan starts at the offset it is given. -/
theorem offset_of_planFrom {checkOverflow : Bool} {entries : List PlanEntry} {offset : Int}
    {p : PlanStep} {steps : List PlanStep}
    (h : f.planFrom host checkOverflow offset entries = .ok (p :: steps)) : p.offset = offset := by
  cases entries with
  | nil => cases h
  | cons e entries =>
    obtain ⟨allocated, size, -, -, ⟨-, -, hsteps⟩ | ⟨-, rest, -, hsteps⟩⟩ :=
      planFrom_cons_iff.mp h
    · rw [(List.cons.inj hsteps).1]
    · rw [(List.cons.inj hsteps).1]

/-- The flash offset of a step is where the step before it ends. -/
theorem offset_eq_stop {checkOverflow : Bool} {entries : List PlanEntry} {p q : PlanStep} :
    ∀ {offset : Int} {steps : List PlanStep} {i : Nat},
      f.planFrom host checkOverflow offset entries = .ok steps → steps[i]? = some p →
      steps[i + 1]? = some q → q.offset = p.stop := by
  induction entries with
  | nil =>
    intro offset steps i h hp _
    cases h
    cases hp
  | cons e entries ih =>
    intro offset steps i h hp hq
    obtain ⟨allocated, size, -, -, ⟨-, -, rfl⟩ | ⟨-, rest, hrest, rfl⟩⟩ :=
      planFrom_cons_iff.mp h
    · cases hq
    · rw [List.getElem?_cons_succ] at hq
      cases i with
      | zero =>
        obtain rfl := Option.some.inj hp
        cases rest with
        | nil => cases hq
        | cons r rest =>
          obtain rfl := Option.some.inj hq
          exact offset_of_planFrom hrest
      | succ i =>
        rw [List.getElem?_cons_succ] at hp
        exact ih hrest hp hq

/-! ## From a ROM to the next section -/

/-- In the plan of the content the last entry of a name is moved, by the alignment of
its class, from the flash offset it is given to where the last entry of a ROM ends. -/
def StartsBehind (host : Host) (f : Flash) (rom next : String) : Prop :=
  ∃ steps p q, f.planSteps host true = .ok steps ∧ (PlanStep.last steps).get rom = some p ∧
    (PlanStep.last steps).get next = some q ∧
      placedOffset f.flashAttributes q.entry.template q.offset = p.stop

/-- In the plan of the content a section starts at the flash offset it is given: neither
the start alignment nor the one of a LittleFS moves it. -/
def StartsAtOnce (host : Host) (f : Flash) (name : String) : Prop :=
  ∃ steps q, f.planSteps host true = .ok steps ∧ (PlanStep.last steps).get name = some q ∧
    placedOffset f.flashAttributes q.entry.template q.offset = q.offset

/-- With different names the last steps of two neighbours are neighbours. -/
theorem offset_of_neighbours {steps : List PlanStep} (hdistinct : f.DistinctNames)
    (hsteps : f.planSteps host true = .ok steps) {i : Nat} {name next : String} {p q : PlanStep}
    (hname : (PlanStep.last steps).keys[i]? = some name)
    (hnext : (PlanStep.last steps).keys[i + 1]? = some next)
    (hp : (PlanStep.last steps).get name = some p)
    (hq : (PlanStep.last steps).get next = some q) : q.offset = p.stop := by
  have hentries := entries_last_of_distinct hdistinct hsteps
  have hat : ∀ {j : Nat} {n : String} {r : PlanStep}, (PlanStep.last steps).keys[j]? = some n →
      (PlanStep.last steps).get n = some r → steps[j]? = some r := by
    intro j n r hn hr
    rw [Dict.keys, hentries, List.map_map, List.getElem?_map] at hn
    obtain ⟨r', hr', rfl⟩ := Option.map_eq_some_iff.mp hn
    have hget : (PlanStep.last steps).get r'.entry.name = some r' := by
      rw [Dict.get_eq_some_iff, hentries]
      exact List.mem_map.mpr ⟨r', List.mem_of_getElem? hr', rfl⟩
    obtain rfl := Option.some.inj (hget.symm.trans hr)
    exact hr'
  obtain ⟨entries, changed, -, -, hfrom, -⟩ := planSteps_iff.mp hsteps
  exact offset_eq_stop hfrom (hat hname hp) (hat hnext hq)

/-- In every accepted layout, whatever is in the ROM: its header leads to the next
section exactly when the content puts that one behind the ROM, which with different
names it does when it starts at the flash offset it is given. -/
theorem romFindsNext_iff (hfresh : f.Fresh) (h : Returns (parseContent host true) f () f')
    {i : Nat} {rom name : String} {t : FlashSection RomAttrs} {next : Section}
    (hrom : f'.sections.entries[i]? = some (rom, .rom t))
    (hnext : f'.sections.entries[i + 1]? = some (name, next)) :
    (RomFlashSection.FindsNext t next ↔ StartsBehind host f rom name) ∧
      (f.DistinctNames →
        (RomFlashSection.FindsNext t next ↔ StartsAtOnce host f name)) := by
  obtain ⟨steps, hsteps, hfollows⟩ := (refines_parseContent hfresh true).of_returns h
  obtain ⟨p, hp, hromLaid⟩ := hfollows.exists_last hsteps
    (Dict.get_eq_some_iff.mpr (List.mem_of_getElem? hrom))
  obtain ⟨q, hq, hnextLaid⟩ := hfollows.exists_last hsteps
    (Dict.get_eq_some_iff.mpr (List.mem_of_getElem? hnext))
  have htaken := taken_of_mem hsteps (PlanStep.mem_of_get_last hq).1
  obtain ⟨size, hsize, hstored⟩ := hromLaid.header t rfl
  have hstop : t.offset + size = p.stop := by
    have hstart : t.offset = p.start := hromLaid.at_plan.start
    rw [hstart, Except.ok.inj (hsize.symm.trans hromLaid.at_plan.size)]
    rfl
  have hoffset : next.offset = placedOffset f.flashAttributes q.entry.template q.offset :=
    hnextLaid.at_plan.start.trans htaken.start
  have hfinds : RomFlashSection.FindsNext t next ↔
      placedOffset f.flashAttributes q.entry.template q.offset = p.stop := by
    constructor
    · rintro ⟨size', hstored', hleads⟩
      cases hstored.symm.trans hstored'
      rw [← hoffset, ← hleads, hstop]
    · intro hplaced
      exact ⟨size, hstored, by rw [hstop, hoffset, hplaced]⟩
  refine ⟨hfinds.trans ⟨fun hplaced => ⟨steps, p, q, hsteps, hp, hq, hplaced⟩, ?_⟩,
    fun hdistinct => hfinds.trans ?_⟩
  · rintro ⟨steps', p', q', hsteps', hp', hq', hplaced⟩
    obtain rfl := Except.ok.inj (hsteps.symm.trans hsteps')
    cases hp.symm.trans hp'
    cases hq.symm.trans hq'
    exact hplaced
  · have hkeyAt : ∀ {j : Nat} {r : String × Section}, f'.sections.entries[j]? = some r →
        (PlanStep.last steps).keys[j]? = some r.1 := by
      intro j r hr
      rw [← hfollows.keys_last hsteps, Dict.keys, List.getElem?_map, hr]
      rfl
    rw [← offset_of_neighbours hdistinct hsteps (hkeyAt hrom) (hkeyAt hnext) hp hq]
    constructor
    · exact fun hplaced => ⟨steps, q, hsteps, hq, hplaced⟩
    · rintro ⟨steps', q', hsteps', hq', hplaced⟩
      obtain rfl := Except.ok.inj (hsteps.symm.trans hsteps')
      cases hq.symm.trans hq'
      exact hplaced

/-- A ROM without a binary. -/
def romEntry (name : String) : ContentSection where
  name := some name
  template := some "rom"
  properties := none

/-- A ROM in front of a raw section, with a start alignment. -/
def romFlash (startAlign : Int) : Flash :=
  ofContent 0x100 (Dict.empty.set "section_start_align" startAlign)
    [romEntry "rom", rawEntry "data" 8]

/-- The two sections of a parse of that flash. -/
theorem exists_romFlash_sections (startAlign : Int)
    (hkinds : (finalState (parseContent Host.noFiles true)
      (romFlash startAlign)).sections.entries.map
      (fun p => (p.1, p.2.kind)) = [("rom", .rom), ("data", .raw)]) :
    ∃ t next, (finalState (parseContent Host.noFiles true)
        (romFlash startAlign)).sections.entries = [("rom", .rom t), ("data", next)] ∧
      next.kind = .raw := by
  generalize (finalState (parseContent Host.noFiles true)
    (romFlash startAlign)).sections.entries = entries at hkinds ⊢
  obtain ⟨p, rest, rfl, hp, hrest⟩ := List.map_eq_cons_iff.mp hkinds
  obtain ⟨q, rest, rfl, hq, hrest⟩ := List.map_eq_cons_iff.mp hrest
  obtain rfl := List.map_eq_nil_iff.mp hrest
  obtain ⟨t, ht⟩ := Section.exists_rom (congrArg Prod.snd hp)
  refine ⟨t, q.2, ?_, congrArg Prod.snd hq⟩
  rw [← ht, ← show p.1 = "rom" from congrArg Prod.fst hp,
    ← show q.1 = "data" from congrArg Prod.fst hq]

/-- On boundaries of 4 bytes the header of the ROM leads to the raw section. -/
theorem romFindsNext_iff_raw : ∃ f' t next,
    Returns (parseContent Host.noFiles true) (romFlash 4) () f' ∧
      f'.sections.entries = [("rom", .rom t), ("data", next)] ∧
      RomFlashSection.FindsNext t next := by
  have hparse : Returns (parseContent Host.noFiles true) (romFlash 4) () _ :=
    returns_of_returned? (by decide +kernel)
  obtain ⟨t, next, hentries, -⟩ := exists_romFlash_sections 4
    (by decide +kernel)
  refine ⟨_, t, next, hparse, hentries, ?_⟩
  exact (romFindsNext_iff ⟨rfl, rfl, rfl⟩ hparse (i := 0) (by rw [hentries]; rfl)
    (by rw [hentries]; rfl)).1.mpr ⟨_, _, _, rfl, rfl, rfl, rfl⟩

/-- On boundaries of 16 bytes it leads into the padding between them. -/
theorem not_romFindsNext : ¬ ∀ (host : Host) (f f' : Flash) (i : Nat) (rom name : String)
    (t : FlashSection RomAttrs) (next : Section), f.Fresh → f.DistinctNames →
    Returns (parseContent host true) f () f' →
    f'.sections.entries[i]? = some (rom, .rom t) →
    f'.sections.entries[i + 1]? = some (name, next) → RomFlashSection.FindsNext t next := by
  intro h
  have hparse : Returns (parseContent Host.noFiles true) (romFlash 16) () _ :=
    returns_of_returned? (by decide +kernel)
  obtain ⟨t, next, hentries, -⟩ := exists_romFlash_sections 16
    (by decide +kernel)
  obtain ⟨size, hsize, hleads⟩ := h _ _ _ 0 "rom" "data" t next ⟨rfl, rfl, rfl⟩ (by decide) hparse
    (by rw [hentries]; rfl) (by rw [hentries]; rfl)
  have hvalues : (finalState (parseContent Host.noFiles true)
      (romFlash 16)).sections.entries.map (fun p => (match p.2 with
        | .rom t => RomFlashSection.romHeaderSize t
        | _ => none, p.2.offset)) = [(some (.int 4), 0), (none, 16)] := by decide +kernel
  rw [hentries, List.map_cons, List.map_cons, List.map_nil, List.cons.injEq, List.cons.injEq,
    Prod.mk.injEq, Prod.mk.injEq] at hvalues
  obtain ⟨⟨hstored, hromOffset⟩, ⟨-, hnextOffset⟩, -⟩ := hvalues
  have hromOffset : t.offset = 0 := hromOffset
  cases hsize.symm.trans hstored
  rw [hnextOffset, hromOffset] at hleads
  exact absurd hleads (by decide)

end Flash

end SoftHier.Gapy
