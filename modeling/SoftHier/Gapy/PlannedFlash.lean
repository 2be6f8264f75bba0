/-
  Gapy/PlannedFlash.lean --- a parse does what the plan says.

  The loops of `__parse_content` against the plan: creating the sections, applying
  the command line, placing the sections one after the other and finalizing them.
  Between the loops every section lies where the last entry of its name put it.
-/
import SoftHier.Gapy.PlannedSections

set_option autoImplicit false

namespace SoftHier.Gapy

open SoftHier.Foundation Program

namespace Flash

variable {host : Host} {f u : Flash} {entries : List PlanEntry}
  {owners : Dict String (SectionTemplate × Nat)} {steps : List PlanStep}

/-! ## Creating the sections -/

/-- The sections are new, each of its class and with its number. -/
structure NewSections (owners : Dict String (SectionTemplate × Nat))
    (sections : Dict String Section) : Prop where
  keys : sections.keys = owners.keys
  get : ∀ name, sections.get name = (owners.get name).map fun owner => owner.1.new name owner.2

theorem newSections_empty : NewSections Dict.empty Dict.empty := ⟨rfl, fun _ => rfl⟩

/-- One more section, or another one under its name. -/
theorem NewSections.set {sections : Dict String Section} (h : NewSections owners sections)
    (name : String) (template : SectionTemplate) :
    NewSections (owners.set name (template, owners.length))
      (sections.set name (template.new name sections.length)) := by
  have hlen : sections.length = owners.length := by
    rw [← Dict.length_keys, h.keys, Dict.length_keys]
  refine ⟨?_, fun name' => ?_⟩
  · rw [Dict.keys_set, Dict.keys_set, h.keys]
  · rw [Dict.get_set, Dict.get_set]
    by_cases heq : name = name'
    · rw [if_pos heq, if_pos heq, Option.map_some, hlen, heq]
    · rw [if_neg heq, if_neg heq, h.get]

theorem refines_createSection {c : ContentSection}
    (hsections : NewSections (PlanEntry.owners entries) u.sections) :
    Refines (createSection host c) u (fun e _ u' =>
        u' = { u with sections := u'.sections } ∧
        NewSections (PlanEntry.owners (entries ++ [e])) u'.sections ∧
        e.content = c ∧ c.name = some e.name)
      (PlanEntry.ofContent host u.sectionsTemplates c) := by
  unfold createSection PlanEntry.ofContent
  cases hname : c.name with
  | none => exact .throw _
  | some name =>
    dsimp only
    cases c.template with
    | none => exact .throw _
    | some templateName =>
      dsimp only
      refine .get_bind ?_
      cases u.sectionsTemplates.get templateName with
      | none => exact .throw _
      | some template =>
        refine .returns (a := ()) (returns_set.mpr rfl) ⟨rfl, ?_, rfl, rfl⟩
        rw [PlanEntry.owners_concat]
        exact hsections.set name template

/-- A flash in the middle of a parse: it has new sections, and its content are some
entries that share them. -/
structure Held (f u : Flash) (owners : Dict String (SectionTemplate × Nat))
    (entries : List PlanEntry) : Prop where
  frame : u = { f with
    sections := u.sections, contentDict := u.contentDict, contentParsed := u.contentParsed }
  sections : NewSections owners u.sections
  contents : u.contentSections = entries.map PlanEntry.content
  names : ∀ e ∈ entries, e.content.name = some e.name
  owned : ∀ e ∈ entries, e.Owned owners

/-- The first loop creates the sections of the entries. -/
theorem refines_createSections (hempty : u.sections = Dict.empty)
    (hframe : u = { f with
      sections := u.sections, contentDict := u.contentDict, contentParsed := u.contentParsed }) :
    Refines (forEach (createSection host) u.contentSections) u (fun entries _ u' =>
      Held f u' (PlanEntry.owners entries) (PlanEntry.share entries))
      (u.contentSections.mapM (PlanEntry.ofContent host u.sectionsTemplates)) := by
  have hloop : Refines (forEach (createSection host) u.contentSections) u _ _ :=
    Refines.forEach_mapM (I := fun done entries v =>
      v = { u with sections := v.sections } ∧
      NewSections (PlanEntry.owners entries) v.sections ∧
      done = entries.map PlanEntry.content ∧ ∀ e ∈ entries, e.content.name = some e.name)
    (g := PlanEntry.ofContent host u.sectionsTemplates) ?_
    ⟨rfl, hempty ▸ newSections_empty, rfl, fun _ h => absurd h List.not_mem_nil⟩
  · refine hloop.weaken ?_
    rintro entries _ u' _ _ ⟨hu', hsections, hcontents, hnamed⟩
    refine ⟨?_, hsections, ?_, fun e he => ?_, fun e he => PlanEntry.owned_of_mem_share he⟩
    · rw [hu', hframe]
    · rw [PlanEntry.map_content_share, hu']
      exact hcontents
    · obtain ⟨e', he', rfl⟩ := List.mem_map.mp he
      rw [PlanEntry.content_owned, PlanEntry.name_owned]
      exact hnamed e' he'
  · rintro done c rest entries v hsplit ⟨hv, hsections, hdone, hnamed⟩
    have htemplates : v.sectionsTemplates = u.sectionsTemplates := by rw [hv]
    rw [← htemplates]
    refine (refines_createSection hsections).weaken ?_
    rintro e _ s' _ _ ⟨hs', hsections', hcontent, hname⟩
    refine ⟨?_, hsections', ?_, ?_⟩
    · rw [hs', hv]
    · rw [List.map_append, hdone, List.map_singleton, hcontent]
    · intro e' he'
      rcases List.mem_append.mp he' with he' | he'
      · exact hnamed e' he'
      · rw [List.mem_singleton.mp he', hcontent]
        exact hname

/-! ## The command line -/

/-- The flash holds the entries with the first of a name replaced. -/
structure Replaced (f u : Flash) (owners : Dict String (SectionTemplate × Nat))
    (entries : List PlanEntry) (e changed : PlanEntry) : Prop where
  name : changed.name = e.name
  held : Held f u owners (PlanEntry.replace e.name changed entries)

theorem refines_overwriteOne {e changed : PlanEntry}
    (hfirst : (entries.find? fun e' => e'.name = e.name) = some e)
    (h : Replaced f u owners entries e changed) (property : String × String) :
    Refines (overwriteOne e.name property) u
      (fun changed' _ u' => Replaced f u' owners entries e changed')
      (changed.withProperty property) := by
  have hfound := PlanEntry.find?_replace h.name hfirst
  have hmem : changed ∈ PlanEntry.replace e.name changed entries := List.mem_of_find?_eq_some hfound
  have hfind : (u.contentSections.find? fun c => c.name = some e.name) = some changed.content := by
    rw [h.held.contents, PlanEntry.find?_contents h.held.names, hfound]
    rfl
  obtain ⟨id, hget, hlater⟩ := h.held.owned changed hmem
  rw [h.name] at hget
  have hsection : u.sections.get e.name = some (changed.template.new e.name id) := by
    rw [h.held.sections.get, hget]
    rfl
  unfold overwriteOne PlanEntry.withProperty
  refine .get_bind ?_
  rw [hfind]
  refine .step (a := changed.template.new e.name id)
    (returns_reading.mpr ⟨by rw [hsection], rfl⟩) ?_
  rw [SectionTemplate.properties_new]
  refine .eval fun properties _ => ?_
  refine .returns (a := ()) (returns_set.mpr rfl) ⟨h.name, ?_, h.held.sections, ?_, ?_, ?_⟩
  · rw [h.held.frame]
  · have hcontent : ({ changed with content :=
        { changed.content with properties := some properties } } : PlanEntry).content =
          { changed.content with properties := some properties } := rfl
    change updateFirst _ (fun c => { c with properties := some properties }) _ = _
    rw [h.held.contents, PlanEntry.updateFirst_contents h.held.names hfound hcontent,
      PlanEntry.replace_replace h.name]
  · intro e' he'
    rw [← PlanEntry.replace_replace h.name] at he'
    rcases PlanEntry.mem_replace he' with rfl | hentry
    · exact h.held.names changed hmem
    · exact h.held.names e' hentry
  · intro e' he'
    rw [← PlanEntry.replace_replace h.name] at he'
    rcases PlanEntry.mem_replace he' with rfl | hentry
    · exact h.held.owned changed hmem
    · exact h.held.owned e' hentry

theorem refines_overwriteSectionProperties (h : Held f u owners entries)
    (p : String × List (String × String)) :
    Refines (overwriteSectionProperties p) u (fun entries' _ u' => Held f u' owners entries')
      (PlanEntry.overwrite entries p) := by
  unfold overwriteSectionProperties PlanEntry.overwrite
  refine .get_bind ?_
  rw [h.contents, PlanEntry.find?_contents h.names]
  cases hfind : entries.find? fun e => e.name = p.1 with
  | none => exact .throw _
  | some e =>
    have hname : e.name = p.1 := by simpa using List.find?_some hfind
    rw [← hname] at hfind
    have hinit : Replaced f u owners entries e e := by
      refine ⟨rfl, ?_⟩
      rw [PlanEntry.replace_self hfind]
      exact h
    have hloop : Refines (forEach (overwriteOne e.name) p.2) u _ _ :=
      Refines.forEach_foldlM (I := fun changed v => Replaced f v owners entries e changed)
        (fun property _ changed v hv => refines_overwriteOne hfind hv property) hinit
    rw [← hname]
    exact hloop.map fun changed _ _ hchanged => hchanged.held

/-- The command line changes the entries as the plan does. -/
theorem refines_handleSectionProperties (h : Held f u owners entries) :
    Refines handleSectionProperties u (fun entries' _ u' => Held f u' owners entries')
      (f.properties.foldlM PlanEntry.overwrite entries) := by
  have hproperties : u.properties = f.properties := by rw [h.frame]
  unfold handleSectionProperties
  refine .get_bind ?_
  rw [hproperties]
  exact Refines.forEach_foldlM (I := fun entries v => Held f v owners entries)
    (fun p _ _ _ hv => refines_overwriteSectionProperties hv p) h

/-! ## Placing the sections -/

/-- A flash once some steps are taken: every section was given the contents of the
steps of its name, and lies where the last of them put it. -/
structure Stepped (host : Host) (f u : Flash) (owners : Dict String (SectionTemplate × Nat))
    (steps : List PlanStep) : Prop where
  frame : u = { f with
    sections := u.sections, contentDict := u.contentDict, contentParsed := u.contentParsed }
  keys : u.sections.keys = owners.keys
  reached : ∀ p ∈ steps, p.entry.name ∈ owners.keys
  given : ∀ name owner, owners.get name = some owner → ∃ s, u.sections.get name = some s ∧
    s.Given host owners.length name owner
      (PlanEntry.contentsOf name (steps.map PlanStep.entry)) ∧
    s.Lies name owner ((PlanStep.last steps).get name)

theorem Held.stepped (h : Held f u owners entries) (host : Host) : Stepped host f u owners [] := by
  refine ⟨h.frame, h.sections.keys, fun _ hp => absurd hp List.not_mem_nil, fun name owner hget => ?_⟩
  refine ⟨owner.1.new name owner.2, ?_, Section.given_new host owners.length name owner, rfl⟩
  rw [h.sections.get, hget]
  rfl

theorem refines_onSection {β : Type} {name : String} {p : Program PyError Section Unit}
    {s : Section} (hs : u.sections.get name = some s) {Q : β → Unit → Section → Prop}
    {x : Except PyError β} (h : Refines p s Q x) :
    Refines (onSection name p) u (fun b _ u' => ∃ s', Q b () s' ∧ Returns p s () s' ∧
      u' = { u with sections := u.sections.set name s' }) x := by
  cases h with
  | @returns b a s' run related =>
    have hreturns : Returns (onSection name p) u ()
        { u with sections := u.sections.set name s' } := by
      unfold Returns onSection at *
      simp only [hs, run]
    exact .returns hreturns ⟨s', related, run, rfl⟩
  | @raises error s' run =>
    have hraises : Raises (onSection name p) u error
        { u with sections := u.sections.set name s' } := by
      unfold Raises onSection at *
      simp only [hs, run]
    exact .raises hraises

/-- The start and the size of the section of one entry. -/
theorem refines_placeSection (h : Stepped host f u owners steps) {e : PlanEntry}
    (hname : e.content.name = some e.name) (howned : e.Owned owners)
    (hearlier : e.earlier = PlanEntry.contentsOf e.name (steps.map PlanStep.entry))
    (offset : Int) :
    Refines (placeSection host offset e.content) u (fun size next u' =>
        next = placedOffset f.flashAttributes e.template offset + size ∧
        Stepped host f u' owners
          (steps ++ [⟨e, offset, placedOffset f.flashAttributes e.template offset, size⟩]))
      (e.demand host f.context (placedOffset f.flashAttributes e.template offset) >>=
        reportedSize (f.flashAttributes.get "section_start_align")
          (f.flashAttributes.get "section_size_align") (e.value "size")) := by
  obtain ⟨id, howner, hlater⟩ := howned
  obtain ⟨s, hs, hgiven, -⟩ := h.given e.name _ howner
  rw [← hearlier] at hgiven
  have hattributes : u.flashAttributes = f.flashAttributes := by rw [h.frame]
  have hdemand : ∀ start, e.demand host u.context start = e.demand host f.context start := by
    intro start
    rw [h.frame]
    rfl
  have halign : Returns (onSection e.name fun s => .ok () (s.setAlignments
      (f.flashAttributes.get "section_start_align") (f.flashAttributes.get "section_size_align")))
      u () { u with sections := u.sections.set e.name (s.setAlignments
        (f.flashAttributes.get "section_start_align")
        (f.flashAttributes.get "section_size_align")) } := by
    unfold Returns onSection
    simp only [hs]
  obtain ⟨hsizeAlign, hstartAlign⟩ := setAlignments_aligns
    (f.flashAttributes.get "section_start_align") (f.flashAttributes.get "section_size_align") s
  have hcount : u.context.sectionNames.length = owners.length := by
    change u.sections.keys.length = _
    rw [h.keys, Dict.length_keys]
  obtain ⟨x, hcontent, hx⟩ := Section.refines_setContent host u.context
    (hgiven.setAlignments (f.flashAttributes.get "section_start_align")
      (f.flashAttributes.get "section_size_align"))
    hcount hlater (by rw [hstartAlign]; exact congrArg (fun d => Dict.get d _) hattributes.symm)
    offset
  rw [hsizeAlign, hstartAlign] at hcontent hx
  have hcontext : u.context.attributes = f.flashAttributes := hattributes
  rw [hdemand, hcontext] at hx
  rw [hcontext] at hcontent
  rw [← hx]
  unfold placeSection entryKey
  rw [hname]
  refine .step (returns_pure.mpr ⟨rfl, rfl⟩) (.get_bind ?_)
  dsimp only
  rw [hattributes]
  refine .step halign ?_
  refine (refines_onSection (Dict.get_set_self _ _ _) hcontent).bind ?_
  rintro allocated _ _ ⟨s', ⟨hgiven', hoffset, hsize, hheader⟩, -, rfl⟩
  rw [Dict.set_set]
  refine .step (a := s') (returns_reading.mpr ⟨by rw [Dict.get_set_self], rfl⟩) ?_
  rw [← hsize]
  refine .eval_last fun size hreported => .pure ⟨by rw [hoffset], ?_, ?_, fun p hp => ?_,
    fun name owner hget => ?_⟩
  · rw [h.frame]
  · rw [Dict.keys_set_of_mem _ (Dict.mem_keys_iff.mpr ⟨s, hs⟩), h.keys]
  · rcases List.mem_append.mp hp with hp | hp
    · exact h.reached p hp
    · rw [List.mem_singleton.mp hp]
      exact Dict.mem_keys_iff.mpr ⟨_, howner⟩
  · rw [List.map_append, List.map_singleton, PlanEntry.contentsOf_concat, PlanStep.last_concat,
      Dict.get_set, Dict.get_set]
    by_cases heq : e.name = name
    · subst heq
      obtain rfl := Option.some.inj (howner.symm.trans hget)
      rw [if_pos rfl, if_pos rfl, if_pos rfl, ← hearlier]
      exact ⟨s', rfl, hgiven', ⟨hgiven'.name, hgiven'.kind, hoffset, hreported⟩,
        hgiven'.valued.getProperty (FlashSection.declared_size e.template), hheader⟩
    · rw [if_neg heq, if_neg heq, if_neg heq, List.append_nil]
      exact h.given name owner hget

/-- The placement loop follows the plan. -/
theorem refines_placeSections {checkOverflow : Bool} :
    ∀ {entries : List PlanEntry} {u : Flash} {steps : List PlanStep} {offset : Int},
      Stepped host f u owners steps → (∀ e ∈ entries, e.content.name = some e.name) →
      (∀ e ∈ entries, e.Owned owners) →
      Refines (placeSections host checkOverflow offset (entries.map PlanEntry.content)) u
        (fun further _ u' => Stepped host f u' owners (steps ++ further))
        (f.planFrom host checkOverflow offset
          (PlanEntry.follow (steps.map PlanStep.entry) entries)) := by
  intro entries
  induction entries with
  | nil =>
    intro u steps offset h _ _
    exact .pure (by rw [List.append_nil]; exact h)
  | cons e entries ih =>
    intro u steps offset h hnames howned
    have hone : Refines (placeSection host offset e.content) u _ _ := refines_placeSection h
      (e := { e with earlier := PlanEntry.contentsOf e.name (steps.map PlanStep.entry) })
      (hnames e List.mem_cons_self) (howned e List.mem_cons_self) rfl offset
    rw [List.map_cons]
    unfold placeSections PlanEntry.follow planFrom
    dsimp only at hone ⊢
    rw [← bind_assoc]
    refine hone.bind ?_
    rintro size next u' ⟨rfl, hstepped⟩
    have hsize : u'.size = f.size := by rw [hstepped.frame]
    have hmessage : ∀ next, overflowMessage e.name u' next = overflowMessage e.name f next := by
      intro next
      rw [hstepped.frame]
      rfl
    refine .get_bind ?_
    rw [hsize, hnames e List.mem_cons_self, Option.getD_some, hmessage]
    by_cases hover : placedOffset f.flashAttributes e.template offset + size > f.size
    · rw [if_pos hover, if_pos hover]
      cases checkOverflow with
      | true => exact .throw _
      | false => exact .pure hstepped
    · rw [if_neg hover, if_neg hover]
      have hrest := @ih _ _ (placedOffset f.flashAttributes e.template offset + size) hstepped
        (fun e' he' => hnames e' (List.mem_cons_of_mem e he'))
        fun e' he' => howned e' (List.mem_cons_of_mem e he')
      rw [List.map_append, List.map_singleton] at hrest
      refine hrest.map fun further _ u'' hfurther => ?_
      rw [List.append_assoc] at hfurther
      exact hfurther

/-! ## Finalizing the sections -/

/-- Finalizing moves no section. -/
theorem refines_finalizeSection (h : Stepped host f u owners steps) {e : PlanEntry}
    (hname : e.content.name = some e.name) (howned : e.Owned owners) :
    Refines (finalizeSection e.content) u (fun _ _ u' => Stepped host f u' owners steps)
      (checkTable steps e) := by
  obtain ⟨id, howner, hlater⟩ := howned
  obtain ⟨s, hs, hgiven, hlies⟩ := h.given e.name _ howner
  have hviews : (u.sections.values.map Section.view).length = owners.length := by
    rw [List.length_map, Dict.length_values, ← Dict.length_keys, h.keys, Dict.length_keys]
  have hsizes : ∀ v ∈ u.sections.values.map Section.view, ∃ size, v.size = .ok size := by
    intro v hv
    obtain ⟨t, ht, rfl⟩ := List.mem_map.mp hv
    obtain ⟨name, hget⟩ := Dict.exists_get_of_mem_values ht
    have hmem : name ∈ owners.keys := h.keys ▸ Dict.mem_keys_iff.mpr ⟨t, hget⟩
    obtain ⟨owner, hother⟩ := Dict.mem_keys_iff.mp hmem
    obtain ⟨t', hget', -, hlies'⟩ := h.given name owner hother
    obtain rfl := Option.some.inj (hget.symm.trans hget')
    exact hlies'.exists_size
  have hone := Section.refines_finalize hgiven hlies (fun hlast => by
    rw [← PlanStep.countP_name]
    exact PlanStep.countP_of_get_last hlast) hviews hsizes
  rw [← PlanStep.countP_name, ← hlater] at hone
  unfold finalizeSection entryKey
  rw [hname]
  refine .step (returns_pure.mpr ⟨rfl, rfl⟩) (.get_bind ?_)
  refine (refines_onSection hs hone).weaken ?_
  rintro _ _ _ _ _ ⟨s', ⟨hgiven', hlies'⟩, -, rfl⟩
  refine ⟨by rw [h.frame], ?_, h.reached, fun name owner hget => ?_⟩
  · rw [Dict.keys_set_of_mem _ (Dict.mem_keys_iff.mpr ⟨s, hs⟩), h.keys]
  · rw [Dict.get_set]
    by_cases heq : e.name = name
    · subst heq
      obtain rfl := Option.some.inj (howner.symm.trans hget)
      rw [if_pos rfl]
      exact ⟨s', rfl, hgiven', hlies'⟩
    · rw [if_neg heq]
      exact h.given name owner hget

theorem refines_finalizeSections (h : Stepped host f u owners steps)
    (hnames : ∀ e ∈ entries, e.content.name = some e.name)
    (howned : ∀ e ∈ entries, e.Owned owners) :
    Refines (forEach finalizeSection (entries.map PlanEntry.content)) u
      (fun _ _ u' => Stepped host f u' owners steps) (entries.mapM (checkTable steps)) := by
  induction entries generalizing u with
  | nil => exact .pure h
  | cons e entries ih =>
    have hone := refines_finalizeSection h (hnames e List.mem_cons_self)
      (howned e List.mem_cons_self)
    rw [List.map_cons, List.mapM_cons]
    refine hone.bind fun _ _ u' hu' => ?_
    exact (ih hu' (fun e' he' => hnames e' (List.mem_cons_of_mem e he'))
      fun e' he' => howned e' (List.mem_cons_of_mem e he')).map fun _ _ _ h => h

/-! ## A whole parse -/

/-- A flash whose content was parsed: its sections are those of the entries, and every
one of them lies where the last step of its name put it. -/
def FollowsPlan (host : Host) (f f' : Flash) (steps : List PlanStep) : Prop :=
  ∃ entries, f.contentSections.mapM (PlanEntry.ofContent host f.sectionsTemplates) = .ok entries ∧
    Stepped host f f' (PlanEntry.owners entries) steps

/-- A parse takes the steps of the plan, whether it checks for an overflow or not. -/
theorem refines_parseContent (hfresh : f.Fresh) (checkOverflow : Bool) :
    Refines (parseContent host checkOverflow) f (fun steps _ f' => FollowsPlan host f f' steps)
      (f.planSteps host checkOverflow) := by
  unfold parseContent planSteps
  refine .get_bind ?_
  have hgoes : ¬ (f.contentParsed = true ∨ f.contentDict.isNone = true) := by
    rw [hfresh.contentParsed, hfresh.contentDict]
    decide
  rw [if_neg hgoes]
  refine .step (a := ()) (returns_set.mpr rfl) ?_
  refine ((refines_createSections (f := f) (u := { f with contentParsed := true }) hfresh.sections
    rfl).weaken fun _ _ _ hentries _ hu => And.intro hentries hu).bind ?_
  rintro entries _ u ⟨hentries, hu⟩
  refine (refines_handleSectionProperties hu).bind ?_
  rintro entries' _ u' hu'
  refine .get_bind ?_
  rw [hu'.contents]
  refine (refines_placeSections (hu'.stepped host) hu'.names hu'.owned).bind ?_
  rintro steps _ u'' hu''
  rw [List.nil_append] at hu''
  refine (refines_finalizeSections hu'' hu'.names hu'.owned).map fun _ _ f' hf' => ?_
  exact ⟨entries, hentries, hf'⟩

/-- Whoever has a last step is as it left it. -/
theorem FollowsPlan.exists_laidBy {f' : Flash} (h : FollowsPlan host f f' steps) {name : String}
    {p : PlanStep} (hlast : (PlanStep.last steps).get name = some p) :
    ∃ s, f'.sections.get name = some s ∧ s.LaidBy p := by
  obtain ⟨entries, -, hstepped⟩ := h
  obtain ⟨hp, rfl⟩ := PlanStep.mem_of_get_last hlast
  obtain ⟨owner, howner⟩ := Dict.mem_keys_iff.mp (hstepped.reached p hp)
  obtain ⟨s, hs, -, hlies⟩ := hstepped.given p.entry.name owner howner
  rw [hlast] at hlies
  exact ⟨s, hs, hlies⟩

/-- A section is as its last step left it, or was never reached. -/
theorem FollowsPlan.laidBy_or_untouched {f' : Flash} (h : FollowsPlan host f f' steps) {name : String}
    {s : Section} (hs : f'.sections.get name = some s) :
    Untouched s ∨ ∃ p, (PlanStep.last steps).get name = some p ∧ s.LaidBy p := by
  obtain ⟨entries, -, hstepped⟩ := h
  obtain ⟨owner, howner⟩ :=
    Dict.mem_keys_iff.mp (hstepped.keys ▸ Dict.mem_keys_iff.mpr ⟨s, hs⟩ :
      name ∈ (PlanEntry.owners entries).keys)
  obtain ⟨s', hs', -, hlies⟩ := hstepped.given name owner howner
  obtain rfl := Option.some.inj (hs.symm.trans hs')
  cases hlast : (PlanStep.last steps).get name with
  | none =>
    rw [hlast] at hlies
    exact .inl ⟨owner.1, name, owner.2, hlies⟩
  | some p =>
    rw [hlast] at hlies
    exact .inr ⟨p, rfl, hlies⟩

theorem FollowsPlan.frame {f' : Flash} (h : FollowsPlan host f f' steps) :
    f'.flashAttributes = f.flashAttributes ∧ f'.size = f.size := by
  obtain ⟨entries, -, hstepped⟩ := h
  constructor
  · rw [hstepped.frame]
  · rw [hstepped.frame]

/-- With the check every section is reached, in the order of the plan. -/
theorem FollowsPlan.keys_last {f' : Flash} (h : FollowsPlan host f f' steps)
    (hsteps : f.planSteps host true = .ok steps) :
    f'.sections.keys = (PlanStep.last steps).keys := by
  obtain ⟨entries, hentries, hstepped⟩ := h
  have hempty : (Dict.empty : Dict String (SectionTemplate × Nat)).keys =
      (Dict.empty : Dict String PlanStep).keys := rfl
  rw [hstepped.keys]
  exact Dict.keys_foldl_set (fun d e => (e.template, d.length)) (fun _ p => p)
    (map_name_planSteps hentries hsteps).symm hempty

theorem FollowsPlan.exists_last {f' : Flash} (h : FollowsPlan host f f' steps)
    (hsteps : f.planSteps host true = .ok steps) {name : String} {s : Section}
    (hs : f'.sections.get name = some s) :
    ∃ p, (PlanStep.last steps).get name = some p ∧ s.LaidBy p := by
  obtain ⟨p, hp⟩ := Dict.mem_keys_iff.mp (h.keys_last hsteps ▸ Dict.mem_keys_iff.mpr ⟨s, hs⟩ :
    name ∈ (PlanStep.last steps).keys)
  obtain ⟨s', hs', hlaid⟩ := h.exists_laidBy hp
  obtain rfl := Option.some.inj (hs.symm.trans hs')
  exact ⟨p, hp, hlaid⟩

/-- With the check every section lies where the plan says. -/
theorem FollowsPlan.at_plan {f' : Flash} (h : FollowsPlan host f f' steps)
    (hsteps : f.planSteps host true = .ok steps) :
    List.Forall₂ Section.At f'.sections.values
      ((PlanStep.last steps).values.map PlanStep.planned) := by
  rw [List.forall₂_map_right_iff]
  refine Dict.forall₂_values (h.keys_last hsteps) fun name s p hs hp => ?_
  obtain ⟨p', hp', hlaid⟩ := h.exists_last hsteps hs
  obtain rfl := Option.some.inj (hp.symm.trans hp')
  exact hlaid.at_plan

/-- With distinct names the sections are those of the steps. -/
theorem FollowsPlan.at_steps {f' : Flash} (h : FollowsPlan host f f' steps) (hnames : f.DistinctNames)
    (hsteps : f.planSteps host true = .ok steps) :
    List.Forall₂ Section.At f'.sections.values (steps.map PlanStep.planned) := by
  have hvalues : (PlanStep.last steps).values = steps := by
    rw [Dict.values, entries_last_of_distinct hnames hsteps, List.map_map]
    exact List.map_id steps
  have hat := h.at_plan hsteps
  rw [hvalues] at hat
  exact hat

theorem refines_plan (hfresh : f.Fresh) :
    Refines (parseContent host true) f
      (fun plan _ f' => List.Forall₂ Section.At f'.sections.values plan) (f.plan host) := by
  unfold plan
  exact ((refines_parseContent hfresh true).weaken fun steps _ f' hsteps _ hf' =>
    hf'.at_plan hsteps).map fun _ _ _ h => h

theorem unique_plan {ss : List Section} {plan plan' : List PlannedSection}
    (h : List.Forall₂ Section.At ss plan) (h' : List.Forall₂ Section.At ss plan') :
    plan = plan' := by
  induction h generalizing plan' with
  | nil =>
    cases h'
    rfl
  | cons hat _ ih =>
    cases h' with
    | cons hat' hrest => rw [hat.unique hat', ih hrest]

/-- The parse of a new flash is its plan: it returns exactly when the content has a plan,
with every section where the plan puts it, and raises exactly the error the plan has. -/
theorem parseContent_iff_plan (hfresh : f.Fresh) :
    (∀ plan, (∃ f', Returns (parseContent host true) f () f' ∧
      List.Forall₂ Section.At f'.sections.values plan) ↔ f.plan host = .ok plan) ∧
    ∀ e, (∃ f', Raises (parseContent host true) f e f') ↔ f.plan host = .error e := by
  have hrefines : Refines (parseContent host true) f _ (f.plan host) := refines_plan hfresh
  refine ⟨fun plan => ?_, fun e => hrefines.raises_iff⟩
  rw [← hrefines.returns_iff fun _ _ _ _ => unique_plan]
  exact ⟨fun ⟨f', run, hat⟩ => ⟨(), f', run, hat⟩, fun ⟨_, f', run, hat⟩ => ⟨f', run, hat⟩⟩

/-- A raw section of eight bytes and one that takes the rest behind the alignment; a
third one of sixteen bytes does not fit any more, even under the name of the first. -/
theorem parseContent_iff_plan_raw :
    (∃ f', Returns (parseContent Host.noFiles true)
        (Flash.ofContent 64 (Dict.empty.set "section_start_align" 16)
          [rawEntry "a" 8, rawEntry "b" (-1)]) () f' ∧
      List.Forall₂ Section.At f'.sections.values [⟨"a", .raw, 0, 8⟩, ⟨"b", .raw, 16, 48⟩]) ∧
    ∃ f', Raises (parseContent Host.noFiles true)
      (Flash.ofContent 64 (Dict.empty.set "section_start_align" 16)
        [rawEntry "a" 8, rawEntry "b" (-1), rawEntry "a" 16])
      (.runtimeError ("Section \"a\" overflowed flash \"flash\", flash size is 0x40," ++
        " current content size is 0x50.")) f' :=
  ⟨((parseContent_iff_plan ⟨rfl, rfl, rfl⟩).1 _).mpr rfl,
    ((parseContent_iff_plan ⟨rfl, rfl, rfl⟩).2 _).mpr rfl⟩

end Flash

end SoftHier.Gapy
