/-
  Gapy/ImageSoundness.lean --- images of laid out contents.

  An image is sound when every section went through `set_content` with all its
  entries and through `finalize`, and all of it fits in the flash.  A content with
  a plan gives sound images only, whatever was called before.  A content that is
  laid out by `dump_layout` and overflows gives none.
-/
import SoftHier.Gapy.PlannedFlash

set_option autoImplicit false

namespace SoftHier.Gapy

open SoftHier.Foundation Program

/-! ## What becomes of a section -/

/-- An entry of the content for a section, as the placement loop takes it: the alignments
of the flash, then `set_content`. -/
def Section.place (host : Host) (flash : FlashContext) (p : Int × ContentSection) :
    Program PyError Section Unit := fun s =>
  Section.setContent host flash p.1 p.2
    (s.setAlignments (flash.attributes.get "section_start_align")
      (flash.attributes.get "section_size_align"))

namespace Flash

variable {host : Host} {f f' : Flash}

/-- The entries of a content with a name. -/
def entriesOf (name : String) (cs : List ContentSection) : List ContentSection :=
  cs.filter fun c => c.name = some name

theorem entriesOf_cons_self {c : ContentSection} {name : String} (h : c.name = some name)
    (cs : List ContentSection) : entriesOf name (c :: cs) = c :: entriesOf name cs := by
  unfold entriesOf
  rw [List.filter_cons_of_pos (by simpa using h)]

theorem entriesOf_cons_of_ne {c : ContentSection} {n name : String} (h : c.name = some n)
    (hne : n ≠ name) (cs : List ContentSection) :
    entriesOf name (c :: cs) = entriesOf name cs := by
  unfold entriesOf
  rw [List.filter_cons_of_neg (by simpa [h] using hne)]

/-- A section was made new, was given every entry of its name, in their order, and was
finalized as often as there are such entries. -/
def Handled (host : Host) (f : Flash) (name : String) (s : Section) : Prop :=
  ∃ new placed placings views, Untouched new ∧ placings ≠ [] ∧
    placings.map Prod.snd = entriesOf name f.contentSections ∧
    Returns (forEach (Section.place host f.context) placings) new () placed ∧
    views.length = placings.length ∧ Returns (forEach Section.finalize views) placed () s

/-- An image of a flash that is what it should be: every section of the content
was placed and finalized, every section ends within the flash, and so does the
image. -/
structure ImageSound (host : Host) (f f' : Flash) (image : Bytes) : Prop where
  found : ∀ c ∈ f'.contentSections, ∃ name s, c.name = some name ∧ f'.sections.get name = some s
  handled : ∀ name s, f'.sections.get name = some s → Handled host f' name s
  within : ∀ s ∈ f'.sections.values, EndsWithin f.size s
  fits : image.length ≤ f.size

/-- The placement loop gives every section the entries of its name. -/
theorem placings_of_placeSections {cs : List ContentSection} :
    ∀ {f f' : Flash} {offset : Int} {p : Placement},
      Returns (placeSections host true offset cs) f p f' → ∀ name s',
        f'.sections.get name = some s' → ∃ s placings, f.sections.get name = some s ∧
          placings.map Prod.snd = entriesOf name cs ∧
          Returns (forEach (Section.place host f.context) placings) s () s' := by
  induction cs with
  | nil =>
    intro f f' offset p h name s' hs'
    obtain ⟨-, rfl⟩ := returns_pure.mp h
    exact ⟨s', [], hs', rfl, returns_forEach_nil.mpr rfl⟩
  | cons c cs ih =>
    intro f f' offset p h name s' hs'
    obtain ⟨next, f₁, hplace, -, hrest⟩ := placeSections_cons_inv h
    obtain ⟨n, s, t, size, hname, hs, hset, -, -, rfl⟩ := placeSection_inv hplace
    obtain ⟨u, placings, hu, hentries, hplacings⟩ := ih hrest name s' hs'
    have hcontext : ({ f with sections := f.sections.set n t } : Flash).context = f.context := by
      simp only [context, Dict.keys_set_of_mem t (Dict.mem_keys_iff.mpr ⟨s, hs⟩)]
    rw [hcontext] at hplacings
    have hu : (f.sections.set n t).get name = some u := hu
    rw [Dict.get_set] at hu
    by_cases heq : n = name
    · subst heq
      rw [if_pos rfl] at hu
      cases hu
      have hone : Returns (Section.place host f.context (offset, c)) s () t := hset
      refine ⟨s, (offset, c) :: placings, hs, ?_, returns_forEach_cons.mpr ⟨t, hone, hplacings⟩⟩
      rw [List.map_cons, hentries, entriesOf_cons_self hname]
    · rw [if_neg heq] at hu
      exact ⟨u, placings, hu, by rw [hentries, entriesOf_cons_of_ne hname heq], hplacings⟩

/-- The last loop finalizes every section once for each entry of its name. -/
theorem views_of_finalizeSections {cs : List ContentSection} :
    ∀ {f f' : Flash}, Returns (forEach finalizeSection cs) f () f' → ∀ name s',
      f'.sections.get name = some s' → ∃ s views, f.sections.get name = some s ∧
        views.length = (entriesOf name cs).length ∧
        Returns (forEach Section.finalize views) s () s' := by
  induction cs with
  | nil =>
    intro f f' h name s' hs'
    obtain rfl := returns_forEach_nil.mp h
    exact ⟨s', [], hs', rfl, returns_forEach_nil.mpr rfl⟩
  | cons c cs ih =>
    intro f f' h name s' hs'
    obtain ⟨f₁, hone, hrest⟩ := returns_forEach_cons.mp h
    obtain ⟨n, s, t, hname, hs, hfinalize, rfl⟩ := finalizeSection_inv hone
    obtain ⟨u, views, hu, hlength, hviews⟩ := ih hrest name s' hs'
    have hu : (f.sections.set n t).get name = some u := hu
    rw [Dict.get_set] at hu
    by_cases heq : n = name
    · subst heq
      rw [if_pos rfl] at hu
      cases hu
      refine ⟨s, _ :: views, hs, ?_, returns_forEach_cons.mpr ⟨t, hfinalize, hviews⟩⟩
      rw [List.length_cons, hlength, entriesOf_cons_self hname, List.length_cons]
    · rw [if_neg heq] at hu
      exact ⟨u, views, hu, by rw [hlength, entriesOf_cons_of_ne hname heq], hviews⟩

/-! ## Contents with a plan -/

/-- An image of a flash that went through a checked parse is sound. -/
theorem imageSound_of_parse (hfresh : f.Fresh) (hparse : Returns (parseContent host true) f () f')
    {image : Bytes} (h : Returns (getImage host none none) f' image f') :
    ImageSound host f f' image := by
  obtain ⟨f₁, f₂, f₃, p, hcreate, hprops, hplace, hfinalize⟩ :=
    parseContent_inv hfresh.contentParsed hfresh.contentDict hparse
  obtain ⟨hframe₁, hnames₁⟩ := returns_createSections_names (by exact hfresh.sections) hcreate
  obtain ⟨-, huntouched⟩ := untouched_createSections (by exact hfresh.sections) hcreate
  have hsame := keeps_handleSectionProperties _ _ _ hprops
  obtain ⟨hplaced, hoffsets⟩ := placeSections_placed hplace
  have hfinal := keeps_finalizeSections _ _ _ _ hfinalize
  have hcontent₁ : f₁.contentSections = f.contentSections := by rw [hframe₁]; rfl
  have hcontent : f'.contentSections = f₂.contentSections := by
    rw [hfinal.frame, hplaced.frame]
    rfl
  have hkeys : f'.sections.keys = f₂.sections.keys := hfinal.keys.trans hplaced.keys
  have hcontext : f'.context = f₂.context := by
    have hframe := hfinal.frame
    rw [hplaced.frame] at hframe
    simp only [context, hkeys]
    rw [hframe]
  have hsize : f₂.size = f.size := by rw [hsame.1, hframe₁]
  have hparsed := contentParsed_of_parse hfresh hparse
  -- every name of the flash is a name of the content
  have hall : ∀ name ∈ f'.sections.keys,
      some name ∈ f₂.contentSections.map ContentSection.name := by
    intro name hname
    rw [hkeys, hsame.1] at hname
    rw [hsame.2, hcontent₁]
    exact hnames₁ name hname
  have hsections : ∀ s ∈ f'.sections.values, ∃ name s₁, f'.sections.get name = some s ∧
      f₃.sections.get name = some s₁ ∧ s₁.SameLayout s ∧ EndsWithin f₂.size s₁ := by
    intro s hs
    obtain ⟨name, hget⟩ := Dict.exists_get_of_mem_values hs
    obtain ⟨s₁, hget₁, hlayout⟩ := hfinal.layout name s hget
    obtain ⟨-, hwithin⟩ | ⟨hnot, -⟩ := hplaced.placed name s₁ hget₁
    · exact ⟨name, s₁, hget, hget₁, hlayout, hwithin⟩
    · exact absurd (hall name (Dict.mem_keys_iff.mpr ⟨s, hget⟩)) hnot
  have hwithin : ∀ s ∈ f'.sections.values, EndsWithin f.size s := by
    intro s hs
    obtain ⟨name, s₁, -, -, hlayout, size, hreported, hle⟩ := hsections s hs
    have hoffset : s.offset = s₁.offset := hlayout.base.offset
    have hsame' : s.getSize = s₁.getSize := hlayout.base.getSize
    exact ⟨size, hsame'.trans hreported, by rw [hoffset, ← hsize]; exact hle⟩
  refine ⟨fun c hc => ?_, fun name s hget => ?_, hwithin, ?_⟩
  · rw [hcontent] at hc
    obtain ⟨name, hname, hmem⟩ := hplaced.found c hc
    obtain ⟨s, hs⟩ := Dict.mem_keys_iff.mp (hkeys ▸ hmem : name ∈ f'.sections.keys)
    exact ⟨name, s, hname, hs⟩
  · obtain ⟨s₁, views, hget₁, hlength, hviews⟩ := views_of_finalizeSections hfinalize name s hget
    obtain ⟨s₀, placings, hget₀, hentries, hplacings⟩ :=
      placings_of_placeSections hplace name s₁ hget₁
    rw [hsame.1] at hget₀
    have hcount : views.length = placings.length := by
      rw [hlength, ← hentries, List.length_map]
    refine ⟨s₀, s₁, placings, views, huntouched name s₀ hget₀, ?_, hcontent ▸ hentries,
      hcontext ▸ hplacings, hcount, hviews⟩
    rintro rfl
    -- an entry has this name
    obtain ⟨c, hc, hname⟩ := List.mem_map.mp
      (hall name (Dict.mem_keys_iff.mpr ⟨s, hget⟩))
    have hmem : c ∈ entriesOf name f₂.contentSections :=
      List.mem_filter.mpr ⟨hc, by simpa using hname⟩
    rw [← hentries] at hmem
    exact absurd hmem List.not_mem_nil
  · have himage := (returns_getImage_iff hparsed).mp h
    have hslice : (f'.sections.values.take ((none : Option Nat).getD f'.sections.length + 1)).drop
        ((none : Option Nat).getD 0) = f'.sections.values := by
      change (f'.sections.values.take (f'.sections.length + 1)).drop 0 = _
      rw [List.drop_zero, List.take_of_length_le (by rw [Dict.length_values]; omega)]
    rw [hslice] at himage
    obtain ⟨bs, hbs, hassemble⟩ := imageFrom_values himage
    -- what could be packed has no negative size
    have hnonneg : NonnegLayouts f₃ := by
      intro name s₁ hget₁ l hl
      obtain ⟨s, hget⟩ := Dict.mem_keys_iff.mp
        (hfinal.keys ▸ Dict.mem_keys_iff.mpr ⟨s₁, hget₁⟩ : name ∈ f'.sections.keys)
      obtain ⟨t, ht, hlayout⟩ := hfinal.layout name s hget
      obtain rfl : s₁ = t := Option.some.inj (hget₁.symm.trans ht)
      obtain ⟨i, hi⟩ := List.mem_iff_getElem?.mp (Dict.mem_values_of_get hget)
      obtain ⟨b, -, -, hbytes⟩ := getElem?_forall₂ hbs hi
      obtain ⟨packed, -, hpacked, -⟩ := FlashSection.getImage_eq_ok_iff.mp hbytes
      exact (FlashSection.length_packed hpacked).1 l (hlayout.base.layouts ▸ hl)
    cases hhead : f'.sections.values.head? with
    | none =>
      rw [List.head?_eq_none_iff.mp hhead] at himage
      cases himage
      exact Nat.zero_le _
    | some s =>
      obtain ⟨horder, rfl⟩ := hassemble s hhead
      obtain ⟨name, s₁, -, hget₁, hlayout, -⟩ := hsections s (List.mem_of_mem_head? hhead)
      have hstart : 0 ≤ s.offset := by
        have hoffset : s.offset = s₁.offset := hlayout.base.offset
        rw [hoffset]
        exact hoffsets hnonneg (le_refl _) name s₁ hget₁
          (hall name (hfinal.keys ▸ Dict.mem_keys_iff.mpr ⟨s₁, hget₁⟩))
      obtain ⟨last, hlast⟩ : ∃ last, f'.sections.values.getLast? = some last := by
        cases hvalues : f'.sections.values with
        | nil =>
          rw [hvalues] at hhead
          cases hhead
        | cons t ts => exact ⟨_, List.getLast?_cons⟩
      obtain ⟨size, hreported, hle⟩ := hwithin last (List.mem_of_getLast? hlast)
      have hlength := length_assemble horder
      rw [stopOf_eq hbs hlast hreported] at hlength
      omega

/-! ## Contents without entries -/

/-- Without entries there is nothing the command line could change. -/
theorem handleSectionProperties_nil (h : f.contentSections = []) :
    Returns handleSectionProperties f () f ∨ ∃ e, Raises handleSectionProperties f e f := by
  unfold handleSectionProperties
  rw [returns_get_bind]
  simp only [raises_get_bind]
  cases f.properties with
  | nil => exact .inl (returns_forEach_nil.mpr rfl)
  | cons p properties =>
    have hfirst : ∃ e, Raises (overwriteSectionProperties p) f e f := by
      unfold overwriteSectionProperties
      simp only [raises_get_bind, h]
      exact ⟨_, raises_throw _ f⟩
    obtain ⟨e, hfirst⟩ := hfirst
    exact .inr ⟨e, raises_forEach_cons.mpr (.inl hfirst)⟩

/-- Without entries a parse leaves the sections as they are, whether it raises for the
command line or not. -/
theorem finalState_parseContent_nil {checkOverflow : Bool} (h : f.contentSections = []) :
    finalState (parseContent host checkOverflow) f = f ∨
      finalState (parseContent host checkOverflow) f = { f with contentParsed := true } := by
  by_cases hgoes : f.contentParsed = true ∨ f.contentDict.isNone = true
  · have hparse : Returns (parseContent host checkOverflow) f () f := by
      unfold parseContent
      rw [returns_get_bind, if_pos hgoes]
      exact returns_pure.mpr ⟨rfl, rfl⟩
    exact .inl hparse.finalState
  · right
    obtain ⟨hparsed, hcontent⟩ := not_or.mp hgoes
    rw [Bool.not_eq_true] at hparsed hcontent
    have hnone : ({ f with contentParsed := true } : Flash).contentSections = [] := h
    have hcreate : Returns (forEach (createSection host) f.contentSections)
        { f with contentParsed := true } () { f with contentParsed := true } := by
      rw [h]
      exact returns_forEach_nil.mpr rfl
    rcases handleSectionProperties_nil hnone with hprops | ⟨e, hprops⟩
    · have hplace : Returns (placeSections host checkOverflow 0
          ({ f with contentParsed := true } : Flash).contentSections)
          { f with contentParsed := true } .complete { f with contentParsed := true } := by
        rw [hnone]
        exact returns_pure.mpr ⟨rfl, rfl⟩
      refine (returns_parseContent_of hparsed hcontent hcreate hprops hplace ?_).finalState
      rw [hnone]
      exact returns_forEach_nil.mpr rfl
    · have hparse : Raises (parseContent host checkOverflow) f e
          { f with contentParsed := true } := by
        unfold parseContent
        rw [raises_get_bind, if_neg hgoes]
        refine raises_bind.mpr (.inr ⟨⟨⟩, _, returns_set.mpr rfl, raises_bind.mpr (.inr ?_)⟩)
        exact ⟨(), _, hcreate, hprops.bind _⟩
      exact hparse.finalState

/-- Calls on a flash without entries leave it without sections. -/
theorem after_nil (cs : List Call) : ∀ {f : Flash}, f.contentSections = [] →
    f.sections = Dict.empty →
    (after host cs f).contentSections = [] ∧ (after host cs f).sections = Dict.empty := by
  induction cs with
  | nil => exact fun h hsections => ⟨h, hsections⟩
  | cons c cs ih =>
    intro f h hsections
    rw [after, finalState_run]
    obtain hf | hf : finalState (parseContent host c.checks) f = f ∨ _ :=
      finalState_parseContent_nil h
    · rw [hf]
      exact ih h hsections
    · rw [hf]
      exact ih h hsections

/-- The image of a flash without entries is empty. -/
theorem imageSound_nil (h : f.contentSections = []) (hsections : f.sections = Dict.empty)
    (cs : List Call) {image : Bytes}
    (himage : Returns (getImage host none none) (after host cs f) image f') :
    ImageSound host f f' image := by
  obtain ⟨hparse, himage⟩ := returns_getImage_inv himage
  obtain ⟨hempty, hnone⟩ : f'.contentSections = [] ∧ f'.sections = Dict.empty := by
    rw [← hparse.finalState]
    obtain ⟨hempty, hnone⟩ : (after host cs f).contentSections = [] ∧ _ := after_nil cs h hsections
    obtain hf | hf : finalState (parseContent host true) (after host cs f) = _ ∨ _ :=
      finalState_parseContent_nil hempty
    · rw [hf]
      exact ⟨hempty, hnone⟩
    · rw [hf]
      exact ⟨hempty, hnone⟩
  rw [hnone] at himage
  obtain rfl : [] = image := Except.ok.inj himage
  refine ⟨fun c hc => ?_, fun name s hs => ?_, fun s hs => ?_, Nat.zero_le _⟩
  · rw [hempty] at hc
    exact absurd hc List.not_mem_nil
  · rw [hnone] at hs
    cases hs
  · rw [hnone] at hs
    exact absurd hs List.not_mem_nil

/-! ## Contents that overflow -/

/-- A placement loop that did not leave early passes the check. -/
theorem returns_placeSections_checked {checkOverflow : Bool} {cs : List ContentSection} :
    ∀ {f f' : Flash} {offset : Int},
      Returns (placeSections host checkOverflow offset cs) f .complete f' →
      Returns (placeSections host true offset cs) f .complete f' := by
  induction cs with
  | nil => exact id
  | cons c cs ih =>
    intro f f' offset h
    obtain ⟨next, f₁, hplace, ⟨-, -, hoverflow, -⟩ | ⟨hle, hrest⟩⟩ :=
      returns_placeSections_cons.mp h
    · cases hoverflow
    · exact returns_placeSections_cons.mpr ⟨next, f₁, hplace, .inr ⟨hle, ih hrest⟩⟩

/-- A placement loop that left early is one that the check stops, with the same sections. -/
theorem raises_placeSections_of_overflow {cs : List ContentSection} :
    ∀ {f f' : Flash} {offset : Int},
      Returns (placeSections host false offset cs) f .overflow f' →
      ∃ e, Raises (placeSections host true offset cs) f e f' := by
  induction cs with
  | nil =>
    intro f f' offset h
    exact absurd (returns_pure.mp h).1 nofun
  | cons c cs ih =>
    intro f f' offset h
    obtain ⟨next, f₁, hplace, ⟨hover, -, -, rfl⟩ | ⟨hle, hrest⟩⟩ :=
      returns_placeSections_cons.mp h
    · refine ⟨.runtimeError (overflowMessage (c.name.getD "") f' next), ?_⟩
      unfold placeSections
      refine raises_bind.mpr (.inr ⟨next, f', hplace, ?_⟩)
      rw [raises_get_bind, if_pos hover]
      exact raises_throw _ f'
    · obtain ⟨e, hraises⟩ := ih hrest
      refine ⟨e, ?_⟩
      unfold placeSections
      refine raises_bind.mpr (.inr ⟨next, f₁, hplace, ?_⟩)
      rw [raises_get_bind, if_neg (not_lt.mpr hle)]
      exact hraises

theorem contentParsed_placeSections {checkOverflow : Bool} {cs : List ContentSection} :
    ∀ {f f' : Flash} {offset : Int} {p : Placement},
      Returns (placeSections host checkOverflow offset cs) f p f' →
      f'.contentParsed = f.contentParsed := by
  induction cs with
  | nil =>
    intro f f' offset p h
    rw [(returns_pure.mp h).2]
  | cons c cs ih =>
    intro f f' offset p h
    obtain ⟨next, f₁, hplace, hcases⟩ := returns_placeSections_cons.mp h
    obtain ⟨_, _, _, _, -, -, -, -, -, rfl⟩ := placeSection_inv hplace
    rcases hcases with ⟨-, -, -, rfl⟩ | ⟨-, hrest⟩
    · rfl
    · exact (ih hrest).trans rfl

/-- Calls on a flash whose content can be laid out, but not within the flash, leave a
section that ends behind it. -/
theorem exists_overflow_after (hfresh : f.Fresh) {steps : List PlanStep}
    (hsteps : f.planSteps host false = .ok steps) (hnone : ∀ plan, f.plan host ≠ .ok plan)
    {cs : List Call} (hcs : cs ≠ []) :
    (after host cs f).contentParsed = true ∧
      ∃ s ∈ (after host cs f).sections.values, ¬ EndsWithin f.size s := by
  have hunplanned : ∀ steps', f.planSteps host true ≠ .ok steps' := by
    intro steps' hchecked
    refine hnone ((PlanStep.last steps').values.map PlanStep.planned) ?_
    unfold plan
    rw [hchecked]
    rfl
  -- the last step of the plan ends behind the flash
  obtain ⟨front, p, rfl, hover⟩ : ∃ front p, steps = front ++ [p] ∧ (f.size : Int) < p.stop := by
    obtain ⟨entries, changed, hentries, hchanged, hfrom, hdone⟩ := planSteps_iff.mp hsteps
    refine (planFrom_unchecked hfrom).resolve_left fun hchecked => hunplanned steps ?_
    exact planSteps_iff.mpr ⟨entries, changed, hentries, hchanged, hchecked, hdone⟩
  have hrefines : Refines (parseContent host false) f _ (f.planSteps host false) :=
    refines_parseContent hfresh false
  rw [hsteps] at hrefines
  obtain ⟨_, u, hparse, hfollows⟩ := hrefines.exists_returns
  obtain ⟨s, hs, hlaid⟩ := hfollows.exists_laidBy
    (show (PlanStep.last (front ++ [p])).get p.entry.name = some p by
      rw [PlanStep.last_concat, Dict.get_set_self])
  obtain ⟨f₁, f₂, f₃, placement, hcreate, hprops, hplace, hfinalize⟩ :=
    parseContent_inv hfresh.contentParsed hfresh.contentDict hparse
  have hfinal := keeps_finalizeSections _ _ _ _ hfinalize
  have hparsed₃ : f₃.contentParsed = true := by
    obtain ⟨hframe₁, -⟩ := returns_createSections_names (by exact hfresh.sections) hcreate
    rw [contentParsed_placeSections hplace, (keeps_handleSectionProperties _ _ _ hprops).1, hframe₁]
  have hparsed : u.contentParsed = true := by
    rw [hfinal.frame]
    exact hparsed₃
  obtain ⟨s₃, hs₃, hlayout⟩ := hfinal.layout _ s hs
  have hends : ∀ t : Section, t.offset = p.start → t.getSize = .ok p.size →
      ¬ EndsWithin f.size t := by
    rintro t hoffset hsize ⟨size, hreported, hle⟩
    obtain rfl := Except.ok.inj (hsize.symm.trans hreported)
    rw [hoffset] at hle
    exact absurd hover (not_lt.mpr hle)
  have hoverflow : placement = .overflow := by
    cases placement with
    | overflow => rfl
    | complete =>
      obtain ⟨steps', hsteps', -⟩ := (refines_parseContent hfresh true).of_returns
        (returns_parseContent_of hfresh.contentParsed hfresh.contentDict hcreate hprops
          (returns_placeSections_checked hplace) hfinalize)
      exact absurd hsteps' (hunplanned steps')
  subst hoverflow
  cases cs with
  | nil => exact absurd rfl hcs
  | cons c cs =>
    rw [after, finalState_run]
    cases c.checks with
    | false =>
      rw [hparse.finalState, after_of_parsed hparsed]
      exact ⟨hparsed, s, Dict.mem_values_of_get hs,
        hends s hlaid.at_plan.start hlaid.at_plan.size⟩
    | true =>
      obtain ⟨e, hraises⟩ := raises_placeSections_of_overflow hplace
      have hraises : Raises (parseContent host true) f e f₃ :=
        raises_parseContent_of hfresh.contentParsed hfresh.contentDict hcreate hprops hraises
      rw [hraises.finalState, after_of_parsed hparsed₃]
      refine ⟨hparsed₃, s₃, Dict.mem_values_of_get hs₃, hends s₃ ?_ ?_⟩
      · exact hlayout.base.offset.symm.trans hlaid.at_plan.start
      · exact hlayout.base.getSize.symm.trans hlaid.at_plan.size

/-! ## Runs of calls -/

/-- Over any run of calls on a fresh flash: an image is sound when it was asked for
first, when the content has no entries, or when the content has a plan.  Where the
content can be laid out at all, within the flash or not, no other image is. -/
theorem getImage_sound_iff_plan (hfresh : f.Fresh) (cs : List Call) {image : Bytes}
    (h : Returns (getImage host none none) (after host cs f) image f') :
    ((cs = [] ∨ f.contentSections = [] ∨ ∃ plan, f.plan host = .ok plan) →
        ImageSound host f f' image) ∧
      ((∃ steps, f.planSteps host false = .ok steps) →
        (ImageSound host f f' image ↔ cs = [] ∨ ∃ plan, f.plan host = .ok plan)) := by
  have hfirst : cs = [] → ImageSound host f f' image := by
    rintro rfl
    obtain ⟨hparse, himage⟩ := returns_getImage_inv h
    exact imageSound_of_parse hfresh hparse
      ((returns_getImage_iff (contentParsed_of_parse hfresh hparse)).mpr himage)
  have hsound : (cs = [] ∨ f.contentSections = [] ∨ ∃ plan, f.plan host = .ok plan) →
      ImageSound host f f' image := by
    rintro (hcs | hempty | ⟨plan, hplan⟩)
    · exact hfirst hcs
    · exact imageSound_nil hempty hfresh.sections cs h
    · by_cases hcs : cs = []
      · exact hfirst hcs
      · have hrefines : Refines (parseContent host true) f _ (f.plan host) := refines_plan hfresh
        rw [hplan] at hrefines
        obtain ⟨_, f₁, hparse, -⟩ := hrefines.exists_returns
        rw [after_eq hfresh hparse hcs] at h
        have hagain : Returns (parseContent host true) f₁ () f₁ :=
          returns_parseContent_again (contentParsed_of_parse hfresh hparse)
        obtain rfl := ((returns_getImage_inv h).1.unique hagain).2
        exact imageSound_of_parse hfresh hparse h
  refine ⟨hsound, ?_⟩
  rintro ⟨steps, hsteps⟩
  refine ⟨fun himage => ?_, fun hcontent => hsound (hcontent.imp_right .inr)⟩
  by_contra hnot
  obtain ⟨hcs, hnone⟩ := not_or.mp hnot
  obtain ⟨hparsed, s, hs, hends⟩ := exists_overflow_after hfresh hsteps
    (fun plan hplan => hnone ⟨plan, hplan⟩) hcs
  obtain rfl := ((returns_getImage_inv h).1.unique (returns_parseContent_again hparsed)).2
  exact hends (himage.within s hs)

/-- A layout within the flash, dumped before its image is taken. -/
theorem imageSound_raw : ∃ f', ImageSound Host.noFiles
    (ofContent 16 Dict.empty [rawEntry "data" 8]) f' (List.replicate 8 0) := by
  have himage : Returns (getImage Host.noFiles none none)
      (after Host.noFiles [.dumpLayout 0] (ofContent 16 Dict.empty [rawEntry "data" 8]))
      (List.replicate 8 0) _ := returns_of_returned? (by decide +kernel)
  exact ⟨_, (getImage_sound_iff_plan ⟨rfl, rfl, rfl⟩ [.dumpLayout 0] himage).1
    (.inr (.inr ⟨[⟨"data", .raw, 0, 8⟩], rfl⟩))⟩

/-- A section larger than its flash: after `dump_layout` its image is handed
out. -/
theorem not_getImage_sound : ¬ ∀ (host : Host) (f f' : Flash) (cs : List Call) (image : Bytes),
    f.Fresh → Returns (getImage host none none) (after host cs f) image f' →
      ImageSound host f f' image := by
  intro h
  have himage : Returns (getImage Host.noFiles none none)
      (after Host.noFiles [.dumpLayout 0] (ofContent 16 Dict.empty [rawEntry "data" 32]))
      (List.replicate 32 0) _ := returns_of_returned? (by decide +kernel)
  exact absurd (h _ _ _ _ _ ⟨rfl, rfl, rfl⟩ himage).fits (by decide)

end Flash

end SoftHier.Gapy
