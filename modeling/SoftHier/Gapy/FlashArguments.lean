/-
  Gapy/FlashArguments.lean --- flash properties from the command line to the
  sections.

  `parse_args` sorts the properties by flash and section and hands them to the
  flashes, before it sets their contents.  What a flash is given for a property
  of a section are the values addressed to it, in the order of the command line.
-/
import SoftHier.Gapy.FlashProperties
import SoftHier.Gapy.Target

set_option autoImplicit false

namespace SoftHier.Gapy

open SoftHier.Foundation Program

/-! ## What is given -/

/-- A flash property of the command line. -/
structure GivenProperty where
  value : String
  flash : String
  sectionName : String
  property : String
  deriving DecidableEq, Repr

namespace GivenProperty

/-- `value@flash:section:property`. -/
def text (g : GivenProperty) : String :=
  g.value ++ "@" ++ (g.flash ++ ":" ++ g.sectionName ++ ":" ++ g.property)

/-- The flash a property is for. -/
def flashName (g : GivenProperty) : String :=
  if g.flash = "target/chip/soc/mram" then "mram" else g.flash

/-- The value may be any text, the names contain no separator. -/
def Plain (g : GivenProperty) : Prop :=
  ∀ part ∈ [g.flash, g.sectionName, g.property], '@' ∉ part.toList ∧ ':' ∉ part.toList

instance (g : GivenProperty) : Decidable g.Plain :=
  inferInstanceAs (Decidable (∀ part ∈ _, _))

/-- The values given for a property, in order. -/
def values (givens : List GivenProperty) (flash sectionName property : String) : List String :=
  (givens.filter fun g => g.flashName = flash ∧ g.sectionName = sectionName ∧
    g.property = property).map value

/-- The names and values given for a section, in order. -/
def items (givens : List GivenProperty) (flash sectionName : String) : List (String × String) :=
  (givens.filter fun g => g.flashName = flash ∧ g.sectionName = sectionName).map fun g =>
    (g.property, g.value)

theorem valuesOf_items (givens : List GivenProperty) (flash sectionName property : String) :
    valuesOf (items givens flash sectionName) property =
      values givens flash sectionName property := by
  unfold valuesOf items values
  rw [List.filter_map, List.map_map, List.filter_filter]
  refine congrArg₂ _ rfl (List.filter_congr fun g _ => ?_)
  simp only [Function.comp_apply, Bool.decide_and]
  rw [Bool.and_comm, Bool.and_assoc]

end GivenProperty

namespace Target

/-! ## Sorting the properties -/

theorem groupProperty_text {g : GivenProperty} (hg : g.Plain) (d : FlashProperties) :
    groupProperty d g.text =
      let sections := (d.get g.flashName).getD Dict.empty
      .ok (d.set g.flashName (sections.set g.sectionName
        ((sections.get g.sectionName).getD [] ++ [(g.property, g.value)]))) := by
  have hpath : g.flash ++ ":" ++ g.sectionName ++ ":" ++ g.property =
      (String.singleton ':').intercalate [g.flash, g.sectionName, g.property] := by
    rw [String.intercalate_cons_cons, String.intercalate_cons_cons, String.intercalate_singleton]
    simp only [String.append_assoc]
    rfl
  have hat : '@' ∉ (g.flash ++ ":" ++ g.sectionName ++ ":" ++ g.property).toList := by
    rw [hpath]
    exact not_mem_intercalate (by decide) fun part hpart => (hg part hpart).1
  have hsplit : splitText ':' (g.flash ++ ":" ++ g.sectionName ++ ":" ++ g.property) =
      [g.flash, g.sectionName, g.property] := by
    rw [hpath]
    exact splitText_intercalate (by simp) fun part hpart => (hg part hpart).2
  have hrsplit : rsplitText '@' g.text =
      some (g.value, g.flash ++ ":" ++ g.sectionName ++ ":" ++ g.property) :=
    rsplitText_append hat
  unfold groupProperty
  simp only [hrsplit, hsplit]
  rfl

/-- For every flash and section the dictionary has the names and values given for
it. -/
def Grouped (d : FlashProperties) (givens : List GivenProperty) : Prop :=
  ∀ flash sectionName, (((d.get flash).getD Dict.empty).get sectionName).getD [] =
    GivenProperty.items givens flash sectionName

theorem grouped_groupProperty {d : FlashProperties} {givens : List GivenProperty}
    (hd : Grouped d givens) (g : GivenProperty) :
    Grouped (let sections := (d.get g.flashName).getD Dict.empty
      d.set g.flashName (sections.set g.sectionName
        ((sections.get g.sectionName).getD [] ++ [(g.property, g.value)]))) (givens ++ [g]) := by
  intro flash sectionName
  have hitems : GivenProperty.items (givens ++ [g]) flash sectionName =
      GivenProperty.items givens flash sectionName ++
        if g.flashName = flash ∧ g.sectionName = sectionName then [(g.property, g.value)]
        else [] := by
    unfold GivenProperty.items
    rw [List.filter_append, List.map_append]
    by_cases hg : g.flashName = flash ∧ g.sectionName = sectionName
    · simp [hg]
    · simp [hg]
  rw [hitems, ← hd flash sectionName, Dict.get_set]
  by_cases hflash : g.flashName = flash
  · subst hflash
    rw [if_pos rfl, Option.getD_some, Dict.get_set]
    by_cases hsection : g.sectionName = sectionName
    · subst hsection
      rw [if_pos rfl, if_pos ⟨rfl, rfl⟩, Option.getD_some]
    · rw [if_neg hsection, if_neg fun hand => hsection hand.2, List.append_nil]
  · rw [if_neg hflash, if_neg fun hand => hflash hand.1, List.append_nil]

/-- The first loop of `__extract_flash_properties`. -/
theorem grouped_foldlM {givens : List GivenProperty} (hplain : ∀ g ∈ givens, g.Plain) :
    ∀ {pre : List GivenProperty} {d d' : FlashProperties}, Grouped d pre →
      (givens.map GivenProperty.text).foldlM groupProperty d = .ok d' →
      Grouped d' (pre ++ givens) := by
  induction givens with
  | nil =>
    intro pre d d' hd h
    cases h
    rw [List.append_nil]
    exact hd
  | cons g givens ih =>
    intro pre d d' hd h
    rw [List.map_cons, List.foldlM_cons, groupProperty_text (hplain g List.mem_cons_self)] at h
    have hrest := ih (fun b hb => hplain b (List.mem_cons_of_mem g hb))
      (grouped_groupProperty hd g) h
    rwa [List.append_assoc] at hrest

/-- The values a flash finds among the entries of a dictionary. -/
theorem givenValues_entries (d : Dict String (List (String × String))) (sectionName key : String) :
    givenValues d.entries sectionName key = valuesOf ((d.get sectionName).getD []) key := by
  have hfilter : ∀ l : List (String × List (String × String)), (l.map Prod.fst).Nodup →
      givenValues l sectionName key = valuesOf ((Dict.lookup sectionName l).getD []) key := by
    intro l hl
    induction l with
    | nil => rfl
    | cons p l ih =>
      obtain ⟨name, items⟩ := p
      rw [List.map_cons, List.nodup_cons] at hl
      have hcons : givenValues ((name, items) :: l) sectionName key =
          givenValues [(name, items)] sectionName key ++ givenValues l sectionName key :=
        Flash.givenValues_append [(name, items)] l sectionName key
      rw [hcons, ih hl.2, Dict.lookup]
      by_cases hname : name = sectionName
      · subst hname
        rw [if_pos rfl, Dict.lookup_eq_none_iff.mpr hl.1]
        simp [givenValues, valuesOf]
      · rw [if_neg hname]
        simp [givenValues, hname]
  exact hfilter d.entries d.nodup

/-! ## Handing the properties to the flashes -/

theorem propagate_inv {t t' : Target} {p : String × Dict String (List (String × String))}
    (h : Returns (propagate p) t () t') :
    ∃ f, t.flashes.get p.1 = some f ∧
      t' = { t with flashes := t.flashes.set p.1 { f with properties := p.2.entries } } := by
  unfold propagate at h
  rw [returns_get_bind] at h
  split at h
  · exact absurd h not_returns_throw
  next f hf => exact ⟨f, hf, (returns_set.mp h).symm⟩

/-- A flash with the properties found for it, if any. -/
def withProperties (sections : Option (Dict String (List (String × String)))) (f : Flash) : Flash :=
  match sections with
  | none => f
  | some sections => { f with properties := sections.entries }

/-- The second loop of `__extract_flash_properties`. -/
theorem get_propagateAll {entries : List (String × Dict String (List (String × String)))}
    (hnames : (entries.map Prod.fst).Nodup) :
    ∀ {t t' : Target}, Returns (forEach propagate entries) t () t' → ∀ name,
      t'.flashes.get name =
        (t.flashes.get name).map (withProperties (Dict.lookup name entries)) := by
  induction entries with
  | nil =>
    intro t t' h name
    rw [returns_forEach_nil.mp h]
    cases t'.flashes.get name <;> rfl
  | cons p entries ih =>
    intro t t' h name
    rw [List.map_cons, List.nodup_cons] at hnames
    obtain ⟨u, hone, hrest⟩ := returns_forEach_cons.mp h
    obtain ⟨f, hf, rfl⟩ := propagate_inv hone
    obtain ⟨flash, sections⟩ := p
    rw [ih hnames.2 hrest name, Dict.lookup]
    change ((t.flashes.set flash _).get name).map _ = _
    rw [Dict.get_set]
    by_cases hname : flash = name
    · subst hname
      rw [if_pos rfl, if_pos rfl, hf, Dict.lookup_eq_none_iff.mpr hnames.1]
      rfl
    · rw [if_neg hname, if_neg hname]

/-- Flashes nothing was done with but declare them, as far as properties go. -/
def Unset (t : Target) : Prop :=
  ∀ name f, t.flashes.get name = some f →
    f.properties = [] ∧ f.sections = Dict.empty ∧ f.contentParsed = false

/-- A flash was given the properties addressed to it, and is as before otherwise. -/
structure FlashGiven (givens : List GivenProperty) (name : String) (f f' : Flash) : Prop where
  frame : f' = { f with properties := f'.properties, contentDict := f'.contentDict }
  values : ∀ sectionName key, givenValues f'.properties sectionName key =
    GivenProperty.values givens name sectionName key

theorem flashGiven_extractFlashProperties {t t' : Target} (hunset : t.Unset)
    {givens : List GivenProperty} (hplain : ∀ g ∈ givens, g.Plain)
    (h : Returns (extractFlashProperties (givens.map GivenProperty.text)) t () t') {name : String}
    {f' : Flash} (hf' : t'.flashes.get name = some f') :
    ∃ f, t.flashes.get name = some f ∧ FlashGiven givens name f f' := by
  unfold extractFlashProperties at h
  obtain ⟨d, u, hread, hpropagate⟩ := returns_bind.mp h
  obtain ⟨hd, rfl⟩ := returns_reading.mp hread
  have hempty : Grouped Dict.empty [] := fun _ _ => rfl
  have hgrouped : Grouped d givens := grouped_foldlM hplain hempty hd
  rw [get_propagateAll d.nodup hpropagate] at hf'
  obtain ⟨f, hf, rfl⟩ := Option.map_eq_some_iff.mp hf'
  refine ⟨f, hf, ?_⟩
  have hvalues : ∀ sectionName key,
      valuesOf ((((d.get name).getD Dict.empty).get sectionName).getD []) key =
        GivenProperty.values givens name sectionName key := by
    intro sectionName key
    rw [hgrouped, GivenProperty.valuesOf_items]
  change FlashGiven givens name f (withProperties (d.get name) f)
  cases hget : d.get name with
  | none =>
    refine ⟨rfl, fun sectionName key => ?_⟩
    rw [← hvalues, hget]
    change givenValues f.properties sectionName key = _
    rw [(hunset name f hf).1]
    rfl
  | some sections =>
    refine ⟨rfl, fun sectionName key => ?_⟩
    rw [← hvalues, hget]
    exact givenValues_entries sections sectionName key

/-! ## Setting the contents -/

/-- The same flashes with other contents. -/
def SameFlashes (t t' : Target) : Prop :=
  ∀ name f', t'.flashes.get name = some f' →
    ∃ f, t.flashes.get name = some f ∧ f' = { f with contentDict := f'.contentDict }

theorem SameFlashes.refl (t : Target) : SameFlashes t t := fun _ f hf => ⟨f, hf, rfl⟩

theorem SameFlashes.trans ⦃t u v : Target⦄ (h : SameFlashes t u) (h' : SameFlashes u v) :
    SameFlashes t v := by
  intro name f'' hf''
  obtain ⟨f', hf', hsame'⟩ := h' name f'' hf''
  obtain ⟨f, hf, hsame⟩ := h name f' hf'
  refine ⟨f, hf, ?_⟩
  rw [hsame', hsame]

theorem keeps_setContent (unknown : PyError) (name : String) (content : FlashContent) :
    Keeps SameFlashes (setContent unknown name content) := by
  intro t u t' h
  unfold setContent at h
  rw [returns_get_bind] at h
  split at h
  · exact absurd h not_returns_throw
  next f hf =>
    obtain rfl := returns_set.mp h
    intro n f' hf'
    have hf' : (t.flashes.set name { f with contentDict := some content }).get n = some f' := hf'
    rw [Dict.get_set] at hf'
    by_cases hn : name = n
    · subst hn
      rw [if_pos rfl, Option.some.injEq] at hf'
      subst hf'
      exact ⟨f, hf, rfl⟩
    · rw [if_neg hn] at hf'
      exact ⟨f', hf', rfl⟩

theorem keeps_setFlashContent (files : ContentFiles) (content : String) :
    Keeps SameFlashes (setFlashContent files content) := by
  unfold setFlashContent
  split
  · exact keeps_throw _
  · refine keeps_bind .trans (keeps_get .refl) fun t => ?_
    split
    · exact keeps_throw _
    · exact keeps_bind .trans (keeps_reading .refl _) fun dict => keeps_setContent _ _ dict

theorem keeps_setLayoutContent (entry : Option String × FlashContent) :
    Keeps SameFlashes (setLayoutContent entry) := by
  unfold setLayoutContent
  split
  · exact keeps_throw _
  · exact keeps_setContent _ _ _

theorem keeps_setContents (files : ContentFiles) (args : Args) :
    Keeps SameFlashes (setContents files args) := by
  unfold setContents
  split
  · split
    · exact keeps_throw _
    · exact keeps_forEach .refl .trans fun content _ => keeps_setFlashContent files content
  · split
    · refine keeps_bind .trans (keeps_reading .refl _) fun flashes => ?_
      split
      · exact keeps_throw _
      · exact keeps_forEach .refl .trans fun entry _ => keeps_setLayoutContent entry
    · exact keeps_pure .refl ()

/-- `parse_args` hands over the properties first, then only the contents. -/
theorem parseArgs_inv {files : ContentFiles} {args : Args} {t t' : Target}
    (h : Returns (parseArgs files args) t () t') :
    ∃ u, (args.flashProperties = [] ∧ u = t ∨
      Returns (extractFlashProperties args.flashProperties) t () u) ∧ SameFlashes u t' := by
  unfold parseArgs at h
  by_cases hnone : args.flashProperties = []
  · rw [if_neg (not_not_intro hnone)] at h
    exact ⟨t, .inl ⟨hnone, rfl⟩, keeps_setContents files args _ _ _ h⟩
  · rw [if_pos hnone] at h
    obtain ⟨_, u, hextract, hrest⟩ := returns_bind.mp h
    exact ⟨u, .inr hextract, keeps_setContents files args _ _ _ hrest⟩

theorem flashGiven_parseArgs {files : ContentFiles} {args : Args} {t t' : Target}
    (hunset : t.Unset) {givens : List GivenProperty} (hplain : ∀ g ∈ givens, g.Plain)
    (hargs : args.flashProperties = givens.map GivenProperty.text)
    (h : Returns (parseArgs files args) t () t') {name : String} {f' : Flash}
    (hf' : t'.flashes.get name = some f') :
    ∃ f, t.flashes.get name = some f ∧ FlashGiven givens name f f' := by
  obtain ⟨u, hextract, hsame⟩ := parseArgs_inv h
  obtain ⟨g, hg, hframe⟩ := hsame name f' hf'
  have hproperties : f'.properties = g.properties := by rw [hframe]
  rcases hextract with ⟨hnone, rfl⟩ | hextract
  · obtain rfl : givens = [] := List.map_eq_nil_iff.mp (hargs.symm.trans hnone)
    refine ⟨g, hg, by rw [hframe], fun sectionName key => ?_⟩
    rw [hproperties, (hunset name g hg).1]
    rfl
  · rw [hargs] at hextract
    obtain ⟨f, hf, hgiven⟩ := flashGiven_extractFlashProperties hunset hplain hextract hg
    refine ⟨f, hf, by rw [hframe, hgiven.frame], fun sectionName key => ?_⟩
    rw [hproperties]
    exact hgiven.values sectionName key

/-! ## From the command line to a section -/

/-- For every list of flash properties, every target and every content: once
`parse_args` and the parse of a flash returned, each section that was given its
content has every property its class declares, with the value it is to have. -/
theorem getProperty_of_parse {files : ContentFiles} {args : Args} {t t' : Target}
    (hunset : t.Unset) {givens : List GivenProperty} (hplain : ∀ g ∈ givens, g.Plain)
    (hargs : args.flashProperties = givens.map GivenProperty.text)
    (hparse : Returns (parseArgs files args) t () t') {flash : String} {f f' : Flash}
    (hflash : t'.flashes.get flash = some f) (hnames : f.DistinctNames) {host : Host}
    {checkOverflow : Bool} (hrun : Returns (Flash.parseContent host checkOverflow) f () f')
    {pre post : List ContentSection} {c : ContentSection}
    (hentries : f.contentSections = pre ++ c :: post)
    (hinside : checkOverflow = true ∨ ∀ b ∈ pre, f'.EndsInside b) :
    ∃ name template s, c.name = some name ∧
      c.template.bind f.sectionsTemplates.get = some template ∧
      f'.sections.get name = some s ∧ ∀ key p, template.declared.get key = some p →
        s.base.getProperty key = .ok (expectedProperty p.value
          (c.properties.bind fun d => d.get key) (GivenProperty.values givens flash name key)) := by
  obtain ⟨g, hg, hgiven⟩ := flashGiven_parseArgs hunset hplain hargs hparse hflash
  obtain ⟨-, hsections, hparsed⟩ := hunset flash g hg
  have hcontent : f.contentDict.isNone = false := by
    cases hdict : f.contentDict with
    | some content => rfl
    | none =>
      unfold Flash.contentSections at hentries
      rw [hdict] at hentries
      exact absurd hentries.symm (by simp)
  have hfresh : f.Fresh := by
    refine ⟨?_, ?_, hcontent⟩
    · rw [hgiven.frame]
      exact hsections
    · rw [hgiven.frame]
      exact hparsed
  obtain ⟨name, template, s, hname, htemplate, hs, hall⟩ :=
    Flash.parseContent_property hfresh hnames hrun hentries hinside
  refine ⟨name, template, s, hname, htemplate, hs, fun key p hp => ?_⟩
  rw [hall key p hp, hgiven.values]

/-- Every class declares a size. -/
theorem declared_size (template : SectionTemplate) :
    ∃ p, template.declared.get "size" = some p ∧ p.value = .none := by
  cases template <;> exact ⟨_, rfl, rfl⟩

/-- Two raw sections behind each other, the first one of some size. -/
def rawTarget (size : Int) : Target where
  parser := ⟨[], []⟩
  flashes := Dict.empty.set "mram"
    (Flash.ofContent 0x20 Dict.empty [rawEntry "a" size, rawEntry "b" 4])

/-- A machine without content files. -/
def ContentFiles.none : ContentFiles where
  content path := .error (.osError path)
  layout path := .error (.osError path)

/-- Eight bytes for the second section, under the old name of the flash. -/
def sizeOfB : GivenProperty := ⟨"0x8", "target/chip/soc/mram", "b", "size"⟩

theorem rawTarget_unset (size : Int) : (rawTarget size).Unset := by
  intro name f hf
  have hf : (if "mram" = name then some _ else Option.none) = some f := hf
  split at hf
  · cases hf
    exact ⟨rfl, rfl, rfl⟩
  · cases hf

/-- What `parse_args` and a parse make of the two sections. -/
theorem rawTarget_runs (size : Int) (checkOverflow : Bool)
    (hargs : returned? (parseArgs ContentFiles.none ⟨[sizeOfB.text], [], []⟩) (rawTarget size) =
      some ())
    (hflash : (((finalState (parseArgs ContentFiles.none ⟨[sizeOfB.text], [], []⟩)
      (rawTarget size)).flashes.get "mram").map fun f =>
        (decide f.DistinctNames, returned? (Flash.parseContent Host.noFiles checkOverflow) f,
          f.contentSections.map ContentSection.name)) =
      some (true, some (), [some "a", some "b"])) :
    ∃ t' f f' a b, Returns (parseArgs ContentFiles.none ⟨[sizeOfB.text], [], []⟩) (rawTarget size)
        () t' ∧
      t' = finalState (parseArgs ContentFiles.none ⟨[sizeOfB.text], [], []⟩) (rawTarget size) ∧
      t'.flashes.get "mram" = some f ∧ f.DistinctNames ∧
      f' = finalState (Flash.parseContent Host.noFiles checkOverflow) f ∧
      Returns (Flash.parseContent Host.noFiles checkOverflow) f () f' ∧
      f.contentSections = [a] ++ b :: [] ∧ b.name = some "b" := by
  obtain ⟨f, hf, heq⟩ := Option.map_eq_some_iff.mp hflash
  rw [Prod.mk.injEq, Prod.mk.injEq] at heq
  obtain ⟨hnames, hrun, hsections⟩ := heq
  obtain ⟨a, as, hentries, -, has⟩ := List.map_eq_cons_iff.mp hsections
  obtain ⟨b, bs, rfl, hb, hbs⟩ := List.map_eq_cons_iff.mp has
  obtain rfl := List.map_eq_nil_iff.mp hbs
  exact ⟨_, f, _, a, b, returns_of_returned? hargs, rfl, hf, of_decide_eq_true hnames, rfl,
    returns_of_returned? hrun, hentries, hb⟩

/-- The second section takes the size of the command line. -/
theorem getProperty_of_parse_raw : ∃ t' f f' s,
    Returns (parseArgs ContentFiles.none ⟨[sizeOfB.text], [], []⟩) (rawTarget 0x10) () t' ∧
      t'.flashes.get "mram" = some f ∧
      Returns (Flash.parseContent Host.noFiles true) f () f' ∧ f'.sections.get "b" = some s ∧
      s.base.getProperty "size" = .ok (.str "0x8") := by
  have hplain : ∀ g ∈ [sizeOfB], g.Plain := by decide
  obtain ⟨t', f, f', a, b, hparse, -, hflash, hnames, -, hrun, hentries, hb⟩ :=
    rawTarget_runs 0x10 true (by decide +kernel) (by decide +kernel)
  obtain ⟨name, template, s, hname, -, hs, hall⟩ :=
    getProperty_of_parse (rawTarget_unset 0x10) hplain rfl hparse hflash hnames hrun hentries
      (.inl rfl)
  obtain rfl : "b" = name := Option.some.inj (hb.symm.trans hname)
  obtain ⟨p, hp, hvalue⟩ := declared_size template
  refine ⟨t', f, f', s, hparse, hflash, hrun, hs, ?_⟩
  rw [hall "size" p hp, hvalue]
  rfl

/-- Without the overflow check the parse stops setting contents behind the first
section that ends behind the flash. -/
theorem not_getProperty_of_parse : ¬ ∀ (files : ContentFiles) (args : Args) (t t' : Target)
    (givens : List GivenProperty) (flash : String) (f f' : Flash) (host : Host)
    (checkOverflow : Bool) (pre post : List ContentSection) (c : ContentSection),
    t.Unset → (∀ g ∈ givens, g.Plain) → args.flashProperties = givens.map GivenProperty.text →
    Returns (parseArgs files args) t () t' → t'.flashes.get flash = some f → f.DistinctNames →
    Returns (Flash.parseContent host checkOverflow) f () f' →
    f.contentSections = pre ++ c :: post →
    ∃ name template s, c.name = some name ∧
      c.template.bind f.sectionsTemplates.get = some template ∧
      f'.sections.get name = some s ∧ ∀ key p, template.declared.get key = some p →
        s.base.getProperty key = .ok (expectedProperty p.value
          (c.properties.bind fun d => d.get key)
          (GivenProperty.values givens flash name key)) := by
  intro h
  obtain ⟨t', f, f', a, b, hparse, ht', hflash, hnames, hf', hrun, hentries, hb⟩ :=
    rawTarget_runs 0x40 false (by decide +kernel) (by decide +kernel)
  obtain ⟨name, template, s, hname, -, hs, hall⟩ :=
    h _ _ _ _ [sizeOfB] _ _ _ _ _ _ _ _ (rawTarget_unset 0x40) (by decide) rfl hparse hflash
      hnames hrun hentries
  obtain rfl : "b" = name := Option.some.inj (hb.symm.trans hname)
  obtain ⟨p, hp, hvalue⟩ := declared_size template
  have hsize := hall "size" p hp
  rw [hvalue] at hsize
  have hkept : (((finalState (parseArgs ContentFiles.none ⟨[sizeOfB.text], [], []⟩)
      (rawTarget 0x40)).flashes.get "mram").bind fun f =>
        ((finalState (Flash.parseContent Host.noFiles false) f).sections.get "b").map fun s =>
          (s.base.getProperty "size").toOption) = some (some .none) := by decide +kernel
  rw [← ht', hflash, Option.bind_some, ← hf', hs, Option.map_some, hsize] at hkept
  cases hkept

end Target

end SoftHier.Gapy
