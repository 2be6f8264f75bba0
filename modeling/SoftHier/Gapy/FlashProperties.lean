/-
  Gapy/FlashProperties.lean --- the properties of sections after a parse.

  The command line overwrites what the content says for a section, depending on
  the type of the declared default; `set_content` then copies what the content
  says into the section.  Every section the parse places ends up with the
  declared default, the value of the content or the values given, and with
  nothing that was given to another section or property.
-/
import SoftHier.Gapy.FlashSession

set_option autoImplicit false

namespace SoftHier.Gapy

open SoftHier.Foundation Program

/-! ## The value a property is to have -/

/-- The items a content has for a list property; `null` is like no value. -/
def listItems : Option PyValue → List String
  | some (.list items) => items
  | _ => []

/-- What the content says once the values of the command line are applied, for a
property with a declared default. -/
def overridden (declared content : Option PyValue) (given : List String) : Option PyValue :=
  match given.getLast?, declared with
  | none, _ => content
  | some _, some (.list _) => some (.list (listItems content ++ given))
  | some last, some (.bool _) => some (.bool (last.toLower ≠ "false"))
  | some last, _ => some (.str last)

/-- The value of a property after the parse. -/
def expectedProperty (declared : PyValue) (content : Option PyValue) (given : List String) :
    PyValue :=
  (overridden (some declared) content given).getD declared

/-- The values some items have for a property, in order. -/
def valuesOf (items : List (String × String)) (key : String) : List String :=
  (items.filter fun i => i.1 = key).map Prod.snd

/-- The values a flash was given for a property of a section, in order. -/
def givenValues (properties : List (String × List (String × String))) (sectionName key : String) :
    List String :=
  (properties.filter fun p => p.1 = sectionName).flatMap fun p => valuesOf p.2 key

/-- The properties a section class declares. -/
def SectionTemplate.declared (t : SectionTemplate) : Dict String FlashSectionProperty :=
  (t.new "" 0).base.properties

@[simp] theorem SectionTemplate.properties_new (t : SectionTemplate) (name : String)
    (sectionId : Nat) : (t.new name sectionId).base.properties = t.declared := by
  cases t <;> rfl

/-- The values of the command line are applied one after the other. -/
theorem overridden_append_singleton (declared content : Option PyValue) (given : List String)
    (value : String) : overridden declared content (given ++ [value]) =
      overridden declared (overridden declared content given) [value] := by
  unfold overridden
  rw [List.getLast?_append, List.getLast?_singleton, Option.some_or]
  cases hlast : given.getLast? with
  | none =>
    rw [List.getLast?_eq_none_iff.mp hlast]
    rfl
  | some last =>
    cases declared with
    | none => rfl
    | some declared => cases declared <;> simp [listItems]

namespace Flash

variable {host : Host} {f f' : Flash}

/-! ## Overwriting what the content says -/

/-- What the content says about a property of a section. -/
def contentValue (f : Flash) (sectionName key : String) : Option PyValue :=
  ((f.contentSections.find? fun c => c.name = some sectionName).bind
    ContentSection.properties).bind fun d => d.get key

/-- What a section declares for a property. -/
def declaredValue (f : Flash) (sectionName key : String) : Option PyValue :=
  (f.sections.get sectionName).bind fun s =>
    (s.base.properties.get key).map FlashSectionProperty.value

/-- One value of the command line, applied to the properties of an entry. -/
theorem get_overwriteProperty {declared : Dict String FlashSectionProperty}
    {d d' : Dict String PyValue} {key value : String}
    (h : overwriteProperty declared d key value = .ok d') (name : String) :
    d'.get name =
      if key = name then
        overridden ((declared.get key).map FlashSectionProperty.value) (d.get key) [value]
      else d.get name := by
  have hset : ∃ v, d' = d.set key v ∧
      overridden ((declared.get key).map FlashSectionProperty.value) (d.get key) [value] =
        some v := by
    unfold overwriteProperty at h
    unfold overridden
    split at h
    next hdeclared =>
      rw [hdeclared]
      cases hd : d.get key with
      | none =>
        rw [hd] at h
        cases h
        exact ⟨_, rfl, rfl⟩
      | some v =>
        rw [hd] at h
        cases v <;> cases h <;> exact ⟨_, rfl, rfl⟩
    next hdeclared =>
      rw [hdeclared]
      split at h <;> cases h
      next hfalse => exact ⟨_, rfl, by simp [hfalse]⟩
      next htrue => exact ⟨_, rfl, by simp [htrue]⟩
    next hlist hbool =>
      cases h
      refine ⟨_, rfl, ?_⟩
      cases hdeclared : (declared.get key).map FlashSectionProperty.value with
      | none => rfl
      | some v =>
        cases v with
        | list items => exact absurd hdeclared (hlist items)
        | bool b => exact absurd hdeclared (hbool b)
        | _ => rfl
  obtain ⟨v, rfl, hv⟩ := hset
  rw [Dict.get_set, hv]

theorem find?_updateFirst {sectionName : String} {change : ContentSection → ContentSection}
    (hchange : ∀ c, (change c).name = c.name) (name : String) (l : List ContentSection) :
    ((updateFirst sectionName change l).find? fun c => c.name = some name) =
      if sectionName = name then (l.find? fun c => c.name = some name).map change
      else l.find? fun c => c.name = some name := by
  induction l with
  | nil => simp [updateFirst]
  | cons c l ih =>
    rw [updateFirst]
    by_cases hc : c.name = some sectionName
    · rw [if_pos hc]
      by_cases hname : sectionName = name
      · subst hname
        simp [hchange, hc]
      · simp [hchange, hc, hname]
    · rw [if_neg hc]
      by_cases hname : sectionName = name
      · subst hname
        rw [List.find?_cons_of_neg (by simpa using hc), ih,
          List.find?_cons_of_neg (by simpa using hc)]
      · rw [if_neg hname] at ih ⊢
        rw [List.find?_cons, List.find?_cons, ih]

/-- The properties of an entry, none when it has no `properties`. -/
theorem get_getD_properties (content : ContentSection) (key : String) :
    (content.properties.getD Dict.empty).get key =
      content.properties.bind fun d => d.get key := by
  cases content.properties <;> rfl

/-- What one value of the command line reads and writes. -/
theorem overwriteOne_reads {sectionName : String} {property : String × String}
    (h : Returns (overwriteOne sectionName property) f () f') :
    ∃ s content properties, f.sections.get sectionName = some s ∧
      (f.contentSections.find? fun c => c.name = some sectionName) = some content ∧
      overwriteProperty s.base.properties (content.properties.getD Dict.empty) property.1
        property.2 = .ok properties ∧
      f'.contentSections = updateFirst sectionName
        (fun c => { c with properties := some properties }) f.contentSections := by
  unfold overwriteOne at h
  rw [returns_get_bind] at h
  split at h
  · exact absurd h not_returns_throw
  next content hfind =>
    obtain ⟨s, f₁, hread, h⟩ := returns_bind.mp h
    obtain ⟨hs, rfl⟩ := returns_reading.mp hread
    obtain ⟨properties, f₁, hread, h⟩ := returns_bind.mp h
    obtain ⟨hproperties, rfl⟩ := returns_reading.mp hread
    obtain rfl := returns_set.mp h
    refine ⟨s, content, properties, ?_, hfind, hproperties, rfl⟩
    split at hs <;> cases hs
    assumption

/-- One value of the command line changes one property of one section. -/
theorem contentValue_overwriteOne {sectionName key value : String}
    (h : Returns (overwriteOne sectionName (key, value)) f () f') (name other : String) :
    f'.contentValue name other =
      if sectionName = name ∧ key = other then
        overridden (f.declaredValue name other) (f.contentValue name other) [value]
      else f.contentValue name other := by
  obtain ⟨s, content, properties, hs, hfind, hproperties, hentries⟩ := overwriteOne_reads h
  unfold contentValue
  rw [hentries, find?_updateFirst (by intro c; rfl)]
  by_cases hname : sectionName = name
  · subst hname
    rw [if_pos rfl, hfind]
    change properties.get other = _
    rw [get_overwriteProperty hproperties, get_getD_properties, get_getD_properties]
    by_cases hkey : key = other
    · subst hkey
      rw [if_pos rfl, if_pos ⟨rfl, rfl⟩]
      unfold declaredValue
      rw [hs]
      rfl
    · rw [if_neg hkey, if_neg fun hand => hkey hand.2]
      rfl
  · rw [if_neg hname, if_neg fun hand => hname hand.1]

/-- The values given so far are applied, to the properties they address. -/
structure Applied (f u : Flash) (properties : List (String × List (String × String))) : Prop where
  sections : u.sections = f.sections
  content : ∀ name key, u.contentValue name key =
    overridden (f.declaredValue name key) (f.contentValue name key)
      (givenValues properties name key)

theorem givenValues_append (properties rest : List (String × List (String × String)))
    (name key : String) : givenValues (properties ++ rest) name key =
      givenValues properties name key ++ givenValues rest name key := by
  unfold givenValues
  rw [List.filter_append, List.flatMap_append]

/-- One more value for a section. -/
theorem givenValues_item (sectionName : String) (items : List (String × String))
    (key value name other : String) :
    givenValues [(sectionName, items ++ [(key, value)])] name other =
      givenValues [(sectionName, items)] name other ++
        if sectionName = name ∧ key = other then [value] else [] := by
  unfold givenValues valuesOf
  by_cases hname : sectionName = name
  · by_cases hkey : key = other <;> simp [hname, hkey]
  · simp [hname]

theorem Applied.overwriteOne {f u u' : Flash}
    {done : List (String × List (String × String))} {sectionName : String}
    {items : List (String × String)} {property : String × String}
    (hI : Applied f u (done ++ [(sectionName, items)]))
    (h : Returns (overwriteOne sectionName property) u () u') :
    Applied f u' (done ++ [(sectionName, items ++ [property])]) := by
  obtain ⟨key, value⟩ := property
  have hsame := keeps_overwriteOne _ _ _ _ _ h
  refine ⟨?_, fun name other => ?_⟩
  · rw [hsame.1]
    exact hI.sections
  · have hdeclared : u.declaredValue name other = f.declaredValue name other := by
      unfold declaredValue
      rw [hI.sections]
    rw [contentValue_overwriteOne h, hI.content, hdeclared, givenValues_append,
      givenValues_append, givenValues_item, ← List.append_assoc]
    by_cases hboth : sectionName = name ∧ key = other
    · rw [if_pos hboth, if_pos hboth, overridden_append_singleton]
    · rw [if_neg hboth, if_neg hboth, List.append_nil]

theorem Applied.overwriteSectionProperties {f u u' : Flash}
    {done : List (String × List (String × String))} {p : String × List (String × String)}
    (hI : Applied f u done) (h : Returns (overwriteSectionProperties p) u () u') :
    Applied f u' (done ++ [p]) := by
  obtain ⟨sectionName, items⟩ := p
  unfold Flash.overwriteSectionProperties at h
  rw [returns_get_bind] at h
  split at h
  · exact absurd h not_returns_throw
  · have hstart : Applied f u (done ++ [(sectionName, [])]) := by
      refine ⟨hI.sections, fun name key => ?_⟩
      have hnone : givenValues [(sectionName, [])] name key = [] := by
        unfold givenValues valuesOf
        by_cases hname : sectionName = name <;> simp [hname]
      rw [hI.content, givenValues_append, hnone, List.append_nil]
    have hrun := forEach_induct (fun items u => Applied f u (done ++ [(sectionName, items)]))
      (fun _ _ _ _ hI hone => hI.overwriteOne hone) [] hstart h
    exact hrun

/-- What the content says once the command line was applied. -/
theorem applied_handleSectionProperties (h : Returns handleSectionProperties f () f') :
    Applied f f' f.properties := by
  unfold handleSectionProperties at h
  rw [returns_get_bind] at h
  exact forEach_induct (fun done u => Applied f u done)
    (fun _ _ _ _ hI hone => hI.overwriteSectionProperties hone) [] ⟨rfl, fun _ _ => rfl⟩ h

/-! ## Which sections are given their content -/

/-- The section of an entry ends inside the flash. -/
def EndsInside (f : Flash) (content : ContentSection) : Prop :=
  ∀ name s size, content.name = some name → f.sections.get name = some s →
    s.getSize = .ok size → s.offset + size ≤ f.size

/-- The placement loop touches the sections of its entries only. -/
theorem get_placeSections {checkOverflow : Bool} {cs : List ContentSection} :
    ∀ {f f' : Flash} {offset : Int} {p : Placement},
      Returns (placeSections host checkOverflow offset cs) f p f' →
      ∀ name, some name ∉ cs.map ContentSection.name →
        f'.sections.get name = f.sections.get name := by
  induction cs with
  | nil =>
    intro f f' offset p h name _
    rw [(returns_pure.mp h).2]
  | cons c cs ih =>
    intro f f' offset p h name hname
    rw [List.map_cons, List.mem_cons, not_or] at hname
    obtain ⟨next, f₁, hplace, hrest⟩ := returns_placeSections_cons.mp h
    obtain ⟨n, s, s', size, hn, -, -, -, -, rfl⟩ := placeSection_inv hplace
    have hone : (f.sections.set n s').get name = f.sections.get name := by
      refine Dict.get_set_of_ne _ ?_
      rintro rfl
      exact hname.1 hn.symm
    rcases hrest with ⟨-, -, -, rfl⟩ | ⟨-, hrest⟩
    · exact hone
    · exact (ih hrest name hname.2).trans hone

/-- Unless a section before it ended behind the flash, the section of an entry has
the properties its content gives. -/
theorem property_placeSections {checkOverflow : Bool} {pre post : List ContentSection}
    {c : ContentSection} : ∀ {f f' : Flash} {offset : Int} {p : Placement},
      Returns (placeSections host checkOverflow offset (pre ++ c :: post)) f p f' →
      ((pre ++ c :: post).map ContentSection.name).Nodup →
      (checkOverflow = true ∨ ∀ b ∈ pre, f'.EndsInside b) →
      ∃ name s s', c.name = some name ∧ f.sections.get name = some s ∧
        f'.sections.get name = some s' ∧ ∀ key,
          s'.base.properties.get key = (s.base.properties.get key).map fun p =>
            p.given (c.properties.bind fun d => d.get key) := by
  induction pre with
  | nil =>
    intro f f' offset p h hnames _
    rw [List.nil_append, List.map_cons, List.nodup_cons] at hnames
    obtain ⟨next, f₁, hplace, hrest⟩ := returns_placeSections_cons.mp h
    obtain ⟨name, s, s', size, hname, hs, hset, -, -, rfl⟩ := placeSection_inv hplace
    refine ⟨name, s, s', hname, hs, ?_, ?_⟩
    · have hone : (f.sections.set name s').get name = some s' := Dict.get_set_self _ _ _
      rcases hrest with ⟨-, -, -, rfl⟩ | ⟨-, hrest⟩
      · exact hone
      · rw [get_placeSections hrest name (by rw [← hname]; exact hnames.1)]
        exact hone
    · obtain ⟨-, specs, hplaced, -⟩ := Section.setContent_inv hset
      intro key
      rw [hplaced.property]
      cases s <;> rfl
  | cons b pre ih =>
    intro f f' offset p h hnames hinside
    rw [List.cons_append, List.map_cons, List.nodup_cons] at hnames
    obtain ⟨next, f₁, hplace, hrest⟩ := returns_placeSections_cons.mp h
    obtain ⟨n, t, t', size, hn, -, -, hsize, rfl, rfl⟩ := placeSection_inv hplace
    rcases hrest with ⟨hover, hcheck, -, rfl⟩ | ⟨-, hrest⟩
    · rcases hinside with htrue | hinside
      · rw [hcheck] at htrue
        cases htrue
      · have hle := hinside b List.mem_cons_self n t' size hn (Dict.get_set_self _ _ _) hsize
        exact absurd hle (not_le.mpr hover)
    · obtain ⟨name, s, s', hname, hs, hs', hproperty⟩ := ih hrest hnames.2
        (hinside.imp id fun hall a ha => hall a (List.mem_cons_of_mem b ha))
      refine ⟨name, s, s', hname, ?_, hs', hproperty⟩
      have hne : n ≠ name := by
        rintro rfl
        refine hnames.1 (hn.trans hname.symm ▸ ?_)
        exact List.mem_map_of_mem (List.mem_append_right _ List.mem_cons_self)
      rw [← hs]
      exact (Dict.get_set_of_ne _ hne).symm

/-! ## A whole parse -/

/-- With distinct names the entry of a name is found. -/
theorem find?_middle {pre post : List ContentSection} {c : ContentSection} {name : String}
    (hname : c.name = some name)
    (hnames : ((pre ++ c :: post).map ContentSection.name).Nodup) :
    ((pre ++ c :: post).find? fun b => b.name = some name) = some c := by
  rw [List.map_append, List.nodup_append] at hnames
  have hpre : (pre.find? fun b => b.name = some name) = none := by
    rw [List.find?_eq_none]
    intro b hb hbname
    refine hnames.2.2 _ (List.mem_map_of_mem hb) _ (List.mem_map_of_mem List.mem_cons_self) ?_
    rw [hname]
    exact of_decide_eq_true hbname
  rw [List.find?_append, hpre, Option.none_or, List.find?_cons_of_pos (by simpa using hname)]

/-- Finalizing moves no section. -/
theorem SameSections.endsInside {u v : Flash} (h : SameSections u v) {b : ContentSection}
    (hinside : v.EndsInside b) : u.EndsInside b := by
  intro name s size hname hs hsize
  have hkey : name ∈ v.sections.keys := by
    rw [h.keys]
    exact Dict.mem_keys_iff.mpr ⟨s, hs⟩
  obtain ⟨s', hs'⟩ := Dict.mem_keys_iff.mp hkey
  obtain ⟨t, ht, hlayout⟩ := h.layout name s' hs'
  obtain rfl : s = t := Option.some.inj (hs.symm.trans ht)
  have hoffset : s'.offset = s.offset := hlayout.base.offset
  have hsize' : s'.getSize = s.getSize := hlayout.base.getSize
  have hflash : v.size = u.size := by rw [h.frame]
  have hle := hinside name s' size hname hs' (hsize'.trans hsize)
  rw [hoffset, hflash] at hle
  exact hle

/-- The section of an entry, as the first loop of a parse creates it. -/
theorem get_createSections (hempty : f.sections = Dict.empty)
    (hnames : (f.contentSections.map ContentSection.name).Nodup)
    (h : Returns (forEach (createSection host) f.contentSections) f () f')
    {c : ContentSection} (hc : c ∈ f.contentSections) :
    ∃ name template, c.name = some name ∧
      c.template.bind f.sectionsTemplates.get = some template ∧
      ∃ sectionId, f'.sections.get name = some (template.new name sectionId) := by
  obtain ⟨es, hcreated, -, rfl⟩ := returns_createSections hnames hempty h
  obtain ⟨i, hi⟩ := List.mem_iff_getElem?.mp hc
  have hzip : f.contentSections.zipIdx[i]? = some (c, i) := by simp [hi]
  obtain ⟨⟨name, s⟩, he, hname, templateName, template, htemplate, hget, hs⟩ :=
    getElem?_forall₂ hcreated hzip
  refine ⟨name, template, hname, ?_, i, ?_⟩
  · rw [htemplate]
    exact hget
  · rw [Dict.get_eq_some_iff, ← hs]
    exact List.mem_of_getElem? he

/-- After a parse, the section of an entry that was given its content has every
property its class declares, with the value it is to have. -/
theorem parseContent_property {checkOverflow : Bool} (hfresh : f.Fresh) (hnames : f.DistinctNames)
    (h : Returns (parseContent host checkOverflow) f () f') {pre post : List ContentSection}
    {c : ContentSection} (hentries : f.contentSections = pre ++ c :: post)
    (hinside : checkOverflow = true ∨ ∀ b ∈ pre, f'.EndsInside b) :
    ∃ name template s, c.name = some name ∧
      c.template.bind f.sectionsTemplates.get = some template ∧
      f'.sections.get name = some s ∧ ∀ key p, template.declared.get key = some p →
        s.base.getProperty key = .ok (expectedProperty p.value
          (c.properties.bind fun d => d.get key) (givenValues f.properties name key)) := by
  obtain ⟨f₁, f₂, f₃, p, hcreate, hprops, hplace, hfinalize⟩ :=
    parseContent_inv hfresh.contentParsed hfresh.contentDict h
  have hsame := keeps_handleSectionProperties _ _ _ hprops
  have happlied := applied_handleSectionProperties hprops
  have hfinal := keeps_finalizeSections _ _ _ _ hfinalize
  obtain ⟨es, -, hframe₁, -⟩ := returns_createSections hnames (by exact hfresh.sections) hcreate
  have hcontent₁ : f₁.contentSections = f.contentSections := by rw [hframe₁]; rfl
  have hproperties₁ : f₁.properties = f.properties := by rw [hframe₁]
  have hc : c ∈ f.contentSections := by
    rw [hentries]
    exact List.mem_append_right _ List.mem_cons_self
  obtain ⟨name, template, hname, htemplate, sectionId, hnew⟩ :=
    get_createSections (f := { f with contentParsed := true }) hfresh.sections hnames hcreate hc
  -- the command line keeps the names, so the entry is at the same place behind it
  have hmap : f₂.contentSections.map ContentSection.name =
      (pre ++ c :: post).map ContentSection.name := by
    rw [hsame.2, hcontent₁, hentries]
  rw [List.map_append, List.map_cons] at hmap
  obtain ⟨pre', tail, htail, hpre, hrest⟩ := List.map_eq_append_iff.mp hmap
  obtain ⟨c', post', rfl, hc', -⟩ := List.map_eq_cons_iff.mp hrest
  have hnames₂ : ((pre' ++ c' :: post').map ContentSection.name).Nodup := by
    rw [← htail, hsame.2, hcontent₁]
    exact hnames
  have hinside' : checkOverflow = true ∨ ∀ b ∈ pre', f₃.EndsInside b := by
    refine hinside.imp id fun hall b hb => hfinal.endsInside ?_
    have hb' : b.name ∈ pre.map ContentSection.name := hpre ▸ List.mem_map_of_mem hb
    obtain ⟨a, ha, hab⟩ := List.mem_map.mp hb'
    intro n s size hn hs hsize
    exact hall a ha n s size (hab.trans hn) hs hsize
  rw [htail] at hplace
  obtain ⟨name', s, s', hname', hs, hs', hproperty⟩ :=
    property_placeSections hplace hnames₂ hinside'
  obtain rfl : name = name' := Option.some.inj (hname.symm.trans (hc'.symm.trans hname'))
  have hs : f₁.sections.get name = some s := happlied.sections ▸ hs
  obtain rfl : template.new name sectionId = s := Option.some.inj (hnew.symm.trans hs)
  have hkey : name ∈ f'.sections.keys := by
    rw [hfinal.keys]
    exact Dict.mem_keys_iff.mpr ⟨s', hs'⟩
  obtain ⟨t, ht⟩ := Dict.mem_keys_iff.mp hkey
  obtain ⟨t₃, ht₃, hlayout⟩ := hfinal.layout name t ht
  obtain rfl : s' = t₃ := Option.some.inj (hs'.symm.trans ht₃)
  refine ⟨name, template, t, hname, htemplate, ht, fun key p hp => ?_⟩
  have hvalue : (c'.properties.bind fun d => d.get key) =
      overridden (some p.value) (c.properties.bind fun d => d.get key)
        (givenValues f.properties name key) := by
    have hafter : f₂.contentValue name key = c'.properties.bind fun d => d.get key := by
      unfold contentValue
      rw [htail, find?_middle hname' hnames₂]
      rfl
    have hbefore : f₁.contentValue name key = c.properties.bind fun d => d.get key := by
      have hdistinct : ((pre ++ c :: post).map ContentSection.name).Nodup := hentries ▸ hnames
      unfold contentValue
      rw [hcontent₁, hentries, find?_middle hname hdistinct]
      rfl
    have hdeclared : f₁.declaredValue name key = some p.value := by
      unfold declaredValue
      rw [hs, Option.bind_some, SectionTemplate.properties_new, hp]
      rfl
    rw [← hafter, happlied.content, hbefore, hdeclared, hproperties₁]
  have hget : t.base.properties.get key =
      some (p.given (c'.properties.bind fun d => d.get key)) := by
    rw [hlayout.base.properties, hproperty, SectionTemplate.properties_new, hp]
    rfl
  unfold FlashSection.getProperty
  rw [hget, hvalue]
  rfl

end Flash

end SoftHier.Gapy
