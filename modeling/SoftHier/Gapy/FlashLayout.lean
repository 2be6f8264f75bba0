/-
  Gapy/FlashLayout.lean --- what a normal parse of a flash content did.

  `__parse_content` creates the sections, applies the command line, places the
  sections one after the other and finalizes them.  With distinct names every
  entry has its own section, so each loop is a pass over one list of sections.
-/
import SoftHier.Gapy.SectionPlacement
import SoftHier.Gapy.Flash

set_option autoImplicit false

namespace SoftHier.Gapy

open SoftHier.Foundation Program

namespace Flash

variable {host : Host} {f f' : Flash}

/-! ## One step of each loop -/

theorem entryKey_inv {content : ContentSection} {name : String}
    (h : Returns (entryKey content) f name f') : content.name = some name ∧ f = f' := by
  unfold entryKey at h
  cases hn : content.name with
  | none =>
    rw [hn] at h
    exact absurd h not_returns_throw
  | some n =>
    rw [hn] at h
    obtain ⟨rfl, rfl⟩ := returns_pure.mp h
    exact ⟨rfl, rfl⟩

theorem onSection_inv {name : String} {p : Program PyError Section Unit}
    (h : Returns (onSection name p) f () f') :
    ∃ s s', f.sections.get name = some s ∧ Returns p s () s' ∧
      f' = { f with sections := f.sections.set name s' } := by
  unfold Returns onSection at h
  cases hs : f.sections.get name with
  | none =>
    rw [hs] at h
    cases h
  | some s =>
    rw [hs] at h
    cases hp : p s with
    | ok u s' =>
      simp only [hp] at h
      cases h
      exact ⟨s, s', rfl, hp, rfl⟩
    | error e s' =>
      simp only [hp] at h
      cases h

theorem createSection_inv {content : ContentSection}
    (h : Returns (createSection host content) f () f') :
    ∃ name templateName template, content.name = some name ∧
      content.template = some templateName ∧
      f.sectionsTemplates.get templateName = some template ∧
      f' = { f with sections := f.sections.set name (template.new name f.sections.length) } := by
  unfold createSection at h
  cases hn : content.name with
  | none =>
    rw [hn] at h
    exact absurd h not_returns_throw
  | some name =>
    cases ht : content.template with
    | none =>
      rw [hn, ht] at h
      exact absurd h not_returns_throw
    | some templateName =>
      simp only [hn, ht, returns_get_bind] at h
      cases hs : f.sectionsTemplates.get templateName with
      | none =>
        rw [hs] at h
        exact absurd h not_returns_throw
      | some template =>
        rw [hs] at h
        exact ⟨name, templateName, template, rfl, rfl, hs, (returns_set.mp h).symm⟩

/-- Placing a section sets its alignments, then its content. -/
theorem placeSection_inv {content : ContentSection} {offset next : Int}
    (h : Returns (placeSection host offset content) f next f') :
    ∃ name s s' size, content.name = some name ∧ f.sections.get name = some s ∧
      Returns (Section.setContent host f.context offset content)
        (s.setAlignments (f.flashAttributes.get "section_start_align")
          (f.flashAttributes.get "section_size_align")) () s' ∧
      s'.getSize = .ok size ∧ next = s'.offset + size ∧
      f' = { f with sections := f.sections.set name s' } := by
  unfold placeSection at h
  obtain ⟨name, f₁, hkey, h⟩ := returns_bind.mp h
  obtain ⟨hname, rfl⟩ := entryKey_inv hkey
  rw [returns_get_bind] at h
  obtain ⟨_, f₁, halign, h⟩ := returns_bind.mp h
  obtain ⟨s, t, hs, ht, rfl⟩ := onSection_inv halign
  cases ht
  obtain ⟨_, f₂, hcontent, h⟩ := returns_bind.mp h
  obtain ⟨t, s', ht, hset, rfl⟩ := onSection_inv hcontent
  rw [Dict.get_set_self, Option.some.injEq] at ht
  subst ht
  simp only [Dict.set_set] at h
  obtain ⟨t, f₃, hread, h⟩ := returns_bind.mp h
  obtain ⟨ht, rfl⟩ := returns_reading.mp hread
  rw [Dict.get_set_self] at ht
  obtain rfl := Except.ok.inj ht
  obtain ⟨size, f₄, hread, h⟩ := returns_bind.mp h
  obtain ⟨hsize, rfl⟩ := returns_reading.mp hread
  obtain ⟨rfl, rfl⟩ := returns_pure.mp h
  exact ⟨name, s, s', size, hname, hs, hset, hsize, rfl, rfl⟩

theorem finalizeSection_inv {content : ContentSection}
    (h : Returns (finalizeSection content) f () f') :
    ∃ name s s', content.name = some name ∧ f.sections.get name = some s ∧
      Returns (Section.finalize (f.sections.values.map Section.view)) s () s' ∧
      f' = { f with sections := f.sections.set name s' } := by
  unfold finalizeSection at h
  obtain ⟨name, f₁, hkey, h⟩ := returns_bind.mp h
  obtain ⟨hname, rfl⟩ := entryKey_inv hkey
  rw [returns_get_bind] at h
  obtain ⟨s, s', hs, hfinalize, rfl⟩ := onSection_inv h
  exact ⟨name, s, s', hname, hs, hfinalize, rfl⟩

/-- One pass of the placement loop; without the check it may be the last one. -/
theorem returns_placeSections_cons {checkOverflow : Bool} {content : ContentSection}
    {rest : List ContentSection} {offset : Int} {p : Placement} :
    Returns (placeSections host checkOverflow offset (content :: rest)) f p f' ↔
      ∃ next f₁, Returns (placeSection host offset content) f next f₁ ∧
        (next > f₁.size ∧ checkOverflow = false ∧ p = .overflow ∧ f' = f₁ ∨
          next ≤ f₁.size ∧ Returns (placeSections host checkOverflow next rest) f₁ p f') := by
  constructor
  · intro h
    rw [placeSections] at h
    obtain ⟨next, f₁, hplace, h⟩ := returns_bind.mp h
    rw [returns_get_bind] at h
    refine ⟨next, f₁, hplace, ?_⟩
    by_cases hover : next > (f₁.size : Int)
    · rw [if_pos hover] at h
      cases checkOverflow with
      | true => exact absurd h not_returns_throw
      | false =>
        obtain ⟨hp, hf⟩ := returns_pure.mp h
        exact .inl ⟨hover, rfl, hp.symm, hf.symm⟩
    · rw [if_neg hover] at h
      exact .inr ⟨not_lt.mp hover, h⟩
  · rintro ⟨next, f₁, hplace, h⟩
    rw [placeSections]
    refine Returns.bind hplace ?_
    rw [returns_get_bind]
    rcases h with ⟨hover, rfl, rfl, rfl⟩ | ⟨hle, hrest⟩
    · rw [if_pos hover, if_neg (by simp)]
      exact returns_pure.mpr ⟨rfl, rfl⟩
    · rw [if_neg (not_lt.mpr hle)]
      exact hrest

/-- One pass of the placement loop that checks for overflow. -/
theorem placeSections_cons_inv {content : ContentSection} {rest : List ContentSection}
    {offset : Int} {p : Placement}
    (h : Returns (placeSections host true offset (content :: rest)) f p f') :
    ∃ next f₁, Returns (placeSection host offset content) f next f₁ ∧ next ≤ f₁.size ∧
      Returns (placeSections host true next rest) f₁ p f' := by
  obtain ⟨next, f₁, hplace, ⟨-, hcheck, -, -⟩ | hrest⟩ := returns_placeSections_cons.mp h
  · cases hcheck
  · exact ⟨next, f₁, hplace, hrest⟩

/-- A parse is its loops. -/
theorem returns_parseContent_of {checkOverflow : Bool} (hparsed : f.contentParsed = false)
    (hcontent : f.contentDict.isNone = false) {f₁ f₂ f₃ : Flash} {p : Placement}
    (hcreate : Returns (forEach (createSection host) f.contentSections)
      { f with contentParsed := true } () f₁)
    (hprops : Returns handleSectionProperties f₁ () f₂)
    (hplace : Returns (placeSections host checkOverflow 0 f₂.contentSections) f₂ p f₃)
    (hfinalize : Returns (forEach finalizeSection f₂.contentSections) f₃ () f') :
    Returns (parseContent host checkOverflow) f () f' := by
  unfold parseContent
  rw [returns_get_bind, hparsed, hcontent, if_neg (by simp)]
  refine Returns.bind (a := ⟨⟩) (returns_set.mpr rfl) ?_
  refine Returns.bind hcreate (Returns.bind hprops ?_)
  rw [returns_get_bind]
  exact Returns.bind hplace hfinalize

/-- A parse raises what its placement loop raises. -/
theorem raises_parseContent_of {checkOverflow : Bool} (hparsed : f.contentParsed = false)
    (hcontent : f.contentDict.isNone = false) {f₁ f₂ f₃ : Flash} {e : PyError}
    (hcreate : Returns (forEach (createSection host) f.contentSections)
      { f with contentParsed := true } () f₁)
    (hprops : Returns handleSectionProperties f₁ () f₂)
    (hplace : Raises (placeSections host checkOverflow 0 f₂.contentSections) f₂ e f₃) :
    Raises (parseContent host checkOverflow) f e f₃ := by
  unfold parseContent
  rw [raises_get_bind, hparsed, hcontent, if_neg (by simp)]
  refine raises_bind.mpr (.inr ⟨⟨⟩, _, returns_set.mpr rfl, ?_⟩)
  refine raises_bind.mpr (.inr ⟨(), f₁, hcreate, raises_bind.mpr (.inr ⟨(), f₂, hprops, ?_⟩)⟩)
  rw [raises_get_bind]
  exact hplace.bind _

/-- The loops of a parse that did something. -/
theorem parseContent_inv {checkOverflow : Bool} (hparsed : f.contentParsed = false)
    (hcontent : f.contentDict.isNone = false)
    (h : Returns (parseContent host checkOverflow) f () f') :
    ∃ f₁ f₂ f₃ p,
      Returns (forEach (createSection host) f.contentSections)
        { f with contentParsed := true } () f₁ ∧
      Returns handleSectionProperties f₁ () f₂ ∧
      Returns (placeSections host checkOverflow 0 f₂.contentSections) f₂ p f₃ ∧
      Returns (forEach finalizeSection f₂.contentSections) f₃ () f' := by
  unfold parseContent at h
  rw [returns_get_bind, hparsed, hcontent, if_neg (by simp)] at h
  obtain ⟨_, f₀, hset, h⟩ := returns_bind.mp h
  obtain rfl := returns_set.mp hset
  obtain ⟨_, f₁, hcreate, h⟩ := returns_bind.mp h
  obtain ⟨_, f₂, hprops, h⟩ := returns_bind.mp h
  rw [returns_get_bind] at h
  obtain ⟨p, f₃, hplace, h⟩ := returns_bind.mp h
  exact ⟨f₁, f₂, f₃, p, hcreate, hprops, hplace, h⟩

/-! ## Applying the command line -/

theorem map_name_updateFirst {name : String} {change : ContentSection → ContentSection}
    (hchange : ∀ c, (change c).name = c.name) (l : List ContentSection) :
    (updateFirst name change l).map ContentSection.name = l.map ContentSection.name := by
  induction l with
  | nil => rfl
  | cons c l ih =>
    rw [updateFirst]
    split
    · rw [List.map_cons, List.map_cons, hchange]
    · rw [List.map_cons, List.map_cons, ih]

/-- The second flash is the first with another content under the same names. -/
def SameNames (f f' : Flash) : Prop :=
  f' = { f with contentDict := f'.contentDict } ∧
    f'.contentSections.map ContentSection.name = f.contentSections.map ContentSection.name

theorem SameNames.refl (f : Flash) : SameNames f f := ⟨rfl, rfl⟩

theorem SameNames.trans {a b c : Flash} (h : SameNames a b) (h' : SameNames b c) :
    SameNames a c := by
  refine ⟨?_, h'.2.trans h.2⟩
  rw [h'.1, h.1]

theorem overwriteOne_inv {sectionName : String} {property : String × String}
    (h : Returns (overwriteOne sectionName property) f () f') :
    ∃ declared content properties, content ∈ f.contentSections ∧
      overwriteProperty declared (content.properties.getD Dict.empty) property.1 property.2 =
        .ok properties ∧
      f' = { f with contentDict := some { sections := some (updateFirst sectionName
        (fun c => { c with properties := some properties }) f.contentSections) } } := by
  unfold overwriteOne at h
  rw [returns_get_bind] at h
  split at h
  · exact absurd h not_returns_throw
  next content hfind =>
    obtain ⟨s, f₁, hread, h⟩ := returns_bind.mp h
    obtain ⟨-, rfl⟩ := returns_reading.mp hread
    obtain ⟨properties, f₁, hread, h⟩ := returns_bind.mp h
    obtain ⟨hproperties, rfl⟩ := returns_reading.mp hread
    exact ⟨_, content, properties, List.mem_of_find?_eq_some hfind, hproperties,
      (returns_set.mp h).symm⟩

theorem keeps_overwriteOne (sectionName : String) (property : String × String) :
    Keeps SameNames (overwriteOne sectionName property) := by
  intro f u f' h
  obtain ⟨declared, content, properties, -, -, rfl⟩ := overwriteOne_inv h
  exact ⟨rfl, map_name_updateFirst (by intro c; rfl) _⟩

theorem keeps_overwriteSectionProperties (p : String × List (String × String)) :
    Keeps SameNames (overwriteSectionProperties p) := by
  unfold overwriteSectionProperties
  refine keeps_bind (R := SameNames) (fun _ _ _ => SameNames.trans) (keeps_get SameNames.refl)
    fun f => ?_
  split
  · exact keeps_throw _
  · exact keeps_forEach SameNames.refl (fun _ _ _ => SameNames.trans)
      (fun property _ => keeps_overwriteOne p.1 property)

/-- The command line changes no name. -/
theorem keeps_handleSectionProperties : Keeps SameNames handleSectionProperties := by
  unfold handleSectionProperties
  refine keeps_bind (R := SameNames) (fun _ _ _ => SameNames.trans) (keeps_get SameNames.refl)
    fun f => ?_
  exact keeps_forEach SameNames.refl (fun _ _ _ => SameNames.trans)
    (fun p _ => keeps_overwriteSectionProperties p)

/-! ## The loops, with distinct names -/

/-- A flash nothing was done with yet. -/
structure Fresh (f : Flash) : Prop where
  sections : f.sections = Dict.empty
  contentParsed : f.contentParsed = false
  contentDict : f.contentDict.isNone = false

/-- The names of the content are different. -/
def DistinctNames (f : Flash) : Prop := (f.contentSections.map ContentSection.name).Nodup

instance (f : Flash) : Decidable f.DistinctNames := inferInstanceAs (Decidable (List.Nodup _))

/-- The section an entry creates, under its name, at its place in the content. -/
def CreatedFrom (f : Flash) (p : ContentSection × Nat) (e : String × Section) : Prop :=
  p.1.name = some e.1 ∧ ∃ templateName template, p.1.template = some templateName ∧
    f.sectionsTemplates.get templateName = some template ∧ e.2 = template.new e.1 p.2

theorem names_of_created {cs : List ContentSection} {es : List (String × Section)} {k : Nat}
    (h : List.Forall₂ (CreatedFrom f) (cs.zipIdx k) es) :
    cs.map ContentSection.name = es.map fun e => some e.1 := by
  induction cs generalizing es k with
  | nil =>
    rw [List.zipIdx_nil, List.forall₂_nil_left_iff] at h
    rw [h]
    rfl
  | cons c cs ih =>
    rw [List.zipIdx_cons, List.forall₂_cons_left_iff] at h
    obtain ⟨e, es', he, hrest, rfl⟩ := h
    rw [List.map_cons, List.map_cons, ih hrest, he.1]

theorem returns_createSections {cs : List ContentSection}
    (hnames : (cs.map ContentSection.name).Nodup) (hempty : f.sections = Dict.empty)
    (h : Returns (forEach (createSection host) cs) f () f') :
    ∃ es, List.Forall₂ (CreatedFrom f) cs.zipIdx es ∧ f' = { f with sections := f'.sections } ∧
      f'.sections.entries = es := by
  have hinv := forEach_induct
    (fun done u => (done.map ContentSection.name).Nodup →
      u = { f with sections := u.sections } ∧
        List.Forall₂ (CreatedFrom f) done.zipIdx u.sections.entries)
    (fun done c u u' hI hone hnodup => by
      rw [List.map_append, List.nodup_append] at hnodup
      obtain ⟨hframe, hcreated⟩ := hI hnodup.1
      obtain ⟨name, templateName, template, hname, htemplate, hget, rfl⟩ := createSection_inv hone
      have hnot : name ∉ u.sections.keys := by
        intro hmem
        have hdone : some name ∈ done.map ContentSection.name := by
          rw [names_of_created hcreated]
          obtain ⟨e, he, rfl⟩ := List.mem_map.mp hmem
          exact List.mem_map.mpr ⟨e, he, rfl⟩
        exact hnodup.2.2 _ hdone _ (by simp [hname]) rfl
      refine ⟨by rw [hframe], ?_⟩
      have hlen : done.length = u.sections.length := by
        have := hcreated.length_eq
        rwa [List.length_zipIdx] at this
      change List.Forall₂ _ _ (u.sections.set name _).entries
      rw [Dict.entries_set_of_not_mem _ hnot, List.zipIdx_append]
      refine List.rel_append hcreated (List.Forall₂.cons ?_ List.Forall₂.nil)
      rw [hframe] at hget
      refine ⟨hname, templateName, template, htemplate, hget, ?_⟩
      rw [hlen, Nat.zero_add]) [] (fun _ => ⟨rfl, by rw [hempty]; exact List.Forall₂.nil⟩) h
  rw [List.nil_append] at hinv
  obtain ⟨hframe, hcreated⟩ := hinv hnames
  exact ⟨_, hcreated, hframe, rfl⟩

/-- The placement of a list of entries from an offset on, each in its own
section. -/
inductive Placements (host : Host) (flash : FlashContext) (limit : Nat)
    (startAlign sizeAlign : Option Int) :
    Int → List ContentSection → List (String × Section) → List (String × Section) → Prop where
  | nil (offset : Int) : Placements host flash limit startAlign sizeAlign offset [] [] []
  | cons {offset size : Int} {c : ContentSection} {name : String} {s s' : Section}
      {cs : List ContentSection} {es ps : List (String × Section)}
      (content : Returns (Section.setContent host flash offset c)
        (s.setAlignments startAlign sizeAlign) () s')
      (reported : s'.getSize = .ok size) (fits : s'.offset + size ≤ limit)
      (rest : Placements host flash limit startAlign sizeAlign (s'.offset + size) cs es ps) :
      Placements host flash limit startAlign sizeAlign offset (c :: cs) ((name, s) :: es)
        ((name, s') :: ps)

/-- The placements a flash makes. -/
abbrev PlacementsIn (host : Host) (f : Flash) :
    Int → List ContentSection → List (String × Section) → List (String × Section) → Prop :=
  Placements host f.context f.size (f.flashAttributes.get "section_start_align")
    (f.flashAttributes.get "section_size_align")

/-- The placement of the section at a known place in the table. -/
theorem placeSection_middle_inv {c : ContentSection} {pre es : List (String × Section)}
    {name : String} {s : Section} {offset next : Int}
    (hentries : f.sections.entries = pre ++ (name, s) :: es) (hname : c.name = some name)
    (h : Returns (placeSection host offset c) f next f') :
    ∃ s' size, Returns (Section.setContent host f.context offset c)
        (s.setAlignments (f.flashAttributes.get "section_start_align")
          (f.flashAttributes.get "section_size_align")) () s' ∧
      s'.getSize = .ok size ∧ next = s'.offset + size ∧
      f' = { f with sections := f.sections.set name s' } ∧ f'.context = f.context ∧
      f'.sections.entries = (pre ++ [(name, s')]) ++ es := by
  obtain ⟨name', t, s', size, hname', ht, hset, hsize, hnext, rfl⟩ := placeSection_inv h
  obtain rfl : name = name' := Option.some.inj (hname.symm.trans hname')
  obtain rfl : s = t := Option.some.inj ((Dict.get_middle hentries).symm.trans ht)
  have hkeys : (f.sections.set name s').keys = f.sections.keys :=
    Dict.keys_set_of_mem s' (Dict.mem_keys_iff.mpr ⟨s, ht⟩)
  refine ⟨s', size, hset, hsize, hnext, rfl, ?_, ?_⟩
  · simp only [context, hkeys]
  · rw [List.append_assoc, List.singleton_append]
    exact Dict.entries_set_middle hentries s'

/-- The section at a known place in the table is finalized. -/
theorem returns_finalizeSection_middle {c : ContentSection} {pre ps : List (String × Section)}
    {name : String} {s : Section} (hentries : f.sections.entries = pre ++ (name, s) :: ps)
    (hname : c.name = some name) :
    Returns (finalizeSection c) f () f' ↔
      ∃ s', Returns (Section.finalize (f.sections.values.map Section.view)) s () s' ∧
        f' = { f with sections := f.sections.set name s' } := by
  have hget : f.sections.get name = some s := Dict.get_middle hentries
  constructor
  · intro h
    obtain ⟨name', t, s', hname', ht, hfinalize, rfl⟩ := finalizeSection_inv h
    obtain rfl : name = name' := Option.some.inj (hname.symm.trans hname')
    obtain rfl : s = t := Option.some.inj (hget.symm.trans ht)
    exact ⟨s', hfinalize, rfl⟩
  · rintro ⟨s', hfinalize, rfl⟩
    unfold finalizeSection entryKey
    rw [hname]
    refine Returns.bind (returns_pure.mpr ⟨rfl, rfl⟩) ?_
    rw [returns_get_bind]
    unfold Returns onSection at *
    simp only [hget, hfinalize]

/-- Finalizing the section at a place leaves what the others see of it. -/
theorem views_set_finalized {pre ps : List (String × Section)} {name : String} {s s' : Section}
    {views : List SectionView} (hentries : f.sections.entries = pre ++ (name, s) :: ps)
    (h : Returns (Section.finalize views) s () s') :
    (f.sections.set name s').values.map Section.view = f.sections.values.map Section.view := by
  rw [Dict.values, Dict.values, Dict.entries_set_middle hentries s', hentries]
  simp only [List.map_append, List.map_cons, (Section.finalize_inv h).view]

theorem returns_placeSections {cs : List ContentSection} :
    ∀ {f f' : Flash} {pre es : List (String × Section)} {offset : Int} {p : Placement},
      f.sections.entries = pre ++ es →
      cs.map ContentSection.name = es.map (fun e => some e.1) →
      Returns (placeSections host true offset cs) f p f' →
      ∃ ps, PlacementsIn host f offset cs es ps ∧ f' = { f with sections := f'.sections } ∧
        f'.sections.entries = pre ++ ps := by
  induction cs with
  | nil =>
    intro f f' pre es offset p hentries hnames h
    obtain ⟨-, rfl⟩ := returns_pure.mp h
    obtain rfl : es = [] := List.map_eq_nil_iff.mp hnames.symm
    exact ⟨[], .nil offset, rfl, hentries⟩
  | cons c cs ih =>
    intro f f' pre es offset p hentries hnames h
    cases es with
    | nil => exact absurd hnames nofun
    | cons e es =>
      obtain ⟨name, s⟩ := e
      rw [List.map_cons, List.map_cons, List.cons.injEq] at hnames
      obtain ⟨next, f₁, hplace, hle, hrest⟩ := placeSections_cons_inv h
      obtain ⟨s', size, hset, hsize, rfl, rfl, hcontext, hentries'⟩ :=
        placeSection_middle_inv hentries hnames.1 hplace
      obtain ⟨ps, hps, hframe, hentries''⟩ := ih hentries' hnames.2 hrest
      unfold PlacementsIn at hps
      rw [hcontext] at hps
      refine ⟨(name, s') :: ps, .cons hset hsize hle hps, ?_, ?_⟩
      · rw [hframe]
      · rw [hentries'', List.append_assoc, List.singleton_append]

theorem returns_finalizeSections (views : List SectionView) {cs : List ContentSection} :
    ∀ {f f' : Flash} {pre ps : List (String × Section)},
      f.sections.entries = pre ++ ps → cs.map ContentSection.name = ps.map (fun e => some e.1) →
      f.sections.values.map Section.view = views →
      Returns (forEach finalizeSection cs) f () f' →
      ∃ fs, List.Forall₂ (fun p q : String × Section =>
          q.1 = p.1 ∧ Returns (Section.finalize views) p.2 () q.2) ps fs ∧
        f' = { f with sections := f'.sections } ∧ f'.sections.entries = pre ++ fs := by
  induction cs with
  | nil =>
    intro f f' pre ps hentries hnames _ h
    obtain rfl := returns_forEach_nil.mp h
    obtain rfl : ps = [] := List.map_eq_nil_iff.mp hnames.symm
    exact ⟨[], .nil, rfl, hentries⟩
  | cons c cs ih =>
    intro f f' pre ps hentries hnames hviews h
    cases ps with
    | nil => exact absurd hnames nofun
    | cons e ps =>
      obtain ⟨name, s⟩ := e
      rw [List.map_cons, List.map_cons, List.cons.injEq] at hnames
      obtain ⟨f₁, hone, hrest⟩ := returns_forEach_cons.mp h
      obtain ⟨s', hfinalize, rfl⟩ :=
        (returns_finalizeSection_middle hentries hnames.1).mp hone
      have hviews' := (views_set_finalized hentries hfinalize).trans hviews
      rw [hviews] at hfinalize
      have hentries' : ({ f with sections := f.sections.set name s' } : Flash).sections.entries =
          (pre ++ [(name, s')]) ++ ps := by
        rw [List.append_assoc, List.singleton_append]
        exact Dict.entries_set_middle hentries s'
      obtain ⟨fs, hfs, hframe, hentries''⟩ := ih hentries' hnames.2 hviews' hrest
      refine ⟨(name, s') :: fs, .cons ⟨rfl, hfinalize⟩ hfs, ?_, ?_⟩
      · rw [hframe]
      · rw [hentries'', List.append_assoc, List.singleton_append]

/-! ## A whole parse -/

/-- What a section sees of a flash with given section names. -/
def contextWith (f : Flash) (names : List String) : FlashContext where
  size := f.size
  imagePath := f.imagePath
  attributes := f.flashAttributes
  sectionNames := names

/-- What a parse with an overflow check did on a fresh flash with distinct names:
`entries` is the content after the command line was applied, `created`, `placed`
and the sections of `f'` are the same sections after each loop. -/
structure ParseOf (host : Host) (f f' : Flash) (entries : List ContentSection)
    (created placed : List (String × Section)) : Prop where
  names : entries.map ContentSection.name = f.contentSections.map ContentSection.name
  commandLine : ∃ f₁ f₂ : Flash, f₁.contentSections = f.contentSections ∧
    f₁.properties = f.properties ∧ Returns handleSectionProperties f₁ () f₂ ∧
    f₂.contentSections = entries
  creation : List.Forall₂ (CreatedFrom f) f.contentSections.zipIdx created
  placements : Placements host (f.contextWith (created.map Prod.fst)) f.size
    (f.flashAttributes.get "section_start_align") (f.flashAttributes.get "section_size_align")
    0 entries created placed
  finalized : List.Forall₂ (fun p q : String × Section =>
    q.1 = p.1 ∧ Returns (Section.finalize (placed.map fun e => e.2.view)) p.2 () q.2)
    placed f'.sections.entries
  frame : f' = { f with
    sections := f'.sections, contentDict := f'.contentDict, contentParsed := true }

theorem Placements.map_fst {flash : FlashContext} {limit : Nat} {startAlign sizeAlign : Option Int}
    {offset : Int} {cs : List ContentSection} {es ps : List (String × Section)}
    (h : Placements host flash limit startAlign sizeAlign offset cs es ps) :
    ps.map Prod.fst = es.map Prod.fst := by
  induction h with
  | nil => rfl
  | cons _ _ _ _ ih => rw [List.map_cons, List.map_cons, ih]

/-- A parse that returns normally is one pass of each loop; `f₂` is the flash in front
of the placement loop. -/
theorem parseContent_passes (hfresh : f.Fresh) (hnames : f.DistinctNames)
    (h : Returns (parseContent host true) f () f') :
    ∃ f₁ f₂ placed,
      Returns (forEach (createSection host) f.contentSections)
        { f with contentParsed := true } () f₁ ∧
      Returns handleSectionProperties f₁ () f₂ ∧
      f₂ = { f with
        sections := f₂.sections, contentDict := f₂.contentDict, contentParsed := true } ∧
      ParseOf host f f' f₂.contentSections f₂.sections.entries placed ∧
      f'.contentSections = f₂.contentSections := by
  obtain ⟨f₁, f₂, f₃, p, hcreate, hprops, hplace, hfinalize⟩ :=
    parseContent_inv hfresh.contentParsed hfresh.contentDict h
  obtain ⟨created, hcreated, hframe₁, hentries₁⟩ :=
    returns_createSections hnames (by exact hfresh.sections) hcreate
  have hsame := keeps_handleSectionProperties _ _ _ hprops
  have hcontent₁ : f₁.contentSections = f.contentSections := by rw [hframe₁]; rfl
  have hnames₂ : f₂.contentSections.map ContentSection.name =
      f.contentSections.map ContentSection.name := by rw [hsame.2, hcontent₁]
  have hentries₂ : f₂.sections.entries = created := by
    rw [hsame.1]
    exact hentries₁
  have hkeys : f.contentSections.map ContentSection.name = created.map fun e => some e.1 :=
    names_of_created hcreated
  obtain ⟨placed, hplaced, hframe₃, hentries₃⟩ := returns_placeSections
    (hentries₂.trans (List.nil_append created).symm) (hnames₂.trans hkeys) hplace
  have hkeysPlaced : created.map (fun e => some e.1) = placed.map fun e => some e.1 := by
    have := congrArg (List.map some) hplaced.map_fst
    rw [List.map_map, List.map_map] at this
    exact this.symm
  obtain ⟨finals, hfinals, hframe', hentries'⟩ := returns_finalizeSections
    (placed.map fun e => e.2.view) hentries₃
    ((hnames₂.trans hkeys).trans hkeysPlaced)
    (by rw [Dict.values, hentries₃, List.nil_append, List.map_map]; rfl) hfinalize
  have hlast : f'.contentSections = f₂.contentSections := by
    rw [hframe', hframe₃]
    rfl
  have hf₂ : f₂ = { f with
      sections := f₂.sections, contentDict := f₂.contentDict, contentParsed := true } := by
    rw [hsame.1, hframe₁]
  refine ⟨f₁, f₂, placed, hcreate, hprops, hf₂, ?_, hlast⟩
  rw [hentries₂]
  refine ⟨hnames₂, ⟨f₁, f₂, hcontent₁, by rw [hframe₁], hprops, rfl⟩, hcreated, ?_, ?_, ?_⟩
  · have hkeys₂ : f₂.sections.keys = created.map Prod.fst := by
      rw [Dict.keys, hentries₂]
    unfold PlacementsIn context at hplaced
    rw [hkeys₂] at hplaced
    rw [hf₂] at hplaced
    exact hplaced
  · rw [hentries', List.nil_append]
    exact hfinals
  · rw [hframe', hframe₃, hsame.1, hframe₁]

theorem parseContent_parseOf_entries (hfresh : f.Fresh) (hnames : f.DistinctNames)
    (h : Returns (parseContent host true) f () f') :
    ∃ entries created placed, ParseOf host f f' entries created placed ∧
      f'.contentSections = entries := by
  obtain ⟨f₁, f₂, placed, -, -, -, hof, hlast⟩ := parseContent_passes hfresh hnames h
  exact ⟨_, _, placed, hof, hlast⟩

theorem parseContent_parseOf (hfresh : f.Fresh) (hnames : f.DistinctNames)
    (h : Returns (parseContent host true) f () f') :
    ∃ entries created placed, ParseOf host f f' entries created placed := by
  obtain ⟨entries, created, placed, hof, -⟩ := parseContent_parseOf_entries hfresh hnames h
  exact ⟨entries, created, placed, hof⟩

/-! ## What is known of every section after a parse -/

theorem new_structs (t : SectionTemplate) (name : String) (sectionId : Nat) :
    (t.new name sectionId).base.structs = [] := by cases t <;> rfl

theorem setAlignments_structs (startAlign sizeAlign : Option Int) (s : Section) :
    (s.setAlignments startAlign sizeAlign).base.structs = s.base.structs := by cases s <;> rfl

theorem setAlignments_aligns (startAlign sizeAlign : Option Int) (s : Section) :
    (s.setAlignments startAlign sizeAlign).base.sizeAlign = sizeAlign ∧
      (s.setAlignments startAlign sizeAlign).base.startAlign = startAlign := by
  cases s <;> exact ⟨rfl, rfl⟩

/-- Every placed section comes from one `set_content`. -/
theorem Placements.origin {flash : FlashContext} {limit : Nat} {startAlign sizeAlign : Option Int}
    {offset : Int} {cs : List ContentSection} {es ps : List (String × Section)}
    (h : Placements host flash limit startAlign sizeAlign offset cs es ps)
    {p : String × Section} (hp : p ∈ ps) :
    ∃ c o e size, e ∈ es ∧ e.1 = p.1 ∧ Returns (Section.setContent host flash o c)
      (e.2.setAlignments startAlign sizeAlign) () p.2 ∧ p.2.getSize = .ok size := by
  induction h with
  | nil => exact absurd hp List.not_mem_nil
  | @cons o size c name s s' cs es ps content reported _ _ ih =>
    rw [List.mem_cons] at hp
    obtain rfl | hp := hp
    · exact ⟨c, o, (name, s), size, List.mem_cons_self, rfl, content, reported⟩
    · obtain ⟨c, o, e, size, he, hrest⟩ := ih hp
      exact ⟨c, o, e, size, List.mem_cons_of_mem _ he, hrest⟩

/-- A section that starts a layout starts at offset 0. -/
theorem Placements.head_offset {flash : FlashContext} {limit : Nat}
    {startAlign sizeAlign : Option Int} {cs : List ContentSection}
    {es ps : List (String × Section)}
    (h : Placements host flash limit startAlign sizeAlign 0 cs es ps) {p : String × Section}
    (hp : ps.head? = some p) : p.2.offset = 0 := by
  cases h with
  | nil => exact absurd hp nofun
  | @cons _ _ _ _ s s' _ _ _ content =>
    obtain rfl := Option.some.inj hp
    obtain ⟨-, specs, hplaced, -⟩ := Section.setContent_inv content
    have hoffset : s'.offset = _ := hplaced.offset
    rw [hoffset]
    exact Section.startOffset_zero flash _

namespace ParseOf

variable {entries : List ContentSection} {created placed : List (String × Section)}

theorem created_structs (h : ParseOf host f f' entries created placed) {e : String × Section}
    (he : e ∈ created) : e.2.base.structs = [] := by
  obtain ⟨i, hi⟩ := List.mem_iff_getElem?.mp he
  obtain ⟨p, -, -, templateName, template, -, -, hnew⟩ := getElem?_forall₂ h.creation.flip hi
  rw [hnew]
  exact new_structs template e.1 p.2

/-- The finalized section and the placed one it comes from. -/
theorem exists_placed (h : ParseOf host f f' entries created placed) {q : String × Section}
    (hq : q ∈ f'.sections.entries) : ∃ p ∈ placed, q.1 = p.1 ∧ p.2.SameLayout q.2 := by
  obtain ⟨i, hi⟩ := List.mem_iff_getElem?.mp hq
  obtain ⟨p, hp, hname, hfinalize⟩ := getElem?_forall₂ h.finalized.flip hi
  exact ⟨p, List.mem_of_getElem? hp, hname, Section.finalize_inv hfinalize⟩

/-- Every section is laid out from its offset, aligned as the flash says, and
reports a size. -/
theorem laidOut (h : ParseOf host f f' entries created placed) {s : Section}
    (hs : s ∈ f'.sections.values) :
    s.base.LaidOut ∧ s.base.sizeAlign = f.flashAttributes.get "section_size_align" ∧
      ∃ size, s.getSize = .ok size := by
  obtain ⟨q, hq, rfl⟩ := List.mem_map.mp hs
  obtain ⟨p, hp, -, hlayout⟩ := h.exists_placed hq
  obtain ⟨c, o, e, size, he, -, hset, hsize⟩ := h.placements.origin hp
  obtain ⟨-, specs, hplaced, -⟩ := Section.setContent_inv hset
  refine ⟨?_, ?_, size, ?_⟩
  · refine (hplaced.laidOut ?_).of_sameLayout hlayout.base
    rw [setAlignments_structs]
    exact h.created_structs he
  · rw [hlayout.base.sizeAlign, hplaced.sizeAlign]
    exact (setAlignments_aligns _ _ _).1
  · have : q.2.getSize = p.2.getSize := hlayout.base.getSize
    rw [this]
    exact hsize

end ParseOf

end Flash

end SoftHier.Gapy
