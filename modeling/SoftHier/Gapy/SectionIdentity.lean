/-
  Gapy/SectionIdentity.lean --- entries, section objects and their ids.

  Sections are filed by name, their ids are taken from the number of sections
  filed so far, and entries find their section by name again.  The three views
  agree when the names of a content are different; an entry whose name was
  already there replaces the section of the other one, and then there are fewer
  sections than entries.
-/
import SoftHier.Gapy.FlashSession
import SoftHier.Gapy.PartitionImage

set_option autoImplicit false

namespace SoftHier.Gapy

open SoftHier.Foundation Program

/-! ## The source -/

/-- `get_next_section`. -/
def Flash.getNextSection (h : Host) (s : Section) : FlashM (Option Section) := do
  let sections ← Flash.getSections h
  if s.sectionId + 1 = sections.length then pure none
  else
    match sections[s.sectionId + 1]? with
    | some next => pure (some next)
    | none => throw .indexError

/-! ## What a reader of the content expects -/

/-- The value of a field of structure `i` of a section. -/
def FlashSection.fieldValue {σ : Type} (s : FlashSection σ) (i : Nat) (name : String) :
    Option FieldValue :=
  (s.structAt ⟨0, i⟩).bind fun c => (c.fields.get name).map CStructField.value

/-- Structure `i` of a partition table is the entry of a section. -/
structure PartitionTableSection.EntryOf (t : FlashSection PartitionAttrs) (i : Nat) (s : Section) :
    Prop where
  magic : t.fieldValue i "magic_number" = some (.int 0x01BA)
  type : t.fieldValue i "type" = some (.int s.partitionType)
  subtype : t.fieldValue i "subtype" = some (.int s.partitionSubtype)
  offset : t.fieldValue i "offset" = some (.int s.offset)
  size : ∃ size, s.getSize = .ok size ∧ t.fieldValue i "size" = some (.int size)
  name : t.fieldValue i "name" = some (.bytes (utf8 s.name ++ [0]))

/-- A partition table lists some sections, in order, and nothing else. -/
structure PartitionTableSection.Lists (t : FlashSection PartitionAttrs) (ss : List Section) :
    Prop where
  count : t.fieldValue 0 "nb_entries" = some (.int ss.length)
  entries : ∀ i s, ss[i]? = some s → EntryOf t (1 + i) s
  nothingElse : ∀ i, ss.length ≤ i → t.structAt ⟨0, 1 + i⟩ = none

/-- A section that was made from one entry of the content only: `given` as the
content has it, `content` as the command line left it. -/
def Flash.MadeFrom (host : Host) (f f' : Flash) (given content : ContentSection) (i : Nat)
    (s : Section) : Prop :=
  ∃ name templateName template offset placed,
    given.name = some name ∧ content.name = some name ∧ s.name = name ∧
      given.template = some templateName ∧
      f.sectionsTemplates.get templateName = some template ∧
      Returns (Section.setContent host f'.context offset content)
        ((template.new name i).setAlignments (f.flashAttributes.get "section_start_align")
          (f.flashAttributes.get "section_size_align")) () placed ∧
      Returns (Section.finalize (f'.sections.values.map Section.view)) placed () s

/-- Every entry of the content has its own section object, which knows its place,
and a partition table lists the sections behind itself. -/
structure Flash.SectionsFaithful (host : Host) (f f' : Flash) : Prop where
  one : f'.sections.values.length = f.contentSections.length
  made : ∀ i s, f'.sections.values[i]? = some s → ∃ given content,
    f.contentSections[i]? = some given ∧ f'.contentSections[i]? = some content ∧
      MadeFrom host f f' given content i s
  identified : ∀ s ∈ f'.sections.values, f'.sections.values[s.sectionId]? = some s
  next : ∀ i s, f'.sections.values[i]? = some s →
    Returns (getNextSection host s) f' f'.sections.values[i + 1]? f'
  partitions : ∀ i t, f'.sections.values[i]? = some (.partitionTable t) →
    PartitionTableSection.Lists t (f'.sections.values.drop (i + 1))

/-! ## Fields of a table -/

section Fields

variable {σ : Type}

/-- The value of a field of a laid out structure is the one of its
specification. -/
theorem fieldValue_holding {u : FlashSection σ} (hu : u.structs = []) (t : String)
    {specs : List StructSpec} {i : Nat} {spec : StructSpec} (hspec : specs[i]? = some spec)
    (name : String) :
    (u.holding t specs).fieldValue i name =
      (Dict.lookup name (fieldsAt (u.offset + specsSize (specs.take i)) spec.fields)).map
        CStructField.value := by
  have hat := FlashSection.structAt_holding (s := u) (n := 0) (by rw [hu]; rfl) t specs i
  rw [hspec, Option.map_some] at hat
  rw [FlashSection.fieldValue, hat]
  rfl

end Fields

namespace PartitionTableSection

theorem entryOf_filled {u : FlashSection PartitionAttrs} (hu : u.structs = []) (t : String)
    {specs : List StructSpec} {i : Nat} {s : Section} {size : Int}
    (hspec : specs[1 + i]? = some (PartitionTableSectionHeader.filled i s.view size))
    (hsize : s.getSize = .ok size) : EntryOf (u.holding t specs) (1 + i) s := by
  have hvalue := fieldValue_holding hu t hspec
  simp only [filled_fields, fieldsAt, Dict.lookup] at hvalue
  refine ⟨?_, ?_, ?_, ?_, ⟨size, hsize, ?_⟩, ?_⟩
  · rw [hvalue]; rfl
  · rw [hvalue]; rfl
  · rw [hvalue]; rfl
  · rw [hvalue]; rfl
  · rw [hvalue]; rfl
  · rw [hvalue]; rfl

/-- A table whose entries are filled lists the sections behind it. -/
theorem lists_of_filledTo {u : FlashSection PartitionAttrs} (hu : u.structs = []) (t : String)
    {specs : List StructSpec} {ss : List Section}
    (h : FilledTo (ss.map Section.view) ss.length ss.length specs) :
    Lists (u.holding t specs) ss := by
  have hlength : specs.length = 1 + ss.length := by
    have := congrArg List.length h.sizes
    simp only [created, List.length_map, List.length_cons, List.length_range] at this
    omega
  refine ⟨?_, fun i s hs => ?_, fun i hi => ?_⟩
  · rw [fieldValue_holding hu t h.header, header_fields, List.length_map]
    rfl
  · have hi : i < ss.length := (List.getElem?_eq_some_iff.mp hs).1
    obtain ⟨v, size, hv, hsize, hspec⟩ := h.done i hi hi
    rw [List.getElem?_map, hs, Option.map_some, Option.some.injEq] at hv
    subst hv
    exact entryOf_filled hu t hspec hsize
  · rw [FlashSection.structAt_holding (by rw [hu]; rfl), List.getElem?_eq_none (by omega)]
    rfl

end PartitionTableSection

/-! ## A whole parse -/

namespace Flash

variable {host : Host} {f f' : Flash}

/-- A section is created with its name and its id, and keeps both. -/
theorem MadeFrom.identity {given content : ContentSection} {i : Nat} {s : Section}
    (h : MadeFrom host f f' given content i s) :
    s.sectionId = i ∧ some s.name = given.name := by
  obtain ⟨name, _, template, _, placed, hgiven, -, hname, -, -, hset, hfinalize⟩ := h
  obtain ⟨-, specs, hplaced, -⟩ := Section.setContent_inv hset
  have hnew : ((template.new name i).setAlignments (f.flashAttributes.get "section_start_align")
      (f.flashAttributes.get "section_size_align")).base.sectionId = i := by
    cases template <;> rfl
  refine ⟨?_, by rw [hname, hgiven]⟩
  change s.base.sectionId = i
  rw [(Section.finalize_inv hfinalize).base.sectionId, hplaced.sectionId, hnew]

theorem ParseOf.madeFrom {entries : List ContentSection}
    {created placed : List (String × Section)} (hof : ParseOf host f f' entries created placed)
    (hentries : f'.contentSections = entries) {i : Nat} {s : Section}
    (hs : f'.sections.values[i]? = some s) :
    ∃ given content, f.contentSections[i]? = some given ∧ f'.contentSections[i]? = some content ∧
      MadeFrom host f f' given content i s := by
  obtain ⟨given, content, name, templateName, template, o, p, hgiven, hcontent, hname, htemplate,
    hget, hset, hfinalize⟩ := hof.at_entry hs
  have hcontext : f'.context = f.contextWith f'.sections.keys := by
    rw [hof.frame]
    rfl
  have hsame : content.name = given.name := by
    have h₁ := congrArg (fun l => l[i]?) hof.names
    simp only [List.getElem?_map, hgiven, hcontent, Option.map_some, Option.some.injEq] at h₁
    exact h₁
  obtain ⟨-, specs, hplaced, -⟩ := Section.setContent_inv hset
  have hnew : ((template.new name i).setAlignments (f.flashAttributes.get "section_start_align")
      (f.flashAttributes.get "section_size_align")).base.name = name := by
    cases template <;> rfl
  refine ⟨given, content, hgiven, by rw [hentries]; exact hcontent, name, templateName, template, o,
    p, hname, hsame.trans hname, ?_, htemplate, hget, by rw [hcontext]; exact hset, hfinalize⟩
  change s.base.name = name
  rw [(Section.finalize_inv hfinalize).base.name, hplaced.name, hnew]

/-- The next section is the one behind, on a parsed flash whose sections know
their places. -/
theorem returns_getNextSection (hparsed : f.contentParsed = true) {i : Nat} {s : Section}
    (hs : f.sections.values[i]? = some s) (hid : s.sectionId = i) :
    Returns (getNextSection host s) f f.sections.values[i + 1]? f := by
  have hsections : Returns (getSections host) f f.sections.values f := by
    refine Returns.bind (returns_parseContent_again hparsed) ?_
    rw [returns_get_bind]
    exact returns_pure.mpr ⟨rfl, rfl⟩
  refine Returns.bind hsections ?_
  rw [hid]
  by_cases hlast : i + 1 = f.sections.values.length
  · rw [if_pos hlast, List.getElem?_eq_none (by omega)]
    exact returns_pure.mpr ⟨rfl, rfl⟩
  · have hi := (List.getElem?_eq_some_iff.mp hs).1
    rw [if_neg hlast, List.getElem?_eq_getElem (by omega)]
    exact returns_pure.mpr ⟨rfl, rfl⟩

theorem sectionsFaithful_of_distinctNames (hfresh : f.Fresh) (hnames : f.DistinctNames)
    (h : Returns (parseContent host true) f () f') : SectionsFaithful host f f' := by
  obtain ⟨entries, created, placed, hof, hentries⟩ := parseContent_parseOf_entries hfresh hnames h
  have hmade := fun i s hs => hof.madeFrom hentries (i := i) (s := s) hs
  have hlength : f'.sections.values.length = f.contentSections.length := by
    have h₁ := hof.finalized.length_eq
    have h₂ := hof.creation.length_eq
    have h₃ := congrArg List.length hof.placements.map_fst
    simp only [List.length_map, List.length_zipIdx] at h₂ h₃
    rw [Dict.length_values, Dict.length, ← h₁, h₃, h₂]
  have hid : ∀ (i : Nat) (s : Section), f'.sections.values[i]? = some s → s.sectionId = i := by
    intro i s hs
    obtain ⟨given, content, -, -, hfrom⟩ := hmade i s hs
    exact hfrom.identity.1
  refine ⟨hlength, hmade, fun s hs => ?_, fun i s hs => ?_, fun i t ht => ?_⟩
  · obtain ⟨i, hi⟩ := List.mem_iff_getElem?.mp hs
    rw [hid i s hi]
    exact hi
  · exact returns_getNextSection (contentParsed_of_parse hfresh h) hs (hid i s hs)
  · obtain ⟨u, specs, rfl, hu, hfilled⟩ := hof.partitionTable_at ht
    refine PartitionTableSection.lists_of_filledTo hu _ ?_
    rw [List.map_drop, List.length_drop, Dict.length_values]
    exact hfilled

/-- Sections are filed under names of the content only. -/
theorem keys_subset_of_parse (hfresh : f.Fresh) (h : Returns (parseContent host true) f () f') :
    f'.sections.keys.map some ⊆ f.contentSections.map ContentSection.name := by
  obtain ⟨f₁, f₂, f₃, p, hcreate, hprops, hplace, hfinalize⟩ :=
    parseContent_inv hfresh.contentParsed hfresh.contentDict h
  obtain ⟨hframe₁, hnames₁⟩ := returns_createSections_names (by exact hfresh.sections) hcreate
  have hkeys₂ : f₂.sections.keys = f₁.sections.keys := by
    rw [(keeps_handleSectionProperties _ _ _ hprops).1]
  have hkeys : f'.sections.keys = f₁.sections.keys := by
    rw [(keeps_finalizeSections _ _ _ _ hfinalize).keys, (placeSections_placed hplace).1.keys,
      hkeys₂]
  intro name hname
  obtain ⟨key, hkey, rfl⟩ := List.mem_map.mp hname
  exact hnames₁ key (hkeys ▸ hkey)

/-- For every content a parse accepts, repeated names included: every entry has
its own section exactly when the names are different. -/
theorem sectionsFaithful_iff (hfresh : f.Fresh) (h : Returns (parseContent host true) f () f') :
    SectionsFaithful host f f' ↔ f.DistinctNames := by
  refine ⟨fun hfaithful => ?_, fun hnames => sectionsFaithful_of_distinctNames hfresh hnames h⟩
  -- as many different keys as entries, all of them names of entries
  have hnodup : (f'.sections.keys.map some).Nodup :=
    f'.sections.nodup_keys.map (Option.some_injective String)
  have hsub := List.subperm_of_subset hnodup (keys_subset_of_parse hfresh h)
  have hlength : (f.contentSections.map ContentSection.name).length ≤
      (f'.sections.keys.map some).length := by
    have hone := hfaithful.one
    rw [Dict.length_values] at hone
    rw [List.length_map, List.length_map, Dict.length_keys, hone]
  exact (hsub.perm_of_length_le hlength).nodup_iff.mp hnodup

/-- A table in front of a raw section. -/
theorem sectionsFaithful_iff_table :
    let table : ContentSection :=
      { name := some "table", template := some "partition table", properties := none }
    let f := ofContent 256 Dict.empty [table, rawEntry "data" 8]
    ∃ f', Returns (parseContent Host.noFiles true) f () f' ∧ SectionsFaithful Host.noFiles f f' := by
  intro table f
  have hparse : Returns (parseContent Host.noFiles true) f () _ :=
    returns_of_returned? (by decide +kernel)
  exact ⟨_, hparse, (sectionsFaithful_iff ⟨rfl, rfl, rfl⟩ hparse).mpr (by decide)⟩

/-- Two entries of one name are accepted and share one section. -/
theorem not_sectionsFaithful : ¬ ∀ (host : Host) (f f' : Flash), f.Fresh →
    Returns (parseContent host true) f () f' → SectionsFaithful host f f' := by
  intro h
  let f := ofContent 256 Dict.empty [rawEntry "data" 8, rawEntry "data" 16]
  have hparse : Returns (parseContent Host.noFiles true) f () _ :=
    returns_of_returned? (by decide +kernel)
  have hlength : (finalState (parseContent Host.noFiles true) f).sections.values.length = 1 := by
    decide +kernel
  have hone := (h _ _ _ ⟨rfl, rfl, rfl⟩ hparse).one
  rw [hlength] at hone
  exact absurd hone (by decide)

end Flash

end SoftHier.Gapy
