/-
  Gapy/SectionLookup.lean --- looking up sections over all flashes.

  A target finds a section, or its place among the sections of all flashes, in
  the sections each flash has at the moment.  A flash has none before its content
  is parsed, which only some of the calls on a flash do.
-/
import SoftHier.Gapy.FlashSession
import SoftHier.Gapy.Target

set_option autoImplicit false

namespace SoftHier.Gapy

open SoftHier.Foundation Program

/-! ## The lookups -/

namespace Flash

/-- `get_section_by_name`. -/
def getSectionByName (f : Flash) (name : String) : Option Section := f.sections.get name

/-- `get_section_index`. -/
def getSectionIndex (f : Flash) (name : String) : Option Nat :=
  if (f.sections.get name).isSome then some (f.sections.keys.idxOf name) else none

/-- The content has an entry with a name. -/
def HasEntry (f : Flash) (name : String) : Prop :=
  some name ∈ f.contentSections.map ContentSection.name

instance (f : Flash) (name : String) : Decidable (f.HasEntry name) :=
  inferInstanceAs (Decidable (_ ∈ _))

end Flash

namespace Target

/-- The loop of `get_section_by_name`.  The section comes with its flash: sections
of two flashes are two objects, however alike. -/
def sectionIn (name : String) : List (String × Flash) → Option (String × Section)
  | [] => none
  | (flashName, f) :: rest =>
      match f.getSectionByName name with
      | some s => some (flashName, s)
      | none => sectionIn name rest

/-- `get_section_by_name`. -/
def getSectionByName (t : Target) (name : String) : Option (String × Section) :=
  sectionIn name t.flashes.entries

/-- The loop of `get_section_index`. -/
def indexFrom (name : String) : Nat → List (String × Flash) → Option Nat
  | _, [] => none
  | index, (_, f) :: rest =>
      match f.getSectionIndex name with
      | some inFlashIndex => some (index + inFlashIndex)
      | none => indexFrom name (index + f.sections.length) rest

/-- `get_section_index`. -/
def getSectionIndex (t : Target) (name : String) : Option Nat := indexFrom name 0 t.flashes.entries

/-! ## What they are to find -/

/-- What `get_sections` of a flash returns, each section with its flash. -/
def sectionsOf (h : Host) (p : String × Flash) : List (String × Section) :=
  ((returned? (Flash.getSections h) p.2).getD []).map fun s => (p.1, s)

/-- The sections of all flashes, one flash after the other. -/
def allSections (h : Host) (t : Target) : List (String × Section) :=
  t.flashes.entries.flatMap (sectionsOf h)

/-- The lookups find a section where it stands among the sections of all flashes,
and nothing exactly when no content has it. -/
structure LookupsAgree (h : Host) (t : Target) (name : String) : Prop where
  found : t.getSectionByName name = (t.allSections h).find? fun s => s.2.name = name
  index : t.getSectionIndex name = (t.allSections h).findIdx? fun s => s.2.name = name
  notFound : t.getSectionByName name = none ↔ ∀ f ∈ t.flashes.values, ¬ f.HasEntry name
  noIndex : t.getSectionIndex name = none ↔ ∀ f ∈ t.flashes.values, ¬ f.HasEntry name

/-! ## Earlier calls -/

/-- A call on one of the flashes. -/
def call (h : Host) (t : Target) (c : String × Flash.Call) : Target :=
  match t.flashes.get c.1 with
  | none => t
  | some f => { t with flashes := t.flashes.set c.1 (finalState (c.2.run h) f) }

/-- The target after some calls on its flashes, whether they raised or not. -/
def after (h : Host) (history : List (String × Flash.Call)) (t : Target) : Target :=
  history.foldl (call h) t

/-- Some earlier call was on the flash. -/
def Called (history : List (String × Flash.Call)) (flashName : String) : Prop :=
  flashName ∈ history.map Prod.fst

instance (history : List (String × Flash.Call)) (flashName : String) :
    Decidable (Called history flashName) := inferInstanceAs (Decidable (_ ∈ _))

/-- No content has the section, or some call was on the first flash that has it,
and on each flash before that one whose content has any section. -/
def LookupReady (history : List (String × Flash.Call)) (t : Target) (name : String) : Prop :=
  (∀ f ∈ t.flashes.values, ¬ f.HasEntry name) ∨
    ∃ pre flashName f post, t.flashes.entries = pre ++ (flashName, f) :: post ∧
      (∀ p ∈ pre, ¬ p.2.HasEntry name) ∧ f.HasEntry name ∧ Called history flashName ∧
      ∀ p ∈ pre, p.2.contentSections ≠ [] → Called history p.1

end Target

/-! ## The sections of a flash -/

namespace Flash

variable {host : Host} {f f' : Flash}

/-- Every section is filed under its name. -/
def Filed (f : Flash) : Prop := ∀ name s, f.sections.get name = some s → s.name = name

theorem Filed.set (h : f.Filed) {name : String} {s : Section} (hs : s.name = name) :
    Filed { f with sections := f.sections.set name s } := by
  intro n t ht
  have ht : (f.sections.set name s).get n = some t := ht
  rw [Dict.get_set] at ht
  split at ht
  next heq =>
    cases ht
    exact hs.trans heq
  · exact h n t ht

theorem name_new (template : SectionTemplate) (name : String) (sectionId : Nat) :
    (template.new name sectionId).name = name := by cases template <;> rfl

theorem name_setAlignments (startAlign sizeAlign : Option Int) (s : Section) :
    (s.setAlignments startAlign sizeAlign).name = s.name := by cases s <;> rfl

/-- The creation loop files every section under its name. -/
theorem filed_createSections {cs : List ContentSection} (hempty : f.sections = Dict.empty)
    (h : Returns (forEach (createSection host) cs) f () f') : f'.Filed := by
  have hinit : f.Filed := by
    intro name s hs
    rw [hempty] at hs
    cases hs
  exact forEach_induct (fun _ u => u.Filed)
    (fun _ c u u' hI hone => by
      obtain ⟨name, templateName, template, -, -, -, rfl⟩ := createSection_inv hone
      exact Filed.set hI (name_new template name _)) [] hinit h

/-- Every entry the creation loop takes has a name. -/
theorem named_of_createSections {cs : List ContentSection} : ∀ {f f' : Flash},
    Returns (forEach (createSection host) cs) f () f' → ∀ c ∈ cs, ∃ name, c.name = some name := by
  induction cs with
  | nil => exact fun _ c hc => absurd hc List.not_mem_nil
  | cons d cs ih =>
    intro f f' h c hc
    obtain ⟨u, hone, hrest⟩ := returns_forEach_cons.mp h
    rcases List.mem_cons.mp hc with rfl | hc
    · obtain ⟨name, -, -, hname, -⟩ := createSection_inv hone
      exact ⟨name, hname⟩
    · exact ih hrest c hc

/-- Setting a content changes no name. -/
theorem filed_placeSections {cs : List ContentSection} :
    ∀ {f f' : Flash} {offset : Int} {p : Placement}, f.Filed →
      Returns (placeSections host true offset cs) f p f' → f'.Filed := by
  induction cs with
  | nil =>
    intro f f' offset p hI h
    obtain ⟨-, rfl⟩ := returns_pure.mp h
    exact hI
  | cons c cs ih =>
    intro f f' offset p hI h
    obtain ⟨next, f₁, hplace, -, hrest⟩ := placeSections_cons_inv h
    obtain ⟨name, s, s', size, -, hs, hset, -, -, rfl⟩ := placeSection_inv hplace
    obtain ⟨-, specs, hplaced, -⟩ := Section.setContent_inv hset
    have hname : s'.name = (s.setAlignments _ _).name := hplaced.name
    rw [name_setAlignments, hI name s hs] at hname
    exact ih (hI.set hname) hrest

/-- What a parse leaves for the lookups. -/
structure Looked (f f' : Flash) : Prop where
  parsed : f'.contentParsed = true
  filed : f'.Filed
  keys : ∀ name, name ∈ f'.sections.keys ↔ f.HasEntry name
  entries : ∀ name, f'.HasEntry name ↔ f.HasEntry name

theorem looked_of_parse (hfresh : f.Fresh) (h : Returns (parseContent host true) f () f') :
    Looked f f' := by
  obtain ⟨f₁, f₂, f₃, p, hcreate, hprops, hplace, hfinalize⟩ :=
    parseContent_inv hfresh.contentParsed hfresh.contentDict h
  obtain ⟨hframe₁, hnames₁⟩ := returns_createSections_names (by exact hfresh.sections) hcreate
  have hsame := keeps_handleSectionProperties _ _ _ hprops
  have hplaced := (placeSections_placed hplace).1
  have hfinal := keeps_finalizeSections _ _ _ _ hfinalize
  have hsections₂ : f₂.sections = f₁.sections := by rw [hsame.1]
  have hkeys : f'.sections.keys = f₁.sections.keys := by
    rw [hfinal.keys, hplaced.keys, hsections₂]
  have hnames₂ := names_of_prepared hfresh hcreate hprops
  have hcontent : f'.contentSections = f₂.contentSections := by
    rw [hfinal.frame, hplaced.frame]
    rfl
  refine ⟨contentParsed_of_parse hfresh h, fun name s hs => ?_, fun name => ⟨fun hname => ?_,
    fun hentry => ?_⟩, fun name => ?_⟩
  · obtain ⟨t, ht, hlayout⟩ := hfinal.layout name s hs
    have hfiled₂ : f₂.Filed := by
      intro n u hu
      rw [hsections₂] at hu
      exact filed_createSections (by exact hfresh.sections) hcreate n u hu
    have hsname : s.name = t.name := hlayout.base.name
    rw [hsname]
    exact filed_placeSections hfiled₂ hplace name t ht
  · exact hnames₁ name (hkeys ▸ hname)
  · unfold HasEntry at hentry
    rw [← hnames₂] at hentry
    obtain ⟨c, hc, hcname⟩ := List.mem_map.mp hentry
    obtain ⟨n, hn, hmem⟩ := hplaced.found c hc
    rw [hcname] at hn
    cases hn
    rw [hkeys, ← hsections₂]
    exact hmem
  · unfold HasEntry
    rw [hcontent, hnames₂]

/-- A flash whose content was parsed. -/
def opened (h : Host) (f : Flash) : Flash := finalState (parseContent h true) f

/-- A flash with a content that passes a parse. -/
def Opens (h : Host) (f : Flash) : Prop :=
  f.Fresh ∧ ∃ f', Returns (parseContent h true) f () f'

theorem Opens.returns (h : f.Opens host) :
    Returns (parseContent host true) f () (f.opened host) := by
  obtain ⟨-, f', hparse⟩ := h
  unfold opened
  rw [hparse.finalState]
  exact hparse

theorem Opens.looked (h : f.Opens host) : Looked f (f.opened host) :=
  looked_of_parse h.1 h.returns

/-- A call opens the flash, unless it is open. -/
theorem Opens.call (h : f.Opens host) (c : Call) :
    finalState (c.run host) f = f.opened host ∧
      finalState (c.run host) (f.opened host) = f.opened host :=
  ⟨after_eq h.1 h.returns (List.cons_ne_nil c []), after_of_parsed h.looked.parsed [c]⟩

/-- `get_sections` returns the sections of the opened flash, open or not. -/
theorem Opens.getSections (h : f.Opens host) :
    returned? (Flash.getSections host) f = some (f.opened host).sections.values ∧
      returned? (Flash.getSections host) (f.opened host) =
        some (f.opened host).sections.values := by
  have hvalues : ∀ g : Flash, Returns (parseContent host true) g () (f.opened host) →
      returned? (Flash.getSections host) g = some (f.opened host).sections.values := by
    intro g hg
    have hrun : Returns (Flash.getSections host) g (f.opened host).sections.values
        (f.opened host) := Returns.bind hg (returns_get_bind.mpr (returns_pure.mpr ⟨rfl, rfl⟩))
    exact hrun.returned?
  exact ⟨hvalues f h.returns, hvalues _ (returns_parseContent_again h.looked.parsed)⟩

/-- The lookups in an open flash. -/
theorem Looked.get_eq_none_iff {name : String} (h : Looked f f') :
    f'.sections.get name = none ↔ ¬ f.HasEntry name := by
  rw [Dict.get_eq_none_iff, h.keys]

theorem Looked.length_eq_zero_iff (h : Looked f f') :
    f'.sections.length = 0 ↔ ¬ ∃ name, f.HasEntry name := by
  rw [← Dict.length_keys, List.length_eq_zero_iff, List.eq_nil_iff_forall_not_mem, not_exists]
  exact forall_congr' fun name => not_congr (h.keys name)

end Flash

namespace Target

variable {host : Host} {history : List (String × Flash.Call)} {name : String}

/-! ## The flashes after the calls -/

/-- A flash after the calls: open if one of them was on it. -/
def seen (h : Host) (history : List (String × Flash.Call)) (p : String × Flash) :
    String × Flash :=
  if Called history p.1 then (p.1, p.2.opened h) else p

theorem seen_fst (p : String × Flash) : (seen host history p).1 = p.1 := by
  unfold seen
  split <;> rfl

theorem entries_call (t : Target) (c : String × Flash.Call) :
    (t.call host c).flashes.entries = t.flashes.entries.map fun p =>
      if p.1 = c.1 then (p.1, finalState (c.2.run host) p.2) else p := by
  unfold call
  split
  next hnone =>
    refine ((List.map_congr_left fun p hp => if_neg ?_).trans (List.map_id _)).symm
    intro hname
    exact Dict.get_eq_none_iff.mp hnone (List.mem_map.mpr ⟨p, hp, hname⟩)
  next f hf => exact Dict.entries_set_eq_map hf _

/-- After the calls the target has the same flashes, some of them open. -/
theorem entries_after_of_calls (history : List (String × Flash.Call)) {t : Target}
    (hcalls : ∀ p ∈ t.flashes.entries, ∀ c : Flash.Call,
      finalState (c.run host) p.2 = p.2.opened host ∧
        finalState (c.run host) (p.2.opened host) = p.2.opened host) :
    (t.after host history).flashes.entries = t.flashes.entries.map (seen host history) := by
  induction history using List.reverseRecOn with
  | nil => exact (List.map_id _).symm
  | append_singleton history c ih =>
    have hstep : t.after host (history ++ [c]) = (t.after host history).call host c := by
      unfold after
      rw [List.foldl_append]
      rfl
    rw [hstep, entries_call, ih, List.map_map]
    refine List.map_congr_left fun p hp => ?_
    obtain ⟨hclosed, hopen⟩ := hcalls p hp c.2
    have hcalled : Called (history ++ [c]) p.1 ↔ Called history p.1 ∨ p.1 = c.1 := by
      unfold Called
      rw [List.map_append, List.mem_append, List.map_singleton, List.mem_singleton]
    change (if (seen host history p).1 = c.1 then
      ((seen host history p).1, finalState (c.2.run host) (seen host history p).2)
      else seen host history p) = seen host (history ++ [c]) p
    have hseen : seen host (history ++ [c]) p =
        if Called history p.1 ∨ p.1 = c.1 then (p.1, p.2.opened host) else p :=
      if_congr hcalled rfl rfl
    rw [seen_fst, hseen]
    by_cases hname : p.1 = c.1
    · rw [if_pos hname, if_pos (Or.inr hname)]
      unfold seen
      split
      · exact congrArg (Prod.mk p.1) hopen
      · exact congrArg (Prod.mk p.1) hclosed
    · rw [if_neg hname]
      exact if_congr (or_iff_left hname).symm rfl rfl

theorem entries_after {t : Target} (hopens : ∀ p ∈ t.flashes.entries, p.2.Opens host) :
    (t.after host history).flashes.entries = t.flashes.entries.map (seen host history) :=
  entries_after_of_calls history fun p hp => (hopens p hp).call

/-! ## Where the sections stand -/

/-- The sections of a flash, once it is open. -/
def openedSections (h : Host) (p : String × Flash) : List (String × Section) :=
  (p.2.opened h).sections.values.map (Prod.mk p.1)

theorem length_openedSections (p : String × Flash) :
    (openedSections host p).length = (p.2.opened host).sections.length := by
  unfold openedSections
  rw [List.length_map, Dict.length_values]

/-- The sections of all flashes do not depend on the calls. -/
theorem allSections_after (history : List (String × Flash.Call)) {t : Target}
    (hopens : ∀ p ∈ t.flashes.entries, p.2.Opens host) :
    (t.after host history).allSections host = t.flashes.entries.flatMap (openedSections host) := by
  unfold allSections
  rw [entries_after hopens, List.flatMap_map]
  refine List.flatMap_congr fun p hp => ?_
  obtain ⟨hclosed, hopen⟩ := (hopens p hp).getSections
  unfold sectionsOf seen
  split
  · rw [hopen]
    rfl
  · rw [hclosed]
    rfl

theorem find?_openedSections {p : String × Flash} (h : p.2.Opens host) (name : String) :
    ((openedSections host p).find? fun s => s.2.name = name) =
      ((p.2.opened host).sections.get name).map (Prod.mk p.1) := by
  unfold openedSections
  rw [List.find?_map]
  exact congrArg _ (Dict.find?_values h.looked.filed name)

theorem findIdx?_openedSections {p : String × Flash} (h : p.2.Opens host) (name : String) :
    ((openedSections host p).findIdx? fun s => s.2.name = name) =
      (p.2.opened host).getSectionIndex name := by
  unfold openedSections
  rw [List.findIdx?_map]
  exact Dict.findIdx?_values h.looked.filed name

/-- Flashes whose content has no such section have none either. -/
theorem forall_openedSections_ne {es : List (String × Flash)}
    (hopens : ∀ p ∈ es, p.2.Opens host) (hnone : ∀ p ∈ es, ¬ p.2.HasEntry name) :
    ∀ s ∈ es.flatMap (openedSections host), s.2.name ≠ name := by
  intro s hs hname
  obtain ⟨p, hp, hs⟩ := List.mem_flatMap.mp hs
  have hfind := find?_openedSections (hopens p hp) name
  rw [(hopens p hp).looked.get_eq_none_iff.mpr (hnone p hp), Option.map_none,
    List.find?_eq_none] at hfind
  exact hfind s hs (decide_eq_true hname)

/-! ## The loops of the lookups -/

/-- Flashes without the section are passed over, and their sections counted. -/
theorem sectionIn_append {pre : List (String × Flash)}
    (hpre : ∀ p ∈ pre, p.2.sections.get name = none) (es : List (String × Flash)) :
    sectionIn name (pre ++ es) = sectionIn name es ∧ ∀ i, indexFrom name i (pre ++ es) =
      indexFrom name (i + (pre.map fun p => p.2.sections.length).sum) es := by
  induction pre with
  | nil => exact ⟨rfl, fun _ => rfl⟩
  | cons p pre ih =>
    obtain ⟨flashName, f⟩ := p
    have hnone : f.sections.get name = none := hpre _ List.mem_cons_self
    have hindex : f.getSectionIndex name = none := by
      unfold Flash.getSectionIndex
      rw [hnone]
      rfl
    obtain ⟨hsection, hfrom⟩ := ih fun q hq => hpre q (List.mem_cons_of_mem _ hq)
    refine ⟨?_, fun i => ?_⟩
    · rw [List.cons_append, sectionIn, Flash.getSectionByName, hnone]
      exact hsection
    · rw [List.cons_append, indexFrom, hindex, List.map_cons, List.sum_cons, ← Nat.add_assoc]
      exact hfrom _

theorem mem_of_sectionIn {es : List (String × Flash)} {found : String × Section}
    (h : sectionIn name es = some found) : found.1 ∈ es.map Prod.fst := by
  induction es with
  | nil => cases h
  | cons p es ih =>
    obtain ⟨flashName, f⟩ := p
    rw [sectionIn] at h
    split at h
    · cases h
      exact List.mem_cons_self
    · exact List.mem_cons_of_mem _ (ih h)

/-- A flash whose content has no such section finds none, open or not. -/
theorem get_seen_eq_none {p : String × Flash} (h : p.2.Opens host) (hnone : ¬ p.2.HasEntry name) :
    (seen host history p).2.sections.get name = none := by
  unfold seen
  split
  · exact h.looked.get_eq_none_iff.mpr hnone
  · rw [h.1.sections]
    rfl

theorem length_seen {p : String × Flash} (h : p.2.Opens host) :
    (seen host history p).2.sections.length =
      if Called history p.1 then (p.2.opened host).sections.length else 0 := by
  unfold seen
  split
  · rfl
  · rw [h.1.sections]
    rfl

/-! ## The first flash that has the section -/

/-- The flashes around the first one whose content has the section. -/
structure FirstIn (t : Target) (name : String) (pre : List (String × Flash)) (flashName : String)
    (f : Flash) (post : List (String × Flash)) : Prop where
  entries : t.flashes.entries = pre ++ (flashName, f) :: post
  before : ∀ p ∈ pre, ¬ p.2.HasEntry name
  here : f.HasEntry name

theorem exists_firstIn {t : Target} (h : ¬ ∀ f ∈ t.flashes.values, ¬ f.HasEntry name) :
    ∃ pre flashName f post, FirstIn t name pre flashName f post := by
  have hsome : (t.flashes.entries.find? fun p => p.2.HasEntry name).isSome := by
    by_contra hnone
    rw [Option.not_isSome_iff_eq_none, List.find?_eq_none] at hnone
    refine h fun f hf hentry => ?_
    obtain ⟨p, hp, rfl⟩ := List.mem_map.mp hf
    exact hnone p hp (decide_eq_true hentry)
  obtain ⟨⟨flashName, f⟩, hfind⟩ := Option.isSome_iff_exists.mp hsome
  obtain ⟨hhere, pre, post, hentries, hbefore⟩ := List.find?_eq_some_iff_append.mp hfind
  refine ⟨pre, flashName, f, post, hentries, fun p hp hentry => ?_, of_decide_eq_true hhere⟩
  have hnot := hbefore p hp
  rw [Bool.not_eq_true', decide_eq_false_iff_not] at hnot
  exact hnot hentry

variable {t : Target} {pre post : List (String × Flash)} {flashName : String} {f : Flash}

/-- Where the section stands among those of all flashes. -/
theorem allSections_firstIn (history : List (String × Flash.Call))
    (hopens : ∀ p ∈ t.flashes.entries, p.2.Opens host)
    (h : FirstIn t name pre flashName f post) :
    ∃ s, (f.opened host).sections.get name = some s ∧
      ((t.after host history).allSections host).find? (fun s => s.2.name = name) =
        some (flashName, s) ∧
      ((t.after host history).allSections host).findIdx? (fun s => s.2.name = name) =
        some ((pre.map fun p => (p.2.opened host).sections.length).sum +
          (f.opened host).sections.keys.idxOf name) := by
  have hf : f.Opens host := hopens (flashName, f) (by rw [h.entries]; simp)
  have hpre : ∀ p ∈ pre, p.2.Opens host := fun p hp =>
    hopens p (by rw [h.entries]; exact List.mem_append_left _ hp)
  obtain ⟨s, hs⟩ := Dict.mem_keys_iff.mp ((hf.looked.keys name).mpr h.here)
  have hne := forall_openedSections_ne hpre h.before
  have hsplit : (t.after host history).allSections host =
      pre.flatMap (openedSections host) ++
        (openedSections host (flashName, f) ++ post.flatMap (openedSections host)) := by
    rw [allSections_after history hopens, h.entries, List.flatMap_append, List.flatMap_cons]
  refine ⟨s, hs, ?_, ?_⟩
  · have hnone : (pre.flatMap (openedSections host)).find? (fun s => s.2.name = name) = none :=
      List.find?_eq_none.mpr fun s hs hname => hne s hs (of_decide_eq_true hname)
    have hhere := find?_openedSections (p := (flashName, f)) hf name
    rw [hs, Option.map_some] at hhere
    rw [hsplit, List.find?_append, hnone, Option.none_or, List.find?_append, hhere,
      Option.some_or]
  · have hnone : (pre.flatMap (openedSections host)).findIdx? (fun s => s.2.name = name) = none :=
      List.findIdx?_eq_none_iff.mpr fun s hs => decide_eq_false (hne s hs)
    have hhere := findIdx?_openedSections (p := (flashName, f)) hf name
    unfold Flash.getSectionIndex at hhere
    rw [hs, Option.isSome_some, if_pos rfl] at hhere
    rw [hsplit, List.findIdx?_append, hnone, Option.none_or, List.findIdx?_append, hhere,
      Option.some_or, Option.map_some, List.length_flatMap, Nat.add_comm]
    simp only [length_openedSections]

/-- What the lookups pass before they come to that flash. -/
theorem lookups_firstIn (history : List (String × Flash.Call))
    (hopens : ∀ p ∈ t.flashes.entries, p.2.Opens host)
    (h : FirstIn t name pre flashName f post) :
    let rest := seen host history (flashName, f) :: post.map (seen host history)
    (t.after host history).getSectionByName name = sectionIn name rest ∧
      (t.after host history).getSectionIndex name = indexFrom name
        (pre.map fun p => if Called history p.1 then (p.2.opened host).sections.length else 0).sum
        rest := by
  intro rest
  have hpre : ∀ p ∈ pre, p.2.Opens host := fun p hp =>
    hopens p (by rw [h.entries]; exact List.mem_append_left _ hp)
  have hentries : (t.after host history).flashes.entries =
      pre.map (seen host history) ++ rest := by
    rw [entries_after hopens, h.entries, List.map_append, List.map_cons]
  have hnone : ∀ p ∈ pre.map (seen host history), p.2.sections.get name = none := by
    intro p hp
    obtain ⟨q, hq, rfl⟩ := List.mem_map.mp hp
    exact get_seen_eq_none (hpre q hq) (h.before q hq)
  obtain ⟨hsection, hindex⟩ := sectionIn_append hnone rest
  have hlengths : (pre.map (seen host history)).map (fun p => p.2.sections.length) =
      pre.map fun p => if Called history p.1 then (p.2.opened host).sections.length else 0 := by
    rw [List.map_map]
    exact List.map_congr_left fun p hp => length_seen (hpre p hp)
  refine ⟨?_, ?_⟩
  · rw [← hsection, ← hentries]
    rfl
  · rw [← hlengths, ← Nat.zero_add (List.sum _), ← hindex, ← hentries]
    rfl

/-- With a call on the flash the section is found, at a place that counts the
open flashes only. -/
theorem lookups_called (hopens : ∀ p ∈ t.flashes.entries, p.2.Opens host)
    (h : FirstIn t name pre flashName f post) (hcalled : Called history flashName) {s : Section}
    (hs : (f.opened host).sections.get name = some s) :
    (t.after host history).getSectionByName name = some (flashName, s) ∧
      (t.after host history).getSectionIndex name = some ((pre.map fun p =>
        if Called history p.1 then (p.2.opened host).sections.length else 0).sum +
          (f.opened host).sections.keys.idxOf name) := by
  obtain ⟨hsection, hindex⟩ := lookups_firstIn history hopens h
  have hseen : seen host history (flashName, f) = (flashName, f.opened host) := if_pos hcalled
  have hplace : (f.opened host).getSectionIndex name =
      some ((f.opened host).sections.keys.idxOf name) := by
    unfold Flash.getSectionIndex
    rw [hs]
    rfl
  rw [hsection, hindex, hseen, sectionIn, indexFrom, Flash.getSectionByName, hs, hplace]
  exact ⟨rfl, rfl⟩

/-- Without one, no section of that flash is found. -/
theorem lookups_not_called (hopens : ∀ p ∈ t.flashes.entries, p.2.Opens host)
    (h : FirstIn t name pre flashName f post) (hcalled : ¬ Called history flashName) (s : Section) :
    (t.after host history).getSectionByName name ≠ some (flashName, s) := by
  intro hfound
  have hf : f.Opens host := hopens (flashName, f) (by rw [h.entries]; simp)
  have hseen : seen host history (flashName, f) = (flashName, f) := if_neg hcalled
  have hnone : f.sections.get name = none := by
    rw [hf.1.sections]
    rfl
  rw [(lookups_firstIn history hopens h).1, hseen, sectionIn, Flash.getSectionByName,
    hnone] at hfound
  have hmem := mem_of_sectionIn hfound
  have hnames : (post.map (seen host history)).map Prod.fst = post.map Prod.fst := by
    rw [List.map_map]
    exact List.map_congr_left fun p _ => seen_fst p
  rw [hnames] at hmem
  have hnodup := t.flashes.nodup
  rw [h.entries, List.map_append, List.map_cons, List.nodup_append, List.nodup_cons] at hnodup
  exact hnodup.2.1.1 hmem

/-! ## Lookups and history -/

theorem hasEntry_after (hopens : ∀ p ∈ t.flashes.entries, p.2.Opens host) :
    (∀ f ∈ (t.after host history).flashes.values, ¬ f.HasEntry name) ↔
      ∀ f ∈ t.flashes.values, ¬ f.HasEntry name := by
  have hseen : ∀ p ∈ t.flashes.entries,
      ((seen host history p).2.HasEntry name ↔ p.2.HasEntry name) := by
    intro p hp
    unfold seen
    split
    · exact (hopens p hp).looked.entries name
    · exact Iff.rfl
  unfold Dict.values
  rw [entries_after hopens, List.map_map, List.forall_mem_map, List.forall_mem_map]
  exact forall₂_congr fun p hp => not_congr (hseen p hp)

theorem lookupsAgree_of_none (hopens : ∀ p ∈ t.flashes.entries, p.2.Opens host)
    (hnone : ∀ f ∈ t.flashes.values, ¬ f.HasEntry name) :
    LookupsAgree host (t.after host history) name := by
  have hbefore : ∀ p ∈ t.flashes.entries, ¬ p.2.HasEntry name := fun p hp =>
    hnone p.2 (List.mem_map.mpr ⟨p, hp, rfl⟩)
  have hget : ∀ p ∈ t.flashes.entries.map (seen host history), p.2.sections.get name = none := by
    intro p hp
    obtain ⟨q, hq, rfl⟩ := List.mem_map.mp hp
    exact get_seen_eq_none (hopens q hq) (hbefore q hq)
  obtain ⟨hsection, hindex⟩ := sectionIn_append hget []
  rw [List.append_nil, ← entries_after hopens] at hsection hindex
  have hsection : (t.after host history).getSectionByName name = none := hsection
  have hindex : (t.after host history).getSectionIndex name = none := hindex 0
  have hne := forall_openedSections_ne hopens hbefore
  rw [← allSections_after history hopens] at hne
  refine ⟨?_, ?_, ?_, ?_⟩
  · rw [hsection]
    exact (List.find?_eq_none.mpr fun s hs hname => hne s hs (of_decide_eq_true hname)).symm
  · rw [hindex]
    exact (List.findIdx?_eq_none_iff.mpr fun s hs => decide_eq_false (hne s hs)).symm
  · exact iff_of_true hsection ((hasEntry_after hopens).mpr hnone)
  · exact iff_of_true hindex ((hasEntry_after hopens).mpr hnone)

/-- A flash with sections has a name for one of them. -/
theorem length_opened_eq_zero_iff {p : String × Flash} (h : p.2.Opens host) :
    (p.2.opened host).sections.length = 0 ↔ p.2.contentSections = [] := by
  rw [h.looked.length_eq_zero_iff]
  constructor
  · intro hnone
    rw [List.eq_nil_iff_forall_not_mem]
    intro c hc
    obtain ⟨f₁, hcreate⟩ : ∃ f₁, Returns (forEach (Flash.createSection host) p.2.contentSections)
        { p.2 with contentParsed := true } () f₁ := by
      obtain ⟨f₁, -, -, -, hcreate, -⟩ :=
        Flash.parseContent_inv h.1.contentParsed h.1.contentDict h.returns
      exact ⟨f₁, hcreate⟩
    obtain ⟨name, hname⟩ := Flash.named_of_createSections hcreate c hc
    exact hnone ⟨name, List.mem_map.mpr ⟨c, hc, hname⟩⟩
  · rintro hnil ⟨name, hentry⟩
    unfold Flash.HasEntry at hentry
    rw [hnil] at hentry
    cases hentry

/-- With a call on the first flash that has the section, the lookups agree when
no section of an earlier flash goes uncounted. -/
theorem lookupsAgree_firstIn_iff (hopens : ∀ p ∈ t.flashes.entries, p.2.Opens host)
    (h : FirstIn t name pre flashName f post) :
    LookupsAgree host (t.after host history) name ↔ Called history flashName ∧
      ∀ p ∈ pre, p.2.contentSections ≠ [] → Called history p.1 := by
  have hpre : ∀ p ∈ pre, p.2.Opens host := fun p hp =>
    hopens p (by rw [h.entries]; exact List.mem_append_left _ hp)
  obtain ⟨s, hs, hfind, hfindIdx⟩ := allSections_firstIn history hopens h
  have hsums : ((pre.map fun p => if Called history p.1 then (p.2.opened host).sections.length
      else 0).sum = (pre.map fun p => (p.2.opened host).sections.length).sum) ↔
      ∀ p ∈ pre, p.2.contentSections ≠ [] → Called history p.1 := by
    rw [sum_map_ite_eq_iff]
    refine forall₂_congr fun p hp => ?_
    rw [length_opened_eq_zero_iff (hpre p hp), ne_eq, ← or_iff_not_imp_left, or_comm]
  constructor
  · intro hagree
    have hfound := hagree.found
    have hindex := hagree.index
    rw [hfind] at hfound
    rw [hfindIdx] at hindex
    have hcalled : Called history flashName :=
      not_not.mp fun hnot => lookups_not_called hopens h hnot s hfound
    rw [(lookups_called hopens h hcalled hs).2, Option.some.injEq] at hindex
    exact ⟨hcalled, hsums.mp (Nat.add_right_cancel hindex)⟩
  · rintro ⟨hcalled, hcounted⟩
    obtain ⟨hsection, hindex⟩ := lookups_called hopens h hcalled hs
    rw [hsums.mpr hcounted] at hindex
    have hsome : ¬ ∀ f ∈ (t.after host history).flashes.values, ¬ f.HasEntry name := by
      rw [hasEntry_after hopens]
      refine fun hnone => hnone f (List.mem_map.mpr ⟨(flashName, f), ?_, rfl⟩) h.here
      rw [h.entries]
      simp
    refine ⟨?_, ?_, ?_, ?_⟩
    · rw [hsection, hfind]
    · rw [hindex, hfindIdx]
    · rw [hsection]
      exact iff_of_false (by simp) hsome
    · rw [hindex]
      exact iff_of_false (by simp) hsome

/-- For every target whose contents pass a parse, every history and every name:
the lookups do not depend on the calls before exactly when those opened the
flashes the lookups go through. -/
theorem lookupsAgree_iff (hopens : ∀ p ∈ t.flashes.entries, p.2.Opens host)
    (history : List (String × Flash.Call)) (name : String) :
    LookupsAgree host (t.after host history) name ↔ LookupReady history t name := by
  constructor
  · intro hagree
    by_cases hnone : ∀ f ∈ t.flashes.values, ¬ f.HasEntry name
    · exact .inl hnone
    · obtain ⟨pre, flashName, f, post, h⟩ := exists_firstIn hnone
      obtain ⟨hcalled, hcounted⟩ := (lookupsAgree_firstIn_iff hopens h).mp hagree
      exact .inr ⟨pre, flashName, f, post, h.entries, h.before, h.here, hcalled, hcounted⟩
  · rintro (hnone | ⟨pre, flashName, f, post, hentries, hbefore, hhere, hready⟩)
    · exact lookupsAgree_of_none hopens hnone
    · exact (lookupsAgree_firstIn_iff hopens ⟨hentries, hbefore, hhere⟩).mpr hready

/-! ## Two flashes -/

/-- Two flashes with a raw section each. -/
def lookupTarget : Target where
  parser := ⟨[], []⟩
  flashes := (Dict.empty.set "rom" (Flash.ofContent 0x20 Dict.empty [rawEntry "a" 4])).set "mram"
    (Flash.ofContent 0x20 Dict.empty [rawEntry "b" 4])

theorem opens_lookupTarget : ∀ p ∈ lookupTarget.flashes.entries, p.2.Opens Host.noFiles := by
  have hflash : ∀ sectionName, returned? (Flash.parseContent Host.noFiles true)
      (Flash.ofContent 0x20 Dict.empty [rawEntry sectionName 4]) = some () →
      (Flash.ofContent 0x20 Dict.empty [rawEntry sectionName 4]).Opens Host.noFiles :=
    fun sectionName h => ⟨⟨rfl, rfl, rfl⟩, _, returns_of_returned? h⟩
  intro p hp
  rcases List.mem_pair.mp hp with rfl | rfl
  · exact hflash "a" (by decide +kernel)
  · exact hflash "b" (by decide +kernel)

/-- A call on both flashes, in whatever order, is enough. -/
theorem lookupsAgree_iff_two :
    LookupsAgree Host.noFiles (lookupTarget.after Host.noFiles
      [("mram", .isEmpty), ("rom", .getImage none none)]) "b" := by
  refine (lookupsAgree_iff opens_lookupTarget _ "b").mpr (.inr ?_)
  refine ⟨[("rom", Flash.ofContent 0x20 Dict.empty [rawEntry "a" 4])], "mram",
    Flash.ofContent 0x20 Dict.empty [rawEntry "b" 4], [], rfl, fun p hp => ?_, by decide, by decide,
    fun p hp _ => ?_⟩
  · rw [List.mem_singleton.mp hp]
    decide
  · rw [List.mem_singleton.mp hp]
    decide

/-- Without any call nothing is found. -/
theorem not_lookupsAgree : ¬ ∀ (host : Host) (t : Target) (history : List (String × Flash.Call))
    (name : String), (∀ p ∈ t.flashes.entries, p.2.Opens host) →
    LookupsAgree host (t.after host history) name := by
  intro h
  have hagree := h Host.noFiles lookupTarget [] "a" opens_lookupTarget
  have hnone := hagree.notFound.mp rfl
  exact absurd (hnone (Flash.ofContent 0x20 Dict.empty [rawEntry "a" 4]) List.mem_cons_self)
    (by decide)

end Target

end SoftHier.Gapy
