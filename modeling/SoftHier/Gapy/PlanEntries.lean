/-
  Gapy/PlanEntries.lean --- the entries of a plan by their names.

  Which section an entry shares, which entry of a name the command line changes,
  and which entries come before one of the same name.  Where no name is given
  twice none of this matters.
-/
import SoftHier.Gapy.LayoutPlan

set_option autoImplicit false

namespace SoftHier.Gapy

open SoftHier.Foundation

namespace PlanEntry

variable {name : String} {changed e : PlanEntry} {entries : List PlanEntry}

theorem length_contents (e : PlanEntry) : e.contents.length = e.earlier.length + 1 := by
  unfold contents
  rw [List.length_append, List.length_singleton]

/-! ## The bytes an entry asks for -/

theorem romBytes_nonneg (binary : Option Binary) : 0 ≤ romBytes binary := by
  cases binary with
  | none => exact Int.zero_le_ofNat 4
  | some binary =>
    refine add_nonneg (Int.zero_le_ofNat 16) (List.sum_nonneg fun n hn => ?_)
    obtain ⟨b, -, rfl⟩ := List.mem_map.mp hn
    omega

theorem readfsBytes_nonneg (paths : List (String × String)) (sizes : List Nat) :
    0 ≤ readfsBytes paths sizes := by
  refine add_nonneg (add_nonneg (Int.zero_le_ofNat 12) ?_) ?_
  · refine List.sum_nonneg fun n hn => ?_
    obtain ⟨p, -, rfl⟩ := List.mem_map.mp hn
    omega
  · refine List.sum_nonneg fun n hn => ?_
    obtain ⟨size, -, rfl⟩ := List.mem_map.mp hn
    exact Int.natCast_nonneg size

/-! ## Sharing a section -/

theorem owners_concat (entries : List PlanEntry) (e : PlanEntry) :
    owners (entries ++ [e]) = (owners entries).set e.name (e.template, (owners entries).length) := by
  rw [owners, List.foldl_append]
  rfl

theorem mem_keys_owners (he : e ∈ entries) : e.name ∈ (owners entries).keys := by
  induction entries using List.reverseRecOn with
  | nil => exact absurd he List.not_mem_nil
  | append_singleton entries e' ih =>
    rw [owners_concat, Dict.mem_keys_set]
    rcases List.mem_append.mp he with he | he
    · exact .inr (ih he)
    · exact .inl (congrArg PlanEntry.name (List.mem_singleton.mp he))

/-- The entry has the class of its section and knows how many lie behind it. -/
def Owned (owners : Dict String (SectionTemplate × Nat)) (e : PlanEntry) : Prop :=
  ∃ id, owners.get e.name = some (e.template, id) ∧ e.later = owners.length - (id + 1)

theorem owned_owned {owners : Dict String (SectionTemplate × Nat)} (h : e.name ∈ owners.keys) :
    Owned owners (owned owners e) := by
  obtain ⟨⟨template, id⟩, hget⟩ := Dict.mem_keys_iff.mp h
  unfold owned
  rw [hget]
  exact ⟨id, hget, rfl⟩

theorem name_owned (owners : Dict String (SectionTemplate × Nat)) (e : PlanEntry) :
    (owned owners e).name = e.name := by
  unfold owned
  cases owners.get e.name <;> rfl

theorem content_owned (owners : Dict String (SectionTemplate × Nat)) (e : PlanEntry) :
    (owned owners e).content = e.content := by
  unfold owned
  cases owners.get e.name <;> rfl

theorem map_name_share (entries : List PlanEntry) :
    (share entries).map PlanEntry.name = entries.map PlanEntry.name := by
  rw [share, List.map_map]
  exact List.map_congr_left fun e _ => name_owned _ e

theorem map_content_share (entries : List PlanEntry) :
    (share entries).map content = entries.map content := by
  rw [share, List.map_map]
  exact List.map_congr_left fun e _ => content_owned _ e

theorem owned_of_mem_share (h : e ∈ share entries) : Owned (owners entries) e := by
  obtain ⟨e, he, rfl⟩ := List.mem_map.mp h
  exact owned_owned (mem_keys_owners he)

/-! ## An entry is replaced -/

theorem mem_replace (h : e ∈ replace name changed entries) : e = changed ∨ e ∈ entries := by
  induction entries with
  | nil => exact absurd h List.not_mem_nil
  | cons e' entries ih =>
    rw [replace] at h
    split at h
    · rcases List.mem_cons.mp h with heq | hmem
      · exact .inl heq
      · exact .inr (List.mem_cons_of_mem e' hmem)
    · rcases List.mem_cons.mp h with rfl | hmem
      · exact .inr List.mem_cons_self
      · exact (ih hmem).imp_right (List.mem_cons_of_mem e')

/-- An entry replaces nothing under its own name. -/
theorem replace_self (h : (entries.find? fun e => e.name = name) = some e) :
    replace name e entries = entries := by
  induction entries with
  | nil => rfl
  | cons e' entries ih =>
    rw [replace]
    by_cases heq : e'.name = name
    · rw [List.find?_cons_of_pos (by simpa using heq)] at h
      rw [if_pos heq, Option.some.inj h]
    · rw [List.find?_cons_of_neg (by simpa using heq)] at h
      rw [if_neg heq, ih h]

theorem replace_replace {again : PlanEntry} (hname : changed.name = name) :
    replace name again (replace name changed entries) = replace name again entries := by
  induction entries with
  | nil => rfl
  | cons e entries ih =>
    rw [replace, replace]
    by_cases heq : e.name = name
    · rw [if_pos heq, if_pos heq, replace, if_pos hname]
    · rw [if_neg heq, if_neg heq, replace, if_neg heq, ih]

theorem find?_replace (hname : changed.name = name)
    (h : (entries.find? fun e => e.name = name) = some e) :
    ((replace name changed entries).find? fun e => e.name = name) = some changed := by
  induction entries with
  | nil => cases h
  | cons e' entries ih =>
    rw [replace]
    by_cases heq : e'.name = name
    · rw [if_pos heq, List.find?_cons_of_pos (by simpa using hname)]
    · rw [List.find?_cons_of_neg (by simpa using heq)] at h
      rw [if_neg heq, List.find?_cons_of_neg (by simpa using heq)]
      exact ih h

theorem find?_contents (hnames : ∀ e ∈ entries, e.content.name = some e.name) :
    ((entries.map PlanEntry.content).find? fun c => c.name = some name) =
      (entries.find? fun e => e.name = name).map PlanEntry.content := by
  induction entries with
  | nil => rfl
  | cons e entries ih =>
    have hrest := ih fun e' he' => hnames e' (List.mem_cons_of_mem e he')
    have hhead := hnames e List.mem_cons_self
    rw [List.map_cons]
    by_cases heq : e.name = name
    · rw [List.find?_cons_of_pos (by simp [hhead, heq]), List.find?_cons_of_pos (by simp [heq])]
      rfl
    · rw [List.find?_cons_of_neg (by simp [hhead, heq]), List.find?_cons_of_neg (by simp [heq]),
        hrest]

/-- The command line changes the content of the entry that is replaced. -/
theorem updateFirst_contents (hnames : ∀ e ∈ entries, e.content.name = some e.name)
    (h : (entries.find? fun e => e.name = name) = some e) {change : ContentSection → ContentSection}
    (hchanged : changed.content = change e.content) :
    Flash.updateFirst name change (entries.map PlanEntry.content) =
      (replace name changed entries).map PlanEntry.content := by
  induction entries with
  | nil => rfl
  | cons e' entries ih =>
    have hhead := hnames e' List.mem_cons_self
    rw [List.map_cons, Flash.updateFirst, hhead, replace]
    by_cases heq : e'.name = name
    · rw [List.find?_cons_of_pos (by simpa using heq)] at h
      rw [if_pos (congrArg some heq), if_pos heq, List.map_cons, hchanged, Option.some.inj h]
    · rw [List.find?_cons_of_neg (by simpa using heq)] at h
      rw [if_neg fun hsome => heq (Option.some.inj hsome), if_neg heq, List.map_cons,
        ih (fun e hmem => hnames e (List.mem_cons_of_mem e' hmem)) h]

/-- What a change of properties leaves as it is. -/
theorem frame_withProperty {property : String × String}
    (h : e.withProperty property = .ok changed) :
    ∃ properties, changed = { e with content := { e.content with properties := properties } } := by
  obtain ⟨properties, -, h⟩ := bind_eq_ok_iff.mp h
  exact ⟨some properties, (Except.ok.inj h).symm⟩

theorem map_name_replace (hname : changed.name = name) (entries : List PlanEntry) :
    (replace name changed entries).map PlanEntry.name = entries.map PlanEntry.name := by
  induction entries with
  | nil => rfl
  | cons e entries ih =>
    rw [replace]
    by_cases heq : e.name = name
    · rw [if_pos heq, List.map_cons, List.map_cons, hname, heq]
    · rw [if_neg heq, List.map_cons, List.map_cons, ih]

theorem name_foldlM_withProperty {properties : List (String × String)} :
    ∀ {e changed : PlanEntry}, properties.foldlM withProperty e = .ok changed →
      changed.name = e.name := by
  induction properties with
  | nil =>
    intro e changed h
    cases h
    rfl
  | cons property properties ih =>
    intro e changed h
    rw [List.foldlM_cons] at h
    obtain ⟨next, hnext, h⟩ := bind_eq_ok_iff.mp h
    obtain ⟨properties', rfl⟩ := frame_withProperty hnext
    exact (ih h).trans rfl

theorem overwrite_iff {p : String × List (String × String)} {entries' : List PlanEntry} :
    overwrite entries p = .ok entries' ↔ ∃ e c, (entries.find? fun e => e.name = p.1) = some e ∧
      p.2.foldlM withProperty e = .ok c ∧ entries' = replace p.1 c entries := by
  unfold overwrite
  cases entries.find? fun e => e.name = p.1 with
  | none => exact ⟨nofun, fun ⟨_, _, h, _⟩ => absurd h nofun⟩
  | some e =>
    constructor
    · intro h
      obtain ⟨c, hc, h⟩ := bind_eq_ok_iff.mp h
      exact ⟨e, c, rfl, hc, (Except.ok.inj h).symm⟩
    · rintro ⟨_, c, heq, hc, rfl⟩
      cases heq
      exact bind_eq_ok_iff.mpr ⟨c, hc, rfl⟩

/-- The command line changes no name. -/
theorem map_name_overwriteAll {properties : List (String × List (String × String))} :
    ∀ {entries entries' : List PlanEntry}, properties.foldlM overwrite entries = .ok entries' →
      entries'.map PlanEntry.name = entries.map PlanEntry.name := by
  induction properties with
  | nil =>
    intro entries entries' h
    cases h
    rfl
  | cons p properties ih =>
    intro entries entries' h
    rw [List.foldlM_cons] at h
    obtain ⟨next, hnext, h⟩ := bind_eq_ok_iff.mp h
    obtain ⟨e, c, hfind, hc, rfl⟩ := overwrite_iff.mp hnext
    have hname : e.name = p.1 := by simpa using List.find?_some hfind
    rw [ih h, map_name_replace ((name_foldlM_withProperty hc).trans hname)]

/-! ## The entries of a name -/

theorem contentsOf_concat (name : String) (entries : List PlanEntry) (e : PlanEntry) :
    contentsOf name (entries ++ [e]) =
      contentsOf name entries ++ if e.name = name then [e.content] else [] := by
  unfold contentsOf
  rw [List.filter_append, List.map_append]
  by_cases heq : e.name = name
  · rw [if_pos heq, List.filter_cons_of_pos (by simpa using heq)]
    rfl
  · rw [if_neg heq, List.filter_cons_of_neg (by simpa using heq)]
    rfl

theorem map_name_follow (entries : List PlanEntry) :
    ∀ done, (follow done entries).map PlanEntry.name = entries.map PlanEntry.name := by
  induction entries with
  | nil => exact fun _ => rfl
  | cons e entries ih =>
    intro done
    rw [follow, List.map_cons, List.map_cons, ih]

end PlanEntry

namespace PlanStep

theorem last_concat (steps : List PlanStep) (p : PlanStep) :
    last (steps ++ [p]) = (last steps).set p.entry.name p := by
  rw [last, List.foldl_append]
  rfl

/-- The last step of a name is a step of this name. -/
theorem mem_of_get_last {steps : List PlanStep} {name : String} {p : PlanStep}
    (h : (last steps).get name = some p) : p ∈ steps ∧ p.entry.name = name := by
  induction steps using List.reverseRecOn with
  | nil => cases h
  | append_singleton steps q ih =>
    rw [last_concat, Dict.get_set] at h
    split at h
    next heq =>
      obtain rfl := Option.some.inj h
      exact ⟨List.mem_append_right steps List.mem_cons_self, heq⟩
    · exact ⟨List.mem_append_left [q] (ih h).1, (ih h).2⟩

/-- How often a section was reached. -/
theorem countP_name (steps : List PlanStep) (name : String) :
    (steps.countP fun p => p.entry.name = name) =
      (PlanEntry.contentsOf name (steps.map PlanStep.entry)).length := by
  unfold PlanEntry.contentsOf
  rw [List.length_map, ← List.countP_eq_length_filter, List.countP_map]
  rfl

/-- A section without a last step was not reached. -/
theorem countP_of_get_last {steps : List PlanStep} {name : String}
    (h : (last steps).get name = none) : (steps.countP fun p => p.entry.name = name) = 0 := by
  induction steps using List.reverseRecOn with
  | nil => rfl
  | append_singleton steps q ih =>
    rw [last_concat, Dict.get_set] at h
    split at h
    · cases h
    next hne => rw [List.countP_append, ih h, List.countP_cons_of_neg (by simpa using hne)]; rfl

end PlanStep

/-! ## The steps of a plan -/

/-- What a step says of its entry: the section starts where its class puts it behind
the flash offset, and reports a size for what the entry demands. -/
structure PlanStep.Taken (h : Host) (f : Flash) (p : PlanStep) : Prop where
  start : p.start = Flash.placedOffset f.flashAttributes p.entry.template p.offset
  size : ∃ allocated, p.entry.demand h f.context p.start = .ok allocated ∧
    reportedSize (f.flashAttributes.get "section_start_align")
      (f.flashAttributes.get "section_size_align") (p.entry.value "size") allocated = .ok p.size

namespace Flash

variable {h : Host} {f : Flash} {checkOverflow : Bool}

theorem taken_of_mem_planFrom {entries : List PlanEntry} {p : PlanStep} :
    ∀ {offset : Int} {steps : List PlanStep},
      f.planFrom h checkOverflow offset entries = .ok steps → p ∈ steps → p.Taken h f := by
  induction entries with
  | nil =>
    intro offset steps hplan hp
    cases hplan
    exact absurd hp List.not_mem_nil
  | cons e entries ih =>
    intro offset steps hplan hp
    obtain ⟨allocated, size, hdemand, hsize, ⟨-, -, rfl⟩ | ⟨-, rest, hrest, rfl⟩⟩ :=
      planFrom_cons_iff.mp hplan
    · obtain rfl := List.mem_singleton.mp hp
      exact ⟨rfl, allocated, hdemand, hsize⟩
    · rcases List.mem_cons.mp hp with rfl | hp
      · exact ⟨rfl, allocated, hdemand, hsize⟩
      · exact ih hrest hp

/-- With the check every section ends within the flash. -/
theorem stop_le_of_mem_planFrom {entries : List PlanEntry} {p : PlanStep} :
    ∀ {offset : Int} {steps : List PlanStep},
      f.planFrom h true offset entries = .ok steps → p ∈ steps → p.stop ≤ f.size := by
  induction entries with
  | nil =>
    intro offset steps hplan hp
    cases hplan
    exact absurd hp List.not_mem_nil
  | cons e entries ih =>
    intro offset steps hplan hp
    obtain ⟨allocated, size, rest, -, -, hfits, hrest, rfl⟩ := planFrom_cons_checked_iff.mp hplan
    rcases List.mem_cons.mp hp with rfl | hp
    · exact hfits
    · exact ih hrest hp

/-- With the check every entry takes a step. -/
theorem map_entry_planFrom {entries : List PlanEntry} :
    ∀ {offset : Int} {steps : List PlanStep}, f.planFrom h true offset entries = .ok steps →
      steps.map PlanStep.entry = entries := by
  induction entries with
  | nil =>
    intro offset steps hplan
    cases hplan
    rfl
  | cons e entries ih =>
    intro offset steps hplan
    obtain ⟨allocated, size, rest, -, -, -, hrest, rfl⟩ := planFrom_cons_checked_iff.mp hplan
    rw [List.map_cons, ih hrest]

/-- Without the check the steps are the same, or they end with a section that overflows. -/
theorem planFrom_unchecked {entries : List PlanEntry} :
    ∀ {offset : Int} {steps : List PlanStep}, f.planFrom h false offset entries = .ok steps →
      f.planFrom h true offset entries = .ok steps ∨
        ∃ front p, steps = front ++ [p] ∧ (f.size : Int) < p.stop := by
  induction entries with
  | nil => exact fun hplan => .inl hplan
  | cons e entries ih =>
    intro offset steps hplan
    obtain ⟨allocated, size, hdemand, hsize, ⟨-, hover, rfl⟩ | ⟨hfits, rest, hrest, rfl⟩⟩ :=
      planFrom_cons_iff.mp hplan
    · exact .inr ⟨[], _, rfl, hover⟩
    · rcases ih hrest with hchecked | ⟨front, p, rfl, hover⟩
      · exact .inl (planFrom_cons_checked_iff.mpr
          ⟨allocated, size, rest, hdemand, hsize, hfits, hchecked, rfl⟩)
      · exact .inr ⟨_ :: front, p, rfl, hover⟩

/-- Where nothing overflows the check makes no difference. -/
theorem planFrom_of_checked {entries : List PlanEntry} :
    ∀ {offset : Int} {steps : List PlanStep}, f.planFrom h true offset entries = .ok steps →
      f.planFrom h false offset entries = .ok steps := by
  induction entries with
  | nil => exact fun hplan => hplan
  | cons e entries ih =>
    intro offset steps hplan
    obtain ⟨allocated, size, rest, hdemand, hsize, hfits, hrest, rfl⟩ :=
      planFrom_cons_checked_iff.mp hplan
    exact planFrom_cons_iff.mpr ⟨allocated, size, hdemand, hsize, .inr ⟨hfits, rest, ih hrest, rfl⟩⟩

theorem planSteps_iff {steps : List PlanStep} :
    f.planSteps h checkOverflow = .ok steps ↔ ∃ entries changed,
      f.contentSections.mapM (PlanEntry.ofContent h f.sectionsTemplates) = .ok entries ∧
      f.properties.foldlM PlanEntry.overwrite (PlanEntry.share entries) = .ok changed ∧
      f.planFrom h checkOverflow 0 (PlanEntry.follow [] changed) = .ok steps ∧
      ∃ done, changed.mapM (checkTable steps) = .ok done := by
  unfold planSteps
  constructor
  · intro hplan
    obtain ⟨entries, hentries, hplan⟩ := bind_eq_ok_iff.mp hplan
    obtain ⟨changed, hchanged, hplan⟩ := bind_eq_ok_iff.mp hplan
    obtain ⟨taken, hsteps, hplan⟩ := bind_eq_ok_iff.mp hplan
    obtain ⟨done, hdone, hplan⟩ := bind_eq_ok_iff.mp hplan
    obtain rfl := Except.ok.inj hplan
    exact ⟨entries, changed, hentries, hchanged, hsteps, done, hdone⟩
  · rintro ⟨entries, changed, hentries, hchanged, hsteps, done, hdone⟩
    exact bind_eq_ok_iff.mpr ⟨entries, hentries, bind_eq_ok_iff.mpr ⟨changed, hchanged,
      bind_eq_ok_iff.mpr ⟨steps, hsteps, bind_eq_ok_iff.mpr ⟨done, hdone, rfl⟩⟩⟩⟩

theorem taken_of_mem {steps : List PlanStep} {p : PlanStep}
    (hplan : f.planSteps h checkOverflow = .ok steps) (hp : p ∈ steps) : p.Taken h f := by
  obtain ⟨entries, changed, -, -, hsteps, -⟩ := planSteps_iff.mp hplan
  exact taken_of_mem_planFrom hsteps hp

theorem stop_le_of_mem {steps : List PlanStep} {p : PlanStep}
    (hplan : f.planSteps h true = .ok steps) (hp : p ∈ steps) : p.stop ≤ f.size := by
  obtain ⟨entries, changed, -, -, hsteps, -⟩ := planSteps_iff.mp hplan
  exact stop_le_of_mem_planFrom hsteps hp

theorem planSteps_of_checked {steps : List PlanStep} (hplan : f.planSteps h true = .ok steps) :
    f.planSteps h false = .ok steps := by
  obtain ⟨entries, changed, hentries, hchanged, hsteps, hdone⟩ := planSteps_iff.mp hplan
  exact planSteps_iff.mpr
    ⟨entries, changed, hentries, hchanged, planFrom_of_checked hsteps, hdone⟩

theorem map_name_planSteps {entries : List PlanEntry} {steps : List PlanStep}
    (hentries : f.contentSections.mapM (PlanEntry.ofContent h f.sectionsTemplates) = .ok entries)
    (hplan : f.planSteps h true = .ok steps) :
    (steps.map fun p => p.entry.name) = entries.map PlanEntry.name := by
  obtain ⟨_, changed, hentries', hchanged, hsteps, -⟩ := planSteps_iff.mp hplan
  obtain rfl := Except.ok.inj (hentries.symm.trans hentries')
  have hnames : (steps.map fun p => p.entry.name) =
      (steps.map PlanStep.entry).map PlanEntry.name := by
    rw [List.map_map]
    rfl
  rw [hnames, map_entry_planFrom hsteps, PlanEntry.map_name_follow,
    PlanEntry.map_name_overwriteAll hchanged, PlanEntry.map_name_share]

end Flash

/-! ## Distinct names -/

namespace PlanEntry

theorem owners_of_nodup {entries : List PlanEntry} (h : (entries.map PlanEntry.name).Nodup) :
    (owners entries).entries = entries.zipIdx.map fun p => (p.1.name, p.1.template, p.2) := by
  induction entries using List.reverseRecOn with
  | nil => rfl
  | append_singleton entries e ih =>
    rw [List.map_append, List.nodup_append] at h
    have hfresh : e.name ∉ (owners entries).keys := by
      rw [Dict.keys, ih h.1, List.map_map]
      intro hmem
      obtain ⟨p, hp, heq⟩ := List.mem_map.mp hmem
      refine h.2.2 p.1.name (List.mem_map.mpr ⟨p.1, ?_, rfl⟩) e.name List.mem_cons_self heq
      exact List.fst_mem_of_mem_zipIdx hp
    have hlen : (owners entries).length = entries.length := by
      rw [Dict.length, ih h.1, List.length_map, List.length_zipIdx]
    rw [owners_concat, Dict.entries_set_of_not_mem _ hfresh, ih h.1, hlen, List.zipIdx_append,
      List.map_append, Nat.zero_add]
    rfl

/-- With distinct names every entry has a section of its own. -/
theorem share_of_nodup {entries : List PlanEntry} (h : (entries.map PlanEntry.name).Nodup) :
    share entries = entries.zipIdx.map fun p => { p.1 with later := entries.length - (p.2 + 1) } := by
  have hlen : (owners entries).length = entries.length := by
    rw [Dict.length, owners_of_nodup h, List.length_map, List.length_zipIdx]
  conv_lhs => rw [share, ← List.zipIdx_map_fst 0 entries, List.map_map]
  refine List.map_congr_left fun p hp => ?_
  have hget : (owners entries).get p.1.name = some (p.1.template, p.2) := by
    rw [Dict.get_eq_some_iff, owners_of_nodup h]
    exact List.mem_map.mpr ⟨p, hp, rfl⟩
  rw [List.zipIdx_map_fst, Function.comp_apply]
  unfold owned
  rw [hget, hlen]

/-- The entry of a content has its name. -/
theorem name_of_ofContent {h : Host} {templates : Dict String SectionTemplate}
    {content : ContentSection} {e : PlanEntry} (he : ofContent h templates content = .ok e) :
    content.name = some e.name := by
  unfold ofContent at he
  cases hname : content.name with
  | none =>
    rw [hname] at he
    cases he
  | some name =>
    rw [hname] at he
    dsimp only at he
    split at he
    · cases he
    · split at he
      · cases he
      · obtain rfl := Except.ok.inj he
        rfl

end PlanEntry

namespace PlanStep

/-- With distinct names every step is the last of its name. -/
theorem last_of_nodup {steps : List PlanStep}
    (h : (steps.map fun p => p.entry.name).Nodup) :
    (last steps).entries = steps.map fun p => (p.entry.name, p) := by
  induction steps using List.reverseRecOn with
  | nil => rfl
  | append_singleton steps p ih =>
    rw [List.map_append, List.nodup_append] at h
    have hfresh : p.entry.name ∉ (last steps).keys := by
      rw [Dict.keys, ih h.1, List.map_map]
      exact fun hmem => h.2.2 _ hmem _ List.mem_cons_self rfl
    rw [last_concat, Dict.entries_set_of_not_mem _ hfresh, ih h.1, List.map_append]
    rfl

end PlanStep

namespace Flash

variable {h : Host} {f : Flash}

theorem nodup_entries {entries : List PlanEntry} (hnames : f.DistinctNames)
    (hentries : f.contentSections.mapM (PlanEntry.ofContent h f.sectionsTemplates) =
      .ok entries) : (entries.map PlanEntry.name).Nodup := by
  have hsome : f.contentSections.map ContentSection.name =
      (entries.map PlanEntry.name).map some := by
    have hrel := mapM_eq_ok_iff.mp hentries
    generalize f.contentSections = content at hrel
    clear hentries
    induction hrel with
    | nil => rfl
    | cons hone _ ih =>
      rw [List.map_cons, List.map_cons, List.map_cons, ih, PlanEntry.name_of_ofContent hone]
  have hnodup : (f.contentSections.map ContentSection.name).Nodup := hnames
  rw [hsome] at hnodup
  exact hnodup.of_map some

/-- With distinct names every step is the last of its name. -/
theorem entries_last_of_distinct {steps : List PlanStep} (hnames : f.DistinctNames)
    (hplan : f.planSteps h true = .ok steps) :
    (PlanStep.last steps).entries = steps.map fun p => (p.entry.name, p) := by
  obtain ⟨entries, changed, hentries, -⟩ := planSteps_iff.mp hplan
  refine PlanStep.last_of_nodup ?_
  rw [map_name_planSteps hentries hplan]
  exact nodup_entries hnames hentries

end Flash

end SoftHier.Gapy
