/-
  Gapy/LayoutPrefix.lean --- what lies behind moves nothing.

  A section is planned from the entries in front of it, its own and the number of
  entries behind it, which a partition table wants to know.  So other entries at
  the end of a content leave the sections before them where they are.
-/
import SoftHier.Gapy.PlannedFlash

set_option autoImplicit false

namespace SoftHier.Gapy

open SoftHier.Foundation Program

/-! ## The entries -/

namespace PlanEntry

variable {name : String} {changed : PlanEntry} {entries entries' xs ys : List PlanEntry}

theorem length_replace (name : String) (changed : PlanEntry) (entries : List PlanEntry) :
    (replace name changed entries).length = entries.length := by
  induction entries with
  | nil => rfl
  | cons e entries ih =>
    rw [replace]
    split
    · rfl
    · rw [List.length_cons, List.length_cons, ih]

/-- An entry in front is replaced. -/
theorem replace_append_of_find? {e : PlanEntry} (h : (xs.find? fun e => e.name = name) = some e) :
    replace name changed (xs ++ ys) = replace name changed xs ++ ys := by
  induction xs with
  | nil => cases h
  | cons x xs ih =>
    rw [List.cons_append, replace, replace]
    by_cases heq : x.name = name
    · rw [if_pos heq, if_pos heq, List.cons_append]
    · rw [List.find?_cons_of_neg (by simpa using heq)] at h
      rw [if_neg heq, if_neg heq, ih h, List.cons_append]

/-- An entry behind is replaced. -/
theorem replace_append_of_find?_none (h : (xs.find? fun e => e.name = name) = none) :
    replace name changed (xs ++ ys) = xs ++ replace name changed ys := by
  induction xs with
  | nil => rfl
  | cons x xs ih =>
    rw [List.find?_cons] at h
    by_cases heq : x.name = name
    · simp [heq] at h
    · simp only [heq, decide_false] at h
      rw [List.cons_append, replace, if_neg heq, ih h, List.cons_append]

theorem length_follow (done entries : List PlanEntry) :
    (follow done entries).length = entries.length := by
  rw [← List.length_map (f := PlanEntry.name), map_name_follow, List.length_map]

theorem follow_append (xs ys : List PlanEntry) :
    ∀ done, follow done (xs ++ ys) = follow done xs ++ follow (done ++ follow done xs) ys := by
  induction xs with
  | nil => exact fun done => by rw [follow, List.append_nil, List.nil_append, List.nil_append]
  | cons x xs ih =>
    intro done
    rw [List.cons_append, follow, follow, ih, List.cons_append, List.append_assoc,
      List.singleton_append]

/-- Two lists of entries that are as long and begin alike. -/
def Alike (n : Nat) (entries entries' : List PlanEntry) : Prop :=
  ∃ xs ys zs, xs.length = n ∧ ys.length = zs.length ∧ entries = xs ++ ys ∧ entries' = xs ++ zs

/-- With distinct names an entry knows the number of entries alone. -/
theorem Alike.share {n : Nat} (h : Alike n entries entries')
    (hnodup : (entries.map PlanEntry.name).Nodup) (hnodup' : (entries'.map PlanEntry.name).Nodup) :
    Alike n (share entries) (share entries') := by
  obtain ⟨xs, ys, zs, hn, hlen, rfl, rfl⟩ := h
  have hcount : (xs ++ ys).length = (xs ++ zs).length := by
    rw [List.length_append, List.length_append, hlen]
  rw [share_of_nodup hnodup, share_of_nodup hnodup', hcount, List.zipIdx_append, List.zipIdx_append,
    List.map_append, List.map_append]
  refine ⟨_, _, _, ?_, ?_, rfl, rfl⟩
  · rw [List.length_map, List.length_zipIdx, hn]
  · rw [List.length_map, List.length_map, List.length_zipIdx, List.length_zipIdx, hlen]

/-- What the command line does to the entries in front depends on nothing behind them. -/
theorem Alike.overwrite {n : Nat} (h : Alike n entries entries')
    {p : String × List (String × String)} {changed changed' : List PlanEntry}
    (hone : overwrite entries p = .ok changed) (hother : overwrite entries' p = .ok changed') :
    Alike n changed changed' := by
  obtain ⟨xs, ys, zs, hn, hlen, rfl, rfl⟩ := h
  obtain ⟨e, c, hfind, hc, rfl⟩ := overwrite_iff.mp hone
  obtain ⟨e', c', hfind', hc', rfl⟩ := overwrite_iff.mp hother
  rw [List.find?_append] at hfind hfind'
  cases hxs : xs.find? fun e => e.name = p.1 with
  | some found =>
    rw [hxs] at hfind hfind'
    cases hfind
    cases hfind'
    obtain rfl := Except.ok.inj (hc.symm.trans hc')
    rw [replace_append_of_find? hxs, replace_append_of_find? hxs]
    exact ⟨_, ys, zs, (length_replace p.1 c xs).trans hn, hlen, rfl, rfl⟩
  | none =>
    rw [replace_append_of_find?_none hxs, replace_append_of_find?_none hxs]
    exact ⟨xs, _, _, hn, by rw [length_replace, length_replace, hlen], rfl, rfl⟩

/-- The same for a whole command line. -/
theorem Alike.overwriteAll {n : Nat} {properties : List (String × List (String × String))} :
    ∀ {entries entries' changed changed' : List PlanEntry}, Alike n entries entries' →
      properties.foldlM PlanEntry.overwrite entries = .ok changed →
      properties.foldlM PlanEntry.overwrite entries' = .ok changed' →
      Alike n changed changed' := by
  induction properties with
  | nil =>
    intro entries entries' changed changed' h hone hother
    cases hone
    cases hother
    exact h
  | cons p properties ih =>
    intro entries entries' changed changed' h hone hother
    rw [List.foldlM_cons] at hone hother
    obtain ⟨next, hnext, hone⟩ := bind_eq_ok_iff.mp hone
    obtain ⟨next', hnext', hother⟩ := bind_eq_ok_iff.mp hother
    exact ih (h.overwrite hnext hnext') hone hother

/-- An entry follows entries in front of it only. -/
theorem Alike.follow {n : Nat} (h : Alike n entries entries') (done : List PlanEntry) :
    Alike n (follow done entries) (follow done entries') := by
  obtain ⟨xs, ys, zs, hn, hlen, rfl, rfl⟩ := h
  rw [follow_append, follow_append]
  exact ⟨_, _, _, (length_follow done xs).trans hn,
    by rw [length_follow, length_follow, hlen], rfl, rfl⟩

end PlanEntry

/-! ## The plan -/

namespace Flash

variable {host : Host} {f : Flash}

/-- The flash with another content. -/
def withContent (f : Flash) (entries : List ContentSection) : Flash :=
  { f with contentDict := some { sections := some entries } }

theorem planFrom_withContent (content : List ContentSection) (entries : List PlanEntry) :
    ∀ offset, (f.withContent content).planFrom host true offset entries =
      f.planFrom host true offset entries := by
  induction entries with
  | nil => exact fun _ => rfl
  | cons e entries ih =>
    intro offset
    rw [planFrom, planFrom]
    simp only [ih]
    rfl

/-- The steps of the entries in front. -/
theorem planFrom_take {n : Nat} :
    ∀ {entries entries' : List PlanEntry} {offset : Int} {steps steps' : List PlanStep},
      PlanEntry.Alike n entries entries' → f.planFrom host true offset entries = .ok steps →
      f.planFrom host true offset entries' = .ok steps' → steps.take n = steps'.take n := by
  induction n with
  | zero => exact fun _ _ _ => rfl
  | succ n ih =>
    rintro entries entries' offset steps steps' ⟨_ | ⟨e, xs⟩, ys, zs, hn, hlen, rfl, rfl⟩ hplan hplan'
    · exact absurd hn (Nat.succ_ne_zero n).symm
    rw [List.cons_append] at hplan hplan'
    obtain ⟨allocated, size, rest, hdemand, hsize, -, hrest, rfl⟩ :=
      planFrom_cons_checked_iff.mp hplan
    obtain ⟨allocated', size', rest', hdemand', hsize', -, hrest', rfl⟩ :=
      planFrom_cons_checked_iff.mp hplan'
    obtain rfl := Except.ok.inj (hdemand.symm.trans hdemand')
    obtain rfl := Except.ok.inj (hsize.symm.trans hsize')
    rw [List.take_succ_cons, List.take_succ_cons,
      ih ⟨xs, ys, zs, Nat.succ.inj hn, hlen, rfl, rfl⟩ hrest hrest']

/-- Where a section lies. -/
def place (s : Section) : String × SectionTemplate × Int × Except PyError Int :=
  (s.name, s.kind, s.offset, s.getSize)

theorem map_place {ss : List Section} {plan : List PlannedSection}
    (h : List.Forall₂ Section.At ss plan) :
    ss.map place = plan.map fun p => (p.name, p.template, p.start, .ok p.size) := by
  induction h with
  | nil => rfl
  | cons hat _ ih =>
    rw [List.map_cons, List.map_cons, ih, place, hat.name, hat.kind, hat.start, hat.size]

/-- The entries of two contents that begin alike. -/
theorem alike_ofContent {before after after' : List ContentSection}
    (hlen : after.length = after'.length) {entries entries' : List PlanEntry}
    (h : (before ++ after).mapM (PlanEntry.ofContent host f.sectionsTemplates) = .ok entries)
    (h' : (before ++ after').mapM (PlanEntry.ofContent host f.sectionsTemplates) = .ok entries') :
    PlanEntry.Alike before.length entries entries' := by
  rw [List.mapM_append] at h h'
  obtain ⟨xs, hxs, h⟩ := bind_eq_ok_iff.mp h
  obtain ⟨ys, hys, h⟩ := bind_eq_ok_iff.mp h
  obtain ⟨xs', hxs', h'⟩ := bind_eq_ok_iff.mp h'
  obtain ⟨zs, hzs, h'⟩ := bind_eq_ok_iff.mp h'
  obtain rfl := Except.ok.inj (hxs.symm.trans hxs')
  refine ⟨xs, ys, zs, (mapM_eq_ok_iff.mp hxs).length_eq.symm, ?_, (Except.ok.inj h).symm,
    (Except.ok.inj h').symm⟩
  rw [← (mapM_eq_ok_iff.mp hys).length_eq, hlen, (mapM_eq_ok_iff.mp hzs).length_eq]

/-- With distinct names the sections of a parse are those of the steps. -/
theorem values_of_distinct {f' : Flash} (hfresh : f.Fresh) (hnames : f.DistinctNames)
    (h : Returns (parseContent host true) f () f') : ∃ entries changed steps,
      f.contentSections.mapM (PlanEntry.ofContent host f.sectionsTemplates) = .ok entries ∧
      (entries.map PlanEntry.name).Nodup ∧
      f.properties.foldlM PlanEntry.overwrite (PlanEntry.share entries) = .ok changed ∧
      f.planFrom host true 0 (PlanEntry.follow [] changed) = .ok steps ∧
      List.Forall₂ Section.At f'.sections.values (steps.map PlanStep.planned) := by
  obtain ⟨steps, hplan, hfollows⟩ := (refines_parseContent hfresh true).of_returns h
  obtain ⟨entries, changed, hentries, hchanged, hsteps, -⟩ := planSteps_iff.mp hplan
  exact ⟨entries, changed, steps, hentries, nodup_entries hnames hentries, hchanged, hsteps,
    hfollows.at_steps hnames hplan⟩

/-- Two contents that begin with the same entries and are as long: after their parses,
with one command line, the sections of these entries lie at the same places. -/
theorem parseContent_before {f' g' : Flash} {before after after' : List ContentSection}
    (hfresh : f.Fresh) (hlen : after.length = after'.length)
    (hnames : (f.withContent (before ++ after)).DistinctNames)
    (hnames' : (f.withContent (before ++ after')).DistinctNames)
    (h : Returns (parseContent host true) (f.withContent (before ++ after)) () f')
    (h' : Returns (parseContent host true) (f.withContent (before ++ after')) () g') :
    (f'.sections.values.take before.length).map place =
      (g'.sections.values.take before.length).map place := by
  have hfreshOf : ∀ content, (f.withContent content).Fresh :=
    fun _ => ⟨hfresh.sections, hfresh.contentParsed, rfl⟩
  obtain ⟨entries, changed, steps, hentries, hnodup, hchanged, hsteps, hat⟩ :=
    values_of_distinct (hfreshOf _) hnames h
  obtain ⟨entries', changed', steps', hentries', hnodup', hchanged', hsteps', hat'⟩ :=
    values_of_distinct (hfreshOf _) hnames' h'
  have halike := (((alike_ofContent hlen hentries hentries').share hnodup hnodup').overwriteAll
    hchanged hchanged').follow []
  rw [planFrom_withContent] at hsteps hsteps'
  have htake := planFrom_take halike hsteps hsteps'
  rw [List.map_take, List.map_take, map_place hat, map_place hat', ← List.map_take,
    ← List.map_take, ← List.map_take, ← List.map_take, htake]

/-- Another section behind the first one. -/
theorem parseContent_before_raw : ∃ f' g',
    Returns (parseContent Host.noFiles true)
      ((Flash.ofContent 64 Dict.empty []).withContent ([rawEntry "a" 8] ++ [rawEntry "b" 8]))
      () f' ∧
    Returns (parseContent Host.noFiles true)
      ((Flash.ofContent 64 Dict.empty []).withContent ([rawEntry "a" 8] ++ [rawEntry "c" (-1)]))
      () g' ∧
    (f'.sections.values.take 1).map place = (g'.sections.values.take 1).map place := by
  have hplan : ((Flash.ofContent 64 Dict.empty []).withContent
      ([rawEntry "a" 8] ++ [rawEntry "b" 8])).plan Host.noFiles =
        .ok [⟨"a", .raw, 0, 8⟩, ⟨"b", .raw, 8, 8⟩] := by rfl
  have hplan' : ((Flash.ofContent 64 Dict.empty []).withContent
      ([rawEntry "a" 8] ++ [rawEntry "c" (-1)])).plan Host.noFiles =
        .ok [⟨"a", .raw, 0, 8⟩, ⟨"c", .raw, 8, 56⟩] := by rfl
  have hruns := @refines_plan Host.noFiles ((Flash.ofContent 64 Dict.empty []).withContent
    ([rawEntry "a" 8] ++ [rawEntry "b" 8])) ⟨rfl, rfl, rfl⟩
  have hruns' := @refines_plan Host.noFiles ((Flash.ofContent 64 Dict.empty []).withContent
    ([rawEntry "a" 8] ++ [rawEntry "c" (-1)])) ⟨rfl, rfl, rfl⟩
  rw [hplan] at hruns
  rw [hplan'] at hruns'
  obtain ⟨_, f', h, -⟩ := hruns.exists_returns
  obtain ⟨_, g', h', -⟩ := hruns'.exists_returns
  have hplaces := @parseContent_before Host.noFiles (Flash.ofContent 64 Dict.empty []) f' g'
    [rawEntry "a" 8] [rawEntry "b" 8] [rawEntry "c" (-1)] ⟨rfl, rfl, rfl⟩ rfl (by decide)
    (by decide) h h'
  exact ⟨f', g', h, h', hplaces⟩

end Flash

end SoftHier.Gapy
