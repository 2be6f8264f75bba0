/-
  Gapy/TargetProperties.lean --- target properties given with the target's name.

  The executable appends the properties inlined in `--target` to the list of one
  parse, and the target parses the command line again.  When no
  `--target-property` occurs both parses see the default list itself and the
  inlined properties are there; otherwise each parse has a copy of its own.
-/
import SoftHier.Gapy.Target

set_option autoImplicit false

namespace SoftHier.Gapy

open SoftHier.Foundation Program

/-! ## What is given, and what is expected -/

/-- A name or a value that can be inlined. -/
structure PlainText (text : String) : Prop where
  colon : ':' ∉ text.toList
  comma : ',' ∉ text.toList
  equals : '=' ∉ text.toList

/-- `name=value`. -/
def assignmentText (a : String × String) : String := a.1 ++ "=" ++ a.2

/-- `name=value,name=value`. -/
def inlineText (inline : List (String × String)) : String :=
  ",".intercalate (inline.map assignmentText)

/-- What `--target` is given. -/
def targetText (name : String) (inline : List (String × String)) : String :=
  name ++ ":" ++ inlineText inline

/-- The assignments of one `--target-property`. -/
def assignmentsOf (option : String) : List (String × String) :=
  (splitText ',' option).filterMap (rsplitText '=')

/-- All assignments of a command line.  The inlined ones are appended to the options,
so they come last. -/
def allAssignments (inline : List (String × String)) (options : List String) :
    List (String × String) :=
  options.flatMap assignmentsOf ++ inline

/-- The value a property is to have: the cast of its last assignment, an inlined one
if there is one, or what was declared. -/
def Property.expectedValue (assignments : List (String × String)) (p : Property) :
    Except PyError PyValue :=
  match Dict.lookup p.fullName assignments.reverse with
  | none => .ok p.value
  | some arg => p.castArg arg

namespace Target

/-- The target declares some properties. -/
def declareAll (ps : List Property) : TargetM Unit := forEach declareTargetProperty ps

/-- A target that declares `ps` takes the inlined properties and the options. -/
structure TakesInline (parser : ArgumentParser) (inline : List (String × String))
    (options : List String) (ps : List Property) : Prop where
  values : ∀ t, Returns (declareAll ps) (new parser) () t → ∀ p ∈ ps, ∃ v,
    p.expectedValue (allAssignments inline options) = .ok v ∧
      Returns (getTargetProperty p.fullName) t v t
  /-- Only a value that is not allowed or cannot be cast stops a declaration. -/
  rejected : ∀ e t, Raises (declareAll ps) (new parser) e t →
    ∃ p ∈ ps, p.expectedValue (allAssignments inline options) = .error e
  checked : ∀ t, Returns (declareAll ps) (new parser) () t →
    ((∃ e t', Raises checkArgs t e t') ↔
      ∃ a ∈ allAssignments inline options, a.1 ∉ ps.map Property.fullName)
  /-- The target reads all options and the inlined properties. -/
  nothingDropped : let t := finalState (declareAll ps) (new parser)
    t.targetPropertiesParsed = true ∧
      t.parser.items t.parser.parseKnownArgs = options ++ [inlineText inline]

/-! ## Texts -/

theorem rsplitText_assignmentText {a : String × String} (h : PlainText a.2) :
    rsplitText '=' (assignmentText a) = some a := rsplitText_append h.equals

theorem splitText_inlineText {inline : List (String × String)} (hne : inline ≠ [])
    (h : ∀ a ∈ inline, PlainText a.1 ∧ PlainText a.2) :
    splitText ',' (inlineText inline) = inline.map assignmentText := by
  refine @splitText_intercalate ',' _ (by simpa using hne) ?_
  intro text htext
  obtain ⟨a, ha, rfl⟩ := List.mem_map.mp htext
  unfold assignmentText
  have h₁ := (h a ha).1.comma
  have h₂ := (h a ha).2.comma
  simp [h₁, h₂]

theorem colon_not_mem_inlineText {inline : List (String × String)}
    (h : ∀ a ∈ inline, PlainText a.1 ∧ PlainText a.2) : ':' ∉ (inlineText inline).toList := by
  refine @not_mem_intercalate ':' ',' _ (by decide) ?_
  intro text htext
  obtain ⟨a, ha, rfl⟩ := List.mem_map.mp htext
  unfold assignmentText
  have h₁ := (h a ha).1.colon
  have h₂ := (h a ha).2.colon
  simp [h₁, h₂]

/-- The executable separates the name of the target from what is inlined. -/
theorem ofCommandLine_targetText {name : String} (hname : ':' ∉ name.toList)
    {inline : List (String × String)} (h : ∀ a ∈ inline, PlainText a.1 ∧ PlainText a.2)
    (parser : ArgumentParser) :
    ofCommandLine (targetText name inline) parser =
      .ok (name, parser.append (inlineText inline) parser.parseKnownArgs) := by
  have htext : targetText name inline =
      (String.singleton ':').intercalate [name, inlineText inline] := by
    rw [String.intercalate_cons_cons, String.intercalate_singleton]
    rfl
  have hsplit : splitText ':' (targetText name inline) = [name, inlineText inline] := by
    rw [htext]
    refine splitText_intercalate (by simp) ?_
    intro p hp
    rcases List.mem_cons.mp hp with rfl | hp
    · exact hname
    · rw [List.mem_singleton.mp hp]
      exact colon_not_mem_inlineText h
  have hmem : ':' ∈ (targetText name inline).toList := by
    unfold targetText
    simp
  unfold ofCommandLine
  rw [if_pos hmem, hsplit]

/-! ## Reading the assignments -/

/-- Assign one after the other. -/
def assignAll (d : Dict String String) (assignments : List (String × String)) :
    Dict String String :=
  assignments.foldl (fun d a => d.set a.1 a.2) d

theorem get_assignAll (d : Dict String String) (assignments : List (String × String))
    (name : String) :
    (assignAll d assignments).get name =
      (Dict.lookup name assignments.reverse).or (d.get name) := by
  induction assignments using List.reverseRecOn with
  | nil => rfl
  | append_singleton as a ih =>
    unfold assignAll at ih ⊢
    rw [List.foldl_append, List.reverse_append]
    change ((as.foldl (fun d a => d.set a.1 a.2) d).set a.1 a.2).get name = _
    rw [Dict.get_set, List.reverse_singleton, List.singleton_append]
    obtain ⟨n, v⟩ := a
    rw [Dict.lookup]
    by_cases hn : n = name
    · rw [if_pos hn, if_pos hn]
      rfl
    · rw [if_neg hn, if_neg hn, ih]

theorem returns_assignProperties {assignments : List (String × String)}
    (h : ∀ a ∈ assignments, PlainText a.2) (t : Target) :
    Returns (forEach assignProperty (assignments.map assignmentText)) t ()
      { t with argsProperties := assignAll t.argsProperties assignments } := by
  induction assignments generalizing t with
  | nil => exact returns_forEach_nil.mpr rfl
  | cons a assignments ih =>
    rw [List.map_cons, returns_forEach_cons]
    refine ⟨{ t with argsProperties := t.argsProperties.set a.1 a.2 }, ?_,
      ih (fun b hb => h b (List.mem_cons_of_mem a hb)) _⟩
    unfold assignProperty
    rw [rsplitText_assignmentText (h a List.mem_cons_self)]
    exact returns_modify.mpr rfl

/-- A target that has parsed the command line. -/
def parsed (parser : ArgumentParser) (assignments : List (String × String)) : Target :=
  { new parser with
    argsProperties := assignAll Dict.empty assignments
    targetPropertiesParsed := true }

/-- The first parse finds the inlined properties when they are all there is. -/
theorem returns_parseTargetProperties {inline : List (String × String)} (hne : inline ≠ [])
    (h : ∀ a ∈ inline, PlainText a.1 ∧ PlainText a.2) :
    Returns parseTargetProperties (new ⟨[], [inlineText inline]⟩) ()
      (parsed ⟨[], [inlineText inline]⟩ inline) := by
  unfold parseTargetProperties
  rw [returns_get_bind]
  change Returns (set _ >>= fun _ => forEach _ [inlineText inline]) _ () _
  refine Returns.bind (a := ⟨⟩) (returns_set.mpr rfl) ?_
  rw [returns_forEach_singleton, splitText_inlineText hne h]
  exact returns_assignProperties (fun a ha => (h a ha).2) _

/-! ## Declaring properties -/

theorem returns_parse_again {t : Target} (h : t.targetPropertiesParsed = true) :
    Returns parseTargetProperties t () t := by
  unfold parseTargetProperties
  rw [returns_get_bind, if_pos h]
  exact returns_pure.mpr ⟨rfl, rfl⟩

/-- The value the assignments a target has read give a property. -/
def valueFor (t : Target) (p : Property) : Except PyError PyValue :=
  match t.argsProperties.get p.fullName with
  | none => .ok p.value
  | some arg => p.castArg arg

/-- The target after a property got its value. -/
def declared (t : Target) (p : Property) (v : PyValue) : Target :=
  { t with targetProperties := t.targetProperties.set p.fullName { p with value := v } }

/-- A declaration on a target that has parsed the command line. -/
theorem run_declareTargetProperty {t : Target} (hparsed : t.targetPropertiesParsed = true)
    {p : Property} (hnew : t.targetProperties.get p.fullName = none) :
    declareTargetProperty p t =
      match t.valueFor p with
      | .ok v => .ok () (t.declared p v)
      | .error e => .error e (t.declared p p.value) := by
  unfold declareTargetProperty
  rw [(returns_parse_again hparsed).run_bind]
  change (if (t.targetProperties.get p.fullName).isSome = true then _ else _ :
    TargetM Unit) t = _
  rw [hnew, if_neg (by simp)]
  unfold valueFor
  cases harg : t.argsProperties.get p.fullName with
  | none => rfl
  | some arg =>
    change (reading (fun _ => p.castArg arg) >>= _) _ = match p.castArg arg with
      | .ok v => EStateM.Result.ok () (t.declared p v)
      | .error e => EStateM.Result.error e (t.declared p p.value)
    cases hcast : p.castArg arg with
    | error e => rfl
    | ok v =>
      change EStateM.Result.ok () { t with
        targetProperties :=
          (t.targetProperties.set p.fullName p).set p.fullName { p with value := v } } = _
      rw [Dict.set_set]
      rfl

theorem returns_declareTargetProperty {t t' : Target} (hparsed : t.targetPropertiesParsed = true)
    {p : Property} (hnew : t.targetProperties.get p.fullName = none) :
    Returns (declareTargetProperty p) t () t' ↔
      ∃ v, t.valueFor p = .ok v ∧ t' = t.declared p v := by
  unfold Returns
  rw [run_declareTargetProperty hparsed hnew]
  cases t.valueFor p with
  | ok v =>
    constructor
    · intro h
      cases h
      exact ⟨v, rfl, rfl⟩
    · rintro ⟨w, hw, rfl⟩
      cases hw
      rfl
  | error e =>
    constructor
    · intro h
      cases h
    · rintro ⟨w, hw, _⟩
      cases hw

theorem raises_declareTargetProperty {t t' : Target} {e : PyError}
    (hparsed : t.targetPropertiesParsed = true) {p : Property}
    (hnew : t.targetProperties.get p.fullName = none)
    (h : Raises (declareTargetProperty p) t e t') : t.valueFor p = .error e := by
  unfold Raises at h
  rw [run_declareTargetProperty hparsed hnew] at h
  cases hv : t.valueFor p with
  | ok v =>
    rw [hv] at h
    cases h
  | error e' =>
    rw [hv] at h
    cases h
    rfl

/-- A declaration leaves the other names undeclared. -/
theorem get_declared_eq_none {t : Target} {p : Property} {ps : List Property}
    (hfresh : p.fullName ∉ ps.map Property.fullName)
    (hnew : ∀ q ∈ p :: ps, t.targetProperties.get q.fullName = none) (v : PyValue) :
    ∀ q ∈ ps, (t.declared p v).targetProperties.get q.fullName = none := by
  intro q hq
  have hne : p.fullName ≠ q.fullName := fun heq => hfresh (heq ▸ List.mem_map_of_mem hq)
  exact (Dict.get_set_of_ne _ hne).trans (hnew q (List.mem_cons_of_mem p hq))

/-- What declarations that returned leave. -/
structure Declared (t t' : Target) (ps : List Property) : Prop where
  value : ∀ p ∈ ps, ∃ v, t.valueFor p = .ok v ∧
    t'.targetProperties.get p.fullName = some { p with value := v }
  others : ∀ name, name ∉ ps.map Property.fullName →
    t'.targetProperties.get name = t.targetProperties.get name
  args : t'.argsProperties = t.argsProperties

/-- Whatever the order, every property gets the value for it. -/
theorem returns_declareAll {ps : List Property} (hnames : (ps.map Property.fullName).Nodup)
    {t t' : Target} (hparsed : t.targetPropertiesParsed = true)
    (hnew : ∀ p ∈ ps, t.targetProperties.get p.fullName = none)
    (h : Returns (declareAll ps) t () t') : Declared t t' ps := by
  induction ps generalizing t with
  | nil =>
    obtain rfl := returns_forEach_nil.mp h
    exact ⟨nofun, fun _ _ => rfl, rfl⟩
  | cons p ps ih =>
    obtain ⟨u, hp, hps⟩ := returns_forEach_cons.mp h
    obtain ⟨v, hv, rfl⟩ :=
      (returns_declareTargetProperty hparsed (hnew p List.mem_cons_self)).mp hp
    obtain ⟨hfresh, hnames⟩ := List.nodup_cons.mp hnames
    have hrest : Declared (t.declared p v) t' ps :=
      ih hnames (t := t.declared p v) hparsed (get_declared_eq_none hfresh hnew v) hps
    refine ⟨?_, ?_, hrest.args⟩
    · intro q hq
      rcases List.mem_cons.mp hq with rfl | hq
      · refine ⟨v, hv, ?_⟩
        rw [hrest.others _ hfresh]
        exact Dict.get_set_self _ _ _
      · exact hrest.value q hq
    · intro name hname
      rw [List.map_cons, List.mem_cons, not_or] at hname
      rw [hrest.others name hname.2]
      exact Dict.get_set_of_ne _ fun heq => hname.1 heq.symm

theorem raises_declareAll {ps : List Property} (hnames : (ps.map Property.fullName).Nodup)
    {t t' : Target} {e : PyError} (hparsed : t.targetPropertiesParsed = true)
    (hnew : ∀ p ∈ ps, t.targetProperties.get p.fullName = none)
    (h : Raises (declareAll ps) t e t') : ∃ p ∈ ps, t.valueFor p = .error e := by
  induction ps generalizing t with
  | nil => exact absurd h not_raises_forEach_nil
  | cons p ps ih =>
    have hp := hnew p List.mem_cons_self
    rcases raises_forEach_cons.mp h with hraise | ⟨u, hret, hrest⟩
    · exact ⟨p, List.mem_cons_self, raises_declareTargetProperty hparsed hp hraise⟩
    · obtain ⟨v, hv, rfl⟩ := (returns_declareTargetProperty hparsed hp).mp hret
      obtain ⟨hfresh, hnames⟩ := List.nodup_cons.mp hnames
      obtain ⟨q, hq, hv⟩ :=
        ih hnames (t := t.declared p v) hparsed (get_declared_eq_none hfresh hnew v) hrest
      exact ⟨q, List.mem_cons_of_mem p hq, hv⟩

/-- The first declaration parses the command line. -/
theorem run_declareAll {parser : ArgumentParser} {inline : List (String × String)}
    (hparse : Returns parseTargetProperties (new parser) () (parsed parser inline))
    {p : Property} {ps : List Property} :
    declareAll (p :: ps) (new parser) = declareAll (p :: ps) (parsed parser inline) := by
  have hfirst : declareTargetProperty p (new parser) =
      declareTargetProperty p (parsed parser inline) := by
    unfold declareTargetProperty
    rw [hparse.run_bind, (returns_parse_again (t := parsed parser inline) rfl).run_bind]
  exact run_bind_congr hfirst _

/-- The check names an assignment that belongs to no declared property. -/
theorem raises_checkArgs {t : Target} :
    (∃ e t', Raises checkArgs t e t') ↔
      ∃ name ∈ t.argsProperties.keys, t.targetProperties.get name = none := by
  unfold checkArgs
  simp only [raises_get_bind]
  induction t.argsProperties.keys with
  | nil =>
    constructor
    · rintro ⟨e, t', h⟩
      exact absurd h not_raises_forEach_nil
    · rintro ⟨name, hname, _⟩
      cases hname
  | cons name names ih =>
    simp only [raises_forEach_cons]
    cases hget : t.targetProperties.get name with
    | none => exact ⟨fun _ => ⟨name, List.mem_cons_self, hget⟩, fun _ => ⟨_, _, .inl rfl⟩⟩
    | some p =>
      constructor
      · rintro ⟨e, t', h | ⟨u, hu, h⟩⟩
        · exact absurd h not_raises_pure
        · obtain ⟨_, rfl⟩ := returns_pure.mp hu
          obtain ⟨other, hother, hnone⟩ := ih.mp ⟨e, t', h⟩
          exact ⟨other, List.mem_cons_of_mem name hother, hnone⟩
      · rintro ⟨other, hother, hnone⟩
        rcases List.mem_cons.mp hother with rfl | hother
        · rw [hget] at hnone
          cases hnone
        · obtain ⟨e, t', h⟩ := ih.mpr ⟨other, hother, hnone⟩
          exact ⟨e, t', .inr ⟨t, returns_pure.mpr ⟨rfl, rfl⟩, h⟩⟩

/-! ## The command line stays -/

/-- No run changes the parser or forgets that the command line was parsed. -/
structure KeepsCommandLine (t t' : Target) : Prop where
  parser : t'.parser = t.parser
  parsed : t.targetPropertiesParsed = true → t'.targetPropertiesParsed = true

theorem KeepsCommandLine.rfl (t : Target) : KeepsCommandLine t t := ⟨.refl _, id⟩

theorem KeepsCommandLine.trans ⦃t u v : Target⦄ (h : KeepsCommandLine t u)
    (h' : KeepsCommandLine u v) : KeepsCommandLine t v :=
  ⟨h'.parser.trans h.parser, fun ht => h'.parsed (h.parsed ht)⟩

theorem always_assignProperty (desc : String) : Always KeepsCommandLine (assignProperty desc) := by
  unfold assignProperty
  cases rsplitText '=' desc with
  | none => exact KeepsCommandLine.rfl
  | some a => exact fun t => ⟨rfl, id⟩

theorem always_parseTargetProperties : Always KeepsCommandLine parseTargetProperties := by
  intro t
  change KeepsCommandLine t (finalState (if t.targetPropertiesParsed = true then _ else _) t)
  by_cases hparsed : t.targetPropertiesParsed = true
  · rw [if_pos hparsed]
    exact .rfl t
  · rw [if_neg hparsed]
    have hset : KeepsCommandLine t { t with targetPropertiesParsed := true } :=
      ⟨rfl, fun _ => rfl⟩
    refine hset.trans (always_forEach .rfl .trans (fun list => ?_) _ _)
    exact always_forEach .rfl .trans always_assignProperty _

theorem always_declareTargetProperty (p : Property) :
    Always KeepsCommandLine (declareTargetProperty p) := by
  unfold declareTargetProperty
  refine always_bind .trans always_parseTargetProperties fun _ => ?_
  refine always_get_bind fun t => ?_
  by_cases hdeclared : (t.targetProperties.get p.fullName).isSome = true
  · rw [if_pos hdeclared]
    exact KeepsCommandLine.rfl
  · rw [if_neg hdeclared]
    refine always_bind .trans (always_modify fun t => ⟨rfl, id⟩) fun _ => ?_
    cases t.argsProperties.get p.fullName with
    | none => exact KeepsCommandLine.rfl
    | some arg =>
      refine always_bind .trans ((readOnly_reading _).always .rfl) fun v => ?_
      exact always_modify fun t => ⟨rfl, id⟩

theorem always_declareAll (ps : List Property) : Always KeepsCommandLine (declareAll ps) :=
  always_forEach .rfl .trans always_declareTargetProperty ps

/-! ## When the inlined properties are taken -/

theorem valueFor_parsed (parser : ArgumentParser) (inline : List (String × String))
    (p : Property) :
    (parsed parser inline).valueFor p = p.expectedValue (allAssignments inline []) := by
  have hget : (parsed parser inline).argsProperties.get p.fullName =
      Dict.lookup p.fullName (allAssignments inline []).reverse := by
    change (assignAll Dict.empty inline).get p.fullName = _
    unfold allAssignments
    rw [get_assignAll, Dict.get_empty, Option.or_none, List.flatMap_nil, List.nil_append]
  unfold valueFor Property.expectedValue
  rw [hget]

theorem mem_keys_assignAll {assignments : List (String × String)} {name : String} :
    name ∈ (assignAll Dict.empty assignments).keys ↔ ∃ a ∈ assignments, a.1 = name := by
  rw [← not_iff_not, ← Dict.get_eq_none_iff, get_assignAll, Dict.get_empty, Option.or_none,
    Dict.lookup_eq_none_iff, List.map_reverse, List.mem_reverse, List.mem_map]

/-- A target that found the inlined properties takes them. -/
theorem takesInline_of_parse {parser : ArgumentParser} {inline : List (String × String)}
    (hparse : Returns parseTargetProperties (new parser) () (parsed parser inline))
    (hitems : parser.items parser.parseKnownArgs = [inlineText inline]) {ps : List Property}
    (hnames : (ps.map Property.fullName).Nodup) (hne : ps ≠ []) :
    TakesInline parser inline [] ps := by
  obtain ⟨p, ps, rfl⟩ := List.exists_cons_of_ne_nil hne
  have hnew : ∀ q ∈ p :: ps,
      (parsed parser inline).targetProperties.get q.fullName = none := fun _ _ => rfl
  have hdeclared : ∀ t, Returns (declareAll (p :: ps)) (new parser) () t →
      Declared (parsed parser inline) t (p :: ps) := by
    intro t h
    unfold Returns at h
    rw [run_declareAll hparse] at h
    exact returns_declareAll hnames rfl hnew h
  refine ⟨?_, ?_, ?_, ?_⟩
  · intro t h q hq
    obtain ⟨v, hv, hget⟩ := (hdeclared t h).value q hq
    refine ⟨v, (valueFor_parsed parser inline q).symm.trans hv, ?_⟩
    unfold getTargetProperty
    rw [returns_reading, hget]
    exact ⟨rfl, rfl⟩
  · intro e t h
    unfold Raises at h
    rw [run_declareAll hparse] at h
    obtain ⟨q, hq, hv⟩ := raises_declareAll hnames rfl hnew h
    exact ⟨q, hq, (valueFor_parsed parser inline q).symm.trans hv⟩
  · intro t h
    have ht := hdeclared t h
    have hundeclared : ∀ name, t.targetProperties.get name = none ↔
        name ∉ (p :: ps).map Property.fullName := by
      intro name
      constructor
      · intro hnone hmem
        obtain ⟨q, hq, rfl⟩ := List.mem_map.mp hmem
        obtain ⟨v, _, hget⟩ := ht.value q hq
        rw [hnone] at hget
        cases hget
      · exact ht.others name
    have hkeys : t.argsProperties = assignAll Dict.empty inline := ht.args
    rw [raises_checkArgs, hkeys]
    unfold allAssignments
    rw [List.flatMap_nil, List.nil_append]
    constructor
    · rintro ⟨name, hname, hnone⟩
      obtain ⟨a, ha, rfl⟩ := mem_keys_assignAll.mp hname
      exact ⟨a, ha, (hundeclared a.1).mp hnone⟩
    · rintro ⟨a, ha, hfresh⟩
      exact ⟨a.1, mem_keys_assignAll.mpr ⟨a, ha, rfl⟩, (hundeclared a.1).mpr hfresh⟩
  · have hkeep := always_declareAll (p :: ps) (parsed parser inline)
    unfold Program.finalState at hkeep ⊢
    rw [run_declareAll hparse]
    refine ⟨hkeep.parsed rfl, ?_⟩
    rw [hkeep.parser]
    exact hitems

/-- The inlined properties are taken when no `--target-property` occurs and some
property is declared, and never else. -/
theorem takesInline_iff {name : String} (hname : ':' ∉ name.toList)
    {inline : List (String × String)} (hne : inline ≠ [])
    (hplain : ∀ a ∈ inline, PlainText a.1 ∧ PlainText a.2) (options : List String)
    {ps : List Property} (hnames : (ps.map Property.fullName).Nodup) :
    (∃ parser, ofCommandLine (targetText name inline) ⟨options, []⟩ = .ok (name, parser) ∧
        TakesInline parser inline options ps) ↔
      options = [] ∧ ps ≠ [] := by
  rw [ofCommandLine_targetText hname hplain]
  constructor
  · rintro ⟨parser, hparser, htakes⟩
    cases hparser
    obtain ⟨hparsed, hitems⟩ := htakes.nothingDropped
    have hkeep := always_declareAll ps (new (ArgumentParser.append ⟨options, []⟩
      (inlineText inline) (ArgumentParser.parseKnownArgs ⟨options, []⟩)))
    rw [hkeep.parser] at hitems
    constructor
    · by_contra hoptions
      have hdropped : options = options ++ [inlineText inline] := by
        have hcopy : ArgumentParser.parseKnownArgs ⟨options, []⟩ = .copy options :=
          if_neg hoptions
        rw [hcopy] at hitems
        change ArgumentParser.items ⟨options, []⟩ (ArgumentParser.parseKnownArgs ⟨options, []⟩) =
          options ++ [inlineText inline] at hitems
        rw [hcopy] at hitems
        exact hitems
      have hlength := congrArg List.length hdropped
      rw [List.length_append, List.length_singleton] at hlength
      omega
    · rintro rfl
      cases hparsed
  · rintro ⟨rfl, hps⟩
    exact ⟨⟨[], [inlineText inline]⟩, rfl,
      takesInline_of_parse (returns_parseTargetProperties hne hplain) rfl hnames hps⟩

/-- A frequency and a flag. -/
def exampleProperties : List Property :=
  [⟨"freq", none, .int 0, none, some .int⟩, ⟨"fast", none, .bool false, none, some .bool⟩]

theorem takesInline_example : ∃ parser,
    ofCommandLine (targetText "board" [("freq", "0x10"), ("fast", "yes")]) ⟨[], []⟩ =
        .ok ("board", parser) ∧
      TakesInline parser [("freq", "0x10"), ("fast", "yes")] [] exampleProperties := by
  refine (takesInline_iff (by decide) (by decide) ?_ [] (by decide)).mpr ⟨rfl, by decide⟩
  intro a ha
  rcases List.mem_cons.mp ha with rfl | ha
  · exact ⟨⟨by decide, by decide, by decide⟩, ⟨by decide, by decide, by decide⟩⟩
  · rw [List.mem_singleton.mp ha]
    exact ⟨⟨by decide, by decide, by decide⟩, ⟨by decide, by decide, by decide⟩⟩

/-- Another property on the command line, and the inlined frequency is gone. -/
theorem not_takesInline : ¬ ∀ (name : String) (inline : List (String × String))
    (options : List String) (ps : List Property), ':' ∉ name.toList → inline ≠ [] →
    (∀ a ∈ inline, PlainText a.1 ∧ PlainText a.2) → (ps.map Property.fullName).Nodup →
    ∃ parser, ofCommandLine (targetText name inline) ⟨options, []⟩ = .ok (name, parser) ∧
      TakesInline parser inline options ps := by
  intro h
  have hplain : ∀ a ∈ [("freq", "0x10")], PlainText a.1 ∧ PlainText a.2 := by
    intro a ha
    rw [List.mem_singleton.mp ha]
    exact ⟨⟨by decide, by decide, by decide⟩, ⟨by decide, by decide, by decide⟩⟩
  obtain ⟨parser, hparser, htakes⟩ :=
    h "board" [("freq", "0x10")] ["fast=yes"] exampleProperties (by decide) (by decide) hplain
      (by decide)
  rw [ofCommandLine_targetText (by decide) hplain] at hparser
  cases hparser
  have hrun := returns_of_returned? (p := declareAll exampleProperties)
    (s := new ⟨["fast=yes"], []⟩) (a := ()) (by decide +kernel)
  obtain ⟨v, hv, hget⟩ := htakes.values _ hrun _ List.mem_cons_self
  have hexpected : Property.expectedValue (allAssignments [("freq", "0x10")] ["fast=yes"])
      ⟨"freq", none, .int 0, none, some .int⟩ = .ok (.int 16) := by decide +kernel
  have hvalue : returned? (getTargetProperty "freq")
      (finalState (declareAll exampleProperties) (new ⟨["fast=yes"], []⟩)) =
        some (.int 0) := by decide +kernel
  have hsame := (hget.returned?).symm.trans hvalue
  rw [hexpected] at hv
  cases hv
  cases hsame

end Target

end SoftHier.Gapy
