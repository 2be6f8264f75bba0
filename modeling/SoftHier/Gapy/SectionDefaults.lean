/-
  Gapy/SectionDefaults.lean --- properties a content leaves out.

  A section class declares its properties with default values, and the base class
  keeps those the content does not give.  `set_content` of the classes with files
  reads some properties from the section and some from the content itself, where
  what is left out has no default.
-/
import SoftHier.Gapy.FlashProperties

set_option autoImplicit false

namespace SoftHier.Gapy

open SoftHier.Foundation Program

/-! ## A content with its defaults -/

/-- The given properties, and the declared values of those not given. -/
def withDefaults (declared : Dict String FlashSectionProperty) (given : Dict String PyValue) :
    Dict String PyValue :=
  declared.entries.foldl
    (fun d e => if (d.get e.1).isSome then d else d.set e.1 e.2.value) given

namespace ContentSection

/-- The properties an entry gives. -/
def given (content : ContentSection) : Dict String PyValue := content.properties.getD Dict.empty

/-- The entry with every property its class declares. -/
def filled (template : SectionTemplate) (content : ContentSection) : ContentSection :=
  { content with properties := some (withDefaults template.declared content.given) }

/-- The entry gives declared properties only. -/
def GivesDeclared (template : SectionTemplate) (content : ContentSection) : Prop :=
  ∀ key ∈ content.given.keys, key ∈ template.declared.keys

instance (template : SectionTemplate) (content : ContentSection) :
    Decidable (content.GivesDeclared template) := inferInstanceAs (Decidable (∀ key ∈ _, _))

/-- The entry gives a property. -/
def Gives (content : ContentSection) (key : String) : Prop := (content.given.get key).isSome

instance (content : ContentSection) (key : String) : Decidable (content.Gives key) :=
  inferInstanceAs (Decidable (_ = true))

end ContentSection

/-- `set_content` on a new section behaves as if every property left out had been
given with its declared value. -/
def DefaultsHonoured (h : Host) (flash : FlashContext) (offset : Int)
    (startAlign sizeAlign : Option Int) (template : SectionTemplate) (name : String)
    (sectionId : Nat) (content : ContentSection) : Prop :=
  let s := (template.new name sectionId).setAlignments startAlign sizeAlign
  Section.setContent h flash offset content s =
    Section.setContent h flash offset (content.filled template) s

/-- The content leaves out nothing that is read from it without a default, or what
it does give fails in the same way. -/
def ReadsGiven (template : SectionTemplate) (content : ContentSection) : Prop :=
  template = .lfs ∨ content.Gives "files" ∨
    template = .readfs ∧ ∃ dirs, content.given.get "dirs" = some dirs ∧ dirs ≠ .none ∧
      dirs.iterate = .error .typeError

/-- `os.listdir` of a text never raises a `TypeError`. -/
def Host.ListsTexts (h : Host) : Prop := ∀ path, h.listdir path ≠ .error .typeError

theorem get_withDefaults (declared : Dict String FlashSectionProperty)
    (given : Dict String PyValue) (key : String) :
    (withDefaults declared given).get key =
      (given.get key).or ((declared.get key).map FlashSectionProperty.value) := by
  unfold withDefaults Dict.get
  generalize declared.entries = l
  induction l generalizing given with
  | nil => exact (Option.or_none).symm
  | cons e l ih =>
    obtain ⟨k, p⟩ := e
    rw [List.foldl_cons]
    change ((l.foldl _ (if (given.get k).isSome then given else given.set k p.value)).get key) = _
    unfold Dict.get
    rw [ih, Dict.lookup]
    change ((if (given.get k).isSome then given else given.set k p.value).get key).or _ =
      (given.get key).or _
    by_cases hkey : k = key
    · subst hkey
      rw [if_pos rfl]
      split
      next hsome =>
        obtain ⟨v, hv⟩ := Option.isSome_iff_exists.mp hsome
        rw [hv]
        rfl
      next hnone =>
        rw [Dict.get_set_self, Option.not_isSome_iff_eq_none.mp hnone]
        rfl
    · rw [if_neg hkey]
      split
      · rfl
      · rw [Dict.get_set_of_ne _ hkey]

/-! ## The properties of the section -/

namespace FlashSection

variable {σ : Type}

/-- The property loop of `set_content` takes any declared properties. -/
theorem runs_setProperties {entries : List (String × PyValue)} :
    ∀ {s : FlashSection σ}, (∀ e ∈ entries, e.1 ∈ s.properties.keys) →
      ∃ s', Returns (forEach setProperty entries) s () s' ∧
        s'.properties.keys = s.properties.keys := by
  induction entries with
  | nil => exact fun {s} _ => ⟨s, returns_forEach_nil.mpr rfl, rfl⟩
  | cons e entries ih =>
    intro s hdeclared
    obtain ⟨key, value⟩ := e
    obtain ⟨p, hp⟩ := Dict.mem_keys_iff.mp (hdeclared (key, value) List.mem_cons_self)
    have hone : Returns (setProperty (key, value)) s ()
        { s with properties := s.properties.set key { p with value := value } } := by
      unfold setProperty
      rw [returns_get_bind]
      simp only [hp]
      exact returns_set.mpr rfl
    have hkeys : (s.properties.set key { p with value := value }).keys = s.properties.keys :=
      Dict.keys_set_of_mem _ (Dict.mem_keys_iff.mpr ⟨p, hp⟩)
    obtain ⟨s', hrest, hkeys'⟩ := ih
      (s := { s with properties := s.properties.set key { p with value := value } }) fun e he => by
        rw [hkeys]
        exact hdeclared e (List.mem_cons_of_mem _ he)
    exact ⟨s', returns_forEach_cons.mpr ⟨_, hone, hrest⟩, hkeys'.trans hkeys⟩

/-- Moving a section to its start keeps its properties. -/
theorem runs_setStart (offset : Int) (t : FlashSection σ) : ∃ s', Returns (do
      let s ← get
      match s.startAlign with
      | some startAlign => setOffset (alignUp offset startAlign)
      | none => setOffset offset) t () s' ∧ s'.properties = t.properties := by
  rw [exists_congr fun s' => and_congr_left' returns_get_bind]
  split
  · exact ⟨_, returns_modify.mpr rfl, rfl⟩
  · exact ⟨_, returns_modify.mpr rfl, rfl⟩

/-- The base class takes any declared properties. -/
theorem runs_setContent {s : FlashSection σ} {content : ContentSection} (offset : Int)
    (hdeclared : ∀ key ∈ content.given.keys, key ∈ s.properties.keys) :
    ∃ properties, Returns (FlashSection.setContent offset content) s ()
        (s.started properties (s.startOffset offset)) ∧
      properties.keys = s.properties.keys ∧ ∀ name, properties.get name =
        (s.properties.get name).map fun p => p.given (content.given.get name) := by
  have hruns : ∃ s', Returns (FlashSection.setContent offset content) s () s' ∧
      s'.properties.keys = s.properties.keys := by
    unfold FlashSection.setContent
    cases hc : content.properties with
    | none =>
      obtain ⟨s', h, hsame⟩ := runs_setStart offset s
      exact ⟨s', Returns.bind (returns_pure.mpr ⟨rfl, rfl⟩) h, by rw [hsame]⟩
    | some d =>
      have hentries : ∀ e ∈ d.entries, e.1 ∈ s.properties.keys := by
        intro e he
        refine hdeclared e.1 ?_
        unfold ContentSection.given
        rw [hc]
        exact List.mem_map.mpr ⟨e, he, rfl⟩
      obtain ⟨t, hset, hkeys⟩ := runs_setProperties hentries
      obtain ⟨s', h, hsame⟩ := runs_setStart offset t
      exact ⟨s', Returns.bind hset h, by rw [hsame, hkeys]⟩
  obtain ⟨s', h, hkeys⟩ := hruns
  obtain ⟨properties, rfl, hget⟩ := returns_setContent h
  refine ⟨properties, h, hkeys, fun name => ?_⟩
  rw [hget]
  unfold ContentSection.given
  cases content.properties <;> rfl

/-- The base class does with an entry what it does with the filled one. -/
theorem setContent_filled {template : SectionTemplate} {s : FlashSection σ}
    (hs : s.properties = template.declared) {content : ContentSection}
    (hgiven : content.GivesDeclared template) (offset : Int) :
    ∃ s', Returns (FlashSection.setContent offset content) s () s' ∧
      Returns (FlashSection.setContent offset (content.filled template)) s () s' ∧
      s'.structs = s.structs := by
  have hfilled : ∀ key, (content.filled template).given.get key =
      (content.given.get key).or ((s.properties.get key).map FlashSectionProperty.value) := by
    intro key
    rw [hs]
    exact get_withDefaults template.declared content.given key
  have hkeysDeclared : ∀ key ∈ content.given.keys, key ∈ s.properties.keys := by
    rw [hs]
    exact hgiven
  obtain ⟨properties, h, hkeys, hget⟩ := runs_setContent offset hkeysDeclared
  have hfilledKeys : ∀ key ∈ (content.filled template).given.keys, key ∈ s.properties.keys := by
    intro key hkey
    obtain ⟨v, hv⟩ := Dict.mem_keys_iff.mp hkey
    rw [hfilled] at hv
    rcases Option.or_eq_some_iff.mp hv with hv | ⟨-, hv⟩
    · exact hkeysDeclared key (Dict.mem_keys_iff.mpr ⟨v, hv⟩)
    · obtain ⟨p, hp, -⟩ := Option.map_eq_some_iff.mp hv
      exact Dict.mem_keys_iff.mpr ⟨p, hp⟩
  obtain ⟨properties', h', hkeys', hget'⟩ := runs_setContent offset hfilledKeys
  have hsame : properties' = properties := by
    refine Dict.ext_get (hkeys'.trans hkeys.symm) fun key => ?_
    rw [hget', hget, hfilled]
    -- the declared value of a property is the value it has
    cases s.properties.get key with
    | none => rfl
    | some p => cases content.given.get key <;> rfl
  rw [hsame] at h'
  exact ⟨_, h, h', rfl⟩

end FlashSection

/-! ## What `set_content` reads from the content -/

namespace ContentSection

theorem property_filled (template : SectionTemplate) (content : ContentSection) (key : String) :
    (content.filled template).property key = .ok (((content.given.get key).or
      ((template.declared.get key).map FlashSectionProperty.value)).getD .none) :=
  congrArg (fun v => Except.ok (Option.getD v PyValue.none))
    (get_withDefaults template.declared content.given key)

theorem property_of_gives {content : ContentSection} {key : String} (h : content.Gives key)
    (name : String) : content.property name = .ok ((content.given.get name).getD .none) := by
  unfold Gives given at h
  unfold property given
  cases hc : content.properties with
  | none =>
    rw [hc] at h
    cases h
  | some d => rfl

/-- A property left out is absent, or there are no properties at all. -/
theorem property_of_omitted {content : ContentSection} {key : String}
    (h : ¬ content.Gives key) :
    content.properties = none ∧ content.property key = .error .attributeError ∨
      content.properties.isSome ∧ content.property key = .ok .none := by
  have hnone : content.given.get key = none := Option.not_isSome_iff_eq_none.mp h
  unfold property
  unfold given at hnone
  cases hc : content.properties with
  | none => exact .inl ⟨rfl, rfl⟩
  | some d =>
    rw [hc] at hnone
    exact .inr ⟨rfl, congrArg (fun v => Except.ok (Option.getD v PyValue.none)) hnone⟩

/-- A property with the default `None` is read alike from both. -/
theorem property_filled_of_none {template : SectionTemplate} {content : ContentSection}
    {key name : String} (h : content.Gives key)
    (hname : (template.declared.get name).map FlashSectionProperty.value = some .none) :
    (content.filled template).property name = content.property name := by
  rw [property_filled, property_of_gives h, hname]
  cases content.given.get name <;> rfl

/-- A given property is read alike from both. -/
theorem property_filled_of_gives {template : SectionTemplate} {content : ContentSection}
    {name : String} (h : content.Gives name) :
    (content.filled template).property name = content.property name := by
  rw [property_filled, property_of_gives h]
  obtain ⟨v, hv⟩ := Option.isSome_iff_exists.mp h
  rw [hv]
  rfl

end ContentSection

theorem outcome_ok_bind {σ α β : Type} {x : Except PyError α} {a : α} (h : x = .ok a)
    (f : α → SectionM σ β) : (outcome x >>= f) = f a := by
  rw [h]
  rfl

theorem raises_outcome {σ α : Type} {x : Except PyError α} {s s' : FlashSection σ} {e : PyError} :
    Raises (outcome x : SectionM σ α) s e s' ↔ x = .error e ∧ s = s' := raises_reading

/-! ## Structures are never dropped -/

section Structures

variable {σ : Type}

/-- The second section has at least the structures of the first. -/
def KeepsStructs (s s' : FlashSection σ) : Prop := s.structs.length ≤ s'.structs.length

theorem KeepsStructs.refl (s : FlashSection σ) : KeepsStructs s s := Nat.le_refl _

theorem KeepsStructs.trans ⦃s t u : FlashSection σ⦄ (h : KeepsStructs s t) (h' : KeepsStructs t u) :
    KeepsStructs s u := Nat.le_trans h h'

theorem always_outcome {α : Type} (x : Except PyError α) :
    Always KeepsStructs (outcome x : SectionM σ α) :=
  (readOnly_reading _).always KeepsStructs.refl

theorem always_reading {α : Type} (f : FlashSection σ → Except PyError α) :
    Always KeepsStructs (Program.reading f) := (readOnly_reading f).always KeepsStructs.refl

theorem always_pure {α : Type} (a : α) : Always KeepsStructs (pure a : SectionM σ α) :=
  (readOnly_pure a).always KeepsStructs.refl

theorem always_modifySelf (f : σ → σ) : Always KeepsStructs (FlashSection.modifySelf f) :=
  always_modify fun _ => Nat.le_refl _

theorem always_update (r : CStructRef) (f : CStruct → CStruct) :
    Always KeepsStructs (CStruct.update r f : SectionM σ Unit) :=
  always_modify fun _ => (List.length_modify ..).ge

theorem always_newStruct (name : String) (parent : Nat) :
    Always KeepsStructs (CStruct.new name parent : SectionM σ CStructRef) :=
  fun _ => (List.length_modify ..).ge

theorem always_declare (r : CStructRef) (d : FieldDecl) :
    Always KeepsStructs (d.declare r : SectionM σ Unit) := by
  cases d with
  | field name format =>
    exact always_bind KeepsStructs.trans (fun _ => Nat.le_refl _) fun _ => always_update r _
  | array name size =>
    exact always_bind KeepsStructs.trans (fun _ => Nat.le_refl _) fun _ => always_update r _

theorem always_newOf (fields : List FieldDecl) (name : String) (parent : Nat) :
    Always KeepsStructs (CStruct.newOf fields name parent : SectionM σ CStructRef) :=
  always_bind .trans (always_newStruct name parent) fun r =>
    always_bind .trans (always_forEach .refl .trans (always_declare r) fields) fun _ =>
      always_pure r

theorem always_setField (r : CStructRef) (name : String) (value : FieldValue) :
    Always KeepsStructs (CStruct.setField r name value : SectionM σ Unit) := by
  refine always_get_bind fun s => ?_
  split
  · exact fun _ => Nat.le_refl _
  · exact always_update r _

theorem always_refAt (refs : List CStructRef) (i : Nat) :
    Always KeepsStructs (refAt refs i : SectionM σ CStructRef) := by
  unfold refAt
  split
  · exact always_pure _
  · exact fun _ => Nat.le_refl _

end Structures

namespace ReadfsSection

/-- `set_content` behind the file paths. -/
def layOut (h : Host) : SectionM ReadfsAttrs Unit := do
  let topStruct ← CStructParent.new "readfs"
  FlashSection.modifySelf fun a => { a with topStruct := some topStruct }
  let header ← CStruct.newOf ReadfsHeader.fields "header" topStruct
  FlashSection.modifySelf fun a => { a with header := some header }
  let filePaths := (← get).self.filePaths
  Program.forEach (createHeader topStruct) filePaths.zipIdx
  Program.forEach (createFile h topStruct) filePaths.zipIdx
  fill h header filePaths

theorem setContent_eq (h : Host) (offset : Int) (content : ContentSection) :
    setContent h offset content = FlashSection.setContent offset content >>= fun _ =>
      addPaths h content >>= fun _ => layOut h := rfl

theorem always_createHeader (topStruct : Nat) (p : (String × String) × Nat) :
    Always KeepsStructs (createHeader topStruct p) :=
  always_bind .trans (always_newOf _ _ _) fun _ => always_modifySelf _

theorem always_createFile (h : Host) (topStruct : Nat) (p : (String × String) × Nat) :
    Always KeepsStructs (createFile h topStruct p) :=
  always_bind .trans (always_outcome _) fun _ =>
    always_bind .trans (always_newOf _ _ _) fun _ => always_modifySelf _

theorem always_fillFile (h : Host) (p : (String × String) × Nat) :
    Always KeepsStructs (fillFile h p) := by
  obtain ⟨⟨filename, filepath⟩, i⟩ := p
  refine always_get_bind fun s => ?_
  refine always_bind .trans (always_refAt _ _) fun fileHeader => ?_
  refine always_bind .trans (always_refAt _ _) fun file => ?_
  refine always_bind .trans (always_reading _) fun fileOffset => ?_
  refine always_bind .trans (always_setField _ _ _) fun _ => ?_
  refine always_bind .trans (always_outcome _) fun size => ?_
  refine always_bind .trans (always_setField _ _ _) fun _ => ?_
  refine always_bind .trans (always_setField _ _ _) fun _ => ?_
  refine always_bind .trans (always_setField _ _ _) fun _ => ?_
  exact always_bind .trans (always_outcome _) fun bytes => always_setField _ _ _

theorem always_fill (h : Host) (header : CStructRef) (filePaths : List (String × String)) :
    Always KeepsStructs (fill h header filePaths) := by
  refine always_get_bind fun s => ?_
  refine always_bind .trans (always_reading _) fun headerSize => ?_
  refine always_bind .trans (always_reading _) fun headerSizes => ?_
  refine always_bind .trans (always_setField _ _ _) fun _ => ?_
  refine always_bind .trans (always_setField _ _ _) fun _ => ?_
  exact always_forEach .refl .trans (always_fillFile h) filePaths.zipIdx

/-- The same behind the creation of the sub-section. -/
def layOutIn (h : Host) (topStruct : Nat) : SectionM ReadfsAttrs Unit := do
  FlashSection.modifySelf fun a => { a with topStruct := some topStruct }
  let header ← CStruct.newOf ReadfsHeader.fields "header" topStruct
  FlashSection.modifySelf fun a => { a with header := some header }
  let filePaths := (← get).self.filePaths
  Program.forEach (createHeader topStruct) filePaths.zipIdx
  Program.forEach (createFile h topStruct) filePaths.zipIdx
  fill h header filePaths

theorem layOut_eq (h : Host) : layOut h = CStructParent.new "readfs" >>= layOutIn h := rfl

theorem always_layOutIn (h : Host) (topStruct : Nat) :
    Always KeepsStructs (layOutIn h topStruct) := by
  refine always_bind .trans (always_modifySelf _) fun _ => ?_
  refine always_bind .trans (always_newOf _ _ _) fun header => ?_
  refine always_bind .trans (always_modifySelf _) fun _ => ?_
  refine always_get_bind fun t => ?_
  refine always_bind .trans (always_forEach .refl .trans (always_createHeader _) _) fun _ => ?_
  refine always_bind .trans (always_forEach .refl .trans (always_createFile h _) _) fun _ => ?_
  exact always_fill h header _

/-- Laying out the files adds a structure, however it ends. -/
theorem structs_layOut (h : Host) (s : FlashSection ReadfsAttrs) :
    s.structs.length < (finalState (layOut h) s).structs.length := by
  have hnew : Returns (CStructParent.new "readfs" : SectionM ReadfsAttrs Nat) s s.structs.length
      { s with structs := s.structs ++ [({ name := "readfs" } : CStructParent)] } := rfl
  have hrest := always_layOutIn h s.structs.length
    { s with structs := s.structs ++ [({ name := "readfs" } : CStructParent)] }
  unfold KeepsStructs at hrest
  rw [List.length_append, List.length_singleton] at hrest
  unfold Program.finalState at hrest ⊢
  rw [layOut_eq, hnew.run_bind]
  exact Nat.lt_of_succ_le hrest

/-- The part of `set_content` about the directories. -/
def addDirectories (h : Host) (dirs : PyValue) : SectionM ReadfsAttrs Unit := do
  if dirs ≠ .none then
    Program.forEach (addDirectory h) (← outcome dirs.iterate)

theorem addPaths_eq (h : Host) (content : ContentSection) :
    addPaths h content = outcome (content.property "files") >>= fun files =>
      outcome files.iterate >>= fun items => Program.forEach addFile items >>= fun _ =>
        outcome (content.property "dirs") >>= fun dirs => addDirectories h dirs := rfl

/-- Without a property for the directories it does what it does without any. -/
theorem addDirectories_default (h : Host) (dirs : Option PyValue) :
    addDirectories h ((dirs.or (some (.list []))).getD .none) =
      addDirectories h (dirs.getD .none) := by
  cases dirs with
  | some v => rfl
  | none => rfl

theorem addPaths_filled {content : ContentSection} (hfiles : content.Gives "files") (h : Host) :
    addPaths h (content.filled .readfs) = addPaths h content := by
  have hdirs : outcome ((content.filled .readfs).property "dirs") >>= (fun dirs =>
      addDirectories h dirs) = outcome (content.property "dirs") >>= fun dirs =>
        addDirectories h dirs := by
    rw [outcome_ok_bind (ContentSection.property_filled .readfs content "dirs"),
      outcome_ok_bind (ContentSection.property_of_gives hfiles "dirs")]
    exact addDirectories_default h (content.given.get "dirs")
  rw [addPaths_eq, addPaths_eq, ContentSection.property_filled_of_gives hfiles, hdirs]

/-- Without files the content fails where they are read. -/
theorem raises_addPaths {content : ContentSection} (hfiles : ¬ content.Gives "files") (h : Host)
    (s : FlashSection ReadfsAttrs) : ∃ e, Raises (addPaths h content) s e s ∧
      (content.properties.isSome → e = .typeError) := by
  rw [addPaths_eq]
  rcases ContentSection.property_of_omitted hfiles with ⟨hnone, hproperty⟩ | ⟨-, hproperty⟩
  · rw [hnone]
    exact ⟨.attributeError, Raises.bind (raises_outcome.mpr ⟨hproperty, rfl⟩) _, nofun⟩
  · rw [outcome_ok_bind hproperty]
    exact ⟨.typeError, Raises.bind (raises_outcome.mpr ⟨rfl, rfl⟩) _, fun _ => rfl⟩

/-- The filled content goes on to the directories. -/
theorem addPaths_filled_of_omitted {content : ContentSection} (hfiles : ¬ content.Gives "files")
    (h : Host) : addPaths h (content.filled .readfs) =
      addDirectories h ((content.given.get "dirs").getD (.list [])) := by
  have hproperty : (content.filled .readfs).property "files" = .ok (.list []) := by
    rw [ContentSection.property_filled, Option.not_isSome_iff_eq_none.mp hfiles]
    rfl
  have hdirs : (content.filled .readfs).property "dirs" =
      .ok ((content.given.get "dirs").getD (.list [])) := by
    rw [ContentSection.property_filled]
    cases content.given.get "dirs" <;> rfl
  have hitems : (PyValue.list []).iterate = .ok [] := rfl
  rw [addPaths_eq, outcome_ok_bind hproperty, outcome_ok_bind hitems, forEach,
    pure_bind]
  exact outcome_ok_bind hdirs _

theorem iterate_error {v : PyValue} {e : PyError} (h : v.iterate = .error e) : e = .typeError := by
  cases v <;> cases h <;> rfl

theorem addDirectory_raises {h : Host} (hlists : h.ListsTexts) {entry : String}
    {s s' : FlashSection ReadfsAttrs} {e : PyError}
    (hraises : Raises (addDirectory h entry) s e s') :
    e ≠ .typeError := by
  unfold addDirectory at hraises
  rcases raises_bind.mp hraises with hentry | ⟨d, t, -, hraises⟩
  · have hentry := (raises_reading.mp hentry).1
    unfold directoryEntry at hentry
    split at hentry
    · unfold splitColon at hentry
      split at hentry
      · cases hentry
      · cases hentry
        exact nofun
    · cases hentry
  rcases raises_bind.mp hraises with hlist | ⟨names, u, -, hraises⟩
  · have hlist := (raises_reading.mp hlist).1
    rintro rfl
    exact hlists d.1 hlist
  · exact absurd hraises (not_raises_forEach (fun _ _ _ _ => not_raises_modify) names)

/-- Going through directories fails with a `TypeError` only where the property is
no list of texts. -/
theorem addDirectories_raises {h : Host} (hlists : h.ListsTexts) {dirs : PyValue}
    {s s' : FlashSection ReadfsAttrs} {e : PyError}
    (hraises : Raises (addDirectories h dirs) s e s') :
    dirs ≠ .none ∧ (dirs.iterate = .error .typeError ∧ e = .typeError ∧ s = s' ∨
      e ≠ .typeError ∧ ∃ item items, dirs.iterate = .ok (item :: items)) := by
  unfold addDirectories at hraises
  by_cases hnone : dirs = .none
  · rw [if_neg (not_not_intro hnone)] at hraises
    exact absurd hraises not_raises_pure
  · refine ⟨hnone, ?_⟩
    rw [if_pos hnone] at hraises
    rcases raises_bind.mp hraises with hread | ⟨items, t, hread, hraises⟩
    · obtain ⟨hiterate, rfl⟩ := raises_outcome.mp hread
      obtain rfl : e = .typeError := iterate_error hiterate
      exact .inl ⟨hiterate, rfl, rfl⟩
    · obtain ⟨hiterate, rfl⟩ := returns_reading.mp hread
      have hne : ∀ items {s : FlashSection ReadfsAttrs},
          Raises (forEach (addDirectory h) items) s e s' → e ≠ .typeError := by
        intro items
        induction items with
        | nil => exact fun h => absurd h not_raises_forEach_nil
        | cons item items ih =>
          intro s hraises
          rcases raises_forEach_cons.mp hraises with hone | ⟨u, -, hrest⟩
          · exact addDirectory_raises hlists hone
          · exact ih hrest
      cases items with
      | nil => exact absurd hraises not_raises_forEach_nil
      | cons item items => exact .inr ⟨hne _ hraises, item, items, hiterate⟩

theorem always_addDirectories (h : Host) (dirs : PyValue) :
    Always KeepsStructs (addDirectories h dirs) := by
  unfold addDirectories
  split
  · refine always_bind .trans (always_outcome _) fun items => ?_
    refine always_forEach .refl .trans (fun entry => ?_) items
    refine always_bind .trans (always_outcome _) fun d => ?_
    refine always_bind .trans (always_outcome _) fun names => ?_
    exact always_forEach .refl .trans (fun _ => always_modifySelf _) names
  · exact always_pure ()

/-- With or without the defaults: for every content of declared properties the
outcomes are the same exactly when the files are given, or the directories are no
list of texts. -/
theorem setContent_filled_iff {h : Host} (hlists : h.ListsTexts) {offset : Int}
    {content : ContentSection} {s : FlashSection ReadfsAttrs}
    (hs : s.properties = SectionTemplate.readfs.declared) (hgiven : content.GivesDeclared .readfs) :
    setContent h offset content s = setContent h offset (content.filled .readfs) s ↔
      content.Gives "files" ∨ ∃ dirs, content.given.get "dirs" = some dirs ∧ dirs ≠ .none ∧
        dirs.iterate = .error .typeError := by
  obtain ⟨s₁, hbase, hbase', -⟩ := FlashSection.setContent_filled hs hgiven offset
  rw [setContent_eq, setContent_eq, hbase.run_bind, hbase'.run_bind]
  by_cases hfiles : content.Gives "files"
  · rw [addPaths_filled hfiles]
    exact iff_of_true rfl (.inl hfiles)
  -- left out, the files raise at once; with the default the directories come next
  obtain ⟨e, hraises, htype⟩ := raises_addPaths hfiles h s₁
  have hleft : (addPaths h content >>= fun _ => layOut h) s₁ = .error e s₁ := hraises.bind _
  rw [addPaths_filled_of_omitted hfiles, hleft]
  simp only [hfiles, false_or]
  have hdirs : (∃ dirs, content.given.get "dirs" = some dirs ∧ dirs ≠ .none ∧
      dirs.iterate = .error .typeError) ↔
      (content.given.get "dirs").getD (.list []) ≠ .none ∧
        ((content.given.get "dirs").getD (.list [])).iterate = .error .typeError := by
    cases content.given.get "dirs" with
    | none => simp [PyValue.iterate]
    | some dirs => simp
  rw [hdirs]
  generalize hvalue : (content.given.get "dirs").getD (.list []) = dirs
  cases hrun : addDirectories h dirs s₁ with
  | ok u s₂ =>
    refine iff_of_false (fun heq => ?_) ?_
    · have hgrown := structs_layOut h s₂
      have hkept : s₁.structs.length ≤ s₂.structs.length := by
        have hkept := always_addDirectories h dirs s₁
        rwa [Returns.finalState hrun] at hkept
      rw [Returns.run_bind hrun] at heq
      have hfinal : finalState (layOut h) s₂ = s₁ := by
        unfold finalState
        rw [← heq]
      rw [hfinal] at hgrown
      omega
    · rintro ⟨hnone, hiterate⟩
      have hraises : Raises (addDirectories h dirs) s₁ .typeError s₁ := by
        unfold addDirectories
        rw [if_pos hnone]
        exact Raises.bind (raises_outcome.mpr ⟨hiterate, rfl⟩) _
      have herror := hrun.symm.trans hraises
      cases herror
  | error e' s₂ =>
    have hright : (addDirectories h dirs >>= fun _ => layOut h) s₁ = .error e' s₂ :=
      Raises.bind hrun _
    rw [hright]
    -- the default directories raise nothing, so they were given
    have he : dirs.iterate ≠ .ok [] → e = .typeError := by
      intro hiterate
      refine htype ?_
      cases hc : content.properties with
      | some d => rfl
      | none =>
        unfold ContentSection.given at hvalue
        rw [hc] at hvalue
        exact absurd (congrArg PyValue.iterate hvalue.symm) hiterate
    obtain ⟨hnone, ⟨hiterate, rfl, rfl⟩ | ⟨hne, item, items, hiterate⟩⟩ :=
      addDirectories_raises hlists hrun
    · rw [he (by simp [hiterate])]
      exact iff_of_true rfl ⟨hnone, hiterate⟩
    · rw [he (by simp [hiterate])]
      refine iff_of_false (fun heq => ?_) ?_
      · cases heq
        exact hne rfl
      · rintro ⟨-, herror⟩
        rw [hiterate] at herror
        cases herror

end ReadfsSection

namespace HostfsSection

/-- `set_content` behind the base class. -/
def copyFiles (h : Host) (content : ContentSection) : SectionM Unit Unit := do
  let files ← outcome (content.property "files")
  Program.forEach (fun file => outcome (h.copy file (h.getAbspath (basename file))))
    (← outcome files.iterate)

theorem setContent_eq (h : Host) (offset : Int) (content : ContentSection) :
    setContent h offset content =
      FlashSection.setContent offset content >>= fun _ => copyFiles h content := rfl

theorem setContent_filled_iff {h : Host} {offset : Int} {content : ContentSection}
    {s : FlashSection Unit} (hs : s.properties = SectionTemplate.hostfs.declared)
    (hgiven : content.GivesDeclared .hostfs) :
    setContent h offset content s = setContent h offset (content.filled .hostfs) s ↔
      content.Gives "files" := by
  obtain ⟨s₁, hbase, hbase', -⟩ := FlashSection.setContent_filled hs hgiven offset
  rw [setContent_eq, setContent_eq, hbase.run_bind, hbase'.run_bind]
  by_cases hfiles : content.Gives "files"
  · have hsame : copyFiles h (content.filled .hostfs) = copyFiles h content := by
      unfold copyFiles
      rw [ContentSection.property_filled_of_gives hfiles]
    rw [hsame]
    exact iff_of_true rfl hfiles
  · have hnone : content.given.get "files" = none := Option.not_isSome_iff_eq_none.mp hfiles
    have hproperty : (content.filled .hostfs).property "files" = .ok (.list []) := by
      rw [ContentSection.property_filled, hnone]
      rfl
    have hright : copyFiles h (content.filled .hostfs) s₁ = .ok () s₁ := by
      unfold copyFiles
      rw [outcome_ok_bind hproperty]
      rfl
    have hleft : ∀ u s', copyFiles h content s₁ ≠ .ok u s' := by
      intro u s' hok
      unfold copyFiles at hok
      obtain ⟨files, t, hread, hok⟩ := returns_bind.mp hok
      obtain ⟨items, t', hiterate, -⟩ := returns_bind.mp hok
      have hread := (returns_reading.mp hread).1
      have hiterate := (returns_reading.mp hiterate).1
      rcases ContentSection.property_of_omitted hfiles with ⟨-, hproperty⟩ | ⟨-, hproperty⟩
      · rw [hproperty] at hread
        cases hread
      · rw [hproperty] at hread
        cases hread
        cases hiterate
    rw [hright]
    exact iff_of_false (hleft () s₁) hfiles

end HostfsSection

namespace LfsSection

/-- With its size given, a LittleFS finds the defaults of all it reads. -/
theorem setContent_filled {h : Host} {flash : FlashContext} {offset : Int}
    {content : ContentSection} {s : FlashSection LfsAttrs}
    (hs : s.properties = SectionTemplate.lfs.declared) (hgiven : content.GivesDeclared .lfs)
    (hsize : content.Gives "size") :
    setContent h flash offset content s = setContent h flash offset (content.filled .lfs) s := by
  obtain ⟨s₁, hbase, hbase', -⟩ := FlashSection.setContent_filled hs hgiven offset
  have hread : readProperties flash (content.filled .lfs) = readProperties flash content := by
    unfold readProperties
    rw [ContentSection.property_filled_of_none hsize rfl,
      ContentSection.property_filled_of_none hsize rfl]
  unfold setContent
  rw [hbase.run_bind, hbase'.run_bind, hread]

end LfsSection

/-! ## Any of the classes -/

theorem within_eq_iff {σ : Type} {wrap : FlashSection σ → Section} (hwrap : wrap.Injective)
    {p q : SectionM σ Unit} {s : FlashSection σ} :
    Section.within wrap p s = Section.within wrap q s ↔ p s = q s := by
  refine ⟨fun h => ?_, fun h => ?_⟩
  · unfold Section.within at h
    cases hp : p s with
    | ok u t =>
      cases hq : q s with
      | ok v t' =>
        rw [hp, hq] at h
        injection h with _ hstate
        rw [hwrap hstate]
      | error e t' =>
        rw [hp, hq] at h
        cases h
    | error e t =>
      cases hq : q s with
      | ok v t' =>
        rw [hp, hq] at h
        cases h
      | error e' t' =>
        rw [hp, hq] at h
        injection h with herror hstate
        rw [herror, hwrap hstate]
  · unfold Section.within
    rw [h]

/-- For every entry of a ReadFS, HostFS or LittleFS that gives declared properties
only, and a LittleFS its size: the defaults are honoured exactly when nothing
that is read without a default is left out. -/
theorem defaultsHonoured_iff {h : Host} (hlists : h.ListsTexts) {flash : FlashContext}
    {offset : Int} {startAlign sizeAlign : Option Int} {template : SectionTemplate} {name : String}
    {sectionId : Nat} {content : ContentSection}
    (htemplate : template = .readfs ∨ template = .hostfs ∨ template = .lfs)
    (hgiven : content.GivesDeclared template) (hsize : template = .lfs → content.Gives "size") :
    DefaultsHonoured h flash offset startAlign sizeAlign template name sectionId content ↔
      ReadsGiven template content := by
  unfold DefaultsHonoured ReadsGiven
  rcases htemplate with rfl | rfl | rfl
  · have hinjective : Section.readfs.Injective := fun _ _ h => Section.readfs.inj h
    have hs : ((ReadfsSection.new name sectionId).setAlignments startAlign sizeAlign).properties =
        SectionTemplate.readfs.declared := rfl
    refine (within_eq_iff hinjective).trans ?_
    refine (ReadfsSection.setContent_filled_iff hlists hs hgiven).trans ?_
    simp
  · have hinjective : Section.hostfs.Injective := fun _ _ h => Section.hostfs.inj h
    have hs : ((HostfsSection.new name sectionId).setAlignments startAlign sizeAlign).properties =
        SectionTemplate.hostfs.declared := rfl
    refine (within_eq_iff hinjective).trans ?_
    refine (HostfsSection.setContent_filled_iff hs hgiven).trans ?_
    simp
  · have hinjective : Section.lfs.Injective := fun _ _ h => Section.lfs.inj h
    refine (within_eq_iff hinjective).trans ?_
    exact iff_of_true (LfsSection.setContent_filled rfl hgiven (hsize rfl)) (.inl rfl)

theorem listsTexts_noFiles : Host.noFiles.ListsTexts := by
  intro path h
  change Except.error (PyError.osError path) = _ at h
  cases h

/-- A content entry for a small flash. -/
def fsEntry (template : String) (properties : Option (Dict String PyValue)) : ContentSection where
  name := some "fs"
  template := some template
  properties := properties

/-- The directories of a ReadFS may be left out. -/
theorem defaultsHonoured_iff_files : DefaultsHonoured Host.noFiles
    (Flash.ofContent 0x100 Dict.empty []).context 0 none none .readfs "fs" 0
    (fsEntry "readfs" (some (Dict.empty.set "files" (.list [])))) :=
  (defaultsHonoured_iff listsTexts_noFiles (.inl rfl) (by decide) nofun).mpr
    (.inr (.inl (by decide)))

/-- An entry of a HostFS without properties fails. -/
theorem not_defaultsHonoured : ¬ ∀ (h : Host) (flash : FlashContext) (offset : Int)
    (startAlign sizeAlign : Option Int) (template : SectionTemplate) (name : String)
    (sectionId : Nat) (content : ContentSection), h.ListsTexts →
    (template = .readfs ∨ template = .hostfs ∨ template = .lfs) →
    content.GivesDeclared template → (template = .lfs → content.Gives "size") →
    DefaultsHonoured h flash offset startAlign sizeAlign template name sectionId content := by
  intro h
  let flash := (Flash.ofContent 0x100 Dict.empty []).context
  let s := (SectionTemplate.hostfs.new "fs" 0).setAlignments none none
  have hhonoured : Section.setContent Host.noFiles flash 0 (fsEntry "hostfs" none) s =
      Section.setContent Host.noFiles flash 0 ((fsEntry "hostfs" none).filled .hostfs) s :=
    h _ flash 0 none none .hostfs "fs" 0 _ listsTexts_noFiles (.inr (.inl rfl)) (by decide) nofun
  have hreturned : returned? (Section.setContent Host.noFiles flash 0 (fsEntry "hostfs" none)) s =
      returned? (Section.setContent Host.noFiles flash 0
        ((fsEntry "hostfs" none).filled .hostfs)) s := by
    unfold returned?
    rw [hhonoured]
  exact absurd hreturned (by decide +kernel)

end SoftHier.Gapy
