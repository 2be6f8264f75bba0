/-
  Gapy/SectionTables.lean --- the tables of a section.

  A field is shown by its class: a scalar as a number, an array as bytes.  Every
  class of sections puts numbers in its scalars and bytes in its arrays, so the
  tables of a section can always be built.
-/
import SoftHier.Gapy.Truncation

set_option autoImplicit false

namespace SoftHier.Gapy

open SoftHier.Foundation Program

/-! ## Values of the right kind -/

/-- The names of the fields that are arrays, in all structures. -/
def arrayNames : List String := ["data", "name", "padding", "md5"]

/-- A value for a field with a name: bytes for an array, a number for any other. -/
def FieldValue.Suits (name : String) : FieldValue → Prop
  | .int _ => name ∉ arrayNames
  | .bytes _ => name ∈ arrayNames

/-- A field with a name holds a value of its class. -/
def CStructField.Suits (name : String) (f : CStructField) : Prop :=
  f.value.Suits name ∧ match f.kind with
    | .scalar _ => name ∉ arrayNames
    | .bytes _ => name ∈ arrayNames

/-- A declaration of a field is of the class its name asks for. -/
def FieldDecl.Suits : FieldDecl → Prop
  | .field name _ => name ∉ arrayNames
  | .array name _ => name ∈ arrayNames

instance : DecidablePred FieldDecl.Suits
  | .field name _ => inferInstanceAs (Decidable (name ∉ arrayNames))
  | .array name _ => inferInstanceAs (Decidable (name ∈ arrayNames))

/-- All fields of a structure hold values of their classes. -/
def CStruct.Suits (c : CStruct) : Prop :=
  ∀ name f, c.fields.get name = some f → f.Suits name

/-- All fields of a section do. -/
def FlashSection.Tabular {σ : Type} (s : FlashSection σ) : Prop :=
  ∀ p ∈ s.structs, ∀ c ∈ p.structs, c.Suits

theorem CStructField.Suits.dumpTable {name : String} {f : CStructField} (h : f.Suits name)
    (level : Int) : ∃ rows, f.dumpTable name level = .ok rows := by
  obtain ⟨hvalue, hkind⟩ := h
  unfold CStructField.dumpTable
  cases hk : f.kind with
  | scalar format =>
    cases hv : f.value with
    | int v => exact ⟨_, rfl⟩
    | bytes b =>
      rw [hk] at hkind
      rw [hv] at hvalue
      exact absurd hvalue hkind
  | bytes size =>
    cases hv : f.value with
    | int v =>
      rw [hk] at hkind
      rw [hv] at hvalue
      exact absurd hkind hvalue
    | bytes b => exact ⟨_, rfl⟩

/-- A structure whose fields hold values of their classes has a table. -/
theorem CStruct.Suits.dumpTable {c : CStruct} (h : c.Suits) (level : Int) :
    ∃ rows, c.dumpTable level = .ok rows := by
  have hrow : ∀ p ∈ c.fields.entries, ∃ row, p.2.dumpTable p.1 level = .ok row :=
    fun p hp => (h p.1 p.2 (Dict.get_eq_some_iff.mpr hp)).dumpTable level
  obtain ⟨rows, hrows⟩ := exists_mapM_ok hrow
  unfold CStruct.dumpTable
  rw [hrows]
  exact ⟨_, rfl⟩

namespace FlashSection

variable {σ : Type} {s s' : FlashSection σ}

/-- So has a section. -/
theorem Tabular.dumpTable (h : s.Tabular) (level : Int) :
    ∃ tables, s.dumpTable level = .ok tables := by
  refine exists_mapM_ok fun p hp => exists_mapM_ok fun c hc => ?_
  split
  · obtain ⟨rows, hrows⟩ := (h p hp c hc).dumpTable (level - 1)
    rw [hrows]
    exact ⟨_, rfl⟩
  · exact ⟨_, rfl⟩

/-- The second section has values of the right classes if the first has. -/
def KeepsTables (s s' : FlashSection σ) : Prop := s.Tabular → s'.Tabular

theorem KeepsTables.refl (s : FlashSection σ) : KeepsTables s s := id

theorem KeepsTables.trans ⦃s t u : FlashSection σ⦄ (h : KeepsTables s t) (h' : KeepsTables t u) :
    KeepsTables s u := fun hs => h' (h hs)

theorem keepsTables_modify {f : FlashSection σ → FlashSection σ}
    (hf : ∀ s, (f s).structs = s.structs) :
    Keeps KeepsTables (modify f : SectionM σ PUnit) := by
  intro s u s' h hs
  rw [← returns_modify.mp h]
  unfold Tabular
  rw [hf]
  exact hs

/-- Changing one structure. -/
theorem Tabular.update (h : s.Tabular) {r : CStructRef} {f : CStruct → CStruct}
    (hf : ∀ c : CStruct, c.Suits → (f c).Suits) :
    ({ s with structs := s.structs.modify r.parent fun p =>
        { p with structs := p.structs.modify r.index f } } : FlashSection σ).Tabular := by
  intro p hp c hc
  obtain ⟨i, hi⟩ := List.mem_iff_getElem?.mp hp
  rw [List.getElem?_modify] at hi
  obtain ⟨q, hq, rfl⟩ := Option.map_eq_some_iff.mp hi
  have hstructs := h q (List.mem_of_getElem? hq)
  by_cases hparent : r.parent = i
  · rw [if_pos hparent] at hc
    obtain ⟨j, hj⟩ := List.mem_iff_getElem?.mp hc
    rw [List.getElem?_modify] at hj
    obtain ⟨d, hd, rfl⟩ := Option.map_eq_some_iff.mp hj
    have hsuits := hstructs d (List.mem_of_getElem? hd)
    split
    · exact hf d hsuits
    · exact hsuits
  · rw [if_neg hparent] at hc
    exact hstructs c hc

theorem suits_set {c : CStruct} (hc : c.Suits) {name : String} {f : CStructField}
    (hf : f.Suits name) : ∀ n g, (c.fields.set name f).get n = some g → g.Suits n := by
  intro n g hg
  rw [Dict.get_set] at hg
  split at hg
  next heq =>
    cases hg
    exact heq ▸ hf
  · exact hc n g hg

theorem keepsTables_setField (r : CStructRef) {name : String} {value : FieldValue}
    (hvalue : value.Suits name) :
    Keeps KeepsTables (CStruct.setField r name value : SectionM σ Unit) := by
  intro s u s' h hs
  obtain ⟨c, f, hc, hfield, rfl⟩ := updated_of_setField h
  obtain ⟨p, hp, hcp⟩ := Option.bind_eq_some_iff.mp hc
  have hsuits := hs p (List.mem_of_getElem? hp) c (List.mem_of_getElem? hcp) name f hfield
  exact hs.update fun d hd => suits_set hd ⟨hvalue, hsuits.2⟩

theorem keepsTables_setInt (r : CStructRef) {name : String} (hname : name ∉ arrayNames) (v : Int) :
    Keeps KeepsTables (CStruct.setField r name (.int v) : SectionM σ Unit) :=
  keepsTables_setField r hname

theorem keepsTables_setBytes (r : CStructRef) {name : String} (hname : name ∈ arrayNames)
    (b : Bytes) : Keeps KeepsTables (CStruct.setField r name (.bytes b) : SectionM σ Unit) :=
  keepsTables_setField r hname

theorem keepsTables_declare (r : CStructRef) {d : FieldDecl} (hd : d.Suits) :
    Keeps KeepsTables (FieldDecl.declare r d : SectionM σ Unit) := by
  have halloc : ∀ size, Keeps KeepsTables (allocOffset size : SectionM σ Int) := by
    intro size s offset s' h hs
    unfold allocOffset at h
    obtain ⟨-, rfl⟩ := returns_get_set_pure.mp h
    exact hs
  have happend : ∀ {name : String} {f : CStructField}, f.Suits name →
      Keeps KeepsTables (CStruct.update r (CStruct.append name f) : SectionM σ Unit) := by
    intro name f hf s u s' h hs
    unfold CStruct.update at h
    rw [← returns_modify.mp h]
    exact hs.update fun c hc => suits_set hc hf
  cases d with
  | field name format =>
    exact keeps_bind .trans (halloc _) fun _ => happend ⟨hd, hd⟩
  | array name size =>
    exact keeps_bind .trans (halloc _) fun _ => happend ⟨hd, hd⟩

theorem keepsTables_newStruct (name : String) (parent : Nat) :
    Keeps KeepsTables (CStruct.new name parent : SectionM σ CStructRef) := by
  intro s r s' h hs
  unfold CStruct.new at h
  obtain ⟨-, rfl⟩ := returns_get_set_pure.mp h
  intro p hp c hc
  obtain ⟨i, hi⟩ := List.mem_iff_getElem?.mp hp
  rw [List.getElem?_modify] at hi
  obtain ⟨q, hq, rfl⟩ := Option.map_eq_some_iff.mp hi
  have hstructs := hs q (List.mem_of_getElem? hq)
  split at hc
  · rcases List.mem_append.mp hc with hc | hc
    · exact hstructs c hc
    · -- the new structure has no fields yet
      rw [List.mem_singleton.mp hc]
      exact fun n f hf => by cases hf
  · exact hstructs c hc

theorem keepsTables_newOf {fields : List FieldDecl} (hfields : ∀ d ∈ fields, d.Suits)
    (name : String) (parent : Nat) :
    Keeps KeepsTables (CStruct.newOf fields name parent : SectionM σ CStructRef) := by
  refine keeps_bind .trans (keepsTables_newStruct name parent) fun r => ?_
  refine keeps_bind .trans (keeps_forEach .refl .trans fun d hd => ?_) fun _ => keeps_pure .refl r
  exact keepsTables_declare r (hfields d hd)

theorem keepsTables_newParent (name : String) :
    Keeps KeepsTables (CStructParent.new name : SectionM σ Nat) := by
  intro s n s' h hs
  unfold CStructParent.new at h
  obtain ⟨-, rfl⟩ := returns_get_set_pure.mp h
  intro p hp c hc
  rcases List.mem_append.mp hp with hp | hp
  · exact hs p hp c hc
  · rw [List.mem_singleton.mp hp] at hc
    cases hc

theorem keepsTables_modifySelf (f : σ → σ) :
    Keeps KeepsTables (modifySelf f : SectionM σ Unit) := keepsTables_modify fun _ => rfl

theorem keepsTables_setContent (offset : Int) (content : ContentSection) :
    Keeps KeepsTables (FlashSection.setContent offset content : SectionM σ Unit) := by
  intro s u s' h hs
  obtain ⟨properties, rfl, -⟩ := returns_setContent h
  exact hs

theorem keepsTables_reading {α : Type} (f : FlashSection σ → Except PyError α) :
    Keeps KeepsTables (Program.reading f) := keeps_reading .refl f

theorem keepsTables_refAt (refs : List CStructRef) (i : Nat) :
    Keeps KeepsTables (refAt refs i : SectionM σ CStructRef) := by
  unfold refAt
  cases refs[i]? with
  | some r => exact keeps_pure .refl r
  | none => exact keeps_throw _

end FlashSection

/-! ## The classes -/

open FlashSection

theorem RomFlashSection.keepsTables_setContent (host : Host) (offset : Int)
    (content : ContentSection) : Keeps KeepsTables (setContent host offset content) := by
  have hparse : Keeps KeepsTables (parseBinary host) := by
    intro s binary s' h
    obtain rfl : s = s' := keeps_parseBinary host _ _ _ h
    exact .refl s
  have hfillSegment : ∀ p, Keeps KeepsTables (fillSegment p) := by
    intro p
    refine keeps_bind .trans (keeps_get .refl) fun _ => ?_
    refine keeps_bind .trans (keepsTables_refAt _ _) fun _ => ?_
    refine keeps_bind .trans (keepsTables_refAt _ _) fun _ => ?_
    refine keeps_bind .trans (keepsTables_reading _) fun _ => ?_
    refine keeps_bind .trans (keepsTables_setInt _ (by decide) _) fun _ => ?_
    refine keeps_bind .trans (keepsTables_setInt _ (by decide) _) fun _ => ?_
    refine keeps_bind .trans (keepsTables_setInt _ (by decide) _) fun _ => ?_
    refine keeps_bind .trans (keepsTables_setInt _ (by decide) _) fun _ => ?_
    exact keepsTables_setBytes _ (by decide) _
  refine keeps_bind .trans (FlashSection.keepsTables_setContent _ _) fun _ => ?_
  refine keeps_bind .trans hparse fun binary => ?_
  refine keeps_bind .trans (keepsTables_modifySelf _) fun _ => ?_
  refine keeps_bind .trans (keepsTables_reading _) fun _ => ?_
  refine keeps_bind .trans (keepsTables_modifySelf _) fun _ => ?_
  refine keeps_bind .trans (keepsTables_newParent _) fun topStruct => ?_
  refine keeps_bind .trans (keepsTables_modifySelf _) fun _ => ?_
  cases binary with
  | some binary =>
    refine keeps_bind .trans (keepsTables_newOf (by decide) _ _) fun header => ?_
    refine keeps_bind .trans (keepsTables_modifySelf _) fun _ => ?_
    refine keeps_bind .trans (keeps_forEach .refl .trans fun _ _ => ?_) fun _ => ?_
    · exact keeps_bind .trans (keepsTables_newOf (by decide) _ _) fun _ => keepsTables_modifySelf _
    refine keeps_bind .trans (keeps_forEach .refl .trans fun b _ => ?_) fun _ => ?_
    · refine keeps_bind .trans (keepsTables_newOf ?_ _ _) fun _ => keepsTables_modifySelf _
      simp [RomSegment.fields, FieldDecl.Suits, arrayNames]
    refine keeps_bind .trans (keepsTables_reading _) fun _ => ?_
    refine keeps_bind .trans (keepsTables_setInt _ (by decide) _) fun _ => ?_
    refine keeps_bind .trans (keepsTables_setInt _ (by decide) _) fun _ => ?_
    refine keeps_bind .trans (keepsTables_setInt _ (by decide) _) fun _ => ?_
    exact keeps_forEach .refl .trans fun p _ => hfillSegment p
  | none =>
    refine keeps_bind .trans (keepsTables_newOf (by decide) _ _) fun header => ?_
    refine keeps_bind .trans (keepsTables_modifySelf _) fun _ => ?_
    refine keeps_bind .trans (keepsTables_reading _) fun _ => ?_
    exact keepsTables_setInt _ (by decide) _

theorem PartitionTableSection.keepsTables_setContent (flash : FlashContext) (offset : Int)
    (content : ContentSection) : Keeps KeepsTables (setContent flash offset content) := by
  refine keeps_bind .trans (FlashSection.keepsTables_setContent _ _) fun _ => ?_
  refine keeps_bind .trans (keeps_get .refl) fun _ => ?_
  refine keeps_bind .trans (keepsTables_modifySelf _) fun _ => ?_
  refine keeps_bind .trans (keepsTables_newParent _) fun topStruct => ?_
  refine keeps_bind .trans (keepsTables_modifySelf _) fun _ => ?_
  refine keeps_bind .trans (keepsTables_newOf (by decide) _ _) fun header => ?_
  refine keeps_bind .trans (keepsTables_modifySelf _) fun _ => ?_
  refine keeps_forEach .refl .trans fun _ _ => ?_
  exact keeps_bind .trans (keepsTables_newOf (by decide) _ _) fun _ => keepsTables_modifySelf _

theorem PartitionTableSection.keepsTables_finalize (views : List SectionView) :
    Keeps KeepsTables (finalize views) := by
  refine keeps_bind .trans (keeps_get .refl) fun s => ?_
  cases s.self.header with
  | none => exact keeps_throw _
  | some header =>
    refine keeps_bind .trans (keepsTables_setInt _ (by decide) _) fun _ => ?_
    refine keeps_bind .trans (keepsTables_setInt _ (by decide) _) fun _ => ?_
    refine keeps_bind .trans (keepsTables_setInt _ (by decide) _) fun _ => ?_
    refine keeps_forEach .refl .trans fun p _ => ?_
    refine keeps_bind .trans (keepsTables_setInt _ (by decide) _) fun _ => ?_
    cases (views.drop (s.sectionId + 1))[p.2]? with
    | none => exact keeps_throw _
    | some v =>
      refine keeps_bind .trans (keepsTables_setInt _ (by decide) _) fun _ => ?_
      refine keeps_bind .trans (keepsTables_setInt _ (by decide) _) fun _ => ?_
      refine keeps_bind .trans (keepsTables_setInt _ (by decide) _) fun _ => ?_
      refine keeps_bind .trans (keepsTables_reading _) fun size => ?_
      refine keeps_bind .trans (keepsTables_setInt _ (by decide) _) fun _ => ?_
      exact keepsTables_setBytes _ (by decide) _

theorem ReadfsSection.keepsTables_setContent (host : Host) (offset : Int)
    (content : ContentSection) : Keeps KeepsTables (setContent host offset content) := by
  have haddPaths : Keeps KeepsTables (addPaths host content) := by
    refine keeps_bind .trans (keepsTables_reading _) fun files => ?_
    refine keeps_bind .trans (keepsTables_reading _) fun _ => ?_
    refine keeps_bind .trans (keeps_forEach .refl .trans fun _ _ => ?_) fun _ => ?_
    · exact keeps_bind .trans (keepsTables_reading _) fun _ => keepsTables_modifySelf _
    refine keeps_bind .trans (keepsTables_reading _) fun dirs => ?_
    split
    · refine keeps_bind .trans (keepsTables_reading _) fun _ => ?_
      refine keeps_forEach .refl .trans fun _ _ => ?_
      refine keeps_bind .trans (keepsTables_reading _) fun d => ?_
      refine keeps_bind .trans (keepsTables_reading _) fun _ => ?_
      exact keeps_forEach .refl .trans fun _ _ => keepsTables_modifySelf _
    · exact keeps_pure .refl _
  have hfillFile : ∀ p, Keeps KeepsTables (fillFile host p) := by
    intro p
    refine keeps_bind .trans (keeps_get .refl) fun _ => ?_
    refine keeps_bind .trans (keepsTables_refAt _ _) fun _ => ?_
    refine keeps_bind .trans (keepsTables_refAt _ _) fun _ => ?_
    refine keeps_bind .trans (keepsTables_reading _) fun _ => ?_
    refine keeps_bind .trans (keepsTables_setInt _ (by decide) _) fun _ => ?_
    refine keeps_bind .trans (keepsTables_reading _) fun _ => ?_
    refine keeps_bind .trans (keepsTables_setInt _ (by decide) _) fun _ => ?_
    refine keeps_bind .trans (keepsTables_setInt _ (by decide) _) fun _ => ?_
    refine keeps_bind .trans (keepsTables_setBytes _ (by decide) _) fun _ => ?_
    refine keeps_bind .trans (keepsTables_reading _) fun _ => ?_
    exact keepsTables_setBytes _ (by decide) _
  refine keeps_bind .trans (FlashSection.keepsTables_setContent _ _) fun _ => ?_
  refine keeps_bind .trans haddPaths fun _ => ?_
  refine keeps_bind .trans (keepsTables_newParent _) fun topStruct => ?_
  refine keeps_bind .trans (keepsTables_modifySelf _) fun _ => ?_
  refine keeps_bind .trans (keepsTables_newOf (by decide) _ _) fun header => ?_
  refine keeps_bind .trans (keepsTables_modifySelf _) fun _ => ?_
  refine keeps_bind .trans (keeps_get .refl) fun _ => ?_
  refine keeps_bind .trans (keeps_forEach .refl .trans fun _ _ => ?_) fun _ => ?_
  · refine keeps_bind .trans (keepsTables_newOf ?_ _ _) fun _ => keepsTables_modifySelf _
    simp [ReadfsFileHeader.fields, FieldDecl.Suits, arrayNames]
  refine keeps_bind .trans (keeps_forEach .refl .trans fun _ _ => ?_) fun _ => ?_
  · refine keeps_bind .trans (keepsTables_reading _) fun size => ?_
    refine keeps_bind .trans (keepsTables_newOf ?_ _ _) fun _ => keepsTables_modifySelf _
    simp [ReadfsFile.fields, FieldDecl.Suits, arrayNames]
  refine keeps_bind .trans (keeps_get .refl) fun _ => ?_
  refine keeps_bind .trans (keepsTables_reading _) fun _ => ?_
  refine keeps_bind .trans (keepsTables_reading _) fun _ => ?_
  refine keeps_bind .trans (keepsTables_setInt _ (by decide) _) fun _ => ?_
  refine keeps_bind .trans (keepsTables_setInt _ (by decide) _) fun _ => ?_
  exact keeps_forEach .refl .trans fun p _ => hfillFile p

theorem HostfsSection.keepsTables_setContent (host : Host) (offset : Int)
    (content : ContentSection) : Keeps KeepsTables (setContent host offset content) := by
  refine keeps_bind .trans (FlashSection.keepsTables_setContent _ _) fun _ => ?_
  refine keeps_bind .trans (keepsTables_reading _) fun _ => ?_
  refine keeps_bind .trans (keepsTables_reading _) fun _ => ?_
  exact keeps_forEach .refl .trans fun _ _ => keepsTables_reading _

theorem LfsSection.keepsTables_setContent (host : Host) (flash : FlashContext) (offset : Int)
    (content : ContentSection) : Keeps KeepsTables (setContent host flash offset content) := by
  have hstore : ∀ header path, Keeps KeepsTables (do
      CStruct.setField header "data" (.bytes (← outcome (readImage host path))) :
        SectionM LfsAttrs Unit) := fun header path =>
    keeps_bind .trans (keepsTables_reading _) fun _ => keepsTables_setBytes _ (by decide) _
  refine keeps_bind .trans (FlashSection.keepsTables_setContent _ _) fun _ => ?_
  refine keeps_bind .trans ?_ fun _ => ?_
  · unfold realign
    cases flash.attributes.get "littlefs_align" with
    | none => exact keeps_pure .refl _
    | some align => exact keepsTables_modify fun _ => rfl
  refine keeps_bind .trans (keepsTables_newParent _) fun topStruct => ?_
  refine keeps_bind .trans ?_ fun size => ?_
  · refine keeps_bind .trans (keepsTables_reading _) fun _ => ?_
    refine keeps_bind .trans (keepsTables_modifySelf _) fun _ => ?_
    refine keeps_bind .trans (keepsTables_reading _) fun _ => ?_
    refine keeps_bind .trans (keepsTables_modifySelf _) fun _ => ?_
    refine keeps_bind .trans (keepsTables_reading _) fun _ => ?_
    refine keeps_bind .trans (keeps_get .refl) fun _ => ?_
    refine keeps_bind .trans (keepsTables_modifySelf _) fun _ => ?_
    refine keeps_bind .trans (keepsTables_reading _) fun _ => ?_
    exact keeps_bind .trans (keepsTables_modifySelf _) fun _ => keepsTables_reading _
  split
  · refine keeps_bind .trans (keepsTables_newOf ?_ _ _) fun header => ?_
    · simp [LfsHeader.fields, FieldDecl.Suits, arrayNames]
    refine keeps_bind .trans (keeps_get .refl) fun s => ?_
    dsimp only
    split
    · refine keeps_bind .trans (keepsTables_reading _) fun code => ?_
      split
      · exact keeps_bind .trans (keeps_throw _) fun _ => hstore _ _
      · exact hstore _ _
    · split
      · exact hstore _ _
      · exact keeps_pure .refl _
  · exact keeps_pure .refl _

theorem RawSection.keepsTables_setContent (flash : FlashContext) (offset : Int)
    (content : ContentSection) : Keeps KeepsTables (setContent flash offset content) := by
  refine keeps_bind .trans (FlashSection.keepsTables_setContent _ _) fun _ => ?_
  refine keeps_bind .trans (keepsTables_newParent _) fun topStruct => ?_
  refine keeps_bind .trans (keepsTables_reading _) fun _ => ?_
  refine keeps_bind .trans (keepsTables_reading _) fun _ => ?_
  refine keeps_bind .trans (keeps_get .refl) fun _ => ?_
  refine keeps_bind .trans (keepsTables_newStruct _ _) fun header => ?_
  refine keeps_bind .trans (keepsTables_reading _) fun size => ?_
  refine keeps_forEach .refl .trans fun d hd => keepsTables_declare _ ?_
  rw [List.mem_singleton.mp hd]
  simp [FieldDecl.Suits, arrayNames]

namespace Section

variable {host : Host} {s s' : Section}

theorem tabular_setContent {flash : FlashContext} {offset : Int} {content : ContentSection}
    (h : Returns (Section.setContent host flash offset content) s () s') (hs : s.base.Tabular) :
    s'.base.Tabular := by
  cases s with
  | rom s =>
    obtain ⟨t, ht, rfl⟩ := returns_within h
    exact RomFlashSection.keepsTables_setContent _ _ _ _ _ _ ht hs
  | partitionTable s =>
    obtain ⟨t, ht, rfl⟩ := returns_within h
    exact PartitionTableSection.keepsTables_setContent _ _ _ _ _ _ ht hs
  | readfs s =>
    obtain ⟨t, ht, rfl⟩ := returns_within h
    exact ReadfsSection.keepsTables_setContent _ _ _ _ _ _ ht hs
  | hostfs s =>
    obtain ⟨t, ht, rfl⟩ := returns_within h
    exact HostfsSection.keepsTables_setContent _ _ _ _ _ _ ht hs
  | lfs s =>
    obtain ⟨t, ht, rfl⟩ := returns_within h
    exact LfsSection.keepsTables_setContent _ _ _ _ _ _ _ ht hs
  | raw s =>
    obtain ⟨t, ht, rfl⟩ := returns_within h
    exact RawSection.keepsTables_setContent _ _ _ _ _ _ ht hs

theorem tabular_finalize {views : List SectionView}
    (h : Returns (Section.finalize views) s () s') (hs : s.base.Tabular) : s'.base.Tabular := by
  cases s with
  | partitionTable s =>
    obtain ⟨t, ht, rfl⟩ := returns_within h
    exact PartitionTableSection.keepsTables_finalize _ _ _ _ ht hs
  | rom s => cases h; exact hs
  | readfs s => cases h; exact hs
  | hostfs s => cases h; exact hs
  | lfs s => cases h; exact hs
  | raw s => cases h; exact hs

/-- Every section a flash can hold has its tables. -/
theorem Reachable.tabular (h : Reachable host s) : s.base.Tabular := by
  induction h with
  | new template name sectionId =>
    intro p hp
    rw [structs_new] at hp
    cases hp
  | setAlignments startAlign sizeAlign _ ih =>
    intro p hp
    rw [structs_setAlignments] at hp
    exact ih p hp
  | setContent _ hset ih => exact tabular_setContent hset ih
  | finalize _ hfinalize ih => exact tabular_finalize hfinalize ih

/-- The row of a section with a size. -/
theorem Reachable.layoutRow (h : Reachable host s) {size : Int} (hsize : s.getSize = .ok size)
    (level : Int) : ∃ row, Flash.layoutRow level s = .ok row := by
  obtain ⟨tables, htables⟩ := h.tabular.dumpTable (level - 1)
  unfold Flash.layoutRow
  rw [hsize]
  by_cases hlevel : 0 < level
  · simp only [bind, Except.bind, if_pos hlevel, htables]
    exact ⟨_, rfl⟩
  · simp only [bind, Except.bind, if_neg hlevel]
    exact ⟨_, rfl⟩

end Section

end SoftHier.Gapy
