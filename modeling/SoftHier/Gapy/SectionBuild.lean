/-
  Gapy/SectionBuild.lean --- sections that hold specified structures.

  `s.holding t specs` is the section `s` with one more sub-section, whose
  structures are `specs` laid out from the section's own offset, and with the
  allocator standing right behind them.  Creating a structure appends a
  specification; `set_field` changes one in place.
-/
import SoftHier.Gapy.StructSpec

set_option autoImplicit false

namespace SoftHier.Gapy

open SoftHier.Foundation Program

variable {σ : Type}

namespace FlashSection

/-- The section with a sub-section of specified structures at its offset. -/
def holding (s : FlashSection σ) (t : String) (specs : List StructSpec) : FlashSection σ :=
  { s with
    structs := s.structs ++ [{ name := t, structs := structsOf s.offset specs }]
    currentOffset := s.offset + specsSize specs }

@[simp] theorem holding_offset (s : FlashSection σ) (t : String) (specs : List StructSpec) :
    (s.holding t specs).offset = s.offset := rfl
@[simp] theorem holding_self (s : FlashSection σ) (t : String) (specs : List StructSpec) :
    (s.holding t specs).self = s.self := rfl
@[simp] theorem holding_name (s : FlashSection σ) (t : String) (specs : List StructSpec) :
    (s.holding t specs).name = s.name := rfl
@[simp] theorem holding_sectionId (s : FlashSection σ) (t : String) (specs : List StructSpec) :
    (s.holding t specs).sectionId = s.sectionId := rfl
@[simp] theorem holding_properties (s : FlashSection σ) (t : String) (specs : List StructSpec) :
    (s.holding t specs).properties = s.properties := rfl

/-- The section with other attributes of its class. -/
def withSelf (s : FlashSection σ) (a : σ) : FlashSection σ := { s with self := a }

theorem returns_modifySelf_bind {α : Type} {f : σ → σ} {g : Unit → SectionM σ α}
    {s s' : FlashSection σ} {a : α} :
    Returns (modifySelf f >>= g) s a s' ↔ Returns (g ()) (s.withSelf (f s.self)) a s' := Iff.rfl

theorem withSelf_holding (s : FlashSection σ) (t : String) (specs : List StructSpec) (a : σ) :
    (s.holding t specs).withSelf a = (s.withSelf a).holding t specs := rfl

theorem withSelf_withSelf (s : FlashSection σ) (a b : σ) :
    (s.withSelf a).withSelf b = s.withSelf b := rfl

@[simp] theorem withSelf_structs (s : FlashSection σ) (a : σ) :
    (s.withSelf a).structs = s.structs := rfl

@[simp] theorem withSelf_offset (s : FlashSection σ) (a : σ) :
    (s.withSelf a).offset = s.offset := rfl

@[simp] theorem withSelf_self (s : FlashSection σ) (a : σ) : (s.withSelf a).self = a := rfl

theorem returns_modifySelf (f : σ → σ) (s : FlashSection σ) (t : String)
    (specs : List StructSpec) :
    Returns (modifySelf f) (s.holding t specs) () ((s.withSelf (f s.self)).holding t specs) := rfl

/-! ## Reading -/

theorem structAt_holding {s : FlashSection σ} {n : Nat} (hn : s.structs.length = n) (t : String)
    (specs : List StructSpec) (i : Nat) :
    (s.holding t specs).structAt ⟨n, i⟩ =
      specs[i]?.map fun spec => structOf (s.offset + specsSize (specs.take i)) spec := by
  subst hn
  simp only [structAt, holding, List.getElem?_append_right (le_refl _), Nat.sub_self,
    List.getElem?_cons_zero, Option.bind_some, getElem?_structsOf]

end FlashSection

/-! ## Starting a section -/

/-- A property with the value a content gives it, if any. -/
def FlashSectionProperty.given (p : FlashSectionProperty) (v : Option PyValue) :
    FlashSectionProperty :=
  { p with value := v.getD p.value }

namespace FlashSection

/-- The section as `FlashSection.set_content` leaves it. -/
def started (s : FlashSection σ) (properties : Dict String FlashSectionProperty) (offset : Int) :
    FlashSection σ :=
  { s with properties := properties, offset := offset, currentOffset := offset }

theorem returns_setProperties :
    ∀ {entries : List (String × PyValue)} {s s' : FlashSection σ},
      (entries.map Prod.fst).Nodup → Returns (forEach setProperty entries) s () s' →
      ∃ properties, s' = { s with properties := properties } ∧
        ∀ name, properties.get name =
          (s.properties.get name).map fun p => p.given (Dict.lookup name entries) := by
  intro entries
  induction entries with
  | nil =>
    intro s s' _ h
    refine ⟨s.properties, (returns_forEach_nil.mp h).symm, fun name => ?_⟩
    cases s.properties.get name <;> rfl
  | cons e entries ih =>
    obtain ⟨key, value⟩ := e
    intro s s' hn h
    rw [List.map_cons, List.nodup_cons] at hn
    obtain ⟨t, hone, hrest⟩ := returns_forEach_cons.mp h
    rw [setProperty, returns_get_bind] at hone
    simp only at hone
    split at hone
    · exact absurd hone not_returns_throw
    next p hp =>
      have ht := returns_set.mp hone
      obtain ⟨properties, rfl, hget⟩ := ih hn.2 hrest
      subst ht
      refine ⟨properties, rfl, fun name => ?_⟩
      rw [hget, Dict.get_set, Dict.lookup]
      by_cases hname : key = name
      · subst hname
        rw [if_pos rfl, if_pos rfl, hp, Dict.lookup_eq_none_iff.mpr hn.1]
        rfl
      · rw [if_neg hname, if_neg hname]

/-- Where a section starts when its content is set at an offset. -/
def startOffset (s : FlashSection σ) (offset : Int) : Int :=
  match s.startAlign with
  | some startAlign => alignUp offset startAlign
  | none => offset

/-- `FlashSection.set_content` sets the properties the content gives and moves
the section to its aligned offset. -/
theorem returns_setContent {s s' : FlashSection σ} {offset : Int} {content : ContentSection}
    (h : Returns (FlashSection.setContent offset content) s () s') :
    ∃ properties, s' = s.started properties (s.startOffset offset) ∧
      ∀ name, properties.get name =
        (s.properties.get name).map fun p =>
          p.given (content.properties.bind fun d => d.get name) := by
  -- the property loop first, then the offset
  have hparts : ∃ t, (∃ properties, t = { s with properties := properties } ∧
      ∀ name, properties.get name =
        (s.properties.get name).map fun p =>
          p.given (content.properties.bind fun d => d.get name)) ∧
      Returns (do
        let s ← get
        match s.startAlign with
        | some startAlign => setOffset (alignUp offset startAlign)
        | none => setOffset offset) t () s' := by
    unfold FlashSection.setContent at h
    cases hc : content.properties with
    | none =>
      rw [hc] at h
      refine ⟨s, ⟨s.properties, rfl, fun name => ?_⟩, h⟩
      cases s.properties.get name <;> rfl
    | some d =>
      rw [hc] at h
      obtain ⟨_, t, hset, hrest⟩ := returns_bind.mp h
      exact ⟨t, returns_setProperties d.nodup hset, hrest⟩
  obtain ⟨t, ⟨properties, rfl, hget⟩, hrest⟩ := hparts
  rw [returns_get_bind] at hrest
  refine ⟨properties, ?_, hget⟩
  unfold startOffset started
  cases ha : s.startAlign with
  | none =>
    simp only [ha] at hrest
    exact (returns_modify.mp hrest).symm
  | some a =>
    simp only [ha] at hrest
    exact (returns_modify.mp hrest).symm

@[simp] theorem started_currentOffset (s : FlashSection σ)
    (properties : Dict String FlashSectionProperty) (offset : Int) :
    (s.started properties offset).currentOffset = (s.started properties offset).offset := rfl

end FlashSection

open FlashSection

/-! ## Creating structures -/

theorem returns_newParent {s : FlashSection σ} (h : s.currentOffset = s.offset) (t : String) :
    Returns (CStructParent.new t) s s.structs.length (s.holding t []) := by
  have hstate : s.holding t [] =
      { s with structs := s.structs ++ [({ name := t } : CStructParent)] } := by
    simp only [holding, structsOf, specsSize_nil, Int.add_zero, ← h]
  rw [hstate]
  rfl

/-- A section whose last structure is still getting its fields: `c` is the
structure so far, the allocator stands at `cur`. -/
def FlashSection.building (s : FlashSection σ) (t : String) (specs : List StructSpec) (c : CStruct)
    (cur : Int) : FlashSection σ :=
  { s with
    structs := s.structs ++ [{ name := t, structs := structsOf s.offset specs ++ [c] }]
    currentOffset := cur }

theorem returns_newStruct (s : FlashSection σ) (t : String) (specs : List StructSpec)
    (name : String) :
    Returns (CStruct.new name s.structs.length) (s.holding t specs)
      ⟨s.structs.length, specs.length⟩
      (s.building t specs { name := name } (s.offset + specsSize specs)) := by
  have hparent : (s.holding t specs).structs[s.structs.length]? =
      some { name := t, structs := structsOf s.offset specs } := by
    simp [holding]
  unfold CStruct.new
  refine Returns.bind (returns_get.mpr ⟨rfl, rfl⟩) ?_
  refine Returns.bind (a := PUnit.unit) (returns_set.mpr rfl) ?_
  rw [returns_pure, hparent]
  refine ⟨by simp, ?_⟩
  simp only [holding, building, modify_length_append]

theorem returns_update_building (s : FlashSection σ) (t : String) (specs : List StructSpec)
    (c : CStruct) (cur : Int) (f : CStruct → CStruct) :
    Returns (CStruct.update ⟨s.structs.length, specs.length⟩ f) (s.building t specs c cur) ()
      (s.building t specs (f c) cur) := by
  have hmodify : (structsOf s.offset specs ++ [c]).modify specs.length f =
      structsOf s.offset specs ++ [f c] := by
    have h := modify_length_append (structsOf s.offset specs) c [] f
    rwa [length_structsOf] at h
  unfold CStruct.update
  rw [returns_modify]
  simp only [building, modify_length_append, hmodify]

theorem returns_declare (s : FlashSection σ) (t : String) (specs : List StructSpec) (c : CStruct)
    (cur : Int) (d : FieldDecl) :
    Returns (d.declare ⟨s.structs.length, specs.length⟩) (s.building t specs c cur) ()
      (s.building t specs
        (c.append d.toSpec.name
          { kind := d.toSpec.kind, size := d.toSpec.size, value := d.toSpec.value, offset := cur })
        (cur + d.toSpec.size)) := by
  cases d with
  | field name format =>
    refine Returns.bind (a := cur) (t := s.building t specs c (cur + format.size)) ?_ ?_
    · exact rfl
    · exact returns_update_building s t specs c _ _
  | array name size =>
    refine Returns.bind (a := cur) (t := s.building t specs c (cur + size.toInt)) ?_ ?_
    · exact rfl
    · exact returns_update_building s t specs c _ _

theorem append_structOf {name : String} {offset : Int} {fs : List FieldSpec} {f : FieldSpec}
    (hn : ((fs ++ [f]).map FieldSpec.name).Nodup)
    (hn' : (fs.map FieldSpec.name).Nodup) :
    (structOf offset ⟨name, fs, hn'⟩).append f.name
        { kind := f.kind, size := f.size, value := f.value, offset := offset + fieldsSize fs } =
      structOf offset ⟨name, fs ++ [f], hn⟩ := by
  have hnot : f.name ∉ (structOf offset ⟨name, fs, hn'⟩).fields.keys := by
    rw [Dict.keys]
    change f.name ∉ (fieldsAt offset fs).map Prod.fst
    rw [map_fst_fieldsAt]
    rw [List.map_append, List.nodup_append] at hn
    exact fun hm => hn.2.2 _ hm _ (by simp) rfl
  have hentries := Dict.entries_set_of_not_mem
    ({ kind := f.kind, size := f.size, value := f.value, offset := offset + fieldsSize fs } :
      CStructField) hnot
  simp only [CStruct.append, structOf, StructSpec.size, fieldsSize, List.map_append, List.map_cons,
    List.map_nil, List.sum_append, List.sum_cons, List.sum_nil, Int.add_zero, CStruct.mk.injEq,
    true_and, and_true]
  refine Dict.ext_entries ?_
  change _ = fieldsAt offset (fs ++ [f])
  rw [fieldsAt_append]
  exact hentries

/-- The fields some calls add one after the other, from where the allocator stands. -/
def fieldsFrom {α : Type} (toSpec : Int → α → FieldSpec) : Int → List α → List FieldSpec
  | _, [] => []
  | cur, x :: xs => toSpec cur x :: fieldsFrom toSpec (cur + (toSpec cur x).size) xs

theorem fieldsFrom_const {α : Type} (toSpec : α → FieldSpec) (cur : Int) (xs : List α) :
    fieldsFrom (fun _ => toSpec) cur xs = xs.map toSpec := by
  induction xs generalizing cur with
  | nil => rfl
  | cons x xs ih => rw [fieldsFrom, ih, List.map_cons]

theorem fieldsFrom_append {α : Type} (toSpec : Int → α → FieldSpec) (cur : Int) (xs ys : List α) :
    fieldsFrom toSpec cur (xs ++ ys) = fieldsFrom toSpec cur xs ++
      fieldsFrom toSpec (cur + fieldsSize (fieldsFrom toSpec cur xs)) ys := by
  induction xs generalizing cur with
  | nil => simp [fieldsFrom, fieldsSize]
  | cons x xs ih =>
    rw [List.cons_append, fieldsFrom, fieldsFrom, ih, List.cons_append, fieldsSize, fieldsSize,
      List.map_cons, List.sum_cons, Int.add_assoc]

section Calls

variable {α : Type} {s : FlashSection σ} {t : String} {specs : List StructSpec}
  {body : α → SectionM σ Unit} (toSpec : Int → α → FieldSpec)

/-- Calls that each append a field to the structure. -/
theorem returns_forEach_append (name : String) {offset : Int}
    (hbody : ∀ x c cur, Returns (body x) (s.building t specs c cur) ()
      (s.building t specs
        (c.append (toSpec cur x).name
          { kind := (toSpec cur x).kind, size := (toSpec cur x).size, value := (toSpec cur x).value,
            offset := cur })
        (cur + (toSpec cur x).size))) :
    ∀ (xs : List α) (fs : List FieldSpec)
      (hn : ((fs ++ fieldsFrom toSpec (offset + fieldsSize fs) xs).map FieldSpec.name).Nodup)
      (hn' : (fs.map FieldSpec.name).Nodup),
      Returns (forEach body xs)
        (s.building t specs (structOf offset ⟨name, fs, hn'⟩) (offset + fieldsSize fs)) ()
        (s.building t specs
          (structOf offset ⟨name, fs ++ fieldsFrom toSpec (offset + fieldsSize fs) xs, hn⟩)
          (offset + fieldsSize (fs ++ fieldsFrom toSpec (offset + fieldsSize fs) xs))) := by
  intro xs
  induction xs with
  | nil =>
    intro fs hn hn'
    rw [returns_forEach_nil]
    simp [fieldsFrom]
  | cons x xs ih =>
    intro fs hn hn'
    obtain ⟨f, hf⟩ : ∃ f, f = toSpec (offset + fieldsSize fs) x := ⟨_, rfl⟩
    have hsize : offset + fieldsSize (fs ++ [f]) = offset + fieldsSize fs + f.size := by
      simp [fieldsSize, Int.add_assoc]
    have happ : fs ++ fieldsFrom toSpec (offset + fieldsSize fs) (x :: xs) =
        (fs ++ [f]) ++ fieldsFrom toSpec (offset + fieldsSize (fs ++ [f])) xs := by
      rw [fieldsFrom, ← hf, hsize, List.append_assoc, List.singleton_append]
    have hn₁ : ((fs ++ [f]).map FieldSpec.name).Nodup := by
      rw [happ, List.map_append] at hn
      exact (List.nodup_append.mp hn).1
    have hstep := hbody x (structOf offset ⟨name, fs, hn'⟩) (offset + fieldsSize fs)
    rw [← hf, append_structOf hn₁ hn', ← hsize] at hstep
    refine returns_forEach_cons.mpr ⟨_, hstep, ?_⟩
    have hrest := ih (fs ++ [f]) (by rw [← happ]; exact hn) hn₁
    simp only [← happ] at hrest
    exact hrest

/-- All fields of a new structure. -/
theorem returns_forEach_build
    (hbody : ∀ x c cur, Returns (body x) (s.building t specs c cur) ()
      (s.building t specs
        (c.append (toSpec cur x).name
          { kind := (toSpec cur x).kind, size := (toSpec cur x).size, value := (toSpec cur x).value,
            offset := cur })
        (cur + (toSpec cur x).size)))
    (name : String) (xs : List α)
    (nodup : ((fieldsFrom toSpec (s.offset + specsSize specs) xs).map FieldSpec.name).Nodup) :
    Returns (forEach body xs)
      (s.building t specs { name := name } (s.offset + specsSize specs)) ()
      (s.holding t
        (specs ++ [⟨name, fieldsFrom toSpec (s.offset + specsSize specs) xs, nodup⟩])) := by
  have hfields : fieldsFrom toSpec (s.offset + specsSize specs + fieldsSize []) xs =
      fieldsFrom toSpec (s.offset + specsSize specs) xs := by
    rw [fieldsSize, List.map_nil, List.sum_nil, Int.add_zero]
  have hrun := returns_forEach_append toSpec name hbody xs []
    (by rw [List.nil_append, hfields]; exact nodup) List.nodup_nil
  simp only [List.nil_append, fieldsSize, List.map_nil, List.sum_nil, Int.add_zero] at hrun
  have hstate : ∀ spec : StructSpec,
      s.building t specs (structOf (s.offset + specsSize specs) spec)
        (s.offset + specsSize specs + spec.size) = s.holding t (specs ++ [spec]) := by
    intro spec
    simp only [building, holding, structsOf_append, structsOf, specsSize_append, specsSize_cons,
      specsSize_nil, Int.add_zero, Int.add_assoc]
  rw [← hstate]
  exact hrun

end Calls

/-- The constructor of a structure class appends its specification. -/
theorem returns_newOf {s : FlashSection σ} {t : String} {specs : List StructSpec} {n : Nat}
    (hn : s.structs.length = n) (fields : List FieldDecl) (name : String)
    (nodup : ((fields.map FieldDecl.toSpec).map FieldSpec.name).Nodup) :
    Returns (CStruct.newOf fields name n) (s.holding t specs) ⟨n, specs.length⟩
      (s.holding t (specs ++ [StructSpec.ofDecls name fields nodup])) := by
  subst hn
  refine Returns.bind (returns_newStruct s t specs name) ?_
  have hfields := fieldsFrom_const FieldDecl.toSpec (s.offset + specsSize specs) fields
  have hdecl := returns_forEach_build (fun _ => FieldDecl.toSpec)
    (fun d c cur => returns_declare s t specs c cur d) name fields (by rw [hfields]; exact nodup)
  simp only [hfields] at hdecl
  exact Returns.bind hdecl (returns_pure.mpr ⟨rfl, rfl⟩)

/-- Create a structure and file its reference. -/
theorem returns_newOf_filed {s : FlashSection σ} {t : String} {specs : List StructSpec} {n : Nat}
    (hn : s.structs.length = n) (fields : List FieldDecl) (name : String)
    (nodup : ((fields.map FieldDecl.toSpec).map FieldSpec.name).Nodup) (f : CStructRef → σ → σ) :
    Returns (do
        let r ← CStruct.newOf fields name n
        modifySelf (f r)) (s.holding t specs) ()
      ((s.withSelf (f ⟨n, specs.length⟩ s.self)).holding t
        (specs ++ [StructSpec.ofDecls name fields nodup])) :=
  Returns.bind (returns_newOf hn fields name nodup) (returns_modifySelf _ s t _)

/-! ## Setting values -/

/-- `set_field` changes one specification in place. -/
theorem returns_setField {s : FlashSection σ} {t : String} {specs : List StructSpec} {n i : Nat}
    {name : String} {spec : StructSpec} (hn : s.structs.length = n) (value : FieldValue)
    (hspec : specs[i]? = some spec) (hname : name ∈ spec.fieldNames) :
    Returns (CStruct.setField ⟨n, i⟩ name value) (s.holding t specs) ()
      (s.holding t (specs.modify i (StructSpec.set name value))) := by
  obtain ⟨f, hf⟩ := get_structOf_isSome hname (s.offset + specsSize (specs.take i))
  have hlookup : ((s.holding t specs).structAt ⟨n, i⟩).bind (fun c => c.fields.get name) =
      some f := by
    rw [structAt_holding hn, hspec]
    exact hf
  have hmodify : (structsOf s.offset specs).modify i
      (fun c => { c with fields := c.fields.set name { f with value := value } }) =
      structsOf s.offset (specs.modify i (StructSpec.set name value)) := by
    refine structsOf_modify specs s.offset i (StructSpec.size_set name value) ?_
    intro spec' off hspec' hoff
    rw [hspec, Option.some.injEq] at hspec'
    subst hspec'
    subst hoff
    exact structOf_set hf
  have hsize : specsSize (specs.modify i (StructSpec.set name value)) = specsSize specs :=
    specsSize_modify (StructSpec.size_set name value) specs i
  subst hn
  rw [CStruct.setField, returns_get_bind, hlookup]
  unfold CStruct.update
  rw [returns_modify]
  simp only [holding, modify_length_append, hmodify, hsize]

/-- One structure got new values; the others and all sizes are as before. -/
structure SetAt (specs : List StructSpec) (i : Nat) (spec : StructSpec)
    (specs' : List StructSpec) : Prop where
  at_index : specs'[i]? = some spec
  others : ∀ j, j ≠ i → specs'[j]? = specs[j]?
  sizes : specs'.map StructSpec.size = specs.map StructSpec.size

theorem SetAt.trans {specs specs' specs'' : List StructSpec} {i : Nat} {spec spec' : StructSpec}
    (h : SetAt specs i spec specs') (h' : SetAt specs' i spec' specs'') :
    SetAt specs i spec' specs'' :=
  ⟨h'.at_index, fun j hj => (h'.others j hj).trans (h.others j hj), h'.sizes.trans h.sizes⟩

theorem setAt_modify {specs : List StructSpec} {i : Nat} {spec : StructSpec} (name : String)
    (value : FieldValue) (hspec : specs[i]? = some spec) :
    SetAt specs i (spec.set name value) (specs.modify i (StructSpec.set name value)) where
  at_index := by rw [List.getElem?_modify_eq, hspec]; rfl
  others j hj := List.getElem?_modify_ne _ _ (Ne.symm hj)
  sizes := map_modify_of_eq fun x _ => StructSpec.size_set name value x

/-- A `set_field` that was reached has changed one structure. -/
theorem setField_inv {s s' : FlashSection σ} {t : String} {specs : List StructSpec} {n i : Nat}
    {name : String} {value : FieldValue} {spec : StructSpec} (hn : s.structs.length = n)
    (hspec : specs[i]? = some spec) (hname : name ∈ spec.fieldNames)
    (h : Returns (CStruct.setField ⟨n, i⟩ name value) (s.holding t specs) () s') :
    ∃ specs', SetAt specs i (spec.set name value) specs' ∧ s' = s.holding t specs' :=
  ⟨_, setAt_modify name value hspec, (h.unique (returns_setField hn value hspec hname)).2⟩

/-- The same, with the rest of the method. -/
theorem setField_bind_inv {α : Type} {s s' : FlashSection σ} {t : String} {specs : List StructSpec}
    {n i : Nat} {name : String} {value : FieldValue} {spec : StructSpec}
    {rest : Unit → SectionM σ α} {a : α} (hn : s.structs.length = n)
    (hspec : specs[i]? = some spec) (hname : name ∈ spec.fieldNames)
    (h : Returns (CStruct.setField ⟨n, i⟩ name value >>= rest) (s.holding t specs) a s') :
    ∃ specs', SetAt specs i (spec.set name value) specs' ∧
      Returns (rest ()) (s.holding t specs') a s' :=
  ⟨_, setAt_modify name value hspec, (returns_setField hn value hspec hname).advance h⟩

/-- One more value for a structure that already got some. -/
theorem SetAt.bind_inv {α : Type} {s s' : FlashSection σ} {t : String}
    {specs specs₁ : List StructSpec} {n i : Nat} {name : String} {value : FieldValue}
    {spec : StructSpec} {rest : Unit → SectionM σ α} {a : α} (h₁ : SetAt specs i spec specs₁)
    (hn : s.structs.length = n) (hname : name ∈ spec.fieldNames)
    (h : Returns (CStruct.setField ⟨n, i⟩ name value >>= rest) (s.holding t specs₁) a s') :
    ∃ specs₂, SetAt specs i (spec.set name value) specs₂ ∧
      Returns (rest ()) (s.holding t specs₂) a s' := by
  obtain ⟨specs₂, h₂, hrest⟩ := setField_bind_inv hn h₁.at_index hname h
  exact ⟨specs₂, h₁.trans h₂, hrest⟩

theorem specsSize_take_congr {specs specs' : List StructSpec}
    (h : specs'.map StructSpec.size = specs.map StructSpec.size) (i : Nat) :
    specsSize (specs'.take i) = specsSize (specs.take i) := by
  unfold specsSize
  rw [List.map_take, List.map_take, h]

/-- Reading the offset of a structure's first field: the offset of the section
and the structures before. -/
theorem returns_fieldOffset_head {s : FlashSection σ} {t : String} {specs : List StructSpec}
    {n i : Nat} {spec : StructSpec} {f : FieldSpec} {fs : List FieldSpec}
    (hn : s.structs.length = n) (hspec : specs[i]? = some spec) (hfields : spec.fields = f :: fs) :
    Returns (CStruct.fieldOffset ⟨n, i⟩ f.name) (s.holding t specs)
      (s.offset + specsSize (specs.take i)) (s.holding t specs) := by
  unfold CStruct.fieldOffset
  rw [returns_reading, structAt_holding hn, hspec]
  have hget : (structOf (s.offset + specsSize (specs.take i)) spec).fields.get f.name =
      some { kind := f.kind, size := f.size, value := f.value,
             offset := s.offset + specsSize (specs.take i) } := by
    change Dict.lookup f.name (fieldsAt _ spec.fields) = _
    rw [hfields, fieldsAt, Dict.lookup, if_pos rfl]
  simp only [Option.map_some, Option.bind_some, hget, and_self]

theorem returns_read {α : Type} {s : FlashSection σ} {t : String} {specs : List StructSpec}
    {n i : Nat} {spec : StructSpec} (hn : s.structs.length = n) (f : CStruct → α)
    (hspec : specs[i]? = some spec) :
    Returns (CStruct.read ⟨n, i⟩ f) (s.holding t specs)
      (f (structOf (s.offset + specsSize (specs.take i)) spec)) (s.holding t specs) := by
  unfold CStruct.read
  rw [returns_reading, structAt_holding hn, hspec]
  exact ⟨rfl, rfl⟩

/-! ## Loops that create structures -/

/-- The references to `k` structures of a sub-section from an index on. -/
def refsFrom (parent index k : Nat) : List CStructRef :=
  (List.range' index k).map fun i => ⟨parent, i⟩

theorem refsFrom_succ (parent index k : Nat) :
    refsFrom parent index (k + 1) = ⟨parent, index⟩ :: refsFrom parent (index + 1) k := by
  simp [refsFrom, List.range'_succ]

theorem getElem?_refsFrom {parent index k i : Nat} (h : i < k) :
    (refsFrom parent index k)[i]? = some ⟨parent, index + i⟩ := by
  simp [refsFrom, h]

@[simp] theorem length_refsFrom (parent index k : Nat) :
    (refsFrom parent index k).length = k := by
  simp [refsFrom]

/-- A loop whose body creates one structure and files its reference in the
section.  `file` files several references at once. -/
theorem returns_forEach_create {α : Type} {body : α → SectionM σ Unit} {t : String} {n : Nat}
    (P : α → StructSpec → Prop) (file : List CStructRef → σ → σ)
    (hnil : ∀ a, file [] a = a) (hcons : ∀ r rs a, file (r :: rs) a = file rs (file [r] a))
    (hbody : ∀ x (s s' : FlashSection σ) specs, s.structs.length = n →
      Returns (body x) (s.holding t specs) () s' →
      ∃ spec, P x spec ∧
        s' = (s.withSelf (file [⟨n, specs.length⟩] s.self)).holding t (specs ++ [spec])) :
    ∀ {xs : List α} {s s' : FlashSection σ} {specs : List StructSpec}, s.structs.length = n →
      Returns (forEach body xs) (s.holding t specs) () s' →
      ∃ created, List.Forall₂ P xs created ∧
        s' = (s.withSelf (file (refsFrom n specs.length xs.length) s.self)).holding t
          (specs ++ created) := by
  intro xs
  induction xs with
  | nil =>
    intro s s' specs _ h
    refine ⟨[], List.Forall₂.nil, ?_⟩
    rw [← returns_forEach_nil.mp h, List.append_nil]
    change _ = (s.withSelf (file [] s.self)).holding t specs
    rw [hnil]
    rfl
  | cons x xs ih =>
    intro s s' specs hlen h
    obtain ⟨t', hone, hrest⟩ := returns_forEach_cons.mp h
    obtain ⟨spec, hspec, rfl⟩ := hbody x s t' specs hlen hone
    have hlen' : (s.withSelf (file [⟨n, specs.length⟩] s.self)).structs.length = n := hlen
    obtain ⟨created, hcreated, rfl⟩ := ih hlen' hrest
    refine ⟨spec :: created, List.Forall₂.cons hspec hcreated, ?_⟩
    have hfile : file (refsFrom n specs.length (x :: xs).length) s.self =
        file (refsFrom n (specs ++ [spec]).length xs.length) (file [⟨n, specs.length⟩] s.self) := by
      rw [List.length_cons, refsFrom_succ, hcons, List.length_append]
      rfl
    rw [hfile, List.append_assoc]
    rfl

end SoftHier.Gapy
