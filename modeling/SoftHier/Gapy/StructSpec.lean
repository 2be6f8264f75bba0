/-
  Gapy/StructSpec.lean --- what the structures of a section are for.

  A `StructSpec` says what a structure contains and nothing about where it lies:
  its fields in order, each with its format and its value.  `structsOf` lays a
  list of them out from an offset, and `FlashSection.holding` is a section that
  holds exactly that.  The constructors and `set_field` of the source are
  operations on such lists, and packing does not depend on the offset.
-/
import SoftHier.Foundation.Lists
import SoftHier.Gapy.FlashSection

set_option autoImplicit false

namespace SoftHier.Gapy

open SoftHier.Foundation

/-! ## Specifications -/

/-- A field: name, format and value. -/
structure FieldSpec where
  name : String
  kind : FormatItem
  value : FieldValue
  deriving DecidableEq, Repr

/-- The number of bytes of a field. -/
def FieldSpec.size (f : FieldSpec) : Int := f.kind.size

/-- The bytes of a field. -/
def FieldSpec.pack (f : FieldSpec) : Except PyError Bytes := packItem f.kind f.value

/-- A structure: name, and fields with different names. -/
structure StructSpec where
  name : String
  fields : List FieldSpec
  nodup : (fields.map FieldSpec.name).Nodup

/-- The sum of the sizes of some fields. -/
def fieldsSize (fs : List FieldSpec) : Int := (fs.map FieldSpec.size).sum

namespace StructSpec

/-- The number of bytes of a structure. -/
def size (spec : StructSpec) : Int := fieldsSize spec.fields

/-- The bytes of a structure. -/
def pack (spec : StructSpec) : Except PyError Bytes := packAll FieldSpec.pack spec.fields

/-- Give a field its value. -/
def setIn (name : String) (value : FieldValue) (f : FieldSpec) : FieldSpec :=
  if f.name = name then { f with value := value } else f

theorem map_name_setIn (name : String) (value : FieldValue) (fs : List FieldSpec) :
    (fs.map (setIn name value)).map FieldSpec.name = fs.map FieldSpec.name := by
  rw [List.map_map]
  refine List.map_congr_left fun f _ => ?_
  simp only [Function.comp_apply, setIn]
  split <;> rfl

/-- `set_field`. -/
def set (name : String) (value : FieldValue) (spec : StructSpec) : StructSpec where
  name := spec.name
  fields := spec.fields.map (setIn name value)
  nodup := by rw [map_name_setIn]; exact spec.nodup

theorem setIn_size (name : String) (value : FieldValue) (f : FieldSpec) :
    (setIn name value f).size = f.size := by
  simp only [setIn, FieldSpec.size]
  split <;> rfl

theorem setIn_name (name : String) (value : FieldValue) (f : FieldSpec) :
    (setIn name value f).name = f.name := by
  simp only [setIn]
  split <;> rfl

@[simp] theorem size_set (name : String) (value : FieldValue) (spec : StructSpec) :
    (spec.set name value).size = spec.size := by
  simp only [size, set, fieldsSize, List.map_map]
  congr 1
  exact List.map_congr_left fun f _ => setIn_size name value f

@[simp] theorem name_set (name : String) (value : FieldValue) (spec : StructSpec) :
    (spec.set name value).name = spec.name := rfl

/-- The names of the fields. -/
def fieldNames (spec : StructSpec) : List String := spec.fields.map FieldSpec.name

@[simp] theorem fieldNames_set (name : String) (value : FieldValue) (spec : StructSpec) :
    (spec.set name value).fieldNames = spec.fieldNames := map_name_setIn name value spec.fields

end StructSpec

/-- The field a declaration creates. -/
def FieldDecl.toSpec : FieldDecl → FieldSpec
  | .field name format => ⟨name, .scalar format, .int 0⟩
  | .array name size => ⟨name, .bytes size, .bytes []⟩

/-- A freshly constructed structure. -/
def StructSpec.ofDecls (name : String) (fields : List FieldDecl)
    (nodup : ((fields.map FieldDecl.toSpec).map FieldSpec.name).Nodup) : StructSpec :=
  ⟨name, fields.map FieldDecl.toSpec, nodup⟩

/-- The sum of the sizes of some structures. -/
def specsSize (specs : List StructSpec) : Int := (specs.map StructSpec.size).sum

@[simp] theorem specsSize_nil : specsSize [] = 0 := rfl

@[simp] theorem specsSize_cons (spec : StructSpec) (specs : List StructSpec) :
    specsSize (spec :: specs) = spec.size + specsSize specs := rfl

@[simp] theorem specsSize_append (a b : List StructSpec) :
    specsSize (a ++ b) = specsSize a + specsSize b := by
  simp [specsSize, List.sum_append]

theorem specsSize_nonneg {specs : List StructSpec} (h : ∀ spec ∈ specs, 0 ≤ spec.size) :
    0 ≤ specsSize specs :=
  List.sum_nonneg fun x hx => by
    obtain ⟨spec, hspec, rfl⟩ := List.mem_map.mp hx
    exact h spec hspec

/-- Changing values in place changes no size. -/
theorem specsSize_modify {f : StructSpec → StructSpec} (hf : ∀ s, (f s).size = s.size)
    (specs : List StructSpec) (i : Nat) : specsSize (specs.modify i f) = specsSize specs := by
  induction specs generalizing i with
  | nil => simp
  | cons s specs ih =>
    cases i with
    | zero => simp [hf]
    | succ i => simp [ih]

/-! ## Laying structures out -/

/-- The entries of some fields laid out from an offset. -/
def fieldsAt : Int → List FieldSpec → List (String × CStructField)
  | _, [] => []
  | offset, f :: fs =>
      (f.name, { kind := f.kind, size := f.size, value := f.value, offset := offset }) ::
        fieldsAt (offset + f.size) fs

theorem map_fst_fieldsAt (offset : Int) (fs : List FieldSpec) :
    (fieldsAt offset fs).map Prod.fst = fs.map FieldSpec.name := by
  induction fs generalizing offset with
  | nil => rfl
  | cons f fs ih => simp [fieldsAt, ih]

theorem map_value_fieldsAt (offset : Int) (fs : List FieldSpec) :
    (fieldsAt offset fs).map (fun p => p.2.value) = fs.map FieldSpec.value := by
  induction fs generalizing offset with
  | nil => rfl
  | cons f fs ih => simp [fieldsAt, ih]

theorem fieldsAt_append (offset : Int) (a b : List FieldSpec) :
    fieldsAt offset (a ++ b) = fieldsAt offset a ++ fieldsAt (offset + fieldsSize a) b := by
  induction a generalizing offset with
  | nil => simp [fieldsAt, fieldsSize]
  | cons f a ih => simp [fieldsAt, ih, fieldsSize, Int.add_assoc]

/-- A structure laid out from an offset. -/
def structOf (offset : Int) (spec : StructSpec) : CStruct where
  name := spec.name
  fields := ⟨fieldsAt offset spec.fields, by rw [map_fst_fieldsAt]; exact spec.nodup⟩
  format := spec.fields.map FieldSpec.kind
  size := spec.size

/-- Structures laid out one after the other from an offset. -/
def structsOf : Int → List StructSpec → List CStruct
  | _, [] => []
  | offset, spec :: specs => structOf offset spec :: structsOf (offset + spec.size) specs

@[simp] theorem length_structsOf (offset : Int) (specs : List StructSpec) :
    (structsOf offset specs).length = specs.length := by
  induction specs generalizing offset with
  | nil => rfl
  | cons s specs ih => rw [structsOf, List.length_cons, List.length_cons, ih]

theorem structsOf_append (offset : Int) (a b : List StructSpec) :
    structsOf offset (a ++ b) = structsOf offset a ++ structsOf (offset + specsSize a) b := by
  induction a generalizing offset with
  | nil => simp [structsOf]
  | cons s a ih => simp [structsOf, ih, Int.add_assoc]

theorem getElem?_structsOf (offset : Int) (specs : List StructSpec) (i : Nat) :
    (structsOf offset specs)[i]? =
      specs[i]?.map fun spec => structOf (offset + specsSize (specs.take i)) spec := by
  induction specs generalizing offset i with
  | nil => rfl
  | cons s specs ih =>
    cases i with
    | zero => simp [structsOf]
    | succ i =>
      rw [structsOf, List.getElem?_cons_succ, ih, List.getElem?_cons_succ, List.take_succ_cons,
        specsSize_cons, Int.add_assoc]

theorem pack_structOf (offset : Int) (spec : StructSpec) :
    (structOf offset spec).pack = spec.pack := by
  have hvalues : (structOf offset spec).fields.values.map CStructField.value =
      spec.fields.map FieldSpec.value := by
    rw [Dict.values, List.map_map]
    exact map_value_fieldsAt offset spec.fields
  unfold CStruct.pack
  simp only [hvalues]
  rw [if_pos (by simp [structOf])]
  change packAll _ ((spec.fields.map FieldSpec.kind).zip (spec.fields.map FieldSpec.value)) = _
  unfold StructSpec.pack
  generalize spec.fields = fs
  induction fs with
  | nil => rfl
  | cons f fs ih =>
    rw [List.map_cons, List.map_cons, List.zip_cons_cons, packAll, packAll, ih]
    rfl

/-- Packing does not depend on where the structures lie. -/
theorem packAll_structsOf (offset : Int) (specs : List StructSpec) :
    packAll CStruct.pack (structsOf offset specs) = packAll StructSpec.pack specs := by
  induction specs generalizing offset with
  | nil => rfl
  | cons s specs ih => rw [structsOf, packAll, packAll, pack_structOf, ih]

/-! ## Setting values -/

theorem assign_fieldsAt {name : String} (value : FieldValue) {f : CStructField} :
    ∀ {fs : List FieldSpec} {offset : Int}, (fs.map FieldSpec.name).Nodup →
      Dict.lookup name (fieldsAt offset fs) = some f →
      Dict.assign name { f with value := value } (fieldsAt offset fs) =
        fieldsAt offset (fs.map (StructSpec.setIn name value)) := by
  intro fs
  induction fs with
  | nil => intro offset _ h; simp [fieldsAt, Dict.lookup] at h
  | cons g fs ih =>
    intro offset hn h
    rw [List.map_cons, List.nodup_cons] at hn
    rw [fieldsAt, Dict.lookup] at h
    rw [fieldsAt, Dict.assign, List.map_cons, fieldsAt, StructSpec.setIn_size,
      StructSpec.setIn_name]
    by_cases hg : g.name = name
    · rw [if_pos hg, Option.some.injEq] at h
      have hrest : fs.map (StructSpec.setIn name value) = fs := by
        refine (List.map_congr_left fun f' hf' => ?_).trans (List.map_id fs)
        have hne : f'.name ≠ name := fun e => hn.1 (List.mem_map.mpr ⟨f', hf', by rw [e, hg]⟩)
        rw [StructSpec.setIn, if_neg hne]
        rfl
      rw [if_pos hg, hrest, ← h, StructSpec.setIn, if_pos hg]
    · rw [if_neg hg] at h
      rw [if_neg hg, ih hn.2 h, StructSpec.setIn, if_neg hg]

/-- `set_field` on a laid out structure. -/
theorem structOf_set {offset : Int} {spec : StructSpec} {name : String} {value : FieldValue}
    {f : CStructField} (h : (structOf offset spec).fields.get name = some f) :
    ({ structOf offset spec with
        fields := (structOf offset spec).fields.set name { f with value := value } } : CStruct) =
      structOf offset (spec.set name value) := by
  have hentries := assign_fieldsAt value spec.nodup h
  have hformat : (spec.set name value).fields.map FieldSpec.kind =
      spec.fields.map FieldSpec.kind := by
    simp only [StructSpec.set, List.map_map]
    refine List.map_congr_left fun f _ => ?_
    simp only [Function.comp_apply, StructSpec.setIn]
    split <;> rfl
  simp only [structOf, StructSpec.size_set, StructSpec.name_set, hformat, CStruct.mk.injEq,
    true_and, and_true]
  exact Dict.ext_entries hentries

theorem get_structOf_isSome {spec : StructSpec} {name : String} (h : name ∈ spec.fieldNames)
    (offset : Int) :
    ∃ f, (structOf offset spec).fields.get name = some f := by
  refine Dict.mem_keys_iff.mp ?_
  rw [Dict.keys]
  change name ∈ (fieldsAt offset spec.fields).map Prod.fst
  rw [map_fst_fieldsAt]
  exact h

theorem structsOf_modify {f : StructSpec → StructSpec} {g : CStruct → CStruct} :
    ∀ (specs : List StructSpec) (offset : Int) (i : Nat),
      (∀ s, (f s).size = s.size) →
      (∀ spec off, specs[i]? = some spec → off = offset + specsSize (specs.take i) →
        g (structOf off spec) = structOf off (f spec)) →
      (structsOf offset specs).modify i g = structsOf offset (specs.modify i f) := by
  intro specs
  induction specs with
  | nil => intro offset i _ _; simp [structsOf]
  | cons s specs ih =>
    intro offset i hf hg
    cases i with
    | zero =>
      have h0 := hg s offset rfl (by simp)
      rw [structsOf, List.modify_zero_cons, List.modify_zero_cons, structsOf, h0, hf]
    | succ i =>
      rw [structsOf, List.modify_succ_cons, List.modify_succ_cons, structsOf]
      refine congrArg _ (ih (offset + s.size) i hf fun spec off hs ho => ?_)
      exact hg spec off hs (by rw [ho, List.take_succ_cons, specsSize_cons, Int.add_assoc])

end SoftHier.Gapy
