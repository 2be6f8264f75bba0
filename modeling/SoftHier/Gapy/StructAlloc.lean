/-
  Gapy/StructAlloc.lean --- structures built field by field, and their bytes.

  `add_field`, `add_field_array` and `add_padding` take an offset from the
  allocator of the section and append one item to the format of the structure;
  `pack` knows the format only.  A sub-section is built structure by structure,
  with values set in between, and the offsets that were handed out are the
  places of the fields in the packed bytes.
-/
import SoftHier.Gapy.ReadBack

set_option autoImplicit false

namespace SoftHier.Gapy

open SoftHier.Foundation Program FlashSection

variable {σ : Type}

/-! ## Building a sub-section -/

/-- A call that adds a field to a structure; an alignment is a power of two. -/
inductive FieldCall where
  | addField (name : String) (format : ScalarFormat)
  | addFieldArray (name : String) (size : Nat)
  | addPadding (name : String) (k : Nat)
  deriving DecidableEq, Repr

namespace FieldCall

/-- The name of the field. -/
def name : FieldCall → String
  | addField name _ => name
  | addFieldArray name _ => name
  | addPadding name _ => name

def run (r : CStructRef) : FieldCall → SectionM σ Unit
  | addField name format => CStruct.addField r name format
  | addFieldArray name size => CStruct.addFieldArray r name (.int size)
  | addPadding name k => CStruct.addPadding r name (2 ^ k)

/-- The field the call adds when the allocator stands at `cur`. -/
def toSpec (cur : Int) : FieldCall → FieldSpec
  | addField name format => ⟨name, .scalar format, .int 0⟩
  | addFieldArray name size => ⟨name, .bytes (.int size), .bytes []⟩
  | addPadding name k => ⟨name, .bytes (.int (alignUp cur (2 ^ k) - cur)), .bytes []⟩

theorem toSpec_name (cur : Int) (d : FieldCall) : (d.toSpec cur).name = d.name := by
  cases d <;> rfl

/-- The field behind a padding is aligned. -/
theorem dvd_add_padding (name : String) (k : Nat) (cur : Int) :
    (2 : Int) ^ k ∣ cur + ((addPadding name k).toSpec cur).size := by
  change (2 : Int) ^ k ∣ cur + (alignUp cur (2 ^ k) - cur)
  rw [Int.add_comm, Int.sub_add_cancel]
  exact dvd_alignUp_two_pow cur k

end FieldCall

/-- A structure that is built completely: its name, and the calls that add its
fields. -/
structure StructBuild where
  name : String
  calls : List FieldCall
  nodup : (calls.map FieldCall.name).Nodup

/-- Something done with a sub-section: a structure is created and built, or a value of
the structure at `index` is set. -/
inductive ParentStep where
  | build (b : StructBuild)
  | setField (index : Nat) (name : String) (value : FieldValue)

def ParentStep.run (parent : Nat) : ParentStep → SectionM σ Unit
  | build b => do
    let r ← CStruct.new b.name parent
    forEach (FieldCall.run r) b.calls
  | setField index name value => CStruct.setField ⟨parent, index⟩ name value

/-- A sub-section of a section that starts at `offset`; the index of the sub-section is
returned. -/
def buildParent (offset : Int) (name : String) (steps : List ParentStep) : SectionM σ Nat := do
  setOffset offset
  let parent ← CStructParent.new name
  forEach (ParentStep.run parent) steps
  pure parent

/-- The structures that are built, in order. -/
def builds (steps : List ParentStep) : List StructBuild :=
  steps.filterMap fun
    | .build b => some b
    | .setField _ _ _ => none

/-! ## What a step does -/

variable {s s' : FlashSection σ} {t : String} {specs : List StructSpec} {n : Nat}

theorem returns_fieldCall (c : CStruct) (cur : Int) (d : FieldCall) :
    Returns (d.run ⟨s.structs.length, specs.length⟩) (s.building t specs c cur) ()
      (s.building t specs
        (c.append (d.toSpec cur).name
          { kind := (d.toSpec cur).kind, size := (d.toSpec cur).size, value := (d.toSpec cur).value,
            offset := cur })
        (cur + (d.toSpec cur).size)) := by
  cases d with
  | addField name format =>
    refine Returns.bind (a := cur) (t := s.building t specs c (cur + format.size)) ?_ ?_
    · exact rfl
    · exact returns_update_building s t specs c _ _
  | addFieldArray name size =>
    refine Returns.bind (a := cur) (t := s.building t specs c (cur + size)) ?_ ?_
    · exact rfl
    · exact returns_update_building s t specs c _ _
  | addPadding name k =>
    have hend : cur + (alignUp cur (2 ^ k) - cur) = alignUp cur (2 ^ k) := by omega
    refine Returns.bind (a := s.building t specs c cur) (returns_get.mpr ⟨rfl, rfl⟩) ?_
    refine Returns.bind (a := alignUp cur (2 ^ k) - cur)
      (t := s.building t specs c (alignUp cur (2 ^ k))) ?_ ?_
    · exact rfl
    · change Returns _ _ () (s.building t specs _ (cur + (alignUp cur (2 ^ k) - cur)))
      rw [hend]
      exact returns_update_building s t specs c _ _

theorem map_name_fieldsFrom (cur : Int) (calls : List FieldCall) :
    (fieldsFrom FieldCall.toSpec cur calls).map FieldSpec.name = calls.map FieldCall.name := by
  induction calls generalizing cur with
  | nil => rfl
  | cons d calls ih =>
    rw [fieldsFrom, List.map_cons, List.map_cons, ih, FieldCall.toSpec_name]

/-- The structure that is built where the allocator stands at `cur`. -/
def StructBuild.specAt (cur : Int) (b : StructBuild) : StructSpec where
  name := b.name
  fields := fieldsFrom FieldCall.toSpec cur b.calls
  nodup := by rw [map_name_fieldsFrom]; exact b.nodup

theorem returns_build (hn : s.structs.length = n) (b : StructBuild) :
    Returns ((ParentStep.build b).run n) (s.holding t specs) ()
      (s.holding t (specs ++ [b.specAt (s.offset + specsSize specs)])) := by
  subst hn
  refine Returns.bind (returns_newStruct s t specs b.name) ?_
  exact returns_forEach_build FieldCall.toSpec (fun d c cur => returns_fieldCall c cur d) b.name
    b.calls (b.specAt _).nodup

/-- A value is set in a field that is there, or the step raises. -/
theorem setField_holding_inv {index : Nat} {name : String} {value : FieldValue}
    (hn : s.structs.length = n)
    (h : Returns ((ParentStep.setField index name value).run n) (s.holding t specs) () s') :
    s' = s.holding t (specs.modify index (StructSpec.set name value)) := by
  change Returns (CStruct.setField ⟨n, index⟩ name value) _ () s' at h
  obtain ⟨c, f, hc, hf, -⟩ := updated_of_setField h
  rw [structAt_holding hn] at hc
  obtain ⟨spec, hspec, rfl⟩ := Option.map_eq_some_iff.mp hc
  have hname : name ∈ spec.fieldNames := by
    have hkey := Dict.mem_keys_iff.mpr ⟨f, hf⟩
    rw [Dict.keys] at hkey
    change name ∈ (fieldsAt _ spec.fields).map Prod.fst at hkey
    rwa [map_fst_fieldsAt] at hkey
  exact (h.unique (returns_setField hn value hspec hname)).2

/-! ## Structures up to their values -/

namespace StructSpec

/-- The names of a structure and its fields, and the formats of these. -/
def shape (spec : StructSpec) : String × List (String × FormatItem) :=
  (spec.name, spec.fields.map fun f => (f.name, f.kind))

theorem shape_set (name : String) (value : FieldValue) (spec : StructSpec) :
    (spec.set name value).shape = spec.shape := by
  unfold shape set
  rw [List.map_map]
  refine congrArg _ (List.map_congr_left fun f _ => ?_)
  simp only [Function.comp_apply, setIn]
  split
  · rfl
  · rfl

theorem fieldsSize_eq (fs : List FieldSpec) :
    fieldsSize fs = ((fs.map fun f => (f.name, f.kind)).map fun p => p.2.size).sum := by
  rw [List.map_map]
  rfl

end StructSpec

theorem specsSize_eq_of_shape {specs specs' : List StructSpec}
    (h : specs.map StructSpec.shape = specs'.map StructSpec.shape) :
    specsSize specs = specsSize specs' := by
  have hsize : ∀ l : List StructSpec, specsSize l =
      ((l.map StructSpec.shape).map fun p => (p.2.map fun q => q.2.size).sum).sum := by
    intro l
    rw [List.map_map]
    exact congrArg List.sum (List.map_congr_left fun spec _ => StructSpec.fieldsSize_eq spec.fields)
  rw [hsize, hsize, h]

/-- The structures that are built from an offset on. -/
def structsFrom : Int → List StructBuild → List StructSpec
  | _, [] => []
  | cur, b :: bs => b.specAt cur :: structsFrom (cur + (b.specAt cur).size) bs

theorem structsFrom_concat (cur : Int) (bs : List StructBuild) (b : StructBuild) :
    structsFrom cur (bs ++ [b]) =
      structsFrom cur bs ++ [b.specAt (cur + specsSize (structsFrom cur bs))] := by
  induction bs generalizing cur with
  | nil => simp [structsFrom]
  | cons c bs ih =>
    rw [List.cons_append, structsFrom, structsFrom, ih, specsSize_cons, List.cons_append,
      Int.add_assoc]

/-- One step keeps the structures, up to their values, those that are built. -/
theorem step_holding_inv {step : ParentStep} {bs : List StructBuild} (hn : s.structs.length = n)
    (hspecs : specs.map StructSpec.shape = (structsFrom s.offset bs).map StructSpec.shape)
    (h : Returns (step.run n) (s.holding t specs) () s') :
    ∃ specs', s' = s.holding t specs' ∧ specs'.map StructSpec.shape =
      (structsFrom s.offset (bs ++ builds [step])).map StructSpec.shape := by
  cases step with
  | build b =>
    refine ⟨_, (h.unique (returns_build hn b)).2, ?_⟩
    change _ = (structsFrom s.offset (bs ++ [b])).map StructSpec.shape
    rw [structsFrom_concat, List.map_append, List.map_append, hspecs,
      specsSize_eq_of_shape hspecs]
  | setField index name value =>
    refine ⟨_, setField_holding_inv hn h, ?_⟩
    change _ = (structsFrom s.offset (bs ++ [])).map StructSpec.shape
    rw [List.append_nil, ← hspecs]
    exact map_modify_of_eq fun spec _ => StructSpec.shape_set name value spec

theorem steps_holding_inv (hn : s.structs.length = n) : ∀ (steps : List ParentStep)
    (specs : List StructSpec) (bs : List StructBuild),
    specs.map StructSpec.shape = (structsFrom s.offset bs).map StructSpec.shape →
    Returns (forEach (ParentStep.run n) steps) (s.holding t specs) () s' →
    ∃ specs', s' = s.holding t specs' ∧ specs'.map StructSpec.shape =
      (structsFrom s.offset (bs ++ builds steps)).map StructSpec.shape := by
  intro steps
  induction steps with
  | nil =>
    intro specs bs hspecs h
    refine ⟨specs, (returns_forEach_nil.mp h).symm, ?_⟩
    change _ = (structsFrom s.offset (bs ++ [])).map StructSpec.shape
    rw [List.append_nil, hspecs]
  | cons step steps ih =>
    intro specs bs hspecs h
    obtain ⟨u, hone, hrest⟩ := returns_forEach_cons.mp h
    obtain ⟨specs₁, rfl, hspecs₁⟩ := step_holding_inv hn hspecs hone
    obtain ⟨specs₂, hs', hspecs₂⟩ := ih specs₁ _ hspecs₁ hrest
    refine ⟨specs₂, hs', ?_⟩
    have hsplit : builds (step :: steps) = builds [step] ++ builds steps :=
      List.filterMap_append (l := [step])
    rw [hspecs₂, hsplit, List.append_assoc]

/-! ## Fields by name -/

theorem getElem?_fieldsAt (offset : Int) (fs : List FieldSpec) (j : Nat) :
    (fieldsAt offset fs)[j]? = fs[j]?.map fun f => (f.name,
      { kind := f.kind, size := f.size, value := f.value,
        offset := offset + fieldsSize (fs.take j) }) := by
  induction fs generalizing offset j with
  | nil => rfl
  | cons f fs ih =>
    cases j with
    | zero => simp [fieldsAt, fieldsSize]
    | succ j =>
      rw [fieldsAt, List.getElem?_cons_succ, List.getElem?_cons_succ, ih, List.take_succ_cons]
      simp only [fieldsSize, List.map_cons, List.sum_cons, Int.add_assoc]

/-- A field of a laid out structure, and where it lies. -/
theorem get_structOf_iff {offset : Int} {spec : StructSpec} {name : String} {f : CStructField} :
    (structOf offset spec).fields.get name = some f ↔
      ∃ j g, spec.fields[j]? = some g ∧ g.name = name ∧
        f = { kind := g.kind, size := g.size, value := g.value,
              offset := offset + fieldsSize (spec.fields.take j) } := by
  rw [Dict.get_eq_some_iff]
  change (name, f) ∈ fieldsAt offset spec.fields ↔ _
  rw [List.mem_iff_getElem?]
  refine exists_congr fun j => ?_
  rw [getElem?_fieldsAt, Option.map_eq_some_iff]
  refine exists_congr fun g => and_congr_right fun _ => ?_
  rw [Prod.mk.injEq]
  exact and_congr_right fun _ => eq_comm

/-- The bytes of a field stand at a position of the image: a number little-endian, the
bytes of an array cut or padded with zeros to its size. -/
def CStructField.ShownAt (image : Bytes) (pos : Nat) (f : CStructField) : Prop :=
  match f.kind, f.value with
  | .scalar format, .int v =>
    0 ≤ v ∧ v < 256 ^ format.size ∧ HoldsAt image pos (leBytes format.size v.toNat)
  | .bytes size, .bytes b => HoldsAt image pos (fitBytes size.toInt.toNat b)
  | _, _ => False

theorem shownAt_of_packItem {f : CStructField} {image b : Bytes} {pos : Nat}
    (hpack : packItem f.kind f.value = .ok b) (h : HoldsAt image pos b) : f.ShownAt image pos := by
  unfold CStructField.ShownAt
  cases hkind : f.kind with
  | scalar format =>
    cases hvalue : f.value with
    | int v =>
      rw [hkind, hvalue, packItem] at hpack
      split at hpack
      next hrange =>
        cases hpack
        exact ⟨hrange.1, hrange.2, h⟩
      next => cases hpack
    | bytes v =>
      rw [hkind, hvalue] at hpack
      cases hpack
  | bytes size =>
    cases hvalue : f.value with
    | int v =>
      rw [hkind, hvalue] at hpack
      cases hpack
    | bytes v =>
      rw [hkind, hvalue, packItem] at hpack
      obtain ⟨n, rfl, -, rfl⟩ := packBytes_eq_ok_iff.mp hpack
      exact h

/-- A field lies in the packed bytes where its structure does, behind the fields before
it. -/
theorem shownAt_specs {specs : List StructSpec} {image : Bytes}
    (h : packAll StructSpec.pack specs = .ok image) {i : Nat} {spec : StructSpec}
    (hspec : specs[i]? = some spec) {offset : Int} {name : String} {f : CStructField}
    (hf : (structOf (offset + specsSize (specs.take i)) spec).fields.get name = some f) :
    ∃ pos : Nat, f.offset = offset + pos ∧ f.ShownAt image pos ∧
      pos + f.size ≤ image.length := by
  obtain ⟨b, pos, hb, -, hpos, hholds, hfit⟩ :=
    holdsAt_packAll StructSpec.size (fun s _ b hb => length_pack_spec hb) h hspec
  obtain ⟨j, g, hg, -, rfl⟩ := get_structOf_iff.mp hf
  obtain ⟨c, off, hc, hoff, hin, hroom⟩ := holdsAt_field hb hg
  have hlen := (length_pack_field hc).2
  refine ⟨pos + off, ?_, shownAt_of_packItem hc (hholds.trans hin hroom), ?_⟩
  · change _ + _ = offset + ((pos + off : Nat) : Int)
    rw [Nat.cast_add, hpos, hoff, Int.add_assoc]
    rfl
  · change ((pos + off : Nat) : Int) + g.size ≤ _
    rw [← hlen]
    omega

/-! ## Alignment -/

theorem getElem?_structsFrom (cur : Int) (bs : List StructBuild) (i : Nat) :
    (structsFrom cur bs)[i]? =
      bs[i]?.map fun b => b.specAt (cur + specsSize ((structsFrom cur bs).take i)) := by
  induction bs generalizing cur i with
  | nil => rfl
  | cons b bs ih =>
    cases i with
    | zero => simp [structsFrom]
    | succ i =>
      rw [structsFrom, List.getElem?_cons_succ, ih, List.getElem?_cons_succ, List.take_succ_cons,
        specsSize_cons, Int.add_assoc]

/-- The structures with the shape of those that are built, one by one. -/
theorem getElem?_of_shapes {specs : List StructSpec} {offset : Int} {bs : List StructBuild}
    (h : specs.map StructSpec.shape = (structsFrom offset bs).map StructSpec.shape) {i : Nat}
    {b : StructBuild} (hb : bs[i]? = some b) :
    ∃ spec, specs[i]? = some spec ∧
      spec.shape = (b.specAt (offset + specsSize (specs.take i))).shape := by
  have htake : specsSize (specs.take i) = specsSize ((structsFrom offset bs).take i) := by
    refine specsSize_eq_of_shape ?_
    rw [List.map_take, List.map_take, h]
  have hi := congrArg (fun l : List (String × List (String × FormatItem)) => l[i]?) h
  simp only [List.getElem?_map, getElem?_structsFrom, hb, Option.map_some] at hi
  obtain ⟨spec, hspec, hshape⟩ := Option.map_eq_some_iff.mp hi
  exact ⟨spec, hspec, by rw [htake]; exact hshape⟩

/-- A field behind a padding lies at a multiple of its alignment. -/
theorem exists_aligned {spec : StructSpec} {cur : Int} {b : StructBuild}
    (hshape : spec.shape = (b.specAt cur).shape) {pre post : List FieldCall} {name : String}
    {k : Nat} {d : FieldCall} (hcalls : b.calls = pre ++ .addPadding name k :: d :: post) :
    ∃ f, (structOf cur spec).fields.get d.name = some f ∧ (2 : Int) ^ k ∣ f.offset := by
  obtain ⟨c₁, hc₁⟩ : ∃ c, c = cur + fieldsSize (fieldsFrom FieldCall.toSpec cur pre) := ⟨_, rfl⟩
  obtain ⟨pad, hpad⟩ : ∃ pad, pad = (FieldCall.addPadding name k).toSpec c₁ := ⟨_, rfl⟩
  obtain ⟨init, hinit⟩ : ∃ init, init = fieldsFrom FieldCall.toSpec cur pre ++ [pad] := ⟨_, rfl⟩
  obtain ⟨rest, hrest⟩ : ∃ rest, (b.specAt cur).fields =
      init ++ d.toSpec (c₁ + pad.size) :: rest := by
    refine ⟨fieldsFrom FieldCall.toSpec (c₁ + pad.size + (d.toSpec (c₁ + pad.size)).size) post, ?_⟩
    change fieldsFrom FieldCall.toSpec cur b.calls = _
    rw [hcalls, fieldsFrom_append, ← hc₁, fieldsFrom, fieldsFrom, ← hpad, hinit, List.append_assoc,
      List.singleton_append]
  have hfields := (Prod.mk.inj hshape).2
  rw [hrest] at hfields
  have htake : fieldsSize (spec.fields.take init.length) = fieldsSize init := by
    rw [StructSpec.fieldsSize_eq, StructSpec.fieldsSize_eq, List.map_take, hfields, ← List.map_take,
      List.take_left]
  have hat := congrArg (fun l : List (String × FormatItem) => l[init.length]?) hfields
  simp only [List.getElem?_map, List.getElem?_append_right (le_refl _), Nat.sub_self,
    List.getElem?_cons_zero, Option.map_some] at hat
  obtain ⟨g, hg, hgd⟩ := Option.map_eq_some_iff.mp hat
  have hname : g.name = d.name := (Prod.mk.inj hgd).1.trans (FieldCall.toSpec_name _ d)
  refine ⟨_, get_structOf_iff.mpr ⟨_, g, hg, hname, rfl⟩, ?_⟩
  have hoffset : cur + fieldsSize (spec.fields.take init.length) = c₁ + pad.size := by
    rw [htake, hinit, hc₁, fieldsSize, fieldsSize, List.map_append, List.sum_append, List.map_cons,
      List.map_nil, List.sum_cons, List.sum_nil]
    omega
  change (2 : Int) ^ k ∣ cur + fieldsSize (spec.fields.take init.length)
  rw [hoffset, hpad]
  exact FieldCall.dvd_add_padding name k c₁

/-! ## The allocator and the packer -/

/-- The offsets a section hands out for a sub-section are the places of the fields in the
bytes the sub-section packs. -/
structure Agrees (offset : Int) (steps : List ParentStep) (s : FlashSection σ)
    (p : CStructParent) : Prop where
  /-- The structures and their fields are those that were built. -/
  listed : p.structs.map (fun c => (c.name, c.fields.keys)) =
    (builds steps).map fun b => (b.name, b.calls.map FieldCall.name)
  /-- Values that fit their fields can be packed. -/
  packs : (∀ c ∈ p.structs, ∀ f ∈ c.fields.values, f.kind.Holds f.value) →
    ∃ image, p.pack = .ok image
  placed : ∀ image, p.pack = .ok image → ∀ c ∈ p.structs, ∀ name f,
    c.fields.get name = some f → ∃ pos : Nat, f.offset = offset + pos ∧ f.ShownAt image pos ∧
      pos + f.size ≤ image.length
  /-- A field added right after a padding is aligned. -/
  aligned : ∀ (i : Nat) (b : StructBuild), (builds steps)[i]? = some b →
    ∀ pre name k d post, b.calls = pre ++ .addPadding name k :: d :: post →
      ∃ c f, p.structs[i]? = some c ∧ c.fields.get d.name = some f ∧ (2 : Int) ^ k ∣ f.offset
  sizes : ∀ c ∈ p.structs, ∀ image, c.pack = .ok image → c.size = image.length
  total : ∀ image, p.pack = .ok image → s.currentOffset - s.offset = image.length

theorem map_keys_structsOf (offset : Int) (specs : List StructSpec) :
    (structsOf offset specs).map (fun c => (c.name, c.fields.keys)) =
      (specs.map StructSpec.shape).map fun p => (p.1, p.2.map Prod.fst) := by
  induction specs generalizing offset with
  | nil => rfl
  | cons spec specs ih =>
    rw [structsOf, List.map_cons, List.map_cons, List.map_cons, ih]
    congr 1
    change (spec.name, (fieldsAt offset spec.fields).map Prod.fst) =
      (spec.name, (spec.fields.map fun f => (f.name, f.kind)).map Prod.fst)
    rw [map_fst_fieldsAt, List.map_map]
    rfl

theorem map_keys_structsFrom (cur : Int) (bs : List StructBuild) :
    (((structsFrom cur bs).map StructSpec.shape).map fun p => (p.1, p.2.map Prod.fst)) =
      bs.map fun b => (b.name, b.calls.map FieldCall.name) := by
  induction bs generalizing cur with
  | nil => rfl
  | cons b bs ih =>
    rw [structsFrom, List.map_cons, List.map_cons, List.map_cons, ih]
    congr 1
    change (b.name, ((fieldsFrom FieldCall.toSpec cur b.calls).map
      fun f => (f.name, f.kind)).map Prod.fst) = _
    rw [← map_name_fieldsFrom cur, List.map_map]
    rfl

theorem agrees_holding {specs : List StructSpec} {steps : List ParentStep}
    (h : specs.map StructSpec.shape = (structsFrom s.offset (builds steps)).map StructSpec.shape) :
    Agrees s.offset steps (s.holding t specs)
      { name := t, structs := structsOf s.offset specs } := by
  have hmem : ∀ c ∈ structsOf s.offset specs, ∃ i spec, specs[i]? = some spec ∧
      c = structOf (s.offset + specsSize (specs.take i)) spec := by
    intro c hc
    obtain ⟨i, hi⟩ := List.mem_iff_getElem?.mp hc
    rw [getElem?_structsOf] at hi
    obtain ⟨spec, hspec, rfl⟩ := Option.map_eq_some_iff.mp hi
    exact ⟨i, spec, hspec, rfl⟩
  constructor
  · rw [map_keys_structsOf, h, map_keys_structsFrom]
  · intro hfit
    refine exists_packAll fun c hc => ?_
    obtain ⟨i, spec, -, rfl⟩ := hmem c hc
    exact exists_pack_struct (matches_structOf _ spec) (hfit _ hc)
  · intro image himage c hc name f hf
    obtain ⟨i, spec, hspec, rfl⟩ := hmem c hc
    rw [CStructParent.pack, packAll_structsOf] at himage
    exact shownAt_specs himage hspec hf
  · intro i b hb pre name k d post hcalls
    obtain ⟨spec, hspec, hshape⟩ := getElem?_of_shapes h hb
    obtain ⟨f, hf, hdvd⟩ := exists_aligned hshape hcalls
    refine ⟨_, f, ?_, hf, hdvd⟩
    rw [getElem?_structsOf, hspec]
    rfl
  · intro c hc image himage
    obtain ⟨i, spec, -, rfl⟩ := hmem c hc
    rw [pack_structOf] at himage
    exact (length_pack_spec himage).2.symm
  · intro image himage
    rw [CStructParent.pack, packAll_structsOf] at himage
    have hlen := (length_packAll StructSpec.size (fun s _ b hb => length_pack_spec hb) himage).2
    change s.offset + specsSize specs - s.offset = _
    rw [hlen]
    exact add_sub_cancel_left s.offset (specsSize specs)

/-- A sub-section built in any way packs to bytes that agree with the allocator. -/
theorem buildParent_agrees {offset : Int} {name : String} {steps : List ParentStep}
    (h : Returns (buildParent offset name steps) s n s') :
    ∃ p, s'.structs[n]? = some p ∧ Agrees offset steps s' p := by
  obtain ⟨u, hu⟩ : ∃ u : FlashSection σ, u = { s with offset := offset, currentOffset := offset } :=
    ⟨_, rfl⟩
  have hcurrent : u.currentOffset = u.offset := by rw [hu]
  rw [buildParent, setOffset, returns_modify_bind, ← hu] at h
  replace h := (returns_newParent hcurrent name).advance h
  obtain ⟨_, t, hsteps, hend⟩ := returns_bind.mp h
  obtain ⟨hn, rfl⟩ := returns_pure.mp hend
  obtain ⟨specs, rfl, hspecs⟩ := steps_holding_inv rfl steps [] [] rfl hsteps
  refine ⟨{ name := name, structs := structsOf u.offset specs }, ?_, ?_⟩
  · rw [← hn]
    simp [holding]
  · have hoffset : u.offset = offset := by rw [hu]
    rw [← hoffset]
    exact agrees_holding hspecs

/-- Two structures from an odd offset on: a number behind a padding, with its value set,
and an array. -/
def paddedSteps : List ParentStep :=
  [.build ⟨"header", [.addField "kind" .B, .addFieldArray "none" 0, .addPadding "pad" 3,
      .addField "value" .Q], by decide⟩,
    .setField 0 "value" (.int 0x1234),
    .build ⟨"tail", [.addFieldArray "text" 5], by decide⟩]

theorem buildParent_agrees_padded :
    ∃ p, (finalState (buildParent 0x1003 "parts" paddedSteps)
        (FlashSection.new "raw" 0 ())).structs[0]? = some p ∧
      Agrees 0x1003 paddedSteps
        (finalState (buildParent 0x1003 "parts" paddedSteps) (FlashSection.new "raw" 0 ())) p := by
  have hreturned : returned? (buildParent 0x1003 "parts" paddedSteps)
      (FlashSection.new "raw" 0 ()) = some 0 := by decide +kernel
  exact buildParent_agrees (returns_of_returned? hreturned)

end SoftHier.Gapy
