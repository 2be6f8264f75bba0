/-
  Gapy/Truncation.lean --- values longer than the array they are put in.

  The room of an array field is reserved when the field is declared, its value
  comes later from somewhere else, and the packer cuts a byte string that is too
  long.  The check of the image size runs after the packer, on lengths the
  values have no part in.
-/
import SoftHier.Gapy.PartitionImage
import SoftHier.Gapy.ReadfsNames
import SoftHier.Gapy.RomImage

set_option autoImplicit false

namespace SoftHier.Gapy

open SoftHier.Foundation Program

/-! ## What a reader of a section expects -/

namespace FlashSection

variable {σ : Type}

/-- The fields of a section, in packing order. -/
def flatFields (s : FlashSection σ) : List CStructField :=
  s.structs.flatMap fun p => p.structs.flatMap fun c => c.fields.values

/-- The place of a field in the image: behind the fields before it. -/
def fieldPlace (s : FlashSection σ) (i : Nat) : Nat :=
  ((s.flatFields.take i).map CStructField.size).sum.toNat

/-- The image has every array's full value at its place, with zeros behind it up
to the end of the field. -/
def KeptWhole (s : FlashSection σ) (image : Bytes) : Prop :=
  ∀ i f size v, s.flatFields[i]? = some f → f.kind = .bytes size → f.value = .bytes v →
    slice image (s.fieldPlace i) f.size.toNat =
      v ++ List.replicate (f.size.toNat - v.length) 0

end FlashSection

/-- The value is no longer than the array. -/
def FormatItem.HasRoom : FormatItem → FieldValue → Prop
  | .bytes size, .bytes v => v.length ≤ size.toInt.toNat
  | _, _ => True

instance (item : FormatItem) (v : FieldValue) : Decidable (item.HasRoom v) :=
  match item, v with
  | .bytes size, .bytes v => inferInstanceAs (Decidable (v.length ≤ size.toInt.toNat))
  | .scalar _, .bytes _ => inferInstanceAs (Decidable True)
  | .scalar _, .int _ => inferInstanceAs (Decidable True)
  | .bytes _, .int _ => inferInstanceAs (Decidable True)

/-- No value of the section is longer than its array. -/
def FlashSection.ArraysFit {σ : Type} (s : FlashSection σ) : Prop :=
  ∀ f ∈ s.flatFields, f.kind.HasRoom f.value

instance {σ : Type} (s : FlashSection σ) : Decidable s.ArraysFit :=
  inferInstanceAs (Decidable (∀ f ∈ s.flatFields, f.kind.HasRoom f.value))

/-! ## Packing field by field -/

/-- Pack one field. -/
def CStructField.pack (f : CStructField) : Except PyError Bytes := packItem f.kind f.value

theorem packAll_congr {α : Type} {pack pack' : α → Except PyError Bytes} {xs : List α}
    (h : ∀ x ∈ xs, pack x = pack' x) : packAll pack xs = packAll pack' xs := by
  induction xs with
  | nil => rfl
  | cons x xs ih =>
    rw [packAll, packAll, h x List.mem_cons_self, ih fun y hy => h y (List.mem_cons_of_mem x hy)]

theorem packAll_map {α β : Type} (pack : β → Except PyError Bytes) (g : α → β) (xs : List α) :
    packAll pack (xs.map g) = packAll (fun x => pack (g x)) xs := by
  induction xs with
  | nil => rfl
  | cons x xs ih => rw [List.map_cons, packAll, packAll, ih]

theorem packAll_append {α : Type} (pack : α → Except PyError Bytes) (xs ys : List α) :
    packAll pack (xs ++ ys) =
      match packAll pack xs with
      | .error e => .error e
      | .ok b =>
          match packAll pack ys with
          | .error e => .error e
          | .ok rest => .ok (b ++ rest) := by
  induction xs with
  | nil =>
    simp only [List.nil_append, packAll]
    cases packAll pack ys <;> rfl
  | cons x xs ih =>
    rw [List.cons_append, packAll, packAll, ih]
    cases pack x with
    | error e => rfl
    | ok b =>
      cases packAll pack xs with
      | error e => rfl
      | ok rest =>
        cases packAll pack ys with
        | error e => rfl
        | ok rest' => simp only [List.append_assoc]

/-- Packing in groups is packing one by one. -/
theorem packAll_flatMap {α β : Type} (pack : β → Except PyError Bytes) (g : α → List β)
    (xs : List α) :
    packAll pack (xs.flatMap g) = packAll (fun x => packAll pack (g x)) xs := by
  induction xs with
  | nil => rfl
  | cons x xs ih =>
    rw [List.flatMap_cons, packAll_append, ih]
    rfl

theorem CStruct.Matches.pack_eq {c : CStruct} (h : c.Matches) :
    c.pack = packAll CStructField.pack c.fields.values := by
  have hformat : c.format = c.fields.values.map CStructField.kind := h
  unfold CStruct.pack
  simp only
  rw [if_pos (by rw [hformat, List.length_map, List.length_map]), hformat, List.zip_map',
    packAll_map]
  rfl

namespace FlashSection

variable {σ : Type}

/-- The structures have the layouts of specifications. -/
def Specified (s : FlashSection σ) : Prop :=
  ∀ l ∈ s.layouts, ∃ offset spec, l = (structOf offset spec).layout

theorem specified_matches {s : FlashSection σ} (h : s.Specified) {p : CStructParent}
    (hp : p ∈ s.structs) {c : CStruct} (hc : c ∈ p.structs) : c.Matches := by
  obtain ⟨offset, spec, hlayout⟩ :=
    h c.layout (List.mem_flatMap.mpr ⟨p, hp, List.mem_map_of_mem hc⟩)
  exact matches_of_layout_eq hlayout (matches_structOf offset spec)

theorem size_fieldsAt {fs : List FieldSpec} {offset : Int} :
    ∀ q ∈ (fieldsAt offset fs).map fieldLayout, q.2.2.1 = q.2.1.size := by
  induction fs generalizing offset with
  | nil => intro q hq; cases hq
  | cons f fs ih =>
    rw [fieldsAt, List.map_cons, List.forall_mem_cons]
    exact ⟨rfl, ih⟩

theorem Specified.size_eq {s : FlashSection σ} (h : s.Specified) {f : CStructField}
    (hf : f ∈ s.flatFields) : f.size = f.kind.size := by
  obtain ⟨p, hp, hf⟩ := List.mem_flatMap.mp hf
  obtain ⟨c, hc, hf⟩ := List.mem_flatMap.mp hf
  obtain ⟨entry, hentry, rfl⟩ := List.mem_map.mp hf
  obtain ⟨offset, spec, hlayout⟩ :=
    h c.layout (List.mem_flatMap.mpr ⟨p, hp, List.mem_map_of_mem hc⟩)
  have hmem : fieldLayout entry ∈ c.layout.fields := List.mem_map_of_mem hentry
  rw [hlayout] at hmem
  exact size_fieldsAt _ hmem

theorem Specified.packed_eq {s : FlashSection σ} (h : s.Specified) :
    s.packed = packAll CStructField.pack s.flatFields := by
  rw [flatFields, packAll_flatMap]
  refine packAll_congr fun p hp => ?_
  rw [packAll_flatMap]
  exact packAll_congr fun c hc => (specified_matches h hp hc).pack_eq

theorem fitBytes_eq_iff (n : Nat) (v : Bytes) :
    fitBytes n v = v ++ List.replicate (n - v.length) 0 ↔ v.length ≤ n := by
  constructor
  · intro h
    have hlength := congrArg List.length h
    rw [length_fitBytes, List.length_append, List.length_replicate] at hlength
    omega
  · intro h
    rw [fitBytes, List.take_of_length_le h]

/-- Field `i` of an image. -/
theorem Specified.slice_eq {s : FlashSection σ} (h : s.Specified) {image : Bytes}
    (himage : s.getImage = .ok image) {i : Nat} {f : CStructField}
    (hf : s.flatFields[i]? = some f) {size : PyNumber} {v : Bytes} (hkind : f.kind = .bytes size)
    (hvalue : f.value = .bytes v) :
    f.size = size.toInt ∧
      slice image (s.fieldPlace i) f.size.toNat = fitBytes size.toInt.toNat v := by
  obtain ⟨packed, total, hpacked, -, -, rfl⟩ := getImage_eq_ok_iff.mp himage
  rw [h.packed_eq] at hpacked
  have hsize : f.size = size.toInt := by rw [h.size_eq (List.mem_of_getElem? hf), hkind]; rfl
  obtain ⟨b, pos, hb, -, hpos, hholds, hfit⟩ := holdsAt_packAll CStructField.size
    (fun g hg b hb => by rw [h.size_eq hg]; exact length_packItem hb) hpacked hf
  rw [CStructField.pack, hkind, hvalue] at hb
  obtain rfl := pack_array (show FieldSpec.pack ⟨"", .bytes size, .bytes v⟩ = .ok b from hb)
  refine ⟨hsize, ?_⟩
  have hplace : s.fieldPlace i = pos := by rw [fieldPlace, ← hpos, Int.toNat_natCast]
  unfold HoldsAt at hholds
  rw [length_fitBytes] at hholds hfit
  rw [hplace, hsize, slice_append_of_le hfit, hholds]

/-- An image keeps the values whole exactly when they fit. -/
theorem Specified.keptWhole_iff_arraysFit {s : FlashSection σ} (h : s.Specified) {image : Bytes}
    (himage : s.getImage = .ok image) : s.KeptWhole image ↔ s.ArraysFit := by
  constructor
  · intro hwhole f hf
    obtain ⟨i, hi⟩ := List.mem_iff_getElem?.mp hf
    cases hkind : f.kind with
    | scalar format => cases f.value <;> exact trivial
    | bytes size =>
      cases hvalue : f.value with
      | int v => exact trivial
      | bytes v =>
        obtain ⟨hsize, hslice⟩ := h.slice_eq himage hi hkind hvalue
        rw [hwhole i f size v hi hkind hvalue, hsize] at hslice
        exact (fitBytes_eq_iff _ _).mp hslice.symm
  · intro hfit i f size v hi hkind hvalue
    obtain ⟨hsize, hslice⟩ := h.slice_eq himage hi hkind hvalue
    have hroom := hfit f (List.mem_of_getElem? hi)
    rw [hkind, hvalue] at hroom
    rw [hslice, hsize]
    exact (fitBytes_eq_iff _ _).mpr hroom

end FlashSection

/-! ## Any section a flash can hold -/

/-- The sections that come out of the methods a flash calls on them, whatever the
order and however often. -/
inductive Section.Reachable (host : Host) : Section → Prop
  | new (template : SectionTemplate) (name : String) (sectionId : Nat) :
      Section.Reachable host (template.new name sectionId)
  | setAlignments {s : Section} (startAlign sizeAlign : Option Int) :
      Section.Reachable host s → Section.Reachable host (s.setAlignments startAlign sizeAlign)
  | setContent {s s' : Section} {flash : FlashContext} {offset : Int} {content : ContentSection} :
      Section.Reachable host s → Returns (Section.setContent host flash offset content) s () s' →
      Section.Reachable host s'
  | finalize {s s' : Section} {views : List SectionView} :
      Section.Reachable host s → Returns (Section.finalize views) s () s' →
      Section.Reachable host s'

namespace Section

theorem structs_new (template : SectionTemplate) (name : String) (sectionId : Nat) :
    (template.new name sectionId).base.structs = [] := by
  cases template <;> rfl

theorem structs_setAlignments (startAlign sizeAlign : Option Int) (s : Section) :
    (s.setAlignments startAlign sizeAlign).base.structs = s.base.structs := by
  cases s <;> rfl

theorem specified_of_structs {s : Section} (h : s.base.structs = []) : s.base.Specified := by
  intro l hl
  rw [FlashSection.layouts, h, List.flatMap_nil] at hl
  cases hl

/-- Every class declares its fields through its structures. -/
theorem Reachable.specified {host : Host} {s : Section} (h : Reachable host s) :
    s.base.Specified := by
  induction h with
  | new template name sectionId => exact specified_of_structs (structs_new template name sectionId)
  | @setAlignments s startAlign sizeAlign _ ih =>
    have hlayouts : (s.setAlignments startAlign sizeAlign).base.layouts = s.base.layouts := by
      unfold FlashSection.layouts
      rw [structs_setAlignments]
    unfold FlashSection.Specified
    rw [hlayouts]
    exact ih
  | setContent _ hset ih =>
    obtain ⟨-, specs, hplaced, -⟩ := setContent_inv hset
    intro l hl
    rw [hplaced.layouts, List.mem_append] at hl
    cases hl with
    | inl hl => exact ih l hl
    | inr hl =>
      obtain ⟨c, hc, rfl⟩ := List.mem_map.mp hl
      obtain ⟨i, hi⟩ := List.mem_iff_getElem?.mp hc
      rw [getElem?_structsOf] at hi
      obtain ⟨spec, -, rfl⟩ := Option.map_eq_some_iff.mp hi
      exact ⟨_, spec, rfl⟩
  | finalize _ hfinalize ih =>
    intro l hl
    rw [(finalize_inv hfinalize).base.layouts] at hl
    exact ih l hl

end Section

/-! ## The values each class stores -/

/-- No value of the structure is longer than its array. -/
def StructSpec.ArraysFit (spec : StructSpec) : Prop := ∀ f ∈ spec.fields, f.kind.HasRoom f.value

theorem StructSpec.arraysFit_iff {spec : StructSpec} {fs : List FieldSpec} (h : spec.fields = fs) :
    spec.ArraysFit ↔ ∀ f ∈ fs, f.kind.HasRoom f.value := by
  rw [StructSpec.ArraysFit, h]

theorem map_kind_value_fieldsAt (offset : Int) (fs : List FieldSpec) :
    ((fieldsAt offset fs).map Prod.snd).map (fun f => (f.kind, f.value)) =
      fs.map fun f => (f.kind, f.value) := by
  induction fs generalizing offset with
  | nil => rfl
  | cons f fs ih => rw [fieldsAt, List.map_cons, List.map_cons, ih, List.map_cons]

namespace FlashSection

variable {σ : Type}

theorem arraysFit_of_structs {s : FlashSection σ} (h : s.structs = []) : s.ArraysFit := by
  intro f hf
  rw [flatFields, h, List.flatMap_nil] at hf
  cases hf

/-- The values of a section that holds only specified structures. -/
theorem arraysFit_holding_iff {u : FlashSection σ} (hu : u.structs = []) (t : String)
    (specs : List StructSpec) :
    (u.holding t specs).ArraysFit ↔ ∀ spec ∈ specs, spec.ArraysFit := by
  have hpairs : ∀ offset : Int,
      ((structsOf offset specs).flatMap fun c => c.fields.values).map
          (fun f => (f.kind, f.value)) =
        specs.flatMap fun spec => spec.fields.map fun f => (f.kind, f.value) := by
    induction specs with
    | nil => intro offset; rfl
    | cons spec specs ih =>
      intro offset
      rw [structsOf, List.flatMap_cons, List.map_append, ih, List.flatMap_cons]
      congr 1
      exact map_kind_value_fieldsAt offset spec.fields
  have hflat : (u.holding t specs).flatFields =
      (structsOf u.offset specs).flatMap fun c => c.fields.values := by
    rw [flatFields]
    simp only [holding, hu, List.nil_append, List.flatMap_cons, List.flatMap_nil, List.append_nil]
  have hfields : (u.holding t specs).ArraysFit ↔
      ∀ q ∈ (u.holding t specs).flatFields.map (fun f => (f.kind, f.value)), q.1.HasRoom q.2 := by
    rw [List.forall_mem_map]
    rfl
  rw [hfields, hflat, hpairs]
  constructor
  · intro h spec hspec f hf
    exact h (f.kind, f.value) (List.mem_flatMap.mpr ⟨spec, hspec, List.mem_map_of_mem hf⟩)
  · intro h q hq
    obtain ⟨spec, hspec, hq⟩ := List.mem_flatMap.mp hq
    obtain ⟨f, hf, rfl⟩ := List.mem_map.mp hq
    exact h spec hspec f hf

end FlashSection

/-- Something said of all elements, by their places. -/
theorem forall_mem_iff_getElem? {α : Type} {P : α → Prop} {xs : List α} :
    (∀ x ∈ xs, P x) ↔ ∀ (i : Nat) x, xs[i]? = some x → P x := by
  constructor
  · intro h i x hx
    exact h x (List.mem_of_getElem? hx)
  · intro h x hx
    obtain ⟨i, hi⟩ := List.mem_iff_getElem?.mp hx
    exact h i x hi

namespace RomFlashSection

variable {host : Host} {s s' : FlashSection RomAttrs}

/-- A segment is exactly as long as the array made for it. -/
theorem FilledTo.arraysFit {offset size : Int} {binary : Binary} {specs : List StructSpec}
    (h : FilledTo offset size binary binary.segments.length specs) :
    ∀ spec ∈ specs, spec.ArraysFit := by
  have hlength : specs.length = 1 + binary.segments.length + binary.segments.length := by
    have := congrArg List.length h.sizes
    simp only [created, List.length_map, List.length_append, List.length_singleton] at this
    exact this
  rw [forall_mem_iff_getElem?]
  intro j spec hspec
  have hj : j < specs.length := (List.getElem?_eq_some_iff.mp hspec).1
  rcases Nat.eq_zero_or_pos j with rfl | hpos
  · rw [h.header, Option.some.injEq] at hspec
    subst hspec
    rw [StructSpec.arraysFit_iff (header_fields size binary)]
    simp [FormatItem.HasRoom]
  rcases Nat.lt_or_ge j (1 + binary.segments.length) with hlt | hge
  · obtain ⟨i, rfl⟩ := Nat.exists_eq_add_of_le hpos
    have hb := List.getElem?_eq_getElem (show i < binary.segments.length by omega)
    rw [Nat.succ_eq_add_one, Nat.zero_add, h.segmentHeader i _ hb, if_pos (by omega),
      Option.some.injEq] at hspec
    subst hspec
    rw [StructSpec.arraysFit_iff (segmentHeader_fields _ _)]
    simp [FormatItem.HasRoom]
  · obtain ⟨i, rfl⟩ := Nat.exists_eq_add_of_le hge
    have hb := List.getElem?_eq_getElem (show i < binary.segments.length by omega)
    rw [h.segment i _ hb, if_pos (by omega), Option.some.injEq] at hspec
    subst hspec
    rw [StructSpec.arraysFit_iff (segment_fields _)]
    simp [FormatItem.HasRoom, BinarySegment.size]

/-- A ROM cuts nothing. -/
theorem arraysFit_setContent {offset : Int} {content : ContentSection} (hstructs : s.structs = [])
    (hself : s.self = {}) (h : Returns (setContent host offset content) s () s') :
    s'.ArraysFit := by
  obtain ⟨s₁, boot, hstart, hfilled⟩ := returns_create h
  obtain ⟨properties, rfl, -⟩ := FlashSection.returns_setContent hstart
  obtain ⟨binary, -, hfill⟩ | ⟨-, hfill⟩ := hfilled
  · have hfill : Returns (fill ⟨(s.started properties (s.startOffset offset)).structs.length, 0⟩
        binary) _ () s' := hfill
    obtain ⟨u, specs, size, rfl, -, hu, -, -, hspecs⟩ := fill_filledTo (by exact hself) hfill
    rw [FlashSection.arraysFit_holding_iff (hu.trans hstructs)]
    exact hspecs.arraysFit
  · obtain ⟨size, s₂, hsize, hfill⟩ := returns_bind.mp hfill
    obtain ⟨-, rfl⟩ := returns_reading.mp hsize
    have hheader : [RomEmptyHeader.spec][0]? = some RomEmptyHeader.spec := rfl
    obtain ⟨specs, hset, rfl⟩ := setField_inv (by rfl) hheader (by decide) hfill
    rw [FlashSection.arraysFit_holding_iff (by exact hstructs), forall_mem_iff_getElem?]
    intro j spec hspec
    have hlength := congrArg List.length hset.sizes
    have hj : j < specs.length := (List.getElem?_eq_some_iff.mp hspec).1
    simp only [List.length_map, List.length_singleton] at hlength
    obtain rfl : j = 0 := by omega
    rw [hset.at_index, Option.some.injEq] at hspec
    subst hspec
    rw [StructSpec.arraysFit_iff (show _ = [⟨"rom_header_size", .scalar .I, .int size⟩] from rfl)]
    simp [FormatItem.HasRoom]

end RomFlashSection

namespace PartitionTableSection

variable {s s₁ s' : FlashSection PartitionAttrs}

/-- An entry has 16 bytes for a name and its zero. -/
theorem arraysFit_filled_iff (i : Nat) (v : SectionView) (size : Int) :
    (PartitionTableSectionHeader.filled i v size).ArraysFit ↔ (utf8 v.name).length < 16 := by
  rw [StructSpec.arraysFit_iff (filled_fields i v size)]
  have hroom : FormatItem.HasRoom (.bytes (.int 16)) (.bytes (utf8 v.name ++ [0])) ↔
      (utf8 v.name).length < 16 := by
    change (utf8 v.name ++ [0]).length ≤ 16 ↔ _
    rw [List.length_append, List.length_singleton, Nat.add_one_le_iff]
  simp only [List.forall_mem_cons]
  constructor
  · rintro ⟨-, -, -, -, -, hname, -⟩
    exact hroom.mp hname
  · intro hname
    exact ⟨trivial, trivial, trivial, trivial, trivial, hroom.mpr hname, trivial, by simp⟩

theorem FilledTo.arraysFit_iff {sections : List SectionView} {k : Nat} {specs : List StructSpec}
    (h : FilledTo sections k k specs) :
    (∀ spec ∈ specs, spec.ArraysFit) ↔
      ∀ (i : Nat) v, i < k → sections[i]? = some v → (utf8 v.name).length < 16 := by
  have hlength : specs.length = 1 + k := by
    have := congrArg List.length h.sizes
    simp only [created, List.length_map, List.length_cons, List.length_range] at this
    omega
  rw [forall_mem_iff_getElem?]
  constructor
  · intro hfit i v hi hv
    obtain ⟨v', size, hv', -, hspec⟩ := h.done i hi hi
    obtain rfl : v = v' := Option.some.inj (hv.symm.trans hv')
    exact (arraysFit_filled_iff i v size).mp (hfit _ _ hspec)
  · intro hnames j spec hspec
    have hj : j < specs.length := (List.getElem?_eq_some_iff.mp hspec).1
    rcases Nat.eq_zero_or_pos j with rfl | hpos
    · rw [h.header, Option.some.injEq] at hspec
      subst hspec
      rw [StructSpec.arraysFit_iff (header_fields _)]
      simp [FormatItem.HasRoom]
    · obtain ⟨i, rfl⟩ := Nat.exists_eq_add_of_le hpos
      have hi : i < k := by omega
      obtain ⟨v, size, hv, -, hentry⟩ := h.done i hi hi
      obtain rfl := Option.some.inj (hentry.symm.trans hspec)
      exact (arraysFit_filled_iff i v size).mpr (hnames i v hi hv)

/-- A partition table cuts no name exactly when the names it lists are shorter
than 16 bytes. -/
theorem arraysFit_finalize_iff {flash : FlashContext} {offset : Int} {content : ContentSection}
    {views : List SectionView} (hstructs : s.structs = []) (hself : s.self = {})
    (hset : Returns (setContent flash offset content) s () s₁)
    (hfinalize : Returns (finalize views) s₁ () s') :
    s'.ArraysFit ↔ ∀ (i : Nat) v, s.sectionId + 1 + i < flash.sectionNames.length →
      views[s.sectionId + 1 + i]? = some v → (utf8 v.name).length < 16 := by
  obtain ⟨s₂, hstart, rfl⟩ := returns_create hset
  obtain ⟨properties, rfl, -⟩ := FlashSection.returns_setContent hstart
  obtain ⟨u, specs, rfl, -, hu, hfilled⟩ := finalize_filledTo (by exact hself) hfinalize
  rw [FlashSection.arraysFit_holding_iff (hu.trans hstructs), hfilled.arraysFit_iff]
  refine forall_congr' fun i => forall_congr' fun v => ?_
  rw [List.getElem?_drop, List.length_drop]
  have hcount : i < flash.sectionNames.length - (s.sectionId + 1) ↔
      s.sectionId + 1 + i < flash.sectionNames.length := by omega
  rw [hcount]
  exact Iff.rfl

end PartitionTableSection

namespace ReadfsSection

variable {host : Host} {s s' : FlashSection ReadfsAttrs}

theorem rightUnique_ok {α β : Type} (g : α → Except PyError β) :
    Relator.RightUnique fun x y => g x = .ok y :=
  fun _ _ _ h h' => Except.ok.inj (h.symm.trans h')

/-- A content asks for one list of paths. -/
theorem pathsOf_unique {content : ContentSection} {paths paths' : List (String × String)}
    (h : PathsOf host content paths) (h' : PathsOf host content paths') : paths = paths' := by
  obtain ⟨files, dirs, rfl, ⟨value, items, hvalue, hitems, hfiles⟩, dirValue, hdirValue, hdirs⟩ := h
  obtain ⟨files', dirs', rfl, ⟨_, _, hvalue', hitems', hfiles'⟩, _, hdirValue', hdirs'⟩ := h'
  obtain rfl := Except.ok.inj (hvalue.symm.trans hvalue')
  obtain rfl := Except.ok.inj (hitems.symm.trans hitems')
  obtain rfl := Except.ok.inj (hdirValue.symm.trans hdirValue')
  obtain rfl := (rightUnique_ok fileEntry).forall₂ hfiles hfiles'
  rcases hdirs with ⟨rfl, rfl⟩ | ⟨dirItems, hdirItems, hdirs⟩
  · rcases hdirs' with ⟨-, rfl⟩ | ⟨_, hdirItems', -⟩
    · rfl
    · cases hdirItems'
  · rcases hdirs' with ⟨rfl, -⟩ | ⟨_, hdirItems', hdirs'⟩
    · cases hdirItems
    · obtain rfl := Except.ok.inj (hdirItems.symm.trans hdirItems')
      obtain rfl := (rightUnique_ok (directoryFiles host)).forall₂ hdirs hdirs'
      rfl

/-- The name takes as many bytes as it has characters, and the file has no more
bytes than its size said. -/
def FileFits (host : Host) (p : String × String) : Prop :=
  Utf8.Ascii p.1 ∧ ∀ size data, host.getsize p.2 = .ok size → host.readFile (.path p.2) = .ok data →
    data.length ≤ size

theorem arraysFit_fileHeader_iff (i : Nat) (name : String) (offset : Int) (size : Nat) :
    (ReadfsFileHeader.filled i name offset size).ArraysFit ↔ Utf8.Ascii name := by
  rw [StructSpec.arraysFit_iff (fileHeader_fields i name offset size), ← fitBytes_name_iff]
  have hroom : FormatItem.HasRoom (.bytes (.int (name.length + 1))) (.bytes (utf8 name ++ [0])) ↔
      fitBytes (name.length + 1) (utf8 name ++ [0]) = utf8 name ++ [0] := by
    change (utf8 name ++ [0]).length ≤ ((name.length + 1 : Nat) : Int).toNat ↔ _
    rw [Int.toNat_natCast]
    constructor
    · intro h
      refine fitBytes_self (le_antisymm h ?_)
      rw [List.length_append, List.length_singleton, utf8_eq_encode]
      have := Utf8.length_le_flatMap name.toList
      rw [String.length_toList] at this
      exact Nat.succ_le_succ this
    · intro h
      have hlength := congrArg List.length h
      rw [length_fitBytes] at hlength
      exact le_of_eq hlength.symm
  simp only [List.forall_mem_cons]
  constructor
  · rintro ⟨-, -, -, hname, -⟩
    exact hroom.mp hname
  · intro hname
    exact ⟨trivial, trivial, trivial, hroom.mpr hname, by simp⟩

theorem arraysFit_file_iff (i size : Nat) (data : Bytes) :
    (ReadfsFile.filled i size data).ArraysFit ↔ data.length ≤ size := by
  rw [StructSpec.arraysFit_iff (file_fields i size data), List.forall_mem_singleton]
  exact Iff.rfl

theorem FilledTo.arraysFit_iff {paths : List (String × String)} {files specs : List StructSpec}
    (hfiles : files.length = paths.length)
    (h : FilledTo host paths files paths.length specs) :
    (∀ spec ∈ specs, spec.ArraysFit) ↔ ∀ p ∈ paths, FileFits host p := by
  have hlength : specs.length = 1 + paths.length + paths.length := by
    have := congrArg List.length h.sizes
    simp only [created, List.length_map, List.length_append, List.length_singleton,
      length_fileHeaderSpecs, hfiles] at this
    exact this
  rw [forall_mem_iff_getElem?, forall_mem_iff_getElem?]
  constructor
  · intro hfit i p hp
    have hi : i < paths.length := (List.getElem?_eq_some_iff.mp hp).1
    obtain ⟨size, data, hsize, hdata, hheader, hfile⟩ := h.done i p hi hp
    refine ⟨(arraysFit_fileHeader_iff _ _ _ _).mp (hfit _ _ hheader), fun size' data' hs hd => ?_⟩
    obtain rfl := Except.ok.inj (hsize.symm.trans hs)
    obtain rfl := Except.ok.inj (hdata.symm.trans hd)
    exact (arraysFit_file_iff _ _ _).mp (hfit _ _ hfile)
  · intro hpaths j spec hspec
    have hj : j < specs.length := (List.getElem?_eq_some_iff.mp hspec).1
    rcases Nat.eq_zero_or_pos j with rfl | hpos
    · rw [h.header, Option.some.injEq] at hspec
      subst hspec
      rw [StructSpec.arraysFit_iff (header_fields _ _)]
      simp [FormatItem.HasRoom]
    rcases Nat.lt_or_ge j (1 + paths.length) with hlt | hge
    · obtain ⟨i, rfl⟩ := Nat.exists_eq_add_of_le hpos
      have hi : i < paths.length := by omega
      have hp := List.getElem?_eq_getElem hi
      obtain ⟨size, data, -, -, hheader, -⟩ := h.done i _ hi hp
      obtain rfl := Option.some.inj (hheader.symm.trans hspec)
      exact (arraysFit_fileHeader_iff _ _ _ _).mpr (hpaths i _ hp).1
    · obtain ⟨i, rfl⟩ := Nat.exists_eq_add_of_le hge
      have hi : i < paths.length := by omega
      have hp := List.getElem?_eq_getElem hi
      obtain ⟨size, data, hsize, hdata, -, hfile⟩ := h.done i _ hi hp
      obtain rfl := Option.some.inj (hfile.symm.trans hspec)
      exact (arraysFit_file_iff _ _ _).mpr ((hpaths i _ hp).2 size data hsize hdata)

/-- A ReadFS cuts nothing exactly when the names are ASCII and no file grew
between its size being asked for and its content being read. -/
theorem arraysFit_setContent_iff {offset : Int} {content : ContentSection}
    (hstructs : s.structs = []) (hself : s.self = {})
    (h : Returns (setContent host offset content) s () s') :
    s'.ArraysFit ↔ ∀ paths, PathsOf host content paths → ∀ p ∈ paths, FileFits host p := by
  obtain ⟨s₁, paths, files, hstart, hpathsOf, hfiles, hfill⟩ := returns_create h
  obtain ⟨properties, rfl, -⟩ := FlashSection.returns_setContent hstart
  have hpaths : (withPaths (s.started properties (s.startOffset offset)) paths).self.filePaths =
      paths := by
    change s.self.filePaths ++ paths = paths
    rw [hself]
    exact List.nil_append paths
  have hnoHeaders : s.self.fileHeaders = [] := by rw [hself]
  have hnoFiles : s.self.files = [] := by rw [hself]
  have hlength := hfiles.length_eq
  obtain ⟨u, specs, rfl, -, hu, -, hfilled⟩ :=
    fill_filledTo (by exact hnoHeaders) (by exact hnoFiles) hfiles hfill
  rw [hpaths] at hfilled hlength
  rw [List.length_zipIdx] at hlength
  rw [FlashSection.arraysFit_holding_iff (hu.trans hstructs),
    hfilled.arraysFit_iff hlength.symm]
  constructor
  · intro hfit paths' hpathsOf'
    rw [pathsOf_unique hpathsOf' hpathsOf]
    exact hfit
  · intro hall
    exact hall paths hpathsOf

end ReadfsSection

namespace HostfsSection

/-- A HostFS has no fields. -/
theorem arraysFit_setContent {host : Host} {s s' : FlashSection Unit} {offset : Int}
    {content : ContentSection} (hstructs : s.structs = [])
    (h : Returns (setContent host offset content) s () s') : s'.ArraysFit := by
  obtain ⟨_, s₁, hstart, h⟩ := returns_bind.mp h
  obtain ⟨properties, rfl, -⟩ := FlashSection.returns_setContent hstart
  obtain ⟨files, s₁, hread, h⟩ := returns_bind.mp h
  obtain ⟨-, rfl⟩ := returns_reading.mp hread
  obtain ⟨items, s₁, hread, h⟩ := returns_bind.mp h
  obtain ⟨-, rfl⟩ := returns_reading.mp hread
  have hsame := keeps_forEach (R := Eq) (fun _ => rfl) (fun _ _ _ => Eq.trans)
    (fun _ _ => keeps_reading (fun _ => rfl) _) _ _ _ h
  rw [← hsame]
  exact FlashSection.arraysFit_of_structs hstructs

end HostfsSection

namespace RawSection

/-- A raw section puts nothing in its array. -/
theorem arraysFit_setContent {flash : FlashContext} {s s' : FlashSection Unit} {offset : Int}
    {content : ContentSection} (hstructs : s.structs = [])
    (h : Returns (setContent flash offset content) s () s') : s'.ArraysFit := by
  obtain ⟨properties, property, size, -, -, -, rfl⟩ := returns_create h
  rw [FlashSection.arraysFit_holding_iff (by exact hstructs), List.forall_mem_singleton,
    StructSpec.arraysFit_iff (show _ = [⟨"data", .bytes size, .bytes []⟩] from rfl),
    List.forall_mem_singleton]
  exact Nat.zero_le _

end RawSection

/-- The value a content gives the `size` property, absent by default. -/
def ContentSection.sizeProperty (content : ContentSection) : PyValue :=
  (content.properties.bind fun d => d.get "size").getD .none

namespace LfsSection

variable {host : Host} {flash : FlashContext} {s s' : FlashSection LfsAttrs}

/-- The image `set_content` reads, if it reads one: the file `img_path` names, or
the one `mklfs` made of `root_dir`. -/
def imageSource (flash : FlashContext) (name : String) (rootDir imgPath : PyValue) :
    Option PyValue :=
  if imgPath ≠ .none then some imgPath
  else if rootDir ≠ .none then some (.str (flash.imagePath ++ "." ++ name))
  else none

/-- The image is no longer than the size of the section. -/
def ImageFits (host : Host) (flash : FlashContext) (s : FlashSection LfsAttrs) (offset : Int)
    (content : ContentSection) : Prop :=
  ∀ rootDir imgPath size path data,
    content.property "root_dir" = .ok rootDir → content.property "img_path" = .ok imgPath →
    RawSection.requestedSize flash (startOffset flash s offset) content.sizeProperty = .ok size →
    0 < size → imageSource flash s.name rootDir imgPath = some path →
    readImage host path = .ok data → data.length ≤ size.toNat

theorem arraysFit_header_iff (size : PyNumber) (data : Bytes) :
    ((headerSpec size).set "data" (.bytes data)).ArraysFit ↔ data.length ≤ size.toInt.toNat := by
  rw [StructSpec.arraysFit_iff (show _ = [⟨"data", .bytes size, .bytes data⟩] from rfl),
    List.forall_mem_singleton]
  exact Iff.rfl

/-- Reading an image into the array. -/
theorem arraysFit_readImage_iff {u : FlashSection LfsAttrs} (hu : u.structs = []) {size : PyNumber}
    {path : PyValue} {r : CStructRef} (hr : r = ⟨0, 0⟩)
    (h : Returns (do CStruct.setField r "data" (.bytes (← outcome (readImage host path))))
      (u.holding "readfs" [headerSpec size]) () s') :
    ∃ data, readImage host path = .ok data ∧ (s'.ArraysFit ↔ data.length ≤ size.toInt.toNat) := by
  subst hr
  obtain ⟨data, s₁, hread, h⟩ := returns_bind.mp h
  obtain ⟨hdata, rfl⟩ := returns_reading.mp hread
  have hheader : [headerSpec size][0]? = some (headerSpec size) := rfl
  have hempty : u.structs.length = 0 := by rw [hu, List.length_nil]
  have hname : "data" ∈ (headerSpec size).fieldNames := List.mem_singleton_self _
  obtain ⟨-, rfl⟩ := h.unique (returns_setField hempty (.bytes data) hheader hname)
  refine ⟨data, hdata, ?_⟩
  rw [FlashSection.arraysFit_holding_iff hu]
  change (∀ spec ∈ [(headerSpec size).set "data" (.bytes data)], spec.ArraysFit) ↔ _
  rw [List.forall_mem_singleton, arraysFit_header_iff]

/-- A new array holds no bytes yet. -/
theorem arraysFit_fresh {u : FlashSection LfsAttrs} (hu : u.structs = []) (size : PyNumber) :
    (u.holding "readfs" [headerSpec size]).ArraysFit := by
  rw [FlashSection.arraysFit_holding_iff hu, List.forall_mem_singleton,
    StructSpec.arraysFit_iff (show _ = [⟨"data", .bytes size, .bytes []⟩] from rfl),
    List.forall_mem_singleton]
  exact Nat.zero_le _

/-- What the last part of `set_content` leaves in the array. -/
theorem arraysFit_fill_iff {u : FlashSection LfsAttrs} (hu : u.structs = []) {size : PyNumber}
    {name : String} {rootDir imgPath value : PyValue} {r : CStructRef} (hr : r = ⟨0, 0⟩)
    (h : Returns (fill host flash r size)
      ((u.withSelf (attributesOf flash name false rootDir imgPath value)).holding "readfs"
        [headerSpec size]) () s') :
    s'.ArraysFit ↔ ∀ path data, imageSource flash name rootDir imgPath = some path →
      readImage host path = .ok data → data.length ≤ size.toInt.toNat := by
  have hread : ∀ path, imageSource flash name rootDir imgPath = some path →
      Returns (do CStruct.setField r "data" (.bytes (← outcome (readImage host path))))
        ((u.withSelf (attributesOf flash name false rootDir imgPath value)).holding "readfs"
          [headerSpec size]) () s' →
      (s'.ArraysFit ↔ ∀ path data, imageSource flash name rootDir imgPath = some path →
        readImage host path = .ok data → data.length ≤ size.toInt.toNat) := by
    intro path hsource hread
    obtain ⟨data, hdata, hiff⟩ := arraysFit_readImage_iff (by exact hu) hr hread
    rw [hiff]
    constructor
    · intro hfit path' data' hpath' hdata'
      obtain rfl := Option.some.inj (hsource.symm.trans hpath')
      obtain rfl := Except.ok.inj (hdata.symm.trans hdata')
      exact hfit
    · intro hall
      exact hall path data hsource hdata
  have hpath : imageSource flash name rootDir imgPath ≠ none →
      imageSource flash name rootDir imgPath =
        some (attributesOf flash name false rootDir imgPath value).imgPath := by
    intro hsome
    unfold imageSource attributesOf at *
    by_cases himg : imgPath = .none
    · rw [if_neg (not_not.mpr himg)] at hsome ⊢
      by_cases hroot : rootDir = .none
      · rw [if_neg (not_not.mpr hroot)] at hsome
        exact absurd rfl hsome
      · rw [if_pos hroot, if_pos himg]
    · rw [if_pos himg, if_neg himg]
  unfold fill at h
  rw [returns_get_bind] at h
  dsimp only at h
  split at h
  next hmake =>
    have hroot : rootDir ≠ .none := hmake
    obtain ⟨code, s₁, hrun, h⟩ := returns_bind.mp h
    obtain ⟨-, rfl⟩ := returns_reading.mp hrun
    refine hread _ (hpath ?_) ?_
    · unfold imageSource
      rw [if_pos hroot]
      split <;> exact Option.some_ne_none _
    · by_cases hcode : code ≠ 0
      · rw [if_pos hcode] at h
        obtain ⟨_, _, hthrow, -⟩ := returns_bind.mp h
        exact absurd hthrow not_returns_throw
      · rw [if_neg hcode] at h
        exact h
  next hmake =>
    have hroot : ¬ rootDir ≠ .none := hmake
    split at h
    next hgiven =>
      have hext : (if imgPath = .none then false else true) = true := hgiven
      have himg : imgPath ≠ .none := by
        intro hnone
        rw [if_pos hnone] at hext
        cases hext
      refine hread _ (hpath ?_) h
      unfold imageSource
      rw [if_pos himg]
      exact Option.some_ne_none _
    next hgiven =>
      have hext : ¬ (if imgPath = .none then false else true) = true := hgiven
      have himg : ¬ imgPath ≠ .none := by
        intro hsome
        rw [if_neg hsome] at hext
        exact hext rfl
      obtain ⟨-, rfl⟩ := returns_pure.mp h
      have hnone : imageSource flash name rootDir imgPath = none := by
        unfold imageSource
        rw [if_neg himg, if_neg hroot]
      refine iff_of_true (arraysFit_fresh (by exact hu) size) fun path data hsource => ?_
      rw [hnone] at hsource
      cases hsource

/-- A LittleFS cuts nothing exactly when its image is no longer than its size. -/
theorem arraysFit_setContent_iff {offset : Int} {content : ContentSection}
    (hstructs : s.structs = []) (hself : s.self = {}) (hsize : s.getProperty "size" = .ok .none)
    (h : Returns (setContent host flash offset content) s () s') :
    s'.ArraysFit ↔ ImageFits host flash s offset content := by
  obtain ⟨properties, rootDir, imgPath, property, value, size, hstart, hrootDir, himgPath,
    hproperty, hrequested, hmade⟩ := returns_create h
  have hext : s.self.extImg = false := by rw [hself]
  have hcount : s.structs.length = 0 := by rw [hstructs, List.length_nil]
  have hsizeProperty : property = content.sizeProperty := by
    have hget := FlashSection.get_of_started hstart "size"
    unfold FlashSection.getProperty at hproperty hsize
    cases hold : s.properties.get "size" with
    | none => rw [hold] at hsize; cases hsize
    | some p =>
      rw [hold] at hsize hget
      have hnew : (s.started properties 0).properties.get "size" = _ := hget
      rw [hnew] at hproperty
      have hvalue : p.value = .none := Except.ok.inj hsize
      have hgiven : (content.properties.bind fun d => d.get "size").getD p.value = property :=
        Except.ok.inj hproperty
      rw [← hgiven, hvalue]
      rfl
  rw [hsizeProperty] at hrequested
  have hrequested := RawSection.requestedSize_of_number hrequested
  rw [hext] at hmade
  have hfits : ImageFits host flash s offset content ↔ (0 < size.toInt → ∀ path data,
      imageSource flash s.name rootDir imgPath = some path → readImage host path = .ok data →
      data.length ≤ size.toInt.toNat) := by
    constructor
    · intro hall hpos path data
      exact hall rootDir imgPath size.toInt path data hrootDir himgPath hrequested hpos
    · intro hall rootDir' imgPath' size' path data hrootDir' himgPath' hsize' hpos
      obtain rfl := Except.ok.inj (hrootDir.symm.trans hrootDir')
      obtain rfl := Except.ok.inj (himgPath.symm.trans himgPath')
      obtain rfl := Except.ok.inj (hrequested.symm.trans hsize')
      exact hall hpos path data
  rw [hfits]
  obtain ⟨hpos, hfill⟩ | ⟨hnonpos, rfl⟩ := hmade
  · rw [arraysFit_fill_iff (by exact hstructs) (by rw [hcount]) hfill]
    exact ⟨fun hall _ => hall, fun hall => hall hpos⟩
  · refine iff_of_true ?_ fun hpos => absurd hpos (not_lt.mpr hnonpos)
    rw [FlashSection.arraysFit_holding_iff (by exact hstructs)]
    exact fun spec hspec => absurd hspec List.not_mem_nil

end LfsSection

/-! ## Nothing is cut -/

namespace Section

/-- What a section is given fits the arrays its class makes for it; `s` is the
section before its content is set. -/
def GivenFits (host : Host) (flash : FlashContext) (offset : Int) (content : ContentSection)
    (views : List SectionView) : Section → Prop
  | .partitionTable s => ∀ (i : Nat) v, s.sectionId + 1 + i < flash.sectionNames.length →
      views[s.sectionId + 1 + i]? = some v → (utf8 v.name).length < 16
  | .readfs _ => ∀ paths, ReadfsSection.PathsOf host content paths →
      ∀ p ∈ paths, ReadfsSection.FileFits host p
  | .lfs s => LfsSection.ImageFits host flash s offset content
  | _ => True

variable {host : Host} {flash : FlashContext} {offset : Int} {content : ContentSection}
  {views : List SectionView}

theorem arraysFit_iff {template : SectionTemplate} {name : String} {sectionId : Nat}
    {startAlign sizeAlign : Option Int} {s' s'' : Section}
    (hset : Returns (Section.setContent host flash offset content)
      ((template.new name sectionId).setAlignments startAlign sizeAlign) () s')
    (hfinalize : Returns (Section.finalize views) s' () s'') :
    s''.base.ArraysFit ↔
      GivenFits host flash offset content views
        ((template.new name sectionId).setAlignments startAlign sizeAlign) := by
  cases template with
  | rom =>
    obtain ⟨t, ht, rfl⟩ := returns_within hset
    obtain ⟨-, rfl⟩ := returns_pure.mp hfinalize
    exact iff_of_true (RomFlashSection.arraysFit_setContent (by rfl) (by rfl) ht) trivial
  | partitionTable =>
    obtain ⟨t, ht, rfl⟩ := returns_within hset
    obtain ⟨u, hu, rfl⟩ := returns_within hfinalize
    exact PartitionTableSection.arraysFit_finalize_iff (by rfl) (by rfl) ht hu
  | readfs =>
    obtain ⟨t, ht, rfl⟩ := returns_within hset
    obtain ⟨-, rfl⟩ := returns_pure.mp hfinalize
    exact ReadfsSection.arraysFit_setContent_iff (by rfl) (by rfl) ht
  | hostfs =>
    obtain ⟨t, ht, rfl⟩ := returns_within hset
    obtain ⟨-, rfl⟩ := returns_pure.mp hfinalize
    exact iff_of_true (HostfsSection.arraysFit_setContent (by rfl) ht) trivial
  | lfs =>
    obtain ⟨t, ht, rfl⟩ := returns_within hset
    obtain ⟨-, rfl⟩ := returns_pure.mp hfinalize
    exact LfsSection.arraysFit_setContent_iff (by rfl) (by rfl) (by rfl) ht
  | raw =>
    obtain ⟨t, ht, rfl⟩ := returns_within hset
    obtain ⟨-, rfl⟩ := returns_pure.mp hfinalize
    exact iff_of_true (RawSection.arraysFit_setContent (by rfl) ht) trivial

/-- For every section a flash can hold, an image keeps the values of its arrays
whole exactly when none is longer than its array; for a section that was created,
given its content and finalized once, exactly when what it was given fits. -/
theorem keptWhole_iff (host : Host) :
    (∀ s image, Reachable host s → s.getImage = .ok image →
      (s.base.KeptWhole image ↔ s.base.ArraysFit)) ∧
    ∀ flash offset content views template name sectionId startAlign sizeAlign s' s'' image,
      Returns (Section.setContent host flash offset content)
        ((SectionTemplate.new template name sectionId).setAlignments startAlign sizeAlign) () s' →
      Returns (Section.finalize views) s' () s'' → s''.getImage = .ok image →
      (s''.base.KeptWhole image ↔ GivenFits host flash offset content views
        ((template.new name sectionId).setAlignments startAlign sizeAlign)) := by
  refine ⟨fun s image hs himage => hs.specified.keptWhole_iff_arraysFit himage, ?_⟩
  intro flash offset content views template name sectionId startAlign sizeAlign s' s'' image hset
    hfinalize himage
  have hreachable : Reachable host s'' :=
    (((Reachable.new template name sectionId).setAlignments startAlign sizeAlign).setContent
      hset).finalize hfinalize
  rw [hreachable.specified.keptWhole_iff_arraysFit himage]
  exact arraysFit_iff hset hfinalize

/-- A machine with one file of 16 bytes. -/
def imageHost : Host :=
  { Host.noFiles with readFile := fun _ => .ok (List.replicate 16 0xAA) }

/-- A LittleFS of a size, with an image from a file. -/
def imageEntry (size : Int) : ContentSection where
  name := some "lfs"
  template := some "lfs"
  properties := some ((Dict.empty.set "size" (.int size)).set "img_path" (.str "image.bin"))

/-- A flash of 64 bytes without attributes. -/
def smallFlash : FlashContext := ⟨64, "flash.img", Dict.empty, ["lfs"]⟩

/-- The LittleFS once its content is set. -/
def imageSection (size : Int) : Section :=
  finalState (Section.setContent imageHost smallFlash 0 (imageEntry size))
    ((SectionTemplate.lfs.new "lfs" 0).setAlignments none none)

/-- The image of 16 bytes fills a section of 16. -/
theorem keptWhole_iff_lfs : ∃ image, (imageSection 16).getImage = .ok image ∧
    (imageSection 16).base.KeptWhole image ∧
    GivenFits imageHost smallFlash 0 (imageEntry 16) []
      ((SectionTemplate.lfs.new "lfs" 0).setAlignments none none) := by
  have hset : Returns (Section.setContent imageHost smallFlash 0 (imageEntry 16))
      ((SectionTemplate.lfs.new "lfs" 0).setAlignments none none) () (imageSection 16) :=
    returns_of_returned? (by decide +kernel)
  have hfinalize : Returns (Section.finalize []) (imageSection 16) () (imageSection 16) :=
    returns_of_returned? (by decide +kernel)
  have hsome : (imageSection 16).getImage.toOption.isSome = true := by decide +kernel
  obtain ⟨image, himage⟩ := Option.isSome_iff_exists.mp hsome
  have himage := ok_of_toOption himage
  have hreachable : Reachable imageHost (imageSection 16) :=
    ((Reachable.new .lfs "lfs" 0).setAlignments none none).setContent hset
  have hwhole : (imageSection 16).base.KeptWhole image :=
    ((keptWhole_iff imageHost).1 _ _ hreachable himage).mpr (by decide +kernel)
  exact ⟨image, himage, hwhole,
    ((keptWhole_iff imageHost).2 _ _ _ _ _ _ _ _ _ _ _ _ hset hfinalize himage).mp hwhole⟩

/-- An image of 16 bytes in a section of 8: the second half is gone. -/
theorem not_keptWhole : ¬ ∀ (host : Host) (s : Section) (image : Bytes), Reachable host s →
    s.getImage = .ok image → s.base.KeptWhole image := by
  intro h
  have hset : Returns (Section.setContent imageHost smallFlash 0 (imageEntry 8))
      ((SectionTemplate.lfs.new "lfs" 0).setAlignments none none) () (imageSection 8) :=
    returns_of_returned? (by decide +kernel)
  have hreachable : Reachable imageHost (imageSection 8) :=
    ((Reachable.new .lfs "lfs" 0).setAlignments none none).setContent hset
  have himage : (imageSection 8).getImage.toOption = some (List.replicate 8 0xAA) := by
    decide +kernel
  have hfield : (imageSection 8).base.flatFields[0]? =
      some ⟨.bytes (.int 8), 8, .bytes (List.replicate 16 0xAA), 0⟩ := by
    decide +kernel
  have hwhole := h _ _ _ hreachable (ok_of_toOption himage) 0 _ (.int 8) _ hfield rfl rfl
  have hlength := congrArg List.length hwhole
  revert hlength
  decide +kernel

end Section

end SoftHier.Gapy
