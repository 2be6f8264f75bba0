/-
  Gapy/SectionLayout.lean --- the part of a section its bytes are placed by.

  The layout of a structure is everything but its values.  `set_field` keeps it,
  the size of a section is a function of it, and so is the length of the packed
  bytes.  `FlashSection.LaidOut` says that a section's structures lie one after
  the other from its offset up to the allocator.
-/
import SoftHier.Gapy.SectionBuild

set_option autoImplicit false

namespace SoftHier.Gapy

open SoftHier.Foundation Program

variable {σ τ υ : Type}

/-! ## Dictionaries -/

theorem map_assign_of_eq {κ ν β : Type} [DecidableEq κ] {φ : κ × ν → β} {k : κ} {v v' : ν}
    (hφ : φ (k, v') = φ (k, v)) :
    ∀ {l : List (κ × ν)}, Dict.lookup k l = some v → (Dict.assign k v' l).map φ = l.map φ := by
  intro l
  induction l with
  | nil => intro h; simp [Dict.lookup] at h
  | cons p l ih =>
    obtain ⟨k₁, v₁⟩ := p
    intro h
    rw [Dict.lookup] at h
    rw [Dict.assign]
    by_cases hk : k₁ = k
    · subst hk
      rw [if_pos rfl, Option.some.injEq] at h
      rw [if_pos rfl, List.map_cons, List.map_cons, hφ, h]
    · rw [if_neg hk] at h
      rw [if_neg hk, List.map_cons, List.map_cons, ih h]

/-! ## Layouts -/

/-- A structure without its values; a field is its name, format, size and
offset. -/
structure StructLayout where
  name : String
  fields : List (String × FormatItem × Int × Int)
  format : List FormatItem
  size : Int

/-- The number of bytes of the items of a format. -/
def formatSize (format : List FormatItem) : Int := (format.map FormatItem.size).sum

/-- What `set_field` leaves alone of a field. -/
def fieldLayout (p : String × CStructField) : String × FormatItem × Int × Int :=
  (p.1, p.2.kind, p.2.size, p.2.offset)

/-- What `set_field` leaves alone of a structure. -/
def CStruct.layout (c : CStruct) : StructLayout where
  name := c.name
  fields := c.fields.entries.map fieldLayout
  format := c.format
  size := c.size

namespace FlashSection

/-- The layouts of the structures, in packing order. -/
def layouts (s : FlashSection σ) : List StructLayout :=
  s.structs.flatMap fun p => p.structs.map CStruct.layout

/-- The second section is the first with other field values and other
attributes of its class. -/
structure SameLayout (s : FlashSection σ) (t : FlashSection τ) : Prop where
  name : t.name = s.name
  sectionId : t.sectionId = s.sectionId
  offset : t.offset = s.offset
  currentOffset : t.currentOffset = s.currentOffset
  properties : t.properties = s.properties
  sizeAlign : t.sizeAlign = s.sizeAlign
  startAlign : t.startAlign = s.startAlign
  layouts : t.layouts = s.layouts

theorem SameLayout.refl (s : FlashSection σ) : s.SameLayout s :=
  ⟨rfl, rfl, rfl, rfl, rfl, rfl, rfl, rfl⟩

theorem SameLayout.trans {s : FlashSection σ} {t : FlashSection τ} {u : FlashSection υ}
    (h : s.SameLayout t) (h' : t.SameLayout u) : s.SameLayout u :=
  ⟨h'.name.trans h.name, h'.sectionId.trans h.sectionId, h'.offset.trans h.offset,
    h'.currentOffset.trans h.currentOffset, h'.properties.trans h.properties,
    h'.sizeAlign.trans h.sizeAlign, h'.startAlign.trans h.startAlign, h'.layouts.trans h.layouts⟩

theorem SameLayout.symm {s : FlashSection σ} {t : FlashSection τ} (h : s.SameLayout t) :
    t.SameLayout s :=
  ⟨h.name.symm, h.sectionId.symm, h.offset.symm, h.currentOffset.symm, h.properties.symm,
    h.sizeAlign.symm, h.startAlign.symm, h.layouts.symm⟩

/-- The reported size is a function of the layout. -/
theorem SameLayout.getSize {s : FlashSection σ} {t : FlashSection τ} (h : s.SameLayout t) :
    t.getSize = s.getSize := by
  unfold FlashSection.getSize getSizeNumber getProperty
  rw [h.currentOffset, h.offset, h.properties, h.sizeAlign, h.startAlign]

/-- A method that changes field values and attributes of its class only. -/
abbrev KeepsLayout {α : Type} (p : SectionM σ α) : Prop :=
  Keeps (fun s t => s.SameLayout t) p

theorem keepsLayout_bind {α β : Type} {p : SectionM σ α} {f : α → SectionM σ β}
    (hp : KeepsLayout p) (hf : ∀ a, KeepsLayout (f a)) : KeepsLayout (p >>= f) :=
  keeps_bind (R := fun (s t : FlashSection σ) => s.SameLayout t) (fun _ _ _ => SameLayout.trans)
    hp hf

theorem keepsLayout_forEach {α : Type} {body : α → SectionM σ Unit}
    (hbody : ∀ x, KeepsLayout (body x)) (xs : List α) : KeepsLayout (forEach body xs) :=
  keeps_forEach (R := fun (s t : FlashSection σ) => s.SameLayout t) SameLayout.refl
    (fun _ _ _ => SameLayout.trans) fun x _ => hbody x

end FlashSection

open FlashSection

theorem layouts_update {s : FlashSection σ} {r : CStructRef} {f : CStruct → CStruct}
    (hf : ∀ c, s.structAt r = some c → (f c).layout = c.layout) :
    ({ s with structs := s.structs.modify r.parent fun p =>
        { p with structs := p.structs.modify r.index f } } : FlashSection σ).layouts =
      s.layouts := by
  unfold FlashSection.layouts
  rw [List.flatMap_def, List.flatMap_def]
  refine congrArg List.flatten (map_modify_of_eq fun p hp => ?_)
  refine map_modify_of_eq fun c hc => hf c ?_
  rw [FlashSection.structAt, hp]
  exact hc

/-- A field that is set is there, and only its value changes. -/
theorem updated_of_setField {r : CStructRef} {name : String} {value : FieldValue}
    {s s' : FlashSection σ} {u : Unit} (h : Returns (CStruct.setField r name value) s u s') :
    ∃ c f, s.structAt r = some c ∧ c.fields.get name = some f ∧
      s' = { s with structs := s.structs.modify r.parent fun p =>
        { p with structs := p.structs.modify r.index fun d =>
          { d with fields := d.fields.set name { f with value := value } } } } := by
  rw [CStruct.setField, returns_get_bind] at h
  cases hf : (s.structAt r).bind fun c => c.fields.get name with
  | none =>
    rw [hf] at h
    exact absurd h not_returns_throw
  | some f =>
    rw [hf] at h
    obtain ⟨c, hc, hfield⟩ := Option.bind_eq_some_iff.mp hf
    exact ⟨c, f, hc, hfield, (returns_modify.mp h).symm⟩

theorem keepsLayout_setField (r : CStructRef) (name : String) (value : FieldValue) :
    KeepsLayout (CStruct.setField r name value : SectionM σ Unit) := by
  intro s u s' h
  obtain ⟨c, f, hc, hf, rfl⟩ := updated_of_setField h
  refine ⟨rfl, rfl, rfl, rfl, rfl, rfl, rfl, layouts_update fun d hd => ?_⟩
  obtain rfl : c = d := Option.some.inj (hc.symm.trans hd)
  have hfield : fieldLayout (name, { f with value := value }) = fieldLayout (name, f) := rfl
  have hfields : (c.fields.set name { f with value := value }).entries.map fieldLayout =
      c.fields.entries.map fieldLayout := map_assign_of_eq hfield hf
  unfold CStruct.layout
  rw [hfields]

theorem keepsLayout_read {α : Type} (r : CStructRef) (f : CStruct → α) :
    KeepsLayout (CStruct.read r f : SectionM σ α) := keeps_reading SameLayout.refl _

theorem keepsLayout_fieldOffset (r : CStructRef) (name : String) :
    KeepsLayout (CStruct.fieldOffset r name : SectionM σ Int) := keeps_reading SameLayout.refl _

theorem keepsLayout_refAt (refs : List CStructRef) (i : Nat) :
    KeepsLayout (refAt refs i : SectionM σ CStructRef) := by
  unfold refAt
  cases refs[i]? with
  | some r => exact keeps_pure SameLayout.refl r
  | none => exact keeps_throw _

/-! ## The length of the packed bytes -/

theorem length_fitBytes (n : Nat) (b : Bytes) : (fitBytes n b).length = n := by
  simp only [fitBytes, List.length_append, List.length_take, List.length_replicate]
  omega

/-- Only a size that is a number and not negative holds bytes. -/
theorem packBytes_eq_ok_iff {size : PyNumber} {b packed : Bytes} :
    packBytes size b = .ok packed ↔
      ∃ n : Int, size = .int n ∧ 0 ≤ n ∧ packed = fitBytes n.toNat b := by
  cases size with
  | int n =>
    rw [packBytes]
    constructor
    · intro h
      by_cases hn : 0 ≤ n
      · rw [if_pos hn] at h
        exact ⟨n, rfl, hn, (Except.ok.inj h).symm⟩
      · rw [if_neg hn] at h
        cases h
    · rintro ⟨m, hm, hn, rfl⟩
      cases hm
      exact if_pos hn
  | bool flag =>
    constructor
    · intro h
      cases h
    · rintro ⟨n, hn, -⟩
      cases hn

theorem length_packItem {item : FormatItem} {v : FieldValue} {b : Bytes}
    (h : packItem item v = .ok b) : 0 ≤ item.size ∧ (b.length : Int) = item.size := by
  cases item with
  | scalar format =>
    cases v with
    | int v =>
      rw [packItem] at h
      split at h
      · cases h
        refine ⟨Int.natCast_nonneg _, ?_⟩
        rw [length_leBytes]
        rfl
      · cases h
    | bytes b => cases h
  | bytes size =>
    cases v with
    | int v => cases h
    | bytes b =>
      obtain ⟨n, rfl, hsize, rfl⟩ := packBytes_eq_ok_iff.mp h
      refine ⟨hsize, ?_⟩
      rw [length_fitBytes]
      exact Int.toNat_of_nonneg hsize

/-- Bytes packed one after the other, piece by piece. -/
theorem packAll_eq_ok_iff {α : Type} {pack : α → Except PyError Bytes} {xs : List α} {b : Bytes} :
    packAll pack xs = .ok b ↔
      ∃ parts, List.Forall₂ (fun x p => pack x = .ok p) xs parts ∧ parts.flatten = b := by
  induction xs generalizing b with
  | nil =>
    simp only [packAll, Except.ok.injEq, List.forall₂_nil_left_iff, exists_eq_left,
      List.flatten_nil]
  | cons x xs ih =>
    rw [packAll]
    constructor
    · intro h
      cases hx : pack x with
      | error e => rw [hx] at h; cases h
      | ok p =>
        cases hxs : packAll pack xs with
        | error e => rw [hx, hxs] at h; cases h
        | ok rest =>
          rw [hx, hxs] at h
          obtain ⟨parts, hparts, hflat⟩ := ih.mp hxs
          cases h
          exact ⟨p :: parts, List.Forall₂.cons hx hparts, by rw [List.flatten_cons, hflat]⟩
    · rintro ⟨_, hparts, rfl⟩
      cases hparts with
      | @cons _ p _ parts hx hrest =>
        rw [hx, ih.mpr ⟨parts, hrest, rfl⟩]
        rfl

/-- The length of packed bytes adds up. -/
theorem length_packAll {α : Type} {pack : α → Except PyError Bytes} (size : α → Int)
    {xs : List α} (hpack : ∀ x ∈ xs, ∀ b, pack x = .ok b → 0 ≤ size x ∧ (b.length : Int) = size x)
    {b : Bytes} (h : packAll pack xs = .ok b) :
    (∀ x ∈ xs, 0 ≤ size x) ∧ (b.length : Int) = (xs.map size).sum := by
  obtain ⟨parts, hparts, rfl⟩ := packAll_eq_ok_iff.mp h
  induction hparts with
  | nil => simp
  | @cons x p xs parts hx hrest ih =>
    obtain ⟨hnonneg, hlen⟩ := hpack x List.mem_cons_self p hx
    obtain ⟨hall, hsum⟩ := ih (fun y hy => hpack y (List.mem_cons_of_mem x hy))
      (packAll_eq_ok_iff.mpr ⟨parts, hrest, rfl⟩)
    refine ⟨List.forall_mem_cons.mpr ⟨hnonneg, hall⟩, ?_⟩
    rw [List.flatten_cons, List.length_append, List.map_cons, List.sum_cons, Nat.cast_add, hlen,
      hsum]

theorem length_pack_struct {c : CStruct} {b : Bytes} (h : c.pack = .ok b) :
    (∀ item ∈ c.format, 0 ≤ item.size) ∧ (b.length : Int) = formatSize c.format := by
  unfold CStruct.pack at h
  simp only at h
  split at h
  next hlen =>
    have hzip := length_packAll (fun p : FormatItem × FieldValue => p.1.size)
      (fun p _ b hb => length_packItem hb) h
    have hfst : (c.format.zip (c.fields.values.map (·.value))).map Prod.fst = c.format :=
      List.map_fst_zip (by rw [hlen])
    constructor
    · intro item hitem
      rw [← hfst, List.mem_map] at hitem
      obtain ⟨p, hp, rfl⟩ := hitem
      exact hzip.1 p hp
    · rw [hzip.2, formatSize]
      conv_rhs => rw [← hfst, List.map_map]
      rfl
  · cases h

/-- A layout without negative sizes. -/
def StructLayout.Nonneg (l : StructLayout) : Prop := ∀ item ∈ l.format, 0 ≤ item.size

theorem formatSize_nonneg {format : List FormatItem} (h : ∀ item ∈ format, 0 ≤ item.size) :
    0 ≤ formatSize format :=
  List.sum_nonneg fun x hx => by
    obtain ⟨item, hitem, rfl⟩ := List.mem_map.mp hx
    exact h item hitem

theorem length_pack_parent {p : CStructParent} {b : Bytes} (h : p.pack = .ok b) :
    (∀ c ∈ p.structs, ∀ item ∈ c.format, 0 ≤ item.size) ∧
      (b.length : Int) = (p.structs.map fun c => formatSize c.format).sum := by
  have hsize := length_packAll (fun c : CStruct => formatSize c.format)
    (fun c _ b hb => ⟨formatSize_nonneg (length_pack_struct hb).1, (length_pack_struct hb).2⟩) h
  refine ⟨fun c hc => ?_, hsize.2⟩
  obtain ⟨parts, hparts, -⟩ := packAll_eq_ok_iff.mp h
  obtain ⟨i, hi, rfl⟩ := List.getElem_of_mem hc
  have hlen := hparts.length_eq
  exact (length_pack_struct (hparts.get hi (by omega))).1

namespace FlashSection

/-- The bytes of the structures. -/
def packed (s : FlashSection σ) : Except PyError Bytes := packAll CStructParent.pack s.structs

/-- Packing succeeds on non-negative sizes only, and yields as many bytes as the
layouts say. -/
theorem length_packed {s : FlashSection σ} {b : Bytes} (h : s.packed = .ok b) :
    (∀ l ∈ s.layouts, l.Nonneg) ∧
      (b.length : Int) = (s.layouts.map fun l => formatSize l.format).sum := by
  unfold packed at h
  unfold layouts
  obtain ⟨parts, hparts, rfl⟩ := packAll_eq_ok_iff.mp h
  clear h
  generalize s.structs = structs at hparts ⊢
  induction hparts with
  | nil => simp
  | @cons p b ps parts hp hrest ih =>
    obtain ⟨hnonneg, hlen⟩ := length_pack_parent hp
    rw [List.flatMap_cons]
    constructor
    · intro l hl
      rw [List.mem_append] at hl
      cases hl with
      | inl hl =>
        obtain ⟨c, hc, rfl⟩ := List.mem_map.mp hl
        exact hnonneg c hc
      | inr hl => exact ih.1 l hl
    · rw [List.flatten_cons, List.length_append, Nat.cast_add, hlen, ih.2, List.map_append,
        List.sum_append, List.map_map]
      rfl

end FlashSection

end SoftHier.Gapy
