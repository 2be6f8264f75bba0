/-
  Gapy/SectionImage.lean --- the size a section reports and the bytes it yields.

  `get_size` never reports less than what the section has allocated, and
  `get_image` yields exactly as many bytes as `get_size` reports.  On a laid out
  section whose values fit their fields, `get_image` succeeds.
-/
import SoftHier.Gapy.SectionLayout

set_option autoImplicit false

namespace SoftHier.Gapy

open SoftHier.Foundation Program

variable {σ τ : Type}

/-! ## Laid out sections -/

theorem formatSize_structOf (offset : Int) (spec : StructSpec) :
    formatSize (structOf offset spec).layout.format = spec.size := by
  change ((spec.fields.map FieldSpec.kind).map FormatItem.size).sum =
    (spec.fields.map FieldSpec.size).sum
  rw [List.map_map]
  rfl

theorem sum_formatSize_structsOf (offset : Int) (specs : List StructSpec) :
    (((structsOf offset specs).map CStruct.layout).map fun l => formatSize l.format).sum =
      specsSize specs := by
  induction specs generalizing offset with
  | nil => rfl
  | cons spec specs ih =>
    rw [structsOf, List.map_cons, List.map_cons, List.sum_cons, ih, formatSize_structOf,
      specsSize_cons]

namespace FlashSection

theorem layouts_holding (s : FlashSection σ) (t : String) (specs : List StructSpec) :
    (s.holding t specs).layouts = s.layouts ++ (structsOf s.offset specs).map CStruct.layout := by
  simp [layouts, holding]

/-- The structures of a section lie one after the other, from its offset up to
the allocator. -/
def LaidOut (s : FlashSection σ) : Prop :=
  ∃ specs : List StructSpec,
    s.layouts = (structsOf s.offset specs).map CStruct.layout ∧
      s.currentOffset = s.offset + specsSize specs

theorem LaidOut.of_sameLayout {s : FlashSection σ} {t : FlashSection τ} (h : s.LaidOut)
    (hst : s.SameLayout t) : t.LaidOut := by
  obtain ⟨specs, hlayouts, hcurrent⟩ := h
  refine ⟨specs, ?_, ?_⟩
  · rw [hst.layouts, hst.offset, hlayouts]
  · rw [hst.currentOffset, hst.offset, hcurrent]

/-- What a section has allocated. -/
def allocated (s : FlashSection σ) : Int := s.currentOffset - s.offset

theorem LaidOut.length_packed {s : FlashSection σ} (h : s.LaidOut) {b : Bytes}
    (hb : s.packed = .ok b) : (b.length : Int) = s.allocated := by
  obtain ⟨specs, hlayouts, hcurrent⟩ := h
  rw [(FlashSection.length_packed hb).2, hlayouts, sum_formatSize_structsOf, allocated, hcurrent]
  omega

/-! ## The reported size -/

/-- A size rounded up to an alignment that may be absent. -/
def roundUp (align : Option Int) (size : Int) : Int :=
  match align with
  | some align => alignUp size align
  | none => size

theorem le_roundUp {align : Option Int} (h : ∀ a, align = some a → 1 ≤ a) (size : Int) :
    size ≤ roundUp align size := by
  cases align with
  | none => exact le_refl _
  | some a => exact le_alignUp (h a rfl) size

theorem roundUp_nonneg {size : Int} (h : 0 ≤ size) (align : Option Int) :
    0 ≤ roundUp align size := by
  cases align with
  | none => exact h
  | some a => exact alignUp_nonneg h a

/-- Where a reported size comes from: what is allocated, or a forced size that
is not smaller; then it is rounded up. -/
theorem getSize_inv {s : FlashSection σ} {size : Int} (h : s.getSize = .ok size) :
    ∃ v w content, s.getProperty "size" = .ok v ∧ v.ofCommandLine = .ok w ∧
      size = roundUp s.sizeAlign content ∧
      ((w = .none ∨ w.eqInt (-1) = true) ∧ content = s.allocated ∨
        ¬ (w = .none ∨ w.eqInt (-1) = true) ∧ w.operand = .ok content ∧
          s.allocated ≤ content) := by
  rw [FlashSection.getSize, map_eq_ok_iff] at h
  obtain ⟨n, h, rfl⟩ := h
  unfold getSizeNumber at h
  obtain ⟨v, hv, h⟩ := bind_eq_ok_iff.mp h
  obtain ⟨w, hw, h⟩ := bind_eq_ok_iff.mp h
  by_cases hunforced : w = .none ∨ w.eqInt (-1) = true
  · rw [if_pos hunforced] at h
    refine ⟨v, w, s.allocated, hv, hw, ?_, .inl ⟨hunforced, rfl⟩⟩
    cases ha : s.sizeAlign <;> rw [ha] at h <;> cases h <;> rfl
  · rw [if_neg hunforced] at h
    obtain ⟨requested, ho, h⟩ := bind_eq_ok_iff.mp h
    have hfits : n.toInt = roundUp s.sizeAlign requested.toInt ∧
        s.allocated ≤ requested.toInt := by
      cases ha : s.sizeAlign with
      | none =>
        rw [ha] at h
        obtain ⟨aligned, -, h⟩ := bind_eq_ok_iff.mp h
        dsimp only at h
        by_cases hbad : s.currentOffset - s.offset > requested.toInt ∨ aligned ≠ requested.toInt
        · rw [if_pos hbad] at h
          cases h
        · rw [if_neg hbad] at h
          cases h
          exact ⟨rfl, not_lt.mp fun hlarger => hbad (.inl hlarger)⟩
      | some a =>
        cases hb : s.startAlign with
        | none => rw [ha, hb] at h; cases h
        | some b =>
          rw [ha, hb] at h
          obtain ⟨aligned, -, h⟩ := bind_eq_ok_iff.mp h
          dsimp only at h
          by_cases hbad :
              s.currentOffset - s.offset > requested.toInt ∨ aligned ≠ requested.toInt
          · rw [if_pos hbad] at h
            cases h
          · rw [if_neg hbad] at h
            cases h
            exact ⟨rfl, not_lt.mp fun hlarger => hbad (.inl hlarger)⟩
    have hoperand : w.operand = .ok requested.toInt := by
      rw [PyValue.operand_eq_map, ho]
      rfl
    exact ⟨v, w, requested.toInt, hv, hw, hfits.1, .inr ⟨hunforced, hoperand, hfits.2⟩⟩

/-- What is allocated fits in the reported size. -/
theorem allocated_le_getSize {s : FlashSection σ} (ha : ∀ a, s.sizeAlign = some a → 1 ≤ a)
    {size : Int} (h : s.getSize = .ok size) : s.allocated ≤ size := by
  obtain ⟨v, w, content, -, -, rfl, hcontent⟩ := getSize_inv h
  refine le_trans ?_ (le_roundUp ha content)
  obtain ⟨-, rfl⟩ | ⟨-, -, hle⟩ := hcontent
  · exact le_refl _
  · exact hle

theorem getSize_nonneg {s : FlashSection σ} (ha : 0 ≤ s.allocated) {size : Int}
    (h : s.getSize = .ok size) : 0 ≤ size := by
  obtain ⟨v, w, content, -, -, rfl, hcontent⟩ := getSize_inv h
  refine roundUp_nonneg ?_ s.sizeAlign
  obtain ⟨-, rfl⟩ | ⟨-, -, hle⟩ := hcontent
  · exact ha
  · exact le_trans ha hle

/-! ## The image -/

/-- The image is the packed structures, zero-padded to the reported size. -/
theorem getImage_eq_ok_iff {s : FlashSection σ} {image : Bytes} :
    s.getImage = .ok image ↔
      ∃ b size, s.packed = .ok b ∧ s.getSize = .ok size ∧ (b.length : Int) ≤ size ∧
        image = b ++ List.replicate (size - b.length).toNat 0 := by
  unfold FlashSection.getImage
  change (do
    let result ← s.packed
    _) = _ ↔ _
  cases hb : s.packed with
  | error e => simp [bind, Except.bind]
  | ok b =>
    unfold FlashSection.getSize
    cases s.getSizeNumber with
    | error e => simp [bind, Except.bind, Except.map]
    | ok number =>
      generalize hsize : number.toInt = size
      simp only [Except.map, hsize, bind, Except.bind, pure, Except.pure, throw, throwThe,
        MonadExceptOf.throw, Except.ok.injEq, exists_and_left, exists_eq_left']
      split
      next hlt =>
        rw [Except.ok.injEq]
        exact ⟨fun h => ⟨le_of_lt hlt, h.symm⟩, fun h => h.2.symm⟩
      next hnlt =>
        split
        next hgt =>
          constructor
          · intro h; cases h
          · rintro ⟨hle, -⟩; omega
        next hngt =>
          have hzero : (size - b.length).toNat = 0 := by omega
          rw [hzero, List.replicate_zero, List.append_nil, Except.ok.injEq]
          exact ⟨fun h => ⟨by omega, h.symm⟩, fun h => h.2.symm⟩

/-- The image is as long as the section says it is. -/
theorem length_getImage {s : FlashSection σ} {image : Bytes} (h : s.getImage = .ok image) :
    s.getSize = .ok image.length := by
  obtain ⟨b, size, -, hsize, hle, rfl⟩ := getImage_eq_ok_iff.mp h
  rw [hsize, List.length_append, List.length_replicate]
  congr 1
  omega

theorem LaidOut.getImage {s : FlashSection σ} (h : s.LaidOut)
    (ha : ∀ a, s.sizeAlign = some a → 1 ≤ a) {b : Bytes} {size : Int} (hb : s.packed = .ok b)
    (hs : s.getSize = .ok size) :
    s.getImage = .ok (b ++ List.replicate (size - b.length).toNat 0) := by
  refine getImage_eq_ok_iff.mpr ⟨b, size, hb, hs, ?_, rfl⟩
  rw [h.length_packed hb]
  exact allocated_le_getSize ha hs

/-! ## Placed sections -/

/-- The outcome of `set_content`: the section starts at `start`, has the
properties the content gives, and has allocated `specs` behind the structures
it had before. -/
structure PlacedAt (s s' : FlashSection σ) (start : Int) (content : ContentSection)
    (specs : List StructSpec) : Prop where
  name : s'.name = s.name
  sectionId : s'.sectionId = s.sectionId
  sizeAlign : s'.sizeAlign = s.sizeAlign
  startAlign : s'.startAlign = s.startAlign
  offset : s'.offset = start
  property : ∀ name, s'.properties.get name =
    (s.properties.get name).map fun p => p.given (content.properties.bind fun d => d.get name)
  layouts : s'.layouts = s.layouts ++ (structsOf start specs).map CStruct.layout
  allocated : s'.allocated = specsSize specs

/-- Structures appended to a started section, then values set. -/
theorem PlacedAt.of_sameLayout {s s' : FlashSection σ} {start : Int} {content : ContentSection}
    {properties : Dict String FlashSectionProperty}
    (hget : ∀ name, properties.get name =
      (s.properties.get name).map fun p => p.given (content.properties.bind fun d => d.get name))
    {a : σ} {t : String} {specs : List StructSpec}
    (h : (((s.started properties start).withSelf a).holding t specs).SameLayout s') :
    s.PlacedAt s' start content specs where
  name := h.name
  sectionId := h.sectionId
  sizeAlign := h.sizeAlign
  startAlign := h.startAlign
  offset := h.offset
  property name := by rw [h.properties]; exact hget name
  layouts := by rw [h.layouts, layouts_holding]; rfl
  allocated := by
    rw [FlashSection.allocated, h.offset, h.currentOffset]
    change start + specsSize specs - start = specsSize specs
    omega

theorem PlacedAt.laidOut {s s' : FlashSection σ} {start : Int} {content : ContentSection}
    {specs : List StructSpec} (h : s.PlacedAt s' start content specs) (hs : s.structs = []) :
    s'.LaidOut := by
  refine ⟨specs, ?_, ?_⟩
  · rw [h.layouts, h.offset]
    unfold FlashSection.layouts
    rw [hs, List.flatMap_nil, List.nil_append]
  · have := h.allocated
    unfold FlashSection.allocated at this
    omega

end FlashSection

/-! ## Values that fit their fields -/

/-- A size that the format of an array can have: no boolean, and not negative. -/
def PyNumber.IsSize : PyNumber → Prop
  | .int n => 0 ≤ n
  | .bool _ => False

instance : DecidablePred PyNumber.IsSize
  | .int n => inferInstanceAs (Decidable (0 ≤ n))
  | .bool _ => inferInstanceAs (Decidable False)

@[simp] theorem PyNumber.isSize_int (n : Int) : (PyNumber.int n).IsSize ↔ 0 ≤ n := Iff.rfl

theorem PyNumber.IsSize.exists_packBytes {size : PyNumber} (h : size.IsSize) (b : Bytes) :
    ∃ packed, packBytes size b = .ok packed := by
  cases size with
  | int n =>
    have hn : 0 ≤ n := h
    exact ⟨_, if_pos hn⟩
  | bool flag => exact h.elim

/-- A value its format can hold: a number within the range of a scalar, or a
byte string for an array of some size.  A byte string of another length is cut or
padded. -/
def FormatItem.Holds : FormatItem → FieldValue → Prop
  | .scalar format, .int v => 0 ≤ v ∧ v < 256 ^ format.size
  | .bytes size, .bytes _ => size.IsSize
  | _, _ => False

instance (item : FormatItem) (v : FieldValue) : Decidable (item.Holds v) :=
  match item, v with
  | .scalar format, .int v => inferInstanceAs (Decidable (0 ≤ v ∧ v < 256 ^ format.size))
  | .bytes size, .bytes _ => inferInstanceAs (Decidable size.IsSize)
  | .scalar _, .bytes _ => inferInstanceAs (Decidable False)
  | .bytes _, .int _ => inferInstanceAs (Decidable False)

theorem exists_packItem {item : FormatItem} {v : FieldValue} (h : item.Holds v) :
    ∃ b, packItem item v = .ok b := by
  cases item with
  | scalar format =>
    cases v with
    | int v =>
      have hrange : 0 ≤ v ∧ v < 256 ^ format.size := h
      exact ⟨_, if_pos hrange⟩
    | bytes b => exact h.elim
  | bytes size =>
    cases v with
    | int v => exact h.elim
    | bytes b =>
      have hsize : size.IsSize := h
      exact hsize.exists_packBytes b

/-- Every value of the section fits its field. -/
def FlashSection.ValuesFit (s : FlashSection σ) : Prop :=
  ∀ p ∈ s.structs, ∀ c ∈ p.structs, ∀ f ∈ c.fields.values, f.kind.Holds f.value

instance (s : FlashSection σ) : Decidable s.ValuesFit :=
  inferInstanceAs (Decidable (∀ p ∈ s.structs, ∀ c ∈ p.structs, ∀ f ∈ c.fields.values,
    f.kind.Holds f.value))

theorem exists_packAll {α : Type} {pack : α → Except PyError Bytes} {xs : List α}
    (h : ∀ x ∈ xs, ∃ b, pack x = .ok b) : ∃ b, packAll pack xs = .ok b := by
  induction xs with
  | nil => exact ⟨[], rfl⟩
  | cons x xs ih =>
    obtain ⟨b, hb⟩ := h x List.mem_cons_self
    obtain ⟨rest, hrest⟩ := ih fun y hy => h y (List.mem_cons_of_mem x hy)
    exact ⟨b ++ rest, by rw [packAll, hb, hrest]⟩

/-- A structure whose format lists the formats of its fields. -/
def CStruct.Matches (c : CStruct) : Prop := c.format = c.fields.values.map CStructField.kind

theorem exists_pack_struct {c : CStruct} (hformat : c.Matches)
    (h : ∀ f ∈ c.fields.values, f.kind.Holds f.value) : ∃ b, c.pack = .ok b := by
  have heq : c.format = c.fields.values.map CStructField.kind := hformat
  unfold CStruct.pack
  simp only
  rw [if_pos (by rw [heq, List.length_map, List.length_map]), heq]
  refine exists_packAll fun p hp => ?_
  rw [List.zip_map', List.mem_map] at hp
  obtain ⟨f, hf, rfl⟩ := hp
  exact exists_packItem (h f hf)

/-- Whether a format lists the formats of the fields depends on the layout. -/
theorem matches_of_layout_eq {c d : CStruct} (h : c.layout = d.layout) (hd : d.Matches) :
    c.Matches := by
  have hkinds : ∀ e : CStruct, e.fields.values.map CStructField.kind =
      e.layout.fields.map fun p => p.2.1 := by
    intro e
    simp only [Dict.values, CStruct.layout, List.map_map]
    rfl
  have hformat : c.format = d.format := congrArg StructLayout.format h
  unfold CStruct.Matches at hd ⊢
  rw [hformat, hd, hkinds, hkinds, h]

theorem matches_structOf (offset : Int) (spec : StructSpec) : (structOf offset spec).Matches := by
  unfold CStruct.Matches
  change spec.fields.map FieldSpec.kind = ((fieldsAt offset spec.fields).map Prod.snd).map _
  generalize spec.fields = fs
  induction fs generalizing offset with
  | nil => rfl
  | cons f fs ih => rw [fieldsAt, List.map_cons, List.map_cons, List.map_cons, ← ih]

theorem FlashSection.LaidOut.exists_packed {s : FlashSection σ} (h : s.LaidOut)
    (hfit : s.ValuesFit) : ∃ b, s.packed = .ok b := by
  obtain ⟨specs, hlayouts, -⟩ := h
  refine exists_packAll fun p hp => exists_packAll fun c hc => ?_
  have hmem : c.layout ∈ s.layouts :=
    List.mem_flatMap.mpr ⟨p, hp, List.mem_map_of_mem hc⟩
  rw [hlayouts] at hmem
  obtain ⟨d, hd, hlayout⟩ := List.mem_map.mp hmem
  obtain ⟨i, hi⟩ := List.mem_iff_getElem?.mp hd
  rw [getElem?_structsOf] at hi
  obtain ⟨spec, -, rfl⟩ := Option.map_eq_some_iff.mp hi
  exact exists_pack_struct (matches_of_layout_eq hlayout.symm (matches_structOf _ spec))
    (hfit p hp c hc)

end SoftHier.Gapy
