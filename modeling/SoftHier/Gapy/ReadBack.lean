/-
  Gapy/ReadBack.lean --- finding packed values in an image.

  `Holds image pos bytes` says that some bytes lie at a position of an image.
  A flash image holds the image of each section at the section's offset, a
  section image holds each structure behind the ones before it, and a structure
  holds each field behind the ones before it; positions add up.
-/
import SoftHier.Gapy.FlashOverlap

set_option autoImplicit false

namespace SoftHier.Gapy

open SoftHier.Foundation Program

/-! ## Bytes at a position -/

/-- The image has the bytes at the position. -/
def HoldsAt (image : Bytes) (pos : Nat) (bytes : Bytes) : Prop :=
  slice image pos bytes.length = bytes

theorem HoldsAt.trans {image outer inner : Bytes} {pos off : Nat} (h : HoldsAt image pos outer)
    (h' : HoldsAt outer off inner) (hfit : off + inner.length ≤ outer.length) :
    HoldsAt image (pos + off) inner := by
  unfold HoldsAt at *
  rw [← slice_slice hfit, h, h']

/-- A number read from an image, as a boot ROM reads it: little-endian. -/
def readNat (image : Bytes) (pos len : Nat) : Nat := leValue (slice image pos len)

theorem HoldsAt.readNat_eq {image : Bytes} {pos n v : Nat} (h : HoldsAt image pos (leBytes n v))
    (hv : v < 256 ^ n) : readNat image pos n = v := by
  unfold HoldsAt at h
  rw [length_leBytes] at h
  rw [readNat, h, leValue_leBytes hv]

/-- A piece of packed bytes lies behind the pieces before it. -/
theorem holdsAt_packAll {α : Type} {pack : α → Except PyError Bytes} (size : α → Int)
    {xs : List α} (hpack : ∀ x ∈ xs, ∀ b, pack x = .ok b → 0 ≤ size x ∧ (b.length : Int) = size x)
    {b : Bytes} (h : packAll pack xs = .ok b) {i : Nat} {x : α} (hx : xs[i]? = some x) :
    ∃ (c : Bytes) (pos : Nat), pack x = .ok c ∧ (c.length : Int) = size x ∧
      (pos : Int) = ((xs.take i).map size).sum ∧ HoldsAt b pos c ∧ pos + c.length ≤ b.length := by
  obtain ⟨parts, hparts, rfl⟩ := packAll_eq_ok_iff.mp h
  obtain ⟨c, hc, hpackx⟩ := getElem?_forall₂ hparts hx
  have hpre : packAll pack (xs.take i) = .ok (parts.take i).flatten :=
    packAll_eq_ok_iff.mpr ⟨parts.take i, List.forall₂_take i hparts, rfl⟩
  have hlen := (length_packAll size (fun y hy => hpack y (List.mem_of_mem_take hy)) hpre).2
  refine ⟨c, (parts.take i).flatten.length, hpackx,
    (hpack x (List.mem_of_getElem? hx) c hpackx).2, hlen, slice_flatten hc, ?_⟩
  have hsplit : parts.flatten = (parts.take i).flatten ++ (c ++ (parts.drop (i + 1)).flatten) := by
    have hi : i < parts.length := (List.getElem?_eq_some_iff.mp hc).1
    have hci : parts[i] = c := (List.getElem?_eq_some_iff.mp hc).2
    conv_lhs => rw [← List.take_append_drop i parts, List.drop_eq_getElem_cons hi, hci]
    rw [List.flatten_append, List.flatten_cons]
  rw [hsplit]
  simp only [List.length_append]
  omega

/-! ## Fields of a structure -/

theorem length_pack_field {f : FieldSpec} {b : Bytes} (h : f.pack = .ok b) :
    0 ≤ f.size ∧ (b.length : Int) = f.size := length_packItem h

theorem length_pack_spec {spec : StructSpec} {b : Bytes} (h : spec.pack = .ok b) :
    0 ≤ spec.size ∧ (b.length : Int) = spec.size := by
  obtain ⟨hnonneg, hlen⟩ :=
    length_packAll FieldSpec.size (fun f _ b hb => length_pack_field hb) h
  exact ⟨List.sum_nonneg fun x hx => by
    obtain ⟨f, hf, rfl⟩ := List.mem_map.mp hx
    exact hnonneg f hf, hlen⟩

/-- A scalar field of packed bytes holds its value, little-endian. -/
theorem pack_scalar {name : String} {format : ScalarFormat} {v : Int} {b : Bytes}
    (h : FieldSpec.pack ⟨name, .scalar format, .int v⟩ = .ok b) :
    0 ≤ v ∧ v.toNat < 256 ^ format.size ∧ b = leBytes format.size v.toNat := by
  unfold FieldSpec.pack at h
  rw [packItem] at h
  split at h
  next hrange =>
    cases h
    refine ⟨hrange.1, ?_, rfl⟩
    have hcast : ((v.toNat : Nat) : Int) < (256 ^ format.size : Nat) := by
      rw [Int.toNat_of_nonneg hrange.1]
      exact_mod_cast hrange.2
    exact_mod_cast hcast
  · cases h

/-- An array field holds its bytes, cut or padded to its size. -/
theorem pack_array {name : String} {size : PyNumber} {v b : Bytes}
    (h : FieldSpec.pack ⟨name, .bytes size, .bytes v⟩ = .ok b) :
    b = fitBytes size.toInt.toNat v := by
  obtain ⟨n, rfl, -, rfl⟩ := packBytes_eq_ok_iff.mp h
  rfl

theorem fitBytes_self {v : Bytes} {n : Nat} (h : v.length = n) : fitBytes n v = v := by
  rw [fitBytes, List.take_of_length_le (by omega), Nat.sub_eq_zero_of_le (by omega),
    List.replicate_zero, List.append_nil]

/-- Where a structure's field lies in the structure's bytes. -/
theorem holdsAt_field {spec : StructSpec} {b : Bytes} (h : spec.pack = .ok b) {j : Nat}
    {f : FieldSpec} (hf : spec.fields[j]? = some f) :
    ∃ (c : Bytes) (pos : Nat), f.pack = .ok c ∧ (pos : Int) = fieldsSize (spec.fields.take j) ∧
      HoldsAt b pos c ∧ pos + c.length ≤ b.length := by
  obtain ⟨c, pos, hc, -, hpos, hholds, hfit⟩ :=
    holdsAt_packAll FieldSpec.size (fun f _ b hb => length_pack_field hb) h hf
  exact ⟨c, pos, hc, hpos, hholds, hfit⟩

/-- A scalar field, read back from an image that holds the structure. -/
theorem HoldsAt.readField {image b : Bytes} {pos : Nat} (h : HoldsAt image pos b)
    {spec : StructSpec} (hspec : spec.pack = .ok b) {j : Nat} {name : String}
    {format : ScalarFormat} {v : Int} (hf : spec.fields[j]? = some ⟨name, .scalar format, .int v⟩)
    {off : Nat} (hoff : (off : Int) = fieldsSize (spec.fields.take j)) :
    0 ≤ v ∧ readNat image (pos + off) format.size = v.toNat := by
  obtain ⟨c, off', hc, hoff', hholds, hfit⟩ := holdsAt_field hspec hf
  obtain rfl : off = off' := by omega
  obtain ⟨hv, hlt, rfl⟩ := pack_scalar hc
  exact ⟨hv, (h.trans hholds hfit).readNat_eq hlt⟩

/-- An array field, read back from an image that holds the structure. -/
theorem HoldsAt.field_array {image b : Bytes} {pos : Nat} (h : HoldsAt image pos b)
    {spec : StructSpec} (hspec : spec.pack = .ok b) {j : Nat} {name : String}
    {size : PyNumber} {v : Bytes} (hf : spec.fields[j]? = some ⟨name, .bytes size, .bytes v⟩)
    {off : Nat} (hoff : (off : Int) = fieldsSize (spec.fields.take j)) :
    HoldsAt image (pos + off) (fitBytes size.toInt.toNat v) := by
  obtain ⟨c, off', hc, hoff', hholds, hfit⟩ := holdsAt_field hspec hf
  obtain rfl : off = off' := by omega
  obtain rfl := pack_array hc
  exact h.trans hholds hfit

/-! ## Structures of a section -/

/-- The bytes of a section that holds only specified structures. -/
theorem FlashSection.packed_holding {σ : Type} {u : FlashSection σ} (hu : u.structs = [])
    (t : String) (specs : List StructSpec) :
    (u.holding t specs).packed = packAll StructSpec.pack specs := by
  unfold FlashSection.packed
  simp only [FlashSection.holding, hu, List.nil_append, packAll, CStructParent.pack,
    packAll_structsOf]
  cases packAll StructSpec.pack specs with
  | error e => rfl
  | ok b => simp only [List.append_nil]

theorem FlashSection.laidOut_holding {σ : Type} {u : FlashSection σ} (hu : u.structs = [])
    (t : String) (specs : List StructSpec) : (u.holding t specs).LaidOut := by
  refine ⟨specs, ?_, rfl⟩
  rw [FlashSection.layouts_holding]
  unfold FlashSection.layouts
  rw [hu, List.flatMap_nil, List.nil_append]
  rfl

/-- The image of a section that holds only specified structures holds each of
them behind the ones before it. -/
theorem FlashSection.holdsAt_struct {σ : Type} {u : FlashSection σ} (hu : u.structs = [])
    {t : String} {specs : List StructSpec} {image : Bytes}
    (h : (u.holding t specs).getImage = .ok image) {i : Nat} {spec : StructSpec}
    (hspec : specs[i]? = some spec) :
    ∃ (b : Bytes) (pos : Nat), spec.pack = .ok b ∧ (pos : Int) = specsSize (specs.take i) ∧
      HoldsAt image pos b ∧ pos + b.length ≤ image.length := by
  obtain ⟨packed, size, hpacked, -, -, rfl⟩ := FlashSection.getImage_eq_ok_iff.mp h
  rw [FlashSection.packed_holding hu] at hpacked
  obtain ⟨b, pos, hb, -, hpos, hholds, hfit⟩ :=
    holdsAt_packAll StructSpec.size (fun s _ b hb => length_pack_spec hb) hpacked hspec
  refine ⟨b, pos, hb, hpos, ?_, ?_⟩
  · unfold HoldsAt at *
    rw [slice_append_of_le hfit, hholds]
  · rw [List.length_append]
    omega

/-! ## Sections of a flash -/

namespace Flash

variable {host : Host} {f f' : Flash}

/-- The image of a parsed flash holds every section at its offset. -/
theorem ParseOf.holdsAt_section {entries : List ContentSection}
    {created placed : List (String × Section)} (hof : ParseOf host f f' entries created placed)
    {full : Bytes} (h : Returns (getImage host none none) f' full f') {s : Section}
    (hs : s ∈ f'.sections.values) :
    ∃ bytes, s.getImage = .ok bytes ∧ s.getSize = .ok bytes.length ∧ 0 ≤ s.offset ∧
      HoldsAt full s.offset.toNat bytes := by
  have hparsed : f'.contentParsed = true := by rw [hof.frame]
  have himage := (returns_getImage_iff hparsed).mp h
  have hall : (f'.sections.values.take ((none : Option Nat).getD f'.sections.length + 1)).drop
      ((none : Option Nat).getD 0) = f'.sections.values := by
    change (f'.sections.values.take (f'.sections.length + 1)).drop 0 = _
    rw [List.drop_zero, List.take_of_length_le (by rw [Dict.length_values]; omega)]
  rw [hall] at himage
  have hfirst := fun a => hof.first_offset (a := a)
  generalize f'.sections.values = ss at *
  cases ss with
  | nil => exact absurd hs List.not_mem_nil
  | cons a ss =>
    have ha : a.offset = 0 := hfirst a rfl
    obtain ⟨bs, hbs, horder, rfl⟩ := imageFrom_none_iff.mp himage
    obtain ⟨i, hi⟩ := List.mem_iff_getElem?.mp hs
    obtain ⟨b, hb, hpos, hbytes⟩ := getElem?_forall₂ hbs hi
    have hmem := List.mem_of_getElem? hb
    have hslice := slice_assemble horder hmem
    have hbound := (horder.bounds hmem).1
    rw [ha] at hslice hbound
    rw [hpos, Int.sub_zero] at hslice
    rw [hpos] at hbound
    refine ⟨b.2, hbytes, FlashSection.length_getImage hbytes, hbound, ?_⟩
    unfold HoldsAt
    rw [ha, hslice]

theorem Placements.at_index {flash : FlashContext} {limit : Nat} {startAlign sizeAlign : Option Int}
    {offset : Int} {cs : List ContentSection} {es ps : List (String × Section)}
    (h : Placements host flash limit startAlign sizeAlign offset cs es ps) {i : Nat}
    {p : String × Section} (hp : ps[i]? = some p) :
    ∃ c o e, cs[i]? = some c ∧ es[i]? = some e ∧ Returns (Section.setContent host flash o c)
      (e.2.setAlignments startAlign sizeAlign) () p.2 := by
  induction h generalizing i with
  | nil => simp at hp
  | @cons o size c name s s' cs es ps content reported _ _ ih =>
    cases i with
    | zero =>
      obtain rfl := Option.some.inj hp
      exact ⟨c, o, (name, s), rfl, rfl, content⟩
    | succ i => exact ih hp

/-- The sections keep the names they were created under. -/
theorem ParseOf.keys {entries : List ContentSection} {created placed : List (String × Section)}
    (hof : ParseOf host f f' entries created placed) :
    created.map Prod.fst = f'.sections.keys := by
  rw [← hof.placements.map_fst, Dict.keys]
  have hnames := hof.finalized.imp fun p q hpq => hpq.1
  exact (List.forall₂_eq_eq_eq ▸ (List.forall₂_map_right_iff.mpr
    (List.forall₂_map_left_iff.mpr (hnames.imp fun _ _ h => h.symm))))

/-- Section number `i` of a parsed flash: the entry it comes from, how it was
created, placed and finalized. -/
theorem ParseOf.at_entry {entries : List ContentSection}
    {created placed : List (String × Section)} (hof : ParseOf host f f' entries created placed)
    {i : Nat} {s : Section} (hs : f'.sections.values[i]? = some s) :
    ∃ given content name templateName template o p,
      f.contentSections[i]? = some given ∧ entries[i]? = some content ∧
      given.name = some name ∧ given.template = some templateName ∧
      f.sectionsTemplates.get templateName = some template ∧
      Returns (Section.setContent host (f.contextWith f'.sections.keys) o content)
        ((SectionTemplate.new template name i).setAlignments
          (f.flashAttributes.get "section_start_align")
          (f.flashAttributes.get "section_size_align")) () p ∧
      Returns (Section.finalize (f'.sections.values.map Section.view)) p () s := by
  have hkeys := hof.keys
  have hviews : placed.map (fun e => e.2.view) = f'.sections.values.map Section.view := by
    rw [Dict.values, List.map_map]
    have hviews := hof.finalized.imp fun p q hpq => (Section.finalize_inv hpq.2).view
    exact (List.forall₂_eq_eq_eq ▸ (List.forall₂_map_right_iff.mpr
      (List.forall₂_map_left_iff.mpr (hviews.imp fun _ _ h => h.symm))))
  rw [Dict.values, List.getElem?_map] at hs
  obtain ⟨q, hq, rfl⟩ := Option.map_eq_some_iff.mp hs
  obtain ⟨p, hp, hname, hfinalize⟩ := getElem?_forall₂ hof.finalized.flip hq
  obtain ⟨c, o, e, hc, he, hset⟩ := hof.placements.at_index hp
  obtain ⟨r, hr, hgiven, templateName, template, htemplate, hget, hnew⟩ :=
    getElem?_forall₂ hof.creation.flip he
  rw [List.getElem?_zipIdx] at hr
  obtain ⟨given, hat, rfl⟩ := Option.map_eq_some_iff.mp hr
  rw [hnew, hkeys] at hset
  simp only [Nat.zero_add] at hset
  rw [hviews] at hfinalize
  exact ⟨given, c, e.1, templateName, template, o, p.2, hat, hc, hgiven, htemplate, hget, hset,
    hfinalize⟩

/-- Section number `i` of a parsed flash: how it was created, placed and
finalized. -/
theorem ParseOf.at_index {entries : List ContentSection}
    {created placed : List (String × Section)} (hof : ParseOf host f f' entries created placed)
    {i : Nat} {s : Section} (hs : f'.sections.values[i]? = some s) :
    ∃ c o name template p,
      Returns (Section.setContent host (f.contextWith f'.sections.keys) o c)
        ((SectionTemplate.new template name i).setAlignments
          (f.flashAttributes.get "section_start_align")
          (f.flashAttributes.get "section_size_align")) () p ∧
      Returns (Section.finalize (f'.sections.values.map Section.view)) p () s := by
  obtain ⟨_, c, name, _, template, o, p, -, -, -, -, -, hset, hfinalize⟩ := hof.at_entry hs
  exact ⟨c, o, name, template, p, hset, hfinalize⟩

end Flash

end SoftHier.Gapy
