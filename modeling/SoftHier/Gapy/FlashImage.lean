/-
  Gapy/FlashImage.lean --- the image of a flash.

  `get_image` writes the images of the sections with zeros between them.  Each
  section image is as long as the section says, so the bytes of a section lie in
  the image where its offset says.
-/
import SoftHier.Foundation.Blocks
import SoftHier.Gapy.FlashLayout

set_option autoImplicit false

namespace SoftHier.Gapy

open SoftHier.Foundation Program

namespace Flash

/-! ## Sections as blocks -/

/-- The images of some sections at the offsets of the sections. -/
def BlocksOf (ss : List Section) (bs : List Block) : Prop :=
  List.Forall₂ (fun (s : Section) (b : Block) => b.1 = s.offset ∧ s.getImage = .ok b.2) ss bs

theorem stop_of_image {s : Section} {b : Block} (h : b.1 = s.offset ∧ s.getImage = .ok b.2) :
    ∃ size, s.getSize = .ok size ∧ b.stop = s.offset + size :=
  ⟨b.2.length, FlashSection.length_getImage h.2, by rw [Block.stop, h.1]⟩

/-- The sections behind another one, which ends at `stop`. -/
theorem imageFrom_some_iff {ss : List Section} {p : Section} {size : Int}
    (hp : p.getSize = .ok size) {image : Bytes} :
    imageFrom (some p) ss = .ok image ↔
      ∃ bs, BlocksOf ss bs ∧ InOrder (p.offset + size) bs ∧
        assemble (p.offset + size) bs = image := by
  induction ss generalizing p size image with
  | nil =>
    constructor
    · intro h
      cases h
      exact ⟨[], .nil, trivial, rfl⟩
    · rintro ⟨bs, hbs, -, rfl⟩
      cases hbs
      rfl
  | cons s ss ih =>
    have hunfold : imageFrom (some p) (s :: ss) = .ok image ↔
        p.offset + size ≤ s.offset ∧ ∃ bytes rest, s.getImage = .ok bytes ∧
          imageFrom (some s) ss = .ok rest ∧
          List.replicate (s.offset - (p.offset + size)).toNat 0 ++ bytes ++ rest = image := by
      rw [imageFrom]
      simp only [hp, bind, Except.bind, pure, Except.pure, throw, throwThe, MonadExceptOf.throw]
      have hgap : s.offset - p.offset - size = s.offset - (p.offset + size) := by omega
      rw [hgap]
      by_cases hneg : s.offset - (p.offset + size) < 0
      · simp only [if_pos hneg]
        constructor
        · intro h; cases h
        · rintro ⟨hle, -⟩; omega
      · simp only [if_neg hneg]
        cases s.getImage with
        | error e => simp
        | ok bytes =>
          cases imageFrom (some s) ss with
          | error e => simp
          | ok rest =>
            simp only [Except.ok.injEq, exists_and_left, exists_eq_left']
            exact ⟨fun h => ⟨by omega, h⟩, fun h => h.2⟩
    rw [hunfold]
    constructor
    · rintro ⟨hle, bytes, rest, hbytes, hrest, rfl⟩
      obtain ⟨bs, hbs, horder, rfl⟩ := (ih (FlashSection.length_getImage hbytes)).mp hrest
      exact ⟨(s.offset, bytes) :: bs, .cons ⟨rfl, hbytes⟩ hbs, ⟨hle, horder⟩, rfl⟩
    · rintro ⟨bs, hbs, horder, rfl⟩
      obtain ⟨b, bs, hb, hrest, rfl⟩ := List.forall₂_cons_left_iff.mp hbs
      obtain ⟨pos, bytes⟩ := b
      obtain ⟨rfl, hbytes⟩ := hb
      exact ⟨horder.1, bytes, assemble (s.offset + bytes.length) bs, hbytes,
        (ih (FlashSection.length_getImage hbytes)).mpr ⟨bs, hrest, horder.2, rfl⟩, rfl⟩

/-- An image that starts at its first section. -/
theorem imageFrom_none_iff {s : Section} {ss : List Section} {image : Bytes} :
    imageFrom none (s :: ss) = .ok image ↔
      ∃ bs, BlocksOf (s :: ss) bs ∧ InOrder s.offset bs ∧ assemble s.offset bs = image := by
  have hunfold : imageFrom none (s :: ss) = .ok image ↔
      ∃ bytes rest, s.getImage = .ok bytes ∧ imageFrom (some s) ss = .ok rest ∧
        bytes ++ rest = image := by
    rw [imageFrom]
    simp only [bind, Except.bind, pure, Except.pure]
    cases s.getImage with
    | error e => simp
    | ok bytes =>
      cases imageFrom (some s) ss with
      | error e => simp
      | ok rest => simp
  rw [hunfold]
  constructor
  · rintro ⟨bytes, rest, hbytes, hrest, rfl⟩
    obtain ⟨bs, hbs, horder, rfl⟩ :=
      (imageFrom_some_iff (FlashSection.length_getImage hbytes)).mp hrest
    refine ⟨(s.offset, bytes) :: bs, .cons ⟨rfl, hbytes⟩ hbs, ⟨le_refl _, horder⟩, ?_⟩
    rw [assemble, Int.sub_self, Int.toNat_zero, List.replicate_zero, List.nil_append]
    rfl
  · rintro ⟨bs, hbs, horder, rfl⟩
    obtain ⟨b, bs, hb, hrest, rfl⟩ := List.forall₂_cons_left_iff.mp hbs
    obtain ⟨pos, bytes⟩ := b
    obtain ⟨rfl, hbytes⟩ := hb
    refine ⟨bytes, assemble (s.offset + bytes.length) bs, hbytes,
      (imageFrom_some_iff (FlashSection.length_getImage hbytes)).mpr
        ⟨bs, hrest, horder.2, rfl⟩, ?_⟩
    rw [assemble, Int.sub_self, Int.toNat_zero, List.replicate_zero, List.nil_append]
    rfl

/-- No section starts before the end of the section before it. -/
def Increasing (ss : List Section) : Prop :=
  List.IsChain (fun a b : Section => ∀ size, a.getSize = .ok size → a.offset + size ≤ b.offset) ss

instance (a b : Section) :
    Decidable (∀ size, a.getSize = .ok size → a.offset + size ≤ b.offset) :=
  match h : a.getSize with
  | .error _ => isTrue (by rintro size ⟨⟩)
  | .ok size => decidable_of_iff (a.offset + size ≤ b.offset)
      ⟨fun hle _ heq => by cases heq; exact hle, fun hall => hall size rfl⟩

instance (ss : List Section) : Decidable (Increasing ss) :=
  inferInstanceAs (Decidable (List.IsChain _ ss))

theorem inOrder_of_increasing {ss : List Section} {bs : List Block} (hbs : BlocksOf ss bs)
    (h : Increasing ss) {origin : Int} (horigin : ∀ s, ss.head? = some s → origin ≤ s.offset) :
    InOrder origin bs := by
  induction hbs generalizing origin with
  | nil => trivial
  | @cons s b ss bs hb hrest ih =>
    refine ⟨?_, ih h.tail fun t ht => ?_⟩
    · rw [hb.1]
      exact horigin s rfl
    · obtain ⟨size, hsize, hstop⟩ := stop_of_image hb
      rw [hstop]
      cases ss with
      | nil => exact absurd ht nofun
      | cons u ss =>
        obtain rfl : u = t := by simpa using ht
        exact (List.isChain_cons_cons.mp h).1 size hsize

/-! ## The image of a parsed flash -/

variable {host : Host} {f f' : Flash}

theorem returns_parseContent_again {checkOverflow : Bool} (h : f.contentParsed = true) :
    Returns (parseContent host checkOverflow) f () f := by
  unfold parseContent
  rw [returns_get_bind, if_pos (.inl h)]
  exact returns_pure.mpr ⟨rfl, rfl⟩

theorem returns_getImage_inv {first last : Option Nat} {image : Bytes}
    (h : Returns (getImage host first last) f image f') :
    Returns (parseContent host true) f () f' ∧
      imageFrom none ((f'.sections.values.take (last.getD f'.sections.length + 1)).drop
        (first.getD 0)) = .ok image := by
  obtain ⟨_, f₁, hparse, hrest⟩ := returns_bind.mp h
  rw [returns_get_bind] at hrest
  obtain ⟨himage, rfl⟩ := returns_reading.mp hrest
  exact ⟨hparse, himage⟩

/-- The image of a parsed flash, evaluated. -/
theorem returns_getImage_of_returned? (h : f.contentParsed = true) {first last : Option Nat}
    {image : Bytes} (himage : returned? (getImage host first last) f = some image) :
    Returns (getImage host first last) f image f := by
  have hret := returns_of_returned? himage
  have hsame := ((returns_getImage_inv hret).1.unique (returns_parseContent_again h)).2
  rwa [hsame] at hret

theorem returns_getImage_iff (h : f.contentParsed = true) {first last : Option Nat}
    {image : Bytes} :
    Returns (getImage host first last) f image f ↔
      imageFrom none ((f.sections.values.take (last.getD f.sections.length + 1)).drop
        (first.getD 0)) = .ok image := by
  unfold getImage
  constructor
  · intro hret
    have hret := (returns_parseContent_again h).advance hret
    rw [returns_get_bind] at hret
    exact (returns_reading.mp hret).1
  · intro himage
    refine Returns.bind (returns_parseContent_again h) ?_
    rw [returns_get_bind]
    exact returns_reading.mpr ⟨himage, rfl⟩

/-- `image` is what the flash holds from section `first` to section `last`: as
long as the layout says, with the image of every section at its place and zeros
elsewhere. -/
structure IsRange (ss : List Section) (first last : Nat) (image : Bytes) : Prop where
  length : ∀ a b size, ss[first]? = some a → ss[last]? = some b → b.getSize = .ok size →
    (image.length : Int) = b.offset + size - a.offset
  content : ∀ i a s, first ≤ i → i ≤ last → ss[first]? = some a → ss[i]? = some s →
    ∃ bytes, s.getImage = .ok bytes ∧ s.getSize = .ok bytes.length ∧ a.offset ≤ s.offset ∧
      slice image (s.offset - a.offset).toNat bytes.length = bytes
  zero : ∀ a k, ss[first]? = some a → k < image.length →
    (∀ i s size, first ≤ i → i ≤ last → ss[i]? = some s → s.getSize = .ok size →
      ¬ (s.offset ≤ a.offset + k ∧ a.offset + k < s.offset + size)) → image[k]? = some 0

theorem stopOf_eq {ss : List Section} {bs : List Block} (hbs : BlocksOf ss bs) {origin : Int}
    {s : Section} (hs : ss.getLast? = some s) {size : Int} (hsize : s.getSize = .ok size) :
    stopOf origin bs = s.offset + size := by
  induction hbs generalizing origin with
  | nil => exact absurd hs nofun
  | @cons t b ss bs hb hrest ih =>
    rw [stopOf]
    cases hrest with
    | nil =>
      obtain rfl : t = s := by simpa using hs
      obtain ⟨size', hsize', hstop⟩ := stop_of_image hb
      obtain rfl := Except.ok.inj (hsize.symm.trans hsize')
      exact hstop
    | cons hb' hrest' => exact ih (by rw [← hs, List.getLast?_cons_cons])

/-- The blocks of a slice of the sections make its image. -/
theorem isRange_assemble {ss : List Section} {first last : Nat} {a : Section}
    (hfirst : ss[first]? = some a) (hle : first ≤ last) (hlast : last < ss.length)
    {bs : List Block} (hbs : BlocksOf ((ss.take (last + 1)).drop first) bs)
    (horder : InOrder a.offset bs) : IsRange ss first last (assemble a.offset bs) := by
  have hget : ∀ i, first ≤ i → i ≤ last →
      ((ss.take (last + 1)).drop first)[i - first]? = ss[i]? := by
    intro i h1 h2
    rw [List.getElem?_drop, List.getElem?_take, if_pos (by omega)]
    congr 1
    omega
  have hlength : ((ss.take (last + 1)).drop first).length = last - first + 1 := by
    rw [List.length_drop, List.length_take]
    omega
  refine ⟨fun a' b size ha' hb hsize => ?_, fun i a' s h1 h2 ha' hs => ?_,
    fun a' k ha' hk hout => ?_⟩
  all_goals obtain rfl : a = a' := Option.some.inj (hfirst.symm.trans ha')
  · have hlastOf : ((ss.take (last + 1)).drop first).getLast? = some b := by
      rw [List.getLast?_eq_getElem?, hlength, Nat.add_sub_cancel, hget last hle (le_refl _), hb]
    rw [length_assemble horder, stopOf_eq hbs hlastOf hsize]
  · obtain ⟨b, hb, hpos, himage⟩ := getElem?_forall₂ hbs ((hget i h1 h2).trans hs)
    have hmem := List.mem_of_getElem? hb
    have hslice := slice_assemble horder hmem
    have hbound := (horder.bounds hmem).1
    rw [hpos] at hslice hbound
    exact ⟨b.2, himage, FlashSection.length_getImage himage, hbound, hslice⟩
  · refine assemble_outside horder hk fun b hb hin => ?_
    obtain ⟨j, hj⟩ := List.mem_iff_getElem?.mp hb
    obtain ⟨s, hs, hblock⟩ := getElem?_forall₂ hbs.flip hj
    have hjlt : j < last - first + 1 := by
      have := (List.getElem?_eq_some_iff.mp hs).1
      omega
    have hi := hget (first + j) (by omega) (by omega)
    rw [show first + j - first = j by omega, hs] at hi
    obtain ⟨size, hsize, hstop⟩ := stop_of_image hblock
    rw [hblock.1, hstop] at hin
    exact hout (first + j) s size (by omega) (by omega) hi.symm hsize hin

/-- After a parse, values that fit their fields give every section an image. -/
theorem ParseOf.exists_blocks {entries : List ContentSection}
    {created placed : List (String × Section)} (h : ParseOf host f f' entries created placed)
    (halign : ∀ a, f.flashAttributes.get "section_size_align" = some a → 1 ≤ a)
    {ss : List Section} (hss : ∀ s ∈ ss, s ∈ f'.sections.values)
    (hfit : ∀ s ∈ f'.sections.values, s.base.ValuesFit) : ∃ bs, BlocksOf ss bs := by
  induction ss with
  | nil => exact ⟨[], .nil⟩
  | cons s ss ih =>
    obtain ⟨bs, hbs⟩ := ih fun t ht => hss t (List.mem_cons_of_mem s ht)
    have hs := hss s List.mem_cons_self
    obtain ⟨hlaid, haligned, size, hsize⟩ := h.laidOut hs
    obtain ⟨b, hb⟩ := hlaid.exists_packed (hfit s hs)
    have himage := hlaid.getImage (fun a ha => halign a (haligned ▸ ha)) hb hsize
    exact ⟨(s.offset, _) :: bs, .cons ⟨rfl, himage⟩ hbs⟩

/-- The image of a slice of increasing sections. -/
theorem imageFrom_slice {ss : List Section} {bs : List Block} (hbs : BlocksOf ss bs)
    (hincreasing : Increasing ss) {first last : Nat} (hle : first ≤ last)
    (hlast : last < ss.length) {a : Section} (ha : ss[first]? = some a) :
    imageFrom none ((ss.take (last + 1)).drop first) =
        .ok (assemble a.offset ((bs.take (last + 1)).drop first)) ∧
      IsRange ss first last (assemble a.offset ((bs.take (last + 1)).drop first)) := by
  have hslice : BlocksOf ((ss.take (last + 1)).drop first) ((bs.take (last + 1)).drop first) :=
    List.forall₂_drop first (List.forall₂_take (last + 1) hbs)
  have hhead : ((ss.take (last + 1)).drop first).head? = some a := by
    rw [List.head?_drop, List.getElem?_take, if_pos (by omega), ha]
  have horder : InOrder a.offset ((bs.take (last + 1)).drop first) := by
    refine inOrder_of_increasing hslice ((hincreasing.take (last + 1)).drop first) fun s hs => ?_
    rw [Option.some.inj (hhead.symm.trans hs)]
  refine ⟨?_, isRange_assemble ha hle hlast hslice horder⟩
  obtain ⟨rest, hrest⟩ := List.head?_eq_some_iff.mp hhead
  rw [hrest] at hslice ⊢
  exact imageFrom_none_iff.mpr ⟨_, hslice, horder, rfl⟩

/-- The first section of a parsed flash is at its start. -/
theorem ParseOf.first_offset {entries : List ContentSection}
    {created placed : List (String × Section)} (h : ParseOf host f f' entries created placed)
    {a : Section} (ha : f'.sections.values[0]? = some a) : a.offset = 0 := by
  rw [Dict.values, List.getElem?_map] at ha
  obtain ⟨q, hq, rfl⟩ := Option.map_eq_some_iff.mp ha
  obtain ⟨p, hp, -, hfinalize⟩ := getElem?_forall₂ h.finalized.flip hq
  have hoffset : q.2.offset = p.2.offset := (Section.finalize_inv hfinalize).base.offset
  rw [hoffset]
  exact h.placements.head_offset (by rw [List.head?_eq_getElem?, hp])

/-- `get_image(first, last)` on an accepted layout: it succeeds, and yields the
flash from section `first` to section `last`.  From the first section on, a
position in the image is an offset in the flash, and the image is a prefix of
the whole one. -/
theorem getImage_isRange (hfresh : f.Fresh) (hnames : f.DistinctNames)
    (hparse : Returns (parseContent host true) f () f')
    (halign : ∀ a, f.flashAttributes.get "section_size_align" = some a → 1 ≤ a)
    (hincreasing : Increasing f'.sections.values)
    (hfit : ∀ s ∈ f'.sections.values, s.base.ValuesFit) {first last : Nat} (hle : first ≤ last)
    (hlast : last < f'.sections.length) :
    ∃ image full, Returns (getImage host (some first) (some last)) f' image f' ∧
      Returns (getImage host none none) f' full f' ∧
      IsRange f'.sections.values first last image ∧
      (first = 0 → (∀ a, f'.sections.values[0]? = some a → a.offset = 0) ∧ image <+: full) := by
  obtain ⟨entries, created, placed, hof⟩ := parseContent_parseOf hfresh hnames hparse
  have hparsed : f'.contentParsed = true := by rw [hof.frame]
  obtain ⟨bs, hbs⟩ := hof.exists_blocks halign (fun _ hs => hs) hfit
  have hlen : f'.sections.values.length = f'.sections.length := Dict.length_values _
  have hlenBlocks : bs.length = f'.sections.length := by rw [← hbs.length_eq, hlen]
  obtain ⟨a, ha⟩ : ∃ a, f'.sections.values[first]? = some a :=
    ⟨_, List.getElem?_eq_getElem (by omega)⟩
  obtain ⟨z, hz⟩ : ∃ z, f'.sections.values[0]? = some z :=
    ⟨_, List.getElem?_eq_getElem (by omega)⟩
  obtain ⟨himage, hrange⟩ := imageFrom_slice hbs hincreasing hle (by omega) ha
  obtain ⟨hfull, -⟩ := imageFrom_slice hbs hincreasing (Nat.zero_le (f'.sections.length - 1))
    (by omega) hz
  have htake : f'.sections.values.take (f'.sections.length - 1 + 1) =
      f'.sections.values.take (f'.sections.length + 1) := by
    rw [List.take_of_length_le (by omega), List.take_of_length_le (by omega)]
  rw [htake] at hfull
  refine ⟨_, _, (returns_getImage_iff hparsed).mpr himage,
    (returns_getImage_iff hparsed).mpr hfull, hrange, ?_⟩
  rintro rfl
  obtain rfl : a = z := Option.some.inj (ha.symm.trans hz)
  refine ⟨fun a ha => hof.first_offset ha, ?_⟩
  have hsplit : bs.take (f'.sections.length - 1 + 1) =
      bs.take (last + 1) ++ (bs.take (f'.sections.length - 1 + 1)).drop (last + 1) := by
    rw [List.drop_take, ← List.take_add]
    congr 1
    omega
  rw [List.drop_zero, List.drop_zero, hsplit, assemble_append]
  exact List.prefix_append _ _

/-- Two raw sections, an unaligned one first. -/
theorem getImage_isRange_raw :
    let f := ofContent 16 Dict.empty [rawEntry "a" 5, rawEntry "b" 3]
    ∃ f' image, Returns (parseContent Host.noFiles true) f () f' ∧
      Returns (getImage Host.noFiles (some 1) (some 1)) f' image f' ∧
      IsRange f'.sections.values 1 1 image := by
  intro f
  have hparse : Returns (parseContent Host.noFiles true) f () _ :=
    returns_of_returned? (by decide +kernel)
  obtain ⟨image, full, himage, -, hrange, -⟩ := getImage_isRange ⟨rfl, rfl, rfl⟩
    (by decide +kernel) hparse nofun (by decide +kernel) (by decide +kernel)
    (le_refl 1) (by decide +kernel)
  exact ⟨_, image, hparse, himage, hrange⟩

/-- An alignment of 0 makes a section report the size 0, and its image is too
big. -/
theorem not_getImage_isRange : ¬ ∀ (host : Host) (f f' : Flash), f.Fresh → f.DistinctNames →
    Returns (parseContent host true) f () f' → Increasing f'.sections.values →
    (∀ s ∈ f'.sections.values, s.base.ValuesFit) → ∀ first last : Nat, first ≤ last →
    last < f'.sections.length →
    ∃ image, Returns (getImage host (some first) (some last)) f' image f' ∧
      IsRange f'.sections.values first last image := by
  intro h
  let attributes : Dict String Int :=
    (Dict.empty.set "section_start_align" 1).set "section_size_align" 0
  have hparse : Returns (parseContent Host.noFiles true)
      (ofContent 16 attributes [rawEntry "a" 5]) () _ :=
    returns_of_returned? (by decide +kernel)
  obtain ⟨image, himage, -⟩ := h _ _ _ ⟨rfl, rfl, rfl⟩ (by decide +kernel) hparse
    (by decide +kernel) (by decide +kernel) 0 0 (le_refl 0) (by decide +kernel)
  have hraises : returned? (getImage Host.noFiles (some 0) (some 0))
      (finalState (parseContent Host.noFiles true)
        (ofContent 16 attributes [rawEntry "a" 5])) = none := by
    decide +kernel
  rw [himage.returned?] at hraises
  exact absurd hraises nofun

end Flash

end SoftHier.Gapy
