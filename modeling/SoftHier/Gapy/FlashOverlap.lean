/-
  Gapy/FlashOverlap.lean --- accepted sections do not overlap.

  The running offset of the placement loop stays within the flash, a section
  never starts before it, and ends where the next one may start.  Only a raw
  section that takes the rest of the flash can come out negative; it does not
  when its start was rounded up to a power of two that divides the flash size.
-/
import SoftHier.Gapy.FlashImage

set_option autoImplicit false

namespace SoftHier.Gapy

open SoftHier.Foundation Program

/-- A size property that is absent, -1 or not negative: no number below -1. -/
def PyValue.IsSize (v : PyValue) : Prop :=
  ∀ w i, v.ofCommandLine = .ok w → w.operand = .ok i → -1 ≤ i

namespace Flash

variable {host : Host} {f f' : Flash}

/-! ## Size properties -/

/-- The size properties of some entries. -/
def EntrySizes (cs : List ContentSection) : Prop :=
  ∀ c ∈ cs, ∀ d v, c.properties = some d → d.get "size" = some v → v.IsSize

/-- Every size property, of the content and of the command line. -/
structure SizesGiven (f : Flash) : Prop where
  content : EntrySizes f.contentSections
  commandLine : ∀ p ∈ f.properties, ∀ q ∈ p.2, q.1 = "size" → (PyValue.str q.2).IsSize

theorem isSize_none : PyValue.none.IsSize := by
  intro w i hw hi
  cases hw
  cases hi

theorem isSize_list (items : List String) : (PyValue.list items).IsSize := by
  intro w i hw hi
  cases hw
  cases hi

theorem isSize_bool (b : Bool) : (PyValue.bool b).IsSize := by
  intro w i hw hi
  cases hw
  cases hi
  split <;> omega

theorem overwriteProperty_isSize {declared : Dict String FlashSectionProperty}
    {d d' : Dict String PyValue} {key value : String}
    (hd : ∀ v, d.get "size" = some v → v.IsSize)
    (hvalue : key = "size" → (PyValue.str value).IsSize)
    (h : overwriteProperty declared d key value = .ok d') :
    ∀ v, d'.get "size" = some v → v.IsSize := by
  have hset : ∀ w : PyValue, (key = "size" → w.IsSize) →
      ∀ v, (d.set key w).get "size" = some v → v.IsSize := by
    intro w hw v hv
    rw [Dict.get_set] at hv
    split at hv
    next hkey =>
      cases hv
      exact hw hkey
    · exact hd v hv
  unfold overwriteProperty at h
  split at h
  · split at h
    · cases h
      exact hset _ fun _ => isSize_list _
    · cases h
      exact hset _ fun _ => isSize_list _
    · cases h
  · split at h
    · cases h
      exact hset _ fun _ => isSize_bool _
    · cases h
      exact hset _ fun _ => isSize_bool _
  · cases h
    exact hset _ hvalue

theorem entrySizes_updateFirst {name : String} {change : ContentSection → ContentSection}
    (hchange : ∀ c d v, (change c).properties = some d → d.get "size" = some v → v.IsSize) :
    ∀ {cs : List ContentSection}, EntrySizes cs → EntrySizes (updateFirst name change cs) := by
  intro cs
  induction cs with
  | nil => exact id
  | cons c cs ih =>
    intro h
    have hrest : EntrySizes cs := fun c' hc' => h c' (List.mem_cons_of_mem c hc')
    rw [updateFirst]
    split
    · intro c' hc'
      rw [List.mem_cons] at hc'
      obtain rfl | hc' := hc'
      · exact hchange c
      · exact hrest c' hc'
    · intro c' hc'
      rw [List.mem_cons] at hc'
      obtain rfl | hc' := hc'
      · exact h c' List.mem_cons_self
      · exact ih hrest c' hc'

/-- Applying the command line keeps all sizes sizes. -/
theorem entrySizes_handleSectionProperties (hline : ∀ p ∈ f.properties, ∀ q ∈ p.2, q.1 = "size" →
      (PyValue.str q.2).IsSize) (h : Returns handleSectionProperties f () f') :
    EntrySizes f.contentSections → EntrySizes f'.contentSections := by
  unfold handleSectionProperties at h
  rw [returns_get_bind] at h
  have hrefl : ∀ u : Flash, EntrySizes u.contentSections → EntrySizes u.contentSections :=
    fun _ => id
  have htrans : ∀ ⦃u v w : Flash⦄,
      (EntrySizes u.contentSections → EntrySizes v.contentSections) →
      (EntrySizes v.contentSections → EntrySizes w.contentSections) →
      EntrySizes u.contentSections → EntrySizes w.contentSections :=
    fun _ _ _ h h' => h' ∘ h
  refine keeps_forEach (R := fun u v : Flash =>
    EntrySizes u.contentSections → EntrySizes v.contentSections) hrefl htrans
    (fun p hp => ?_) f () f' h
  unfold overwriteSectionProperties
  refine keeps_bind htrans (keeps_get hrefl) fun u => ?_
  split
  · exact keeps_throw _
  · refine keeps_forEach hrefl htrans fun q hq u a u' hone hsizes => ?_
    obtain ⟨declared, content, properties, hmem, hset, rfl⟩ := overwriteOne_inv hone
    refine entrySizes_updateFirst (fun c d v hd hv => ?_) hsizes
    cases hd
    refine overwriteProperty_isSize (fun w hw => ?_) (hline p hp q hq) hset v hv
    cases hc : content.properties with
    | none =>
      rw [hc] at hw
      exact absurd hw nofun
    | some d =>
      rw [hc] at hw
      exact hsizes content hmem d w hc hw

/-! ## Placing one section -/

/-- The alignments an overlap-free layout asks for. -/
structure Aligned (f : Flash) : Prop where
  start : ∀ a, f.flashAttributes.get "section_start_align" = some a →
    ∃ k : Nat, a = 2 ^ k ∧ a ∣ f.size
  littlefs : ∀ a, f.flashAttributes.get "littlefs_align" = some a → 1 ≤ a

theorem Aligned.le_startOffset (h : f.Aligned) {flash : FlashContext}
    (hflash : flash.attributes = f.flashAttributes) {offset : Int} (s : Section)
    (hs : s.base.startAlign = f.flashAttributes.get "section_start_align") :
    offset ≤ s.startOffset flash offset := by
  rcases s.startOffset_cases flash offset with hbase | ⟨a, ha, hlfs⟩
  · rw [hbase]
    unfold FlashSection.startOffset
    rw [hs]
    cases ha : f.flashAttributes.get "section_start_align" with
    | none => exact le_refl _
    | some a =>
      obtain ⟨k, rfl, -⟩ := h.start a ha
      have hpos : (0 : Int) < 2 ^ k := by positivity
      exact le_alignUp (by omega) offset
  · rw [hlfs]
    rw [hflash] at ha
    exact le_alignUp (h.littlefs a ha) offset

/-- A raw section starts within the flash when the running offset is. -/
theorem Aligned.startOffset_le (h : f.Aligned) {offset : Int} (hoffset : offset ≤ f.size)
    {s : FlashSection Unit} (hs : s.startAlign = f.flashAttributes.get "section_start_align") :
    s.startOffset offset ≤ f.size := by
  unfold FlashSection.startOffset
  rw [hs]
  cases ha : f.flashAttributes.get "section_start_align" with
  | none => exact hoffset
  | some a =>
    obtain ⟨k, rfl, hdvd⟩ := h.start a ha
    exact alignUp_two_pow_le hoffset hdvd

theorem declareProperty_get {σ : Type} (name : String) (value : PyValue) (description : String)
    (s : FlashSection σ) (k : String) :
    (s.declareProperty name value description).properties.get k =
      if name = k then some ⟨name, value, description⟩ else s.properties.get k :=
  Dict.get_set _ _ _ _

/-- A fresh section declares its size as absent. -/
theorem new_size (t : SectionTemplate) (name : String) (sectionId : Nat)
    (startAlign sizeAlign : Option Int) :
    ((t.new name sectionId).setAlignments startAlign sizeAlign).base.properties.get "size" =
      some ⟨"size", .none, "Force a certain size for section."⟩ := by
  have hbase : ∀ {σ : Type} (a : σ), (FlashSection.new name sectionId a).properties.get "size" =
      some ⟨"size", .none, "Force a certain size for section."⟩ := fun a => by
    rw [FlashSection.new, declareProperty_get, if_pos rfl]
  cases t with
  | rom =>
    change (RomFlashSection.new name sectionId).properties.get "size" = _
    rw [RomFlashSection.new, declareProperty_get, if_neg (by decide), declareProperty_get,
      if_neg (by decide), hbase]
  | partitionTable => exact hbase _
  | readfs =>
    change (ReadfsSection.new name sectionId).properties.get "size" = _
    rw [ReadfsSection.new, declareProperty_get, if_neg (by decide), declareProperty_get,
      if_neg (by decide), hbase]
  | hostfs =>
    change (HostfsSection.new name sectionId).properties.get "size" = _
    rw [HostfsSection.new, declareProperty_get, if_neg (by decide), hbase]
  | lfs =>
    change (LfsSection.new name sectionId).properties.get "size" = _
    rw [LfsSection.new, declareProperty_get, if_neg (by decide), declareProperty_get,
      if_neg (by decide), hbase]
  | raw => exact hbase _

/-- A section whose content was set has a size property that is a size, when the
content gives one that is. -/
theorem isSize_of_placed {s s' : FlashSection Unit} {start : Int} {c : ContentSection}
    {specs : List StructSpec} (h : s.PlacedAt s' start c specs)
    (hs : s.properties.get "size" =
      some ⟨"size", .none, "Force a certain size for section."⟩)
    (hc : ∀ d v, c.properties = some d → d.get "size" = some v → v.IsSize) {property : PyValue}
    (hproperty : s'.getProperty "size" = .ok property) : property.IsSize := by
  unfold FlashSection.getProperty at hproperty
  rw [h.property, hs, Option.map_some] at hproperty
  obtain rfl := Except.ok.inj hproperty
  cases hd : c.properties with
  | none => exact isSize_none
  | some d =>
    cases hv : d.get "size" with
    | none =>
      simp only [Option.bind_some, hv]
      exact isSize_none
    | some v =>
      simp only [Option.bind_some, hv]
      exact hc d v hd hv

/-- The size of a placed section is not negative. -/
theorem Aligned.size_nonneg (h : f.Aligned) {flash : FlashContext}
    (hsize : flash.size = f.size) {offset : Int} (hoffset : offset ≤ f.size) {c : ContentSection}
    (hc : ∀ d v, c.properties = some d → d.get "size" = some v → v.IsSize) {s s' : Section}
    (hs : s.base.properties.get "size" = some ⟨"size", .none, "Force a certain size for section."⟩)
    (hstart : s.base.startAlign = f.flashAttributes.get "section_start_align")
    (hset : Returns (Section.setContent host flash offset c) s () s') {size : Int}
    (hreported : s'.getSize = .ok size) : 0 ≤ size := by
  obtain ⟨hkind, specs, hplaced, halloc⟩ := Section.setContent_inv hset
  refine FlashSection.getSize_nonneg ?_ hreported
  rw [hplaced.allocated]
  obtain hnonneg | ⟨hraw, property, requested, hproperty, hrequested, rfl⟩ := halloc
  · exact specsSize_nonneg hnonneg
  · -- the rest of the flash, or a given size
    rw [specsSize_cons, specsSize_nil, Int.add_zero, RawSection.size_headerSpec]
    have his := isSize_of_placed hplaced hs hc hproperty
    have hle : s'.offset ≤ f.size := by
      have hoff : s'.offset = s.startOffset flash offset := hplaced.offset
      rw [hoff]
      cases s with
      | raw s => exact h.startOffset_le hoffset hstart
      | rom s => rw [hkind] at hraw; exact absurd hraw nofun
      | partitionTable s => rw [hkind] at hraw; exact absurd hraw nofun
      | readfs s => rw [hkind] at hraw; exact absurd hraw nofun
      | hostfs s => rw [hkind] at hraw; exact absurd hraw nofun
      | lfs s => rw [hkind] at hraw; exact absurd hraw nofun
    replace hrequested := RawSection.requestedSize_of_number hrequested
    generalize requested.toInt = requested at hrequested ⊢
    unfold RawSection.requestedSize at hrequested
    cases hw : property.ofCommandLine with
    | error e =>
      rw [hw] at hrequested
      cases hrequested
    | ok w =>
      simp only [hw, bind, Except.bind] at hrequested
      split at hrequested
      · cases hrequested
        rw [hsize]
        omega
      next hnot =>
        have hge := his w requested hw hrequested
        have hne : requested ≠ -1 := by
          rintro rfl
          exact hnot (by rw [PyValue.eqInt, hrequested]; rfl)
        omega

/-! ## The whole layout -/

/-- Sections that do not overlap and stay within a flash. -/
structure FitsFlash (limit : Nat) (ss : List Section) : Prop where
  bounds : ∀ s ∈ ss, ∃ size, s.getSize = .ok size ∧ 0 ≤ size ∧ 0 ≤ s.offset ∧
    s.offset + size ≤ limit
  first : ∀ s, ss.head? = some s → s.offset = 0
  increasing : Increasing ss
  disjoint : ss.Pairwise fun a b => ∀ size, a.getSize = .ok size → a.offset + size ≤ b.offset

/-- The sections placed from an offset on lie behind it, one after the other. -/
theorem Placements.fits (h : f.Aligned) {flash : FlashContext}
    (hattributes : flash.attributes = f.flashAttributes) (hsize : flash.size = f.size)
    {offset : Int} {cs : List ContentSection} {es ps : List (String × Section)}
    (hplaced : Placements host flash f.size (f.flashAttributes.get "section_start_align")
      (f.flashAttributes.get "section_size_align") offset cs es ps)
    (hoffset : offset ≤ f.size) (hcs : EntrySizes cs)
    (hes : ∀ e ∈ es, ∃ template sectionId, e.2 = SectionTemplate.new template e.1 sectionId) :
    (∀ p ∈ ps, ∃ size, p.2.getSize = .ok size ∧ 0 ≤ size ∧ offset ≤ p.2.offset ∧
      p.2.offset + size ≤ f.size) ∧
    ps.Pairwise fun p q => ∀ size, p.2.getSize = .ok size → p.2.offset + size ≤ q.2.offset := by
  induction hplaced with
  | nil => simp
  | @cons o size c name s s' cs es ps content reported fits rest ih =>
    obtain ⟨template, sectionId, hnew⟩ := hes _ List.mem_cons_self
    have haligns := setAlignments_aligns (f.flashAttributes.get "section_start_align")
      (f.flashAttributes.get "section_size_align") s
    have hstart : o ≤ s'.offset := by
      obtain ⟨-, specs, hplaced, -⟩ := Section.setContent_inv content
      have hoff : s'.offset = _ := hplaced.offset
      rw [hoff]
      exact h.le_startOffset hattributes _ haligns.2
    have hnonneg : 0 ≤ size := by
      refine h.size_nonneg hsize hoffset (hcs c List.mem_cons_self) ?_ haligns.2 content reported
      obtain rfl : s = template.new name sectionId := hnew
      exact new_size template name sectionId _ _
    obtain ⟨hall, hpairs⟩ := ih fits (fun c' hc' => hcs c' (List.mem_cons_of_mem c hc'))
      (fun e he => hes e (List.mem_cons_of_mem _ he))
    constructor
    · intro p hp
      rw [List.mem_cons] at hp
      obtain rfl | hp := hp
      · exact ⟨size, reported, hnonneg, hstart, fits⟩
      · obtain ⟨size', hreported, hsize', hoff, hle⟩ := hall p hp
        exact ⟨size', hreported, hsize', by omega, hle⟩
    · refine List.Pairwise.cons (fun q hq size' hsize' => ?_) hpairs
      obtain rfl := Except.ok.inj (reported.symm.trans hsize')
      obtain ⟨-, -, -, hoff, -⟩ := hall q hq
      exact hoff

/-- The placed sections and the finalized ones have the same offsets and sizes. -/
theorem ParseOf.fitsFlash {entries : List ContentSection}
    {created placed : List (String × Section)} (hof : ParseOf host f f' entries created placed)
    (h : f.Aligned) (hentries : EntrySizes entries) :
    FitsFlash f.size f'.sections.values := by
  have hes : ∀ e ∈ created, ∃ template sectionId,
      e.2 = SectionTemplate.new template e.1 sectionId := by
    intro e he
    obtain ⟨i, hi⟩ := List.mem_iff_getElem?.mp he
    obtain ⟨p, -, -, -, template, -, -, hnew⟩ := getElem?_forall₂ hof.creation.flip hi
    exact ⟨template, p.2, hnew⟩
  obtain ⟨hall, hpairs⟩ := hof.placements.fits h rfl rfl (Int.natCast_nonneg _) hentries hes
  have hsame : List.Forall₂ (fun (p : String × Section) (s : Section) =>
      s.offset = p.2.offset ∧ s.getSize = p.2.getSize) placed f'.sections.values := by
    rw [Dict.values, List.forall₂_map_right_iff]
    refine hof.finalized.imp fun p q hpq => ?_
    have hlayout := Section.finalize_inv hpq.2
    exact ⟨hlayout.base.offset, hlayout.base.getSize⟩
  have hdisjoint : f'.sections.values.Pairwise fun a b =>
      ∀ size, a.getSize = .ok size → a.offset + size ≤ b.offset := by
    refine pairwise_of_forall₂ hsame (fun p _ q _ a b hp hq hle size hsize => ?_) hpairs
    rw [hp.1, hq.1]
    exact hle size (hp.2 ▸ hsize)
  refine ⟨fun s hs => ?_, fun s hs => ?_, ?_, hdisjoint⟩
  · obtain ⟨i, hi⟩ := List.mem_iff_getElem?.mp hs
    obtain ⟨p, hp, hoff, hsz⟩ := getElem?_forall₂ hsame.flip hi
    obtain ⟨size, hsize, hnonneg, hge, hle⟩ := hall p (List.mem_of_getElem? hp)
    rw [hsz, hoff]
    exact ⟨size, hsize, hnonneg, hge, hle⟩
  · exact hof.first_offset (by rw [← List.head?_eq_getElem?, hs])
  · exact hdisjoint.isChain

/-- A normal parse with an overflow check lays the sections out one after the
other, within the flash. -/
theorem parseContent_fitsFlash (hfresh : f.Fresh) (hnames : f.DistinctNames) (halign : f.Aligned)
    (hsizes : f.SizesGiven) (h : Returns (parseContent host true) f () f') :
    FitsFlash f.size f'.sections.values := by
  obtain ⟨entries, created, placed, hof⟩ := parseContent_parseOf hfresh hnames h
  obtain ⟨f₁, f₂, hcontent, hproperties, hline, rfl⟩ := hof.commandLine
  refine hof.fitsFlash halign (entrySizes_handleSectionProperties ?_ hline ?_)
  · rw [hproperties]
    exact hsizes.commandLine
  · rw [hcontent]
    exact hsizes.content

theorem rawEntry_isSize {name : String} {size : Int} (h : -1 ≤ size) (d : Dict String PyValue)
    (v : PyValue) (hd : (rawEntry name size).properties = some d) (hv : d.get "size" = some v) :
    v.IsSize := by
  cases hd
  rw [Dict.get_set_self] at hv
  cases hv
  intro w i hw hi
  cases hw
  cases hi
  exact h

/-- A given size, then the rest of the flash. -/
theorem parseContent_fitsFlash_raw :
    let f := ofContent 16 (Dict.empty.set "section_start_align" 4) [rawEntry "a" 4, rawEntry "b" (-1)]
    ∃ f', Returns (parseContent Host.noFiles true) f () f' ∧ FitsFlash 16 f'.sections.values := by
  intro f
  have hparse : Returns (parseContent Host.noFiles true) f () _ :=
    returns_of_returned? (by decide +kernel)
  refine ⟨_, hparse, parseContent_fitsFlash ⟨rfl, rfl, rfl⟩ (by decide +kernel)
    ⟨fun a ha => ?_, fun a ha => ?_⟩ ⟨fun c hc => ?_, fun p hp => absurd hp List.not_mem_nil⟩
    hparse⟩
  · obtain rfl : 4 = a := by simpa [f, ofContent, Dict.get_set] using ha
    exact ⟨2, rfl, 4, rfl⟩
  · simp [f, ofContent, Dict.get_set] at ha
  · obtain rfl | rfl : c = rawEntry "a" 4 ∨ c = rawEntry "b" (-1) := by
      simpa [f, ofContent, contentSections] using hc
    · exact rawEntry_isSize (by decide)
    · exact rawEntry_isSize (by decide)

/-- With an alignment of 3 the rest of the flash can have a negative size. -/
theorem not_parseContent_fitsFlash : ¬ ∀ (host : Host) (f f' : Flash), f.Fresh →
    f.DistinctNames →
    (∀ a, f.flashAttributes.get "section_start_align" = some a → 1 ≤ a ∧ a ∣ f.size) →
    (∀ a, f.flashAttributes.get "section_size_align" = some a → 1 ≤ a) →
    (∀ a, f.flashAttributes.get "littlefs_align" = some a → 1 ≤ a) → f.SizesGiven →
    Returns (parseContent host true) f () f' → FitsFlash f.size f'.sections.values := by
  intro h
  let f := ofContent 6 (Dict.empty.set "section_start_align" 3) [rawEntry "a" 6, rawEntry "b" (-1)]
  have hparse : Returns (parseContent Host.noFiles true) f () _ :=
    returns_of_returned? (by decide +kernel)
  have hfits := h _ _ _ ⟨rfl, rfl, rfl⟩ (by decide +kernel) (fun a ha => ?_) (fun a ha => ?_)
    (fun a ha => ?_) ⟨fun c hc => ?_, fun p hp => absurd hp List.not_mem_nil⟩ hparse
  · have hsize : (finalState (parseContent Host.noFiles true) f).sections.values[1]?.map
        Section.getSize = some (.ok (-2)) := by decide +kernel
    obtain ⟨s, hs, hreported⟩ := Option.map_eq_some_iff.mp hsize
    obtain ⟨size, hsize', hnonneg, -⟩ := hfits.bounds s (List.mem_of_getElem? hs)
    obtain rfl := Except.ok.inj (hreported.symm.trans hsize')
    omega
  · obtain rfl : 3 = a := by simpa [f, ofContent, Dict.get_set] using ha
    exact ⟨by decide, 2, rfl⟩
  · simp [f, ofContent, Dict.get_set] at ha
  · simp [f, ofContent, Dict.get_set] at ha
  · obtain rfl | rfl : c = rawEntry "a" 6 ∨ c = rawEntry "b" (-1) := by
      simpa [f, ofContent, contentSections] using hc
    · exact rawEntry_isSize (by decide)
    · exact rawEntry_isSize (by decide)

end Flash

end SoftHier.Gapy
