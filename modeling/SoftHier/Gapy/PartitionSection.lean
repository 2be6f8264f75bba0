/-
  Gapy/PartitionSection.lean --- what a partition table holds.

  `set_content` reserves one entry per section after the table; `finalize`, once
  all sections have their places, fills the entries in and moves nothing.
-/
import SoftHier.Gapy.RomSection

set_option autoImplicit false

namespace SoftHier.Gapy

open SoftHier.Foundation Program FlashSection

/-! ## The structures -/

/-- `PartitionTableHeader`, freshly created. -/
def PartitionTableHeader.spec : StructSpec :=
  .ofDecls "header" PartitionTableHeader.fields
    (by simp [PartitionTableHeader.fields, FieldDecl.toSpec])

/-- `PartitionTableSectionHeader` number `i`, freshly created. -/
def PartitionTableSectionHeader.spec (i : Nat) : StructSpec :=
  .ofDecls ("section" ++ toString i ++ " header") PartitionTableSectionHeader.fields
    (by simp [PartitionTableSectionHeader.fields, FieldDecl.toSpec])

/-- The header of a table with a number of entries. -/
def PartitionTableHeader.filled (nbEntries : Nat) : StructSpec :=
  ((PartitionTableHeader.spec.set "magic_number" (.int 0x02BA)).set "partition_table_version"
    (.int 1)).set "nb_entries" (.int nbEntries)

/-- The entry of a section, given its size. -/
def PartitionTableSectionHeader.filled (i : Nat) (v : SectionView) (size : Int) : StructSpec :=
  (((((PartitionTableSectionHeader.spec i).set "magic_number" (.int 0x01BA)).set "type"
    (.int v.partitionType)).set "subtype" (.int v.partitionSubtype)).set "offset"
    (.int v.offset)).set "size" (.int size) |>.set "name" (.bytes (utf8 v.name ++ [0]))

namespace PartitionTableSection

variable {s s' : FlashSection PartitionAttrs} {t : String} {specs : List StructSpec}

/-- The structures of a table with `k` entries, before their values are set. -/
def created (k : Nat) : List StructSpec :=
  PartitionTableHeader.spec :: (List.range k).map PartitionTableSectionHeader.spec

theorem getElem?_created {k i : Nat} (h : i < k) :
    (created k)[1 + i]? = some (PartitionTableSectionHeader.spec i) := by
  rw [created, Nat.add_comm, List.getElem?_cons_succ, List.getElem?_map,
    List.getElem?_range h, Option.map_some]

/-! ## Creating -/

theorem returns_createEntries {sections : List String} {n : Nat} (hn : s.structs.length = n)
    (h : Returns (forEach (createEntry n) sections.zipIdx) (s.holding t specs) () s') :
    s' = (s.withSelf { s.self with
        sectionHeaders :=
          s.self.sectionHeaders ++ refsFrom n specs.length sections.length }).holding
      t (specs ++ (List.range sections.length).map PartitionTableSectionHeader.spec) := by
  obtain ⟨created, hcreated, rfl⟩ := returns_forEach_create
    (fun (p : String × Nat) spec => spec = PartitionTableSectionHeader.spec p.2)
    (fun refs (a : PartitionAttrs) => { a with sectionHeaders := a.sectionHeaders ++ refs })
    (fun a => by simp) (fun r rs a => by simp) (fun p u u' specs hlen h => by
      exact ⟨_, rfl, (h.unique (returns_newOf_filed hlen _ _
        (PartitionTableSectionHeader.spec p.2).nodup _)).2⟩) hn h
  have hrange : sections.zipIdx.map (fun p => PartitionTableSectionHeader.spec p.2) =
      (List.range sections.length).map PartitionTableSectionHeader.spec := by
    rw [List.range_eq_range', ← List.zipIdx_map_snd 0 sections, List.map_map]
    rfl
  rw [forall₂_eq_map hcreated, hrange, List.length_zipIdx]

/-- The state of a table before it is finalized. -/
def reserved (s : FlashSection PartitionAttrs) (names : List String) :
    FlashSection PartitionAttrs :=
  (s.withSelf
    { sectionHeaders := s.self.sectionHeaders ++ refsFrom s.structs.length 1 names.length
      topStruct := some s.structs.length
      header := some ⟨s.structs.length, 0⟩
      sections := some names }).holding "partition table" (created names.length)

/-- `set_content` reserves an entry for every section after the table. -/
theorem returns_create {flash : FlashContext} {offset : Int} {content : ContentSection}
    (h : Returns (setContent flash offset content) s () s') :
    ∃ s₁, Returns (FlashSection.setContent offset content) s () s₁ ∧
      s' = reserved s₁ (flash.sectionNames.drop (s.sectionId + 1)) := by
  obtain ⟨_, s₁, hstart, h⟩ := returns_bind.mp h
  obtain ⟨properties, hs₁, -⟩ := FlashSection.returns_setContent hstart
  have hid : s₁.sectionId = s.sectionId := by rw [hs₁]; rfl
  have hfresh : s₁.currentOffset = s₁.offset := by rw [hs₁]; rfl
  refine ⟨s₁, hstart, ?_⟩
  rw [returns_get_bind] at h
  simp only [returns_modifySelf_bind, hid] at h
  have h := (returns_newParent (by exact hfresh) "partition table").advance h
  simp only [returns_modifySelf_bind, withSelf_holding, withSelf_withSelf, withSelf_self,
    holding_self, withSelf_structs] at h
  have h := (returns_newOf (by rfl) _ _ PartitionTableHeader.spec.nodup).advance h
  simp only [returns_modifySelf_bind, withSelf_holding, withSelf_withSelf, withSelf_self,
    holding_self] at h
  obtain rfl := returns_createEntries (by rfl) h
  rfl

/-- `set_content` places the header and the entries behind one another. -/
theorem placedAt_setContent {flash : FlashContext} {offset : Int} {content : ContentSection}
    (h : Returns (setContent flash offset content) s () s') :
    ∃ specs, s.PlacedAt s' (s.startOffset offset) content specs ∧
      ∀ spec ∈ specs, 0 ≤ spec.size := by
  obtain ⟨s₁, hstart, rfl⟩ := returns_create h
  obtain ⟨properties, rfl, hget⟩ := FlashSection.returns_setContent hstart
  refine ⟨created _, PlacedAt.of_sameLayout hget (SameLayout.refl _), ?_⟩
  intro spec hspec
  rw [created, List.mem_cons, List.mem_map] at hspec
  obtain rfl | ⟨i, -, rfl⟩ := hspec
  · decide
  · exact show (0 : Int) ≤ 32 by decide

/-! ## Finalizing -/

theorem keepsLayout_fillEntry (sections : List SectionView) (p : CStructRef × Nat) :
    KeepsLayout (fillEntry sections p) := by
  unfold fillEntry
  refine keepsLayout_bind (keepsLayout_setField _ _ _) fun _ => ?_
  cases sections[p.2]? with
  | none => exact keeps_throw _
  | some v =>
    refine keepsLayout_bind (keepsLayout_setField _ _ _) fun _ => ?_
    refine keepsLayout_bind (keepsLayout_setField _ _ _) fun _ => ?_
    refine keepsLayout_bind (keepsLayout_setField _ _ _) fun _ => ?_
    refine keepsLayout_bind (keeps_reading SameLayout.refl _) fun _ => ?_
    refine keepsLayout_bind (keepsLayout_setField _ _ _) fun _ => ?_
    exact keepsLayout_setField _ _ _

theorem keepsLayout_finalize (allSections : List SectionView) :
    KeepsLayout (finalize allSections) := by
  unfold finalize
  refine keepsLayout_bind (keeps_get SameLayout.refl) fun s => ?_
  cases s.self.header with
  | none => exact keeps_throw _
  | some header =>
    refine keepsLayout_bind (keepsLayout_setField _ _ _) fun _ => ?_
    refine keepsLayout_bind (keepsLayout_setField _ _ _) fun _ => ?_
    refine keepsLayout_bind (keepsLayout_setField _ _ _) fun _ => ?_
    exact keepsLayout_forEach (keepsLayout_fillEntry _) _

/-- The structures once the values of the header and of the first `m` entries
are set. -/
structure FilledTo (sections : List SectionView) (k m : Nat) (specs : List StructSpec) : Prop where
  sizes : specs.map StructSpec.size = (created k).map StructSpec.size
  header : specs[0]? = some (PartitionTableHeader.filled sections.length)
  done : ∀ i < m, i < k → ∃ v size, sections[i]? = some v ∧ v.size = .ok size ∧
    specs[1 + i]? = some (PartitionTableSectionHeader.filled i v size)
  todo : ∀ i, m ≤ i → i < k → specs[1 + i]? = some (PartitionTableSectionHeader.spec i)

/-- One pass of the loop fills one entry. -/
theorem fillEntry_filledTo {sections : List SectionView} {k n m : Nat}
    {u : FlashSection PartitionAttrs} (hn : u.structs.length = n) (hm : m < k)
    (hfilled : FilledTo sections k m specs)
    (h : Returns (fillEntry sections (⟨n, 1 + m⟩, m)) (u.holding t specs) () s') :
    ∃ specs', s' = u.holding t specs' ∧ FilledTo sections k (m + 1) specs' := by
  unfold fillEntry at h
  have hentry := hfilled.todo m (le_refl m) hm
  have hnames : (PartitionTableSectionHeader.spec m).fieldNames =
      ["magic_number", "type", "subtype", "offset", "size", "name", "flags"] := rfl
  obtain ⟨specs₁, h₁, h⟩ := setField_bind_inv hn hentry (by rw [hnames]; decide) h
  cases hv : sections[m]? with
  | none =>
    simp only [hv] at h
    exact absurd h not_returns_throw
  | some v =>
    simp only [hv] at h
    obtain ⟨specs₂, h₂, h⟩ := h₁.bind_inv hn
      (by simp only [StructSpec.fieldNames_set, hnames]; decide) h
    obtain ⟨specs₃, h₃, h⟩ := h₂.bind_inv hn
      (by simp only [StructSpec.fieldNames_set, hnames]; decide) h
    obtain ⟨specs₄, h₄, h⟩ := h₃.bind_inv hn
      (by simp only [StructSpec.fieldNames_set, hnames]; decide) h
    obtain ⟨size, s₁, hread, h⟩ := returns_bind.mp h
    obtain ⟨hsize, rfl⟩ := returns_reading.mp hread
    obtain ⟨specs₅, h₅, h⟩ := h₄.bind_inv hn
      (by simp only [StructSpec.fieldNames_set, hnames]; decide) h
    obtain ⟨specs₆, h₆, rfl⟩ := setField_inv hn h₅.at_index
      (by simp only [StructSpec.fieldNames_set, hnames]; decide) h
    have hset := h₅.trans h₆
    refine ⟨specs₆, rfl, hset.sizes.trans hfilled.sizes, ?_, fun i him hi => ?_, fun i him hi => ?_⟩
    · rw [hset.others 0 (by omega), hfilled.header]
    · by_cases heq : i = m
      · subst heq
        exact ⟨v, size, hv, hsize, hset.at_index⟩
      · obtain ⟨v', size', hv', hsize', hat⟩ := hfilled.done i (by omega) hi
        exact ⟨v', size', hv', hsize', (hset.others _ (by omega)).trans hat⟩
    · rw [hset.others _ (by omega), hfilled.todo i (by omega) hi]

/-- The values of a table that was placed in an empty section. -/
theorem finalize_filledTo {names : List String} {allSections : List SectionView}
    (hself : s.self = {}) (h : Returns (finalize allSections) (reserved s names) () s') :
    ∃ u specs, s' = FlashSection.holding u "partition table" specs ∧ u.offset = s.offset ∧
      u.structs = s.structs ∧
      FilledTo (allSections.drop (s.sectionId + 1)) names.length names.length specs := by
  unfold finalize at h
  rw [returns_get_bind] at h
  unfold reserved at h
  generalize ha : ({ sectionHeaders := _, topStruct := _, header := _, sections := _ } :
    PartitionAttrs) = a at h
  rw [hself] at ha
  have hheaders : a.sectionHeaders = refsFrom s.structs.length 1 names.length := by
    rw [← ha]
    exact List.nil_append _
  have hheader : a.header = some ⟨s.structs.length, 0⟩ := by rw [← ha]
  simp only [holding_self, withSelf_self, hheader, hheaders] at h
  have hfirst : (created names.length)[0]? = some PartitionTableHeader.spec := rfl
  obtain ⟨specs₁, h₁, h⟩ := setField_bind_inv (by rfl) hfirst (by decide) h
  obtain ⟨specs₂, h₂, h⟩ := h₁.bind_inv (by rfl)
    (by simp only [StructSpec.fieldNames_set]; decide) h
  obtain ⟨specs₃, h₃, h⟩ := h₂.bind_inv (by rfl)
    (by simp only [StructSpec.fieldNames_set]; decide) h
  have hinit : FilledTo (allSections.drop (s.sectionId + 1)) names.length 0 specs₃ := by
    refine ⟨h₃.sizes, h₃.at_index, fun i hi => absurd hi (Nat.not_lt_zero i), fun i _ hi => ?_⟩
    rw [h₃.others _ (by omega), getElem?_created hi]
  obtain ⟨specs, rfl, hfilled⟩ := forEach_zipIdx_induct
    (fun m u => ∃ specs, u = (s.withSelf a).holding "partition table" specs ∧
      FilledTo (allSections.drop (s.sectionId + 1)) names.length m specs)
    (fun m r u u' hr hI hbody => by
      obtain ⟨specs, rfl, hfilled⟩ := hI
      have hm : m < names.length := by
        have := (List.getElem?_eq_some_iff.mp hr).1
        rwa [length_refsFrom] at this
      rw [getElem?_refsFrom hm] at hr
      obtain rfl := Option.some.inj hr
      exact fillEntry_filledTo (by rfl) hm hfilled hbody)
    ⟨specs₃, rfl, hinit⟩ h
  rw [length_refsFrom] at hfilled
  exact ⟨s.withSelf a, specs, rfl, rfl, rfl, hfilled⟩

end PartitionTableSection

end SoftHier.Gapy
