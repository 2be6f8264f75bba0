/-
  Gapy/PlannedContent.lean --- `set_content` allocates what the plan says.

  For every class `set_content` on a new section refines the demand of the entry:
  it raises what the demand raises, and it returns having allocated as many bytes.
  Filling in values fails only where a file fails, since every field that is set
  was declared.
-/
import SoftHier.Gapy.LayoutPlan
import SoftHier.Gapy.RomHeader

set_option autoImplicit false

namespace SoftHier.Gapy

open SoftHier.Foundation Program FlashSection

variable {σ : Type}

/-! ## Setting fields that are there -/

namespace FlashSection

/-- The second section has the fields and the attributes of the first. -/
structure KeepsFields (s t : FlashSection σ) : Prop where
  self : t.self = s.self
  stored : ∀ r name, (t.storedAt r name).isSome = (s.storedAt r name).isSome
  layout : s.SameLayout t

theorem KeepsFields.refl (s : FlashSection σ) : s.KeepsFields s :=
  ⟨rfl, fun _ _ => rfl, SameLayout.refl s⟩

theorem KeepsFields.allocated {s t : FlashSection σ} (h : s.KeepsFields t) :
    t.allocated = s.allocated := by
  unfold FlashSection.allocated
  rw [h.layout.currentOffset, h.layout.offset]

variable {s : FlashSection σ} {t : String} {specs : List StructSpec} {n i : Nat} {name : String}
  {spec : StructSpec}

theorem allocated_holding (s : FlashSection σ) (t : String) (specs : List StructSpec) :
    (s.holding t specs).allocated = specsSize specs := add_sub_cancel_left _ _

theorem isSome_storedAt_holding (hn : s.structs.length = n) (hspec : specs[i]? = some spec)
    (hname : name ∈ spec.fieldNames) : ((s.holding t specs).storedAt ⟨n, i⟩ name).isSome := by
  obtain ⟨f, hf⟩ := get_structOf_isSome hname (s.offset + specsSize (specs.take i))
  unfold storedAt
  rw [structAt_holding hn, hspec, Option.map_some, Option.bind_some, hf]
  rfl

/-- Where a field is stored there is a structure. -/
theorem exists_structAt {r : CStructRef} (h : (s.storedAt r name).isSome) :
    ∃ c f, s.structAt r = some c ∧ c.fields.get name = some f := by
  unfold storedAt at h
  obtain ⟨v, hv⟩ := Option.isSome_iff_exists.mp h
  obtain ⟨c, hc, hmap⟩ := Option.bind_eq_some_iff.mp hv
  obtain ⟨f, hf, -⟩ := Option.map_eq_some_iff.mp hmap
  exact ⟨c, f, hc, hf⟩

section Succeeds

variable {v : FlashSection σ} {r : CStructRef}

theorem succeeds_setField (h : (v.storedAt r name).isSome) (value : FieldValue) :
    Succeeds v.KeepsFields (CStruct.setField r name value : SectionM σ Unit) := by
  intro s hs
  have hstored := h
  rw [← hs.stored] at hstored
  obtain ⟨s', run⟩ := returns_setField_iff.mpr hstored
  obtain ⟨hself, -, -⟩ := setField_storedAt run
  refine ⟨(), s', run, hself.trans hs.self, fun r' name' => ?_,
    hs.layout.trans (keepsLayout_setField _ _ _ _ _ _ run)⟩
  rw [isSome_storedAt_setField run, hs.stored]

theorem succeeds_fieldOffset (h : (v.storedAt r name).isSome) :
    Succeeds v.KeepsFields (CStruct.fieldOffset r name : SectionM σ Int) := by
  refine succeeds_reading fun s hs => ?_
  have hstored := h
  rw [← hs.stored] at hstored
  obtain ⟨c, f, hc, hf⟩ := exists_structAt hstored
  rw [hc, Option.bind_some, hf]
  exact ⟨f.offset, rfl⟩

theorem succeeds_read {α : Type} (h : (v.storedAt r name).isSome) (f : CStruct → α) :
    Succeeds v.KeepsFields (CStruct.read r f : SectionM σ α) := by
  refine succeeds_reading fun s hs => ?_
  have hstored := h
  rw [← hs.stored] at hstored
  obtain ⟨c, -, hc, -⟩ := exists_structAt hstored
  rw [hc]
  exact ⟨f c, rfl⟩

theorem runs_refAt {refs : List CStructRef} (h : refs[i]? = some r) (s : FlashSection σ) :
    Returns (refAt refs i : SectionM σ CStructRef) s r s := by
  unfold refAt
  rw [h]
  exact returns_pure.mpr ⟨rfl, rfl⟩

theorem succeeds_refAt {refs : List CStructRef} (h : refs[i]? = some r) {α : Type}
    {f : CStructRef → SectionM σ α} (hf : Succeeds v.KeepsFields (f r)) :
    Succeeds v.KeepsFields (refAt refs i >>= f) := by
  intro s hs
  obtain ⟨a, s', run, hkept⟩ := hf s hs
  exact ⟨a, s', Returns.bind (runs_refAt h s) run, hkept⟩

end Succeeds

/-! ## Creating structures -/

theorem refsFrom_concat (parent index k : Nat) :
    refsFrom parent index (k + 1) = refsFrom parent index k ++ [⟨parent, index + k⟩] := by
  unfold refsFrom
  rw [List.range'_concat, List.map_append, Nat.one_mul]
  rfl

section Create

variable {α β : Type} {body : α → SectionM σ Unit}

/-- A loop whose body creates one structure and files its reference; `file` files
several references at once. -/
theorem refines_forEach_create {g : α → Except PyError β} (toSpec : α → β → StructSpec)
    (file : List CStructRef → σ → σ) (hnil : ∀ a, file [] a = a)
    (hconcat : ∀ rs r a, file (rs ++ [r]) a = file [r] (file rs a))
    (hbody : ∀ x (s : FlashSection σ) specs, s.structs.length = n →
      Refines (body x) (s.holding t specs) (fun b _ s' =>
        s' = (s.withSelf (file [⟨n, specs.length⟩] s.self)).holding t (specs ++ [toSpec x b])) (g x))
    (hn : s.structs.length = n) (specs : List StructSpec) (xs : List α) :
    Refines (forEach body xs) (s.holding t specs) (fun bs _ s' =>
      List.Forall₂ (fun x b => g x = .ok b) xs bs ∧
      s' = (s.withSelf (file (refsFrom n specs.length xs.length) s.self)).holding t
        (specs ++ List.zipWith toSpec xs bs)) (xs.mapM g) := by
  refine Refines.forEach_mapM (I := fun done bs u =>
    List.Forall₂ (fun x b => g x = .ok b) done bs ∧
    u = (s.withSelf (file (refsFrom n specs.length done.length) s.self)).holding t
      (specs ++ List.zipWith toSpec done bs)) (fun done x _ bs u _ ⟨hread, hu⟩ => ?_) ⟨.nil, ?_⟩
  · rw [hu]
    have hlen : (s.withSelf (file (refsFrom n specs.length done.length) s.self)).structs.length =
        n := hn
    refine (hbody x _ _ hlen).weaken fun b _ s' hb _ hs' =>
      ⟨List.rel_append hread (.cons hb .nil), ?_⟩
    rw [hs', List.length_append, List.length_zipWith, ← hread.length_eq, Nat.min_self,
      List.length_append, List.length_singleton, refsFrom_concat, hconcat, List.append_assoc,
      List.zipWith_append hread.length_eq]
    rfl
  · change s.holding t specs = (s.withSelf (file [] s.self)).holding t (specs ++ [])
    rw [hnil, List.append_nil]
    rfl

/-- The same where no creation fails. -/
theorem runs_forEach_create (toSpec : α → StructSpec) (file : List CStructRef → σ → σ)
    (hnil : ∀ a, file [] a = a)
    (hconcat : ∀ rs r a, file (rs ++ [r]) a = file [r] (file rs a))
    (hbody : ∀ x (s : FlashSection σ) specs, s.structs.length = n →
      Returns (body x) (s.holding t specs) ()
        ((s.withSelf (file [⟨n, specs.length⟩] s.self)).holding t (specs ++ [toSpec x])))
    (hn : s.structs.length = n) (specs : List StructSpec) (xs : List α) :
    Returns (forEach body xs) (s.holding t specs) ()
      ((s.withSelf (file (refsFrom n specs.length xs.length) s.self)).holding t
        (specs ++ xs.map toSpec)) := by
  have hloop : Refines (forEach body xs) (s.holding t specs) _ _ :=
    refines_forEach_create (g := fun x => .ok x) (fun x _ => toSpec x) file hnil hconcat
      (fun x s specs hlen => .returns (hbody x s specs hlen) rfl) hn specs xs
  have hmap : xs.mapM (fun x => (.ok x : Except PyError α)) = .ok (xs.map id) := List.mapM_pure
  rw [hmap, List.map_id] at hloop
  obtain ⟨_, s', run, -, rfl⟩ := hloop.exists_returns
  rw [List.zipWith_self] at run
  exact run

end Create

theorem exists_refsFrom {parent index k : Nat} {r : CStructRef} (h : r ∈ refsFrom parent index k) :
    ∃ i < k, r = ⟨parent, index + i⟩ := by
  obtain ⟨i, hi⟩ := List.mem_iff_getElem?.mp h
  have hlt : i < k := by
    rw [← length_refsFrom parent index k]
    exact (List.getElem?_eq_some_iff.mp hi).1
  rw [getElem?_refsFrom hlt] at hi
  exact ⟨i, hlt, (Option.some.inj hi).symm⟩

/-- What a section holds already it still holds behind a new sub-section. -/
theorem storedAt_holding_of_isSome {r : CStructRef} (h : (s.storedAt r name).isSome) (t : String)
    (specs : List StructSpec) : (s.holding t specs).storedAt r name = s.storedAt r name := by
  obtain ⟨c, f, hc, -⟩ := exists_structAt h
  obtain ⟨parent, hparent, -⟩ := Option.bind_eq_some_iff.mp hc
  have hlt : r.parent < s.structs.length := (List.getElem?_eq_some_iff.mp hparent).1
  unfold storedAt structAt holding
  rw [List.getElem?_append_left hlt]

/-! ## The base class -/

/-- The properties of a section after some entries: those its class declares, with
the values the entries gave them last. -/
structure Valued (t : SectionTemplate) (earlier : List ContentSection)
    (properties : Dict String FlashSectionProperty) : Prop where
  keys : properties.keys = t.declared.keys
  value : ∀ key, (properties.get key).map FlashSectionProperty.value =
    (t.declared.get key).map fun p => earlier.foldl (ContentSection.valueAfter key) p.value

theorem valued_declared (t : SectionTemplate) : Valued t [] t.declared := ⟨rfl, fun _ => rfl⟩

/-- Another entry gives its values. -/
theorem Valued.given {t : SectionTemplate} {earlier : List ContentSection}
    {properties properties' : Dict String FlashSectionProperty} (h : Valued t earlier properties)
    {content : ContentSection} (hkeys : properties'.keys = properties.keys)
    (hget : ∀ key, properties'.get key =
      (properties.get key).map fun p => p.given (content.properties.bind fun d => d.get key)) :
    Valued t (earlier ++ [content]) properties' := by
  refine ⟨hkeys.trans h.keys, fun key => ?_⟩
  have hvalue := congrArg (Option.map fun v => ContentSection.valueAfter key v content) (h.value key)
  rw [Option.map_map, Option.map_map] at hvalue
  have hfold : ((fun v => ContentSection.valueAfter key v content) ∘ fun p : FlashSectionProperty =>
      earlier.foldl (ContentSection.valueAfter key) p.value) =
        fun p => (earlier ++ [content]).foldl (ContentSection.valueAfter key) p.value := by
    funext p
    rw [List.foldl_append]
    rfl
  rw [← hfold, ← hvalue, hget, Option.map_map]
  refine congrArg (fun g => (properties.get key).map g) (funext fun p => ?_)
  unfold ContentSection.valueAfter ContentSection.given
  rw [Flash.get_getD_properties]
  rfl

/-- A declared property has the value given last, or its default. -/
theorem Valued.getProperty {t : SectionTemplate} {earlier : List ContentSection}
    {s : FlashSection σ} (h : Valued t earlier s.properties) {key : String} {d : PyValue}
    (hdeclared : (t.declared.get key).map FlashSectionProperty.value = some d) :
    s.getProperty key = .ok (earlier.foldl (ContentSection.valueAfter key) d) := by
  obtain ⟨declared, hget, rfl⟩ := Option.map_eq_some_iff.mp hdeclared
  have hvalue := h.value key
  rw [hget, Option.map_some] at hvalue
  obtain ⟨p, hp, hvalue⟩ := Option.map_eq_some_iff.mp hvalue
  unfold FlashSection.getProperty
  rw [hp, ← hvalue]

/-- A section that took the content of an entry. -/
structure Took (e : PlanEntry) (allocated : Int) (s : FlashSection σ) : Prop where
  allocated : s.allocated = allocated
  valued : Valued e.template e.contents s.properties

/-- Filling in values leaves what was taken. -/
theorem Took.of_keepsFields {e : PlanEntry} {allocated : Int} {s t : FlashSection σ}
    (h : Took e allocated s) (hkept : s.KeepsFields t) : Took e allocated t :=
  ⟨hkept.allocated.trans h.allocated, by rw [hkept.layout.properties]; exact h.valued⟩

theorem refines_setProperties {t : SectionTemplate} (e : PlanEntry) (he : e.template = t)
    {entries : List (String × PyValue)} {s : FlashSection σ}
    (hs : s.properties.keys = t.declared.keys) :
    Refines (forEach setProperty entries) s
      (fun _ _ s' => s'.properties.keys = t.declared.keys) (entries.mapM e.checkProperty) := by
  refine Refines.forEach_mapM
    (I := fun _ _ (u : FlashSection σ) => u.properties.keys = t.declared.keys)
    (fun _ p _ _ u _ hu => ?_) hs
  unfold setProperty PlanEntry.checkProperty
  refine .get_bind ?_
  rw [he, ← hu]
  cases hp : u.properties.get p.1 with
  | none =>
    rw [if_neg (Dict.get_eq_none_iff.mp hp)]
    exact .throw _
  | some q =>
    have hmem : p.1 ∈ u.properties.keys := Dict.mem_keys_iff.mpr ⟨q, hp⟩
    rw [if_pos hmem]
    exact .returns (a := ()) (returns_set.mpr rfl) (Dict.keys_set_of_mem _ hmem)

/-- The base class takes the properties that are declared, and moves the section to
its start. -/
theorem refines_setContent (e : PlanEntry) {s : FlashSection σ}
    (hs : Valued e.template e.earlier s.properties) (offset : Int) :
    Refines (FlashSection.setContent offset e.content) s
      (fun _ _ s' => ∃ properties, s' = s.started properties (s.startOffset offset) ∧
        Valued e.template e.contents properties)
      (e.content.given.entries.mapM e.checkProperty) := by
  have hrun : Refines (FlashSection.setContent offset e.content) s
      (fun _ _ s' => s'.properties.keys = e.template.declared.keys)
      (e.content.given.entries.mapM e.checkProperty) := by
    unfold FlashSection.setContent ContentSection.given
    cases e.content.properties with
    | none =>
      obtain ⟨s', run, hsame⟩ := runs_setStart offset s
      exact .returns (Returns.bind (returns_pure.mpr ⟨rfl, rfl⟩) run) (hsame ▸ hs.keys)
    | some d =>
      refine (refines_setProperties e rfl hs.keys).bind_last fun _ _ t ht => ?_
      obtain ⟨s', run, hsame⟩ := runs_setStart offset t
      exact .returns run (hsame ▸ ht)
  refine hrun.weaken fun _ _ s' _ run hkeys => ?_
  obtain ⟨properties, rfl, hget⟩ := returns_setContent run
  have hkeys : properties.keys = s.properties.keys := hkeys.trans hs.keys.symm
  exact ⟨properties, rfl, hs.given hkeys hget⟩

/-- Attributes of the class are set. -/
theorem refines_modifySelf_bind {α β : Type} {f : σ → σ} {g : Unit → SectionM σ α}
    {s : FlashSection σ} {Q : β → α → FlashSection σ → Prop} {x : Except PyError β}
    (h : Refines (g ()) (s.withSelf (f s.self)) Q x) : Refines (modifySelf f >>= g) s Q x :=
  .modify_bind h

theorem declared_size (t : SectionTemplate) :
    (t.declared.get "size").map FlashSectionProperty.value = some .none := by
  cases t <;> rfl

end FlashSection

/-! ## ROM -/

namespace RomFlashSection

variable {host : Host} {s : FlashSection RomAttrs}

theorem refines_parseBinary {e : PlanEntry} (h : s.getProperty "binary" = .ok (e.value "binary")) :
    Refines (parseBinary host) s (fun b a s' => a = b ∧ s' = s) (e.binary host) := by
  unfold parseBinary PlanEntry.binary
  refine .step (returns_reading.mpr ⟨h, rfl⟩) ?_
  split
  · exact .pure ⟨rfl, rfl⟩
  · refine .eval fun file _ => ?_
    cases host.openElf file with
    | ok elf => exact .pure ⟨rfl, rfl⟩
    | error e => cases e <;> exact .throw _

theorem specsSize_created (binary : Binary) :
    specsSize (created binary) = PlanEntry.romBytes (some binary) := by
  unfold created PlanEntry.romBytes
  rw [specsSize_append, specsSize_append, specsSize_cons, specsSize_nil]
  have hheader : RomHeader.spec.size = 16 := by decide
  have hsegment : RomSegmentHeader.spec.size = 16 := by decide
  rw [hheader]
  dsimp only
  induction binary.segments with
  | nil => rfl
  | cons b segments ih =>
    have hdata : (RomSegment.spec b).size = b.size := by
      simp [StructSpec.size, fieldsSize, RomSegment.spec, StructSpec.ofDecls, RomSegment.fields,
        FieldDecl.toSpec, FieldSpec.size, FormatItem.size]
    rw [List.map_cons, List.map_cons, List.map_cons, specsSize_cons, specsSize_cons,
      List.sum_cons, hsegment, hdata]
    omega

theorem runs_createHeaders {n : Nat} (hn : s.structs.length = n) (t : String)
    (specs : List StructSpec) (segments : List BinarySegment) :
    Returns (forEach (createHeader n) segments) (s.holding t specs) ()
      ((s.withSelf { s.self with
        segmentHeaders :=
          s.self.segmentHeaders ++ refsFrom n specs.length segments.length }).holding
        t (specs ++ segments.map fun _ => RomSegmentHeader.spec)) :=
  runs_forEach_create (fun _ => RomSegmentHeader.spec)
    (fun refs (a : RomAttrs) => { a with segmentHeaders := a.segmentHeaders ++ refs })
    (fun a => by simp) (fun rs r a => by simp)
    (fun _ _ _ hlen => returns_newOf_filed hlen _ _ RomSegmentHeader.spec.nodup _) hn specs segments

theorem runs_createSegments {n : Nat} (hn : s.structs.length = n) (t : String)
    (specs : List StructSpec) (segments : List BinarySegment) :
    Returns (forEach (createSegment n) segments) (s.holding t specs) ()
      ((s.withSelf { s.self with
        segments := s.self.segments ++ refsFrom n specs.length segments.length }).holding
        t (specs ++ segments.map RomSegment.spec)) :=
  runs_forEach_create RomSegment.spec
    (fun refs (a : RomAttrs) => { a with segments := a.segments ++ refs })
    (fun a => by simp) (fun rs r a => by simp)
    (fun b _ _ hlen => returns_newOf_filed hlen _ _ (RomSegment.spec b).nodup _) hn specs segments

/-- The structures a ROM has filed are there to be filled in. -/
structure Filed (s : FlashSection RomAttrs) : Prop where
  segmentHeader : ∀ r ∈ s.self.segmentHeaders, ∀ name ∈ RomSegmentHeader.spec.fieldNames,
    (s.storedAt r name).isSome
  segment : ∀ r ∈ s.self.segments, (s.storedAt r "data").isSome

theorem Filed.of_keepsFields {t : FlashSection RomAttrs} (h : Filed s) (hkept : s.KeepsFields t) :
    Filed t := by
  refine ⟨fun r hr name hname => ?_, fun r hr => ?_⟩
  · rw [hkept.stored]
    exact h.segmentHeader r (hkept.self ▸ hr) name hname
  · rw [hkept.stored]
    exact h.segment r (hkept.self ▸ hr)

/-- The new structures are filed behind those of the entries before. -/
theorem Filed.unfilled (h : Filed s) (boot : PyValue) (binary : Binary) :
    Filed (unfilled s boot binary) := by
  refine ⟨fun r hr name hname => ?_, fun r hr => ?_⟩
  · rcases List.mem_append.mp hr with hr | hr
    · exact (storedAt_holding_of_isSome (h.segmentHeader r hr name hname) _ _).symm ▸
        h.segmentHeader r hr name hname
    · obtain ⟨i, hi, rfl⟩ := exists_refsFrom hr
      exact isSome_storedAt_holding (by rfl)
        (getElem?_created_header (List.getElem?_eq_getElem hi)) hname
  · rcases List.mem_append.mp hr with hr | hr
    · exact (storedAt_holding_of_isSome (h.segment r hr) _ _).symm ▸ h.segment r hr
    · obtain ⟨i, hi, rfl⟩ := exists_refsFrom hr
      refine isSome_storedAt_holding (by rfl)
        (getElem?_created_segment (List.getElem?_eq_getElem hi)) ?_
      simp [RomSegment.spec, StructSpec.fieldNames, StructSpec.ofDecls, RomSegment.fields,
        FieldDecl.toSpec]

theorem Filed.unfilledEmpty (h : Filed s) (boot : PyValue) : Filed (unfilledEmpty s boot) := by
  refine ⟨fun r hr name hname => ?_, fun r hr => ?_⟩
  · exact (storedAt_holding_of_isSome (h.segmentHeader r hr name hname) _ _).symm ▸
      h.segmentHeader r hr name hname
  · exact (storedAt_holding_of_isSome (h.segment r hr) _ _).symm ▸ h.segment r hr

/-- Storing the size of the section fails only where there is none. -/
theorem refines_storeSize {v : FlashSection RomAttrs} {p : Int → SectionM RomAttrs Unit}
    (hp : ∀ size, Succeeds v.KeepsFields (p size)) :
    Refines (Program.reading FlashSection.getSize >>= p) v (fun _ _ s' => v.KeepsFields s')
      v.getSize := by
  cases hsize : v.getSize with
  | error e => exact .raises (Raises.bind (raises_reading.mpr ⟨hsize, rfl⟩) _)
  | ok size =>
    obtain ⟨_, s', run, hkept⟩ := hp size v (.refl v)
    exact .returns (Returns.bind (returns_reading.mpr ⟨hsize, rfl⟩) run) hkept

theorem refines_fillEmpty (boot : PyValue) :
    Refines (do
        CStruct.setField ⟨s.structs.length, 0⟩ "rom_header_size"
          (.int (← Program.reading FlashSection.getSize)))
      (unfilledEmpty s boot) (fun _ _ s' => (unfilledEmpty s boot).KeepsFields s')
      (unfilledEmpty s boot).getSize := by
  refine refines_storeSize fun size => succeeds_setField ?_ _
  exact isSome_storedAt_holding (by rfl) (by rfl) (by decide)

/-- Filling in the values fails only where there is no size. -/
theorem refines_fill (h : Filed s) (boot : PyValue) (binary : Binary) :
    Refines (fill ⟨s.structs.length, 0⟩ binary) (unfilled s boot binary)
      (fun _ _ s' => (unfilled s boot binary).KeepsFields s') (unfilled s boot binary).getSize := by
  have hheader : ∀ name ∈ RomHeader.spec.fieldNames,
      ((unfilled s boot binary).storedAt ⟨s.structs.length, 0⟩ name).isSome :=
    fun name hname => isSome_storedAt_holding (by rfl) (by rfl) hname
  have hfiled := h.unfilled boot binary
  have hheaders : binary.segments.length ≤ (unfilled s boot binary).self.segmentHeaders.length := by
    unfold unfilled
    rw [holding_self, withSelf_self, List.length_append, length_refsFrom]
    exact Nat.le_add_left _ _
  have hsegments : binary.segments.length ≤ (unfilled s boot binary).self.segments.length := by
    unfold unfilled
    rw [holding_self, withSelf_self, List.length_append, length_refsFrom]
    exact Nat.le_add_left _ _
  generalize unfilled s boot binary = v at *
  refine refines_storeSize fun size => ?_
  refine succeeds_bind (succeeds_setField (hheader _ (by decide)) _) fun _ => ?_
  refine succeeds_bind (succeeds_setField (hheader _ (by decide)) _) fun _ => ?_
  refine succeeds_bind (succeeds_setField (hheader _ (by decide)) _) fun _ => ?_
  refine succeeds_forEach fun p hp => ?_
  have hlt := List.snd_lt_of_mem_zipIdx hp
  have hr := List.getElem?_eq_getElem (lt_of_lt_of_le hlt hheaders)
  have hr' := List.getElem?_eq_getElem (lt_of_lt_of_le hlt hsegments)
  have hfields := hfiled.segmentHeader _ (List.mem_of_getElem? hr)
  have hdata := hfiled.segment _ (List.mem_of_getElem? hr')
  unfold fillSegment
  refine succeeds_get_bind fun u hu => ?_
  dsimp only
  rw [hu.self]
  refine succeeds_refAt hr (succeeds_refAt hr' ?_)
  refine succeeds_bind (succeeds_fieldOffset hdata) fun _ => ?_
  refine succeeds_bind (succeeds_setField (hfields _ (by decide)) _) fun _ => ?_
  refine succeeds_bind (succeeds_setField (hfields _ (by decide)) _) fun _ => ?_
  refine succeeds_bind (succeeds_setField (hfields _ (by decide)) _) fun _ => ?_
  refine succeeds_bind (succeeds_setField (hfields _ (by decide)) _) fun _ => ?_
  exact succeeds_setField hdata _

/-- Once the values are filled in the section has allocated its structures. -/
theorem refines_filled {e : PlanEntry} {v : FlashSection RomAttrs} {p : SectionM RomAttrs Unit}
    {allocated : Int} (h : Refines p v (fun _ _ s' => v.KeepsFields s') v.getSize)
    (htook : Took e allocated v) (hfiled : Filed v) :
    Refines p v (fun allocated _ s' => Took e allocated s' ∧ Filed s') (do
      let _ ← reportedSize v.startAlign v.sizeAlign (e.value "size") allocated
      pure allocated) := by
  rw [getSize_eq_reportedSize (htook.valued.getProperty (declared_size _)), htook.allocated] at h
  exact h.map fun _ _ s' hkept => ⟨htook.of_keepsFields hkept, hfiled.of_keepsFields hkept⟩

/-- The bytes of the section, and the check of its size that storing it makes. -/
theorem refines_setContent {e : PlanEntry} (he : e.template = .rom)
    (hs : Valued e.template e.earlier s.properties) (hfiled : Filed s) (offset : Int) :
    Refines (setContent host offset e.content) s
      (fun allocated _ s' => Took e allocated s' ∧ Filed s')
      (do
        let _ ← e.content.given.entries.mapM e.checkProperty
        let binary ← e.binary host
        let allocated := PlanEntry.romBytes binary
        let _ ← reportedSize s.startAlign s.sizeAlign (e.value "size") allocated
        pure allocated) := by
  unfold setContent
  refine (FlashSection.refines_setContent e hs offset).bind ?_
  rintro _ _ s₁ ⟨properties, rfl, hproperties⟩
  have hvalued : Valued e.template e.contents
      (s.started properties (s.startOffset offset)).properties := hproperties
  have hfiled₁ : Filed (s.started properties (s.startOffset offset)) :=
    ⟨hfiled.segmentHeader, hfiled.segment⟩
  have hfresh : (s.started properties (s.startOffset offset)).currentOffset =
      (s.started properties (s.startOffset offset)).offset := rfl
  have haligns : (s.started properties (s.startOffset offset)).startAlign = s.startAlign ∧
      (s.started properties (s.startOffset offset)).sizeAlign = s.sizeAlign := ⟨rfl, rfl⟩
  generalize s.started properties (s.startOffset offset) = u at *
  have hdeclared : e.template.declared = SectionTemplate.rom.declared := by rw [he]
  have hbinary := hvalued.getProperty (show (e.template.declared.get "binary").map _ = some .none by
    rw [hdeclared]
    rfl)
  have hboot := hvalued.getProperty
    (show (e.template.declared.get "boot").map _ = some (.bool false) by
      rw [hdeclared]
      rfl)
  rw [← haligns.1, ← haligns.2]
  refine (refines_parseBinary hbinary).bind ?_
  rintro _ binary _ ⟨rfl, rfl⟩
  rename_i u
  refine refines_modifySelf_bind (.step (returns_reading.mpr ⟨hboot, rfl⟩) ?_)
  refine refines_modifySelf_bind (.step (returns_newParent (by exact hfresh) "rom") ?_)
  refine refines_modifySelf_bind ?_
  simp only [withSelf_holding, withSelf_withSelf, withSelf_self, holding_self, withSelf_structs]
  cases binary with
  | none =>
    refine .step (returns_newOf (by rfl) _ _ RomEmptyHeader.spec.nodup) ?_
    exact refines_modifySelf_bind (refines_filled (refines_fillEmpty (s := u) _)
      ⟨allocated_holding _ "rom" _, hvalued⟩ (hfiled₁.unfilledEmpty _))
  | some binary =>
    refine .step (returns_newOf (by rfl) _ _ RomHeader.spec.nodup) ?_
    refine refines_modifySelf_bind ?_
    simp only [withSelf_holding, withSelf_withSelf, withSelf_self, holding_self]
    refine .step (runs_createHeaders (by rfl) "rom" _ binary.segments) ?_
    refine .step (runs_createSegments (by rfl) "rom" _ binary.segments) ?_
    have hcount : ([RomHeader.spec] ++ binary.segments.map fun _ => RomSegmentHeader.spec).length =
        1 + binary.segments.length := by
      rw [List.length_append, List.length_map, List.length_singleton]
    have hfill := refines_filled (e := e)
      (refines_fill hfiled₁ (e.contents.foldl (ContentSection.valueAfter "boot") (.bool false))
        binary)
      ⟨(allocated_holding _ "rom" _).trans (specsSize_created binary), hvalued⟩
      (hfiled₁.unfilled _ binary)
    unfold unfilled at hfill
    rw [← hcount] at hfill
    exact hfill

end RomFlashSection

/-! ## Partition table -/

namespace PartitionTableSection

variable {s : FlashSection PartitionAttrs}

theorem specsSize_created (k : Nat) : specsSize (created k) = 32 + 32 * k := by
  have hheader : PartitionTableHeader.spec.size = 32 := by decide
  have hentries : specsSize ((List.range k).map PartitionTableSectionHeader.spec) = k * 32 := by
    have hmap : ((List.range k).map PartitionTableSectionHeader.spec).map StructSpec.size =
        (List.range k).map fun _ => 32 := List.map_map
    unfold specsSize
    rw [hmap, List.map_const', List.sum_replicate, List.length_range, nsmul_eq_mul]
  unfold created
  rw [specsSize_cons, hheader, hentries, Int.mul_comm]

theorem runs_createEntries {n : Nat} (hn : s.structs.length = n) (t : String)
    (specs : List StructSpec) (names : List String) :
    Returns (forEach (createEntry n) names.zipIdx) (s.holding t specs) ()
      ((s.withSelf { s.self with
        sectionHeaders := s.self.sectionHeaders ++ refsFrom n specs.length names.length }).holding
        t (specs ++ (List.range names.length).map PartitionTableSectionHeader.spec)) := by
  have hloop : Returns (forEach (createEntry n) names.zipIdx) (s.holding t specs) () _ :=
    runs_forEach_create (fun p => PartitionTableSectionHeader.spec p.2)
      (fun refs (a : PartitionAttrs) => { a with sectionHeaders := a.sectionHeaders ++ refs })
      (fun a => by simp) (fun rs r a => by simp)
      (fun p _ _ hlen =>
        returns_newOf_filed hlen _ _ (PartitionTableSectionHeader.spec p.2).nodup _)
      hn specs names.zipIdx
  have hrange : names.zipIdx.map (fun p => PartitionTableSectionHeader.spec p.2) =
      (List.range names.length).map PartitionTableSectionHeader.spec := by
    rw [List.range_eq_range', ← List.zipIdx_map_snd 0 names, List.map_map]
    rfl
  rw [List.length_zipIdx] at hloop
  exact hrange ▸ hloop

/-- A table that was reached a number of times, each time with as many sections behind
it: what it has filed is there to be filled in. -/
structure Reserves (later reached : Nat) (s : FlashSection PartitionAttrs) : Prop where
  header : ∀ r, s.self.header = some r → ∀ name ∈ PartitionTableHeader.spec.fieldNames,
    (s.storedAt r name).isSome
  unreached : s.self.header = none ↔ reached = 0
  entry : ∀ r ∈ s.self.sectionHeaders,
    ∀ name ∈ ["magic_number", "type", "subtype", "offset", "size", "name"],
      (s.storedAt r name).isSome
  entries : s.self.sectionHeaders.length = later * reached

theorem reserves_new {later : Nat} (hself : s.self = {}) : Reserves later 0 s := by
  refine ⟨fun r hr => ?_, ?_, fun r hr => ?_, ?_⟩
  · rw [hself] at hr
    cases hr
  · rw [hself]
    exact iff_of_true rfl rfl
  · rw [hself] at hr
    cases hr
  · rw [hself]
    rfl

theorem Reserves.of_keepsFields {later reached : Nat} {t : FlashSection PartitionAttrs}
    (h : Reserves later reached s) (hkept : s.KeepsFields t) : Reserves later reached t := by
  refine ⟨fun r hr name hname => ?_, hkept.self ▸ h.unreached, fun r hr name hname => ?_,
    hkept.self ▸ h.entries⟩
  · rw [hkept.stored]
    exact h.header r (hkept.self ▸ hr) name hname
  · rw [hkept.stored]
    exact h.entry r (hkept.self ▸ hr) name hname

/-- The table is reached once more. -/
theorem Reserves.reserved {later reached : Nat} (h : Reserves later reached s)
    {names : List String} (hlater : names.length = later) :
    Reserves later (reached + 1) (reserved s names) := by
  subst hlater
  refine ⟨fun r hr name hname => ?_, ?_, fun r hr name hname => ?_, ?_⟩
  · obtain rfl := Option.some.inj hr
    exact isSome_storedAt_holding (by rfl) (by rfl) hname
  · exact iff_of_false nofun (Nat.succ_ne_zero reached)
  · rcases List.mem_append.mp hr with hr | hr
    · exact (storedAt_holding_of_isSome (h.entry r hr name hname) _ _).symm ▸
        h.entry r hr name hname
    · obtain ⟨i, hi, rfl⟩ := exists_refsFrom hr
      refine isSome_storedAt_holding (by rfl) (getElem?_created hi) ?_
      exact List.mem_append_left ["flags"] hname
  · change (s.self.sectionHeaders ++ refsFrom s.structs.length 1 names.length).length = _
    rw [List.length_append, length_refsFrom, h.entries, Nat.mul_succ]

/-- A table never fails to reserve its entries. -/
theorem refines_setContent {e : PlanEntry} {reached : Nat}
    (hs : Valued e.template e.earlier s.properties) (hreserves : Reserves e.later reached s)
    {flash : FlashContext} (hlater : (flash.sectionNames.drop (s.sectionId + 1)).length = e.later)
    (offset : Int) :
    Refines (setContent flash offset e.content) s
      (fun allocated _ s' => Took e allocated s' ∧ Reserves e.later (reached + 1) s')
      (do
        let _ ← e.content.given.entries.mapM e.checkProperty
        pure (32 + 32 * (e.later : Int))) := by
  unfold setContent
  refine (FlashSection.refines_setContent e hs offset).bind ?_
  rintro _ _ s₁ ⟨properties, rfl, hproperties⟩
  have hvalued : Valued e.template e.contents
      (s.started properties (s.startOffset offset)).properties := hproperties
  have hreserves₁ : Reserves e.later reached (s.started properties (s.startOffset offset)) :=
    ⟨hreserves.header, hreserves.unreached, hreserves.entry, hreserves.entries⟩
  have hfresh : (s.started properties (s.startOffset offset)).currentOffset =
      (s.started properties (s.startOffset offset)).offset := rfl
  have hid : (s.started properties (s.startOffset offset)).sectionId = s.sectionId := rfl
  generalize s.started properties (s.startOffset offset) = u at *
  refine .get_bind ?_
  rw [hid]
  generalize flash.sectionNames.drop (s.sectionId + 1) = names at *
  refine refines_modifySelf_bind (.step (returns_newParent (by exact hfresh) "partition table") ?_)
  refine refines_modifySelf_bind ?_
  simp only [withSelf_holding, withSelf_withSelf, withSelf_self, holding_self, withSelf_structs]
  refine .step (returns_newOf (by rfl) _ _ PartitionTableHeader.spec.nodup) ?_
  refine refines_modifySelf_bind ?_
  simp only [withSelf_holding, withSelf_withSelf, withSelf_self, holding_self]
  have run := runs_createEntries (s := u.withSelf
    { u.self with
      sections := some names
      topStruct := some u.structs.length
      header := some ⟨u.structs.length, 0⟩ }) (by rfl) "partition table"
    [PartitionTableHeader.spec] names
  refine .returns run ⟨⟨?_, hvalued⟩, hreserves₁.reserved hlater⟩
  exact (allocated_holding _ "partition table" _).trans
    ((specsSize_created names.length).trans (by rw [hlater]))

/-! ### Finalizing a table -/

/-- An entry is filled in when there is a section for it. -/
theorem refines_fillEntry {u v : FlashSection PartitionAttrs} (hu : v.KeepsFields u)
    {views : List SectionView} (hsizes : ∀ view ∈ views, ∃ size, view.size = .ok size)
    {p : CStructRef × Nat}
    (hfields : ∀ name ∈ ["magic_number", "type", "subtype", "offset", "size", "name"],
      (v.storedAt p.1 name).isSome) :
    Refines (fillEntry views p) u (fun _ _ s' => v.KeepsFields s')
      (if p.2 < views.length then .ok () else .error .indexError) := by
  unfold fillEntry
  refine .after (succeeds_setField (hfields _ (by decide)) _) hu fun _ u hu => ?_
  by_cases hp : p.2 < views.length
  · obtain ⟨size, hsize⟩ := hsizes _ (List.getElem_mem hp)
    rw [if_pos hp, List.getElem?_eq_getElem hp]
    refine .after (succeeds_setField (hfields _ (by decide)) _) hu fun _ u hu => ?_
    refine .after (succeeds_setField (hfields _ (by decide)) _) hu fun _ u hu => ?_
    refine .after (succeeds_setField (hfields _ (by decide)) _) hu fun _ u hu => ?_
    refine .step (returns_reading.mpr ⟨hsize, rfl⟩) ?_
    refine .after (succeeds_setField (hfields _ (by decide)) _) hu fun _ u hu => ?_
    obtain ⟨_, s', run, hkept⟩ := succeeds_setField (hfields "name" (by decide)) _ u hu
    exact .returns run hkept
  · rw [if_neg hp, List.getElem?_eq_none (not_lt.mp hp)]
    exact .throw _

/-- The entries are filled in one after the other, up to the first without a section. -/
theorem refines_fillEntries {v : FlashSection PartitionAttrs} {views : List SectionView}
    (hsizes : ∀ view ∈ views, ∃ size, view.size = .ok size) {refs : List CStructRef} :
    ∀ {u : FlashSection PartitionAttrs} {k : Nat}, v.KeepsFields u → k ≤ views.length →
      (∀ r ∈ refs, ∀ name ∈ ["magic_number", "type", "subtype", "offset", "size", "name"],
        (v.storedAt r name).isSome) →
      Refines (forEach (fillEntry views) (refs.zipIdx k)) u (fun _ _ s' => v.KeepsFields s')
        (if views.length < k + refs.length then .error .indexError else .ok ()) := by
  induction refs with
  | nil =>
    intro u k hu hk _
    rw [List.length_nil, Nat.add_zero, if_neg (not_lt.mpr hk)]
    exact .pure hu
  | cons r refs ih =>
    intro u k hu hk hfields
    have hone := refines_fillEntry hu hsizes (p := (r, k)) (hfields r List.mem_cons_self)
    rw [List.zipIdx_cons, List.length_cons]
    by_cases hlt : k < views.length
    · rw [if_pos hlt] at hone
      obtain ⟨_, u', run, hu'⟩ := hone.exists_returns
      have hrest := ih hu' hlt fun r' hr' => hfields r' (List.mem_cons_of_mem r hr')
      rw [show k + 1 + refs.length = k + (refs.length + 1) by omega] at hrest
      exact .step run hrest
    · rw [if_neg hlt] at hone
      obtain ⟨u', run⟩ := hone.exists_raises
      rw [if_pos (by omega)]
      exact .raises (run.bind _)

/-- A table is finalized when it was reached and there is a section for every entry it
has reserved. -/
theorem refines_finalize {later reached : Nat} (h : Reserves later reached s)
    {views : List SectionView} (hlater : (views.drop (s.sectionId + 1)).length = later)
    (hsizes : ∀ view ∈ views, ∃ size, view.size = .ok size) :
    Refines (finalize views) s (fun _ _ s' => s.KeepsFields s')
      (if reached = 0 then .error .attributeError
        else if later < later * reached then .error .indexError else .ok ()) := by
  unfold finalize
  refine .get_bind ?_
  cases hheader : s.self.header with
  | none =>
    rw [if_pos (h.unreached.mp hheader)]
    exact .throw _
  | some r =>
    have hreached : reached ≠ 0 := by
      intro hzero
      rw [h.unreached.mpr hzero] at hheader
      cases hheader
    have hfields := h.header r hheader
    rw [if_neg hreached]
    refine .after (succeeds_setField (hfields _ (by decide)) _) (.refl s) fun _ u hu => ?_
    refine .after (succeeds_setField (hfields _ (by decide)) _) hu fun _ u hu => ?_
    refine .after (succeeds_setField (hfields _ (by decide)) _) hu fun _ u hu => ?_
    have hentries := refines_fillEntries
      (fun view hview => hsizes view (List.mem_of_mem_drop hview)) hu
      (Nat.zero_le (views.drop (s.sectionId + 1)).length) h.entry
    rw [Nat.zero_add, h.entries, hlater] at hentries
    exact hentries

end PartitionTableSection

end SoftHier.Gapy
