/-
  Gapy/DumpLayout.lean --- the layout of a content that is too large.

  `dump_layout` parses without the overflow check: the placement loop leaves
  behind the first section that ends beyond the flash, the last loop goes over all
  sections all the same.  A partition table that was not reached has no header to
  fill in.
-/
import SoftHier.Gapy.FlashSize
import SoftHier.Gapy.RomHeader
import SoftHier.Gapy.SectionTables

set_option autoImplicit false

namespace SoftHier.Gapy

open SoftHier.Foundation Program

/-! ## Finalizing a partition table -/

namespace PartitionTableSection

variable {s s' t : FlashSection PartitionAttrs}

/-- The same fields can be set. -/
def SameFields (s t : FlashSection PartitionAttrs) : Prop :=
  ∀ r name, (s.storedAt r name).isSome = (t.storedAt r name).isSome

theorem follows_setField (r : CStructRef) (name : String) (value value' : FieldValue) :
    Follows SameFields (CStruct.setField r name value) (CStruct.setField r name value') := by
  intro s t u s' hsame h
  have hstored := FlashSection.returns_setField_iff.mp ⟨s', h⟩
  rw [hsame r name] at hstored
  obtain ⟨t', h'⟩ := FlashSection.returns_setField_iff.mpr hstored
  refine ⟨(), t', h', fun r' name' => ?_⟩
  rw [FlashSection.isSome_storedAt_setField h, FlashSection.isSome_storedAt_setField h']
  exact hsame r' name'

/-- A section behind the table is in both lists or in none. -/
theorem follows_fillEntry {sections sections' : List SectionView}
    (hlength : sections'.length = sections.length)
    (hsizes : ∀ v ∈ sections', ∃ size, v.size = .ok size) (p : CStructRef × Nat) :
    Follows SameFields (fillEntry sections p) (fillEntry sections' p) := by
  unfold fillEntry
  refine follows_bind (follows_setField _ _ _ _) fun _ _ => ?_
  cases hv : sections[p.2]? with
  | none => exact follows_throw _ _
  | some v =>
    obtain ⟨hlt, -⟩ := List.getElem?_eq_some_iff.mp hv
    have hv' : sections'[p.2]? = some sections'[p.2] := List.getElem?_eq_getElem (hlength ▸ hlt)
    obtain ⟨size, hsize⟩ := hsizes _ (List.mem_of_getElem? hv')
    rw [hv']
    refine follows_bind (follows_setField _ _ _ _) fun _ _ => ?_
    refine follows_bind (follows_setField _ _ _ _) fun _ _ => ?_
    refine follows_bind (follows_setField _ _ _ _) fun _ _ => ?_
    refine follows_bind (follows_reading fun _ _ _ _ _ => ⟨size, hsize⟩) fun _ _ => ?_
    refine follows_bind (follows_setField _ _ _ _) fun _ _ => ?_
    exact follows_setField _ _ _ _

/-- Whether a table can be finalized depends on the number of sections only, as long
as every section reports a size. -/
theorem exists_finalize {views views' : List SectionView} (hlength : views'.length = views.length)
    (hsizes : ∀ v ∈ views', ∃ size, v.size = .ok size)
    (h : Returns (finalize views) s () s') : ∃ s'', Returns (finalize views') s () s'' := by
  unfold finalize at h ⊢
  simp only [returns_get_bind] at h ⊢
  cases hheader : s.self.header with
  | none =>
    rw [hheader] at h
    exact absurd h not_returns_throw
  | some header =>
    rw [hheader] at h
    have hdrop : (views'.drop (s.sectionId + 1)).length =
        (views.drop (s.sectionId + 1)).length := by
      rw [List.length_drop, List.length_drop, hlength]
    have hfollows : Follows SameFields _ _ :=
      follows_bind (follows_setField header "magic_number" (.int 0x02BA) (.int 0x02BA)) fun _ _ =>
      follows_bind (follows_setField header "partition_table_version" (.int 1) (.int 1)) fun _ _ =>
      follows_bind (follows_setField header "nb_entries"
        (.int (views.drop (s.sectionId + 1)).length)
        (.int (views'.drop (s.sectionId + 1)).length)) fun _ _ =>
      follows_forEach s.self.sectionHeaders.zipIdx fun p _ =>
        follows_fillEntry hdrop (fun v hv => hsizes v (List.mem_of_mem_drop hv)) p
    obtain ⟨_, s'', h', -⟩ := hfollows s s () s' (fun _ _ => rfl) h
    exact ⟨s'', h'⟩

end PartitionTableSection

namespace Section

variable {s s' : Section}

theorem exists_finalize {views views' : List SectionView} (hlength : views'.length = views.length)
    (hsizes : ∀ v ∈ views', ∃ size, v.size = .ok size)
    (h : Returns (Section.finalize views) s () s') :
    ∃ s'', Returns (Section.finalize views') s () s'' := by
  cases s with
  | partitionTable s =>
    obtain ⟨t, ht, -⟩ := returns_within h
    obtain ⟨t', ht'⟩ := PartitionTableSection.exists_finalize hlength hsizes ht
    exact ⟨.partitionTable t', within_of_returns ht'⟩
  | _ => exact ⟨_, rfl⟩

/-- A partition table whose content was never set has no header. -/
theorem not_returns_finalize_new {views : List SectionView} {name : String} {sectionId : Nat} :
    ¬ Returns (Section.finalize views)
      (SectionTemplate.partitionTable.new name sectionId) () s' := by
  intro h
  change within .partitionTable (PartitionTableSection.finalize views)
    (PartitionTableSection.new name sectionId) = _ at h
  obtain ⟨t, ht, -⟩ := returns_within h
  exact absurd ht not_returns_throw

end Section

/-! ## The placement loop that leaves early -/

namespace Flash

variable {host : Host} {f f' : Flash}

/-- The place of the entry behind which the placement loop leaves. -/
def overflowAt (host : Host) : Int → List ContentSection → Flash → Option Nat
  | _, [], _ => none
  | flashOffset, content :: rest, f =>
      match placeSection host flashOffset content f with
      | .ok next f' =>
          if next > (f'.size : Int) then some 0
          else (overflowAt host next rest f').map (· + 1)
      | .error _ _ => none

theorem overflowAt_cons {c : ContentSection} {cs : List ContentSection} {offset : Int} {k : Nat}
    (h : overflowAt host offset (c :: cs) f = some k) :
    ∃ next f₁, Returns (placeSection host offset c) f next f₁ ∧
      (next > f₁.size ∧ k = 0 ∨
        next ≤ f₁.size ∧ ∃ j, overflowAt host next cs f₁ = some j ∧ k = j + 1) := by
  rw [overflowAt] at h
  cases hplace : placeSection host offset c f with
  | error e f₁ =>
    rw [hplace] at h
    cases h
  | ok next f₁ =>
    simp only [hplace] at h
    refine ⟨next, f₁, hplace, ?_⟩
    by_cases hover : next > (f₁.size : Int)
    · rw [if_pos hover] at h
      exact .inl ⟨hover, (Option.some.inj h).symm⟩
    · rw [if_neg hover] at h
      obtain ⟨j, hj, rfl⟩ := Option.map_eq_some_iff.mp h
      exact .inr ⟨not_lt.mp hover, j, hj, rfl⟩

/-- The entries up to the overflow are placed, the sections behind it are left as
they were created. -/
theorem returns_placeSections_overflow {cs : List ContentSection} :
    ∀ {f : Flash} {pre es : List (String × Section)} {offset : Int} {k : Nat},
      f.sections.entries = pre ++ es →
      cs.map ContentSection.name = es.map (fun e => some e.1) →
      overflowAt host offset cs f = some k →
      ∃ f' ps bound, Returns (placeSections host false offset cs) f .overflow f' ∧
        (∀ limit ≥ bound, Placements host f.context limit
          (f.flashAttributes.get "section_start_align")
          (f.flashAttributes.get "section_size_align") offset (cs.take (k + 1))
          (es.take (k + 1)) ps) ∧
        f' = { f with sections := f'.sections } ∧
        f'.sections.entries = pre ++ (ps ++ es.drop (k + 1)) := by
  induction cs with
  | nil => exact fun _ _ h => absurd h nofun
  | cons c cs ih =>
    intro f pre es offset k hentries hnames h
    cases es with
    | nil => exact absurd hnames nofun
    | cons e es =>
      obtain ⟨name, s⟩ := e
      rw [List.map_cons, List.map_cons, List.cons.injEq] at hnames
      obtain ⟨next, f₁, hplace, hcases⟩ := overflowAt_cons h
      have hrun : Returns (placeSection host offset c) f next f₁ := hplace
      obtain ⟨s', size, hset, hsize, rfl, rfl, hcontext, hentries'⟩ :=
        placeSection_middle_inv hentries hnames.1 hplace
      rcases hcases with ⟨hover, rfl⟩ | ⟨hle, j, hj, rfl⟩
      · refine ⟨{ f with sections := f.sections.set name s' }, [(name, s')],
          (s'.offset + size).toNat, ?_, fun limit hlimit => ?_, rfl, by simpa using hentries'⟩
        · exact returns_placeSections_cons.mpr ⟨_, _, hrun, .inl ⟨hover, rfl, rfl, rfl⟩⟩
        · exact .cons hset hsize (by omega) (.nil _)
      · obtain ⟨f', ps, bound, hreturns, hps, hframe, hentries''⟩ := ih hentries' hnames.2 hj
        rw [hcontext] at hps
        refine ⟨f', (name, s') :: ps, max bound f.size, ?_, fun limit hlimit => ?_, ?_, ?_⟩
        · exact returns_placeSections_cons.mpr ⟨_, _, hrun, .inr ⟨hle, hreturns⟩⟩
        · have hfits : s'.offset + size ≤ (f.size : Int) := hle
          exact .cons hset hsize (by omega) (hps limit (by omega))
        · rw [hframe]
        · rw [hentries'', List.append_assoc, List.singleton_append]
          rfl

/-- The last loop returns when every section can be finalized. -/
theorem exists_finalizeSections (views : List SectionView) {cs : List ContentSection} :
    ∀ {f : Flash} {pre ps : List (String × Section)},
      f.sections.entries = pre ++ ps → cs.map ContentSection.name = ps.map (fun e => some e.1) →
      f.sections.values.map Section.view = views →
      (∀ p ∈ ps, ∃ s', Returns (Section.finalize views) p.2 () s') →
      ∃ f', Returns (forEach finalizeSection cs) f () f' := by
  induction cs with
  | nil => exact fun {f} _ _ _ _ _ _ => ⟨f, returns_forEach_nil.mpr rfl⟩
  | cons c cs ih =>
    intro f pre ps hentries hnames hviews hall
    cases ps with
    | nil => exact absurd hnames nofun
    | cons e ps =>
      obtain ⟨name, s⟩ := e
      rw [List.map_cons, List.map_cons, List.cons.injEq] at hnames
      obtain ⟨s', hfinalize⟩ := hall _ List.mem_cons_self
      have hviews' := (views_set_finalized hentries hfinalize).trans hviews
      have hone : Returns (finalizeSection c) f ()
          { f with sections := f.sections.set name s' } :=
        (returns_finalizeSection_middle hentries hnames.1).mpr ⟨s', hviews ▸ hfinalize, rfl⟩
      have hentries' : ({ f with sections := f.sections.set name s' } : Flash).sections.entries =
          (pre ++ [(name, s')]) ++ ps := by
        rw [List.append_assoc, List.singleton_append]
        exact Dict.entries_set_middle hentries s'
      obtain ⟨f', hrest⟩ := ih hentries' hnames.2 hviews' fun p hp =>
        hall p (List.mem_cons_of_mem _ hp)
      exact ⟨f', returns_forEach_cons.mpr ⟨_, hone, hrest⟩⟩

/-! ## A content that only overflows -/

/-- A content with one defect, the section at a place: in a flash of a larger size
the content parses, in the flash the placement loop leaves behind that section. -/
structure OnlyOverflows (host : Host) (f : Flash) (large : Nat) (full : Flash) (k : Nat) :
    Prop where
  fresh : f.Fresh
  names : f.DistinctNames
  parse : Returns (parseContent host true) (f.resize large) () full
  overflow : overflowAt host 0 (prepared host f).contentSections (prepared host f) = some k

/-- Both runs: `u` is the flash behind the placement loop that left early, `placed` are
the sections the other run placed. -/
structure OverflowRuns (host : Host) (f : Flash) (large : Nat) (full : Flash) (k : Nat)
    (u : Flash) (ps placed : List (String × Section)) : Prop where
  parse : ∀ f', Returns (parseContent host false) f () f' ↔
    Returns (forEach finalizeSection (prepared host f).contentSections) u () f'
  names : (prepared host f).contentSections.map ContentSection.name =
    u.sections.entries.map fun e => some e.1
  entries : u.sections.entries = ps ++ (prepared host f).sections.entries.drop (k + 1)
  created : ∀ e ∈ (prepared host f).sections.entries, Untouched e.2
  placements : ∃ (flash : FlashContext) (n : Nat) (startAlign sizeAlign : Option Int)
    (cs : List ContentSection) (es : List (String × Section)), flash.size = f.size ∧
    (∀ e ∈ es, Untouched e.2) ∧
    Placements host flash n startAlign sizeAlign 0 cs es ps ∧
    Placements host { flash with size := large } large startAlign sizeAlign 0 cs es
      (placed.take (k + 1))
  finalized : List.Forall₂ (fun p q : String × Section =>
    q.1 = p.1 ∧ Returns (Section.finalize (placed.map fun e => e.2.view)) p.2 () q.2)
    placed full.sections.entries
  length : placed.length = u.sections.entries.length
  place : k < placed.length
  lengthPlaced : ps.length = k + 1

theorem prepare_frame {f₂ : Flash} (hfresh : f.Fresh) (h : Returns (prepare host) f () f₂) :
    f₂ = { f with
      sections := f₂.sections, contentDict := f₂.contentDict, contentParsed := true } := by
  obtain ⟨f₁, hcreate, hprops⟩ := returns_prepare_iff.mp h
  have hframe₁ := (untouched_createSections (by exact hfresh.sections) hcreate).1
  rw [(keeps_handleSectionProperties _ _ _ hprops).1, hframe₁]

/-- What a parse does behind a placement loop that returned. -/
theorem returns_parseContent_iff {checkOverflow : Bool} {f₂ f₃ : Flash} {p : Placement}
    (hfresh : f.Fresh) (hprepare : Returns (prepare host) f () f₂)
    (hplace : Returns (placeSections host checkOverflow 0 f₂.contentSections) f₂ p f₃) :
    Returns (parseContent host checkOverflow) f () f' ↔
      Returns (forEach finalizeSection f₂.contentSections) f₃ () f' := by
  obtain ⟨f₁, hcreate, hprops⟩ := returns_prepare_iff.mp hprepare
  constructor
  · intro h
    obtain ⟨g₁, g₂, g₃, p', hcreate', hprops', hplace', hfinalize⟩ :=
      parseContent_inv hfresh.contentParsed hfresh.contentDict h
    obtain ⟨-, rfl⟩ := hcreate.unique hcreate'
    obtain ⟨-, rfl⟩ := hprops.unique hprops'
    obtain ⟨-, rfl⟩ := hplace.unique hplace'
    exact hfinalize
  · exact returns_parseContent_of hfresh.contentParsed hfresh.contentDict hcreate hprops hplace

theorem Placements.length_eq {flash : FlashContext} {n : Nat} {startAlign sizeAlign : Option Int}
    {offset : Int} {cs : List ContentSection} {es ps : List (String × Section)}
    (h : Placements host flash n startAlign sizeAlign offset cs es ps) :
    ps.length = es.length := by
  have := congrArg List.length h.map_fst
  rwa [List.length_map, List.length_map] at this

theorem overflowAt_lt {cs : List ContentSection} :
    ∀ {f : Flash} {offset : Int} {k : Nat}, overflowAt host offset cs f = some k →
      k < cs.length := by
  induction cs with
  | nil => exact fun h => absurd h nofun
  | cons c cs ih =>
    intro f offset k h
    obtain ⟨next, f₁, -, ⟨-, rfl⟩ | ⟨-, j, hj, rfl⟩⟩ := overflowAt_cons h
    · exact Nat.zero_lt_succ _
    · exact Nat.succ_lt_succ (ih hj)

variable {large k : Nat} {full : Flash}

theorem OnlyOverflows.runs (h : OnlyOverflows host f large full k) :
    ∃ u ps placed, OverflowRuns host f large full k u ps placed := by
  have hfresh : (f.resize large).Fresh :=
    ⟨h.fresh.sections, h.fresh.contentParsed, h.fresh.contentDict⟩
  obtain ⟨g₁, g₂, placed, hcreate, hprops, -, hof, -⟩ :=
    parseContent_passes hfresh h.names h.parse
  obtain ⟨f₂, hprepare, rfl⟩ :=
    (commutes_prepare large).returns (returns_prepare_iff.mpr ⟨g₁, hcreate, hprops⟩)
  have hprepared : prepared host f = f₂ := hprepare.finalState
  have hoverflow := h.overflow
  rw [hprepared] at hoverflow
  have hcreated : ∀ e ∈ f₂.sections.entries, Untouched e.2 := by
    intro e he
    obtain ⟨i, hi⟩ := List.mem_iff_getElem?.mp he
    obtain ⟨p, -, -, templateName, template, -, -, hnew⟩ := getElem?_forall₂ hof.creation.flip hi
    exact ⟨template, e.1, p.2, hnew⟩
  have hnames : f₂.contentSections.map ContentSection.name =
      f₂.sections.entries.map fun e => some e.1 :=
    (hof.names.trans (names_of_created hof.creation))
  obtain ⟨u, ps, bound, hplace, hplacements, hframeu, hentries⟩ :=
    returns_placeSections_overflow (List.nil_append _).symm hnames hoverflow
  rw [List.nil_append] at hentries
  have hlt : k < f₂.sections.entries.length := by
    have := overflowAt_lt hoverflow
    have hlen := congrArg List.length hnames
    rw [List.length_map, List.length_map] at hlen
    omega
  have hlenps : ps.length = k + 1 := by
    rw [(hplacements bound (le_refl _)).length_eq, List.length_take]
    omega
  have hlenplaced : placed.length = f₂.sections.entries.length := hof.placements.length_eq
  have hframe := prepare_frame h.fresh hprepare
  have hcontext : (f.resize large).contextWith (f₂.sections.entries.map Prod.fst) =
      { f₂.context with size := large } := by
    rw [hframe]
    rfl
  have hattributes : f₂.flashAttributes = f.flashAttributes := by rw [hframe]
  refine ⟨u, ps, placed, fun f' => ?_, ?_, ?_, ?_, ?_, hof.finalized, ?_, ?_, hlenps⟩
  · rw [hprepared]
    exact returns_parseContent_iff h.fresh hprepare hplace
  · rw [hprepared, hentries, hnames]
    have hkeys := congrArg (List.map some) (hplacements bound (le_refl _)).map_fst
    rw [List.map_map, List.map_map] at hkeys
    conv_lhs => rw [← List.take_append_drop (k + 1) f₂.sections.entries]
    rw [List.map_append, List.map_append]
    exact congrArg (· ++ _) hkeys.symm
  · rw [hprepared]
    exact hentries
  · rw [hprepared]
    exact hcreated
  · refine ⟨f₂.context, bound, _, _, f₂.contentSections.take (k + 1),
      f₂.sections.entries.take (k + 1), ?_, fun e he => hcreated e (List.mem_of_mem_take he),
      hplacements bound (le_refl _), ?_⟩
    · rw [hframe]
      rfl
    · rw [hattributes, ← hcontext]
      exact hof.placements.take (k + 1)
  · rw [hentries, List.length_append, hlenps, List.length_drop, hlenplaced]
    omega
  · omega

/-- No partition table lies behind the place. -/
def NoTableBehind (host : Host) (f : Flash) (k : Nat) : Prop :=
  ∀ s ∈ (prepared host f).sections.values.drop (k + 1), s.kind ≠ .partitionTable

theorem getSize_untouched {s : Section} (h : Untouched s) : s.getSize = .ok 0 := by
  obtain ⟨template, name, sectionId, rfl⟩ := h
  cases template <;> rfl

namespace OverflowRuns

variable {u : Flash} {ps placed : List (String × Section)}

/-- Every section behind the loop was placed, or is as it was created. -/
theorem mem_entries (h : OverflowRuns host f large full k u ps placed) {e : String × Section}
    (he : e ∈ u.sections.entries) :
    e ∈ ps ∨ Untouched e.2 ∧ e ∈ (prepared host f).sections.entries.drop (k + 1) := by
  rw [h.entries, List.mem_append] at he
  exact he.imp_right fun he => ⟨h.created e (List.mem_of_mem_drop he), he⟩

/-- Sections that were not reached report a size too. -/
theorem reported (h : OverflowRuns host f large full k u ps placed) {e : String × Section}
    (he : e ∈ u.sections.entries) : e.2.Reachable host ∧ ∃ size, e.2.getSize = .ok size := by
  obtain ⟨flash, n, startAlign, sizeAlign, cs, es, -, huntouched, hplacements, -⟩ := h.placements
  rcases h.mem_entries he with hplaced | ⟨huntouched, -⟩
  · obtain ⟨c, o, e', size, he', -, hset, hsize⟩ := hplacements.origin hplaced
    obtain ⟨template, name, sectionId, hnew⟩ := huntouched e' he'
    rw [hnew] at hset
    exact ⟨.setContent (.setAlignments _ _ (.new template name sectionId)) hset, size, hsize⟩
  · refine ⟨?_, 0, getSize_untouched huntouched⟩
    obtain ⟨template, name, sectionId, hnew⟩ := huntouched
    rw [hnew]
    exact .new template name sectionId

theorem samePlaced (h : OverflowRuns host f large full k u ps placed)
    (hrest : ∀ q ∈ placed.take (k + 1), q.2.SameRest f.size large) :
    List.Forall₂ SamePlaced ps (placed.take (k + 1)) := by
  obtain ⟨flash, n, startAlign, sizeAlign, cs, es, hsize, -, hplacements, hplacements'⟩ :=
    h.placements
  exact hplacements.samePlaced hplacements' (hsize ▸ hrest)

/-- The last loop reaches its end when the tables were all reached. -/
theorem exists_finalized (h : OverflowRuns host f large full k u ps placed)
    (hplaced : List.Forall₂ SamePlaced ps (placed.take (k + 1)))
    (htables : NoTableBehind host f k) : ∃ f', Returns (parseContent host false) f () f' := by
  simp only [h.parse]
  refine exists_finalizeSections (u.sections.values.map Section.view) (List.nil_append _).symm
    h.names rfl fun e he => ?_
  rcases h.mem_entries he with hmem | ⟨-, hbehind⟩
  · obtain ⟨i, hi⟩ := List.mem_iff_getElem?.mp hmem
    obtain ⟨q, hq, hsame⟩ := getElem?_forall₂ hplaced hi
    by_cases hkind : q.2.kind = .partitionTable
    · -- the same table was finalized in the other run
      rw [hsame.table hkind]
      obtain ⟨j, hj⟩ := List.mem_iff_getElem?.mp
        (List.mem_of_mem_take (List.mem_of_getElem? hq))
      obtain ⟨q', -, -, hfinalize⟩ := getElem?_forall₂ h.finalized hj
      refine Section.exists_finalize ?_ (fun v hv => ?_) hfinalize
      · simp [h.length, Dict.values]
      · obtain ⟨s, hs, rfl⟩ := List.mem_map.mp hv
        obtain ⟨e', he', rfl⟩ := List.mem_map.mp hs
        exact (h.reported he').2
    · exact ⟨_, Section.returns_finalize_of_kind (hsame.kind ▸ hkind) _⟩
  · exact ⟨_, Section.returns_finalize_of_kind (htables e.2 (by
      unfold Dict.values
      rw [← List.map_drop]
      exact List.mem_map_of_mem hbehind)) _⟩

/-- What the last loop does to each section. -/
theorem finalizedSections (h : OverflowRuns host f large full k u ps placed)
    (hparse : Returns (parseContent host false) f () f') :
    List.Forall₂ (fun p q : String × Section => q.1 = p.1 ∧
      Returns (Section.finalize (u.sections.values.map Section.view)) p.2 () q.2)
      u.sections.entries f'.sections.entries := by
  obtain ⟨fs, hfs, -, hentries⟩ := returns_finalizeSections (u.sections.values.map Section.view)
    (List.nil_append _).symm h.names rfl ((h.parse f').mp hparse)
  rw [List.nil_append] at hentries
  rw [hentries]
  exact hfs

/-- The last loop stops at a table that was not reached. -/
theorem noTableBehind (h : OverflowRuns host f large full k u ps placed)
    (hparse : Returns (parseContent host false) f () f') : NoTableBehind host f k := by
  intro s hs hkind
  unfold Dict.values at hs
  rw [← List.map_drop] at hs
  obtain ⟨e, he, rfl⟩ := List.mem_map.mp hs
  obtain ⟨template, name, sectionId, hnew⟩ := h.created e (List.mem_of_mem_drop he)
  obtain ⟨i, hi⟩ := List.mem_iff_getElem?.mp (show e ∈ u.sections.entries by
    rw [h.entries]
    exact List.mem_append_right ps he)
  obtain ⟨q, -, -, hfinalize⟩ := getElem?_forall₂ (h.finalizedSections hparse) hi
  rw [hnew, Section.kind_new] at hkind
  rw [hnew, hkind] at hfinalize
  exact Section.not_returns_finalize_new hfinalize

/-- A place up to the overflow, in the four lists of sections. -/
theorem exists_at (h : OverflowRuns host f large full k u ps placed)
    (hparse : Returns (parseContent host false) f () f') {j : Nat} (hj : j ≤ k) :
    ∃ p s q t, ps[j]? = some p ∧ f'.sections.values[j]? = some s ∧ p.2.SameLayout s ∧
      (placed.take (k + 1))[j]? = some q ∧ full.sections.values[j]? = some t ∧
      q.2.SameLayout t := by
  have hlt : j < ps.length := by rw [h.lengthPlaced]; omega
  have hp : u.sections.entries[j]? = some ps[j] := by
    rw [h.entries, List.getElem?_append_left hlt, List.getElem?_eq_getElem hlt]
  obtain ⟨s, hs, -, hfinalize⟩ := getElem?_forall₂ (h.finalizedSections hparse) hp
  have hlt' : j < placed.length := lt_of_le_of_lt hj h.place
  have hq : placed[j]? = some placed[j] := List.getElem?_eq_getElem hlt'
  obtain ⟨t, ht, -, hfinalize'⟩ := getElem?_forall₂ h.finalized hq
  refine ⟨ps[j], s.2, placed[j], t.2, List.getElem?_eq_getElem hlt, ?_,
    Section.finalize_inv hfinalize, ?_, ?_, Section.finalize_inv hfinalize'⟩
  · unfold Dict.values
    rw [List.getElem?_map, hs]
    rfl
  · rw [List.getElem?_take_of_lt (by omega)]
    exact hq
  · unfold Dict.values
    rw [List.getElem?_map, ht]
    rfl

/-- What the sections of the full flash say about rests, the placed ones say. -/
theorem sameRest_iff (h : OverflowRuns host f large full k u ps placed) :
    (∀ q ∈ placed.take (k + 1), q.2.SameRest f.size large) ↔
      ∀ t ∈ full.sections.values.take (k + 1), t.SameRest f.size large := by
  have hsame : List.Forall₂ (fun (q : String × Section) (t : Section) => q.2.SameLayout t)
      (placed.take (k + 1)) (full.sections.values.take (k + 1)) := by
    unfold Dict.values
    rw [← List.map_take, List.forall₂_map_right_iff]
    exact List.forall₂_take (k + 1) (h.finalized.imp fun _ _ hpq => Section.finalize_inv hpq.2)
  constructor
  · intro hall t ht
    obtain ⟨q, hq, hlayout⟩ := exists_left_of_forall₂ hsame ht
    exact (hlayout.sameRest _ _).mpr (hall q hq)
  · intro hall q hq
    obtain ⟨t, ht, hlayout⟩ := exists_left_of_forall₂ hsame.flip hq
    exact (hlayout.sameRest _ _).mp (hall t ht)

end OverflowRuns

/-! ## What is shown -/

/-- `dump_layout` returns, and up to a place it shows the sections where, and as
large as, they are in the other flash. -/
def ShownAsIn (host : Host) (level : Int) (f full : Flash) (k : Nat) : Prop :=
  ∃ rows f', Returns (dumpLayout host level) f rows f' ∧
    ∀ j ≤ k, ∃ row s t, rows[j]? = some row ∧ f'.sections.values[j]? = some s ∧
      full.sections.values[j]? = some t ∧ layoutRow level s = .ok row ∧ s.SamePlace t

/-- For every content that only overflows, wherever it does and whatever sections it
has: the layout is shown as in the large flash exactly when no partition table lies
behind the overflow, and no section up to it takes a rest that differs. -/
theorem shownAsIn_iff (h : OnlyOverflows host f large full k) (level : Int) :
    ShownAsIn host level f full k ↔
      NoTableBehind host f k ∧
        ∀ t ∈ full.sections.values.take (k + 1), t.SameRest f.size large := by
  obtain ⟨u, ps, placed, hruns⟩ := h.runs
  rw [← hruns.sameRest_iff]
  constructor
  · rintro ⟨rows, f', hdump, hshown⟩
    obtain ⟨_, f₁, hparse, hread⟩ := returns_bind.mp hdump
    obtain ⟨-, rfl⟩ := returns_reading.mp hread
    refine ⟨hruns.noTableBehind hparse, ?_⟩
    obtain ⟨flash, n, startAlign, sizeAlign, cs, es, hsize, -, hplacements, hplacements'⟩ :=
      hruns.placements
    rw [← hsize]
    refine hplacements.sameRest hplacements' (List.forall₂_iff_get.mpr ⟨?_, fun j hj hj' => ?_⟩)
    · rw [hplacements.length_eq, hplacements'.length_eq]
    · rw [hruns.lengthPlaced] at hj
      obtain ⟨p, s, q, t, hp, hs, hlayout, hq, ht, hlayout'⟩ :=
        hruns.exists_at hparse (Nat.le_of_lt_succ hj)
      obtain ⟨row, s', t', -, hs', ht', -, hplace⟩ := hshown j (Nat.le_of_lt_succ hj)
      cases hs.symm.trans hs'
      cases ht.symm.trans ht'
      obtain ⟨_, rfl⟩ := List.getElem?_eq_some_iff.mp hp
      obtain ⟨_, rfl⟩ := List.getElem?_eq_some_iff.mp hq
      exact (hlayout.samePlace.trans hplace).trans hlayout'.samePlace.symm
  · rintro ⟨htables, hrest⟩
    have hplaced := hruns.samePlaced hrest
    obtain ⟨f', hparse⟩ := hruns.exists_finalized hplaced htables
    have hrow : ∀ s ∈ f'.sections.values, ∃ row, layoutRow level s = .ok row := by
      intro s hs
      obtain ⟨e, he, rfl⟩ := List.mem_map.mp hs
      obtain ⟨p, hp, -, hfinalize⟩ := exists_left_of_forall₂ (hruns.finalizedSections hparse) he
      obtain ⟨hreachable, size, hsize⟩ := hruns.reported hp
      exact (Section.Reachable.finalize hreachable hfinalize).layoutRow
        ((Section.finalize_inv hfinalize).base.getSize.trans hsize) level
    obtain ⟨rows, hrows⟩ := exists_mapM_ok hrow
    refine ⟨rows, f', Returns.bind hparse (returns_reading.mpr ⟨hrows, rfl⟩), fun j hj => ?_⟩
    obtain ⟨p, s, q, t, hp, hs, hlayout, hq, ht, hlayout'⟩ := hruns.exists_at hparse hj
    obtain ⟨q', hq', hsame⟩ := getElem?_forall₂ hplaced hp
    cases hq.symm.trans hq'
    obtain ⟨row, hrow, hshown⟩ := getElem?_forall₂ (mapM_eq_ok_iff.mp hrows) hs
    exact ⟨row, s, t, hrow, hs, ht, hshown,
      (hlayout.samePlace.symm.trans hsame.place).trans hlayout'.samePlace⟩

/-- A flash of 16 bytes with a raw section of 32 bytes and a section behind it. -/
def overflowFlash (behind : ContentSection) : Flash :=
  ofContent 16 Dict.empty [rawEntry "a" 32, behind]

/-- Another raw section behind the overflow is shown with no size. -/
theorem shownAsIn_iff_raw : ∃ full,
    OnlyOverflows Host.noFiles (overflowFlash (rawEntry "b" 4)) 1024 full 0 ∧
      ShownAsIn Host.noFiles 0 (overflowFlash (rawEntry "b" 4)) full 0 := by
  have hparse : Returns (parseContent Host.noFiles true)
      ((overflowFlash (rawEntry "b" 4)).resize 1024) () _ :=
    returns_of_returned? (by decide +kernel)
  have honly : OnlyOverflows Host.noFiles (overflowFlash (rawEntry "b" 4)) 1024 _ 0 :=
    ⟨⟨rfl, rfl, rfl⟩, by decide +kernel, hparse, by decide +kernel⟩
  have hsizes : ∀ t ∈ (finalState (parseContent Host.noFiles true)
      ((overflowFlash (rawEntry "b" 4)).resize 1024)).sections.values.take 1,
      (t.base.getProperty "size").toOption = some (.int 32) := by decide +kernel
  refine ⟨_, honly, (shownAsIn_iff honly 0).mpr ⟨by unfold NoTableBehind; decide +kernel, ?_⟩⟩
  rintro t ht - ⟨v, w, hv, hw, hrest⟩
  -- a size of 32 is no rest
  have hsize := ok_of_toOption (hsizes t ht)
  cases hv.symm.trans hsize
  cases hw
  cases hrest

/-- A partition table behind the overflow has no header to fill in. -/
theorem not_shownAsIn : ¬ ∀ (host : Host) (f full : Flash) (large k : Nat) (level : Int),
    OnlyOverflows host f large full k → ShownAsIn host level f full k := by
  intro h
  let table : ContentSection :=
    { name := some "table", template := some "partition table", properties := none }
  have hparse : Returns (parseContent Host.noFiles true)
      ((overflowFlash table).resize 1024) () _ :=
    returns_of_returned? (by decide +kernel)
  obtain ⟨rows, f', hdump, -⟩ := h Host.noFiles (overflowFlash table) _ 1024 0 0
    ⟨⟨rfl, rfl, rfl⟩, by decide +kernel, hparse, by decide +kernel⟩
  have hnone : (returned? (dumpLayout Host.noFiles 0) (overflowFlash table)).isNone = true := by
    decide +kernel
  rw [hdump.returned?] at hnone
  cases hnone

end Flash

end SoftHier.Gapy
