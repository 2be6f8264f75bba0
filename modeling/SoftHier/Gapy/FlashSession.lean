/-
  Gapy/FlashSession.lean --- several commands on one flash.

  The first command that needs the content parses it; the later ones find
  `content_parsed` set, whatever became of that parse.  `dump_layout` parses
  without an overflow check.  When the content gets through a parse with the
  check, every command leaves the same laid out sections; otherwise an image can
  come from sections that were laid out in part, or that do not fit.
-/
import SoftHier.Gapy.FlashImage

set_option autoImplicit false

namespace SoftHier.Gapy

open SoftHier.Foundation Program

namespace Flash

variable {host : Host} {f f' : Flash}

/-! ## Calls -/

/-- A call on a flash. -/
inductive Call where
  | dumpLayout (level : Int)
  | getImage (first last : Option Nat)
  | getSections
  | isEmpty
  | dumpSectionProperties
  deriving DecidableEq, Repr

/-- What a call does to the flash; its result does not matter here. -/
def Call.run (h : Host) : Call → FlashM Unit
  | .dumpLayout level => do
      let _ ← Flash.dumpLayout h level
      pure ()
  | .getImage first last => do
      let _ ← Flash.getImage h first last
      pure ()
  | .getSections => do
      let _ ← Flash.getSections h
      pure ()
  | .isEmpty => do
      let _ ← Flash.isEmpty h
      pure ()
  | .dumpSectionProperties => do
      let _ ← Flash.dumpSectionProperties h
      pure ()

/-- The flash after some calls, one after the other, whether they raised or
not. -/
def after (h : Host) : List Call → Flash → Flash
  | [], f => f
  | c :: cs, f => after h cs (finalState (c.run h) f)

/-- Whether a call checks for overflow when it parses the content. -/
def Call.checks : Call → Bool
  | .dumpLayout _ => false
  | _ => true

/-- A call changes the flash by parsing its content only. -/
theorem finalState_run (c : Call) (f : Flash) :
    finalState (c.run host) f = finalState (parseContent host c.checks) f := by
  cases c with
  | dumpLayout level =>
    rw [Call.run, finalState_bind fun _ => readOnly_pure _]
    exact finalState_bind (fun _ => readOnly_reading _) f
  | getImage first last =>
    rw [Call.run, finalState_bind fun _ => readOnly_pure _]
    exact finalState_bind (fun _ => readOnly_get_bind fun _ => readOnly_reading _) f
  | getSections =>
    rw [Call.run, finalState_bind fun _ => readOnly_pure _]
    exact finalState_bind (fun _ => readOnly_get_bind fun _ => readOnly_pure _) f
  | isEmpty =>
    rw [Call.run, finalState_bind fun _ => readOnly_pure _]
    exact finalState_bind (fun _ => readOnly_reading _) f
  | dumpSectionProperties =>
    rw [Call.run, finalState_bind fun _ => readOnly_pure _]
    exact finalState_bind (fun _ => readOnly_get_bind fun _ => readOnly_pure _) f

/-- Once the content is parsed no call changes the flash. -/
theorem after_of_parsed (h : f.contentParsed = true) (cs : List Call) : after host cs f = f := by
  induction cs with
  | nil => rfl
  | cons c cs ih =>
    rw [after, finalState_run, (returns_parseContent_again h).finalState, ih]

/-! ## A parse without an overflow check -/

/-- Where no section overflows the check makes no difference. -/
theorem returns_placeSections_unchecked {cs : List ContentSection} :
    ∀ {f f' : Flash} {offset : Int} {p : Placement},
      Returns (placeSections host true offset cs) f p f' →
      p = .complete ∧ Returns (placeSections host false offset cs) f p f' := by
  induction cs with
  | nil =>
    intro f f' offset p h
    obtain ⟨rfl, rfl⟩ := returns_pure.mp h
    exact ⟨rfl, returns_pure.mpr ⟨rfl, rfl⟩⟩
  | cons c cs ih =>
    intro f f' offset p h
    obtain ⟨next, f₁, hplace, hle, hrest⟩ := placeSections_cons_inv h
    obtain ⟨rfl, hrest⟩ := ih hrest
    exact ⟨rfl, returns_placeSections_cons.mpr ⟨next, f₁, hplace, .inr ⟨hle, hrest⟩⟩⟩

theorem returns_parseContent_unchecked (hparsed : f.contentParsed = false)
    (hcontent : f.contentDict.isNone = false) (h : Returns (parseContent host true) f () f') :
    Returns (parseContent host false) f () f' := by
  obtain ⟨f₁, f₂, f₃, p, hcreate, hprops, hplace, hfinalize⟩ :=
    parseContent_inv hparsed hcontent h
  exact returns_parseContent_of hparsed hcontent hcreate hprops
    (returns_placeSections_unchecked hplace).2 hfinalize

/-! ## The loops, whatever the names -/

/-- The same flash with other sections under the same names, each laid out as
before. -/
structure SameSections (f f' : Flash) : Prop where
  frame : f' = { f with sections := f'.sections }
  keys : f'.sections.keys = f.sections.keys
  layout : ∀ name s', f'.sections.get name = some s' →
    ∃ s, f.sections.get name = some s ∧ s.SameLayout s'

theorem SameSections.refl (f : Flash) : SameSections f f :=
  ⟨rfl, rfl, fun _ s' h => ⟨s', h, Section.SameLayout.refl s'⟩⟩

theorem SameSections.trans {a b c : Flash} (h : SameSections a b) (h' : SameSections b c) :
    SameSections a c := by
  refine ⟨?_, h'.keys.trans h.keys, fun name s' hs' => ?_⟩
  · rw [h'.frame, h.frame]
  · obtain ⟨t, ht, hlayout'⟩ := h'.layout name s' hs'
    obtain ⟨s, hs, hlayout⟩ := h.layout name t ht
    exact ⟨s, hs, hlayout'.kind.trans hlayout.kind, hlayout.base.trans hlayout'.base⟩

/-- Finalizing changes no layout. -/
theorem keeps_finalizeSections (cs : List ContentSection) :
    Keeps SameSections (forEach finalizeSection cs) := by
  refine keeps_forEach SameSections.refl (fun _ _ _ => SameSections.trans) fun c _ => ?_
  intro f u f' h
  obtain ⟨name, s, s', -, hs, hfinalize, rfl⟩ := finalizeSection_inv h
  refine ⟨rfl, Dict.keys_set_of_mem s' (Dict.mem_keys_iff.mpr ⟨s, hs⟩), fun n t ht => ?_⟩
  have ht : (f.sections.set name s').get n = some t := ht
  rw [Dict.get_set] at ht
  split at ht
  next heq =>
    cases ht
    exact ⟨s, heq ▸ hs, Section.finalize_inv hfinalize⟩
  · exact ⟨t, ht, Section.SameLayout.refl t⟩

/-- The first loop files sections under names of the content only. -/
theorem returns_createSections_names {cs : List ContentSection}
    (hempty : f.sections = Dict.empty) (h : Returns (forEach (createSection host) cs) f () f') :
    f' = { f with sections := f'.sections } ∧
      ∀ name ∈ f'.sections.keys, some name ∈ cs.map ContentSection.name := by
  have hinv := forEach_induct
    (fun done u => u = { f with sections := u.sections } ∧
      ∀ name ∈ u.sections.keys, some name ∈ done.map ContentSection.name)
    (fun done c u u' hI hone => by
      obtain ⟨hframe, hnames⟩ := hI
      obtain ⟨name, templateName, template, hname, -, -, rfl⟩ := createSection_inv hone
      refine ⟨by rw [hframe], fun n hn => ?_⟩
      rw [List.map_append, List.mem_append]
      obtain rfl | hn := Dict.mem_keys_set.mp hn
      · exact .inr (by simp [hname])
      · exact .inl (hnames n hn)) [] ⟨rfl, by simp [hempty]⟩ h
  exact hinv

/-- A section ends within a flash of some size. -/
def EndsWithin (limit : Nat) (s : Section) : Prop :=
  ∃ size, s.getSize = .ok size ∧ s.offset + size ≤ limit

/-- Every structure of every section has a size that can be packed. -/
def NonnegLayouts (f : Flash) : Prop :=
  ∀ name s, f.sections.get name = some s → ∀ l ∈ s.base.layouts, l.Nonneg

/-- What the placement loop did with a list of entries, some of which may share a
name. -/
structure Placed (f f' : Flash) (cs : List ContentSection) : Prop where
  frame : f' = { f with sections := f'.sections }
  found : ∀ c ∈ cs, ∃ name, c.name = some name ∧ name ∈ f.sections.keys
  keys : f'.sections.keys = f.sections.keys
  placed : ∀ name s, f'.sections.get name = some s →
    some name ∈ cs.map ContentSection.name ∧ EndsWithin f.size s ∨
      some name ∉ cs.map ContentSection.name ∧ f.sections.get name = some s
  grown : ∀ name s, f.sections.get name = some s → ∃ s', f'.sections.get name = some s' ∧
    ∀ l ∈ s.base.layouts, l ∈ s'.base.layouts

theorem setAlignments_layouts (startAlign sizeAlign : Option Int) (s : Section) :
    (s.setAlignments startAlign sizeAlign).base.layouts = s.base.layouts := by cases s <;> rfl

/-- No section starts before the flash when it is placed from within it. -/
theorem startOffset_nonneg (flash : FlashContext) {offset : Int} (h : 0 ≤ offset) (s : Section) :
    0 ≤ s.startOffset flash offset := by
  rcases s.startOffset_cases flash offset with hbase | ⟨a, -, hlfs⟩
  · rw [hbase]
    unfold FlashSection.startOffset
    cases s.base.startAlign with
    | none => exact h
    | some a => exact alignUp_nonneg h a
  · rw [hlfs]
    exact alignUp_nonneg h a

/-- A section whose structures can be packed has a size that is not negative. -/
theorem size_nonneg_of_placedAt {s s' : FlashSection Unit} {start : Int}
    {content : ContentSection} {specs : List StructSpec} (h : s.PlacedAt s' start content specs)
    (hnonneg : ∀ l ∈ s'.layouts, l.Nonneg) {size : Int} (hsize : s'.getSize = .ok size) :
    0 ≤ size := by
  refine FlashSection.getSize_nonneg ?_ hsize
  rw [h.allocated, ← sum_formatSize_structsOf start specs]
  refine List.sum_nonneg fun x hx => ?_
  obtain ⟨l, hl, rfl⟩ := List.mem_map.mp hx
  exact formatSize_nonneg (hnonneg l (by rw [h.layouts]; exact List.mem_append_right _ hl))

/-- The placement loop, from an offset within the flash. -/
theorem placeSections_placed {cs : List ContentSection} :
    ∀ {f f' : Flash} {offset : Int} {p : Placement},
      Returns (placeSections host true offset cs) f p f' →
      Placed f f' cs ∧ (NonnegLayouts f' → 0 ≤ offset →
        ∀ name s, f'.sections.get name = some s → some name ∈ cs.map ContentSection.name →
          0 ≤ s.offset) := by
  induction cs with
  | nil =>
    intro f f' offset p h
    obtain ⟨-, rfl⟩ := returns_pure.mp h
    exact ⟨⟨rfl, by simp, rfl, fun _ _ hs => .inr ⟨by simp, hs⟩,
      fun _ s hs => ⟨s, hs, fun _ => id⟩⟩, fun _ _ _ _ _ hmem => by simp at hmem⟩
  | cons c cs ih =>
    intro f f' offset p h
    obtain ⟨next, f₁, hplace, hle, hrest⟩ := placeSections_cons_inv h
    obtain ⟨name, s, s', size, hname, hs, hset, hsize, rfl, rfl⟩ := placeSection_inv hplace
    obtain ⟨hplaced, hoffsets⟩ := ih hrest
    obtain ⟨-, specs, hplacedAt, -⟩ := Section.setContent_inv hset
    have hkeys : (f.sections.set name s').keys = f.sections.keys :=
      Dict.keys_set_of_mem s' (Dict.mem_keys_iff.mpr ⟨s, hs⟩)
    have hself : EndsWithin f.size s' := ⟨size, hsize, hle⟩
    refine ⟨⟨?_, fun d hd => ?_, hplaced.keys.trans hkeys, fun n t ht => ?_, fun n t ht => ?_⟩,
      fun hnonneg hoffset n t ht hmem => ?_⟩
    · rw [hplaced.frame]
    · rw [List.mem_cons] at hd
      obtain rfl | hd := hd
      · exact ⟨name, hname, Dict.mem_keys_iff.mpr ⟨s, hs⟩⟩
      · obtain ⟨n, hn, hmem⟩ := hplaced.found d hd
        exact ⟨n, hn, hkeys ▸ hmem⟩
    · rw [List.map_cons, List.mem_cons, hname]
      obtain ⟨hmem, hwithin⟩ | ⟨hmem, hget⟩ := hplaced.placed n t ht
      · exact .inl ⟨.inr hmem, hwithin⟩
      · have hget : (f.sections.set name s').get n = some t := hget
        rw [Dict.get_set] at hget
        split at hget
        next heq =>
          cases hget
          exact .inl ⟨.inl (by rw [heq]), hself⟩
        next hne =>
          refine .inr ⟨?_, hget⟩
          rintro (heq | hmem')
          · exact hne (Option.some.inj heq).symm
          · exact hmem hmem'
    · by_cases heq : name = n
      · subst heq
        obtain rfl : s = t := Option.some.inj (hs.symm.trans ht)
        obtain ⟨s'', hs'', hlayouts⟩ := hplaced.grown name s' (Dict.get_set_self _ _ _)
        refine ⟨s'', hs'', fun l hl => hlayouts l ?_⟩
        rw [hplacedAt.layouts]
        refine List.mem_append_left _ ?_
        rw [setAlignments_layouts]
        exact hl
      · exact hplaced.grown n t (by rw [← ht]; exact Dict.get_set_of_ne s' heq)
    · have hoffset' : s'.offset = Section.startOffset f.context offset _ := hplacedAt.offset
      have hstart : 0 ≤ s'.offset := by
        rw [hoffset']
        exact startOffset_nonneg f.context hoffset _
      by_cases hmem' : some n ∈ cs.map ContentSection.name
      · -- the structures of the section are still there at the end
        have hlayouts : ∀ l ∈ s'.base.layouts, l.Nonneg := by
          obtain ⟨s'', hs'', hgrown⟩ := hplaced.grown name s' (Dict.get_set_self _ _ _)
          exact fun l hl => hnonneg name s'' hs'' l (hgrown l hl)
        have hsize' := size_nonneg_of_placedAt hplacedAt hlayouts hsize
        exact hoffsets hnonneg (by omega) n t ht hmem'
      · rw [List.map_cons, List.mem_cons, hname] at hmem
        obtain heq | hmem := hmem
        · obtain rfl := Option.some.inj heq
          obtain ⟨hmem, -⟩ | ⟨-, hget⟩ := hplaced.placed n t ht
          · exact absurd hmem hmem'
          · have hget : (f.sections.set n s').get n = some t := hget
            rw [Dict.get_set_self] at hget
            cases hget
            exact hstart
        · exact absurd hmem hmem'

/-! ## Images -/

theorem imageFrom_values {ss : List Section} {image : Bytes} (h : imageFrom none ss = .ok image) :
    ∃ bs, BlocksOf ss bs ∧ ∀ s, ss.head? = some s → InOrder s.offset bs ∧
      image = assemble s.offset bs := by
  cases ss with
  | nil => exact ⟨[], .nil, fun s hs => absurd hs nofun⟩
  | cons s ss =>
    obtain ⟨bs, hbs, horder, rfl⟩ := imageFrom_none_iff.mp h
    refine ⟨bs, hbs, fun t ht => ?_⟩
    obtain rfl : s = t := by simpa using ht
    exact ⟨horder, rfl⟩

/-- A parse changes the content, its sections, and that it was parsed. -/
theorem frame_of_parse (hfresh : f.Fresh) (hparse : Returns (parseContent host true) f () f') :
    f' = { f with
      contentDict := f'.contentDict
      contentParsed := true
      sections := f'.sections } := by
  obtain ⟨f₁, f₂, f₃, p, hcreate, hprops, hplace, hfinalize⟩ :=
    parseContent_inv hfresh.contentParsed hfresh.contentDict hparse
  obtain ⟨hframe₁, -⟩ := returns_createSections_names (by exact hfresh.sections) hcreate
  rw [(keeps_finalizeSections _ _ _ _ hfinalize).frame, (placeSections_placed hplace).1.frame,
    (keeps_handleSectionProperties _ _ _ hprops).1, hframe₁]

theorem contentParsed_of_parse (hfresh : f.Fresh)
    (hparse : Returns (parseContent host true) f () f') : f'.contentParsed = true := by
  rw [frame_of_parse hfresh hparse]

/-- The entries that are placed have the names of the content. -/
theorem names_of_prepared {f₁ f₂ : Flash} (hfresh : f.Fresh)
    (hcreate : Returns (forEach (createSection host) f.contentSections)
      { f with contentParsed := true } () f₁)
    (hprops : Returns handleSectionProperties f₁ () f₂) :
    f₂.contentSections.map ContentSection.name = f.contentSections.map ContentSection.name := by
  obtain ⟨hframe₁, -⟩ := returns_createSections_names (by exact hfresh.sections) hcreate
  rw [(keeps_handleSectionProperties _ _ _ hprops).2, hframe₁]
  rfl

/-- Calls on a flash whose content passes a checked parse leave it as that parse
leaves it. -/
theorem after_eq (hfresh : f.Fresh) (h : Returns (parseContent host true) f () f')
    {cs : List Call} (hcs : cs ≠ []) : after host cs f = f' := by
  cases cs with
  | nil => exact absurd rfl hcs
  | cons c cs =>
    have hfirst : Returns (parseContent host c.checks) f () f' := by
      cases hc : c.checks with
      | true => exact h
      | false => exact returns_parseContent_unchecked hfresh.contentParsed hfresh.contentDict h
    rw [after, finalState_run, hfirst.finalState, after_of_parsed (contentParsed_of_parse hfresh h)]

end Flash

end SoftHier.Gapy
