/-
  Gapy/FlashPrepare.lean --- a parse up to the placement loop.

  The flash the loop starts from has the sections of its content, untouched; where
  a section starts depends on its class, the attributes and the flash offset.
-/
import SoftHier.Gapy.FlashSession

set_option autoImplicit false

namespace SoftHier.Gapy

open SoftHier.Foundation Program

namespace Flash

variable {host : Host} {f f' : Flash}

/-! ## In front of the loop -/

/-- A parse up to the placement loop. -/
def prepare (host : Host) : FlashM Unit := do
  modify fun f => { f with contentParsed := true }
  let f ← get
  Program.forEach (createSection host) f.contentSections
  handleSectionProperties

/-- The flash the placement loop of a parse starts from. -/
def prepared (host : Host) (f : Flash) : Flash := finalState (prepare host) f

/-- A run of `prepare` is the first two loops of a parse. -/
theorem returns_prepare_iff {f₂ : Flash} : Returns (prepare host) f () f₂ ↔
    ∃ f₁, Returns (forEach (createSection host) f.contentSections)
        { f with contentParsed := true } () f₁ ∧
      Returns handleSectionProperties f₁ () f₂ := by
  unfold prepare
  rw [returns_modify_bind, returns_get_bind, returns_bind]
  exact ⟨fun ⟨_, f₁, hcreate, hprops⟩ => ⟨f₁, hcreate, hprops⟩,
    fun ⟨f₁, hcreate, hprops⟩ => ⟨(), f₁, hcreate, hprops⟩⟩

/-- A section nothing was done with since it was created. -/
def Untouched (s : Section) : Prop := ∃ (template : SectionTemplate) (name : String)
  (sectionId : Nat), s = template.new name sectionId

theorem untouched_offset {s : Section} (h : Untouched s) :
    s.offset = 0 ∧ s.getSize = .ok 0 := by
  obtain ⟨template, name, sectionId, rfl⟩ := h
  cases template <;> exact ⟨rfl, rfl⟩

/-- The creation loop files untouched sections only. -/
theorem untouched_createSections {cs : List ContentSection} (hempty : f.sections = Dict.empty)
    (h : Returns (forEach (createSection host) cs) f () f') :
    f' = { f with sections := f'.sections } ∧
      ∀ name s, f'.sections.get name = some s → Untouched s := by
  have hinv := forEach_induct
    (fun _ u => u = { f with sections := u.sections } ∧
      ∀ name s, u.sections.get name = some s → Untouched s)
    (fun _ c u u' hI hone => by
      obtain ⟨hframe, hall⟩ := hI
      obtain ⟨name, templateName, template, -, -, -, rfl⟩ := createSection_inv hone
      refine ⟨by rw [hframe], fun n s hs => ?_⟩
      have hs : (u.sections.set name _).get n = some s := hs
      rw [Dict.get_set] at hs
      split at hs
      · cases hs
        exact ⟨template, name, _, rfl⟩
      · exact hall n s hs) [] ⟨rfl, fun name s hs => by rw [hempty] at hs; cases hs⟩ h
  exact hinv

/-! ## Where a section starts -/

/-- Where a section of a class starts when its content is set at an offset. -/
def placedOffset (attributes : Dict String Int) (kind : SectionTemplate) (offset : Int) : Int :=
  match kind, attributes.get "littlefs_align" with
  | .lfs, some align => alignUp offset align
  | _, _ => FlashSection.roundUp (attributes.get "section_start_align") offset

theorem startOffset_eq {flash : FlashContext} {s : Section} {offset : Int}
    (hstart : s.base.startAlign = flash.attributes.get "section_start_align") :
    s.startOffset flash offset = placedOffset flash.attributes s.kind offset := by
  have hbase : ∀ u : FlashSection Unit,
      u.startAlign = flash.attributes.get "section_start_align" →
      u.startOffset offset =
        FlashSection.roundUp (flash.attributes.get "section_start_align") offset := by
    intro u hu
    rw [← hu]
    rfl
  cases s with
  | lfs s =>
    change LfsSection.startOffset flash s offset = _
    unfold LfsSection.startOffset placedOffset Section.kind
    cases ha : flash.attributes.get "littlefs_align" with
    | none => exact hbase s.base hstart
    | some a => rfl
  | rom s => exact hbase s.base hstart
  | partitionTable s => exact hbase s.base hstart
  | readfs s => exact hbase s.base hstart
  | hostfs s => exact hbase s.base hstart
  | raw s => exact hbase s.base hstart

end Flash

end SoftHier.Gapy
