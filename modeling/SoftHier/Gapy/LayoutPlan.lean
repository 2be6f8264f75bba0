/-
  Gapy/LayoutPlan.lean --- where the sections of a content come to lie.

  The purpose of a parse, without sections, structures and references: an entry
  asks for a number of bytes, starts behind the entry before it and takes a size.
  The plan says so of a whole content, or which error the content has.  Entries
  that share a name share a section, which is placed anew for each of them and
  keeps what the ones before gave it.
-/
import SoftHier.Foundation.Refines
import SoftHier.Gapy.ForcedSize
import SoftHier.Gapy.SectionDefaults
import SoftHier.Gapy.FlashPrepare

set_option autoImplicit false

namespace SoftHier.Gapy

open SoftHier.Foundation

/-! ## The size of a section -/

/-- The size a section with some allocated bytes reports, given its `size`
property. -/
def reportedSize (startAlign sizeAlign : Option Int) (property : PyValue) (allocated : Int) :
    Except PyError Int := do
  let given ← property.ofCommandLine
  if given = .none ∨ given.eqInt (-1) then
    pure (FlashSection.roundUp sizeAlign allocated)
  else do
    let requested ← given.number
    let aligned ←
      match sizeAlign, startAlign with
      | none, _ => pure requested.toInt
      | some _, some startAlign => pure (alignUp requested.toInt startAlign)
      | some _, none => .error .typeError
    if allocated > requested.toInt ∨ aligned ≠ requested.toInt then
      .error (FlashSection.sizeError allocated requested)
    else pure (FlashSection.roundUp sizeAlign requested.toInt)

/-- A reported size is the allocated one or the one that is given, rounded up; what was
allocated fits in it. -/
theorem reportedSize_inv {startAlign sizeAlign : Option Int} {property : PyValue}
    {allocated size : Int}
    (h : reportedSize startAlign sizeAlign property allocated = .ok size) :
    ∃ given content, property.ofCommandLine = .ok given ∧
      size = FlashSection.roundUp sizeAlign content ∧ allocated ≤ content ∧
      ((given = .none ∨ given.eqInt (-1) = true) ∧ content = allocated ∨
        ¬ (given = .none ∨ given.eqInt (-1) = true) ∧ ∃ requested,
          given.number = .ok requested ∧ content = requested.toInt) := by
  obtain ⟨given, hgiven, h⟩ := bind_eq_ok_iff.mp h
  split at h
  next hunforced =>
    exact ⟨given, allocated, hgiven, (Except.ok.inj h).symm, le_refl _, .inl ⟨hunforced, rfl⟩⟩
  next hforced =>
    obtain ⟨requested, hrequested, h⟩ := bind_eq_ok_iff.mp h
    have hchecked : ∀ aligned : Int,
        (if allocated > requested.toInt ∨ aligned ≠ requested.toInt then
        .error (FlashSection.sizeError allocated requested)
        else pure (FlashSection.roundUp sizeAlign requested.toInt) : Except PyError Int) =
          .ok size → allocated ≤ requested.toInt ∧
            size = FlashSection.roundUp sizeAlign requested.toInt := by
      intro aligned h
      split at h
      · cases h
      next hfits => exact ⟨not_lt.mp fun hover => hfits (.inl hover), (Except.ok.inj h).symm⟩
    have hsize : allocated ≤ requested.toInt ∧
        size = FlashSection.roundUp sizeAlign requested.toInt := by
      cases sizeAlign with
      | none => exact hchecked _ h
      | some a =>
        cases startAlign with
        | none => cases h
        | some b => exact hchecked _ h
    exact ⟨given, requested.toInt, hgiven, hsize.2, hsize.1, .inr ⟨hforced, requested, hrequested,
      rfl⟩⟩

theorem FlashSection.getSize_eq_reportedSize {σ : Type} {s : FlashSection σ} {v : PyValue}
    (hv : s.getProperty "size" = .ok v) :
    s.getSize = reportedSize s.startAlign s.sizeAlign v s.allocated := by
  unfold reportedSize
  cases hw : v.ofCommandLine with
  | error e =>
    unfold getSize getSizeNumber
    simp only [hv, hw, bind, Except.bind, Except.map]
  | ok w =>
    simp only [bind, Except.bind]
    by_cases hunforced : w = .none ∨ w.eqInt (-1) = true
    · rw [if_pos hunforced]
      unfold getSize getSizeNumber roundUp allocated
      simp only [hv, hw, bind, Except.bind, if_pos hunforced, pure, Except.pure]
      cases s.sizeAlign <;> rfl
    · rw [if_neg hunforced]
      cases hn : w.number with
      | error e =>
        unfold getSize getSizeNumber
        simp only [hv, hw, hn, bind, Except.bind, Except.map, if_neg hunforced]
      | ok n =>
        rw [getSize_of_number hv hw hunforced hn]
        unfold alignedSize
        simp only [bind, Except.bind]
        cases s.sizeAlign with
        | none => rfl
        | some a => cases s.startAlign <;> rfl

/-! ## What entries of one name give their section -/

namespace ContentSection

/-- The value of a property once an entry is taken. -/
def valueAfter (key : String) (v : PyValue) (c : ContentSection) : PyValue :=
  (c.given.get key).getD v

/-- The files of a ReadFS that an entry names. -/
def paths (h : Host) (content : ContentSection) : Except PyError (List (String × String)) := do
  let files ← content.property "files"
  let items ← files.iterate
  let paths ← items.mapM ReadfsSection.fileEntry
  let dirs ← content.property "dirs"
  if dirs ≠ .none then do
    let items ← dirs.iterate
    let found ← items.mapM (ReadfsSection.directoryFiles h)
    pure (paths ++ found.flatten)
  else pure paths

/-- The entry of a LittleFS names an image. -/
def namesImage (content : ContentSection) : Bool :=
  match content.property "img_path" with
  | .ok path => path ≠ .none
  | .error _ => false

end ContentSection

/-! ## The bytes an entry asks for -/

/-- An entry of a content, with the class of its section, the entries before it that
have its name, and the number of sections behind its own. -/
structure PlanEntry where
  name : String
  template : SectionTemplate
  content : ContentSection
  earlier : List ContentSection := []
  later : Nat := 0

namespace PlanEntry

/-- The entries whose content the section is given, with this one. -/
def contents (e : PlanEntry) : List ContentSection := e.earlier ++ [e.content]

/-- The value of a property whose default is `None`. -/
def value (e : PlanEntry) (key : String) : PyValue :=
  e.contents.foldl (ContentSection.valueAfter key) .none

/-- The properties of an entry are to be declared by the class. -/
def checkProperty (e : PlanEntry) (p : String × PyValue) : Except PyError Unit :=
  if p.1 ∈ e.template.declared.keys then .ok ()
  else .error (.runtimeError ("Trying to set undefined property: " ++ p.1))

/-- The binary of a ROM. -/
def binary (h : Host) (e : PlanEntry) : Except PyError (Option Binary) :=
  if e.value "binary" = .none then .ok none
  else do
    let file ← (e.value "binary").openable
    match h.openElf file with
    | .ok elf => .ok (some (Binary.ofElf elf))
    | .error (.osError text) =>
        .error (.runtimeError
          ("Invalid rom binary, got error while opening content file: " ++ text))
    | .error e => .error e

/-- The files of a ReadFS, which keeps those of the entries before. -/
def paths (h : Host) (e : PlanEntry) : Except PyError (List (String × String)) := do
  let found ← e.contents.mapM (ContentSection.paths h)
  pure found.flatten

/-- The image of a LittleFS is made or read; it is read again for an entry that
names none when one before it did. -/
def lfsImage (h : Host) (flash : FlashContext) (name : String) (external : Bool) (size : PyNumber)
    (rootDir imgPath : PyValue) : Except PyError Unit := do
  let path := if imgPath = .none then .str (flash.imagePath ++ "." ++ name) else imgPath
  if rootDir ≠ .none then do
    let code ← h.run
      (LfsSection.mklfsCommand (flash.attributes.get "littlefs_block_size") size path rootDir)
    if code ≠ 0 then .error (.runtimeError "Failed to create LFS image file")
    else do
      let _ ← LfsSection.readImage h path
      pure ()
  else if external = true ∨ imgPath ≠ .none then do
    let _ ← LfsSection.readImage h path
    pure ()
  else pure ()

/-- The bytes of a ReadFS with some files. -/
def readfsBytes (paths : List (String × String)) (sizes : List Nat) : Int :=
  12 + (paths.map fun p => 12 + ((p.1.length : Int) + 1)).sum +
    (sizes.map (Nat.cast : Nat → Int)).sum

/-- The bytes of a ROM. -/
def romBytes : Option Binary → Int
  | none => 4
  | some binary => 16 + (binary.segments.map fun b => 16 + (b.size : Int)).sum

/-- The bytes the section of an entry allocates at an offset. -/
def demand (h : Host) (flash : FlashContext) (start : Int) (e : PlanEntry) :
    Except PyError Int := do
  let _ ← e.content.given.entries.mapM e.checkProperty
  match e.template with
  | .rom => do
      let binary ← e.binary h
      pure (romBytes binary)
  | .partitionTable => pure (32 + 32 * e.later)
  | .readfs => do
      let paths ← e.paths h
      let sizes ← paths.mapM fun p => h.getsize p.2
      let _ ← paths.mapM fun p => h.readFile (.path p.2)
      pure (readfsBytes paths sizes)
  | .hostfs => do
      let files ← e.content.property "files"
      let items ← files.iterate
      let _ ← items.mapM fun file => h.copy file (h.getAbspath (basename file))
      pure 0
  | .lfs => do
      let rootDir ← e.content.property "root_dir"
      let imgPath ← e.content.property "img_path"
      let size ← RawSection.requestedNumber flash start (e.value "size")
      if 0 < size.toInt then do
        lfsImage h flash e.name (e.earlier.any ContentSection.namesImage) size rootDir imgPath
        pure size.toInt
      else pure 0
  | .raw => RawSection.requestedSize flash start (e.value "size")

/-! ## From the content to the entries -/

/-- The entry of a content, if it has a name and a class that the flash knows. -/
def ofContent (h : Host) (templates : Dict String SectionTemplate) (content : ContentSection) :
    Except PyError PlanEntry :=
  match content.name with
  | none => .error (.runtimeError ("Section does not have any name:\n" ++ h.jsonDumps content))
  | some name =>
      match content.template with
      | none =>
          .error (.runtimeError ("Section does not have any template:\n" ++ h.jsonDumps content))
      | some templateName =>
          match templates.get templateName with
          | none => .error (.runtimeError ("Unknown section template: " ++ templateName))
          | some template => .ok { name := name, template := template, content := content }

/-- The class and the number of the section under every name: an entry makes the
section of its name anew. -/
def owners (entries : List PlanEntry) : Dict String (SectionTemplate × Nat) :=
  entries.foldl (fun d e => d.set e.name (e.template, d.length)) Dict.empty

/-- The entry with the class of the section under its name. -/
def owned (owners : Dict String (SectionTemplate × Nat)) (e : PlanEntry) : PlanEntry :=
  match owners.get e.name with
  | none => e
  | some (template, id) => { e with template := template, later := owners.length - (id + 1) }

/-- The entries with the classes of their sections. -/
def share (entries : List PlanEntry) : List PlanEntry := entries.map (owned (owners entries))

/-- A property given on the command line. -/
def withProperty (e : PlanEntry) (property : String × String) : Except PyError PlanEntry := do
  let properties ←
    Flash.overwriteProperty e.template.declared e.content.given property.1 property.2
  pure { e with content := { e.content with properties := some properties } }

/-- The entries with another one in place of the first under a name. -/
def replace (name : String) (changed : PlanEntry) : List PlanEntry → List PlanEntry
  | [] => []
  | e :: entries =>
      if e.name = name then changed :: entries else e :: replace name changed entries

/-- The properties given on the command line for a section go to the first entry of
its name. -/
def overwrite (entries : List PlanEntry) (p : String × List (String × String)) :
    Except PyError (List PlanEntry) :=
  match entries.find? fun e => e.name = p.1 with
  | none =>
      .error (.runtimeError ("Found unknown section while handling command-line flash section" ++
        " properties: " ++ p.1))
  | some e => do
      let changed ← p.2.foldlM withProperty e
      pure (replace p.1 changed entries)

/-- The contents of the entries with a name. -/
def contentsOf (name : String) (entries : List PlanEntry) : List ContentSection :=
  (entries.filter fun e => e.name = name).map content

/-- Every entry with those before it that have its name. -/
def follow : List PlanEntry → List PlanEntry → List PlanEntry
  | _, [] => []
  | done, e :: entries =>
      let e := { e with earlier := contentsOf e.name done }
      e :: follow (done ++ [e]) entries

end PlanEntry

/-! ## The plan -/

/-- Where a section comes to lie. -/
structure PlannedSection where
  name : String
  template : SectionTemplate
  start : Int
  size : Int
  deriving DecidableEq

/-- What becomes of an entry: the flash offset it is given, and where its section
lies then. -/
structure PlanStep where
  entry : PlanEntry
  offset : Int
  start : Int
  size : Int

namespace PlanStep

/-- The section of the entry. -/
def planned (p : PlanStep) : PlannedSection := ⟨p.entry.name, p.entry.template, p.start, p.size⟩

/-- Where the section ends. -/
def stop (p : PlanStep) : Int := p.start + p.size

/-- The last step of every name: a section lies where its last entry put it. -/
def last (steps : List PlanStep) : Dict String PlanStep :=
  steps.foldl (fun d p => d.set p.entry.name p) Dict.empty

end PlanStep

namespace Flash

/-- The steps of some entries from an offset on; without the check they end behind
the section that overflows. -/
def planFrom (h : Host) (f : Flash) (checkOverflow : Bool) :
    Int → List PlanEntry → Except PyError (List PlanStep)
  | _, [] => .ok []
  | offset, e :: entries => do
      let start := placedOffset f.flashAttributes e.template offset
      let allocated ← e.demand h f.context start
      let size ← reportedSize (f.flashAttributes.get "section_start_align")
        (f.flashAttributes.get "section_size_align") (e.value "size") allocated
      if start + size > f.size then
        if checkOverflow then
          .error (.runtimeError (overflowMessage e.name f (start + size)))
        else .ok [⟨e, offset, start, size⟩]
      else do
        let rest ← planFrom h f checkOverflow (start + size) entries
        pure (⟨e, offset, start, size⟩ :: rest)

/-- A table that was reached fills in as many entries as it has reserved, one for
each section behind it whenever its content was set. -/
def checkTable (steps : List PlanStep) (e : PlanEntry) : Except PyError Unit :=
  let reached := steps.countP fun p => p.entry.name = e.name
  if e.template ≠ .partitionTable then .ok ()
  else if reached = 0 then .error .attributeError
  else if e.later < e.later * reached then .error .indexError
  else .ok ()

/-- The steps of the content of a flash. -/
def planSteps (h : Host) (f : Flash) (checkOverflow : Bool) : Except PyError (List PlanStep) := do
  let entries ← f.contentSections.mapM (PlanEntry.ofContent h f.sectionsTemplates)
  let entries ← f.properties.foldlM PlanEntry.overwrite (PlanEntry.share entries)
  let steps ← planFrom h f checkOverflow 0 (PlanEntry.follow [] entries)
  let _ ← entries.mapM (checkTable steps)
  pure steps

/-- The plan of the content of a flash: its sections, in their order. -/
def plan (h : Host) (f : Flash) : Except PyError (List PlannedSection) := do
  let steps ← f.planSteps h true
  pure ((PlanStep.last steps).values.map PlanStep.planned)

/-- A plan goes on behind its first section, or ends there. -/
theorem planFrom_cons_iff {h : Host} {f : Flash} {checkOverflow : Bool} {offset : Int}
    {e : PlanEntry} {entries : List PlanEntry} {steps : List PlanStep} :
    planFrom h f checkOverflow offset (e :: entries) = .ok steps ↔ ∃ allocated size,
      e.demand h f.context (placedOffset f.flashAttributes e.template offset) = .ok allocated ∧
      reportedSize (f.flashAttributes.get "section_start_align")
        (f.flashAttributes.get "section_size_align") (e.value "size") allocated = .ok size ∧
      (checkOverflow = false ∧
          f.size < placedOffset f.flashAttributes e.template offset + size ∧
          steps = [⟨e, offset, placedOffset f.flashAttributes e.template offset, size⟩] ∨
        placedOffset f.flashAttributes e.template offset + size ≤ f.size ∧ ∃ rest,
          planFrom h f checkOverflow (placedOffset f.flashAttributes e.template offset + size)
            entries = .ok rest ∧
          steps = ⟨e, offset, placedOffset f.flashAttributes e.template offset, size⟩ :: rest) := by
  rw [planFrom]
  constructor
  · intro hplan
    obtain ⟨allocated, hdemand, hplan⟩ := bind_eq_ok_iff.mp hplan
    obtain ⟨size, hsize, hplan⟩ := bind_eq_ok_iff.mp hplan
    refine ⟨allocated, size, hdemand, hsize, ?_⟩
    split at hplan
    next hover =>
      cases checkOverflow with
      | true => exact absurd hplan nofun
      | false => exact .inl ⟨rfl, hover, (Except.ok.inj hplan).symm⟩
    next hfits =>
      obtain ⟨rest, hrest, hplan⟩ := bind_eq_ok_iff.mp hplan
      exact .inr ⟨not_lt.mp hfits, rest, hrest, (Except.ok.inj hplan).symm⟩
  · rintro ⟨allocated, size, hdemand, hsize, hcases⟩
    refine bind_eq_ok_iff.mpr ⟨allocated, hdemand, bind_eq_ok_iff.mpr ⟨size, hsize, ?_⟩⟩
    rcases hcases with ⟨rfl, hover, rfl⟩ | ⟨hfits, rest, hrest, rfl⟩
    · rw [if_pos hover]
      rfl
    · rw [if_neg (not_lt.mpr hfits)]
      exact bind_eq_ok_iff.mpr ⟨rest, hrest, rfl⟩

/-- With the check a plan that goes through goes on behind every section. -/
theorem planFrom_cons_checked_iff {h : Host} {f : Flash} {offset : Int} {e : PlanEntry}
    {entries : List PlanEntry} {steps : List PlanStep} :
    planFrom h f true offset (e :: entries) = .ok steps ↔ ∃ allocated size rest,
      e.demand h f.context (placedOffset f.flashAttributes e.template offset) = .ok allocated ∧
      reportedSize (f.flashAttributes.get "section_start_align")
        (f.flashAttributes.get "section_size_align") (e.value "size") allocated = .ok size ∧
      placedOffset f.flashAttributes e.template offset + size ≤ f.size ∧
      planFrom h f true (placedOffset f.flashAttributes e.template offset + size) entries =
        .ok rest ∧
      steps = ⟨e, offset, placedOffset f.flashAttributes e.template offset, size⟩ :: rest := by
  rw [planFrom_cons_iff]
  constructor
  · rintro ⟨allocated, size, hdemand, hsize, ⟨hcheck, -⟩ | ⟨hfits, rest, hrest, hsteps⟩⟩
    · cases hcheck
    · exact ⟨allocated, size, rest, hdemand, hsize, hfits, hrest, hsteps⟩
  · rintro ⟨allocated, size, rest, hdemand, hsize, hfits, hrest, hsteps⟩
    exact ⟨allocated, size, hdemand, hsize, .inr ⟨hfits, rest, hrest, hsteps⟩⟩

end Flash

end SoftHier.Gapy
