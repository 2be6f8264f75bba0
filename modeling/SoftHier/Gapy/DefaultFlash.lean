/-
  Gapy/DefaultFlash.lean --- the flash of the PULP targets.

  Source: `DefaultFlashRomV2` of `gapylib/chips/pulp/flash.py` and
  `default_flash_content.json`.  The command line names a binary and files; the
  sections then lie behind one another and the raw section at the end takes what
  is left.
-/
import SoftHier.Gapy.PlannedFlash

set_option autoImplicit false

namespace SoftHier.Gapy

open SoftHier.Foundation Program

/-! ## The flash -/

namespace DefaultFlashRomV2

/-- The section templates `__init__` registers. -/
def templates : Dict String SectionTemplate :=
  (((((Dict.empty.set "rom" .rom).set "partition table" .partitionTable).set
    "readfs" .readfs).set "hostfs" .hostfs).set "lfs" .lfs).set "raw" .raw

/-- The ROM of the content, with a binary. -/
def rom (binary : PyValue) : PlanEntry where
  name := "rom"
  template := .rom
  content :=
    { name := some "rom", template := some "rom"
      properties := some ((Dict.empty.set "binary" binary).set "boot" (.bool false)) }
  later := 4

/-- The partition table of the content. -/
def partitionTable : PlanEntry where
  name := "partition table"
  template := .partitionTable
  content :=
    { name := some "partition table", template := some "partition table", properties := none }
  later := 3

/-- A file system of the content, with files and a number of sections behind it. -/
def files (name : String) (template : SectionTemplate) (later : Nat) (items : List String) :
    PlanEntry where
  name := name
  template := template
  content :=
    { name := some name, template := some name
      properties := some (Dict.empty.set "files" (.list items)) }
  later := later

/-- The raw section of the content. -/
def raw : PlanEntry where
  name := "raw"
  template := .raw
  content := rawEntry "raw" (-1)

/-- The sections, with what the command line may change. -/
def entries (binary : PyValue) (readfs hostfs : List String) : List PlanEntry :=
  [rom binary, partitionTable, files "readfs" .readfs 2 readfs, files "hostfs" .hostfs 1 hostfs, raw]

/-- `default_flash_content.json`. -/
def defaultContent : FlashContent where
  sections := some ((entries .none [] []).map PlanEntry.content)

/-- `DefaultFlashRomV2`, with the properties of the command line. -/
def new (name imagePath : String) (size : Nat)
    (properties : List (String × List (String × String))) : Flash where
  name := name
  size := size
  imagePath := imagePath
  sectionsTemplates := templates
  contentDict := some defaultContent
  properties := properties

/-- A command line that gives a binary for the ROM and files for the file systems. -/
def GivesFiles (properties : List (String × List (String × String))) : Prop :=
  ∀ p ∈ properties, p.1 = "rom" ∧ (∀ q ∈ p.2, q.1 = "binary") ∨
    (p.1 = "readfs" ∨ p.1 = "hostfs") ∧ ∀ q ∈ p.2, q.1 = "files"

instance (properties : List (String × List (String × String))) :
    Decidable (GivesFiles properties) :=
  inferInstanceAs (Decidable (∀ p ∈ properties, _))

/-- The binary that is given last. -/
def givenBinary (properties : List (String × List (String × String))) : PyValue :=
  (givenValues properties "rom" "binary").foldl (fun _ path => .str path) .none

/-- The bytes of the ROM and of the ReadFS, when every file is there and all fits. -/
structure Layout (host : Host) (size : Nat) (properties : List (String × List (String × String)))
    (romSize readfsSize : Int) : Prop where
  rom : ∃ binary, (rom (givenBinary properties)).binary host = .ok binary ∧
    romSize = PlanEntry.romBytes binary
  readfs : ∃ paths sizes contents,
    List.Forall₂ (fun file p => ReadfsSection.fileEntry file = .ok p)
      (givenValues properties "readfs" "files") paths ∧
    List.Forall₂ (fun p n => host.getsize p.2 = .ok n) paths sizes ∧
    List.Forall₂ (fun p data => host.readFile (.path p.2) = .ok data) paths contents ∧
    readfsSize = PlanEntry.readfsBytes paths sizes
  hostfs : ∀ file ∈ givenValues properties "hostfs" "files",
    host.copy file (host.getAbspath (basename file)) = .ok ()
  fits : romSize + 128 + readfsSize ≤ size

/-- Where the sections lie. -/
def sections (size : Nat) (romSize readfsSize : Int) : List PlannedSection :=
  [⟨"rom", .rom, 0, romSize⟩,
    ⟨"partition table", .partitionTable, romSize, 128⟩,
    ⟨"readfs", .readfs, romSize + 128, readfsSize⟩,
    ⟨"hostfs", .hostfs, romSize + 128 + readfsSize, 0⟩,
    ⟨"raw", .raw, romSize + 128 + readfsSize, size - (romSize + 128 + readfsSize)⟩]

/-! ## The command line -/

theorem withProperty_rom (binary : PyValue) (path : String) :
    (rom binary).withProperty ("binary", path) = .ok (rom (.str path)) := rfl

theorem withProperty_files {name : String} {template : SectionTemplate}
    (htemplate : template = .readfs ∨ template = .hostfs) (later : Nat) (items : List String)
    (file : String) : (files name template later items).withProperty ("files", file) =
      .ok (files name template later (items ++ [file])) := by
  rcases htemplate with rfl | rfl <;> rfl

theorem givenValues_cons (sectionName : String) (items : List (String × String))
    (rest : List (String × List (String × String))) (name key : String) :
    givenValues ((sectionName, items) :: rest) name key =
      (if sectionName = name then valuesOf items key else []) ++ givenValues rest name key := by
  unfold givenValues
  by_cases hname : sectionName = name <;> simp [hname]

theorem foldlM_rom {items : List (String × String)} (hitems : ∀ q ∈ items, q.1 = "binary")
    (binary : PyValue) : items.foldlM PlanEntry.withProperty (rom binary) =
      .ok (rom ((valuesOf items "binary").foldl (fun _ path => .str path) binary)) := by
  induction items generalizing binary with
  | nil => rfl
  | cons q items ih =>
    rw [List.forall_mem_cons] at hitems
    obtain ⟨key, path⟩ := q
    obtain rfl : key = "binary" := hitems.1
    rw [List.foldlM_cons, withProperty_rom]
    exact ih hitems.2 _

theorem foldlM_files {name : String} {template : SectionTemplate}
    (htemplate : template = .readfs ∨ template = .hostfs) {items : List (String × String)}
    (hitems : ∀ q ∈ items, q.1 = "files") (later : Nat) (given : List String) :
    items.foldlM PlanEntry.withProperty (files name template later given) =
      .ok (files name template later (given ++ valuesOf items "files")) := by
  induction items generalizing given with
  | nil =>
    rw [show valuesOf [] "files" = [] from rfl, List.append_nil]
    rfl
  | cons q items ih =>
    rw [List.forall_mem_cons] at hitems
    obtain ⟨key, file⟩ := q
    obtain rfl : key = "files" := hitems.1
    have hvalues : valuesOf (("files", file) :: items) "files" =
        file :: valuesOf items "files" := rfl
    have happend : given ++ file :: valuesOf items "files" =
        (given ++ [file]) ++ valuesOf items "files" := by
      rw [List.append_assoc, List.singleton_append]
    rw [List.foldlM_cons, withProperty_files htemplate, hvalues, happend]
    exact ih hitems.2 _

/-- The command line changes the binary and the files. -/
theorem foldlM_overwrite {properties : List (String × List (String × String))}
    (hgives : GivesFiles properties) (binary : PyValue) (readfs hostfs : List String) :
    properties.foldlM PlanEntry.overwrite (entries binary readfs hostfs) =
      .ok (entries
        ((givenValues properties "rom" "binary").foldl (fun _ path => .str path) binary)
        (readfs ++ givenValues properties "readfs" "files")
        (hostfs ++ givenValues properties "hostfs" "files")) := by
  induction properties generalizing binary readfs hostfs with
  | nil =>
    rw [show givenValues [] "readfs" "files" = [] from rfl,
      show givenValues [] "hostfs" "files" = [] from rfl, List.append_nil, List.append_nil]
    rfl
  | cons p properties ih =>
    unfold GivesFiles at hgives
    rw [List.forall_mem_cons] at hgives
    obtain ⟨name, items⟩ := p
    rw [List.foldlM_cons]
    rcases hgives with ⟨⟨rfl, hitems⟩ | ⟨rfl | rfl, hitems⟩, hrest⟩
    · have hone : PlanEntry.overwrite (entries binary readfs hostfs) ("rom", items) =
          .ok (entries ((valuesOf items "binary").foldl (fun _ path => .str path) binary) readfs
            hostfs) := by
        change (items.foldlM PlanEntry.withProperty (rom binary) >>= _) = _
        rw [foldlM_rom hitems]
        rfl
      rw [hone]
      refine (ih hrest _ _ _).trans ?_
      simp [givenValues_cons, List.foldl_append]
    · have hone : PlanEntry.overwrite (entries binary readfs hostfs) ("readfs", items) =
          .ok (entries binary (readfs ++ valuesOf items "files") hostfs) := by
        change (items.foldlM PlanEntry.withProperty (files "readfs" .readfs 2 readfs) >>= _) = _
        rw [foldlM_files (.inl rfl) hitems]
        rfl
      rw [hone]
      refine (ih hrest _ _ _).trans ?_
      simp [givenValues_cons]
    · have hone : PlanEntry.overwrite (entries binary readfs hostfs) ("hostfs", items) =
          .ok (entries binary readfs (hostfs ++ valuesOf items "files")) := by
        change (items.foldlM PlanEntry.withProperty (files "hostfs" .hostfs 1 hostfs) >>= _) = _
        rw [foldlM_files (.inr rfl) hitems]
        rfl
      rw [hone]
      refine (ih hrest _ _ _).trans ?_
      simp [givenValues_cons]

/-! ## The plan -/

theorem demand_rom (host : Host) (flash : FlashContext) (start : Int) (binary : PyValue) :
    (rom binary).demand host flash start =
      ((rom binary).binary host >>= fun found => .ok (PlanEntry.romBytes found)) := rfl

theorem demand_readfs (host : Host) (flash : FlashContext) (start : Int) (later : Nat)
    (items : List String) : (files "readfs" .readfs later items).demand host flash start =
      (items.mapM ReadfsSection.fileEntry >>= fun paths =>
        (paths.mapM fun p => host.getsize p.2) >>= fun sizes =>
          (paths.mapM fun p => host.readFile (.path p.2)) >>= fun _ =>
            .ok (PlanEntry.readfsBytes paths sizes)) := by
  have hown : (files "readfs" .readfs later items).content.paths host =
      items.mapM ReadfsSection.fileEntry := by
    change (items.mapM ReadfsSection.fileEntry >>= fun paths => .ok paths) = _
    exact bind_pure _
  have hpaths : (files "readfs" .readfs later items).paths host =
      items.mapM ReadfsSection.fileEntry := by
    change ([(files "readfs" .readfs later items).content].mapM (ContentSection.paths host) >>=
      fun found => pure found.flatten) = _
    rw [List.mapM_cons, List.mapM_nil, hown]
    simp only [bind_assoc, pure_bind]
    refine (bind_congr fun paths => ?_).trans (bind_pure _)
    rw [List.flatten_singleton]
  change ((files "readfs" .readfs later items).paths host >>= _) = _
  rw [hpaths]
  rfl

theorem demand_hostfs (host : Host) (flash : FlashContext) (start : Int) (later : Nat)
    (items : List String) : (files "hostfs" .hostfs later items).demand host flash start =
      ((items.mapM fun file => host.copy file (host.getAbspath (basename file))) >>=
        fun _ => .ok 0) := rfl

/-- Without alignments a section starts behind the one before and is as large as what
it allocated, unless its size is given. -/
theorem planFrom_cons_iff {host : Host} {f : Flash} (hattributes : f.flashAttributes = Dict.empty)
    {offset : Int} {e : PlanEntry} {rest : List PlanEntry} {steps : List PlanStep}
    (hsize : e.value "size" = .none ∨ e.value "size" = .int (-1)) :
    f.planFrom host true offset (e :: rest) = .ok steps ↔ ∃ size others,
      e.demand host f.context offset = .ok size ∧ offset + size ≤ f.size ∧
      f.planFrom host true (offset + size) rest = .ok others ∧
      steps = ⟨e, offset, offset, size⟩ :: others := by
  have hplaced : Flash.placedOffset f.flashAttributes e.template offset = offset := by
    rw [hattributes]
    unfold Flash.placedOffset
    cases e.template <;> rfl
  have hreported : ∀ n size, reportedSize none none (e.value "size") n = .ok size ↔ n = size := by
    intro n size
    rcases hsize with hsize | hsize <;>
      · rw [hsize]
        exact Except.ok.injEq n size ▸ Iff.rfl
  rw [Flash.planFrom_cons_checked_iff, hplaced, hattributes]
  constructor
  · rintro ⟨n, size, others, hdemand, hn, hfits, hothers, hsteps⟩
    obtain rfl := (hreported n size).mp hn
    exact ⟨n, others, hdemand, hfits, hothers, hsteps⟩
  · rintro ⟨size, others, hdemand, hfits, hothers, hsteps⟩
    exact ⟨size, size, others, hdemand, (hreported size size).mpr rfl, hfits, hothers, hsteps⟩

variable {host : Host} {size : Nat} {name imagePath : String}
  {properties : List (String × List (String × String))}

/-- What the file systems ask for. -/
theorem demand_readfs_iff {flash : FlashContext} {start : Int} {later : Nat} {items : List String}
    {n : Int} : (files "readfs" .readfs later items).demand host flash start = .ok n ↔
      ∃ paths sizes contents,
        List.Forall₂ (fun file p => ReadfsSection.fileEntry file = .ok p) items paths ∧
        List.Forall₂ (fun p n => host.getsize p.2 = .ok n) paths sizes ∧
        List.Forall₂ (fun p data => host.readFile (.path p.2) = .ok data) paths contents ∧
        n = PlanEntry.readfsBytes paths sizes := by
  rw [demand_readfs]
  constructor
  · intro h
    obtain ⟨paths, hpaths, h⟩ := bind_eq_ok_iff.mp h
    obtain ⟨sizes, hsizes, h⟩ := bind_eq_ok_iff.mp h
    obtain ⟨contents, hcontents, h⟩ := bind_eq_ok_iff.mp h
    exact ⟨paths, sizes, contents, mapM_eq_ok_iff.mp hpaths, mapM_eq_ok_iff.mp hsizes,
      mapM_eq_ok_iff.mp hcontents, (Except.ok.inj h).symm⟩
  · rintro ⟨paths, sizes, contents, hpaths, hsizes, hcontents, rfl⟩
    refine bind_eq_ok_iff.mpr ⟨paths, mapM_eq_ok_iff.mpr hpaths, ?_⟩
    refine bind_eq_ok_iff.mpr ⟨sizes, mapM_eq_ok_iff.mpr hsizes, ?_⟩
    exact bind_eq_ok_iff.mpr ⟨contents, mapM_eq_ok_iff.mpr hcontents, rfl⟩

theorem demand_hostfs_iff {flash : FlashContext} {start : Int} {later : Nat} {items : List String}
    {n : Int} : (files "hostfs" .hostfs later items).demand host flash start = .ok n ↔
      (∀ file ∈ items, host.copy file (host.getAbspath (basename file)) = .ok ()) ∧ n = 0 := by
  rw [demand_hostfs]
  constructor
  · intro h
    obtain ⟨_, hcopies, h⟩ := bind_eq_ok_iff.mp h
    refine ⟨fun file hfile => ?_, (Except.ok.inj h).symm⟩
    obtain ⟨i, hi⟩ := List.mem_iff_getElem?.mp hfile
    obtain ⟨_, -, hcopy⟩ := getElem?_forall₂ (mapM_eq_ok_iff.mp hcopies) hi
    exact hcopy
  · rintro ⟨hcopies, rfl⟩
    obtain ⟨_, hmap⟩ := exists_mapM_ok fun file hfile => ⟨(), hcopies file hfile⟩
    rw [hmap]
    rfl

/-- The steps of the sections. -/
def steps (size : Nat) (binary : PyValue) (readfs hostfs : List String) (romSize readfsSize : Int) :
    List PlanStep :=
  List.zipWith (fun e s => ⟨e, s.start, s.start, s.size⟩) (entries binary readfs hostfs)
    (sections size romSize readfsSize)

/-- The steps behind one another. -/
theorem planFrom_iff {taken : List PlanStep} :
    (new name imagePath size properties).planFrom host true 0 (entries (givenBinary properties)
        (givenValues properties "readfs" "files") (givenValues properties "hostfs" "files")) =
        .ok taken ↔
      ∃ romSize readfsSize, Layout host size properties romSize readfsSize ∧
        taken = steps size (givenBinary properties) (givenValues properties "readfs" "files")
          (givenValues properties "hostfs" "files") romSize readfsSize := by
  unfold entries
  constructor
  · intro h
    obtain ⟨romSize, _, hrom, -, h₁, hfirst⟩ := (planFrom_cons_iff rfl (.inl rfl)).mp h
    obtain ⟨table, _, htable, -, h₂, rfl⟩ := (planFrom_cons_iff rfl (.inl rfl)).mp h₁
    obtain ⟨readfsSize, _, hreadfs, hfits, h₃, rfl⟩ := (planFrom_cons_iff rfl (.inl rfl)).mp h₂
    obtain ⟨none, _, hhostfs, -, h₄, rfl⟩ := (planFrom_cons_iff rfl (.inl rfl)).mp h₃
    obtain ⟨rest, _, hraw, -, h₅, rfl⟩ := (planFrom_cons_iff rfl (.inr rfl)).mp h₄
    rw [demand_rom] at hrom
    obtain ⟨binary, hbinary, hrom⟩ := bind_eq_ok_iff.mp hrom
    obtain rfl : 128 = table := Except.ok.inj htable
    obtain ⟨hcopies, rfl⟩ := demand_hostfs_iff.mp hhostfs
    obtain rfl : (size : Int) - (0 + romSize + 128 + readfsSize + 0) = rest := Except.ok.inj hraw
    cases h₅
    rw [Int.zero_add] at hfits hfirst
    refine ⟨romSize, readfsSize, ⟨⟨binary, hbinary, (Except.ok.inj hrom).symm⟩,
      demand_readfs_iff.mp hreadfs, hcopies, hfits⟩, ?_⟩
    rw [Int.add_zero] at hfirst
    exact hfirst
  · rintro ⟨romSize, readfsSize, ⟨⟨binary, hbinary, hrom⟩, hreadfs, hcopies, hfits⟩, rfl⟩
    have hromSize : 0 ≤ romSize := hrom ▸ PlanEntry.romBytes_nonneg binary
    have hreadfsSize : 0 ≤ readfsSize := by
      obtain ⟨paths, sizes, -, -, -, -, rfl⟩ := hreadfs
      exact PlanEntry.readfsBytes_nonneg paths sizes
    have hsize : ((new name imagePath size properties).size : Int) = size := rfl
    refine (planFrom_cons_iff rfl (.inl rfl)).mpr ⟨romSize, _, ?_, by omega,
      (planFrom_cons_iff rfl (.inl rfl)).mpr ⟨128, _, rfl, by omega,
      (planFrom_cons_iff rfl (.inl rfl)).mpr ⟨readfsSize, _, demand_readfs_iff.mpr hreadfs,
        by omega,
      (planFrom_cons_iff rfl (.inl rfl)).mpr ⟨0, _, demand_hostfs_iff.mpr ⟨hcopies, rfl⟩,
        by omega,
      (planFrom_cons_iff rfl (.inr rfl)).mpr ⟨_, [], rfl, ?_, rfl, rfl⟩, rfl⟩, rfl⟩, rfl⟩, ?_⟩
    · rw [demand_rom, hbinary, hrom]
      rfl
    · change 0 + romSize + 128 + readfsSize + 0 +
        ((size : Int) - (0 + romSize + 128 + readfsSize + 0)) ≤ (size : Int)
      omega
    · rw [Int.add_zero, Int.zero_add]
      rfl

/-- The plan of the flash. -/
theorem plan_iff (hgives : GivesFiles properties) {plan : List PlannedSection} :
    (new name imagePath size properties).plan host = .ok plan ↔
      ∃ romSize readfsSize, Layout host size properties romSize readfsSize ∧
        plan = sections size romSize readfsSize := by
  have hcontent : ∃ found, (new name imagePath size properties).contentSections.mapM
      (PlanEntry.ofContent host (new name imagePath size properties).sectionsTemplates) =
        .ok found ∧ PlanEntry.share found = entries .none [] [] := ⟨_, rfl, rfl⟩
  obtain ⟨found, hfound, hshare⟩ := hcontent
  have hline := foldlM_overwrite hgives .none [] []
  rw [List.nil_append, List.nil_append] at hline
  have hfollow : PlanEntry.follow [] (entries (givenBinary properties)
      (givenValues properties "readfs" "files") (givenValues properties "hostfs" "files")) =
        entries (givenBinary properties) (givenValues properties "readfs" "files")
          (givenValues properties "hostfs" "files") := rfl
  have hsections : ∀ romSize readfsSize, (PlanStep.last (steps size (givenBinary properties)
      (givenValues properties "readfs" "files") (givenValues properties "hostfs" "files") romSize
        readfsSize)).values.map PlanStep.planned = sections size romSize readfsSize :=
    fun _ _ => rfl
  constructor
  · intro h
    obtain ⟨taken, htaken, h⟩ := bind_eq_ok_iff.mp h
    obtain ⟨_, changed, hfound', hchanged, hfrom, -⟩ := Flash.planSteps_iff.mp htaken
    obtain rfl := Except.ok.inj (hfound.symm.trans hfound')
    rw [hshare] at hchanged
    obtain rfl := Except.ok.inj (hline.symm.trans hchanged)
    obtain ⟨romSize, readfsSize, hlayout, rfl⟩ :=
      planFrom_iff.mp ((congrArg _ hfollow).symm.trans hfrom)
    exact ⟨romSize, readfsSize, hlayout, ((hsections romSize readfsSize) ▸ Except.ok.inj h).symm⟩
  · rintro ⟨romSize, readfsSize, hlayout, rfl⟩
    refine bind_eq_ok_iff.mpr ⟨steps size (givenBinary properties)
      (givenValues properties "readfs" "files") (givenValues properties "hostfs" "files") romSize
      readfsSize, ?_, rfl⟩
    have htables : ∃ done, (entries (givenBinary properties) (givenValues properties "readfs" "files")
        (givenValues properties "hostfs" "files")).mapM (Flash.checkTable (steps size
          (givenBinary properties) (givenValues properties "readfs" "files")
          (givenValues properties "hostfs" "files") romSize readfsSize)) = .ok done := ⟨_, rfl⟩
    refine Flash.planSteps_iff.mpr ⟨found, _, hfound, ?_, ?_, htables⟩
    · rw [hshare]
      exact hline
    · exact (congrArg _ hfollow).trans (planFrom_iff.mpr ⟨romSize, readfsSize, hlayout, rfl⟩)

/-! ## The parse -/

theorem refines_plan : Refines (Flash.parseContent host true) (new name imagePath size properties)
    (fun plan _ f' => List.Forall₂ Section.At f'.sections.values plan)
    ((new name imagePath size properties).plan host) :=
  Flash.refines_plan ⟨rfl, rfl, rfl⟩

/-- The flash parses exactly when every file is there and ROM, table and ReadFS fit; the
sections then lie behind one another, and the raw section ends with the flash. -/
theorem parseContent_iff (hgives : GivesFiles properties) :
    ((∃ f', Returns (Flash.parseContent host true) (new name imagePath size properties) () f') ↔
      ∃ romSize readfsSize, Layout host size properties romSize readfsSize) ∧
    ∀ plan, (∃ f', Returns (Flash.parseContent host true) (new name imagePath size properties) () f' ∧
      List.Forall₂ Section.At f'.sections.values plan) ↔
      ∃ romSize readfsSize, Layout host size properties romSize readfsSize ∧
        plan = sections size romSize readfsSize := by
  have hplan : ∀ plan, (∃ f', Returns (Flash.parseContent host true)
      (new name imagePath size properties) () f' ∧
        List.Forall₂ Section.At f'.sections.values plan) ↔
      ∃ romSize readfsSize, Layout host size properties romSize readfsSize ∧
        plan = sections size romSize readfsSize := by
    intro plan
    rw [← plan_iff hgives, ← refines_plan.returns_iff fun _ _ _ _ => Flash.unique_plan]
    exact ⟨fun ⟨f', run, hat⟩ => ⟨(), f', run, hat⟩, fun ⟨_, f', run, hat⟩ => ⟨f', run, hat⟩⟩
  refine ⟨⟨?_, ?_⟩, hplan⟩
  · -- a parse that returns has followed a plan, and a plan is a layout
    rintro ⟨f', run⟩
    obtain ⟨plan, -, hat⟩ := refines_plan.of_returns run
    obtain ⟨romSize, readfsSize, hlayout, -⟩ := (hplan plan).mp ⟨f', run, hat⟩
    exact ⟨romSize, readfsSize, hlayout⟩
  · rintro ⟨romSize, readfsSize, hlayout⟩
    obtain ⟨f', run, -⟩ := (hplan _).mpr ⟨romSize, readfsSize, hlayout, rfl⟩
    exact ⟨f', run⟩

/-- A machine with one file of three bytes. -/
def oneFile : Host :=
  { Host.noFiles with
    getsize := fun path => if path = "a.txt" then .ok 3 else .error (.osError path)
    readFile := fun file =>
      if file = .path "a.txt" then .ok [1, 2, 3] else .error (.osError file.text) }

theorem parseContent_iff_oneFile :
    ∃ f', Returns (Flash.parseContent oneFile true)
        (new "flash" "flash.bin" 512 [("readfs", [("files", "a.txt")])]) () f' ∧
      List.Forall₂ Section.At f'.sections.values
        [⟨"rom", .rom, 0, 4⟩, ⟨"partition table", .partitionTable, 4, 128⟩,
          ⟨"readfs", .readfs, 132, 33⟩, ⟨"hostfs", .hostfs, 165, 0⟩, ⟨"raw", .raw, 165, 347⟩] := by
  refine ((parseContent_iff (by decide)).2 _).mpr ⟨4, 33, ⟨⟨none, rfl, rfl⟩, ?_, ?_, by decide⟩, rfl⟩
  · exact ⟨[("a.txt", "a.txt")], [3], [[1, 2, 3]], .cons rfl .nil, .cons rfl .nil, .cons rfl .nil,
      rfl⟩
  · exact fun _ h => absurd h List.not_mem_nil

end DefaultFlashRomV2

end SoftHier.Gapy
