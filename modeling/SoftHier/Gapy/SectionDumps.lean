/-
  Gapy/SectionDumps.lean --- section images in files of their own.

  `dump_sections` writes the image of every section to a file, and a description
  of the sections next to the image of the flash.  The files and the description
  hold the whole flash: who reads them has its image.
-/
import SoftHier.Foundation.Json
import SoftHier.Gapy.ImageCommand
import SoftHier.Gapy.ReadfsNames

set_option autoImplicit false

namespace SoftHier.Gapy

open SoftHier.Foundation Program

/-! ## The description of a section -/

/-- A number as `json.dumps` shows it. -/
def PyNumber.toJson : PyNumber → Json
  | .int i => .int i
  | .bool b => .bool b

/-- A number as `json.loads` reads it. -/
def PyNumber.ofJson? : Json → Option PyNumber
  | .int i => some (.int i)
  | .bool b => some (.bool b)
  | _ => none

theorem PyNumber.ofJson?_toJson (number : PyNumber) : ofJson? number.toJson = some number := by
  cases number <;> rfl

/-- What `dump_section_description` returns, and the signature that is added to it
when there is a key. -/
structure SectionDescription where
  name : String
  partitionType : Nat
  partitionSubtype : Nat
  size : PyNumber
  overcommitSize : PyNumber
  imageFile : String
  isEmpty : Bool
  flashOffset : Int
  signature : Option (String × Nat) := none

namespace SectionDescription

/-- The dictionary. -/
def toJson (d : SectionDescription) : Json :=
  .obj ([("name", .str d.name), ("partition_type", .int d.partitionType),
    ("partition_subtype", .int d.partitionSubtype), ("size", d.size.toJson),
    ("overcommit_size", d.overcommitSize.toJson), ("image_file", .str d.imageFile),
    ("is_empty", .bool d.isEmpty), ("flash_offset", .int d.flashOffset)] ++
    match d.signature with
    | none => []
    | some (file, size) => [("signature", .str file), ("signature_size", .int size)])

end SectionDescription

/-- `os.path.splitext(path)[0]`. -/
def splitextRoot (path : String) : String :=
  let file := path.toList.reverse.takeWhile (· ≠ '/')
  let extension := file.takeWhile (· ≠ '.')
  let stem := (file.drop extension.length).tail
  if stem.all (· = '.') then path
  else String.ofList (path.toList.take (path.toList.length - (extension.length + 1)))

namespace Flash

/-- `get_image_name` of a section. -/
def sectionImageName (f : Flash) (s : Section) : String := f.name ++ "-" ++ s.name ++ ".bin"

/-- `get_image_path` of a section. -/
def sectionImagePath (h : Host) (f : Flash) (s : Section) : String :=
  h.getAbspath (f.sectionImageName s)

/-- Where the description goes. -/
def descriptionPath (f : Flash) : String := splitextRoot f.imagePath ++ "-description.json"

/-- `dump_section_description`. -/
def dumpSectionDescription (f : Flash) (s : Section) : Except PyError SectionDescription := do
  let size ← s.base.getSizeNumber
  let overcommitSize ← s.base.getSizeNumber
  let isEmpty ← f.emptySection s
  pure {
    name := s.name
    partitionType := s.partitionType
    partitionSubtype := s.partitionSubtype
    size := size
    overcommitSize := overcommitSize
    imageFile := f.sectionImageName s
    isEmpty := isEmpty
    flashOffset := s.offset }

/-- The sections a dump for an application takes leave out those of partition type
2. -/
def takesSection (isApp : Bool) (s : Section) : Bool := !(isApp && s.partitionType == 0x2)

/-- The body of the loop of `__dump_sections_description`.  The signature is
looked for under the name of the image, not under its path. -/
def describeSection (h : Host) (signed : Bool) (f : Flash) (s : Section) :
    Except PyError SectionDescription := do
  let description ← f.dumpSectionDescription s
  if signed then do
    let size ← h.getsize (description.imageFile ++ ".sig")
    pure { description with signature := some (description.imageFile ++ ".sig", size) }
  else pure description

/-- `json.dumps(section_descriptions, indent=4)`, as the file holds it. -/
def descriptionText (descriptions : List SectionDescription) : Bytes :=
  Utf8.encode (String.ofList
    (Json.dumps 4 (.arr (descriptions.map SectionDescription.toJson))))

/-- `open`, `write` and the `except` around them. -/
def writeFile (disk : Disk) (path : String) (content : Bytes) : DumpM Unit :=
  wrapOsError "Unable to open flash section image for writing " do
    Program.reading fun _ => refused (disk.openFile path)
    Program.reading fun _ => refused (disk.write path content)
    modify fun d => { d with dumped := d.dumped ++ [(path, content)] }

/-- The body of the loop of `__dump_sections`.  The file is signed then, by another
program, whose failure is only reported. -/
def dumpSection (h : Host) (disk : Disk) (f : Flash) (s : Section) : DumpM Unit := do
  let image ← Program.reading fun _ => s.getImage
  writeFile disk (f.sectionImagePath h s) image

/-- `__dump_sections`. -/
def dumpSectionImages (h : Host) (disk : Disk) (isApp : Bool) (name : String) : DumpM Unit := do
  let f ← onFlash name get
  Program.forEach (dumpSection h disk f) (f.sections.values.filter (takesSection isApp))

/-- `__dump_sections_description`. -/
def dumpSectionsDescription (h : Host) (disk : Disk) (isApp signed : Bool) (name : String) :
    DumpM Unit := do
  let f ← onFlash name get
  let descriptions ← Program.reading fun _ =>
    (f.sections.values.filter (takesSection isApp)).mapM (f.describeSection h signed)
  writeFile disk f.descriptionPath (descriptionText descriptions)

/-- `dump_sections` and `dump_app_sections`; `signed` tells whether there is a key. -/
def dumpSections (h : Host) (disk : Disk) (isApp signed : Bool) (name : String) : DumpM Unit := do
  onFlash name (Flash.parseContent h true)
  dumpSectionImages h disk isApp name
  dumpSectionsDescription h disk isApp signed name

end Flash

/-! ## Reading a dump -/

namespace Dumping

/-- What a file holds: what was written to it last. -/
def file (d : Dumping) (path : String) : Option Bytes :=
  (d.dumped.reverse.find? fun out => out.1 = path).map Prod.snd

/-- The state once some files were written. -/
def wrote (d : Dumping) (outs : List (String × Bytes)) : Dumping :=
  { d with dumped := d.dumped ++ outs }

theorem wrote_nil (d : Dumping) : d.wrote [] = d := by
  unfold wrote
  rw [List.append_nil]

/-- The content of a file with a path of its own among those written. -/
theorem file_wrote {d : Dumping} {outs : List (String × Bytes)} {out : String × Bytes}
    (hnodup : (outs.map Prod.fst).Nodup) (hout : out ∈ outs) :
    (d.wrote outs).file out.1 = some out.2 := by
  obtain ⟨pre, post, rfl⟩ := List.append_of_mem hout
  have hpost : ∀ o ∈ post.reverse, ¬ (decide (o.1 = out.1)) = true := by
    intro o ho heq
    rw [List.map_append, List.map_cons, List.nodup_append, List.nodup_cons] at hnodup
    exact hnodup.2.1.1 (List.mem_map.mpr ⟨o, List.mem_reverse.mp ho, of_decide_eq_true heq⟩)
  unfold file wrote
  rw [List.reverse_append, List.reverse_append, List.reverse_cons, List.append_assoc,
    List.append_assoc, List.find?_append, List.find?_eq_none.mpr hpost, Option.none_or,
    List.singleton_append, List.find?_cons_of_pos (by simp)]
  rfl

theorem wrote_wrote (d : Dumping) (outs outs' : List (String × Bytes)) :
    (d.wrote outs).wrote outs' = d.wrote (outs ++ outs') := by
  unfold wrote
  rw [List.append_assoc]

end Dumping

/-- A described section at its place: its image, if the file is as long as the
description says. -/
def describedBlock (files : String → Option Bytes) (description : Json) : Option Block := do
  let file ← (description.member? "image_file").bind Json.str?
  let offset ← (description.member? "flash_offset").bind Json.int?
  let size ← (description.member? "size").bind PyNumber.ofJson?
  let content ← files file
  if (content.length : Int) = size.toInt then some (offset, content) else none

/-- The image of a flash, from its description and the files it names. -/
def rebuildImage (files : String → Option Bytes) (description : Bytes) : Option Bytes := do
  let text ← Utf8.decode? description
  let json ← Json.parse? text.toList
  let descriptions ← json.items?
  let blocks ← descriptions.mapM (describedBlock files)
  some (assemble 0 blocks)

/-! ## Writing files -/

/-- The file can be opened and takes what is written. -/
def Disk.Accepts (disk : Disk) (out : String × Bytes) : Prop :=
  disk.openFile out.1 = none ∧ disk.write out.1 out.2 = none

theorem returns_wrapOsError_iff {text : String} {p : DumpM Unit} {d d' : Dumping} :
    Returns (wrapOsError text p) d () d' ↔ Returns p d () d' := by
  refine ⟨fun h => ?_, returns_wrapOsError⟩
  unfold Returns wrapOsError at h
  unfold Returns
  cases hp : p d with
  | ok a d₁ =>
    rw [hp] at h
    exact h
  | error e d₁ =>
    rw [hp] at h
    cases e <;> cases h

theorem returns_refused {x : Option String} {d d' : Dumping} :
    Returns (Program.reading fun _ => refused x : DumpM Unit) d () d' ↔ x = none ∧ d' = d := by
  rw [returns_reading]
  cases x with
  | none => exact and_congr (iff_of_true rfl rfl) eq_comm
  | some message => exact and_congr (iff_of_false nofun nofun) eq_comm

namespace Flash

variable {host : Host} {disk : Disk} {f : Flash} {d d' : Dumping}

theorem returns_writeFile {path : String} {content : Bytes} :
    Returns (writeFile disk path content) d () d' ↔
      disk.Accepts (path, content) ∧ d' = d.wrote [(path, content)] := by
  unfold writeFile
  rw [returns_wrapOsError_iff, returns_bind]
  constructor
  · rintro ⟨_, d₁, hopen, hrest⟩
    obtain ⟨_, d₂, hwrite, hlog⟩ := returns_bind.mp hrest
    obtain ⟨hopened, rfl⟩ := returns_refused.mp hopen
    obtain ⟨hwritten, rfl⟩ := returns_refused.mp hwrite
    exact ⟨⟨hopened, hwritten⟩, (returns_modify.mp hlog).symm⟩
  · rintro ⟨⟨hopen, hwrite⟩, rfl⟩
    exact ⟨(), d, returns_refused.mpr ⟨hopen, rfl⟩,
      Returns.bind (returns_refused.mpr ⟨hwrite, rfl⟩) rfl⟩

/-- What is written for a section. -/
def SectionFile (h : Host) (disk : Disk) (f : Flash) (s : Section) (out : String × Bytes) : Prop :=
  out.1 = f.sectionImagePath h s ∧ s.getImage = .ok out.2 ∧ disk.Accepts out

theorem returns_dumpSection {s : Section} :
    Returns (dumpSection host disk f s) d () d' ↔
      ∃ out, SectionFile host disk f s out ∧ d' = d.wrote [out] := by
  unfold dumpSection
  rw [returns_bind]
  constructor
  · rintro ⟨image, d₁, himage, hwrite⟩
    obtain ⟨hpack, rfl⟩ := returns_reading.mp himage
    obtain ⟨haccepts, rfl⟩ := returns_writeFile.mp hwrite
    exact ⟨(_, image), ⟨rfl, hpack, haccepts⟩, rfl⟩
  · rintro ⟨⟨path, image⟩, ⟨rfl, himage, haccepts⟩, rfl⟩
    exact ⟨image, d, returns_reading.mpr ⟨himage, rfl⟩, returns_writeFile.mpr ⟨haccepts, rfl⟩⟩

/-- The files of some sections, in their order. -/
theorem returns_dumpSection_forEach {ss : List Section} :
    Returns (forEach (dumpSection host disk f) ss) d () d' ↔
      ∃ outs, List.Forall₂ (SectionFile host disk f) ss outs ∧ d' = d.wrote outs := by
  induction ss generalizing d with
  | nil =>
    rw [returns_forEach_nil]
    constructor
    · rintro rfl
      exact ⟨[], .nil, d.wrote_nil.symm⟩
    · rintro ⟨outs, houts, rfl⟩
      cases houts
      exact d.wrote_nil.symm
  | cons s ss ih =>
    rw [returns_forEach_cons]
    constructor
    · rintro ⟨d₁, hone, hrest⟩
      obtain ⟨out, hout, rfl⟩ := returns_dumpSection.mp hone
      obtain ⟨outs, houts, rfl⟩ := ih.mp hrest
      exact ⟨out :: outs, .cons hout houts, d.wrote_wrote [out] outs⟩
    · rintro ⟨outs, houts, rfl⟩
      obtain ⟨out, outs, hout, hrest, rfl⟩ := List.forall₂_cons_left_iff.mp houts
      exact ⟨_, returns_dumpSection.mpr ⟨out, hout, rfl⟩,
        ih.mpr ⟨outs, hrest, (d.wrote_wrote [out] outs).symm⟩⟩

/-! ## The whole dump -/

/-- No class of sections has partition type 2. -/
theorem takesSection_eq (isApp : Bool) (s : Section) : takesSection isApp s = true := by
  have htype : (s.partitionType == 0x2) = false := by cases s <;> rfl
  rw [takesSection, htype, Bool.and_false, Bool.not_false]

theorem filter_takesSection (isApp : Bool) (ss : List Section) :
    ss.filter (takesSection isApp) = ss :=
  List.filter_eq_self.mpr fun s _ => takesSection_eq isApp s

theorem returns_onFlash_get {name : String} {f' : Flash} :
    Returns (onFlash name get) (d.setFlash name f) f' d' ↔ f' = f ∧ d' = d.setFlash name f := by
  have hget : Returns (onFlash name get) (d.setFlash name f) f (d.setFlash name f) :=
    returns_onFlash_self rfl
  constructor
  · intro h
    exact h.unique hget
  · rintro ⟨rfl, rfl⟩
    exact hget

/-- What a dump of an open flash writes. -/
structure DumpedSections (h : Host) (disk : Disk) (signed : Bool) (f : Flash)
    (outs : List (String × Bytes)) (descriptions : List SectionDescription) : Prop where
  files : List.Forall₂ (SectionFile h disk f) f.sections.values outs
  described : List.Forall₂ (fun s description => f.describeSection h signed s = .ok description)
    f.sections.values descriptions
  accepts : disk.Accepts (f.descriptionPath, descriptionText descriptions)

/-- `dump_sections` of a flash that `f` is once its content is parsed. -/
theorem returns_dumpSections {g : Flash} {name : String} {isApp signed : Bool}
    (hget : d.target.flashes.get name = some g) (hparse : Returns (parseContent host true) g () f) :
    Returns (dumpSections host disk isApp signed name) d () d' ↔
      ∃ outs descriptions, DumpedSections host disk signed f outs descriptions ∧
        d' = (d.setFlash name f).wrote
          (outs ++ [(f.descriptionPath, descriptionText descriptions)]) := by
  have hparsed := returns_onFlash hget hparse
  have himages : ∀ {d₁ : Dumping},
      Returns (dumpSectionImages host disk isApp name) (d.setFlash name f) () d₁ ↔
        ∃ outs, List.Forall₂ (SectionFile host disk f) f.sections.values outs ∧
          d₁ = (d.setFlash name f).wrote outs := by
    intro d₁
    unfold dumpSectionImages
    rw [← returns_dumpSection_forEach]
    constructor
    · intro h
      obtain ⟨u, d₂, hu, hrest⟩ := returns_bind.mp h
      obtain ⟨rfl, rfl⟩ := returns_onFlash_get.mp hu
      rwa [filter_takesSection] at hrest
    · intro h
      refine Returns.bind (returns_onFlash_get.mpr ⟨rfl, rfl⟩) ?_
      rwa [filter_takesSection]
  have hdescription : ∀ {outs : List (String × Bytes)},
      Returns (dumpSectionsDescription host disk isApp signed name)
          ((d.setFlash name f).wrote outs) () d' ↔
        ∃ descriptions, List.Forall₂ (fun s description =>
            f.describeSection host signed s = .ok description) f.sections.values descriptions ∧
          disk.Accepts (f.descriptionPath, descriptionText descriptions) ∧
          d' = ((d.setFlash name f).wrote outs).wrote
            [(f.descriptionPath, descriptionText descriptions)] := by
    intro outs
    have hflash : ∀ {u : Flash} {d₂ : Dumping},
        Returns (onFlash name get) ((d.setFlash name f).wrote outs) u d₂ ↔
          u = f ∧ d₂ = (d.setFlash name f).wrote outs :=
      returns_onFlash_get (d := d.wrote outs)
    unfold dumpSectionsDescription
    constructor
    · intro h
      obtain ⟨u, d₂, hu, hrest⟩ := returns_bind.mp h
      obtain ⟨rfl, rfl⟩ := hflash.mp hu
      obtain ⟨descriptions, d₃, hdescribed, hwrite⟩ := returns_bind.mp hrest
      obtain ⟨hmap, rfl⟩ := returns_reading.mp hdescribed
      rw [filter_takesSection, mapM_eq_ok_iff] at hmap
      exact ⟨descriptions, hmap, returns_writeFile.mp hwrite⟩
    · rintro ⟨descriptions, hmap, hwrite⟩
      rw [← mapM_eq_ok_iff, ← filter_takesSection isApp f.sections.values] at hmap
      refine Returns.bind (hflash.mpr ⟨rfl, rfl⟩) (Returns.bind ?_ (returns_writeFile.mpr hwrite))
      exact returns_reading.mpr ⟨hmap, rfl⟩
  unfold dumpSections
  constructor
  · intro h
    have hrest := hparsed.advance h
    obtain ⟨_, d₁, hone, htwo⟩ := returns_bind.mp hrest
    obtain ⟨outs, houts, rfl⟩ := himages.mp hone
    obtain ⟨descriptions, hmap, haccepts, rfl⟩ := hdescription.mp htwo
    exact ⟨outs, descriptions, ⟨houts, hmap, haccepts⟩, Dumping.wrote_wrote _ _ _⟩
  · rintro ⟨outs, descriptions, ⟨houts, hmap, haccepts⟩, rfl⟩
    refine Returns.bind hparsed (Returns.bind (himages.mpr ⟨outs, houts, rfl⟩) ?_)
    exact hdescription.mpr ⟨descriptions, hmap, haccepts, (Dumping.wrote_wrote _ _ _).symm⟩

/-! ## The image from the files -/

/-- The files of a dump have paths of their own. -/
def DistinctPaths (h : Host) (f : Flash) : Prop :=
  (f.sections.values.map (f.sectionImagePath h) ++ [f.descriptionPath]).Nodup

instance (h : Host) (f : Flash) : Decidable (f.DistinctPaths h) :=
  inferInstanceAs (Decidable (List.Nodup _))

theorem describeSection_inv {signed : Bool} {s : Section} {description : SectionDescription}
    (h : f.describeSection host signed s = .ok description) :
    description.imageFile = f.sectionImageName s ∧ description.flashOffset = s.offset ∧
      s.getSize = .ok description.size.toInt := by
  unfold describeSection at h
  obtain ⟨plain, hplain, h⟩ := bind_eq_ok_iff.mp h
  have hfields : plain.imageFile = f.sectionImageName s ∧ plain.flashOffset = s.offset ∧
      s.getSize = .ok plain.size.toInt := by
    unfold dumpSectionDescription at hplain
    obtain ⟨size, hsize, hplain⟩ := bind_eq_ok_iff.mp hplain
    obtain ⟨overcommit, -, hplain⟩ := bind_eq_ok_iff.mp hplain
    obtain ⟨isEmpty, -, hplain⟩ := bind_eq_ok_iff.mp hplain
    cases hplain
    exact ⟨rfl, rfl, map_eq_ok_iff.mpr ⟨_, hsize, rfl⟩⟩
  cases signed with
  | true =>
    obtain ⟨size, -, h⟩ := bind_eq_ok_iff.mp h
    cases h
    exact hfields
  | false =>
    cases h
    exact hfields

theorem describedBlock_toJson (files : String → Option Bytes) (description : SectionDescription) :
    describedBlock files description.toJson = (files description.imageFile).bind fun content =>
      if (content.length : Int) = description.size.toInt then
        some (description.flashOffset, content)
      else none := by
  have hfile : (description.toJson.member? "image_file").bind Json.str? =
      some description.imageFile := rfl
  have hoffset : (description.toJson.member? "flash_offset").bind Json.int? =
      some description.flashOffset := rfl
  have hsize : description.toJson.member? "size" = some description.size.toJson := rfl
  unfold describedBlock
  rw [hfile, hoffset, hsize, Option.bind_some, PyNumber.ofJson?_toJson]
  rfl

/-- The described sections are at their places, where the files have their images. -/
theorem describedBlocks_eq {files : String → Option Bytes} {signed : Bool} {ss : List Section}
    {descriptions : List SectionDescription} {bs : List Block}
    (hfiles : ∀ s ∈ ss, ∃ image, s.getImage = .ok image ∧
      files (f.sectionImageName s) = some image)
    (hdescribed : List.Forall₂ (fun s description =>
      f.describeSection host signed s = .ok description) ss descriptions)
    (hbs : BlocksOf ss bs) :
    (descriptions.map SectionDescription.toJson).mapM (describedBlock files) = some bs := by
  induction hdescribed generalizing bs with
  | nil =>
    cases hbs
    rfl
  | @cons s description ss descriptions hone hrest ih =>
    obtain ⟨b, bs, ⟨hoffset, himage⟩, htail, rfl⟩ := List.forall₂_cons_left_iff.mp hbs
    obtain ⟨image, himage', hfile⟩ := hfiles s List.mem_cons_self
    obtain ⟨hname, hplace, hsize⟩ := describeSection_inv hone
    obtain rfl : b.2 = image := Except.ok.inj (himage.symm.trans himage')
    have hlength : (b.2.length : Int) = description.size.toInt :=
      Except.ok.inj ((FlashSection.length_getImage himage).symm.trans hsize)
    rw [List.map_cons, List.mapM_cons, describedBlock_toJson, hname, hfile, Option.bind_some,
      if_pos hlength, hplace, ← hoffset, ih (fun t ht => hfiles t (List.mem_cons_of_mem s ht)) htail]
    rfl

theorem rebuildImage_eq {files : String → Option Bytes} {descriptions : List SectionDescription}
    {bs : List Block}
    (h : (descriptions.map SectionDescription.toJson).mapM (describedBlock files) = some bs) :
    rebuildImage files (descriptionText descriptions) = some (assemble 0 bs) := by
  unfold rebuildImage descriptionText
  simp only [Utf8.decode?_encode, String.toList_ofList, Json.parse?_dumps, Json.items?,
    Option.bind_eq_bind, Option.bind_some, h]

/-- What can be read back once the sections of a flash were dumped. -/
structure HoldsDump (h : Host) (f : Flash) (d : Dumping) : Prop where
  files : ∀ s ∈ f.sections.values, ∃ image, s.getImage = .ok image ∧
    d.file (f.sectionImagePath h s) = some image
  image : ∀ full f', Returns (getImage h none none) f full f' → ∃ description,
    d.file f.descriptionPath = some description ∧
      rebuildImage (fun file => d.file (h.getAbspath file)) description = some full

theorem DumpedSections.holdsDump {signed : Bool} {outs : List (String × Bytes)}
    {descriptions : List SectionDescription}
    (h : DumpedSections host disk signed f outs descriptions) (hpaths : f.DistinctPaths host)
    (hstart : ∀ a, f.sections.values[0]? = some a → a.offset = 0)
    (hagain : Returns (parseContent host true) f () f) :
    HoldsDump host f
      (d.wrote (outs ++ [(f.descriptionPath, descriptionText descriptions)])) := by
  have hkeys : outs.map Prod.fst = f.sections.values.map (f.sectionImagePath host) :=
    forall₂_eq_map (List.forall₂_map_right_iff.mpr (h.files.imp fun _ _ hfile => hfile.1))
  have hnodup : ((outs ++ [(f.descriptionPath, descriptionText descriptions)]).map
      Prod.fst).Nodup := by
    rw [List.map_append, hkeys]
    exact hpaths
  have hfiles : ∀ s ∈ f.sections.values, ∃ image, s.getImage = .ok image ∧
      (d.wrote (outs ++ [(f.descriptionPath, descriptionText descriptions)])).file
        (f.sectionImagePath host s) = some image := by
    intro s hs
    obtain ⟨out, hout, hpath, himage, -⟩ := exists_left_of_forall₂ h.files.flip hs
    refine ⟨out.2, himage, ?_⟩
    rw [← hpath]
    exact Dumping.file_wrote hnodup (List.mem_append_left _ hout)
  refine ⟨hfiles, fun full f' hget => ⟨descriptionText descriptions, ?_, ?_⟩⟩
  · exact Dumping.file_wrote hnodup (List.mem_append_right _ List.mem_cons_self)
  · have hfull : imageFrom none f.sections.values = .ok full := by
      obtain ⟨hparse, hfull⟩ := returns_getImage_inv hget
      obtain ⟨-, rfl⟩ := hparse.unique hagain
      rwa [Option.getD_none, Option.getD_none, List.drop_zero,
        List.take_of_length_le (by rw [Dict.length_values]; omega)] at hfull
    obtain ⟨bs, hbs, horder⟩ := imageFrom_values hfull
    have himage : assemble 0 bs = full := by
      cases hsections : f.sections.values with
      | nil =>
        rw [hsections] at hbs hfull
        cases hbs
        cases hfull
        rfl
      | cons a ss =>
        obtain ⟨-, himage⟩ := horder a (by rw [hsections]; rfl)
        rw [himage, hstart a (by rw [hsections]; rfl)]
    rw [rebuildImage_eq (describedBlocks_eq hfiles h.described hbs), himage]

/-- Every section has an image, and all files can be written; with a key, every
signature is found. -/
structure DumpableSections (h : Host) (disk : Disk) (signed : Bool) (f : Flash) : Prop where
  images : ∀ s ∈ f.sections.values, ∃ image, s.getImage = .ok image ∧
    disk.Accepts (f.sectionImagePath h s, image)
  signatures : signed = true → ∀ s ∈ f.sections.values, ∃ size,
    h.getsize (f.sectionImageName s ++ ".sig") = .ok size
  description : ∀ content, disk.Accepts (f.descriptionPath, content)

theorem DumpableSections.exists_dumped {signed : Bool} (h : DumpableSections host disk signed f)
    (hf : f.Commanded) : ∃ outs descriptions, DumpedSections host disk signed f outs descriptions := by
  obtain ⟨outs, houts⟩ : ∃ outs, List.Forall₂ (SectionFile host disk f) f.sections.values outs := by
    refine exists_forall₂ fun s hs => ?_
    obtain ⟨image, himage, haccepts⟩ := h.images s hs
    exact ⟨(f.sectionImagePath host s, image), rfl, himage, haccepts⟩
  obtain ⟨descriptions, hdescribed⟩ : ∃ descriptions, List.Forall₂ (fun s description =>
      f.describeSection host signed s = .ok description) f.sections.values descriptions := by
    refine exists_forall₂ fun s hs => ?_
    obtain ⟨_, hsize⟩ := hf.sizes s hs
    obtain ⟨number, hnumber, -⟩ := map_eq_ok_iff.mp hsize
    obtain ⟨i, hi⟩ := List.mem_iff_getElem?.mp hs
    have hempty := emptySection_eq hf.tables hi
    have hplain : ∃ plain, f.dumpSectionDescription s = .ok plain ∧
        plain.imageFile = f.sectionImageName s := by
      unfold dumpSectionDescription
      rw [hnumber, hempty]
      exact ⟨_, rfl, rfl⟩
    obtain ⟨plain, hplain, hname⟩ := hplain
    unfold describeSection
    cases signed with
    | true =>
      obtain ⟨length, hlength⟩ := h.signatures rfl s hs
      rw [← hname] at hlength
      exact ⟨_, bind_eq_ok_iff.mpr ⟨plain, hplain, bind_eq_ok_iff.mpr ⟨length, hlength, rfl⟩⟩⟩
    | false => exact ⟨plain, bind_eq_ok_iff.mpr ⟨plain, hplain, rfl⟩⟩
  exact ⟨outs, descriptions, houts, hdescribed, h.description _⟩

/-- What a dump of the sections of a flash does. -/
structure DumpsSections (h : Host) (disk : Disk) (isApp signed : Bool) (name : String) (f : Flash)
    (d : Dumping) : Prop where
  holds : ∀ d', Returns (dumpSections h disk isApp signed name) d () d' →
    HoldsDump h (f.opened h) d'
  returns : DumpableSections h disk signed (f.opened h) →
    ∃ d', Returns (dumpSections h disk isApp signed name) d () d'

/-- A flash that was accepted is found open or as it was, after any calls. -/
theorem Accepted.get_after {t : Target} (haccepted : ∀ p ∈ t.flashes.entries, p.2.Accepted host)
    (history : List (String × Call)) {name : String} (hget : t.flashes.get name = some f) :
    ∃ g, (t.after host history).flashes.get name = some g ∧
      Returns (parseContent host true) g () (f.opened host) := by
  have hmem := Dict.get_eq_some_iff.mp hget
  have hf := haccepted _ hmem
  have hentries := Target.entries_after_of_calls history fun p hp => (haccepted p hp).call
  refine ⟨(Target.seen host history (name, f)).2, Dict.get_eq_some_iff.mpr ?_, ?_⟩
  · rw [hentries]
    exact List.mem_map.mpr ⟨(name, f), hmem, Prod.ext (Target.seen_fst _) rfl⟩
  · unfold Target.seen
    split
    · exact hf.again
    · exact hf.returns

/-- Whatever was called on the flashes before: a dump of the sections leaves the
image of every section in its file, and a description from which, with these
files, the image of the whole flash can be put together. -/
theorem dumpsSections (host : Host) (disk : Disk) (isApp signed : Bool)
    (history : List (String × Call)) (written : List (String × Bytes)) {t : Target}
    (haccepted : ∀ p ∈ t.flashes.entries, p.2.Accepted host) {name : String}
    (hget : t.flashes.get name = some f) (hpaths : (f.opened host).DistinctPaths host) :
    DumpsSections host disk isApp signed name f
      { target := t.after host history, dumped := written } := by
  have hf := haccepted _ (Dict.get_eq_some_iff.mp hget)
  obtain ⟨g, hg, hparse⟩ := Accepted.get_after haccepted history hget
  refine ⟨fun d' h => ?_, fun h => ?_⟩
  · obtain ⟨outs, descriptions, hdumped, rfl⟩ := (returns_dumpSections hg hparse).mp h
    exact hdumped.holdsDump hpaths hf.commanded.start hf.again
  · obtain ⟨outs, descriptions, hdumped⟩ := h.exists_dumped hf.commanded
    exact ⟨_, (returns_dumpSections hg hparse).mpr ⟨outs, descriptions, hdumped, rfl⟩⟩

theorem dumpsSections_mram :
    DumpsSections Target.oneFileHost ⟨fun _ => none, fun _ _ => none⟩ true false "mram"
      (Flash.ofContent 0x200 Dict.empty
        [{ name := some "table", template := some "partition table", properties := none },
          { name := some "files", template := some "readfs",
            properties := some (Dict.empty.set "files" (.list ["dir/a"])) },
          rawEntry "data" 8])
      { target := Target.imageTarget.after Target.oneFileHost [("flash", .isEmpty)]
        dumped := [("old.bin", [1])] } := by
  refine dumpsSections _ _ _ _ _ _ (fun p hp => .inl ?_) rfl (by decide +kernel)
  rcases List.mem_pair.mp hp with rfl | rfl
  · exact ⟨⟨⟨rfl, rfl, rfl⟩, _, returns_of_returned? (by decide +kernel)⟩, by decide⟩
  · exact ⟨⟨⟨rfl, rfl, rfl⟩, _, returns_of_returned? (by decide +kernel)⟩, by decide⟩

end Flash

end SoftHier.Gapy
