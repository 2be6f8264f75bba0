/-
  Gapy/Flash.lean --- a flash and its sections.

  Source: `Flash` of `gapy/bin/gapylib/flash.py`.  The content is parsed the
  first time it is needed; `content_parsed` is set before the parse and stays
  set when it raises.
-/
import SoftHier.Gapy.Templates

set_option autoImplicit false

namespace SoftHier.Gapy

open SoftHier.Foundation

/-- `Flash`. -/
structure Flash where
  name : String
  size : Nat
  /-- `get_image_path()`. -/
  imagePath : String
  sectionsTemplates : Dict String SectionTemplate
  sections : Dict String Section := Dict.empty
  contentDict : Option FlashContent := none
  contentParsed : Bool := false
  /-- The properties given on the command line, by section name. -/
  properties : List (String × List (String × String)) := []
  flashAttributes : Dict String Int := Dict.empty

/-- A method of a flash. -/
abbrev FlashM (α : Type) : Type := Program PyError Flash α

namespace Flash

/-- What a section sees of the flash. -/
def context (f : Flash) : FlashContext where
  size := f.size
  imagePath := f.imagePath
  attributes := f.flashAttributes
  sectionNames := f.sections.keys

/-- The entries of a content, none when it has no `sections`. -/
def contentSections (f : Flash) : List ContentSection :=
  match f.contentDict with
  | none => []
  | some content => content.sections.getD []

/-! ## Parsing the content -/

/-- The key a content entry is filed under. -/
def entryKey (content : ContentSection) : FlashM String :=
  match content.name with
  | some name => pure name
  | none => throw .keyError

/-- `self.sections[name]`. -/
def sectionAt (name : String) : FlashM Section :=
  Program.reading fun f =>
    match f.sections.get name with
    | some s => .ok s
    | none => .error .keyError

/-- Run a method of the section filed under a name. -/
def onSection (name : String) (p : Program PyError Section Unit) : FlashM Unit := fun f =>
  match f.sections.get name with
  | none => .error .keyError f
  | some s =>
      match p s with
      | .ok _ s' => .ok () { f with sections := f.sections.set name s' }
      | .error e s' => .error e { f with sections := f.sections.set name s' }

/-- The first loop of `__parse_content`: create the section of an entry. -/
def createSection (h : Host) (content : ContentSection) : FlashM Unit := do
  match content.name with
  | none =>
      throw (.runtimeError ("Section does not have any name:\n" ++ h.jsonDumps content))
  | some name =>
      match content.template with
      | none =>
          throw (.runtimeError ("Section does not have any template:\n" ++ h.jsonDumps content))
      | some templateName =>
          let f ← get
          match f.sectionsTemplates.get templateName with
          | none => throw (.runtimeError ("Unknown section template: " ++ templateName))
          | some template =>
              set { f with
                sections := f.sections.set name (template.new name f.sections.length) }

/-- One property of `__overwrite_section_properties`, on the properties of the
content entry. -/
def overwriteProperty (declared : Dict String FlashSectionProperty)
    (properties : Dict String PyValue) (key value : String) :
    Except PyError (Dict String PyValue) :=
  match (declared.get key).map FlashSectionProperty.value with
  | some (.list _) =>
      match (properties.get key).getD .none with
      | .none => .ok (properties.set key (.list [value]))
      | .list items => .ok (properties.set key (.list (items ++ [value])))
      | _ => .error .attributeError
  | some (.bool _) =>
      if value.toLower = "false" then .ok (properties.set key (.bool false))
      else .ok (properties.set key (.bool true))
  | _ => .ok (properties.set key (.str value))

/-- The first entry called `name`, changed. -/
def updateFirst (name : String) (change : ContentSection → ContentSection) :
    List ContentSection → List ContentSection
  | [] => []
  | c :: rest => if c.name = some name then change c :: rest else c :: updateFirst name change rest

/-- `__overwrite_section_properties`, one property. -/
def overwriteOne (sectionName : String) (property : String × String) : FlashM Unit := do
  let f ← get
  match f.contentSections.find? fun c => c.name = some sectionName with
  | none =>
      throw (.runtimeError ("Found unknown section while handling command-line flash section" ++
        " properties: " ++ sectionName))
  | some content =>
      let s ← sectionAt sectionName
      let properties ← Program.reading fun _ =>
        overwriteProperty s.base.properties (content.properties.getD Dict.empty)
          property.1 property.2
      let entries := updateFirst sectionName (fun c => { c with properties := some properties })
        f.contentSections
      set { f with contentDict := some { sections := some entries } }

/-- `__overwrite_section_properties`. -/
def overwriteSectionProperties (p : String × List (String × String)) : FlashM Unit := do
  let f ← get
  match f.contentSections.find? fun c => c.name = some p.1 with
  | none =>
      throw (.runtimeError ("Found unknown section while handling command-line flash section" ++
        " properties: " ++ p.1))
  | some _ => Program.forEach (overwriteOne p.1) p.2

/-- `__handle_section_properties`. -/
def handleSectionProperties : FlashM Unit := do
  let f ← get
  Program.forEach overwriteSectionProperties f.properties

/-- Whether the placement loop ran to its end or left at the `break`. -/
inductive Placement where
  | complete
  | overflow
  deriving DecidableEq, Repr

/-- The text of the overflow error. -/
def overflowMessage (sectionName : String) (f : Flash) (flashOffset : Int) : String :=
  "Section \"" ++ sectionName ++ "\" overflowed flash \"" ++ f.name ++ "\"," ++
    " flash size is 0x" ++ pyHex f.size ++ ", current content size is" ++
    " 0x" ++ pyHex flashOffset ++ "."

/-- The body of the placement loop: the offset after the section. -/
def placeSection (h : Host) (flashOffset : Int) (content : ContentSection) : FlashM Int := do
  let key ← entryKey content
  let f ← get
  let startAlign := f.flashAttributes.get "section_start_align"
  let sizeAlign := f.flashAttributes.get "section_size_align"
  onSection key fun s => .ok () (s.setAlignments startAlign sizeAlign)
  onSection key (Section.setContent h f.context flashOffset content)
  let s ← sectionAt key
  let size ← Program.reading fun _ => s.getSize
  pure (s.offset + size)

/-- The placement loop of `__parse_content`. -/
def placeSections (h : Host) (checkOverflow : Bool) : Int → List ContentSection → FlashM Placement
  | _, [] => pure .complete
  | flashOffset, content :: rest => do
      let flashOffset ← placeSection h flashOffset content
      let f ← get
      if flashOffset > f.size then
        if checkOverflow then
          throw (.runtimeError (overflowMessage (content.name.getD "") f flashOffset))
        else pure .overflow
      else placeSections h checkOverflow flashOffset rest

/-- The last loop of `__parse_content`. -/
def finalizeSection (content : ContentSection) : FlashM Unit := do
  let key ← entryKey content
  let f ← get
  onSection key (Section.finalize (f.sections.values.map Section.view))

/-- `__parse_content`. -/
def parseContent (h : Host) (checkOverflow : Bool) : FlashM Unit := do
  let f ← get
  if f.contentParsed = true ∨ f.contentDict.isNone = true then
    pure ()
  else do
    set { f with contentParsed := true }
    Program.forEach (createSection h) f.contentSections
    handleSectionProperties
    let entries := (← get).contentSections
    let _ ← placeSections h checkOverflow 0 entries
    Program.forEach finalizeSection entries

/-! ## What the commands call -/

/-- `get_sections`. -/
def getSections (h : Host) : FlashM (List Section) := do
  parseContent h true
  let f ← get
  pure f.sections.values

/-- The sections of an image from one on; `prev` is the one before. -/
def imageFrom : Option Section → List Section → Except PyError Bytes
  | _, [] => .ok []
  | prev, s :: rest => do
      let padding ←
        match prev with
        | none => pure []
        | some p => do
            let padding := s.offset - p.offset - (← p.getSize)
            -- `bytearray(padding)`
            if padding < 0 then throw PyError.valueError
            pure (List.replicate padding.toNat 0)
      let image ← s.getImage
      let result ← imageFrom (some s) rest
      pure (padding ++ image ++ result)

/-- `get_image`. -/
def getImage (h : Host) (first last : Option Nat) : FlashM Bytes := do
  parseContent h true
  let f ← get
  let first := first.getD 0
  let last := last.getD f.sections.length
  Program.reading fun f => imageFrom none ((f.sections.values.take (last + 1)).drop first)

/-- `section.is_empty()`.  A partition table asks the sections it lists, which
come after it, so the number of sections bounds the nesting. -/
def sectionIsEmpty (f : Flash) : Nat → Section → Except PyError Bool
  | _, .rom s => .ok (RomFlashSection.isEmpty s)
  | _, .readfs s => .ok (ReadfsSection.isEmpty s)
  | _, .lfs s => .ok (LfsSection.isEmpty s)
  | _, .hostfs _ => .ok true
  | _, .raw _ => .ok true
  | 0, .partitionTable _ => .error (.runtimeError "maximum recursion depth exceeded")
  | fuel + 1, .partitionTable s =>
      match s.self.sections with
      | none => .error .typeError
      | some names =>
          names.foldlM (fun empty name =>
            if empty then
              match f.sections.get name with
              | some t => sectionIsEmpty f fuel t
              | none => .error .keyError
            else .ok false) true

/-- Whether all sections of a list are empty. -/
def allEmpty (f : Flash) : List Section → Except PyError Bool
  | [] => .ok true
  | s :: rest => do
      if ← sectionIsEmpty f (f.sections.length + 1) s then allEmpty f rest else .ok false

/-- `is_empty`. -/
def isEmpty (h : Host) : FlashM Bool := do
  parseContent h true
  Program.reading fun f => allEmpty f f.sections.values

/-- A row of the layout table. -/
structure LayoutRow where
  offset : String
  name : String
  size : String
  content : Option (List (List StructRow))
  deriving DecidableEq, Repr

/-- The row `dump_layout` shows for a section. -/
def layoutRow (level : Int) (s : Section) : Except PyError LayoutRow := do
  let size ← s.getSize
  let content ← if 0 < level then (s.base.dumpTable (level - 1)).map some else .ok none
  pure ⟨"0x" ++ pyHex s.offset, s.name, "0x" ++ pyHex size, content⟩

/-- `dump_layout`: the rows of the table it prints. -/
def dumpLayout (h : Host) (level : Int) : FlashM (List LayoutRow) := do
  parseContent h false
  Program.reading fun f => f.sections.values.mapM (layoutRow level)

/-- `dump_section_properties`: the rows of the table it prints. -/
def dumpSectionProperties (h : Host) :
    FlashM (List (String × List (String × PyValue × String))) := do
  parseContent h true
  let f ← get
  pure (f.sections.values.map fun s => (s.name, s.base.dumpProperties))

end Flash

/-! ## Small flashes -/

/-- A machine without any file. -/
def Host.noFiles : Host where
  jsonDumps _ := ""
  openElf file := .error (.osError file.text)
  getsize path := .error (.osError path)
  readFile file := .error (.osError file.text)
  listdir path := .error (.osError path)
  copy source _ := .error (.osError source)
  run command := .error (.osError command)
  getAbspath path := path

/-- A raw section in a content. -/
def rawEntry (name : String) (size : Int) : ContentSection where
  name := some name
  template := some "raw"
  properties := some (Dict.empty.set "size" (.int size))

/-- A flash of some size with a content, all section classes registered under
their names. -/
def Flash.ofContent (size : Nat) (attributes : Dict String Int) (entries : List ContentSection) :
    Flash where
  name := "flash"
  size := size
  imagePath := "flash.bin"
  sectionsTemplates := (((((Dict.empty.set "rom" .rom).set "partition table" .partitionTable).set
    "readfs" .readfs).set "hostfs" .hostfs).set "lfs" .lfs).set "raw" .raw
  contentDict := some { sections := some entries }
  flashAttributes := attributes

end SoftHier.Gapy
