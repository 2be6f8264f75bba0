/-
  Gapy/Templates.lean --- the section classes a flash can hold.

  Source: `chips/pulp/rom_v2.py`, `fs/partition.py`, `fs/readfs.py`,
  `fs/hostfs.py`, `fs/littlefs.py` and `fs/raw.py` under `gapy/bin/gapylib`.
  A class is its attributes, its constructor, its `set_content` and what it
  overrides of `finalize`, `is_empty` and the partition types.
-/
import SoftHier.Gapy.FlashSection

set_option autoImplicit false

namespace SoftHier.Gapy

open SoftHier.Foundation

/-! ## Small pieces of the standard library -/

/-- The outcome of something that does not look at the section. -/
def outcome {σ α : Type} (x : Except PyError α) : SectionM σ α := Program.reading fun _ => x

/-- `for x in value`: the items of a list, the characters of a text. -/
def PyValue.iterate : PyValue → Except PyError (List String)
  | .list items => .ok items
  | .str s => .ok (s.toList.map fun c => String.ofList [c])
  | _ => .error .typeError

/-- `content_dict.get('properties').get(name)`. -/
def ContentSection.property (content : ContentSection) (name : String) : Except PyError PyValue :=
  match content.properties with
  | none => .error .attributeError
  | some properties => .ok ((properties.get name).getD .none)

/-- `path.find(':') != -1`. -/
def hasColon (path : String) : Bool := path.toList.contains ':'

/-- `left, right = path.split(':')`. -/
def splitColon (path : String) : Except PyError (String × String) :=
  match path.toList.splitOn ':' with
  | [left, right] => .ok (String.ofList left, String.ofList right)
  | _ => .error .valueError

/-- `os.path.basename(path)`. -/
def basename (path : String) : String :=
  String.ofList (path.toList.reverse.takeWhile (· ≠ '/')).reverse

/-- `os.path.join(a, b)`. -/
def joinPath (a b : String) : String :=
  if b.toList.head? = some '/' then b
  else if a.toList = [] ∨ a.toList.getLast? = some '/' then a ++ b
  else a ++ "/" ++ b

/-! ## ROM -/

/-- `BinarySegment`. -/
structure BinarySegment where
  base : Nat
  data : Bytes
  deriving DecidableEq

/-- `BinarySegment.size`. -/
def BinarySegment.size (b : BinarySegment) : Nat := b.data.length

/-- `Binary`: the entry point and the loadable segments of an ELF file. -/
structure Binary where
  entry : Nat
  segments : List BinarySegment
  deriving DecidableEq

/-- `Binary.__init__`. -/
def Binary.ofElf (elf : ElfFile) : Binary where
  entry := elf.eEntry
  segments := elf.loads.map fun s => { base := s.pPaddr, data := s.data }

/-- `RomEmptyHeader`. -/
def RomEmptyHeader.fields : List FieldDecl := [.field "rom_header_size" .I]

/-- `RomHeader`. -/
def RomHeader.fields : List FieldDecl :=
  [.field "rom_header_size" .I, .field "nb_segments" .I, .field "entry" .I, .field "unused" .I]

/-- `RomSegmentHeader`. -/
def RomSegmentHeader.fields : List FieldDecl :=
  [.field "flash_offset" .I, .field "mem_addr" .I, .field "size" .I, .field "crc" .I]

/-- `RomSegment`. -/
def RomSegment.fields (size : Int) : List FieldDecl := [.array "data" (.int size)]

/-- The attributes of `RomFlashSection`. -/
structure RomAttrs where
  segmentHeaders : List CStructRef := []
  segments : List CStructRef := []
  binary : Option Binary := none
  topStruct : Option Nat := none
  header : Option CStructRef := none
  boot : PyValue := .bool false
  deriving DecidableEq

namespace RomFlashSection

/-- `RomFlashSection.__init__`. -/
def new (name : String) (sectionId : Nat) : FlashSection RomAttrs :=
  (FlashSection.new name sectionId {}
    |>.declareProperty "binary" .none "Executable to be loaded by the ROM.")
    |>.declareProperty "boot" (.bool false) "True if the ROM will boot using this ROM section."

/-- `__parse_binary`. -/
def parseBinary (h : Host) : SectionM RomAttrs (Option Binary) := do
  let binaryPath ← Program.reading (FlashSection.getProperty "binary")
  if binaryPath = .none then pure none
  else do
    let file ← outcome binaryPath.openable
    match h.openElf file with
    | .ok elf => pure (some (Binary.ofElf elf))
    | .error (.osError text) =>
        throw (.runtimeError
          ("Invalid rom binary, got error while opening content file: " ++ text))
    | .error e => throw e

/-- The pass over the segments that fills their headers and contents. -/
def fillSegment (p : BinarySegment × Nat) : SectionM RomAttrs Unit := do
  let self := (← get).self
  let segmentHeader ← refAt self.segmentHeaders p.2
  let segment ← refAt self.segments p.2
  CStruct.setField segmentHeader "flash_offset" (.int (← CStruct.fieldOffset segment "data"))
  CStruct.setField segmentHeader "mem_addr" (.int p.1.base)
  CStruct.setField segmentHeader "size" (.int p.1.size)
  let blockSize := 4096
  let nbBlocks := (p.1.size + blockSize - 1) / blockSize
  CStruct.setField segmentHeader "crc" (.int nbBlocks)
  CStruct.setField segment "data" (.bytes p.1.data)

/-- The second half of `set_content`: the values, once all offsets are known. -/
def fill (header : CStructRef) (binary : Binary) : SectionM RomAttrs Unit := do
  CStruct.setField header "rom_header_size" (.int (← Program.reading FlashSection.getSize))
  CStruct.setField header "nb_segments" (.int binary.segments.length)
  CStruct.setField header "entry" (.int binary.entry)
  Program.forEach fillSegment binary.segments.zipIdx

/-- One header per segment. -/
def createHeader (topStruct : Nat) (_ : BinarySegment) : SectionM RomAttrs Unit := do
  let r ← CStruct.newOf RomSegmentHeader.fields "Binary segment header" topStruct
  FlashSection.modifySelf fun a => { a with segmentHeaders := a.segmentHeaders ++ [r] }

/-- One content per segment. -/
def createSegment (topStruct : Nat) (b : BinarySegment) : SectionM RomAttrs Unit := do
  let r ← CStruct.newOf (RomSegment.fields b.size) "Binary segment" topStruct
  FlashSection.modifySelf fun a => { a with segments := a.segments ++ [r] }

/-- `RomFlashSection.set_content`. -/
def setContent (h : Host) (offset : Int) (content : ContentSection) : SectionM RomAttrs Unit := do
  FlashSection.setContent offset content
  let binary ← parseBinary h
  FlashSection.modifySelf fun a => { a with binary := binary }
  let boot ← Program.reading (FlashSection.getProperty "boot")
  FlashSection.modifySelf fun a => { a with boot := boot }
  let topStruct ← CStructParent.new "rom"
  FlashSection.modifySelf fun a => { a with topStruct := some topStruct }
  match binary with
  | some binary =>
      let header ← CStruct.newOf RomHeader.fields "ROM header" topStruct
      FlashSection.modifySelf fun a => { a with header := some header }
      Program.forEach (createHeader topStruct) binary.segments
      Program.forEach (createSegment topStruct) binary.segments
      fill header binary
  | none =>
      let header ← CStruct.newOf RomEmptyHeader.fields "ROM header" topStruct
      FlashSection.modifySelf fun a => { a with header := some header }
      CStruct.setField header "rom_header_size" (.int (← Program.reading FlashSection.getSize))

/-- `RomFlashSection.is_empty`. -/
def isEmpty (s : FlashSection RomAttrs) : Bool := s.self.binary.isNone || !s.self.boot.truthy

end RomFlashSection

/-! ## Partition table -/

/-- `PartitionTableHeader`. -/
def PartitionTableHeader.fields : List FieldDecl :=
  [.field "magic_number" .H, .field "partition_table_version" .B, .field "nb_entries" .B,
    .field "crc" .B, .array "padding" (.int 11), .array "md5" (.int 16)]

/-- `PartitionTableSectionHeader`. -/
def PartitionTableSectionHeader.fields : List FieldDecl :=
  [.field "magic_number" .H, .field "type" .B, .field "subtype" .B, .field "offset" .I,
    .field "size" .I, .array "name" (.int 16), .field "flags" .I]

/-- The attributes of `PartitionTableSection`; `sections` are the names of the
sections it lists. -/
structure PartitionAttrs where
  sectionHeaders : List CStructRef := []
  topStruct : Option Nat := none
  header : Option CStructRef := none
  sections : Option (List String) := none
  deriving DecidableEq

/-- What a partition table asks another section for. -/
structure SectionView where
  name : String
  partitionType : Nat
  partitionSubtype : Nat
  offset : Int
  size : Except PyError Int

namespace PartitionTableSection

/-- `PartitionTableSection.__init__`. -/
def new (name : String) (sectionId : Nat) : FlashSection PartitionAttrs :=
  FlashSection.new name sectionId {}

/-- One entry per section after the table. -/
def createEntry (topStruct : Nat) (p : String × Nat) : SectionM PartitionAttrs Unit := do
  let r ← CStruct.newOf PartitionTableSectionHeader.fields
    ("section" ++ toString p.2 ++ " header") topStruct
  FlashSection.modifySelf fun a => { a with sectionHeaders := a.sectionHeaders ++ [r] }

/-- `PartitionTableSection.set_content`. -/
def setContent (flash : FlashContext) (offset : Int) (content : ContentSection) :
    SectionM PartitionAttrs Unit := do
  FlashSection.setContent offset content
  let sections := flash.sectionNames.drop ((← get).sectionId + 1)
  FlashSection.modifySelf fun a => { a with sections := some sections }
  let topStruct ← CStructParent.new "partition table"
  FlashSection.modifySelf fun a => { a with topStruct := some topStruct }
  let header ← CStruct.newOf PartitionTableHeader.fields "header" topStruct
  FlashSection.modifySelf fun a => { a with header := some header }
  Program.forEach (createEntry topStruct) sections.zipIdx

/-- The entry loop of `finalize`: header `i` describes section `i` after the
table. -/
def fillEntry (sections : List SectionView) (p : CStructRef × Nat) :
    SectionM PartitionAttrs Unit := do
  CStruct.setField p.1 "magic_number" (.int 0x01BA)
  match sections[p.2]? with
  | none => throw .indexError
  | some s =>
      CStruct.setField p.1 "type" (.int s.partitionType)
      CStruct.setField p.1 "subtype" (.int s.partitionSubtype)
      CStruct.setField p.1 "offset" (.int s.offset)
      CStruct.setField p.1 "size" (.int (← outcome s.size))
      CStruct.setField p.1 "name" (.bytes (utf8 s.name ++ [0]))

/-- `PartitionTableSection.finalize`, given `get_sections()`. -/
def finalize (allSections : List SectionView) : SectionM PartitionAttrs Unit := do
  let s ← get
  let sections := allSections.drop (s.sectionId + 1)
  match s.self.header with
  | none => throw .attributeError
  | some header =>
      CStruct.setField header "magic_number" (.int 0x02BA)
      CStruct.setField header "partition_table_version" (.int 1)
      CStruct.setField header "nb_entries" (.int sections.length)
      Program.forEach (fillEntry sections) s.self.sectionHeaders.zipIdx

end PartitionTableSection

/-! ## ReadFS -/

/-- `ReadfsHeader`. -/
def ReadfsHeader.fields : List FieldDecl := [.field "fs_size" .Q, .field "nb_files" .I]

/-- `ReadfsFileHeader`. -/
def ReadfsFileHeader.fields (nameLen : Int) : List FieldDecl :=
  [.field "offset" .I, .field "file_size" .I, .field "name_len" .I,
    .array "name" (.int nameLen)]

/-- `ReadfsFile`. -/
def ReadfsFile.fields (size : Int) : List FieldDecl := [.array "data" (.int size)]

/-- The attributes of `ReadfsSection`; a file path is the pair of the name in
the file system and the path on the workstation. -/
structure ReadfsAttrs where
  filePaths : List (String × String) := []
  fileHeaders : List CStructRef := []
  files : List CStructRef := []
  topStruct : Option Nat := none
  header : Option CStructRef := none
  deriving DecidableEq

namespace ReadfsSection

/-- `ReadfsSection.__init__`. -/
def new (name : String) (sectionId : Nat) : FlashSection ReadfsAttrs :=
  (FlashSection.new name sectionId {}
    |>.declareProperty "files" (.list []) "List of files to be included in the ReadFS.")
    |>.declareProperty "dirs" (.list []) "List of directories to be included in the ReadFS."

/-- `self.file_paths.append([name, path])`. -/
def appendPath (path : String × String) : SectionM ReadfsAttrs Unit :=
  FlashSection.modifySelf fun a => { a with filePaths := a.filePaths ++ [path] }

/-- The path of an entry of the `files` property. -/
def fileEntry (file : String) : Except PyError (String × String) :=
  if hasColon file then do
    let (wsPath, targetPath) ← splitColon file
    pure (joinPath targetPath (basename wsPath), wsPath)
  else pure (basename file, file)

/-- One entry of the `files` property. -/
def addFile (file : String) : SectionM ReadfsAttrs Unit := do
  appendPath (← outcome (fileEntry file))

/-- The directory of an entry of the `dirs` property, and its name in the file
system if the entry gives one. -/
def directoryEntry (entry : String) : Except PyError (String × Option String) :=
  if hasColon entry then do
    let (directory, targetDirectory) ← splitColon entry
    pure (directory, some targetDirectory)
  else pure (entry, none)

/-- The path of a file of a directory. -/
def directoryFile (d : String × Option String) (file : String) : String × String :=
  match d.2 with
  | some targetDirectory => (joinPath targetDirectory file, joinPath d.1 file)
  | none => (file, joinPath d.1 file)

/-- One entry of the `dirs` property: every file of the directory. -/
def addDirectory (h : Host) (entry : String) : SectionM ReadfsAttrs Unit := do
  let d ← outcome (directoryEntry entry)
  Program.forEach (fun file => appendPath (directoryFile d file)) (← outcome (h.listdir d.1))

/-- The pass over the files that fills their headers and contents. -/
def fillFile (h : Host) (p : (String × String) × Nat) : SectionM ReadfsAttrs Unit := do
  let (filename, filepath) := p.1
  let s ← get
  let fileHeader ← refAt s.self.fileHeaders p.2
  let file ← refAt s.self.files p.2
  let fileOffset ← CStruct.read file CStruct.getOffset
  CStruct.setField fileHeader "offset" (.int (fileOffset - s.offset))
  CStruct.setField fileHeader "file_size" (.int (← outcome (h.getsize filepath)))
  CStruct.setField fileHeader "name_len" (.int (filename.length + 1))
  CStruct.setField fileHeader "name" (.bytes (utf8 filename ++ [0]))
  CStruct.setField file "data" (.bytes (← outcome (h.readFile (.path filepath))))

/-- The sum of the sizes of some structures. -/
def structSizes (s : FlashSection ReadfsAttrs) : List CStructRef → Except PyError Int
  | [] => .ok 0
  | r :: refs =>
      match s.structAt r, structSizes s refs with
      | some c, .ok rest => .ok (c.size + rest)
      | none, _ => .error .attributeError
      | _, .error e => .error e

/-- The first part of `set_content`: the files of the properties. -/
def addPaths (h : Host) (content : ContentSection) : SectionM ReadfsAttrs Unit := do
  let files ← outcome (content.property "files")
  Program.forEach addFile (← outcome files.iterate)
  let dirs ← outcome (content.property "dirs")
  if dirs ≠ .none then
    Program.forEach (addDirectory h) (← outcome dirs.iterate)

/-- One header per file. -/
def createHeader (topStruct : Nat) (p : (String × String) × Nat) : SectionM ReadfsAttrs Unit := do
  let r ← CStruct.newOf (ReadfsFileHeader.fields (p.1.1.length + 1))
    ("file" ++ toString p.2 ++ " header") topStruct
  FlashSection.modifySelf fun a => { a with fileHeaders := a.fileHeaders ++ [r] }

/-- One content per file. -/
def createFile (h : Host) (topStruct : Nat) (p : (String × String) × Nat) :
    SectionM ReadfsAttrs Unit := do
  let size ← outcome (h.getsize p.1.2)
  let r ← CStruct.newOf (ReadfsFile.fields size) ("file" ++ toString p.2) topStruct
  FlashSection.modifySelf fun a => { a with files := a.files ++ [r] }

/-- The last part of `set_content`: the values, once all offsets are known. -/
def fill (h : Host) (header : CStructRef) (filePaths : List (String × String)) :
    SectionM ReadfsAttrs Unit := do
  let self := (← get).self
  let headerSize ← CStruct.read header (·.size)
  let headerSizes ← Program.reading fun s => structSizes s self.fileHeaders
  CStruct.setField header "fs_size" (.int (headerSize + headerSizes))
  CStruct.setField header "nb_files" (.int self.files.length)
  Program.forEach (fillFile h) filePaths.zipIdx

/-- `ReadfsSection.set_content`. -/
def setContent (h : Host) (offset : Int) (content : ContentSection) :
    SectionM ReadfsAttrs Unit := do
  FlashSection.setContent offset content
  addPaths h content
  let topStruct ← CStructParent.new "readfs"
  FlashSection.modifySelf fun a => { a with topStruct := some topStruct }
  let header ← CStruct.newOf ReadfsHeader.fields "header" topStruct
  FlashSection.modifySelf fun a => { a with header := some header }
  let filePaths := (← get).self.filePaths
  Program.forEach (createHeader topStruct) filePaths.zipIdx
  Program.forEach (createFile h topStruct) filePaths.zipIdx
  fill h header filePaths

/-- `ReadfsSection.is_empty`. -/
def isEmpty (s : FlashSection ReadfsAttrs) : Bool := s.self.filePaths.length = 0

end ReadfsSection

/-! ## HostFS -/

namespace HostfsSection

/-- `HostfsSection.__init__`. -/
def new (name : String) (sectionId : Nat) : FlashSection Unit :=
  FlashSection.new name sectionId ()
    |>.declareProperty "files" (.list []) "List of files to be included in the HostFS."

/-- `HostfsSection.set_content`. -/
def setContent (h : Host) (offset : Int) (content : ContentSection) : SectionM Unit Unit := do
  FlashSection.setContent offset content
  let files ← outcome (content.property "files")
  Program.forEach (fun file => outcome (h.copy file (h.getAbspath (basename file))))
    (← outcome files.iterate)

end HostfsSection

/-! ## LittleFS -/

/-- `LfsHeader`. -/
def LfsHeader.fields (size : PyNumber) : List FieldDecl := [.array "data" size]

/-- The attributes of `LfsSection`. -/
structure LfsAttrs where
  rootDir : PyValue := .none
  size : PyValue := .int 0
  imgPath : PyValue := .none
  extImg : Bool := false
  deriving DecidableEq

namespace LfsSection

/-- `LfsSection.__init__`. -/
def new (name : String) (sectionId : Nat) : FlashSection LfsAttrs :=
  (FlashSection.new name sectionId {}
    |>.declareProperty "root_dir" .none
      "Workstation directory content to be included in the LittleFS.")
    |>.declareProperty "img_path" .none "LittleFS image path"

/-- `open(self.img_path, 'rb')` and `read()`. -/
def readImage (h : Host) (imgPath : PyValue) : Except PyError Bytes := do
  h.readFile (← imgPath.openable)

/-- The `mklfs` command line. -/
def mklfsCommand (blockSize : Option Int) (size : PyNumber) (imgPath rootDir : PyValue) : String :=
  "mklfs -b " ++ (match blockSize with | some b => toString b | none => "None") ++
    " -r 16 -p 16 -s " ++ size.format ++ " -i " ++ imgPath.format ++ " -c " ++ rootDir.format

/-- The offset `set_content` gives the section: with `littlefs_align` it comes
from the argument, not from the offset the base class chose. -/
def realign (flash : FlashContext) (offset : Int) : SectionM LfsAttrs Unit :=
  match flash.attributes.get "littlefs_align" with
  | some align => FlashSection.setOffset (alignUp offset align)
  | none => pure ()

/-- The properties `set_content` takes; the result is the size. -/
def readProperties (flash : FlashContext) (content : ContentSection) :
    SectionM LfsAttrs PyNumber := do
  let rootDir ← outcome (content.property "root_dir")
  FlashSection.modifySelf fun a => { a with rootDir := rootDir }
  let size ← Program.reading (FlashSection.getProperty "size")
  FlashSection.modifySelf fun a => { a with size := size }
  let imgPath ← outcome (content.property "img_path")
  let s ← get
  FlashSection.modifySelf fun a =>
    if imgPath = .none then { a with imgPath := .str (flash.imagePath ++ "." ++ s.name) }
    else { a with imgPath := imgPath, extImg := true }
  let size ← outcome size.ofCommandLine
  let size := if size.eqInt (-1) then .int (flash.size - s.offset) else size
  FlashSection.modifySelf fun a => { a with size := size }
  outcome size.number

/-- The last part of `set_content`: the file system image. -/
def fill (h : Host) (flash : FlashContext) (header : CStructRef) (size : PyNumber) :
    SectionM LfsAttrs Unit := do
  let self := (← get).self
  if self.rootDir ≠ .none then
    let code ← outcome (h.run (mklfsCommand (flash.attributes.get "littlefs_block_size") size
      self.imgPath self.rootDir))
    if code ≠ 0 then throw (.runtimeError "Failed to create LFS image file")
    CStruct.setField header "data" (.bytes (← outcome (readImage h self.imgPath)))
  else if self.extImg then
    CStruct.setField header "data" (.bytes (← outcome (readImage h self.imgPath)))

/-- `LfsSection.set_content`. -/
def setContent (h : Host) (flash : FlashContext) (offset : Int) (content : ContentSection) :
    SectionM LfsAttrs Unit := do
  FlashSection.setContent offset content
  realign flash offset
  let topStruct ← CStructParent.new "readfs"
  let size ← readProperties flash content
  if 0 < size.toInt then
    let header ← CStruct.newOf (LfsHeader.fields size) "header" topStruct
    fill h flash header size

/-- `LfsSection.is_empty`. -/
def isEmpty (s : FlashSection LfsAttrs) : Bool := s.self.rootDir = .none && !s.self.extImg

end LfsSection

/-! ## Raw -/

/-- `RawHeader`. -/
def RawHeader.fields (size : PyNumber) : List FieldDecl := [.array "data" size]

namespace RawSection

/-- `RawSection.__init__`. -/
def new (name : String) (sectionId : Nat) : FlashSection Unit := FlashSection.new name sectionId ()

/-- `RawSection.set_content`. -/
def setContent (flash : FlashContext) (offset : Int) (content : ContentSection) :
    SectionM Unit Unit := do
  FlashSection.setContent offset content
  let topStruct ← CStructParent.new "readfs"
  let size ← Program.reading (FlashSection.getProperty "size")
  let size ← outcome size.ofCommandLine
  let s ← get
  let size := if size.eqInt (-1) then .int (flash.size - s.offset) else size
  -- an absent size is only noticed when the array of the header is allocated
  let header ← CStruct.new "header" topStruct
  let size ← outcome size.number
  Program.forEach (FieldDecl.declare header) (RawHeader.fields size)

end RawSection

/-! ## Any section -/

/-- A section of one of the classes. -/
inductive Section where
  | rom (s : FlashSection RomAttrs)
  | partitionTable (s : FlashSection PartitionAttrs)
  | readfs (s : FlashSection ReadfsAttrs)
  | hostfs (s : FlashSection Unit)
  | lfs (s : FlashSection LfsAttrs)
  | raw (s : FlashSection Unit)

/-- The section classes by name, as the flash registers them. -/
inductive SectionTemplate where
  | rom
  | partitionTable
  | readfs
  | hostfs
  | lfs
  | raw
  deriving DecidableEq, Repr

/-- `section_template(self, name, id)`. -/
def SectionTemplate.new (t : SectionTemplate) (name : String) (sectionId : Nat) : Section :=
  match t with
  | .rom => .rom (RomFlashSection.new name sectionId)
  | .partitionTable => .partitionTable (PartitionTableSection.new name sectionId)
  | .readfs => .readfs (ReadfsSection.new name sectionId)
  | .hostfs => .hostfs (HostfsSection.new name sectionId)
  | .lfs => .lfs (LfsSection.new name sectionId)
  | .raw => .raw (RawSection.new name sectionId)

/-- A section without the attributes of its class. -/
def FlashSection.base {σ : Type} (s : FlashSection σ) : FlashSection Unit where
  name := s.name
  sectionId := s.sectionId
  offset := s.offset
  currentOffset := s.currentOffset
  structs := s.structs
  properties := s.properties
  sizeAlign := s.sizeAlign
  startAlign := s.startAlign
  self := ()

namespace Section

/-- What every class inherits. -/
def base : Section → FlashSection Unit
  | .rom s => s.base
  | .partitionTable s => s.base
  | .readfs s => s.base
  | .hostfs s => s.base
  | .lfs s => s.base
  | .raw s => s.base

/-- `get_name`. -/
def name (s : Section) : String := s.base.name

/-- `get_id`. -/
def sectionId (s : Section) : Nat := s.base.sectionId

/-- `get_offset`. -/
def offset (s : Section) : Int := s.base.offset

/-- `get_size`. -/
def getSize (s : Section) : Except PyError Int := s.base.getSize

/-- `get_image`. -/
def getImage (s : Section) : Except PyError Bytes := s.base.getImage

/-- `get_partition_type`. -/
def partitionType : Section → Nat
  | .readfs _ => 0x1
  | .lfs _ => 0x1
  | .raw _ => 0x1
  | _ => 0xff

/-- `get_partition_subtype`. -/
def partitionSubtype : Section → Nat
  | .readfs _ => 0x81
  | .lfs _ => 0x82
  | .raw _ => 0x80
  | _ => 0xff

/-- What a partition table sees of a section. -/
def view (s : Section) : SectionView where
  name := s.name
  partitionType := s.partitionType
  partitionSubtype := s.partitionSubtype
  offset := s.offset
  size := s.getSize

/-- Run a method of a class on its section. -/
def within {σ : Type} (wrap : FlashSection σ → Section) (p : SectionM σ Unit)
    (s : FlashSection σ) : EStateM.Result PyError Section Unit :=
  match p s with
  | .ok a s' => .ok a (wrap s')
  | .error e s' => .error e (wrap s')

/-- `set_alignments`. -/
def setAlignments (startAlign sizeAlign : Option Int) : Section → Section
  | .rom s => .rom (s.setAlignments startAlign sizeAlign)
  | .partitionTable s => .partitionTable (s.setAlignments startAlign sizeAlign)
  | .readfs s => .readfs (s.setAlignments startAlign sizeAlign)
  | .hostfs s => .hostfs (s.setAlignments startAlign sizeAlign)
  | .lfs s => .lfs (s.setAlignments startAlign sizeAlign)
  | .raw s => .raw (s.setAlignments startAlign sizeAlign)

/-- `set_content`. -/
def setContent (h : Host) (flash : FlashContext) (offset : Int) (content : ContentSection) :
    Program PyError Section Unit
  | .rom s => within .rom (RomFlashSection.setContent h offset content) s
  | .partitionTable s => within .partitionTable (PartitionTableSection.setContent flash offset content) s
  | .readfs s => within .readfs (ReadfsSection.setContent h offset content) s
  | .hostfs s => within .hostfs (HostfsSection.setContent h offset content) s
  | .lfs s => within .lfs (LfsSection.setContent h flash offset content) s
  | .raw s => within .raw (RawSection.setContent flash offset content) s

/-- `finalize`, given `get_sections()`; only the partition table overrides it. -/
def finalize (allSections : List SectionView) : Program PyError Section Unit
  | .partitionTable s => within .partitionTable (PartitionTableSection.finalize allSections) s
  | s => .ok () s

end Section

end SoftHier.Gapy
