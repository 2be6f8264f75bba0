/-
  Gapy/FlashSection.lean --- the class every flash section inherits from.

  Source: `FlashSection` of `gapy/bin/gapylib/flash.py`, and the methods of
  `CStruct` that allocate their bytes in the section.  A section class adds its
  own attributes, which are the parameter `σ`.  Methods that change the section
  are programs over its state: what they did before an exception stays.
-/
import SoftHier.Foundation.Bitwise
import SoftHier.Gapy.CStruct
import SoftHier.Gapy.Elf

set_option autoImplicit false

namespace SoftHier.Gapy

open SoftHier.Foundation

/-! ## Contents and surroundings -/

/-- An entry of the `sections` list of a flash content. -/
structure ContentSection where
  name : Option String
  template : Option String
  properties : Option (Dict String PyValue)

/-- A flash content. -/
structure FlashContent where
  sections : Option (List ContentSection)

/-- What the tools take from the machine they run on.  The files do not change
while a flash is described. -/
structure Host where
  /-- `json.dumps(section, indent=4)`. -/
  jsonDumps : ContentSection → String
  /-- `open(file, 'rb')` and `ELFFile`. -/
  openElf : PyFile → Except PyError ElfFile
  /-- `os.path.getsize(path)`. -/
  getsize : String → Except PyError Nat
  /-- `open(file, 'rb')` and `read()`. -/
  readFile : PyFile → Except PyError Bytes
  /-- `os.listdir(path)`. -/
  listdir : String → Except PyError (List String)
  /-- `shutil.copy(source, destination)`. -/
  copy : String → String → Except PyError Unit
  /-- `subprocess.run(shlex.split(command))`: the return code. -/
  run : String → Except PyError Int
  /-- `Target.get_abspath(path)`. -/
  getAbspath : String → String

/-- What a section sees of its flash while its content is set. -/
structure FlashContext where
  /-- `get_size()`. -/
  size : Int
  /-- `get_image_path()`. -/
  imagePath : String
  /-- `get_flash_attribute`. -/
  attributes : Dict String Int
  /-- The names of `get_sections()`. -/
  sectionNames : List String

/-! ## The section -/

/-- `FlashSectionProperty`. -/
structure FlashSectionProperty where
  name : String
  value : PyValue
  description : String
  deriving DecidableEq

/-- A flash section with the attributes `σ` of its class. -/
structure FlashSection (σ : Type) where
  name : String
  sectionId : Nat
  offset : Int := 0
  currentOffset : Int := 0
  structs : List CStructParent := []
  properties : Dict String FlashSectionProperty := Dict.empty
  sizeAlign : Option Int := none
  startAlign : Option Int := none
  self : σ

/-- A method of a section. -/
abbrev SectionM (σ α : Type) : Type := Program PyError (FlashSection σ) α

namespace FlashSection

variable {σ : Type}

/-- `declare_property`.  A class declares each of its properties once. -/
def declareProperty (name : String) (value : PyValue) (description : String)
    (s : FlashSection σ) : FlashSection σ :=
  { s with properties := s.properties.set name ⟨name, value, description⟩ }

/-- `FlashSection.__init__`. -/
def new (name : String) (sectionId : Nat) (self : σ) : FlashSection σ :=
  declareProperty "size" .none "Force a certain size for section."
    { name := name, sectionId := sectionId, self := self }

/-- `get_property`. -/
def getProperty (name : String) (s : FlashSection σ) : Except PyError PyValue :=
  match s.properties.get name with
  | none => .error (.runtimeError ("Trying to get undefined property: " ++ name))
  | some p => .ok p.value

/-- `get_size`.  A size that is forced and not rounded is returned as it was given. -/
def getSizeNumber (s : FlashSection σ) : Except PyError PyNumber := do
  let size := s.currentOffset - s.offset
  let sizeProperty ← (← s.getProperty "size").ofCommandLine
  let size ←
    if sizeProperty = .none ∨ sizeProperty.eqInt (-1) then
      pure (PyNumber.int size)
    else do
      let requested ← sizeProperty.number
      -- the size alignment decides whether to round, the start alignment how
      let aligned ←
        match s.sizeAlign, s.startAlign with
        | none, _ => pure requested.toInt
        | some _, some startAlign => pure (alignUp requested.toInt startAlign)
        | some _, none => throw PyError.typeError
      if size > requested.toInt ∨ aligned ≠ requested.toInt then
        throw (PyError.runtimeError ("Section size (" ++ toString size ++ ")is larger" ++
          "                                   than requested in layout " ++ requested.format))
      pure requested
  match s.sizeAlign with
  | some sizeAlign => pure (.int (alignUp size.toInt sizeAlign))
  | none => pure size

/-- What `get_size` returns, as it counts in arithmetic. -/
def getSize (s : FlashSection σ) : Except PyError Int := s.getSizeNumber.map PyNumber.toInt

/-- `get_image`. -/
def getImage (s : FlashSection σ) : Except PyError Bytes := do
  let result ← packAll CStructParent.pack s.structs
  let size ← s.getSizeNumber
  if (result.length : Int) < size.toInt then
    pure (result ++ List.replicate (size.toInt - result.length).toNat 0)
  else if (result.length : Int) > size.toInt then
    throw (PyError.runtimeError ("Section image is too big (expected" ++ size.format ++ ", got " ++
      toString result.length ++ ")"))
  else pure result

/-- `dump_table`. -/
def dumpTable (s : FlashSection σ) (level : Int) : Except PyError (List (List StructRow)) :=
  s.structs.mapM fun p => p.dumpTable level

/-- `dump_properties`: the rows of the table. -/
def dumpProperties (s : FlashSection σ) : List (String × PyValue × String) :=
  s.properties.values.map fun p => (p.name, p.value, p.description)

/-- `set_alignments`. -/
def setAlignments (startAlign sizeAlign : Option Int) (s : FlashSection σ) : FlashSection σ :=
  { s with sizeAlign := sizeAlign, startAlign := startAlign }

/-! ## Methods that change the section -/

/-- Set attributes of the class. -/
def modifySelf (f : σ → σ) : SectionM σ Unit := modify fun s => { s with self := f s.self }

/-- `set_offset`. -/
def setOffset (offset : Int) : SectionM σ Unit :=
  modify fun s => { s with offset := offset, currentOffset := offset }

/-- `alloc_offset`. -/
def allocOffset (size : Int) : SectionM σ Int := do
  let s ← get
  set { s with currentOffset := s.currentOffset + size }
  pure s.currentOffset

/-- `align_offset`. -/
def alignOffset (alignment : Int) : SectionM σ Int := do
  let s ← get
  let alignedOffset := alignUp s.currentOffset alignment
  set { s with currentOffset := alignedOffset }
  pure (alignedOffset - s.currentOffset)

/-- The property loop of `set_content`. -/
def setProperty (entry : String × PyValue) : SectionM σ Unit := do
  let s ← get
  match s.properties.get entry.1 with
  | none => throw (.runtimeError ("Trying to set undefined property: " ++ entry.1))
  | some p => set { s with properties := s.properties.set entry.1 { p with value := entry.2 } }

/-- `FlashSection.set_content`. -/
def setContent (offset : Int) (content : ContentSection) : SectionM σ Unit := do
  match content.properties with
  | none => pure ()
  | some properties => Program.forEach setProperty properties.entries
  let s ← get
  match s.startAlign with
  | some startAlign => setOffset (alignUp offset startAlign)
  | none => setOffset offset

end FlashSection

/-! ## Structures inside a section -/

section Structures

variable {σ : Type}

/-- `CStructParent(name, parent=section)`. -/
def CStructParent.new (name : String) : SectionM σ Nat := do
  let s ← get
  set { s with structs := s.structs ++ [({ name := name } : CStructParent)] }
  pure s.structs.length

/-- The structure behind a reference. -/
def FlashSection.structAt (s : FlashSection σ) (r : CStructRef) : Option CStruct :=
  s.structs[r.parent]?.bind fun p => p.structs[r.index]?

/-- Change the structure behind a reference. -/
def CStruct.update (r : CStructRef) (f : CStruct → CStruct) : SectionM σ Unit :=
  modify fun s => { s with
    structs := s.structs.modify r.parent fun p => { p with structs := p.structs.modify r.index f } }

/-- `CStruct(name, parent)`. -/
def CStruct.new (name : String) (parent : Nat) : SectionM σ CStructRef := do
  let s ← get
  let index := ((s.structs[parent]?.map fun p => p.structs.length).getD 0)
  set { s with
    structs := s.structs.modify parent fun p =>
      { p with structs := p.structs ++ [({ name := name } : CStruct)] } }
  pure ⟨parent, index⟩

/-- Append a field: its entry, its format item and its size. -/
def CStruct.append (name : String) (f : CStructField) (c : CStruct) : CStruct :=
  { c with fields := c.fields.set name f, format := c.format ++ [f.kind], size := c.size + f.size }

/-- `CStruct.add_padding`. -/
def CStruct.addPadding (r : CStructRef) (name : String) (align : Int) : SectionM σ Unit := do
  let offset := (← get).currentOffset
  let size ← FlashSection.alignOffset align
  CStruct.update r (CStruct.append name
    { kind := .bytes (.int size), size := size, value := .bytes [], offset := offset })

/-- `CStruct.add_field`. -/
def CStruct.addField (r : CStructRef) (name : String) (format : ScalarFormat) :
    SectionM σ Unit := do
  let offset ← FlashSection.allocOffset format.size
  CStruct.update r (CStruct.append name
    { kind := .scalar format, size := format.size, value := .int 0, offset := offset })

/-- `CStruct.add_field_array`. -/
def CStruct.addFieldArray (r : CStructRef) (name : String) (size : PyNumber) :
    SectionM σ Unit := do
  let offset ← FlashSection.allocOffset size.toInt
  CStruct.update r (CStruct.append name
    { kind := .bytes size, size := size.toInt, value := .bytes [], offset := offset })

/-- `CStruct.set_field`. -/
def CStruct.setField (r : CStructRef) (name : String) (value : FieldValue) :
    SectionM σ Unit := do
  let s ← get
  match (s.structAt r).bind fun c => c.fields.get name with
  | none => throw PyError.attributeError
  | some f => CStruct.update r fun c => { c with fields := c.fields.set name { f with value := value } }

/-- `CStruct.get_field(name).get_offset()`. -/
def CStruct.fieldOffset (r : CStructRef) (name : String) : SectionM σ Int :=
  Program.reading fun s =>
    match (s.structAt r).bind fun c => c.fields.get name with
    | none => .error .attributeError
    | some f => .ok f.offset

/-- Read something off the structure behind a reference. -/
def CStruct.read {α : Type} (r : CStructRef) (f : CStruct → α) : SectionM σ α :=
  Program.reading fun s =>
    match s.structAt r with
    | none => .error .attributeError
    | some c => .ok (f c)

/-- `refs[i]` on a list of references. -/
def refAt (refs : List CStructRef) (i : Nat) : SectionM σ CStructRef :=
  match refs[i]? with
  | some r => pure r
  | none => throw PyError.indexError

/-- A field declaration of a structure class. -/
inductive FieldDecl where
  | field (name : String) (format : ScalarFormat)
  | array (name : String) (size : PyNumber)
  deriving DecidableEq, Repr

/-- Declare one field. -/
def FieldDecl.declare (r : CStructRef) : FieldDecl → SectionM σ Unit
  | .field name format => CStruct.addField r name format
  | .array name size => CStruct.addFieldArray r name size

/-- The constructor of a structure class: create the structure, declare its
fields in order. -/
def CStruct.newOf (fields : List FieldDecl) (name : String) (parent : Nat) :
    SectionM σ CStructRef := do
  let r ← CStruct.new name parent
  Program.forEach (FieldDecl.declare r) fields
  pure r

end Structures

end SoftHier.Gapy
