/-
  Gapy/Target.lean --- a target, its properties and its flashes.

  Source: `Property` and `Target` of `gapy/bin/gapylib/target.py`, and the part of
  the executable `gapy/bin/gapy` that constructs the target.  Target properties
  are declared one by one; the first declaration makes the target parse the
  command line once more.  `parse_args` hands flash properties and flash contents
  to the flashes.

  Left out: the commands, what only the dump of the properties shows, the
  signature options, and `--flash-property-override`, which turns attributes of a
  flash into texts.
-/
import SoftHier.Gapy.CommandLine
import SoftHier.Gapy.Flash

set_option autoImplicit false

namespace SoftHier.Gapy

open SoftHier.Foundation Program

/-! ## Target properties -/

/-- The `cast` of a property; any other type casts nothing. -/
inductive PropertyCast where
  | int
  | bool
  | other
  deriving DecidableEq, Repr

/-- `Property`. -/
structure Property where
  name : String
  path : Option String
  value : PyValue
  allowedValues : Option (List String)
  cast : Option PropertyCast
  deriving DecidableEq, Repr

/-- `full_name`. -/
def Property.fullName (p : Property) : String :=
  match p.path with
  | some path => path ++ "/" ++ p.name
  | none => p.name

/-- The characters `str.strip` strips. -/
def isSpace (c : Char) : Bool :=
  let n := c.toNat
  (9 ≤ n && n ≤ 13) || (28 ≤ n && n ≤ 32) || n = 0x85 || n = 0xa0 || n = 0x1680 ||
    (0x2000 ≤ n && n ≤ 0x200a) || n = 0x2028 || n = 0x2029 || n = 0x202f || n = 0x205f ||
    n = 0x3000

/-- `text.strip()`. -/
def strip (text : String) : String :=
  String.ofList ((text.toList.dropWhile isSpace).reverse.dropWhile isSpace).reverse

/-- The texts a `bool` property takes as true; no character outside ASCII has a
lower case that occurs in them. -/
def isTrueText (text : String) : Bool :=
  ["true", "1", "yes", "y"].contains (strip text).toLower

namespace Property

/-- What `declare_target_property` makes of an argument. -/
def castArg (p : Property) (arg : String) : Except PyError PyValue :=
  match p.allowedValues with
  | some allowed =>
    if arg ∈ allowed then cast
    else .error (.runtimeError ("Trying to set target property to invalid value " ++ "(name: " ++
      p.fullName ++ ", value: " ++ arg ++ ", " ++ "allowed_values: " ++ ", ".intercalate allowed ++
      ")"))
  | none => cast
where
  cast : Except PyError PyValue :=
    match p.cast with
    | some .int => (pyInt arg).map .int
    | some .bool => .ok (.bool (isTrueText arg))
    | _ => .ok (.str arg)

end Property

/-! ## The target -/

/-- `Target`. -/
structure Target where
  parser : ArgumentParser
  flashes : Dict String Flash := Dict.empty
  targetProperties : Dict String Property := Dict.empty
  /-- The assignments of the command line. -/
  argsProperties : Dict String String := Dict.empty
  targetPropertiesParsed : Bool := false

/-- A method of a target. -/
abbrev TargetM (α : Type) : Type := Program PyError Target α

namespace Target

/-- The inner loop of `parse_target_properties`: one `name=value`. -/
def assignProperty (desc : String) : TargetM Unit :=
  match rsplitText '=' desc with
  | none =>
    throw (.runtimeError ("Invalid target property (must be of form " ++
      "<name>=<value>: " ++ desc))
  | some (name, value) =>
    modify fun t => { t with argsProperties := t.argsProperties.set name value }

/-- `parse_target_properties`. -/
def parseTargetProperties : TargetM Unit := do
  let t ← get
  if t.targetPropertiesParsed then pure ()
  else do
    set { t with targetPropertiesParsed := true }
    forEach (fun list => forEach assignProperty (splitText ',' list))
      (t.parser.items t.parser.parseKnownArgs)

/-- `declare_target_property`. -/
def declareTargetProperty (descriptor : Property) : TargetM Unit := do
  parseTargetProperties
  let t ← get
  if (t.targetProperties.get descriptor.fullName).isSome then
    throw (.runtimeError ("Property " ++ descriptor.fullName ++ " already declared"))
  else do
    modify fun t =>
      { t with targetProperties := t.targetProperties.set descriptor.fullName descriptor }
    match t.argsProperties.get descriptor.fullName with
    | none => pure ()
    | some arg =>
      let value ← reading fun _ => descriptor.castArg arg
      modify fun t => { t with
        targetProperties :=
          t.targetProperties.set descriptor.fullName { descriptor with value := value } }

/-- `check_args`. -/
def checkArgs : TargetM Unit := do
  let t ← get
  forEach (fun name =>
      match t.targetProperties.get name with
      | none => throw (.runtimeError ("Trying to set undefined target property: " ++ name))
      | some _ => pure ())
    t.argsProperties.keys

/-- `get_target_property`, without a path. -/
def getTargetProperty (name : String) : TargetM PyValue :=
  reading fun t =>
    match t.targetProperties.get name with
    | none => .error (.runtimeError ("Trying to get undefined property: " ++ name))
    | some p => .ok p.value

/-- The executable up to the construction of the target: the name of the target
module and the parser the target is given. -/
def ofCommandLine (target : String) (parser : ArgumentParser) :
    Except PyError (String × ArgumentParser) :=
  let targetProperties := parser.parseKnownArgs
  if ':' ∈ target.toList then
    match splitText ':' target with
    | [targetName, inline] => .ok (targetName, parser.append inline targetProperties)
    | _ => .error .valueError
  else .ok (target, parser)

/-- `Target.__init__`. -/
def new (parser : ArgumentParser) : Target := { parser := parser }

/-! ## Flash properties and contents -/

/-- The options of a command line that `parse_args` handles. -/
structure Args where
  flashProperties : List String
  flashContents : List String
  multiFlashContent : List String

/-- What `json.load` makes of the files the options name: a content, or the
`flashes` of a layout. -/
structure ContentFiles where
  content : String → Except PyError FlashContent
  layout : String → Except PyError (Option (List (Option String × FlashContent)))

/-- The properties of a command line, by flash and section. -/
abbrev FlashProperties : Type := Dict String (Dict String (List (String × String)))

/-- One round of the first loop of `__extract_flash_properties`. -/
def groupProperty (properties : FlashProperties) (desc : String) :
    Except PyError FlashProperties :=
  let invalid : PyError := .runtimeError ("Invalid flash property (must be of form " ++
    "<value>@<flash:section:property>): " ++ desc)
  match rsplitText '@' desc with
  | none => .error invalid
  | some (value, path) =>
    match splitText ':' path with
    | [flash, sectionName, propertyName] =>
      let flash := if flash = "target/chip/soc/mram" then "mram" else flash
      let sections := (properties.get flash).getD Dict.empty
      let items := (sections.get sectionName).getD []
      .ok (properties.set flash (sections.set sectionName (items ++ [(propertyName, value)])))
    | _ => .error invalid

/-- One round of the second loop: `Flash.set_properties`. -/
def propagate (p : String × Dict String (List (String × String))) : TargetM Unit := do
  let t ← get
  match t.flashes.get p.1 with
  | none => throw (.runtimeError ("Invalid flash property, flash is unknown: " ++ p.1))
  | some f =>
    set { t with flashes := t.flashes.set p.1 { f with properties := p.2.entries } }

/-- `__extract_flash_properties`. -/
def extractFlashProperties (args : List String) : TargetM Unit := do
  let properties ← reading fun _ => args.foldlM groupProperty Dict.empty
  forEach propagate properties.entries

/-- `Flash.set_content` of the flash with a name. -/
def setContent (unknown : PyError) (name : String) (content : FlashContent) : TargetM Unit := do
  let t ← get
  match t.flashes.get name with
  | none => throw unknown
  | some f =>
    set { t with flashes := t.flashes.set name { f with contentDict := some content } }

/-- The error of the operating system inside the error of the tools. -/
def openError {α : Type} (text : String) : Except PyError α → Except PyError α
  | .error (.osError message) => .error (.runtimeError (text ++ message))
  | result => result

/-- One `<content path>@<flash name>`. -/
def setFlashContent (files : ContentFiles) (content : String) : TargetM Unit :=
  match rsplitText '@' content with
  | none =>
    throw (.runtimeError ("Invalid flash content (must be of form " ++
      "<content path>@<flash name>): " ++ content))
  | some (contentPath, flashName) => do
    let unknown : PyError := .runtimeError ("Invalid flash content, flash is unknown: " ++ content)
    let t ← get
    if (t.flashes.get flashName).isNone then throw unknown
    else do
      let dict ← reading fun _ =>
        openError ("Invalid flash content, got error while opening" ++ "content file: ")
          (files.content contentPath)
      setContent unknown flashName dict

/-- The loop that loads the layouts; the last one stays. -/
def loadLayouts (files : ContentFiles) :
    Option (List (Option String × FlashContent)) → List String →
      Except PyError (Option (List (Option String × FlashContent)))
  | flashes, [] => .ok flashes
  | _, path :: paths => do
    let flashes ←
      openError ("Invalid flash content, got error while opening" ++ " content file: ")
        (files.layout path)
    loadLayouts files flashes paths

/-- One entry of the `flashes` of a layout. -/
def setLayoutContent (entry : Option String × FlashContent) : TargetM Unit :=
  match entry.1 with
  -- the text of the error cannot be put together without a name
  | none => throw .typeError
  | some name => setContent (.runtimeError ("Invalid flash name" ++ name)) name entry.2

/-- The part of `parse_args` about contents. -/
def setContents (files : ContentFiles) (args : Args) : TargetM Unit := do
  if args.flashContents ≠ [] then
    if args.multiFlashContent ≠ [] then
      throw (.runtimeError "Trying to set both a multi and single flash layout")
    else forEach (setFlashContent files) args.flashContents
  else if args.multiFlashContent ≠ [] then
    let flashes ← reading fun _ => loadLayouts files none args.multiFlashContent
    match flashes with
    | none => throw (.runtimeError "No flashes dictionary in layout file")
    | some flashes => forEach setLayoutContent flashes

/-- `parse_args`. -/
def parseArgs (files : ContentFiles) (args : Args) : TargetM Unit := do
  if args.flashProperties ≠ [] then extractFlashProperties args.flashProperties
  setContents files args

end Target

end SoftHier.Gapy
