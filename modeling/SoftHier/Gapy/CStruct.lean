/-
  Gapy/CStruct.lean --- packed structures.

  Source: `CStructField`, `CStruct` and `CStructParent` of
  `gapy/bin/gapylib/utils.py`.  A structure collects fields in declaration
  order; each declaration also appends one item to the format the structure is
  packed with.  The `struct.Struct` object that `pack` caches is left out: the
  format is final before the first `pack`.
-/
import SoftHier.Gapy.Value

set_option autoImplicit false

namespace SoftHier.Gapy

open SoftHier.Foundation

/-! ## Formats -/

/-- The scalar formats of `struct` the tools use. -/
inductive ScalarFormat where
  | B
  | H
  | I
  | Q
  deriving DecidableEq, Repr

/-- `struct.calcsize(format)`. -/
def ScalarFormat.size : ScalarFormat → Nat
  | .B => 1
  | .H => 2
  | .I => 4
  | .Q => 8

/-- One item of a format: a scalar letter, or `'{size}s'`, which is `'Trues'` or
`'Falses'` for a boolean size. -/
inductive FormatItem where
  | scalar (format : ScalarFormat)
  | bytes (size : PyNumber)
  deriving DecidableEq, Repr

/-- The number of bytes an item takes. -/
def FormatItem.size : FormatItem → Int
  | .scalar format => format.size
  | .bytes size => size.toInt

/-- The value of a field. -/
inductive FieldValue where
  | int (v : Int)
  | bytes (b : Bytes)
  deriving DecidableEq, Repr

/-- A byte string cut or zero-padded to a length. -/
def fitBytes (n : Nat) (b : Bytes) : Bytes := b.take n ++ List.replicate (n - b.length) 0

/-- The item `'{size}s'`.  A size that is negative or a boolean raises; a byte string
that is too long is cut. -/
def packBytes : PyNumber → Bytes → Except PyError Bytes
  | .int size, b => if 0 ≤ size then .ok (fitBytes size.toNat b) else .error .structError
  | .bool _, _ => .error .structError

/-- One item of `struct.pack`, little-endian.  A scalar out of range and a value of
the wrong kind raise. -/
def packItem : FormatItem → FieldValue → Except PyError Bytes
  | .scalar format, .int v =>
      if 0 ≤ v ∧ v < 256 ^ format.size then .ok (leBytes format.size v.toNat)
      else .error .structError
  | .bytes size, .bytes b => packBytes size b
  | _, _ => .error .structError

/-- Pack things one after another. -/
def packAll {α : Type} (pack : α → Except PyError Bytes) : List α → Except PyError Bytes
  | [] => .ok []
  | x :: xs =>
      match pack x with
      | .error e => .error e
      | .ok b =>
          match packAll pack xs with
          | .error e => .error e
          | .ok rest => .ok (b ++ rest)

/-! ## Structures -/

/-- A field; `kind` is the class of the field, `CStructScalar` or
`CStructArray`. -/
structure CStructField where
  kind : FormatItem
  size : Int
  value : FieldValue
  offset : Int
  deriving DecidableEq

/-- A structure. -/
structure CStruct where
  name : String
  fields : Dict String CStructField := Dict.empty
  format : List FormatItem := []
  size : Int := 0

/-- `CStruct.get_offset`: the offset of the first field, 0 without fields. -/
def CStruct.getOffset (c : CStruct) : Int :=
  match c.fields.values with
  | [] => 0
  | f :: _ => f.offset

/-- `CStruct.pack`. -/
def CStruct.pack (c : CStruct) : Except PyError Bytes :=
  let values := c.fields.values.map (·.value)
  if c.format.length = values.length then
    packAll (fun p => packItem p.1 p.2) (c.format.zip values)
  else .error .structError

/-- A sub-section: several structures one after the other. -/
structure CStructParent where
  name : String
  structs : List CStruct := []

/-- `CStructParent.pack`. -/
def CStructParent.pack (p : CStructParent) : Except PyError Bytes := packAll CStruct.pack p.structs

/-- A reference to a structure: the sub-section that holds it and its place
there. -/
structure CStructRef where
  parent : Nat
  index : Nat
  deriving DecidableEq, Repr

/-! ## Tables -/

/-- The lines of 32 bytes in which `CStructArray.dump_table` shows a value, two
digits a byte and a blank after every second byte of a line. -/
def dumpBytes (b : Bytes) : String :=
  let hex (x : UInt8) : String := (if x < 16 then "0" else "") ++ pyHex x.toNat
  let line (l : Bytes) : String :=
    String.join (l.zipIdx.map fun p => hex p.1 ++ (if p.2 % 2 = 1 then " " else "")) ++ "\n"
  String.join ((b.take (2 ^ 10)).toChunks 32 |>.map line)

/-- A row of a structure's table: offset, name, size, value. -/
structure FieldRow where
  offset : String
  name : String
  size : String
  value : String
  deriving DecidableEq, Repr

/-- `CStructScalar.dump_table` and `CStructArray.dump_table`: the rows added. -/
def CStructField.dumpTable (f : CStructField) (name : String) (level : Int) :
    Except PyError (List FieldRow) :=
  let row (value : String) : FieldRow := ⟨"0x" ++ pyHex f.offset, name, "0x" ++ pyHex f.size, value⟩
  match f.kind, f.value with
  | .scalar _, .int v => .ok (if 0 ≤ level then [row ("0x" ++ pyHex v)] else [])
  | .scalar _, .bytes _ => if 0 ≤ level then .error .typeError else .ok []
  | .bytes _, .bytes b => .ok [row (if 0 < level then dumpBytes b else "-")]
  | .bytes _, .int _ => if 0 < level then .error .typeError else .ok [row "-"]

/-- `CStruct.dump_table`: the rows of the table. -/
def CStruct.dumpTable (c : CStruct) (level : Int) : Except PyError (List FieldRow) :=
  Except.map List.flatten
    (c.fields.entries.mapM fun (p : String × CStructField) => p.2.dumpTable p.1 level)

/-- A row of a sub-section's table; the content is shown from level 1 on. -/
structure StructRow where
  offset : String
  size : String
  name : String
  content : Option (List FieldRow)
  deriving DecidableEq, Repr

/-- `CStructParent.dump_table`: the rows of the table. -/
def CStructParent.dumpTable (p : CStructParent) (level : Int) : Except PyError (List StructRow) :=
  p.structs.mapM fun c =>
    let row (content : Option (List FieldRow)) : StructRow :=
      ⟨"0x" ++ pyHex c.getOffset, "0x" ++ pyHex c.size, c.name, content⟩
    if 0 < level then (c.dumpTable (level - 1)).map fun rows => row (some rows)
    else .ok (row none)

end SoftHier.Gapy
