/-
  Gapy/Value.lean --- the dynamic values and the exceptions of the Python tools.
-/
import SoftHier.Foundation.Bytes
import SoftHier.Foundation.Dict
import SoftHier.Foundation.Program

set_option autoImplicit false

namespace SoftHier.Gapy

open SoftHier.Foundation

/-- The exceptions the flash tools raise.  `runtimeError` carries the text the
tools raise it with, `osError` the text of the operating system; the texts of
the others are the interpreter's own. -/
inductive PyError where
  | runtimeError (message : String)
  | osError (message : String)
  | typeError
  | valueError
  | attributeError
  | indexError
  | keyError
  | structError
  deriving DecidableEq, Repr

/-- A property value: it comes from a JSON content, from the command line
(always a text) or from a declaration. -/
inductive PyValue where
  | none
  | bool (b : Bool)
  | int (i : Int)
  | str (s : String)
  | list (items : List String)
  deriving DecidableEq, Repr, Inhabited

/-- What counts as a number of class `int`: a boolean does, but prints as its name. -/
inductive PyNumber where
  | int (i : Int)
  | bool (b : Bool)
  deriving DecidableEq, Repr

namespace PyNumber

/-- The number in arithmetic. -/
def toInt : PyNumber → Int
  | .int i => i
  | .bool b => if b then 1 else 0

/-- `f'{x}'`. -/
def format : PyNumber → String
  | .int i => toString i
  | .bool b => if b then "True" else "False"

@[simp] theorem toInt_int (i : Int) : (PyNumber.int i).toInt = i := rfl

end PyNumber

/-- What `open` takes: a path, or the number of a file that is already open. -/
inductive PyFile where
  | path (path : String)
  | descriptor (i : Int)
  deriving DecidableEq, Repr

/-- The file as an error names it. -/
def PyFile.text : PyFile → String
  | .path name => name
  | .descriptor i => toString i

/-! ## Numbers as text -/

/-- The blanks `int` strips. -/
def isBlank (c : Char) : Bool :=
  c = ' ' || c = '\t' || c = '\n' || c = '\r' || c = '\x0b' || c = '\x0c'

/-- The value of a digit in bases up to 16. -/
def digitOf? (base : Nat) (c : Char) : Option Nat :=
  let d :=
    if '0' ≤ c ∧ c ≤ '9' then c.toNat - '0'.toNat
    else if 'a' ≤ c ∧ c ≤ 'f' then c.toNat - 'a'.toNat + 10
    else if 'A' ≤ c ∧ c ≤ 'F' then c.toNat - 'A'.toNat + 10
    else base
  if d < base then some d else none

/-- Digits after the value `acc`, with single underscores between them. -/
def readDigits (base acc : Nat) : List Char → Option Nat
  | [] => some acc
  | '_' :: c :: cs =>
      match digitOf? base c with
      | some d => readDigits base (base * acc + d) cs
      | none => none
  | c :: cs =>
      match digitOf? base c with
      | some d => readDigits base (base * acc + d) cs
      | none => none

/-- A non-empty run of digits. -/
def readNumber (base : Nat) : List Char → Option Nat
  | [] => none
  | c :: cs =>
      match digitOf? base c with
      | some d => readDigits base d cs
      | none => none

/-- The digits after a base prefix, which one underscore may follow. -/
def readPrefixed (base : Nat) : List Char → Option Nat
  | '_' :: cs => readNumber base cs
  | cs => readNumber base cs

/-- An unsigned literal: the prefix gives the base, and a decimal literal has no
leading zero unless it is zero. -/
def readLiteral : List Char → Option Nat
  | '0' :: 'x' :: cs => readPrefixed 16 cs
  | '0' :: 'X' :: cs => readPrefixed 16 cs
  | '0' :: 'o' :: cs => readPrefixed 8 cs
  | '0' :: 'O' :: cs => readPrefixed 8 cs
  | '0' :: 'b' :: cs => readPrefixed 2 cs
  | '0' :: 'B' :: cs => readPrefixed 2 cs
  | '0' :: cs =>
      match readNumber 10 ('0' :: cs) with
      | some 0 => some 0
      | _ => none
  | cs => readNumber 10 cs

/-- `int(text, 0)`, on ASCII texts. -/
def pyInt (text : String) : Except PyError Int :=
  let stripped := ((text.toList.dropWhile isBlank).reverse.dropWhile isBlank).reverse
  let magnitude : Option Int :=
    match stripped with
    | '-' :: cs => (readLiteral cs).map fun n => -(n : Int)
    | '+' :: cs => (readLiteral cs).map fun n => (n : Int)
    | cs => (readLiteral cs).map fun n => (n : Int)
  match magnitude with
  | some i => .ok i
  | none => .error .valueError

/-- `f'{x:x}'`. -/
def pyHex (x : Int) : String :=
  let digits := String.ofList (Nat.toDigits 16 x.natAbs)
  if x < 0 then "-" ++ digits else digits

/-- `text.encode('utf-8')`. -/
def utf8 (text : String) : Bytes := text.toList.flatMap String.utf8EncodeChar

namespace PyValue

/-- `if isinstance(v, str): v = int(v, 0)`. -/
def ofCommandLine : PyValue → Except PyError PyValue
  | .str s =>
      match pyInt s with
      | .ok i => .ok (.int i)
      | .error e => .error e
  | v => .ok v

/-- The value as an operand of integer arithmetic: a boolean counts as a number,
anything else raises. -/
def operand : PyValue → Except PyError Int
  | .int i => .ok i
  | .bool b => .ok (if b then 1 else 0)
  | _ => .error .typeError

/-- The value as a number. -/
def number : PyValue → Except PyError PyNumber
  | .int i => .ok (.int i)
  | .bool b => .ok (.bool b)
  | _ => .error .typeError

theorem operand_eq_map (v : PyValue) : v.operand = v.number.map PyNumber.toInt := by
  cases v <;> rfl

/-- The value as the first argument of `open`. -/
def openable : PyValue → Except PyError PyFile
  | .str s => .ok (.path s)
  | .int i => .ok (.descriptor i)
  | .bool b => .ok (.descriptor (if b then 1 else 0))
  | _ => .error .typeError

/-- `v == i`. -/
def eqInt (v : PyValue) (i : Int) : Bool :=
  match v.operand with
  | .ok j => j = i
  | .error _ => false

/-- `bool(v)`. -/
def truthy : PyValue → Bool
  | .none => false
  | .bool b => b
  | .int i => i ≠ 0
  | .str s => s ≠ ""
  | .list items => items ≠ []

/-- `f'{v}'`. -/
def format : PyValue → String
  | .none => "None"
  | .bool b => if b then "True" else "False"
  | .int i => toString i
  | .str s => s
  | .list items => "[" ++ ", ".intercalate (items.map fun s => "'" ++ s ++ "'") ++ "]"

end PyValue

end SoftHier.Gapy
