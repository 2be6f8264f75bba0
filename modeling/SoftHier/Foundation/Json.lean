/-
  Foundation/Json.lean --- texts of JSON: the indented form a program dumps, with
  everything but printable ASCII escaped, and the reader that takes it back.
-/
import SoftHier.Foundation.Numeral

set_option autoImplicit false

namespace SoftHier.Foundation

/-- A JSON value without fractions. -/
inductive Json where
  | null
  | bool (b : Bool)
  | int (i : Int)
  | str (text : String)
  | arr (items : List Json)
  | obj (members : List (String × Json))

namespace Json

/-! ## Characters of strings -/

/-- The digits of `\uXXXX`. -/
def unitDigits (n : Nat) : Text :=
  [Nat.digitChar (n / 4096), Nat.digitChar (n / 256 % 16), Nat.digitChar (n / 16 % 16),
    Nat.digitChar (n % 16)]

/-- What stands for a character: itself, a short escape, or one or two units of
UTF-16. -/
def escape (c : Char) : Text :=
  if c = '\x22' then ['\\', '\x22']
  else if c = '\\' then ['\\', '\\']
  else if c = '\n' then ['\\', 'n']
  else if c = '\r' then ['\\', 'r']
  else if c = '\t' then ['\\', 't']
  else if c = '\x0c' then ['\\', 'f']
  else if c = '\x08' then ['\\', 'b']
  else if 32 ≤ c.toNat ∧ c.toNat ≤ 126 then [c]
  else if c.toNat < 0x10000 then '\\' :: 'u' :: unitDigits c.toNat
  else '\\' :: 'u' :: unitDigits (0xd800 + (c.toNat - 0x10000) / 0x400) ++
    '\\' :: 'u' :: unitDigits (0xdc00 + (c.toNat - 0x10000) % 0x400)

/-- Read the digits of `\uXXXX`. -/
def readUnit : Text → Option (Nat × Text)
  | a :: b :: c :: d :: rest =>
      (Numeral.readHex 0 ([a, b, c, d].map Char.toUpper)).map fun n => (n, rest)
  | _ => none

/-- Read what follows `\u`: a unit, or a pair of surrogates. -/
def readUnicode (t : Text) : Option (Char × Text) := do
  let (high, rest) ← readUnit t
  if 0xd800 ≤ high ∧ high < 0xe000 then
    match rest with
    | b :: u :: rest =>
        if b = '\\' ∧ u = 'u' then do
          let (low, rest) ← readUnit rest
          if high < 0xdc00 ∧ 0xdc00 ≤ low ∧ low < 0xe000 then
            some (Char.ofNat (0x10000 + (high - 0xd800) * 0x400 + (low - 0xdc00)), rest)
          else none
        else none
    | _ => none
  else some (Char.ofNat high, rest)

/-- The character of a short escape. -/
def shortEscape? (c : Char) : Option Char :=
  if c = '\x22' ∨ c = '\\' ∨ c = '/' then some c
  else if c = 'n' then some '\n'
  else if c = 'r' then some '\r'
  else if c = 't' then some '\t'
  else if c = 'f' then some '\x0c'
  else if c = 'b' then some '\x08'
  else none

/-- Read one character of a string. -/
def readChar : Text → Option (Char × Text)
  | [] => none
  | c :: rest =>
      if c = '\\' then
        match rest with
        | [] => none
        | e :: rest =>
            if e = 'u' then readUnicode rest else (shortEscape? e).map fun c => (c, rest)
      else if c.toNat < 32 then none
      else some (c, rest)

/-- Read a string up to its closing quote. -/
def readString : Nat → Text → Option (Text × Text)
  | 0, _ => none
  | _, [] => none
  | n + 1, c :: rest =>
      if c = '\x22' then some ([], rest)
      else do
        let (a, rest) ← readChar (c :: rest)
        let (text, rest) ← readString n rest
        some (a :: text, rest)

theorem readUnit_unitDigits {n : Nat} (h : n < 0x10000) (rest : Text) :
    readUnit (unitDigits n ++ rest) = some (n, rest) := by
  have hread : Numeral.readHex 0 ((unitDigits n).map Char.toUpper) = some n := by
    have h3 : n / 4096 < 16 := by omega
    simp only [unitDigits, List.map_cons, List.map_nil, Numeral.readHex,
      Numeral.hexDigit?_digitChar h3, Numeral.hexDigit?_digitChar (Nat.mod_lt _ (by decide : 0 < 16))]
    congr 1
    omega
  change (Numeral.readHex 0 ((unitDigits n).map Char.toUpper)).map (fun n => (n, rest)) = _
  rw [hread]
  rfl

/-- A scalar value is no surrogate. -/
theorem not_surrogate (c : Char) : ¬ (0xd800 ≤ c.toNat ∧ c.toNat < 0xe000) := by
  rintro ⟨hge, hlt⟩
  rcases c.valid with h | ⟨h, -⟩
  · have h : c.toNat < 0xd800 := h
    omega
  · have h : 0xdfff < c.toNat := h
    omega

theorem toNat_lt (c : Char) : c.toNat < 0x110000 := by
  rcases c.valid with h | ⟨-, h⟩
  · have h : c.toNat < 0xd800 := h
    omega
  · exact h

theorem readUnicode_unit {c : Char} (h : c.toNat < 0x10000) (rest : Text) :
    readUnicode (unitDigits c.toNat ++ rest) = some (c, rest) := by
  unfold readUnicode
  rw [readUnit_unitDigits h, Option.bind_eq_bind, Option.bind_some]
  dsimp only
  rw [if_neg (not_surrogate c), Char.ofNat_toNat]

theorem readUnicode_pair {c : Char} (h : 0x10000 ≤ c.toNat) (rest : Text) :
    readUnicode (unitDigits (0xd800 + (c.toNat - 0x10000) / 0x400) ++ ('\\' :: 'u' ::
      (unitDigits (0xdc00 + (c.toNat - 0x10000) % 0x400) ++ rest))) = some (c, rest) := by
  have hlt := toNat_lt c
  have hhigh : 0xd800 + (c.toNat - 0x10000) / 0x400 < 0xdc00 := by omega
  have hlow : 0xdc00 + (c.toNat - 0x10000) % 0x400 < 0xe000 := by omega
  unfold readUnicode
  rw [readUnit_unitDigits (by omega), Option.bind_eq_bind, Option.bind_some]
  dsimp only
  rw [if_pos ⟨by omega, by omega⟩, if_pos ⟨rfl, rfl⟩, readUnit_unitDigits (by omega),
    Option.bind_some]
  dsimp only
  rw [if_pos ⟨hhigh, by omega, hlow⟩]
  have hvalue : 0x10000 + (0xd800 + (c.toNat - 0x10000) / 0x400 - 0xd800) * 0x400 +
      (0xdc00 + (c.toNat - 0x10000) % 0x400 - 0xdc00) = c.toNat := by omega
  rw [hvalue, Char.ofNat_toNat]

/-- A character is read back from its escape, which does not start with a quote. -/
theorem readChar_escape (c : Char) (rest : Text) :
    readChar (escape c ++ rest) = some (c, rest) ∧
      ∃ a t, escape c = a :: t ∧ a ≠ '\x22' := by
  unfold escape
  split
  · subst c; exact ⟨rfl, _, _, rfl, by decide⟩
  split
  · subst c; exact ⟨rfl, _, _, rfl, by decide⟩
  split
  · subst c; exact ⟨rfl, _, _, rfl, by decide⟩
  split
  · subst c; exact ⟨rfl, _, _, rfl, by decide⟩
  split
  · subst c; exact ⟨rfl, _, _, rfl, by decide⟩
  split
  · subst c; exact ⟨rfl, _, _, rfl, by decide⟩
  split
  · subst c; exact ⟨rfl, _, _, rfl, by decide⟩
  split
  next hquote hslash _ _ _ _ _ hplain =>
    refine ⟨?_, _, _, rfl, hquote⟩
    change (if c = '\\' then _ else if c.toNat < 32 then none else some (c, rest)) = _
    rw [if_neg hslash, if_neg (by omega)]
  split
  next hunit => exact ⟨readUnicode_unit hunit rest, _, _, rfl, by decide⟩
  next hpair =>
    refine ⟨?_, _, _, rfl, by decide⟩
    rw [List.append_assoc]
    exact readUnicode_pair (by omega) rest

/-- A string is read back up to its closing quote. -/
theorem readString_flatMap_escape (text rest : Text) : ∀ {n : Nat}, text.length < n →
    readString n (text.flatMap escape ++ '\x22' :: rest) = some (text, rest) := by
  induction text with
  | nil =>
    intro n hn
    obtain ⟨n, rfl⟩ := Nat.exists_eq_succ_of_ne_zero (by omega : n ≠ 0)
    rfl
  | cons c text ih =>
    intro n hn
    rw [List.length_cons] at hn
    obtain ⟨n, rfl⟩ := Nat.exists_eq_succ_of_ne_zero (by omega : n ≠ 0)
    obtain ⟨hread, a, t, hescape, hquote⟩ :=
      readChar_escape c (text.flatMap escape ++ '\x22' :: rest)
    rw [List.flatMap_cons, List.append_assoc]
    rw [hescape, List.cons_append] at hread ⊢
    rw [readString, if_neg hquote, hread, Option.bind_eq_bind, Option.bind_some]
    dsimp only
    rw [ih (by omega)]
    rfl

theorem length_le_flatMap_escape (text : Text) : text.length ≤ (text.flatMap escape).length := by
  induction text with
  | nil => exact Nat.zero_le _
  | cons c text ih =>
    obtain ⟨-, a, t, hescape, -⟩ := readChar_escape c []
    rw [List.flatMap_cons, List.length_append, hescape, List.length_cons, List.length_cons]
    omega

/-! ## Values -/

/-- A line break, and the indentation of a level. -/
def newline (indent level : Nat) : Text := '\n' :: List.replicate (indent * level) ' '

/-- A string in quotes. -/
def quoted (text : String) : Text := '\x22' :: (text.toList.flatMap escape ++ ['\x22'])

/-- A number. -/
def number : Int → Text
  | .ofNat n => Numeral.decimal n
  | .negSucc n => '-' :: Numeral.decimal (n + 1)

section Dumps

variable (indent : Nat)

mutual

/-- A value at a level. -/
def dumpsAt (level : Nat) : Json → Text
  | .null => ['n', 'u', 'l', 'l']
  | .bool true => ['t', 'r', 'u', 'e']
  | .bool false => ['f', 'a', 'l', 's', 'e']
  | .int i => number i
  | .str text => quoted text
  | .arr [] => ['[', ']']
  | .arr (v :: vs) => '[' :: (newline indent (level + 1) ++ dumpsAt (level + 1) v ++
      dumpItems (level + 1) vs ++ newline indent level ++ [']'])
  | .obj [] => ['\x7b', '\x7d']
  | .obj ((key, v) :: ms) => '\x7b' :: (newline indent (level + 1) ++ quoted key ++ [':', ' '] ++
      dumpsAt (level + 1) v ++ dumpMembers (level + 1) ms ++ newline indent level ++ ['\x7d'])

/-- The items behind the first one. -/
def dumpItems (level : Nat) : List Json → Text
  | [] => []
  | v :: vs => ',' :: (newline indent level ++ dumpsAt level v ++ dumpItems level vs)

/-- The members behind the first one. -/
def dumpMembers (level : Nat) : List (String × Json) → Text
  | [] => []
  | (key, v) :: ms => ',' :: (newline indent level ++ quoted key ++ [':', ' '] ++
      dumpsAt level v ++ dumpMembers level ms)

end

/-- `json.dumps(value, indent=indent)`. -/
def dumps (v : Json) : Text := dumpsAt indent 0 v

end Dumps

/-- White space between tokens. -/
def isBlank (c : Char) : Bool := c = ' ' || c = '\n' || c = '\r' || c = '\t'

/-- Read a number. -/
def readNumber (t : Text) : Option (Json × Text) :=
  let (sign, t) := if t.head? = some '-' then (true, t.tail) else (false, t)
  let digits := t.takeWhile Char.isDigit
  if digits = [] then none
  else
    let n : Int := Numeral.ofDecimal digits
    some (.int (if sign then -n else n), t.dropWhile Char.isDigit)

/-- Read the rest of a word. -/
def readWord (word : Text) (v : Json) (t : Text) : Option (Json × Text) :=
  if t.take word.length = word then some (v, t.drop word.length) else none

/-- Read a key and the colon behind it. -/
def readKey (t : Text) : Option (String × Text) :=
  match t.dropWhile isBlank with
  | [] => none
  | c :: rest =>
      if c = '\x22' then do
        let (key, rest) ← readString rest.length rest
        match rest.dropWhile isBlank with
        | [] => none
        | c :: rest => if c = ':' then some (String.ofList key, rest) else none
      else none

mutual

/-- Read a value, with white space in front of it. -/
def readValue : Nat → Text → Option (Json × Text)
  | 0, _ => none
  | n + 1, t =>
      match t.dropWhile isBlank with
      | [] => none
      | c :: rest =>
          if c = 'n' then readWord ['u', 'l', 'l'] .null rest
          else if c = 't' then readWord ['r', 'u', 'e'] (.bool true) rest
          else if c = 'f' then readWord ['a', 'l', 's', 'e'] (.bool false) rest
          else if c = '\x22' then
            (readString rest.length rest).map fun p => (.str (String.ofList p.1), p.2)
          else if c = '[' then
            if (rest.dropWhile isBlank).head? = some ']' then
              some (.arr [], (rest.dropWhile isBlank).tail)
            else do
              let (v, rest) ← readValue n rest
              let (vs, rest) ← readItems n rest
              some (.arr (v :: vs), rest)
          else if c = '\x7b' then
            if (rest.dropWhile isBlank).head? = some '\x7d' then
              some (.obj [], (rest.dropWhile isBlank).tail)
            else do
              let (key, rest) ← readKey rest
              let (v, rest) ← readValue n rest
              let (ms, rest) ← readMembers n rest
              some (.obj ((key, v) :: ms), rest)
          else readNumber (c :: rest)

/-- Read the items behind the first one, and the closing bracket. -/
def readItems : Nat → Text → Option (List Json × Text)
  | 0, _ => none
  | n + 1, t =>
      match t.dropWhile isBlank with
      | [] => none
      | c :: rest =>
          if c = ']' then some ([], rest)
          else if c = ',' then do
            let (v, rest) ← readValue n rest
            let (vs, rest) ← readItems n rest
            some (v :: vs, rest)
          else none

/-- Read the members behind the first one, and the closing brace. -/
def readMembers : Nat → Text → Option (List (String × Json) × Text)
  | 0, _ => none
  | n + 1, t =>
      match t.dropWhile isBlank with
      | [] => none
      | c :: rest =>
          if c = '\x7d' then some ([], rest)
          else if c = ',' then do
            let (key, rest) ← readKey rest
            let (v, rest) ← readValue n rest
            let (ms, rest) ← readMembers n rest
            some ((key, v) :: ms, rest)
          else none

end

/-- Read a text that holds one value. -/
def parse? (t : Text) : Option Json :=
  match readValue (t.length + 1) t with
  | some (v, rest) => if rest.dropWhile isBlank = [] then some v else none
  | none => none

/-- The value of a key. -/
def member? (key : String) : Json → Option Json
  | .obj members => members.lookup key
  | _ => none

def str? : Json → Option String
  | .str text => some text
  | _ => none

def int? : Json → Option Int
  | .int i => some i
  | _ => none

def items? : Json → Option (List Json)
  | .arr items => some items
  | _ => none

/-! ## The round trip -/

mutual

/-- The recursion a value takes. -/
def size : Json → Nat
  | .arr vs => 1 + sizeItems vs
  | .obj ms => 1 + sizeMembers ms
  | _ => 1

def sizeItems : List Json → Nat
  | [] => 1
  | v :: vs => 1 + size v + sizeItems vs

def sizeMembers : List (String × Json) → Nat
  | [] => 1
  | (_, v) :: ms => 1 + size v + sizeMembers ms

end

theorem dropWhile_newline (indent level : Nat) (t : Text) :
    (newline indent level ++ t).dropWhile isBlank = t.dropWhile isBlank := by
  rw [newline, List.cons_append, List.dropWhile_cons_of_pos (by decide)]
  induction indent * level with
  | zero => rfl
  | succ k ih => rw [List.replicate_succ, List.cons_append, List.dropWhile_cons_of_pos (by decide), ih]

/-- White space in front of a value does not matter. -/
theorem readValue_congr {t t' : Text} (h : t.dropWhile isBlank = t'.dropWhile isBlank) :
    ∀ n, readValue n t = readValue n t'
  | 0 => rfl
  | n + 1 => by rw [readValue, readValue, h]

theorem readValue_space (t : Text) (n : Nat) : readValue n (' ' :: t) = readValue n t :=
  readValue_congr (List.dropWhile_cons_of_pos (by decide)) n

theorem readValue_newline (indent level : Nat) (t : Text) (n : Nat) :
    readValue n (newline indent level ++ t) = readValue n t :=
  readValue_congr (dropWhile_newline indent level t) n

/-- What may follow a number. -/
def Stops (t : Text) : Prop := ∀ c, t.head? = some c → c.isDigit = false

theorem stops_cons {c : Char} {t : Text} (h : c.isDigit = false) : Stops (c :: t) := by
  intro d hd
  cases hd
  exact h

/-- The digits of a number, and what follows them. -/
theorem digits_append (n : Nat) {rest : Text} (hrest : Stops rest) :
    (Numeral.decimal n ++ rest).takeWhile Char.isDigit = Numeral.decimal n ∧
      (Numeral.decimal n ++ rest).dropWhile Char.isDigit = rest := by
  have hall : ∀ c ∈ Numeral.decimal n, c.isDigit = true := Numeral.isDigits_decimal n
  have hstop : rest.takeWhile Char.isDigit = [] ∧ rest.dropWhile Char.isDigit = rest := by
    cases rest with
    | nil => exact ⟨rfl, rfl⟩
    | cons c rest =>
      have hc : ¬ c.isDigit = true := by
        rw [hrest c rfl]
        exact Bool.false_ne_true
      exact ⟨List.takeWhile_cons_of_neg hc, List.dropWhile_cons_of_neg hc⟩
  rw [List.takeWhile_append_of_pos hall, List.dropWhile_append_of_pos hall, hstop.1, hstop.2]
  exact ⟨List.append_nil _, rfl⟩

/-- A number starts with a digit. -/
theorem decimal_cons (n : Nat) : ∃ c t, Numeral.decimal n = c :: t ∧ c.isDigit = true := by
  cases hn : Numeral.decimal n with
  | nil => exact absurd hn Nat.toDigits_ne_nil
  | cons c t => exact ⟨c, t, rfl, Numeral.isDigits_decimal n c (by rw [hn]; exact List.mem_cons_self)⟩

/-- A number is read back up to what follows. -/
theorem readNumber_number (i : Int) {rest : Text} (hrest : Stops rest) :
    readNumber (number i ++ rest) = some (.int i, rest) := by
  have hne : ∀ n, Numeral.decimal n ≠ [] := fun n => Nat.toDigits_ne_nil
  cases i with
  | ofNat n =>
    obtain ⟨htake, hdrop⟩ := digits_append n hrest
    have hsign : (Numeral.decimal n ++ rest).head? ≠ some '-' := by
      obtain ⟨c, t, hn, hc⟩ := decimal_cons n
      rw [hn]
      rintro heq
      cases heq
      exact absurd hc (by decide)
    unfold readNumber
    rw [number, if_neg hsign]
    dsimp only
    rw [htake, hdrop, if_neg (hne n), Numeral.ofDecimal_decimal]
    rfl
  | negSucc n =>
    obtain ⟨htake, hdrop⟩ := digits_append (n + 1) hrest
    unfold readNumber
    rw [number, List.cons_append, if_pos List.head?_cons]
    dsimp only [List.tail_cons]
    rw [htake, hdrop, if_neg (hne (n + 1)), Numeral.ofDecimal_decimal]
    rfl

/-- The first character of a number is none that another value starts with. -/
theorem number_cons (i : Int) :
    ∃ c t, number i = c :: t ∧ ∀ d : Char, (d.isDigit || d == '-') = false → c ≠ d := by
  cases i with
  | ofNat n =>
    obtain ⟨c, t, hn, hc⟩ := decimal_cons n
    refine ⟨c, t, hn, ?_⟩
    rintro d hd rfl
    rw [hc] at hd
    cases hd
  | negSucc n =>
    refine ⟨_, _, rfl, ?_⟩
    rintro d hd rfl
    cases hd

/-- The first character of a value is no white space, and closes nothing. -/
theorem dumpsAt_cons (indent level : Nat) (v : Json) :
    ∃ c t, dumpsAt indent level v = c :: t ∧ isBlank c = false ∧ c ≠ ']' := by
  cases v with
  | null => exact ⟨_, _, rfl, by decide, by decide⟩
  | bool b => cases b <;> exact ⟨_, _, rfl, by decide, by decide⟩
  | int i =>
    obtain ⟨c, t, hv, hc⟩ := number_cons i
    refine ⟨c, t, hv, ?_, hc ']' (by decide)⟩
    simp [isBlank, hc ' ' (by decide), hc '\n' (by decide), hc '\r' (by decide),
      hc '\t' (by decide)]
  | str text => exact ⟨_, _, rfl, by decide, by decide⟩
  | arr vs => cases vs <;> exact ⟨_, _, rfl, by decide, by decide⟩
  | obj ms => rcases ms with _ | ⟨⟨key, v⟩, ms⟩ <;> exact ⟨_, _, rfl, by decide, by decide⟩

theorem dropWhile_dumpsAt (indent level : Nat) (v : Json) (rest : Text) :
    (dumpsAt indent level v ++ rest).dropWhile isBlank = dumpsAt indent level v ++ rest := by
  obtain ⟨c, t, hv, hc, -⟩ := dumpsAt_cons indent level v
  rw [hv, List.cons_append, List.dropWhile_cons_of_neg (by rw [hc]; exact Bool.false_ne_true)]

/-- A string in quotes is read back. -/
theorem readString_quoted (text rest : Text) :
    readString (text.flatMap escape ++ '\x22' :: rest).length
      (text.flatMap escape ++ '\x22' :: rest) = some (text, rest) := by
  apply readString_flatMap_escape
  have hle := length_le_flatMap_escape text
  rw [List.length_append, List.length_cons]
  omega

theorem quoted_head (text : String) (rest : Text) : (quoted text ++ rest).head? ≠ some '\x7d' := by
  intro h
  exact absurd (Option.some.inj h) (by decide)

/-- A key on a line of its own is read back. -/
theorem readKey_quoted (indent level : Nat) (key : String) (rest : Text) :
    readKey (newline indent level ++ (quoted key ++ ':' :: rest)) = some (key, rest) := by
  have hquoted : quoted key ++ ':' :: rest =
      '\x22' :: (key.toList.flatMap escape ++ '\x22' :: ':' :: rest) := by
    rw [quoted, List.cons_append, List.append_assoc, List.singleton_append]
  unfold readKey
  rw [dropWhile_newline, hquoted, List.dropWhile_cons_of_neg (by decide)]
  dsimp only
  rw [if_pos rfl, readString_quoted, Option.bind_eq_bind, Option.bind_some]
  dsimp only
  rw [List.dropWhile_cons_of_neg (by decide)]
  dsimp only
  rw [if_pos rfl, String.ofList_toList]

/-- What follows a value in a list is no digit. -/
theorem stops_items (indent level l : Nat) (vs : List Json) (rest : Text) :
    Stops (dumpItems indent level vs ++ (newline indent l ++ ']' :: rest)) := by
  cases vs with
  | nil => exact stops_cons (by decide)
  | cons v vs => exact stops_cons (by decide)

theorem stops_members (indent level l : Nat) (ms : List (String × Json)) (rest : Text) :
    Stops (dumpMembers indent level ms ++ (newline indent l ++ '\x7d' :: rest)) := by
  rcases ms with _ | ⟨⟨key, v⟩, ms⟩
  · exact stops_cons (by decide)
  · exact stops_cons (by decide)

section RoundTrip

variable (indent : Nat)

mutual

/-- A value is read back up to what follows. -/
theorem readValue_dumpsAt : ∀ (v : Json) (n level : Nat) (rest : Text), v.size ≤ n → Stops rest →
    readValue n (dumpsAt indent level v ++ rest) = some (v, rest)
  | v, 0, _, _, hn, _ => by
    cases v <;> (unfold size at hn; omega)
  | .null, n + 1, _, _, _, _ => rfl
  | .bool true, n + 1, _, _, _, _ => rfl
  | .bool false, n + 1, _, _, _, _ => rfl
  | .int i, n + 1, level, rest, _, hrest => by
    obtain ⟨c, t, hv, hc⟩ := number_cons i
    rw [readValue, dropWhile_dumpsAt, dumpsAt, hv, List.cons_append]
    dsimp only
    rw [if_neg (hc 'n' (by decide)), if_neg (hc 't' (by decide)), if_neg (hc 'f' (by decide)),
      if_neg (hc '\x22' (by decide)), if_neg (hc '[' (by decide)), if_neg (hc '\x7b' (by decide)),
      ← List.cons_append, ← hv, readNumber_number i hrest]
  | .str text, n + 1, level, rest, _, _ => by
    rw [readValue, dropWhile_dumpsAt, dumpsAt, quoted, List.cons_append, List.append_assoc,
      List.singleton_append]
    dsimp only
    rw [if_neg (by decide), if_neg (by decide), if_neg (by decide), if_pos rfl, readString_quoted,
      Option.map_some, String.ofList_toList]
  | .arr [], n + 1, _, _, _, _ => rfl
  | .arr (v :: vs), n + 1, level, rest, hn, _ => by
    rw [size, sizeItems] at hn
    have hv := readValue_dumpsAt v n (level + 1) _ (by omega)
      (stops_items indent (level + 1) level vs rest)
    have hvs := readItems_dumpItems vs n (level + 1) level rest (by omega)
    obtain ⟨c, t, hhead, -, hclose⟩ := dumpsAt_cons indent (level + 1) v
    have hskip : (newline indent (level + 1) ++ (dumpsAt indent (level + 1) v ++
        (dumpItems indent (level + 1) vs ++ (newline indent level ++ ']' :: rest)))).dropWhile
          isBlank = dumpsAt indent (level + 1) v ++
            (dumpItems indent (level + 1) vs ++ (newline indent level ++ ']' :: rest)) := by
      rw [dropWhile_newline, dropWhile_dumpsAt]
    have hopen : (dumpsAt indent (level + 1) v ++ (dumpItems indent (level + 1) vs ++
        (newline indent level ++ ']' :: rest))).head? ≠ some ']' := by
      rw [hhead]
      rintro heq
      cases heq
      exact hclose rfl
    rw [readValue, dropWhile_dumpsAt, dumpsAt]
    simp only [List.cons_append, List.append_assoc, List.nil_append]
    rw [if_neg (by decide), if_neg (by decide), if_neg (by decide), if_neg (by decide),
      if_pos trivial, hskip, if_neg hopen, readValue_newline, hv,
      Option.bind_eq_bind, Option.bind_some]
    dsimp only
    rw [hvs]
    rfl
  | .obj [], n + 1, _, _, _, _ => rfl
  | .obj ((key, v) :: ms), n + 1, level, rest, hn, _ => by
    rw [size, sizeMembers] at hn
    have hv := readValue_dumpsAt v n (level + 1) _ (by omega)
      (stops_members indent (level + 1) level ms rest)
    have hms := readMembers_dumpMembers ms n (level + 1) level rest (by omega)
    have hopen : ∀ t : Text, (newline indent (level + 1) ++ (quoted key ++ t)).dropWhile isBlank =
        quoted key ++ t := by
      intro t
      rw [dropWhile_newline, quoted, List.cons_append, List.dropWhile_cons_of_neg (by decide)]
    rw [readValue, dropWhile_dumpsAt, dumpsAt]
    simp only [List.cons_append, List.append_assoc, List.nil_append]
    rw [if_neg (by decide), if_neg (by decide), if_neg (by decide), if_neg (by decide),
      if_neg (by decide), if_pos trivial, hopen, if_neg (quoted_head key _), readKey_quoted,
      Option.bind_eq_bind, Option.bind_some]
    dsimp only
    rw [readValue_space, hv, Option.bind_eq_bind,
      Option.bind_some]
    dsimp only
    rw [hms]
    rfl

theorem readItems_dumpItems : ∀ (vs : List Json) (n level l : Nat) (rest : Text), sizeItems vs ≤ n →
    readItems n (dumpItems indent level vs ++ (newline indent l ++ ']' :: rest)) = some (vs, rest)
  | vs, 0, _, _, _, hn => by
    cases vs <;> (unfold sizeItems at hn; omega)
  | [], n + 1, level, l, rest, _ => by
    rw [readItems, dumpItems, List.nil_append, dropWhile_newline,
      List.dropWhile_cons_of_neg (by decide)]
    rfl
  | v :: vs, n + 1, level, l, rest, hn => by
    rw [sizeItems] at hn
    have hv := readValue_dumpsAt v n level _ (by omega) (stops_items indent level l vs rest)
    have hvs := readItems_dumpItems vs n level l rest (by omega)
    rw [readItems, dumpItems]
    simp only [List.cons_append, List.append_assoc]
    rw [List.dropWhile_cons_of_neg (by decide)]
    dsimp only
    rw [if_neg (by decide), if_pos rfl, readValue_newline, hv,
      Option.bind_eq_bind, Option.bind_some]
    dsimp only
    rw [hvs]
    rfl

theorem readMembers_dumpMembers : ∀ (ms : List (String × Json)) (n level l : Nat) (rest : Text),
    sizeMembers ms ≤ n →
    readMembers n (dumpMembers indent level ms ++ (newline indent l ++ '\x7d' :: rest)) =
      some (ms, rest)
  | ms, 0, _, _, _, hn => by
    rcases ms with _ | ⟨⟨key, v⟩, ms⟩ <;> (unfold sizeMembers at hn; omega)
  | [], n + 1, level, l, rest, _ => by
    rw [readMembers, dumpMembers, List.nil_append, dropWhile_newline,
      List.dropWhile_cons_of_neg (by decide)]
    rfl
  | (key, v) :: ms, n + 1, level, l, rest, hn => by
    rw [sizeMembers] at hn
    have hv := readValue_dumpsAt v n level _ (by omega) (stops_members indent level l ms rest)
    have hms := readMembers_dumpMembers ms n level l rest (by omega)
    rw [readMembers, dumpMembers]
    simp only [List.cons_append, List.append_assoc, List.nil_append]
    rw [List.dropWhile_cons_of_neg (by decide)]
    dsimp only
    rw [if_neg (by decide), if_pos rfl, readKey_quoted, Option.bind_eq_bind, Option.bind_some]
    dsimp only
    rw [readValue_space, hv, Option.bind_eq_bind,
      Option.bind_some]
    dsimp only
    rw [hms]
    rfl

end

mutual

/-- The recursion is bounded by the text. -/
theorem size_le_length : ∀ (v : Json) (level : Nat), v.size ≤ (dumpsAt indent level v).length
  | .null, _ => by simp [size, dumpsAt]
  | .bool true, _ => by simp [size, dumpsAt]
  | .bool false, _ => by simp [size, dumpsAt]
  | .int i, level => by
    obtain ⟨c, t, hv, -, -⟩ := dumpsAt_cons indent level (.int i)
    rw [hv, List.length_cons, size]
    · omega
    · exact nofun
    · exact nofun
  | .str text, _ => by
    rw [dumpsAt, quoted, List.length_cons, size]
    · omega
    · exact nofun
    · exact nofun
  | .arr [], _ => by simp [size, sizeItems, dumpsAt]
  | .arr (v :: vs), level => by
    have hv := size_le_length v (level + 1)
    have hvs := sizeItems_le_length vs (level + 1)
    rw [size, sizeItems, dumpsAt]
    simp only [newline, List.length_cons, List.length_append]
    omega
  | .obj [], _ => by simp [size, sizeMembers, dumpsAt]
  | .obj ((key, v) :: ms), level => by
    have hv := size_le_length v (level + 1)
    have hms := sizeMembers_le_length ms (level + 1)
    rw [size, sizeMembers, dumpsAt]
    simp only [newline, List.length_cons, List.length_append]
    omega

theorem sizeItems_le_length : ∀ (vs : List Json) (level : Nat),
    sizeItems vs ≤ (dumpItems indent level vs).length + 1
  | [], _ => by simp [sizeItems]
  | v :: vs, level => by
    have hv := size_le_length v level
    have hvs := sizeItems_le_length vs level
    rw [sizeItems, dumpItems]
    simp only [newline, List.length_cons, List.length_append]
    omega

theorem sizeMembers_le_length : ∀ (ms : List (String × Json)) (level : Nat),
    sizeMembers ms ≤ (dumpMembers indent level ms).length + 1
  | [], _ => by simp [sizeMembers]
  | (key, v) :: ms, level => by
    have hv := size_le_length v level
    have hms := sizeMembers_le_length ms level
    rw [sizeMembers, dumpMembers]
    simp only [newline, List.length_cons, List.length_append]
    omega

end

/-- What is dumped is read back. -/
theorem parse?_dumps (v : Json) : parse? (dumps indent v) = some v := by
  have hsize := size_le_length indent v 0
  have hread := readValue_dumpsAt indent v ((dumps indent v).length + 1) 0 []
    (by unfold dumps; omega) nofun
  rw [List.append_nil] at hread
  unfold parse?
  change (match readValue ((dumps indent v).length + 1) (dumpsAt indent 0 v) with
    | some (v, rest) => if rest.dropWhile isBlank = [] then some v else none
    | none => none) = some v
  rw [hread]
  rfl

end RoundTrip

end Json

end SoftHier.Foundation
