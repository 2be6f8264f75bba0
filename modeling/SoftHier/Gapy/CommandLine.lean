/-
  Gapy/CommandLine.lean --- texts of the command line and the list options of
  `argparse`.

  `argparse` itself is not part of the repository.  The tools rely on how an
  option with `action='append'` fills the namespace: every parse starts afresh
  from the defaults, an option that occurs appends to a copy of its default
  list, and an option that does not occur leaves the default list object itself
  in the namespace.
-/
import SoftHier.Gapy.Value

set_option autoImplicit false

namespace SoftHier.Gapy

open SoftHier.Foundation

/-! ## Splitting texts -/

/-- `text.split(sep)`. -/
def splitText (sep : Char) (text : String) : List String :=
  (text.toList.splitOn sep).map String.ofList

/-- `text.rsplit(sep, 1)`, when it has two parts. -/
def rsplitText (sep : Char) (text : String) : Option (String × String) :=
  match text.toList.reverse.dropWhile (· ≠ sep) with
  | [] => none
  | _ :: before =>
    some (String.ofList before.reverse,
      String.ofList (text.toList.reverse.takeWhile (· ≠ sep)).reverse)

/-- A text put together from parts without the separator splits into them. -/
theorem splitText_intercalate {sep : Char} {parts : List String} (hne : parts ≠ [])
    (h : ∀ p ∈ parts, sep ∉ p.toList) :
    splitText sep ((String.singleton sep).intercalate parts) = parts := by
  unfold splitText
  have hparts : ∀ l ∈ parts.map String.toList, sep ∉ l := by
    intro l hl
    obtain ⟨p, hp, rfl⟩ := List.mem_map.mp hl
    exact h p hp
  rw [String.toList_intercalate, String.toList_singleton,
    List.splitOn_intercalate sep hparts (by simpa using hne), List.map_map]
  exact (List.map_congr_left fun p _ => String.ofList_toList).trans (List.map_id _)

theorem not_mem_intercalate {c sep : Char} {parts : List String} (hsep : c ≠ sep)
    (h : ∀ p ∈ parts, c ∉ p.toList) :
    c ∉ ((String.singleton sep).intercalate parts).toList := by
  rw [String.toList_intercalate, String.toList_singleton]
  induction parts with
  | nil => simp
  | cons p parts ih =>
    have hp := h p List.mem_cons_self
    have hparts := ih fun q hq => h q (List.mem_cons_of_mem p hq)
    cases parts with
    | nil => simpa using hp
    | cons q parts =>
      rw [List.map_cons, List.map_cons, List.intercalate_cons_cons, List.mem_append,
        List.mem_append, List.mem_singleton]
      rintro ((hc | rfl) | hc)
      · exact hp hc
      · exact hsep rfl
      · exact hparts hc

/-- The last separator decides. -/
theorem rsplitText_append {sep : Char} {before after : String} (h : sep ∉ after.toList) :
    rsplitText sep (before ++ String.singleton sep ++ after) = some (before, after) := by
  have hrev : (before ++ String.singleton sep ++ after).toList.reverse =
      after.toList.reverse ++ sep :: before.toList.reverse := by
    rw [String.toList_append, String.toList_append, String.toList_singleton, List.reverse_append,
      List.reverse_append]
    rfl
  have hafter : ∀ c ∈ after.toList.reverse, decide (c ≠ sep) = true := by
    intro c hc
    rw [decide_eq_true_iff]
    rintro rfl
    exact h (List.mem_reverse.mp hc)
  unfold rsplitText
  rw [hrev, List.dropWhile_append_of_pos hafter, List.takeWhile_append_of_pos hafter]
  simp [String.ofList_toList]

/-! ## Options that append -/

/-- The list object that a parse leaves in the namespace. -/
inductive ListObject where
  /-- The default list of the option itself. -/
  | default
  | copy (items : List String)
  deriving DecidableEq, Repr

/-- A parser, as far as an option with `action='append'` goes. -/
structure ArgumentParser where
  /-- What the command line gives with the option, in order. -/
  given : List String
  /-- The default list of the option. -/
  defaults : List String
  deriving DecidableEq, Repr

namespace ArgumentParser

/-- `parse_known_args`. -/
def parseKnownArgs (p : ArgumentParser) : ListObject :=
  if p.given = [] then .default else .copy (p.defaults ++ p.given)

/-- The items of a list in a namespace. -/
def items (p : ArgumentParser) : ListObject → List String
  | .default => p.defaults
  | .copy items => items

/-- `args.option.append(item)`: the parser sees it when the list is its default. -/
def append (p : ArgumentParser) (item : String) : ListObject → ArgumentParser
  | .default => { p with defaults := p.defaults ++ [item] }
  | .copy _ => p

end ArgumentParser

end SoftHier.Gapy
