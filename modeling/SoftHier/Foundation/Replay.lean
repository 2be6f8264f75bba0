/-
  Foundation/Replay.lean --- a machine that gets its operations one at a time.

  The machine says what a component is for: which answers it gives to a sequence
  of operations, each of them carried out before the next begins.  Outputs that
  are right one by one are the first of those answers.  The second part is a
  memory of cells as the state of such a machine.
-/
import Mathlib.Data.List.Basic
import Mathlib.Logic.Function.Basic

set_option autoImplicit false

namespace SoftHier.Foundation

/-- What an operation changes, and what it answers if it answers anything. -/
structure Machine (μ ι ω : Type) where
  next : μ → ι → μ
  answer : μ → ι → Option ω

namespace Machine

variable {μ ι ω : Type} (M : Machine μ ι ω)

/-- The state some operations leave behind. -/
def after (m : μ) (ops : List ι) : μ := ops.foldl M.next m

/-- The answers to some operations. -/
def replay : μ → List ι → List ω
  | _, [] => []
  | m, op :: ops => (M.answer m op).toList ++ replay (M.next m op) ops

theorem replay_append (m : μ) (ops ops' : List ι) :
    M.replay m (ops ++ ops') = M.replay m ops ++ M.replay (M.after m ops) ops' := by
  induction ops generalizing m with
  | nil => rfl
  | cons op ops ih =>
    rw [List.cons_append, replay, replay, ih, List.append_assoc]
    rfl

/-- What was answered stays answered. -/
theorem replay_isPrefix (m : μ) {ops ops' : List ι} (h : ops <+: ops') :
    M.replay m ops <+: M.replay m ops' := by
  obtain ⟨rest, rfl⟩ := h
  rw [replay_append]
  exact List.prefix_append _ _

variable {M} {asks : ι → Bool} (hasks : ∀ m op, (M.answer m op).isSome = asks op)

include hasks

theorem length_replay (m : μ) (ops : List ι) :
    (M.replay m ops).length = (ops.filter asks).length := by
  induction ops generalizing m with
  | nil => rfl
  | cons op ops ih =>
    have hop := hasks m op
    rw [replay, List.length_append, ih, List.filter_cons]
    cases hanswer : M.answer m op with
    | none =>
      rw [hanswer] at hop
      rw [← hop, Option.isSome_none, if_neg Bool.false_ne_true]
      exact Nat.zero_add _
    | some a =>
      rw [hanswer] at hop
      rw [← hop, Option.isSome_some, if_pos rfl, List.length_cons]
      exact Nat.add_comm 1 _

/-- The answer to one of the operations, by its place among those that ask. -/
theorem getElem?_replay {m : μ} {before later : List ι} {op : ι} {a : ω}
    (h : M.answer (M.after m before) op = some a) :
    (M.replay m (before ++ op :: later))[(before.filter asks).length]? = some a := by
  rw [replay_append, List.getElem?_append_right (Nat.le_of_eq (length_replay hasks m before)),
    length_replay hasks, Nat.sub_self, replay, h]
  rfl

/-- Outputs each of which is the answer to its operation. -/
theorem isPrefix_replay {m : μ} {ops : List ι} {outputs : List ω}
    (h : ∀ i a, outputs[i]? = some a → ∃ before op later, ops = before ++ op :: later ∧
      (before.filter asks).length = i ∧ M.answer (M.after m before) op = some a) :
    outputs <+: M.replay m ops := by
  rw [List.prefix_iff_getElem?]
  intro i hi
  obtain ⟨before, op, later, rfl, rfl, hanswer⟩ := h i _ (List.getElem?_eq_getElem hi)
  exact getElem?_replay hasks hanswer

end Machine

/-- Where the `i`-th item of a filtered list stands in the list. -/
theorem exists_split_of_filter {α : Type} {p : α → Bool} {xs : List α} {i : Nat} {x : α}
    (h : (xs.filter p)[i]? = some x) :
    ∃ before later, xs = before ++ x :: later ∧ (before.filter p).length = i := by
  induction xs generalizing i with
  | nil => cases h
  | cons y xs ih =>
    by_cases hy : p y = true
    · rw [List.filter_cons_of_pos hy] at h
      cases i with
      | zero =>
        refine ⟨[], xs, ?_, rfl⟩
        rw [List.getElem?_cons_zero, Option.some.injEq] at h
        rw [h, List.nil_append]
      | succ i =>
        obtain ⟨before, later, rfl, hlen⟩ := ih h
        refine ⟨y :: before, later, rfl, ?_⟩
        rw [List.filter_cons_of_pos hy, List.length_cons, hlen]
    · rw [List.filter_cons_of_neg hy] at h
      obtain ⟨before, later, rfl, hlen⟩ := ih h
      refine ⟨y :: before, later, rfl, ?_⟩
      rw [List.filter_cons_of_neg hy, hlen]

/-! ## A memory of cells -/

section Cells

variable {α β : Type} [DecidableEq α]

/-- Store some cells, one after the other. -/
def storeCells (m : α → β) (cells : List (α × β)) : α → β :=
  cells.foldl (fun m cell => Function.update m cell.1 cell.2) m

theorem storeCells_append (m : α → β) (cells cells' : List (α × β)) :
    storeCells m (cells ++ cells') = storeCells (storeCells m cells) cells' := List.foldl_append

/-- Storing what several items hold is storing one item after the other. -/
theorem storeCells_flatMap {ι : Type} (m : α → β) (cells : ι → List (α × β)) (items : List ι) :
    storeCells m (items.flatMap cells) = items.foldl (fun m item => storeCells m (cells item)) m := by
  induction items generalizing m with
  | nil => rfl
  | cons item items ih => rw [List.flatMap_cons, storeCells_append, ih, List.foldl_cons]

end Cells

end SoftHier.Foundation
