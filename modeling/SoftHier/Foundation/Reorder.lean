/-
  Foundation/Reorder.lean --- a reorder buffer whose entries are told apart by a key.

  Requests carry increasing tags and are accepted in that order.  They are
  answered in any order, except that requests of one key are answered in the
  order of their tags.  The buffer itself never sees a tag: it holds the keys
  of the requests that wait, and the answers that were parked, each with its
  key; it releases the oldest request when an answer of its key is parked, and
  takes the first such answer.  What is released is nevertheless the request's
  own answer.
-/
import Mathlib.Data.List.Basic
import Mathlib.Data.List.Pairwise
import Mathlib.Order.Lattice

set_option autoImplicit false

namespace SoftHier.Foundation

variable {ι κ α : Type} [LinearOrder ι]

/-- The answers so far to the requests `accepted`, in the order they came. -/
structure AnswersInOrder (key : ι → κ) (accepted : List ι) (answers : List (ι × α)) : Prop where
  sorted : accepted.Pairwise (· < ·)
  known : ∀ p ∈ answers, p.1 ∈ accepted
  inOrder : answers.Pairwise fun p q => p.1 ≠ q.1 ∧ (key p.1 = key q.1 → p.1 < q.1)
  /-- Before a request is answered, those of its key before it are. -/
  closed : ∀ p ∈ answers, ∀ i ∈ accepted, key i = key p.1 → i < p.1 → i ∈ answers.map Prod.fst

/-- The buffer after `released` came out of it and while `pending` wait. -/
structure Reorders (key : ι → κ) (released : List (ι × α)) (pending : List ι)
    (answers : List (ι × α)) (waiting : List κ) (parked : List (κ × α)) : Prop where
  legal : AnswersInOrder key (released.map Prod.fst ++ pending) answers
  waiting : waiting = pending.map key
  parked : parked = (answers.filter fun p => p.1 ∈ pending).map fun p => (key p.1, p.2)
  released : ∀ p ∈ released, p ∈ answers

variable {key : ι → κ} {accepted pending : List ι} {released answers : List (ι × α)}
  {waiting : List κ} {parked : List (κ × α)} {i : ι}

/-! ## Answers -/

namespace AnswersInOrder

theorem nil (key : ι → κ) : AnswersInOrder key [] ([] : List (ι × α)) where
  sorted := .nil
  known := fun _ hp => absurd hp List.not_mem_nil
  inOrder := .nil
  closed := fun _ hp => absurd hp List.not_mem_nil

theorem congr {key' : ι → κ} (h : AnswersInOrder key accepted answers)
    (hkey : ∀ i ∈ accepted, key' i = key i) : AnswersInOrder key' accepted answers where
  sorted := h.sorted
  known := h.known
  inOrder := by
    apply h.inOrder.imp_of_mem
    intro p q hp hq hpq
    refine ⟨hpq.1, fun hk => hpq.2 ?_⟩
    rwa [hkey _ (h.known p hp), hkey _ (h.known q hq)] at hk
  closed := by
    intro p hp i hi hk hlt
    rw [hkey i hi, hkey _ (h.known p hp)] at hk
    exact h.closed p hp i hi hk hlt

/-- A request that comes after all others is accepted. -/
theorem accept (h : AnswersInOrder key accepted answers) (hlast : ∀ j ∈ accepted, j < i) :
    AnswersInOrder key (accepted ++ [i]) answers where
  sorted := by
    rw [List.pairwise_append]
    refine ⟨h.sorted, List.pairwise_singleton _ _, ?_⟩
    intro j hj k hk
    rw [List.mem_singleton.mp hk]
    exact hlast j hj
  known := fun p hp => List.mem_append_left _ (h.known p hp)
  inOrder := h.inOrder
  closed := by
    intro p hp j hj hk hlt
    rcases List.mem_append.mp hj with hj | hj
    · exact h.closed p hp j hj hk hlt
    · rw [List.mem_singleton.mp hj] at hlt
      exact absurd hlt (lt_asymm (hlast _ (h.known p hp)))

/-- A request is answered, those of its key before it being answered already. -/
theorem answer (h : AnswersInOrder key accepted answers) (hi : i ∈ accepted)
    (hnew : i ∉ answers.map Prod.fst)
    (hbefore : ∀ j ∈ accepted, key j = key i → j < i → j ∈ answers.map Prod.fst) (a : α) :
    AnswersInOrder key accepted (answers ++ [(i, a)]) where
  sorted := h.sorted
  known := by
    intro p hp
    rcases List.mem_append.mp hp with hp | hp
    · exact h.known p hp
    · rw [List.mem_singleton.mp hp]
      exact hi
  inOrder := by
    rw [List.pairwise_append]
    refine ⟨h.inOrder, List.pairwise_singleton _ _, ?_⟩
    intro p hp q hq
    rw [List.mem_singleton.mp hq]
    have hne : p.1 ≠ i := by
      intro heq
      rw [← heq] at hnew
      exact hnew (List.mem_map_of_mem hp)
    refine ⟨hne, fun hk => ?_⟩
    rcases lt_or_gt_of_ne hne with hlt | hgt
    · exact hlt
    · exact absurd (h.closed p hp i hi hk.symm hgt) hnew
  closed := by
    intro p hp j hj hk hlt
    rw [List.map_append, List.mem_append]
    rcases List.mem_append.mp hp with hp | hp
    · exact .inl (h.closed p hp j hj hk hlt)
    · rw [List.mem_singleton.mp hp] at hk hlt
      exact .inl (hbefore j hj hk hlt)

end AnswersInOrder

/-! ## The buffer -/

namespace Reorders

theorem nil (key : ι → κ) : Reorders key ([] : List (ι × α)) [] [] [] [] where
  legal := AnswersInOrder.nil key
  waiting := rfl
  parked := rfl
  released := fun _ hp => absurd hp List.not_mem_nil

/-- Only the keys of accepted requests matter. -/
theorem congr {key' : ι → κ} (h : Reorders key released pending answers waiting parked)
    (hkey : ∀ i ∈ released.map Prod.fst ++ pending, key' i = key i) :
    Reorders key' released pending answers waiting parked where
  legal := h.legal.congr hkey
  waiting := by
    rw [h.waiting]
    apply List.map_congr_left
    exact fun i hi => (hkey i (List.mem_append_right _ hi)).symm
  parked := by
    rw [h.parked]
    apply List.map_congr_left
    intro p hp
    rw [hkey p.1 (h.legal.known p (List.mem_of_mem_filter hp))]
  released := h.released

theorem accept (h : Reorders key released pending answers waiting parked)
    (hlast : ∀ j ∈ released.map Prod.fst ++ pending, j < i) :
    Reorders key released (pending ++ [i]) answers (waiting ++ [key i]) parked where
  legal := by
    rw [← List.append_assoc]
    exact h.legal.accept hlast
  waiting := by rw [h.waiting, List.map_append, List.map_singleton]
  parked := by
    rw [h.parked]
    congr 1
    apply List.filter_congr
    intro p hp
    have hne : p.1 ≠ i := ne_of_lt (hlast p.1 (h.legal.known p hp))
    simp [hne]
  released := h.released

/-- A request that was not answered still waits. -/
theorem mem_pending (h : Reorders key released pending answers waiting parked)
    (hi : i ∈ released.map Prod.fst ++ pending) (hnew : i ∉ answers.map Prod.fst) :
    i ∈ pending := by
  rcases List.mem_append.mp hi with hi | hi
  · rcases List.mem_map.mp hi with ⟨p, hp, rfl⟩
    exact absurd (List.mem_map_of_mem (h.released p hp)) hnew
  · exact hi

theorem answer (h : Reorders key released pending answers waiting parked)
    (hi : i ∈ released.map Prod.fst ++ pending) (hnew : i ∉ answers.map Prod.fst)
    (hbefore : ∀ j ∈ released.map Prod.fst ++ pending, key j = key i → j < i →
      j ∈ answers.map Prod.fst) (a : α) :
    Reorders key released pending (answers ++ [(i, a)]) waiting (parked ++ [(key i, a)]) where
  legal := h.legal.answer hi hnew hbefore a
  waiting := h.waiting
  parked := by
    have hpending := h.mem_pending hi hnew
    rw [h.parked, List.filter_append, List.map_append]
    simp [hpending]
  released := fun p hp => List.mem_append_left _ (h.released p hp)

variable [DecidableEq κ]

/-- The oldest request waits for its answer. -/
theorem unanswered (h : Reorders key released (i :: pending) answers waiting parked)
    (hfind : parked.find? (fun q => key i = q.1) = none) : i ∉ answers.map Prod.fst := by
  intro hmem
  rcases List.mem_map.mp hmem with ⟨p, hp, rfl⟩
  rw [List.find?_eq_none] at hfind
  refine hfind (key p.1, p.2) ?_ (by simp)
  rw [h.parked]
  apply List.mem_map_of_mem
  exact List.mem_filter.mpr ⟨hp, by simp⟩

/-- The first parked answer of the oldest request's key is its own. -/
theorem release (h : Reorders key released (i :: pending) answers waiting parked) {q : κ × α}
    (hfind : parked.find? (fun q => key i = q.1) = some q) :
    Reorders key (released ++ [(i, q.2)]) pending answers (waiting.tail)
      (parked.eraseP fun q => key i = q.1) := by
  -- The answers still in the buffer, split at the one that was found.
  generalize hheld : (answers.filter fun p => p.1 ∈ i :: pending) = held
  have hparked := h.parked
  rw [hheld] at hparked
  rw [hparked, List.find?_map, Option.map_eq_some_iff] at hfind
  obtain ⟨p, hp, rfl⟩ := hfind
  obtain ⟨hkey, before, after, hsplit, hbefore⟩ := List.find?_eq_some_iff_append.mp hp
  have hkey : key i = key p.1 := by simpa using hkey
  have hsub : held.Sublist answers := hheld ▸ List.filter_sublist
  have hpmem : p ∈ held := by rw [hsplit]; simp
  have horder := h.legal.inOrder.sublist hsub
  have hsorted := h.legal.sorted
  rw [List.pairwise_append] at hsorted
  have hhead : ∀ j ∈ pending, i < j := (List.pairwise_cons.mp hsorted.2.1).1
  have hin : p.1 = i ∨ p.1 ∈ pending := by
    rw [← hheld] at hpmem
    simpa using (List.mem_filter.mp hpmem).2
  -- Otherwise the oldest would have been answered earlier and found first.
  have hpi : p.1 = i := by
    rcases hin with heq | hlater
    · exact heq
    · exfalso
      have hlt := hhead p.1 hlater
      have hi := h.legal.closed p (hsub.subset hpmem) i (by simp) hkey hlt
      rcases List.mem_map.mp hi with ⟨p', hp', hpi'⟩
      have hheld' : p' ∈ held := by
        rw [← hheld]
        exact List.mem_filter.mpr ⟨hp', by simp [hpi']⟩
      rw [hsplit] at hheld' horder
      rcases List.mem_append.mp hheld' with hearly | hlate
      · have := hbefore p' hearly
        simp [hpi'] at this
      · rw [List.pairwise_append, List.pairwise_cons] at horder
        rcases List.mem_cons.mp hlate with heq | hlate
        · rw [heq] at hpi'
          exact absurd hpi' (ne_of_gt hlt)
        · have hkey' : key p.1 = key p'.1 := by rw [hpi', ← hkey]
          have := (horder.2.1.1 p' hlate).2 hkey'
          rw [hpi'] at this
          exact absurd this (lt_asymm hlt)
  have hmem : (i, p.2) ∈ answers := by
    rw [← hpi]
    exact hsub.subset hpmem
  -- No other answer is to the oldest request.
  have hothers : ∀ q ∈ before ++ after, q.1 ≠ i := by
    intro q hq
    rw [hsplit, List.pairwise_append, List.pairwise_cons] at horder
    rcases List.mem_append.mp hq with hq | hq
    · rw [← hpi]
      exact (horder.2.2 q hq p List.mem_cons_self).1
    · rw [← hpi]
      exact (horder.2.1.1 q hq).1.symm
  have hrest : (answers.filter fun p => p.1 ∈ pending) = before ++ after := by
    have hnot : i ∉ pending := fun hmem => lt_irrefl i (hhead i hmem)
    have hfilter : (answers.filter fun p => p.1 ∈ pending) = held.filter fun p => p.1 ≠ i := by
      rw [← hheld, List.filter_filter]
      apply List.filter_congr
      intro q _
      by_cases hq : q.1 = i
      · simp [hq, hnot]
      · simp [hq]
    rw [hfilter, hsplit, List.filter_append, List.filter_cons_of_neg (by simp [hpi]),
      ← List.filter_append]
    apply List.filter_eq_self.mpr
    intro q hq
    simpa using hothers q hq
  refine ⟨?_, ?_, ?_, ?_⟩
  · rw [List.map_append, List.map_singleton, List.append_assoc]
    exact h.legal
  · rw [h.waiting]
    rfl
  · rw [hrest, hparked, List.eraseP_map, hsplit, List.eraseP_append_right,
      List.eraseP_cons_of_pos]
    · simp [hkey]
    · intro q hq
      have := hbefore q hq
      simpa using this
  · intro q hq
    rcases List.mem_append.mp hq with hq | hq
    · exact h.released q hq
    · rw [List.mem_singleton.mp hq]
      exact hmem

end Reorders

end SoftHier.Foundation
