/-
  Foundation/Lists.lean --- lists changed at one place, lists related item by
  item, and loops over a list that can stop.
-/
import Mathlib.Algebra.GroupWithZero.Nat
import Mathlib.Data.List.Forall2

set_option autoImplicit false

namespace SoftHier.Foundation

variable {α β : Type}

/-! ## Changing one item -/

theorem modify_length_append (pre : List α) (x : α) (post : List α) (f : α → α) :
    (pre ++ x :: post).modify pre.length f = pre ++ f x :: post := by
  induction pre with
  | nil => rfl
  | cons a pre ih => rw [List.cons_append, List.length_cons, List.modify_succ_cons, ih]; rfl

/-- A change that a map does not see. -/
theorem map_modify_of_eq {f : α → β} {g : α → α} :
    ∀ {l : List α} {i : Nat}, (∀ x, l[i]? = some x → f (g x) = f x) →
      (l.modify i g).map f = l.map f := by
  intro l
  induction l with
  | nil => intro i _; simp
  | cons a l ih =>
    intro i h
    cases i with
    | zero => rw [List.modify_zero_cons, List.map_cons, List.map_cons, h a rfl]
    | succ i => rw [List.modify_succ_cons, List.map_cons, List.map_cons, ih fun x hx => h x hx]

/-! ## Lists related item by item -/

theorem getElem?_forall₂ {R : α → β → Prop} {xs : List α} {ys : List β}
    (h : List.Forall₂ R xs ys) {i : Nat} {x : α} (hx : xs[i]? = some x) :
    ∃ y, ys[i]? = some y ∧ R x y := by
  induction h generalizing i with
  | nil => simp at hx
  | @cons a b xs ys hab _ ih =>
    cases i with
    | zero =>
      obtain rfl : a = x := by simpa using hx
      exact ⟨b, rfl, hab⟩
    | succ i => exact ih hx

theorem exists_left_of_forall₂ {R : α → β → Prop} {xs : List α} {ys : List β}
    (h : List.Forall₂ R xs ys) {y : β} (hy : y ∈ ys) : ∃ x ∈ xs, R x y := by
  obtain ⟨i, hi⟩ := List.mem_iff_getElem?.mp hy
  obtain ⟨x, hx, hxy⟩ := getElem?_forall₂ h.flip hi
  exact ⟨x, List.mem_of_getElem? hx, hxy⟩

theorem forall₂_eq_map {f : α → β} {xs : List α} {ys : List β}
    (h : List.Forall₂ (fun x y => y = f x) xs ys) : ys = xs.map f := by
  induction h with
  | nil => rfl
  | cons hx _ ih => rw [hx, ih, List.map_cons]

theorem exists_forall₂ {R : α → β → Prop} {xs : List α} (h : ∀ x ∈ xs, ∃ y, R x y) :
    ∃ ys, List.Forall₂ R xs ys := by
  induction xs with
  | nil => exact ⟨[], .nil⟩
  | cons x xs ih =>
    obtain ⟨y, hy⟩ := h x List.mem_cons_self
    obtain ⟨ys, hys⟩ := ih fun z hz => h z (List.mem_cons_of_mem x hz)
    exact ⟨y :: ys, .cons hy hys⟩

/-- A map that can fail succeeds item by item. -/
theorem mapM_eq_ok_iff {ε : Type} {f : α → Except ε β} {xs : List α} {ys : List β} :
    xs.mapM f = .ok ys ↔ List.Forall₂ (fun x y => f x = .ok y) xs ys := by
  induction xs generalizing ys with
  | nil =>
    rw [List.mapM_nil, List.forall₂_nil_left_iff]
    exact ⟨fun h => (Except.ok.inj h).symm, fun h => h ▸ rfl⟩
  | cons x xs ih =>
    rw [List.mapM_cons, List.forall₂_cons_left_iff]
    cases hx : f x with
    | error e => exact ⟨nofun, fun ⟨_, _, h, _⟩ => absurd h nofun⟩
    | ok y =>
      cases hxs : xs.mapM f with
      | error e =>
        refine ⟨fun h => absurd h nofun, fun ⟨z, zs, _, hzs, _⟩ => ?_⟩
        rw [ih.mpr hzs] at hxs
        cases hxs
      | ok zs =>
        constructor
        · intro h
          cases h
          exact ⟨y, zs, rfl, ih.mp hxs, rfl⟩
        · rintro ⟨z, ws, hz, hws, rfl⟩
          cases hz
          rw [ih.mpr hws] at hxs
          cases hxs
          rfl

theorem exists_mapM_ok {ε : Type} {f : α → Except ε β} {xs : List α}
    (h : ∀ x ∈ xs, ∃ y, f x = .ok y) : ∃ ys, xs.mapM f = .ok ys := by
  obtain ⟨ys, hys⟩ := exists_forall₂ h
  exact ⟨ys, mapM_eq_ok_iff.mpr hys⟩

/-- A map that succeeds where a condition holds, with a value that is known then. -/
theorem mapM_eq_ok_map_iff {ε : Type} {f : α → Except ε β} {P : α → Prop} {g : α → β}
    (hf : ∀ x y, f x = .ok y ↔ P x ∧ y = g x) {xs : List α} {ys : List β} :
    xs.mapM f = .ok ys ↔ (∀ x ∈ xs, P x) ∧ ys = xs.map g := by
  rw [mapM_eq_ok_iff]
  constructor
  · intro h
    induction h with
    | nil => exact ⟨fun _ hx => absurd hx List.not_mem_nil, rfl⟩
    | @cons x y xs ys hxy _ ih =>
      obtain ⟨hx, rfl⟩ := (hf x y).mp hxy
      exact ⟨List.forall_mem_cons.mpr ⟨hx, ih.1⟩, congrArg (g x :: ·) ih.2⟩
  · rintro ⟨hP, rfl⟩
    induction xs with
    | nil => exact .nil
    | cons x xs ih =>
      rw [List.forall_mem_cons] at hP
      exact .cons ((hf x _).mpr ⟨hP.1, rfl⟩) (ih hP.2)

/-- What holds of any two items carries over to the related items. -/
theorem pairwise_of_forall₂ {R : α → β → Prop} {P : α → α → Prop} {Q : β → β → Prop}
    {xs : List α} {ys : List β} (h : List.Forall₂ R xs ys)
    (hQ : ∀ x ∈ xs, ∀ x' ∈ xs, ∀ y y', R x y → R x' y' → P x x' → Q y y')
    (hxs : xs.Pairwise P) : ys.Pairwise Q := by
  induction h with
  | nil => exact List.Pairwise.nil
  | @cons a b xs ys hab hrest ih =>
    rw [List.pairwise_cons] at hxs ⊢
    refine ⟨fun b' hb' => ?_, ih (fun x hx x' hx' => hQ x (List.mem_cons_of_mem a hx) x'
      (List.mem_cons_of_mem a hx')) hxs.2⟩
    obtain ⟨a', ha', hab'⟩ := exists_left_of_forall₂ hrest hb'
    exact hQ a List.mem_cons_self a' (List.mem_cons_of_mem a ha') b b' hab hab' (hxs.1 a' ha')

/-! ## The last item -/

/-- The last of the items that fail a test. -/
theorem exists_last_false {p : α → Bool} {xs : List α} (h : xs.all p = false) :
    ∃ pre x post, xs = pre ++ x :: post ∧ p x = false ∧ post.all p = true := by
  induction xs with
  | nil => cases h
  | cons x xs ih =>
    cases hrest : xs.all p with
    | false =>
      obtain ⟨pre, y, post, hxs, hy, hpost⟩ := ih hrest
      exact ⟨x :: pre, y, post, by rw [hxs, List.cons_append], hy, hpost⟩
    | true =>
      rw [List.all_cons, hrest, Bool.and_true] at h
      exact ⟨[], x, xs, rfl, h, hrest⟩

/-! ## Loops that stop -/

/-- A computation succeeds when its first step does, and what follows it. -/
theorem bind_eq_ok_iff {ε : Type} {x : Except ε α} {f : α → Except ε β} {b : β} :
    x >>= f = .ok b ↔ ∃ a, x = .ok a ∧ f a = .ok b := by
  cases x with
  | error e =>
    constructor
    · intro h
      cases h
    · rintro ⟨a, h, -⟩
      cases h
  | ok a =>
    constructor
    · exact fun h => ⟨a, rfl, h⟩
    · rintro ⟨a', h, hf⟩
      cases h
      exact hf

/-- What is done to a result does not decide whether there is one. -/
theorem map_eq_ok_iff {ε : Type} {x : Except ε α} {f : α → β} {b : β} :
    x.map f = .ok b ↔ ∃ a, x = .ok a ∧ b = f a := by
  cases x with
  | error e =>
    constructor
    · intro h
      cases h
    · rintro ⟨a, h, -⟩
      cases h
  | ok a =>
    constructor
    · intro h
      cases h
      exact ⟨a, rfl, rfl⟩
    · rintro ⟨a', h, rfl⟩
      cases h
      rfl

/-- Either the first step of a computation fails, or what follows it does. -/
theorem bind_eq_error_iff {ε : Type} {x : Except ε α} {f : α → Except ε β} {e : ε} :
    x >>= f = .error e ↔ x = .error e ∨ ∃ a, x = .ok a ∧ f a = .error e := by
  cases x with
  | error e' =>
    constructor
    · intro h
      cases h
      exact .inl rfl
    · rintro (h | ⟨a, h, -⟩)
      · cases h
        rfl
      · cases h
  | ok a =>
    constructor
    · exact fun h => .inr ⟨a, rfl, h⟩
    · rintro (h | ⟨a', h, hf⟩)
      · cases h
      · cases h
        exact hf

/-- Every item a loop gets to has `P`, where the loop goes on behind the items with
`Goes` only. -/
def UpToStop (Goes P : α → Prop) : List α → Prop
  | [] => True
  | x :: xs => P x ∧ (Goes x → UpToStop Goes P xs)

variable {Goes P : α → Prop}

theorem UpToStop.of_goes {xs : List α} (h : UpToStop Goes P xs) (hgoes : ∀ x ∈ xs, Goes x) :
    ∀ x ∈ xs, P x := by
  induction xs with
  | nil => exact fun x hx => absurd hx List.not_mem_nil
  | cons x xs ih =>
    rw [List.forall_mem_cons] at hgoes ⊢
    exact ⟨h.1, ih (h.2 hgoes.1) hgoes.2⟩

theorem upToStop_concat {xs : List α} {x : α} :
    UpToStop Goes P (xs ++ [x]) ↔ UpToStop Goes P xs ∧ ((∀ y ∈ xs, Goes y) → P x) := by
  induction xs with
  | nil => simp [UpToStop]
  | cons y ys ih =>
    rw [List.cons_append, UpToStop, UpToStop, List.forall_mem_cons, ih]
    exact ⟨fun ⟨hy, h⟩ => ⟨⟨hy, fun hgoes => (h hgoes).1⟩, fun hall => (h hall.1).2 hall.2⟩,
      fun ⟨⟨hy, h⟩, hx⟩ => ⟨hy, fun hgoes => ⟨h hgoes, fun hall => hx ⟨hgoes, hall⟩⟩⟩⟩

theorem upToStop_range {G Q : Nat → Prop} {n : Nat} :
    UpToStop G Q (List.range n) ↔ ∀ j < n, (∀ i < j, G i) → Q j := by
  induction n with
  | zero => exact iff_of_true trivial fun j hj => absurd hj (Nat.not_lt_zero j)
  | succ n ih =>
    rw [List.range_succ, upToStop_concat, ih]
    simp only [List.mem_range]
    constructor
    · rintro ⟨hbefore, hlast⟩ j hj hall
      rcases Nat.lt_succ_iff_lt_or_eq.mp hj with hlt | rfl
      · exact hbefore j hlt hall
      · exact hlast hall
    · exact fun h => ⟨fun j hj => h j (Nat.lt_succ_of_lt hj), h n (Nat.lt_succ_self n)⟩

/-- A fold whose rounds raise `e` on the items without `P`, and go on behind those
with `P` and `Goes`. -/
theorem foldlM_eq_error_iff {ε : Type} {f : β → α → Except ε β} {e : ε} {xs : List α}
    (herror : ∀ x ∈ xs, ∀ b, f b x = .error e ↔ ¬ P x)
    (hok : ∀ x ∈ xs, P x → ∀ b, (∃ b', f b x = .ok b') ↔ Goes x) (b : β) :
    xs.foldlM f b = .error e ↔ ¬ UpToStop Goes P xs := by
  induction xs generalizing b with
  | nil => exact iff_of_false nofun (not_not.mpr trivial)
  | cons x xs ih =>
    rw [List.forall_mem_cons] at herror hok
    rw [List.foldlM_cons, UpToStop]
    by_cases hP : P x
    · cases hx : f b x with
      | error e' =>
        have hnot : ¬ Goes x := fun hgoes => by
          obtain ⟨b', hb'⟩ := (hok.1 hP b).mpr hgoes
          rw [hx] at hb'
          cases hb'
        refine iff_of_false (fun h => ?_) (not_not.mpr ⟨hP, fun hgoes => absurd hgoes hnot⟩)
        exact (herror.1 b).mp (hx.trans h) hP
      | ok b' =>
        have hgoes : Goes x := (hok.1 hP b).mp ⟨b', hx⟩
        refine (ih herror.2 hok.2 b').trans (not_congr ?_)
        exact ⟨fun h => ⟨hP, fun _ => h⟩, fun h => h.2 hgoes⟩
    · rw [(herror.1 b).mpr hP]
      exact iff_of_true rfl fun h => hP h.1

theorem exists_foldlM_eq_ok_iff {ε : Type} {f : β → α → Except ε β} {xs : List α}
    (hok : ∀ x ∈ xs, P x → ∀ b, (∃ b', f b x = .ok b') ↔ Goes x) (h : UpToStop Goes P xs)
    (b : β) : (∃ b', xs.foldlM f b = .ok b') ↔ ∀ x ∈ xs, Goes x := by
  induction xs generalizing b with
  | nil => exact iff_of_true ⟨b, rfl⟩ fun x hx => absurd hx List.not_mem_nil
  | cons x xs ih =>
    rw [List.forall_mem_cons] at hok ⊢
    rw [List.foldlM_cons]
    cases hx : f b x with
    | error e =>
      refine iff_of_false (fun ⟨_, h⟩ => absurd h nofun) fun hall => ?_
      obtain ⟨b', hb'⟩ := (hok.1 h.1 b).mpr hall.1
      rw [hx] at hb'
      cases hb'
    | ok b' =>
      have hgoes : Goes x := (hok.1 h.1 b).mp ⟨b', hx⟩
      exact (ih hok.2 (h.2 hgoes) b').trans (and_iff_right hgoes).symm

theorem foldlM_eq_ok {ε : Type} {f : β → α → Except ε β} {g : β → α → β} {xs : List α}
    (h : ∀ x ∈ xs, ∀ b, f b x = .ok (g b x)) (b : β) : xs.foldlM f b = .ok (xs.foldl g b) := by
  induction xs generalizing b with
  | nil => rfl
  | cons x xs ih =>
    rw [List.forall_mem_cons] at h
    rw [List.foldlM_cons, List.foldl_cons, h.1 b]
    exact ih h.2 (g b x)

theorem forM_eq_foldlM {ε : Type} (f : α → Except ε Unit) (xs : List α) :
    xs.forM f = xs.foldlM (fun _ x => f x) () := by
  induction xs with
  | nil => rfl
  | cons x xs ih =>
    change (f x >>= fun _ => xs.forM f) = (f x >>= fun _ => xs.foldlM (fun _ x => f x) ())
    rw [ih]

/-- A loop that notes every hit ends with the last one. -/
theorem foldl_last {f : β → Nat → β} (get : β → Nat) {p : Nat → Prop}
    (hhit : ∀ b i, p i → get (f b i) = i) (hmiss : ∀ b i, ¬ p i → get (f b i) = get b)
    {b : β} {m : Nat} (hm : get b ≠ m) (n : Nat) :
    get ((List.range n).foldl f b) = m ↔ m < n ∧ p m ∧ ∀ j, m < j → j < n → ¬ p j := by
  induction n with
  | zero => exact iff_of_false hm fun h => absurd h.1 (Nat.not_lt_zero m)
  | succ n ih =>
    rw [List.range_succ, List.foldl_append, List.foldl_cons, List.foldl_nil]
    by_cases hp : p n
    · rw [hhit _ n hp]
      constructor
      · rintro rfl
        exact ⟨Nat.lt_succ_self n, hp, fun j hlt hle => absurd hlt (by omega)⟩
      · rintro ⟨hlt, -, hlast⟩
        by_contra hne
        exact hlast n (by omega) (Nat.lt_succ_self n) hp
    · rw [hmiss _ n hp, ih]
      constructor
      · rintro ⟨hlt, hpm, hlast⟩
        refine ⟨Nat.lt_succ_of_lt hlt, hpm, fun j hj hle => ?_⟩
        rcases Nat.lt_succ_iff_lt_or_eq.mp hle with h | rfl
        · exact hlast j hj h
        · exact hp
      · rintro ⟨hlt, hpm, hlast⟩
        have hne : m ≠ n := fun h => hp (h ▸ hpm)
        exact ⟨by omega, hpm, fun j hj hjn => hlast j hj (Nat.lt_succ_of_lt hjn)⟩

/-! ## Sums of a part -/

theorem sum_map_ite_le (p : α → Prop) [DecidablePred p] (g : α → Nat) (xs : List α) :
    (xs.map fun x => if p x then g x else 0).sum ≤ (xs.map g).sum := by
  induction xs with
  | nil => exact Nat.le_refl 0
  | cons x xs ih =>
    rw [List.map_cons, List.map_cons, List.sum_cons, List.sum_cons]
    split
    · omega
    · omega

/-- Leaving out some of the summands changes nothing exactly when all of those are
zero. -/
theorem sum_map_ite_eq_iff {p : α → Prop} [DecidablePred p] {g : α → Nat} {xs : List α} :
    (xs.map fun x => if p x then g x else 0).sum = (xs.map g).sum ↔ ∀ x ∈ xs, p x ∨ g x = 0 := by
  induction xs with
  | nil => simp
  | cons x xs ih =>
    have hle := sum_map_ite_le p g xs
    rw [List.map_cons, List.map_cons, List.sum_cons, List.sum_cons, List.forall_mem_cons, ← ih]
    by_cases hp : p x
    · rw [if_pos hp]
      simp [hp]
    · rw [if_neg hp]
      simp only [hp, false_or]
      omega

end SoftHier.Foundation
