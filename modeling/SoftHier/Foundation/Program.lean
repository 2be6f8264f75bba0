/-
  Foundation/Program.lean --- programs over a state that survives an exception.

  `EStateM` keeps the state an exception was raised in, as an object-oriented
  language does: what a method has already changed stays changed.  The lemmas
  below take a run that returned normally apart, statement by statement, and
  package the induction over a loop.
-/
import SoftHier.Foundation.Lists
import Mathlib.Data.List.Basic

set_option autoImplicit false

namespace SoftHier.Foundation

/-- A program over the state `σ` that returns an `α` or raises an `ε`. -/
abbrev Program (ε σ α : Type) : Type := EStateM ε σ α

namespace Program

variable {ε σ α β : Type}

/-- The program ran to its end: its value and the state it left. -/
def Returns (p : Program ε σ α) (s : σ) (a : α) (s' : σ) : Prop := p s = .ok a s'

/-! ## Statements -/

/-- Read something off the state; reading may raise. -/
def reading (f : σ → Except ε α) : Program ε σ α := fun s =>
  match f s with
  | .ok a => .ok a s
  | .error e => .error e s

/-- `for x in xs: body`. -/
def forEach (body : α → Program ε σ Unit) : List α → Program ε σ Unit
  | [] => pure ()
  | x :: xs => do
      body x
      forEach body xs

theorem returns_bind {p : Program ε σ α} {f : α → Program ε σ β} {s s' : σ} {b : β} :
    Returns (p >>= f) s b s' ↔ ∃ a t, Returns p s a t ∧ Returns (f a) t b s' := by
  change (match p s with
    | .ok a t => f a t
    | .error e t => .error e t) = .ok b s' ↔ _
  unfold Returns
  cases hp : p s with
  | ok a t =>
    constructor
    · intro h; exact ⟨a, t, rfl, h⟩
    · rintro ⟨a', t', heq, h⟩
      cases heq
      exact h
  | error e t =>
    constructor
    · intro h; cases h
    · rintro ⟨_, _, heq, _⟩; cases heq

/-- A program has one outcome. -/
theorem Returns.unique {p : Program ε σ α} {s t t' : σ} {a a' : α} (h : Returns p s a t)
    (h' : Returns p s a' t') : a = a' ∧ t = t' := by
  unfold Returns at h h'
  rw [h] at h'
  cases h'
  exact ⟨rfl, rfl⟩

/-- Run the first statement of a program whose outcome is known. -/
theorem Returns.advance {p : Program ε σ α} {f : α → Program ε σ β} {s t s' : σ} {a : α} {b : β}
    (hp : Returns p s a t) (h : Returns (p >>= f) s b s') : Returns (f a) t b s' := by
  obtain ⟨a', t', hp', hf⟩ := returns_bind.mp h
  obtain ⟨rfl, rfl⟩ := hp.unique hp'
  exact hf

theorem Returns.bind {p : Program ε σ α} {f : α → Program ε σ β} {s t s' : σ} {a : α} {b : β}
    (hp : Returns p s a t) (hf : Returns (f a) t b s') : Returns (p >>= f) s b s' :=
  returns_bind.mpr ⟨a, t, hp, hf⟩

/-- Run the first statement, whatever comes of the rest. -/
theorem Returns.run_bind {p : Program ε σ α} {s t : σ} {a : α} (h : Returns p s a t)
    (f : α → Program ε σ β) : (p >>= f) s = f a t := by
  change (match p s with
    | .ok a t => f a t
    | .error e t => .error e t) = f a t
  unfold Returns at h
  rw [h]

/-- The rest of a program depends on what the first statement made of the state. -/
theorem run_bind_congr {p : Program ε σ α} {s s' : σ} (h : p s = p s')
    (f : α → Program ε σ β) : (p >>= f) s = (p >>= f) s' := by
  change (match p s with
    | .ok a t => f a t
    | .error e t => .error e t) = match p s' with
    | .ok a t => f a t
    | .error e t => .error e t
  rw [h]

@[simp] theorem returns_pure {a b : α} {s s' : σ} :
    Returns (pure a : Program ε σ α) s b s' ↔ a = b ∧ s = s' := by
  change (EStateM.Result.ok a s : EStateM.Result ε σ α) = .ok b s' ↔ _
  constructor
  · intro h; cases h; exact ⟨rfl, rfl⟩
  · rintro ⟨rfl, rfl⟩; rfl

@[simp] theorem returns_get {s s' a : σ} :
    Returns (get : Program ε σ σ) s a s' ↔ s = a ∧ s = s' := by
  change (EStateM.Result.ok s s : EStateM.Result ε σ σ) = .ok a s' ↔ _
  constructor
  · intro h; cases h; exact ⟨rfl, rfl⟩
  · rintro ⟨rfl, rfl⟩; rfl

theorem returns_get_bind {f : σ → Program ε σ β} {s s' : σ} {b : β} :
    Returns (get >>= f) s b s' ↔ Returns (f s) s b s' := Iff.rfl

theorem returns_modify_bind {g : σ → σ} {f : PUnit → Program ε σ β} {s s' : σ} {b : β} :
    Returns (modify g >>= f) s b s' ↔ Returns (f ⟨⟩) (g s) b s' := Iff.rfl

@[simp] theorem returns_set {s s' t : σ} {u : PUnit} :
    Returns (set t : Program ε σ PUnit) s u s' ↔ t = s' := by
  change (EStateM.Result.ok PUnit.unit t : EStateM.Result ε σ PUnit) = .ok u s' ↔ _
  constructor
  · intro h; cases h; rfl
  · rintro rfl; rfl

@[simp] theorem returns_modify {f : σ → σ} {s s' : σ} {u : PUnit} :
    Returns (modify f : Program ε σ PUnit) s u s' ↔ f s = s' := by
  change (EStateM.Result.ok PUnit.unit (f s) : EStateM.Result ε σ PUnit) = .ok u s' ↔ _
  constructor
  · intro h; cases h; rfl
  · rintro rfl; rfl

/-- The state is changed, and something of the state before is returned. -/
theorem returns_get_set_pure {g : σ → σ} {f : σ → α} {s s' : σ} {a : α} :
    Returns (get >>= fun t => set (g t) >>= fun _ => pure (f t) : Program ε σ α) s a s' ↔
      f s = a ∧ g s = s' := by
  rw [returns_get_bind]
  constructor
  · intro h
    obtain ⟨_, t, hset, hpure⟩ := returns_bind.mp h
    obtain rfl := returns_set.mp hset
    exact returns_pure.mp hpure
  · rintro ⟨rfl, rfl⟩
    rfl

@[simp] theorem not_returns_throw {e : ε} {s s' : σ} {a : α} :
    ¬ Returns (throw e : Program ε σ α) s a s' := by
  change ¬ (EStateM.Result.error e s : EStateM.Result ε σ α) = .ok a s'
  nofun

@[simp] theorem returns_reading {f : σ → Except ε α} {s s' : σ} {a : α} :
    Returns (reading f) s a s' ↔ f s = .ok a ∧ s = s' := by
  unfold Returns reading
  cases f s with
  | ok b => simp
  | error e => simp

/-- Evaluate what does not depend on the state. -/
theorem reading_ok_bind {x : Except ε α} {a : α} (h : x = .ok a) (g : α → Program ε σ β) :
    (reading (fun _ => x) >>= g) = g a := by
  rw [h]
  rfl

theorem reading_error_bind {x : Except ε α} {e : ε} (h : x = .error e) (g : α → Program ε σ β) :
    (reading (fun _ => x) >>= g) = throw e := by
  rw [h]
  rfl

theorem returns_eval_bind {x : Except ε α} {g : α → Program ε σ β} {s s' : σ} {a : α} {b : β}
    (h : x = .ok a) : Returns (reading (fun _ => x) >>= g) s b s' ↔ Returns (g a) s b s' := by
  rw [reading_ok_bind h]

/-! ## Loops -/

@[simp] theorem returns_forEach_nil {body : α → Program ε σ Unit} {s s' : σ} {u : Unit} :
    Returns (forEach body []) s u s' ↔ s = s' := by
  cases u
  simp [forEach]

theorem returns_forEach_cons {body : α → Program ε σ Unit} {x : α} {xs : List α} {s s' : σ}
    {u : Unit} :
    Returns (forEach body (x :: xs)) s u s' ↔
      ∃ t, Returns (body x) s () t ∧ Returns (forEach body xs) t u s' := by
  rw [forEach, returns_bind]
  exact ⟨fun ⟨_, t, h1, h2⟩ => ⟨t, h1, h2⟩, fun ⟨t, h1, h2⟩ => ⟨(), t, h1, h2⟩⟩

theorem returns_forEach_append {body : α → Program ε σ Unit} {xs ys : List α} {s s' : σ}
    {u : Unit} :
    Returns (forEach body (xs ++ ys)) s u s' ↔
      ∃ t, Returns (forEach body xs) s () t ∧ Returns (forEach body ys) t u s' := by
  induction xs generalizing s with
  | nil =>
    simp only [List.nil_append, returns_forEach_nil]
    exact ⟨fun h => ⟨s, rfl, h⟩, fun ⟨_, heq, h⟩ => heq ▸ h⟩
  | cons x xs ih =>
    simp only [List.cons_append, returns_forEach_cons, ih]
    exact ⟨fun ⟨t, h1, r, h2, h3⟩ => ⟨r, ⟨t, h1, h2⟩, h3⟩,
      fun ⟨r, ⟨t, h1, h2⟩, h3⟩ => ⟨t, h1, r, h2, h3⟩⟩

theorem returns_forEach_singleton {body : α → Program ε σ Unit} {x : α} {s s' : σ} {u : Unit} :
    Returns (forEach body [x]) s u s' ↔ Returns (body x) s () s' := by
  rw [returns_forEach_cons]
  exact ⟨fun ⟨_, h, heq⟩ => returns_forEach_nil.mp heq ▸ h,
    fun h => ⟨s', h, returns_forEach_nil.mpr rfl⟩⟩

/-- A loop that reads its items one by one is the loop over what it reads. -/
theorem forEach_reading_eq {f : α → Except ε β} {body : β → Program ε σ Unit} {xs : List α}
    {ys : List β} (h : xs.mapM f = .ok ys) :
    forEach (fun x => reading (fun _ => f x) >>= body) xs = forEach body ys := by
  have hall := mapM_eq_ok_iff.mp h
  clear h
  induction hall with
  | nil => rfl
  | @cons x y xs ys hy _ ih =>
    rw [forEach, forEach, ih, hy]
    rfl

theorem returns_forEach_reading {f : α → Except ε β} {body : β → Program ε σ Unit} {xs : List α}
    {ys : List β} (h : xs.mapM f = .ok ys) {s s' : σ} {u : Unit} :
    Returns (forEach (fun x => reading (fun _ => f x) >>= body) xs) s u s' ↔
      Returns (forEach body ys) s u s' := by
  rw [forEach_reading_eq h]

/-- The invariant rule: `I done s` holds after the elements `done`. -/
theorem forEach_induct {body : α → Program ε σ Unit} (I : List α → σ → Prop)
    (step : ∀ (done : List α) (x : α) (s s' : σ),
      I done s → Returns (body x) s () s' → I (done ++ [x]) s') :
    ∀ {xs : List α} {s s' : σ} {u : Unit} (done : List α), I done s →
      Returns (forEach body xs) s u s' → I (done ++ xs) s' := by
  intro xs
  induction xs with
  | nil =>
    intro s s' u done hI h
    rw [returns_forEach_nil] at h
    rw [List.append_nil, ← h]
    exact hI
  | cons x xs ih =>
    intro s s' u done hI h
    obtain ⟨t, hbody, hrest⟩ := returns_forEach_cons.mp h
    have := ih (done ++ [x]) (step done x s t hI hbody) hrest
    rwa [List.append_assoc, List.singleton_append] at this

/-- The invariant rule for a loop over `enumerate(xs)`: `I i s` holds after `i`
elements. -/
theorem forEach_zipIdx_induct {body : α × Nat → Program ε σ Unit} (I : Nat → σ → Prop)
    {xs : List α}
    (step : ∀ (i : Nat) (x : α) (s s' : σ),
      xs[i]? = some x → I i s → Returns (body (x, i)) s () s' → I (i + 1) s')
    {s s' : σ} (h0 : I 0 s) (h : Returns (forEach body xs.zipIdx) s () s') : I xs.length s' := by
  suffices hgen : ∀ (rest done : List α) (s s' : σ), done ++ rest = xs → I done.length s →
      Returns (forEach body (rest.zipIdx done.length)) s () s' → I xs.length s' from
    hgen xs [] s s' rfl h0 h
  intro rest
  induction rest with
  | nil =>
    intro done s s' hxs hI h
    rw [List.zipIdx_nil, returns_forEach_nil] at h
    rw [← hxs, List.append_nil, ← h]
    exact hI
  | cons x rest ih =>
    intro done s s' hxs hI h
    rw [List.zipIdx_cons] at h
    obtain ⟨t, hone, hrest⟩ := returns_forEach_cons.mp h
    have hx : xs[done.length]? = some x := by rw [← hxs]; simp
    have hlen : (done ++ [x]).length = done.length + 1 := by simp
    refine ih (done ++ [x]) t s' (by rw [← hxs]; simp) ?_ ?_
    · rw [hlen]
      exact step done.length x s t hx hI hone
    · rw [hlen]
      exact hrest

/-! ## What a program leaves alone -/

/-- Every run that returns relates the state before to the state after. -/
def Keeps (R : σ → σ → Prop) (p : Program ε σ α) : Prop :=
  ∀ s a s', Returns p s a s' → R s s'

variable {R : σ → σ → Prop}

theorem keeps_pure (hrefl : ∀ s, R s s) (a : α) : Keeps R (pure a : Program ε σ α) := by
  intro s b s' h
  rw [← (returns_pure.mp h).2]
  exact hrefl s

theorem keeps_get (hrefl : ∀ s, R s s) : Keeps R (get : Program ε σ σ) := by
  intro s b s' h
  rw [← (returns_get.mp h).2]
  exact hrefl s

theorem keeps_throw (e : ε) : Keeps R (throw e : Program ε σ α) := by
  intro s b s' h
  exact absurd h not_returns_throw

theorem keeps_reading (hrefl : ∀ s, R s s) (f : σ → Except ε α) :
    Keeps R (reading f) := by
  intro s b s' h
  rw [← (returns_reading.mp h).2]
  exact hrefl s

theorem keeps_bind (htrans : ∀ ⦃s t u⦄, R s t → R t u → R s u) {p : Program ε σ α}
    {f : α → Program ε σ β} (hp : Keeps R p) (hf : ∀ a, Keeps R (f a)) : Keeps R (p >>= f) := by
  intro s b s' h
  obtain ⟨a, t, hpa, hfa⟩ := returns_bind.mp h
  exact htrans (hp s a t hpa) (hf a t b s' hfa)

theorem keeps_forEach (hrefl : ∀ s, R s s) (htrans : ∀ ⦃s t u⦄, R s t → R t u → R s u)
    {body : α → Program ε σ Unit} {xs : List α} (hbody : ∀ x ∈ xs, Keeps R (body x)) :
    Keeps R (forEach body xs) := by
  induction xs with
  | nil => exact keeps_pure hrefl ()
  | cons x xs ih =>
    exact keeps_bind htrans (hbody x List.mem_cons_self) fun _ =>
      ih fun y hy => hbody y (List.mem_cons_of_mem x hy)

/-! ## The state after an exception -/

/-- The program raised an exception: the exception and the state it left. -/
def Raises (p : Program ε σ α) (s : σ) (e : ε) (s' : σ) : Prop := p s = .error e s'

theorem raises_throw (e : ε) (s : σ) : Raises (throw e : Program ε σ α) s e s := rfl

theorem raises_throw_iff {e e' : ε} {s s' : σ} :
    Raises (throw e : Program ε σ α) s e' s' ↔ e = e' ∧ s = s' := by
  constructor
  · intro h
    cases h
    exact ⟨rfl, rfl⟩
  · rintro ⟨rfl, rfl⟩
    exact raises_throw e s

theorem raises_get_bind {f : σ → Program ε σ β} {s s' : σ} {e : ε} :
    Raises (get >>= f) s e s' ↔ Raises (f s) s e s' := Iff.rfl

theorem raises_modify_bind {g : σ → σ} {f : PUnit → Program ε σ β} {s s' : σ} {e : ε} :
    Raises (modify g >>= f) s e s' ↔ Raises (f ⟨⟩) (g s) e s' := Iff.rfl

theorem not_raises_pure {a : α} {s s' : σ} {e : ε} :
    ¬ Raises (pure a : Program ε σ α) s e s' := nofun

/-- Either the first statement raised, or it returned and the rest raised. -/
theorem raises_bind {p : Program ε σ α} {f : α → Program ε σ β} {s s' : σ} {e : ε} :
    Raises (p >>= f) s e s' ↔
      Raises p s e s' ∨ ∃ a t, Returns p s a t ∧ Raises (f a) t e s' := by
  have hbind : (p >>= f) s = match p s with
      | .ok a t => f a t
      | .error e t => .error e t := rfl
  unfold Raises Returns
  rw [hbind]
  cases p s with
  | ok a t =>
    constructor
    · exact fun h => .inr ⟨a, t, rfl, h⟩
    · rintro (h | ⟨a', t', heq, h⟩)
      · cases h
      · cases heq
        exact h
  | error e' t =>
    constructor
    · intro h
      cases h
      exact .inl rfl
    · rintro (h | ⟨a', t', heq, _⟩)
      · cases h
        rfl
      · cases heq

theorem not_raises_modify {f : σ → σ} {s s' : σ} {e : ε} :
    ¬ Raises (modify f : Program ε σ PUnit) s e s' := by
  intro h
  unfold Raises at h
  cases h

theorem not_raises_forEach_nil {body : α → Program ε σ Unit} {s s' : σ} {e : ε} :
    ¬ Raises (forEach body []) s e s' := not_raises_pure

theorem raises_forEach_cons {body : α → Program ε σ Unit} {x : α} {xs : List α} {s s' : σ}
    {e : ε} :
    Raises (forEach body (x :: xs)) s e s' ↔
      Raises (body x) s e s' ∨
        ∃ t, Returns (body x) s () t ∧ Raises (forEach body xs) t e s' := by
  rw [forEach, raises_bind]
  exact or_congr_right ⟨fun ⟨_, t, h1, h2⟩ => ⟨t, h1, h2⟩, fun ⟨t, h1, h2⟩ => ⟨(), t, h1, h2⟩⟩

@[simp] theorem raises_reading {f : σ → Except ε α} {s s' : σ} {e : ε} :
    Raises (reading f) s e s' ↔ f s = .error e ∧ s = s' := by
  change (match f s with
    | .ok a => .ok a s
    | .error e => .error e s : EStateM.Result ε σ α) = .error e s' ↔ _
  cases f s with
  | ok a => exact ⟨nofun, nofun⟩
  | error e' =>
    constructor
    · intro h
      cases h
      exact ⟨rfl, rfl⟩
    · rintro ⟨h, rfl⟩
      cases h
      rfl

theorem not_raises_forEach {body : α → Program ε σ Unit}
    (hbody : ∀ x s e s', ¬ Raises (body x) s e s') (xs : List α) :
    ∀ {s s' : σ} {e : ε}, ¬ Raises (forEach body xs) s e s' := by
  induction xs with
  | nil => exact not_raises_forEach_nil
  | cons x xs ih =>
    intro s s' e h
    rcases raises_forEach_cons.mp h with h | ⟨t, -, h⟩
    · exact hbody x s e s' h
    · exact ih h

/-- What follows the statement that raised is not run. -/
theorem Raises.bind {p : Program ε σ α} {s s' : σ} {e : ε} (h : Raises p s e s')
    (f : α → Program ε σ β) : Raises (p >>= f) s e s' := by
  have hbind : (p >>= f) s = match p s with
      | .ok a t => f a t
      | .error e t => .error e t := rfl
  unfold Raises at *
  rw [hbind, h]

/-- The state a program leaves, whether it returned or raised. -/
def finalState (p : Program ε σ α) (s : σ) : σ :=
  match p s with
  | .ok _ s' => s'
  | .error _ s' => s'

theorem Returns.finalState {p : Program ε σ α} {s s' : σ} {a : α} (h : Returns p s a s') :
    finalState p s = s' := by
  unfold Returns at h
  unfold Program.finalState
  rw [h]

theorem Raises.finalState {p : Program ε σ α} {s s' : σ} {e : ε} (h : Raises p s e s') :
    finalState p s = s' := by
  unfold Program.finalState
  rw [h]

/-- What a program returns, if it returns. -/
def returned? (p : Program ε σ α) (s : σ) : Option α :=
  match p s with
  | .ok a _ => some a
  | .error _ _ => none

theorem Returns.returned? {p : Program ε σ α} {s s' : σ} {a : α} (h : Returns p s a s') :
    returned? p s = some a := by
  unfold Returns at h
  unfold Program.returned?
  rw [h]

/-- A run that was evaluated. -/
theorem returns_of_returned? {p : Program ε σ α} {s : σ} {a : α} (h : returned? p s = some a) :
    Returns p s a (Program.finalState p s) := by
  unfold returned? at h
  unfold Returns Program.finalState
  cases hp : p s with
  | ok b t =>
    rw [hp] at h
    cases h
    rfl
  | error e t =>
    rw [hp] at h
    cases h

/-- What a program raises, if it raises. -/
def raised? (p : Program ε σ α) (s : σ) : Option ε :=
  match p s with
  | .ok _ _ => none
  | .error e _ => some e

/-- An exception that was found by evaluation. -/
theorem raises_of_raised? {p : Program ε σ α} {s : σ} {e : ε} (h : raised? p s = some e) :
    Raises p s e (Program.finalState p s) := by
  unfold raised? at h
  unfold Raises Program.finalState
  cases hp : p s with
  | ok a t =>
    rw [hp] at h
    cases h
  | error e' t =>
    rw [hp] at h
    cases h
    rfl

/-- A program that never changes the state. -/
def ReadOnly (p : Program ε σ α) : Prop := ∀ s, finalState p s = s

theorem readOnly_pure (a : α) : ReadOnly (pure a : Program ε σ α) := fun _ => rfl

theorem readOnly_reading (f : σ → Except ε α) : ReadOnly (reading f) := by
  intro s
  unfold Program.finalState reading
  cases f s <;> rfl

theorem readOnly_get_bind {f : σ → Program ε σ α} (hf : ∀ t, ReadOnly (f t)) :
    ReadOnly (get >>= f) := fun s => hf s s

/-- What only reads does not show in the state. -/
theorem finalState_bind {p : Program ε σ α} {f : α → Program ε σ β} (hf : ∀ a, ReadOnly (f a))
    (s : σ) : finalState (p >>= f) s = finalState p s := by
  have hbind : (p >>= f) s = match p s with
      | .ok a t => f a t
      | .error e t => .error e t := rfl
  unfold Program.finalState
  rw [hbind]
  cases hp : p s with
  | ok a t => exact hf a t
  | error e t => rfl

/-- Every run, whether it returns or raises, relates the state before to the state
after. -/
def Always (R : σ → σ → Prop) (p : Program ε σ α) : Prop := ∀ s, R s (finalState p s)

theorem ReadOnly.always {p : Program ε σ α} (h : ReadOnly p) (hrefl : ∀ s, R s s) :
    Always R p := by
  intro s
  rw [h s]
  exact hrefl s

theorem always_modify {f : σ → σ} (hf : ∀ s, R s (f s)) :
    Always R (modify f : Program ε σ PUnit) := hf

theorem always_get_bind {f : σ → Program ε σ α} (hf : ∀ t, Always R (f t)) :
    Always R (get >>= f) := fun s => hf s s

theorem always_bind (htrans : ∀ ⦃s t u⦄, R s t → R t u → R s u) {p : Program ε σ α}
    {f : α → Program ε σ β} (hp : Always R p) (hf : ∀ a, Always R (f a)) :
    Always R (p >>= f) := by
  intro s
  have hbind : (p >>= f) s = match p s with
      | .ok a t => f a t
      | .error e t => .error e t := rfl
  have hs := hp s
  unfold Program.finalState at hs ⊢
  rw [hbind]
  cases hps : p s with
  | ok a t =>
    rw [hps] at hs
    exact htrans hs (hf a t)
  | error e t =>
    rw [hps] at hs
    exact hs

theorem always_forEach (hrefl : ∀ s, R s s) (htrans : ∀ ⦃s t u⦄, R s t → R t u → R s u)
    {body : α → Program ε σ Unit} (hbody : ∀ x, Always R (body x)) (xs : List α) :
    Always R (forEach body xs) := by
  induction xs with
  | nil => exact (readOnly_pure ()).always hrefl
  | cons x xs ih => exact always_bind htrans (hbody x) fun _ => ih

/-! ## What a program does not look at -/

/-- An outcome with the state mapped. -/
def mapState (g : σ → σ) : EStateM.Result ε σ α → EStateM.Result ε σ α
  | .ok a s => .ok a (g s)
  | .error e s => .error e (g s)

/-- Mapping the state before a run maps it after the run, and nothing else. -/
def Commutes (g : σ → σ) (p : Program ε σ α) : Prop := ∀ s, p (g s) = mapState g (p s)

variable {g : σ → σ}

theorem commutes_pure (a : α) : Commutes g (pure a : Program ε σ α) := fun _ => rfl

theorem commutes_get_bind {f : σ → Program ε σ α} (hf : ∀ s, f (g s) (g s) = mapState g (f s s)) :
    Commutes g (get >>= f) := fun s => hf s

theorem commutes_bind {p : Program ε σ α} {f : α → Program ε σ β} (hp : Commutes g p)
    (hf : ∀ a, Commutes g (f a)) : Commutes g (p >>= f) := by
  intro s
  have hbind : ∀ t, (p >>= f) t = match p t with
      | .ok a t => f a t
      | .error e t => .error e t := fun _ => rfl
  rw [hbind, hbind, hp s]
  cases p s with
  | ok a t => exact hf a t
  | error e t => rfl

/-- A statement that only reads may be followed by one that depends on the state. -/
theorem commutes_reading_bind {f : σ → Except ε α} {k k' : α → Program ε σ β} {s : σ}
    (hf : f (g s) = f s) (hk : ∀ a, k' a (g s) = mapState g (k a s)) :
    (reading f >>= k') (g s) = mapState g ((reading f >>= k) s) := by
  have hbind : ∀ (k : α → Program ε σ β) t, (reading f >>= k) t = match f t with
      | .ok a => k a t
      | .error e => .error e t := by
    intro k t
    change (match reading f t with
      | .ok a t => k a t
      | .error e t => .error e t) = _
    unfold reading
    cases f t <;> rfl
  rw [hbind, hbind, hf]
  cases f s with
  | ok a => exact hk a
  | error e => rfl

theorem commutes_forEach {body : α → Program ε σ Unit} (hbody : ∀ x, Commutes g (body x))
    (xs : List α) : Commutes g (forEach body xs) := by
  induction xs with
  | nil => exact commutes_pure ()
  | cons x xs ih => exact commutes_bind (hbody x) fun _ => ih

/-- A run from the mapped state comes from a run from the state. -/
theorem Commutes.returns {p : Program ε σ α} (h : Commutes g p) {s t : σ} {a : α}
    (hrun : Returns p (g s) a t) : ∃ s', Returns p s a s' ∧ t = g s' := by
  unfold Returns at hrun
  rw [h s] at hrun
  cases hp : p s with
  | ok b s' =>
    rw [hp] at hrun
    cases hrun
    exact ⟨s', hp, rfl⟩
  | error e s' =>
    rw [hp] at hrun
    cases hrun

/-! ## Two runs side by side -/

/-- Where the first program returns, the second returns from every related state,
and the states behind are related again. -/
def Follows (R : σ → σ → Prop) (p : Program ε σ α) (q : Program ε σ β) : Prop :=
  ∀ s t a s', R s t → Returns p s a s' → ∃ b t', Returns q t b t' ∧ R s' t'

theorem follows_throw (e : ε) (q : Program ε σ β) : Follows R (throw e : Program ε σ α) q := by
  intro s t a s' _ h
  exact absurd h not_returns_throw

/-- What is read need not be the same. -/
theorem follows_reading {f : σ → Except ε α} {f' : σ → Except ε β}
    (hf : ∀ s t a, R s t → f s = .ok a → ∃ b, f' t = .ok b) :
    Follows R (reading f) (reading f') := by
  intro s t a s' hR h
  obtain ⟨ha, rfl⟩ := returns_reading.mp h
  obtain ⟨b, hb⟩ := hf s t a hR ha
  exact ⟨b, t, returns_reading.mpr ⟨hb, rfl⟩, hR⟩

theorem follows_bind {γ δ : Type} {p : Program ε σ α} {q : Program ε σ β}
    {f : α → Program ε σ γ} {f' : β → Program ε σ δ} (hp : Follows R p q)
    (hf : ∀ a b, Follows R (f a) (f' b)) : Follows R (p >>= f) (q >>= f') := by
  intro s t c s' hR h
  obtain ⟨a, s₁, hpa, hfa⟩ := returns_bind.mp h
  obtain ⟨b, t₁, hqb, hR₁⟩ := hp s t a s₁ hR hpa
  obtain ⟨d, t', hfb, hR'⟩ := hf a b s₁ t₁ c s' hR₁ hfa
  exact ⟨d, t', Returns.bind hqb hfb, hR'⟩

theorem follows_forEach {body body' : α → Program ε σ Unit} (xs : List α)
    (hbody : ∀ x ∈ xs, Follows R (body x) (body' x)) :
    Follows R (forEach body xs) (forEach body' xs) := by
  induction xs with
  | nil =>
    intro s t a s' hR h
    obtain rfl := returns_forEach_nil.mp h
    exact ⟨(), t, returns_forEach_nil.mpr rfl, hR⟩
  | cons x xs ih =>
    exact follows_bind (hbody x List.mem_cons_self) fun _ _ =>
      ih fun y hy => hbody y (List.mem_cons_of_mem x hy)

/-- From related states the two programs end alike: both return the same, or both
raise the same, and the states they leave are related. -/
def Alike (P Q E : σ → σ → Prop) (p q : Program ε σ α) : Prop :=
  ∀ s t, P s t → (∃ a s' t', Returns p s a s' ∧ Returns q t a t' ∧ Q s' t') ∨
    ∃ e s' t', Raises p s e s' ∧ Raises q t e t' ∧ E s' t'

section Alike

variable {P Q S E : σ → σ → Prop}

theorem alike_pure (h : ∀ s t, P s t → Q s t) (a : α) :
    Alike P Q E (pure a : Program ε σ α) (pure a) :=
  fun s t hP => .inl ⟨a, s, t, rfl, rfl, h s t hP⟩

theorem alike_throw (h : ∀ s t, P s t → E s t) (e : ε) :
    Alike P Q E (throw e : Program ε σ α) (throw e) :=
  fun s t hP => .inr ⟨e, s, t, raises_throw e s, raises_throw e t, h s t hP⟩

theorem alike_modify {f g : σ → σ} (h : ∀ s t, P s t → Q (f s) (g t)) :
    Alike P Q E (modify f : Program ε σ PUnit) (modify g) :=
  fun s t hP => .inl ⟨⟨⟩, f s, g t, rfl, rfl, h s t hP⟩

theorem alike_reading {f g : σ → Except ε α} (hE : ∀ s t, P s t → E s t)
    (h : ∀ s t, P s t → f s = g t) : Alike P P E (reading f) (reading g) := by
  intro s t hP
  cases hf : f s with
  | ok a =>
    exact .inl ⟨a, s, t, returns_reading.mpr ⟨hf, rfl⟩,
      returns_reading.mpr ⟨(h s t hP).symm.trans hf, rfl⟩, hP⟩
  | error e =>
    exact .inr ⟨e, s, t, raises_reading.mpr ⟨hf, rfl⟩,
      raises_reading.mpr ⟨(h s t hP).symm.trans hf, rfl⟩, hE s t hP⟩

theorem alike_bind {p q : Program ε σ α} {f g : α → Program ε σ β} (hp : Alike P Q E p q)
    (hf : ∀ a, Alike Q S E (f a) (g a)) : Alike P S E (p >>= f) (q >>= g) := by
  intro s t hP
  rcases hp s t hP with ⟨a, s₁, t₁, hs, ht, hQ⟩ | ⟨e, s₁, t₁, hs, ht, hE⟩
  · rcases hf a s₁ t₁ hQ with ⟨b, s₂, t₂, hs₂, ht₂, hS⟩ | ⟨e, s₂, t₂, hs₂, ht₂, hE⟩
    · exact .inl ⟨b, s₂, t₂, Returns.bind hs hs₂, Returns.bind ht ht₂, hS⟩
    · exact .inr ⟨e, s₂, t₂, raises_bind.mpr (.inr ⟨a, s₁, hs, hs₂⟩),
        raises_bind.mpr (.inr ⟨a, t₁, ht, ht₂⟩), hE⟩
  · exact .inr ⟨e, s₁, t₁, hs.bind f, ht.bind g, hE⟩

theorem alike_forEach {body body' : α → Program ε σ Unit} (xs : List α)
    (h : ∀ x ∈ xs, Alike P P E (body x) (body' x)) :
    Alike P P E (forEach body xs) (forEach body' xs) := by
  induction xs with
  | nil => exact alike_pure (fun _ _ hP => hP) ()
  | cons x xs ih =>
    exact alike_bind (h x List.mem_cons_self) fun _ => ih fun y hy => h y (List.mem_cons_of_mem x hy)

theorem alike_get_bind {k : σ → Program ε σ α} (hk : ∀ s t, P s t → k s = k t)
    (h : ∀ u, Alike P Q E (k u) (k u)) : Alike P Q E (get >>= k) (get >>= k) := by
  intro s t hP
  have hs : ∀ p, (get >>= p : Program ε σ α) s = p s s := fun _ => rfl
  have ht : ∀ p, (get >>= p : Program ε σ α) t = p t t := fun _ => rfl
  unfold Returns Raises
  rw [hs, ht, ← hk s t hP]
  exact h s s t hP

theorem alike_ite {c : Prop} [Decidable c] {p p' q q' : Program ε σ α}
    (hp : c → Alike P Q E p p') (hq : ¬ c → Alike P Q E q q') :
    Alike P Q E (if c then p else q) (if c then p' else q') := by
  by_cases h : c
  · rw [if_pos h, if_pos h]
    exact hp h
  · rw [if_neg h, if_neg h]
    exact hq h

theorem Alike.weaken {P' Q' E' : σ → σ → Prop} {p q : Program ε σ α} (h : Alike P Q E p q)
    (hP : ∀ s t, P' s t → P s t) (hQ : ∀ s t, Q s t → Q' s t) (hE : ∀ s t, E s t → E' s t) :
    Alike P' Q' E' p q := by
  intro s t hs
  rcases h s t (hP s t hs) with ⟨a, s', t', h1, h2, hrel⟩ | ⟨e, s', t', h1, h2, hrel⟩
  · exact .inl ⟨a, s', t', h1, h2, hQ s' t' hrel⟩
  · exact .inr ⟨e, s', t', h1, h2, hE s' t' hrel⟩

end Alike

/-! ## Loops that stop -/

/-- A loop body that is steered by its item alone, in all states with `I`: it raises
`e` on the items without `P`, and returns on those with `P` that have `Goes`. -/
structure Steered (I : σ → Prop) (e : ε) (Goes P : α → Prop) (body : α → Program ε σ Unit) :
    Prop where
  raises : ∀ x s, I s → ((∃ s', Raises (body x) s e s') ↔ ¬ P x)
  returns : ∀ x s, I s → P x → ((∃ s', Returns (body x) s () s') ↔ Goes x)
  keeps : ∀ x s s', I s → Returns (body x) s () s' → I s'

namespace Steered

variable {I : σ → Prop} {e : ε} {Goes P : α → Prop} {body : α → Program ε σ Unit}

/-- The loop raises unless every item it gets to has `P`. -/
theorem exists_raises_iff (h : Steered I e Goes P body) (xs : List α) {s : σ} (hs : I s) :
    (∃ s', Raises (forEach body xs) s e s') ↔ ¬ UpToStop Goes P xs := by
  induction xs generalizing s with
  | nil =>
    refine iff_of_false ?_ (not_not.mpr trivial)
    rintro ⟨_, hraises⟩
    exact not_raises_forEach_nil hraises
  | cons x xs ih =>
    rw [UpToStop]
    simp only [raises_forEach_cons]
    constructor
    · rintro ⟨s', hraises | ⟨t, hreturns, hraises⟩⟩ ⟨hP, hrest⟩
      · exact (h.raises x s hs).mp ⟨s', hraises⟩ hP
      · refine (ih (h.keeps x s t hs hreturns)).mp ⟨s', hraises⟩ (hrest ?_)
        exact (h.returns x s hs hP).mp ⟨t, hreturns⟩
    · intro hnot
      by_cases hP : P x
      · rw [not_and, Classical.not_imp] at hnot
        obtain ⟨hgoes, hrest⟩ := hnot hP
        obtain ⟨t, hreturns⟩ := (h.returns x s hs hP).mpr hgoes
        obtain ⟨s', hraises⟩ := (ih (h.keeps x s t hs hreturns)).mpr hrest
        exact ⟨s', .inr ⟨t, hreturns, hraises⟩⟩
      · obtain ⟨s', hraises⟩ := (h.raises x s hs).mpr hP
        exact ⟨s', .inl hraises⟩

/-- It returns when it goes on behind every item. -/
theorem exists_returns_iff (h : Steered I e Goes P body) {xs : List α} {s : σ} (hs : I s)
    (hstop : UpToStop Goes P xs) :
    (∃ s', Returns (forEach body xs) s () s') ↔ ∀ x ∈ xs, Goes x := by
  induction xs generalizing s with
  | nil =>
    exact iff_of_true ⟨s, returns_forEach_nil.mpr rfl⟩ fun x hx => absurd hx List.not_mem_nil
  | cons x xs ih =>
    rw [List.forall_mem_cons]
    simp only [returns_forEach_cons]
    constructor
    · rintro ⟨s', t, hone, hrest⟩
      have hgoes := (h.returns x s hs hstop.1).mp ⟨t, hone⟩
      exact ⟨hgoes, (ih (h.keeps x s t hs hone) (hstop.2 hgoes)).mp ⟨s', hrest⟩⟩
    · rintro ⟨hgoes, hall⟩
      obtain ⟨t, hone⟩ := (h.returns x s hs hstop.1).mpr hgoes
      obtain ⟨s', hrest⟩ := (ih (h.keeps x s t hs hone) (hstop.2 hgoes)).mpr hall
      exact ⟨s', t, hone, hrest⟩

theorem keeps_forEach (h : Steered I e Goes P body) (xs : List α) {s s' : σ} (hs : I s)
    (hrun : Returns (forEach body xs) s () s') : I s' :=
  forEach_induct (fun _ t => I t) (fun _ x t t' ht hone => h.keeps x t t' ht hone) [] hs hrun

end Steered

end Program

end SoftHier.Foundation
