/-
  Foundation/Refines.lean --- a program with a state against a computation without.

  What a program does from a state can be described by a computation in `Except`
  that knows nothing of states: the program raises what the computation raises,
  and where the computation has a value the program returns, in a state that is
  related to that value.  The rules follow the statements.
-/
import SoftHier.Foundation.Program

set_option autoImplicit false

namespace SoftHier.Foundation.Program

variable {ε σ α β γ δ : Type}

/-- From the state `s` the program does what the computation says; `Q` relates the
value of the computation to what the program returns and leaves. -/
inductive Refines (p : Program ε σ α) (s : σ) (Q : β → α → σ → Prop) : Except ε β → Prop where
  | returns {b : β} {a : α} {s' : σ} (run : Returns p s a s') (related : Q b a s') :
      Refines p s Q (.ok b)
  | raises {e : ε} {s' : σ} (run : Raises p s e s') : Refines p s Q (.error e)

namespace Refines

variable {p : Program ε σ α} {s s' : σ} {Q : β → α → σ → Prop} {x : Except ε β} {a : α} {b : β}

/-! ## What a run says about the computation -/

theorem of_returns (h : Refines p s Q x) (run : Returns p s a s') : ∃ b, x = .ok b ∧ Q b a s' := by
  cases h with
  | returns run' related =>
    obtain ⟨rfl, rfl⟩ := run.unique run'
    exact ⟨_, rfl, related⟩
  | raises run' => exact absurd (run.symm.trans run') nofun

theorem of_raises {e : ε} (h : Refines p s Q x) (run : Raises p s e s') : x = .error e := by
  cases h with
  | returns run' _ => exact absurd (run.symm.trans run') nofun
  | raises run' =>
    cases run.symm.trans run'
    rfl

/-- The value of the computation is what the program returns. -/
theorem exists_returns (h : Refines p s Q (.ok b)) : ∃ a s', Returns p s a s' ∧ Q b a s' := by
  cases h with
  | returns run related => exact ⟨_, _, run, related⟩

theorem exists_raises {e : ε} (h : Refines p s Q (.error e)) : ∃ s', Raises p s e s' := by
  cases h with
  | raises run => exact ⟨_, run⟩

theorem raises_iff (h : Refines p s Q x) {e : ε} : (∃ s', Raises p s e s') ↔ x = .error e :=
  ⟨fun ⟨_, run⟩ => h.of_raises run, fun hx => (hx ▸ h).exists_raises⟩

/-- Where the relation leaves no choice, the computation is known from the runs. -/
theorem returns_iff (h : Refines p s Q x)
    (hQ : ∀ ⦃b b' a s'⦄, Q b a s' → Q b' a s' → b = b') {b : β} :
    (∃ a s', Returns p s a s' ∧ Q b a s') ↔ x = .ok b := by
  constructor
  · rintro ⟨a, s', run, hb⟩
    obtain ⟨b', rfl, hb'⟩ := h.of_returns run
    rw [hQ hb hb']
  · rintro rfl
    exact h.exists_returns

theorem weaken {S : β → α → σ → Prop} (h : Refines p s Q x)
    (hrel : ∀ b a s', x = .ok b → Returns p s a s' → Q b a s' → S b a s') :
    Refines p s S x := by
  cases h with
  | returns run related => exact .returns run (hrel _ _ _ rfl run related)
  | raises run => exact .raises run

/-- The value of the computation is looked at in another way. -/
theorem map {S : γ → α → σ → Prop} (h : Refines p s Q x) {g : β → γ}
    (hrel : ∀ b a s', Q b a s' → S (g b) a s') : Refines p s S (x >>= fun b => .ok (g b)) := by
  cases h with
  | returns run related => exact .returns run (hrel _ _ _ related)
  | raises run => exact .raises run

/-! ## Statements -/

theorem pure (h : Q b a s) : Refines (pure a : Program ε σ α) s Q (.ok b) :=
  .returns (returns_pure.mpr ⟨rfl, rfl⟩) h

theorem throw (e : ε) : Refines (throw e : Program ε σ α) s Q (.error e) := .raises (raises_throw e s)

theorem reading {f : σ → Except ε β} {y : Except ε β} (h : f s = y) :
    Refines (reading f) s (fun b a s' => a = b ∧ s' = s) y := by
  cases y with
  | ok b => exact .returns (returns_reading.mpr ⟨h, rfl⟩) ⟨rfl, rfl⟩
  | error e => exact .raises (raises_reading.mpr ⟨h, rfl⟩)

theorem bind {f : α → Program ε σ γ} {S : δ → γ → σ → Prop} {g : β → Except ε δ}
    (hp : Refines p s Q x) (hf : ∀ b a s', Q b a s' → Refines (f a) s' S (g b)) :
    Refines (p >>= f) s S (x >>= g) := by
  cases hp with
  | @returns b a s' run related =>
    change Refines _ _ _ (g b)
    generalize hy : g b = y
    have hrest := hf b a s' related
    rw [hy] at hrest
    cases hrest with
    | returns run' related' => exact .returns (Returns.bind run run') related'
    | raises run' => exact .raises (raises_bind.mpr (.inr ⟨a, s', run, run'⟩))
  | raises run => exact .raises (run.bind f)

/-- What follows says nothing new. -/
theorem bind_last {f : α → Program ε σ γ} {S : β → γ → σ → Prop} (hp : Refines p s Q x)
    (hf : ∀ b a s', Q b a s' → Refines (f a) s' S (.ok b)) : Refines (p >>= f) s S x := by
  have h := bind (g := fun b => .ok b) hp hf
  rwa [show (x >>= fun b => .ok b) = x from bind_pure x] at h

/-- A statement that is known to return. -/
theorem step {f : α → Program ε σ γ} {S : β → γ → σ → Prop} (run : Returns p s a s')
    (h : Refines (f a) s' S x) : Refines (p >>= f) s S x := by
  cases h with
  | returns run' related => exact .returns (Returns.bind run run') related
  | raises run' => exact .raises (raises_bind.mpr (.inr ⟨a, s', run, run'⟩))

/-- Reading something that does not depend on the state. -/
theorem eval {y : Except ε α} {f : α → Program ε σ γ} {S : δ → γ → σ → Prop}
    {g : α → Except ε δ} (hf : ∀ a, y = .ok a → Refines (f a) s S (g a)) :
    Refines (Program.reading (fun _ => y) >>= f) s S (y >>= g) := by
  cases y with
  | ok a => exact step (returns_reading.mpr ⟨rfl, rfl⟩) (hf a rfl)
  | error e =>
    have hread : Raises (Program.reading fun _ => (.error e : Except ε α)) s e s :=
      raises_reading.mpr ⟨rfl, rfl⟩
    exact .raises (hread.bind f)

/-- The same where what was read is the value. -/
theorem eval_last {y : Except ε α} {f : α → Program ε σ γ} {S : α → γ → σ → Prop}
    (hf : ∀ a, y = .ok a → Refines (f a) s S (.ok a)) :
    Refines (Program.reading (fun _ => y) >>= f) s S y := by
  have h := eval (g := fun a => .ok a) hf
  rwa [show (y >>= fun a => .ok a) = y from bind_pure y] at h

theorem get_bind {f : σ → Program ε σ α} (h : Refines (f s) s Q x) :
    Refines (get >>= f) s Q x := step (returns_get.mpr ⟨rfl, rfl⟩) h

theorem modify_bind {g : σ → σ} {f : PUnit → Program ε σ α} (h : Refines (f ⟨⟩) (g s) Q x) :
    Refines (modify g >>= f) s Q x := step (returns_modify.mpr rfl) h

/-! ## Loops -/

section Loops

variable {body : α → Program ε σ Unit}

/-- A loop that takes a value along. -/
theorem forEach_foldlM {g : β → α → Except ε β} {I : β → σ → Prop} {xs : List α}
    (hbody : ∀ x ∈ xs, ∀ b s, I b s → Refines (body x) s (fun b' _ s' => I b' s') (g b x)) :
    ∀ {b : β} {s : σ}, I b s →
      Refines (forEach body xs) s (fun b' _ s' => I b' s') (xs.foldlM g b) := by
  induction xs with
  | nil => exact fun hI => .pure hI
  | cons x xs ih =>
    intro b s hI
    rw [List.foldlM_cons]
    exact bind (hbody x List.mem_cons_self b s hI) fun b' _ s' hI' =>
      ih (fun y hy => hbody y (List.mem_cons_of_mem x hy)) hI'

/-- A loop whose passes are described one by one; the invariant knows the items
behind it and their values. -/
theorem forEach_mapM {g : α → Except ε β} {I : List α → List β → σ → Prop} {xs : List α}
    (hbody : ∀ done x rest bs s, xs = done ++ x :: rest → I done bs s →
      Refines (body x) s (fun b _ s' => I (done ++ [x]) (bs ++ [b]) s') (g x)) {s : σ}
    (hI : I [] [] s) :
    Refines (forEach body xs) s (fun bs _ s' => I xs bs s') (xs.mapM g) := by
  suffices h : ∀ rest done bs s, xs = done ++ rest → I done bs s →
      Refines (forEach body rest) s (fun bs' _ s' => I xs (bs ++ bs') s') (rest.mapM g) from
    h xs [] [] s rfl hI
  intro rest
  induction rest with
  | nil =>
    intro done bs s hxs hI
    rw [List.append_nil] at hxs
    subst hxs
    rw [List.mapM_nil]
    refine .pure ?_
    rw [List.append_nil]
    exact hI
  | cons x rest ih =>
    intro done bs s hxs hI
    rw [List.mapM_cons]
    refine bind (hbody done x rest bs s hxs hI) fun b _ s' hI' => ?_
    have hrest := ih (done ++ [x]) (bs ++ [b]) s' (by rw [hxs, List.append_assoc]; rfl) hI'
    generalize hy : rest.mapM g = y at hrest
    cases hrest with
    | returns run related =>
      refine .returns run ?_
      rw [List.append_assoc] at related
      exact related
    | raises run => exact .raises run

end Loops

end Refines

/-! ## Programs that cannot fail -/

/-- From every state with the invariant the program returns, in one that has it
again. -/
def Succeeds (I : σ → Prop) (p : Program ε σ α) : Prop :=
  ∀ s, I s → ∃ a s', Returns p s a s' ∧ I s'

section Succeeds

variable {I : σ → Prop}

theorem succeeds_pure (a : α) : Succeeds I (pure a : Program ε σ α) :=
  fun s hI => ⟨a, s, returns_pure.mpr ⟨rfl, rfl⟩, hI⟩

theorem succeeds_reading {f : σ → Except ε α} (hf : ∀ s, I s → ∃ a, f s = .ok a) :
    Succeeds I (reading f) := by
  intro s hI
  obtain ⟨a, ha⟩ := hf s hI
  exact ⟨a, s, returns_reading.mpr ⟨ha, rfl⟩, hI⟩

theorem succeeds_bind {p : Program ε σ α} {f : α → Program ε σ β} (hp : Succeeds I p)
    (hf : ∀ a, Succeeds I (f a)) : Succeeds I (p >>= f) := by
  intro s hI
  obtain ⟨a, t, hone, hIt⟩ := hp s hI
  obtain ⟨b, s', hrest, hI'⟩ := hf a t hIt
  exact ⟨b, s', Returns.bind hone hrest, hI'⟩

theorem succeeds_get_bind {f : σ → Program ε σ α} (hf : ∀ s, I s → Succeeds I (f s)) :
    Succeeds I (get >>= f) := by
  intro s hI
  obtain ⟨a, s', hrest, hI'⟩ := hf s hI s hI
  exact ⟨a, s', returns_get_bind.mpr hrest, hI'⟩

theorem succeeds_forEach {body : α → Program ε σ Unit} {xs : List α}
    (hbody : ∀ x ∈ xs, Succeeds I (body x)) : Succeeds I (forEach body xs) := by
  induction xs with
  | nil => exact succeeds_pure ()
  | cons x xs ih =>
    exact succeeds_bind (hbody x List.mem_cons_self) fun _ =>
      ih fun y hy => hbody y (List.mem_cons_of_mem x hy)

/-- A program goes on behind what cannot fail. -/
theorem Refines.after {p : Program ε σ α} {f : α → Program ε σ γ} {s : σ}
    {Q : β → γ → σ → Prop} {x : Except ε β} (hp : Succeeds I p) (hI : I s)
    (hf : ∀ a s', I s' → Refines (f a) s' Q x) : Refines (p >>= f) s Q x := by
  obtain ⟨a, s', run, hI'⟩ := hp s hI
  exact .step run (hf a s' hI')

end Succeeds

end SoftHier.Foundation.Program
