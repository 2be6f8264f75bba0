/-
  Gapy/ForcedSize.lean --- sections of a forced size.

  `get_size` asks whether there is a size alignment, and then rounds the forced
  size to the start alignment to see whether it is aligned.  What it returns is
  rounded to the size alignment.  So a forced size is checked as it should be
  only where the two alignments agree about it.
-/
import SoftHier.Gapy.SectionImage
import SoftHier.Gapy.Templates

set_option autoImplicit false

namespace SoftHier.Gapy

open SoftHier.Foundation Program

namespace FlashSection

variable {σ : Type} {s : FlashSection σ} {requested : Int}

/-! ## What a forced size asks for -/

/-- The error `get_size` raises. -/
def sizeError (size : Int) (requested : PyNumber) : PyError :=
  .runtimeError ("Section size (" ++ toString size ++ ")is larger" ++
    "                                   than requested in layout " ++ requested.format)

/-- The `size` property is a number, or a text that spells it. -/
def Forced (s : FlashSection σ) (requested : Int) : Prop :=
  ∃ v, s.getProperty "size" = .ok v ∧ v.ofCommandLine = .ok (.int requested)

/-- The alignments of a section are powers of two, where they are given. -/
structure PowerAligns (s : FlashSection σ) : Prop where
  start : ∀ a, s.startAlign = some a → ∃ k : Nat, a = 2 ^ k
  size : ∀ a, s.sizeAlign = some a → ∃ k : Nat, a = 2 ^ k

/-- `get_size` returns the forced size or raises its error, and it returns
exactly when the content fits and the size is aligned. -/
structure GivesForced (s : FlashSection σ) (requested : Int) : Prop where
  outcome : s.getSize = .ok requested ∨ s.getSize = .error (sizeError s.allocated (.int requested))
  returns : (∃ size, s.getSize = .ok size) ↔
    s.allocated ≤ requested ∧ ∀ a, s.sizeAlign = some a → a ∣ requested

/-! ## The check -/

/-- The forced size, rounded as `get_size` rounds it to see whether it is
aligned. -/
def alignedSize (s : FlashSection σ) (requested : Int) : Except PyError Int :=
  match s.sizeAlign, s.startAlign with
  | none, _ => .ok requested
  | some _, some startAlign => .ok (alignUp requested startAlign)
  | some _, none => .error .typeError

/-- What `get_size` does with a forced size, which may be a boolean. -/
theorem getSize_of_number {v w : PyValue} {n : PyNumber} (hv : s.getProperty "size" = .ok v)
    (hw : v.ofCommandLine = .ok w) (hforced : ¬ (w = .none ∨ w.eqInt (-1) = true))
    (hn : w.number = .ok n) :
    s.getSize = s.alignedSize n.toInt >>= fun aligned =>
      if s.allocated > n.toInt ∨ aligned ≠ n.toInt then .error (sizeError s.allocated n)
      else .ok (roundUp s.sizeAlign n.toInt) := by
  unfold getSize getSizeNumber alignedSize roundUp sizeError allocated
  simp only [hv, hw, hn, bind, Except.bind, if_neg hforced, pure, Except.pure, throw, throwThe,
    MonadExceptOf.throw]
  cases s.sizeAlign with
  | none =>
    dsimp only
    split <;> rfl
  | some a =>
    cases s.startAlign with
    | none => rfl
    | some b =>
      dsimp only
      split <;> rfl

theorem getSize_of_forced (h : s.Forced requested) (hne : requested ≠ -1) :
    s.getSize = s.alignedSize requested >>= fun aligned =>
      if s.allocated > requested ∨ aligned ≠ requested then
        .error (sizeError s.allocated (.int requested))
      else .ok (roundUp s.sizeAlign requested) := by
  obtain ⟨v, hv, hw⟩ := h
  refine getSize_of_number (n := .int requested) hv hw ?_ rfl
  simp [PyValue.eqInt, PyValue.operand, hne]

/-! ## When the size is the forced one -/

/-- A section whose size, however it is rounded for the check, is `aligned` and
is reported as `reported`. -/
theorem givesForced_iff_of_alignedSize {aligned reported : Int}
    (hsize : s.getSize = if s.allocated > requested ∨ aligned ≠ requested then
      .error (sizeError s.allocated (.int requested)) else .ok reported) :
    s.GivesForced requested ↔
      (s.allocated ≤ requested → aligned = requested → reported = requested) ∧
      (s.allocated ≤ requested →
        (aligned = requested ↔ ∀ a, s.sizeAlign = some a → a ∣ requested)) := by
  by_cases hfits : s.allocated ≤ requested
  · by_cases haligned : aligned = requested
    · rw [if_neg (by omega)] at hsize
      constructor
      · intro h
        have hreported : reported = requested := by
          rcases h.outcome with hok | herror
          · exact Except.ok.inj (hsize.symm.trans hok)
          · exact absurd (hsize.symm.trans herror) nofun
        exact ⟨fun _ _ => hreported, fun _ =>
          ⟨fun _ => (h.returns.mp ⟨_, hsize⟩).2, fun _ => haligned⟩⟩
      · rintro ⟨hreported, hdvd⟩
        rw [hreported hfits haligned] at hsize
        exact ⟨.inl hsize, fun _ => ⟨hfits, (hdvd hfits).mp haligned⟩, fun _ => ⟨_, hsize⟩⟩
    · rw [if_pos (.inr haligned)] at hsize
      have hraises : ¬ ∃ size, s.getSize = .ok size := by
        rintro ⟨size, hok⟩
        exact absurd (hsize.symm.trans hok) nofun
      constructor
      · intro h
        exact ⟨fun _ heq => absurd heq haligned, fun _ =>
          ⟨fun heq => absurd heq haligned,
            fun hdvd => absurd (h.returns.mpr ⟨hfits, hdvd⟩) hraises⟩⟩
      · rintro ⟨-, hdvd⟩
        exact ⟨.inr hsize, fun hok => absurd hok hraises,
          fun hall => absurd ((hdvd hfits).mpr hall.2) haligned⟩
  · rw [if_pos (.inl (not_le.mp hfits))] at hsize
    refine ⟨fun _ => ⟨fun h => absurd h hfits, fun h => absurd h hfits⟩, fun _ => ?_⟩
    refine ⟨.inr hsize, ?_, fun h => absurd h.1 hfits⟩
    rintro ⟨size, hok⟩
    exact absurd (hsize.symm.trans hok) nofun

/-- For every section, forced size and alignments: `get_size` does what it is to
do exactly when a size alignment comes with a start alignment, and a size the
content fits in is a multiple of both or of neither. -/
theorem getSize_givesForced_iff (halign : s.PowerAligns) (h : s.Forced requested)
    (hnonneg : 0 ≤ requested) :
    s.GivesForced requested ↔ ∀ a, s.sizeAlign = some a → ∃ b, s.startAlign = some b ∧
      (s.allocated ≤ requested → (a ∣ requested ↔ b ∣ requested)) := by
  have hsize := getSize_of_forced h (by omega)
  unfold alignedSize roundUp at hsize
  cases ha : s.sizeAlign with
  | none =>
    simp only [ha] at hsize
    rw [givesForced_iff_of_alignedSize hsize]
    simp [ha]
  | some a =>
    obtain ⟨k, rfl⟩ := halign.size a ha
    cases hb : s.startAlign with
    | none =>
      simp only [ha, hb] at hsize
      constructor
      · intro hgives
        rcases hgives.outcome with hok | herror
        · exact absurd (hsize.symm.trans hok) nofun
        · exact absurd (hsize.symm.trans herror) nofun
      · intro hall
        obtain ⟨b, hb', -⟩ := hall _ rfl
        cases hb'
    | some b =>
      obtain ⟨l, rfl⟩ := halign.start b hb
      simp only [ha, hb] at hsize
      rw [givesForced_iff_of_alignedSize hsize, alignUp_two_pow_eq_iff, alignUp_two_pow_eq_iff, ha]
      simp only [Option.some.injEq, forall_eq', exists_eq_left']
      tauto

end FlashSection

/-! ## A raw section of four bytes -/

/-- A raw section of four bytes that starts on a boundary of four and is padded
to an alignment. -/
def RawSection.fourBytes (sizeAlign : Int) : FlashSection Unit :=
  { (FlashSection.new "data" 0 () : FlashSection Unit) with
    currentOffset := 4
    properties := Dict.empty.set "size" ⟨"size", .str "0x4", ""⟩
    sizeAlign := some sizeAlign
    startAlign := some 4 }

theorem RawSection.fourBytes_powerAligns (k : Nat) :
    (RawSection.fourBytes (2 ^ k)).PowerAligns where
  start _ ha := ⟨2, (Option.some.inj ha).symm⟩
  size _ ha := ⟨k, (Option.some.inj ha).symm⟩

theorem RawSection.fourBytes_forced (sizeAlign : Int) :
    (RawSection.fourBytes sizeAlign).Forced 4 :=
  ⟨.str "0x4", rfl, by decide⟩

theorem FlashSection.getSize_givesForced_iff_fourBytes :
    (RawSection.fourBytes (2 ^ 1)).GivesForced 4 :=
  (FlashSection.getSize_givesForced_iff (RawSection.fourBytes_powerAligns 1)
    (RawSection.fourBytes_forced _) (by decide)).mpr fun a ha =>
      ⟨4, rfl, fun _ => by cases ha; decide⟩

/-- Padded to 16 bytes, the section reports 16 where 4 were asked for. -/
theorem FlashSection.not_getSize_givesForced : ¬ ∀ (s : FlashSection Unit) (requested : Int),
    s.PowerAligns → s.Forced requested → 0 ≤ requested → s.GivesForced requested := by
  intro h
  have hgives := h (RawSection.fourBytes (2 ^ 4)) 4 (RawSection.fourBytes_powerAligns 4)
    (RawSection.fourBytes_forced _) (by decide)
  have hsize : (RawSection.fourBytes (2 ^ 4)).getSize = .ok 16 := by decide +kernel
  rcases hgives.outcome with hok | herror
  · exact absurd (Except.ok.inj (hsize.symm.trans hok)) (by decide)
  · exact absurd (hsize.symm.trans herror) nofun

end SoftHier.Gapy
