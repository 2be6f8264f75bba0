/-
  Foundation/Framing.lean --- a stream cut back into the pieces it was made of.

  Pieces of one width `w`, each with a tag, are laid end to end.  A reader that
  knows only how many pieces belong to each record cuts the stream into records
  of the right length: then record `i` consists of the pieces whose tags are
  those of record `i`.
-/
import Mathlib.Data.List.Basic
import Mathlib.Tactic.Ring

set_option autoImplicit false

namespace SoftHier.Foundation

variable {ι β : Type} {w : Nat}

theorem length_flatMap_of_width {pieces : List (ι × List β)}
    (hwidth : ∀ p ∈ pieces, p.2.length = w) :
    (pieces.flatMap Prod.snd).length = w * pieces.length := by
  induction pieces with
  | nil => simp
  | cons p pieces ih =>
    rw [List.flatMap_cons, List.length_append, hwidth p List.mem_cons_self,
      ih fun q hq => hwidth q (List.mem_cons_of_mem p hq), List.length_cons]
    ring

/-- Element `m` of the stream lies in piece `m / w`. -/
theorem getElem?_flatMap_of_width {pieces : List (ι × List β)}
    (hwidth : ∀ p ∈ pieces, p.2.length = w) {m : Nat} (hm : m < w * pieces.length) :
    ∃ p, pieces[m / w]? = some p ∧ (pieces.flatMap Prod.snd)[m]? = p.2[m % w]? := by
  induction pieces generalizing m with
  | nil =>
    rw [List.length_nil, Nat.mul_zero] at hm
    exact absurd hm (Nat.not_lt_zero m)
  | cons p pieces ih =>
    have hp := hwidth p List.mem_cons_self
    rw [List.flatMap_cons]
    by_cases hlt : m < w
    · refine ⟨p, ?_, ?_⟩
      · rw [Nat.div_eq_of_lt hlt]
        rfl
      · rw [List.getElem?_append_left (by omega), Nat.mod_eq_of_lt hlt]
    · obtain ⟨k, rfl⟩ := Nat.exists_eq_add_of_le (Nat.le_of_not_lt hlt)
      have hpos : 0 < w := by
        apply Nat.pos_of_ne_zero
        rintro rfl
        rw [Nat.zero_mul] at hm
        exact absurd hm (Nat.not_lt_zero _)
      rw [List.length_cons, Nat.mul_add, Nat.mul_one] at hm
      obtain ⟨q, hq, hbyte⟩ := ih (fun q hq => hwidth q (List.mem_cons_of_mem p hq))
        (m := k) (by omega)
      refine ⟨q, ?_, ?_⟩
      · rw [Nat.add_div_left _ hpos]
        exact hq
      · rw [List.getElem?_append_right (by omega), hp, Nat.add_sub_cancel_left, hbyte,
          Nat.add_mod_left]

/-- Record `i` of the stream is made of the pieces with the tags of record `i`. -/
theorem record_pieces {pieces : List (ι × List β)} {tags : List (List ι)}
    {records : List (List β)} (hpos : 0 < w) (hwidth : ∀ p ∈ pieces, p.2.length = w)
    (htags : pieces.map Prod.fst <+: tags.flatten)
    (hstream : records.flatten <+: pieces.flatMap Prod.snd)
    (hlength : ∀ (i : Nat) (record : List β) (own : List ι), records[i]? = some record →
      tags[i]? = some own → record.length = w * own.length)
    {i : Nat} {record : List β} {own : List ι} (hrecord : records[i]? = some record)
    (hown : tags[i]? = some own) :
    ∃ part : List (ι × List β), part.map Prod.fst = own ∧ (∀ p ∈ part, p ∈ pieces) ∧
      record = part.flatMap Prod.snd := by
  induction records generalizing i tags pieces with
  | nil => simp at hrecord
  | cons first records ih =>
    cases tags with
    | nil => simp at hown
    | cons own₀ tags =>
      have hfirst : first.length = w * own₀.length := hlength 0 first own₀ rfl rfl
      rw [List.flatten_cons] at hstream htags
      -- The first record takes the pieces of the first tags off the stream.
      have hlen : own₀.length ≤ pieces.length := by
        have hle := hstream.length_le
        rw [List.length_append, length_flatMap_of_width hwidth, hfirst] at hle
        exact Nat.le_of_mul_le_mul_left (le_trans (Nat.le_add_right _ _) hle) hpos
      obtain ⟨part, rest, hpieces, hpart⟩ : ∃ part rest, pieces = part ++ rest ∧
          part.length = own₀.length :=
        ⟨pieces.take own₀.length, pieces.drop own₀.length,
          (List.take_append_drop _ _).symm, by rw [List.length_take, Nat.min_eq_left hlen]⟩
      have hwpart : ∀ p ∈ part, p.2.length = w := fun p hp =>
        hwidth p (by rw [hpieces]; exact List.mem_append_left _ hp)
      have hwrest : ∀ p ∈ rest, p.2.length = w := fun p hp =>
        hwidth p (by rw [hpieces]; exact List.mem_append_right _ hp)
      obtain ⟨tagsLeft, htags⟩ := htags
      rw [hpieces, List.map_append, List.append_assoc] at htags
      obtain ⟨hparttags, hresttags⟩ := List.append_inj htags (by rw [List.length_map, hpart])
      obtain ⟨streamLeft, hstream⟩ := hstream
      rw [hpieces, List.flatMap_append, List.append_assoc] at hstream
      obtain ⟨hpartstream, hreststream⟩ := List.append_inj hstream
        (by rw [hfirst, length_flatMap_of_width hwpart, hpart])
      cases i with
      | zero =>
        cases hrecord
        cases hown
        refine ⟨part, hparttags, fun p hp => ?_, hpartstream⟩
        rw [hpieces]
        exact List.mem_append_left _ hp
      | succ i =>
        have hlength' : ∀ (i : Nat) (record : List β) (own : List ι), records[i]? = some record →
            tags[i]? = some own → record.length = w * own.length :=
          fun i => hlength (i + 1)
        obtain ⟨found, hfound, hsub, heq⟩ := ih hwrest ⟨tagsLeft, hresttags⟩
          ⟨streamLeft, hreststream⟩ hlength' hrecord hown
        refine ⟨found, hfound, fun p hp => ?_, heq⟩
        rw [hpieces]
        exact List.mem_append_right _ (hsub p hp)

end SoftHier.Foundation
