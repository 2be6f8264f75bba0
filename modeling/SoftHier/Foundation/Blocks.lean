/-
  Foundation/Blocks.lean --- byte blocks put at positions.

  `assemble origin blocks` writes the blocks one after the other and fills the
  gaps with zeros.  When the blocks come in order, each one is found at its
  position relative to the origin, and everything outside them is zero.
-/
import SoftHier.Foundation.Bytes
import Mathlib.Data.List.Forall2

set_option autoImplicit false

namespace SoftHier.Foundation

/-! ## Blocks one behind the other -/

/-- A block of a concatenation lies behind the blocks before it. -/
theorem slice_flatten {parts : List Bytes} {i : Nat} {part : Bytes} (h : parts[i]? = some part) :
    slice parts.flatten (parts.take i).flatten.length part.length = part := by
  induction parts generalizing i with
  | nil => simp at h
  | cons b parts ih =>
    cases i with
    | zero =>
      obtain rfl : b = part := by simpa using h
      have := slice_append_mid [] b parts.flatten
      simpa using this
    | succ i =>
      rw [List.getElem?_cons_succ] at h
      rw [List.take_succ_cons, List.flatten_cons, List.flatten_cons, List.length_append,
        slice_append_add, ih h]

/-- A range walked through in blocks of equal length. -/
theorem flatMap_range_blocks {β : Type} (g : Nat → Option β) (b n : Nat) :
    (List.range n).flatMap (fun i => (List.range b).filterMap fun j => g (i * b + j)) =
      (List.range (n * b)).filterMap g := by
  induction n with
  | zero => rw [Nat.zero_mul]; rfl
  | succ n ih =>
    rw [List.range_succ, List.flatMap_append, ih, List.flatMap_singleton, Nat.succ_mul,
      List.range_add, List.filterMap_append, List.filterMap_map]
    rfl

/-! ## Blocks at positions -/

/-- A block and its position. -/
abbrev Block : Type := Int × Bytes

/-- The position behind a block. -/
def Block.stop (b : Block) : Int := b.1 + b.2.length

/-- The blocks in order from an origin, gaps filled with zeros. -/
def assemble : Int → List Block → Bytes
  | _, [] => []
  | origin, b :: bs => List.replicate (b.1 - origin).toNat 0 ++ b.2 ++ assemble b.stop bs

/-- The blocks start at the origin or later, and none starts before the end of
the one before it. -/
def InOrder : Int → List Block → Prop
  | _, [] => True
  | origin, b :: bs => origin ≤ b.1 ∧ InOrder b.stop bs

/-- The position behind the last block. -/
def stopOf : Int → List Block → Int
  | origin, [] => origin
  | _, b :: bs => stopOf b.stop bs

theorem le_stopOf {origin : Int} {bs : List Block} (h : InOrder origin bs) :
    origin ≤ stopOf origin bs := by
  induction bs generalizing origin with
  | nil => exact le_refl _
  | cons b bs ih =>
    obtain ⟨hle, hrest⟩ := h
    have := ih hrest
    rw [stopOf]
    unfold Block.stop at this ⊢
    omega

theorem length_assemble {origin : Int} {bs : List Block} (h : InOrder origin bs) :
    ((assemble origin bs).length : Int) = stopOf origin bs - origin := by
  induction bs generalizing origin with
  | nil => simp [assemble, stopOf]
  | cons b bs ih =>
    obtain ⟨hle, hrest⟩ := h
    have := ih hrest
    rw [assemble, stopOf]
    simp only [List.length_append, List.length_replicate, Nat.cast_add, this]
    unfold Block.stop
    omega

/-- A block lies inside the range the blocks take. -/
theorem InOrder.bounds {origin : Int} {bs : List Block} (h : InOrder origin bs) {b : Block}
    (hb : b ∈ bs) : origin ≤ b.1 ∧ b.stop ≤ stopOf origin bs := by
  induction bs generalizing origin with
  | nil => exact absurd hb List.not_mem_nil
  | cons c bs ih =>
    obtain ⟨hle, hrest⟩ := h
    rw [stopOf]
    rw [List.mem_cons] at hb
    obtain rfl | hb := hb
    · exact ⟨hle, le_stopOf hrest⟩
    · obtain ⟨h1, h2⟩ := ih hrest hb
      refine ⟨?_, h2⟩
      unfold Block.stop at h1
      omega

/-- The bytes up to a block, then the block, then the rest. -/
theorem assemble_cons_slice {origin : Int} {b : Block} {bs : List Block} (h : origin ≤ b.1)
    {pos : Int} (hpos : b.stop ≤ pos) (len : Nat) :
    slice (assemble origin (b :: bs)) (pos - origin).toNat len =
      slice (assemble b.stop bs) (pos - b.stop).toNat len := by
  have hlen : (List.replicate (b.1 - origin).toNat (0 : UInt8) ++ b.2).length =
      (b.stop - origin).toNat := by
    rw [List.length_append, List.length_replicate]
    unfold Block.stop
    omega
  have hsplit : (pos - origin).toNat = (b.stop - origin).toNat + (pos - b.stop).toNat := by
    unfold Block.stop at *
    omega
  rw [assemble, hsplit, ← hlen, slice_append_add]

/-- Every block is found at its position. -/
theorem slice_assemble {origin : Int} {bs : List Block} (h : InOrder origin bs) {b : Block}
    (hb : b ∈ bs) : slice (assemble origin bs) (b.1 - origin).toNat b.2.length = b.2 := by
  induction bs generalizing origin with
  | nil => exact absurd hb List.not_mem_nil
  | cons c bs ih =>
    obtain ⟨hle, hrest⟩ := h
    rw [List.mem_cons] at hb
    obtain rfl | hb := hb
    · have := slice_append_mid (List.replicate (b.1 - origin).toNat 0) b.2 (assemble b.stop bs)
      rw [List.length_replicate] at this
      rw [assemble, List.append_assoc, this]
    · rw [assemble_cons_slice hle (hrest.bounds hb).1, ih hrest hb]

/-- Every byte outside the blocks is zero. -/
theorem assemble_outside {origin : Int} {bs : List Block} (h : InOrder origin bs) {k : Nat}
    (hk : k < (assemble origin bs).length)
    (hout : ∀ b ∈ bs, ¬ (b.1 ≤ origin + k ∧ origin + k < b.stop)) :
    (assemble origin bs)[k]? = some 0 := by
  induction bs generalizing origin k with
  | nil => exact absurd hk (Nat.not_lt_zero k)
  | cons b bs ih =>
    obtain ⟨hle, hrest⟩ := h
    have hb := hout b List.mem_cons_self
    rw [assemble] at hk ⊢
    have hstop : b.stop = b.1 + b.2.length := rfl
    by_cases hgap : k < (b.1 - origin).toNat
    · rw [List.append_assoc, List.getElem?_append_left (by rw [List.length_replicate]; exact hgap),
        List.getElem?_replicate, if_pos hgap]
    · have hlen : (List.replicate (b.1 - origin).toNat (0 : UInt8) ++ b.2).length =
          (b.stop - origin).toNat := by
        rw [List.length_append, List.length_replicate]
        omega
      have hpast : (b.stop - origin).toNat ≤ k := by omega
      rw [List.length_append, hlen] at hk
      rw [List.getElem?_append_right (by omega), hlen]
      refine ih hrest (by omega) fun c hc => ?_
      have hc' := hout c (List.mem_cons_of_mem b hc)
      omega

theorem InOrder.left {origin : Int} {as bs : List Block} (h : InOrder origin (as ++ bs)) :
    InOrder origin as := by
  induction as generalizing origin with
  | nil => trivial
  | cons a as ih => exact ⟨h.1, ih h.2⟩

/-- Fewer blocks are a prefix of more. -/
theorem assemble_append (origin : Int) (as bs : List Block) :
    assemble origin (as ++ bs) = assemble origin as ++ assemble (stopOf origin as) bs := by
  induction as generalizing origin with
  | nil => rfl
  | cons a as ih =>
    rw [List.cons_append, assemble, assemble, ih, stopOf]
    simp only [List.append_assoc]

/-! ## Writing over a byte string -/

/-- The bytes `d` written over those of `b` from position `pos` on. -/
def overwrite (b : Bytes) (pos : Nat) (d : Bytes) : Bytes :=
  b.take pos ++ d ++ b.drop (pos + d.length)

@[simp] theorem overwrite_nil (b : Bytes) (pos : Nat) : overwrite b pos [] = b := by
  unfold overwrite
  rw [List.append_nil, List.length_nil, Nat.add_zero, List.take_append_drop]

variable {b d : Bytes} {pos k : Nat}

theorem length_overwrite (h : pos + d.length ≤ b.length) :
    (overwrite b pos d).length = b.length := by
  unfold overwrite
  rw [List.length_append, List.length_append, List.length_take, List.length_drop]
  omega

theorem getElem?_overwrite_of_mem (h : pos + d.length ≤ b.length) (h1 : pos ≤ k)
    (h2 : k < pos + d.length) : (overwrite b pos d)[k]? = d[k - pos]? := by
  have htake : (b.take pos).length = pos := by rw [List.length_take]; omega
  unfold overwrite
  rw [List.getElem?_append_left (by rw [List.length_append, htake]; exact h2),
    List.getElem?_append_right (by rw [htake]; exact h1), htake]

theorem getElem?_overwrite_of_not_mem (h : pos + d.length ≤ b.length)
    (hk : ¬ (pos ≤ k ∧ k < pos + d.length)) : (overwrite b pos d)[k]? = b[k]? := by
  have htake : (b.take pos).length = pos := by rw [List.length_take]; omega
  unfold overwrite
  by_cases hlt : k < pos
  · rw [List.append_assoc, List.getElem?_append_left (by rw [htake]; exact hlt),
      List.getElem?_take, if_pos hlt]
  · rw [List.getElem?_append_right (by rw [List.length_append, htake]; omega),
      List.length_append, htake, List.getElem?_drop]
    congr 1
    omega

/-- One more byte is written. -/
theorem set_overwrite (h : pos + d.length < b.length) (x : UInt8) :
    (overwrite b pos d).set (pos + d.length) x = overwrite b pos (d ++ [x]) := by
  have hlen : (d ++ [x]).length = d.length + 1 := List.length_append
  apply List.ext_getElem?
  intro k
  rw [List.getElem?_set, length_overwrite (by omega)]
  by_cases heq : pos + d.length = k
  · rw [if_pos heq, if_pos (by omega), getElem?_overwrite_of_mem (by omega) (by omega) (by omega),
      List.getElem?_append_right (by omega)]
    rw [show k - pos - d.length = 0 by omega]
    rfl
  · rw [if_neg heq]
    by_cases hin : pos ≤ k ∧ k < pos + d.length
    · rw [getElem?_overwrite_of_mem (by omega) hin.1 hin.2,
        getElem?_overwrite_of_mem (by omega) hin.1 (by omega), List.getElem?_append_left (by omega)]
    · rw [getElem?_overwrite_of_not_mem (by omega) hin,
        getElem?_overwrite_of_not_mem (by omega) (by omega)]

/-- Several blocks written one after the other. -/
def overwriteAll (b : Bytes) (blocks : List (Nat × Bytes)) : Bytes :=
  blocks.foldl (fun b block => overwrite b block.1 block.2) b

/-- The positions a block takes. -/
def Takes (block : Nat × Bytes) (k : Nat) : Prop :=
  block.1 ≤ k ∧ k < block.1 + block.2.length

theorem length_overwriteAll {blocks : List (Nat × Bytes)}
    (h : ∀ block ∈ blocks, block.1 + block.2.length ≤ b.length) :
    (overwriteAll b blocks).length = b.length := by
  induction blocks generalizing b with
  | nil => rfl
  | cons block blocks ih =>
    have hlen := length_overwrite (h block List.mem_cons_self)
    have hrest : ∀ c ∈ blocks, c.1 + c.2.length ≤ (overwrite b block.1 block.2).length := by
      intro c hc
      rw [hlen]
      exact h c (List.mem_cons_of_mem _ hc)
    exact (ih hrest).trans hlen

theorem getElem?_overwriteAll_of_not_taken {blocks : List (Nat × Bytes)}
    (h : ∀ block ∈ blocks, block.1 + block.2.length ≤ b.length)
    (hk : ∀ block ∈ blocks, ¬ Takes block k) : (overwriteAll b blocks)[k]? = b[k]? := by
  induction blocks generalizing b with
  | nil => rfl
  | cons block blocks ih =>
    have hfit := h block List.mem_cons_self
    have hrest : ∀ c ∈ blocks, c.1 + c.2.length ≤ (overwrite b block.1 block.2).length := by
      intro c hc
      rw [length_overwrite hfit]
      exact h c (List.mem_cons_of_mem _ hc)
    have htail := ih hrest fun c hc => hk c (List.mem_cons_of_mem _ hc)
    exact htail.trans (getElem?_overwrite_of_not_mem hfit (hk block List.mem_cons_self))

/-- A position that no later block takes keeps the byte of its block. -/
theorem getElem?_overwriteAll_of_taken {blocks : List (Nat × Bytes)}
    (h : ∀ block ∈ blocks, block.1 + block.2.length ≤ b.length)
    (hdisjoint : blocks.Pairwise fun c d => ∀ k, ¬ (Takes c k ∧ Takes d k))
    {block : Nat × Bytes} (hblock : block ∈ blocks) (hk : Takes block k) :
    (overwriteAll b blocks)[k]? = block.2[k - block.1]? := by
  induction blocks generalizing b with
  | nil => cases hblock
  | cons c blocks ih =>
    rw [List.pairwise_cons] at hdisjoint
    have hfit := h c List.mem_cons_self
    have hrest : ∀ d ∈ blocks, d.1 + d.2.length ≤ (overwrite b c.1 c.2).length := by
      intro d hd
      rw [length_overwrite hfit]
      exact h d (List.mem_cons_of_mem _ hd)
    rcases List.mem_cons.mp hblock with rfl | hblock
    · have htail := getElem?_overwriteAll_of_not_taken hrest
        fun d hd htaken => hdisjoint.1 d hd k ⟨hk, htaken⟩
      exact htail.trans (getElem?_overwrite_of_mem hfit hk.1 hk.2)
    · exact ih hrest hdisjoint.2 hblock

/-- The last block that takes a position decides what it holds. -/
theorem getElem?_overwriteAll_of_last {before after : List (Nat × Bytes)} {block : Nat × Bytes}
    (h : ∀ c ∈ before ++ block :: after, c.1 + c.2.length ≤ b.length)
    (hk : Takes block k) (hlast : ∀ c ∈ after, ¬ Takes c k) :
    (overwriteAll b (before ++ block :: after))[k]? = block.2[k - block.1]? := by
  have hbefore : (overwriteAll b before).length = b.length :=
    length_overwriteAll fun c hc => h c (List.mem_append_left _ hc)
  have hblock : block.1 + block.2.length ≤ (overwriteAll b before).length := by
    rw [hbefore]
    exact h block (List.mem_append_right _ List.mem_cons_self)
  have hafter : ∀ c ∈ after, c.1 + c.2.length ≤
      (overwrite (overwriteAll b before) block.1 block.2).length := by
    intro c hc
    rw [length_overwrite hblock, hbefore]
    exact h c (List.mem_append_right _ (List.mem_cons_of_mem _ hc))
  have hfold : overwriteAll b (before ++ block :: after) =
      overwriteAll (overwrite (overwriteAll b before) block.1 block.2) after := by
    unfold overwriteAll
    rw [List.foldl_append, List.foldl_cons]
  rw [hfold, getElem?_overwriteAll_of_not_taken hafter hlast]
  exact getElem?_overwrite_of_mem hblock hk.1 hk.2

/-- Empty blocks may be left out. -/
theorem overwriteAll_filter (blocks : List (Nat × Bytes)) :
    overwriteAll b (blocks.filter fun c => c.2 ≠ []) = overwriteAll b blocks := by
  induction blocks generalizing b with
  | nil => rfl
  | cons c blocks ih =>
    by_cases hc : c.2 = []
    · rw [List.filter_cons_of_neg (by simpa using hc), ih]
      unfold overwriteAll
      rw [List.foldl_cons, hc, overwrite_nil]
    · rw [List.filter_cons_of_pos (by simpa using hc)]
      exact ih

end SoftHier.Foundation
