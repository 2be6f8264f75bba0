/-
  Foundation/Dict.lean --- insertion-ordered dictionaries.

  The dictionary of an interpreter that keeps insertion order: assigning to a
  present key replaces the value in place, assigning to a new key appends.  Key
  uniqueness is a field, so no lemma below has to assume it.
-/
import Mathlib.Data.List.Nodup

set_option autoImplicit false

namespace SoftHier.Foundation

/-- An insertion-ordered dictionary. -/
structure Dict (κ ν : Type) where
  entries : List (κ × ν)
  nodup : (entries.map Prod.fst).Nodup

namespace Dict

variable {κ ν : Type}

/-- The empty dictionary. -/
def empty : Dict κ ν := ⟨[], List.nodup_nil⟩

instance : Inhabited (Dict κ ν) := ⟨empty⟩

/-- The keys, in insertion order. -/
def keys (d : Dict κ ν) : List κ := d.entries.map Prod.fst

/-- The values, in insertion order of their keys. -/
def values (d : Dict κ ν) : List ν := d.entries.map Prod.snd

/-- The number of entries. -/
def length (d : Dict κ ν) : Nat := d.entries.length

@[simp] theorem keys_empty : (empty : Dict κ ν).keys = [] := rfl
@[simp] theorem values_empty : (empty : Dict κ ν).values = [] := rfl
@[simp] theorem length_empty : (empty : Dict κ ν).length = 0 := rfl
@[simp] theorem length_keys (d : Dict κ ν) : d.keys.length = d.length := by
  simp [keys, length]
@[simp] theorem length_values (d : Dict κ ν) : d.values.length = d.length := by
  simp [values, length]

theorem nodup_keys (d : Dict κ ν) : d.keys.Nodup := d.nodup

theorem ext_entries {d e : Dict κ ν} (h : d.entries = e.entries) : d = e := by
  cases d; cases e; cases h; rfl

/-! ## Lookup -/

section Lookup

variable [DecidableEq κ]

/-- Find a key in a list of entries. -/
def lookup (k : κ) : List (κ × ν) → Option ν
  | [] => none
  | (k', v) :: rest => if k' = k then some v else lookup k rest

/-- `d.get(k)`. -/
def get (d : Dict κ ν) (k : κ) : Option ν := lookup k d.entries

@[simp] theorem get_empty (k : κ) : (empty : Dict κ ν).get k = none := rfl

theorem lookup_eq_none_iff {k : κ} {l : List (κ × ν)} :
    lookup k l = none ↔ k ∉ l.map Prod.fst := by
  induction l with
  | nil => simp [lookup]
  | cons e l ih =>
    obtain ⟨k', v⟩ := e
    by_cases hk : k' = k
    · simp [lookup, hk]
    · simp [lookup, hk, ih, Ne.symm hk]

theorem mem_of_lookup {k : κ} {v : ν} {l : List (κ × ν)} (h : lookup k l = some v) :
    (k, v) ∈ l := by
  induction l with
  | nil => simp [lookup] at h
  | cons e l ih =>
    obtain ⟨k', v'⟩ := e
    by_cases hk : k' = k
    · simp only [lookup, hk, if_true, Option.some.injEq] at h
      simp [hk, h]
    · simp only [lookup, hk, if_false] at h
      exact List.mem_cons_of_mem _ (ih h)

theorem lookup_of_mem {k : κ} {v : ν} {l : List (κ × ν)} (hn : (l.map Prod.fst).Nodup)
    (h : (k, v) ∈ l) : lookup k l = some v := by
  induction l with
  | nil => simp at h
  | cons e l ih =>
    obtain ⟨k', v'⟩ := e
    rw [List.map_cons, List.nodup_cons] at hn
    rcases List.mem_cons.mp h with heq | hmem
    · simp only [Prod.mk.injEq] at heq
      simp [lookup, heq.1, heq.2]
    · have hne : k' ≠ k := by
        rintro rfl
        exact hn.1 (List.mem_map.mpr ⟨(k', v), hmem, rfl⟩)
      simp [lookup, hne, ih hn.2 hmem]

/-- A dictionary maps a key to a value exactly when the pair is an entry. -/
theorem get_eq_some_iff {d : Dict κ ν} {k : κ} {v : ν} :
    d.get k = some v ↔ (k, v) ∈ d.entries :=
  ⟨mem_of_lookup, lookup_of_mem d.nodup⟩

theorem get_eq_none_iff {d : Dict κ ν} {k : κ} : d.get k = none ↔ k ∉ d.keys :=
  lookup_eq_none_iff

theorem mem_keys_iff {d : Dict κ ν} {k : κ} : k ∈ d.keys ↔ ∃ v, d.get k = some v := by
  rw [← not_iff_not, ← get_eq_none_iff]
  cases d.get k <;> simp

theorem mem_values_of_get {d : Dict κ ν} {k : κ} {v : ν} (h : d.get k = some v) :
    v ∈ d.values :=
  List.mem_map.mpr ⟨(k, v), get_eq_some_iff.mp h, rfl⟩

theorem exists_get_of_mem_values {d : Dict κ ν} {v : ν} (h : v ∈ d.values) :
    ∃ k, d.get k = some v := by
  obtain ⟨⟨k, v'⟩, hm, rfl⟩ := List.mem_map.mp h
  exact ⟨k, get_eq_some_iff.mpr hm⟩

/-! ## Assignment -/

/-- Assign a key in a list of entries. -/
def assign (k : κ) (v : ν) : List (κ × ν) → List (κ × ν)
  | [] => [(k, v)]
  | (k', v') :: rest => if k' = k then (k', v) :: rest else (k', v') :: assign k v rest

theorem map_fst_assign (k : κ) (v : ν) (l : List (κ × ν)) :
    (assign k v l).map Prod.fst =
      if k ∈ l.map Prod.fst then l.map Prod.fst else l.map Prod.fst ++ [k] := by
  induction l with
  | nil => simp [assign]
  | cons e l ih =>
    obtain ⟨k', v'⟩ := e
    by_cases hk : k' = k
    · simp [assign, hk]
    · simp only [assign, hk, if_false, List.map_cons, ih, List.mem_cons, Ne.symm hk, false_or]
      split <;> rfl

theorem nodup_assign {k : κ} {v : ν} {l : List (κ × ν)} (h : (l.map Prod.fst).Nodup) :
    ((assign k v l).map Prod.fst).Nodup := by
  rw [map_fst_assign]
  split
  · exact h
  · rename_i hm
    exact List.nodup_append.mpr ⟨h, by simp, by
      intro a ha b hb hab
      rw [List.mem_singleton] at hb
      exact hm (hb ▸ hab ▸ ha)⟩

/-- `d[k] = v`. -/
def set (d : Dict κ ν) (k : κ) (v : ν) : Dict κ ν :=
  ⟨assign k v d.entries, nodup_assign d.nodup⟩

theorem keys_set (d : Dict κ ν) (k : κ) (v : ν) :
    (d.set k v).keys = if k ∈ d.keys then d.keys else d.keys ++ [k] :=
  map_fst_assign k v d.entries

theorem keys_set_of_mem {d : Dict κ ν} {k : κ} (v : ν) (h : k ∈ d.keys) :
    (d.set k v).keys = d.keys := by rw [keys_set, if_pos h]

theorem assign_of_not_mem {k : κ} {v : ν} {l : List (κ × ν)} (h : k ∉ l.map Prod.fst) :
    assign k v l = l ++ [(k, v)] := by
  induction l with
  | nil => rfl
  | cons e l ih =>
    obtain ⟨k', v'⟩ := e
    simp only [List.map_cons, List.mem_cons, not_or] at h
    simp [assign, Ne.symm h.1, ih h.2]

theorem entries_set_of_not_mem {d : Dict κ ν} {k : κ} (v : ν) (h : k ∉ d.keys) :
    (d.set k v).entries = d.entries ++ [(k, v)] := assign_of_not_mem h

theorem lookup_assign (k k' : κ) (v : ν) (l : List (κ × ν)) :
    lookup k' (assign k v l) = if k = k' then some v else lookup k' l := by
  induction l with
  | nil => simp [assign, lookup]
  | cons e l ih =>
    obtain ⟨k₀, v₀⟩ := e
    by_cases hk : k₀ = k
    · subst hk
      by_cases hk' : k₀ = k' <;> simp [assign, lookup, hk']
    · by_cases hk' : k₀ = k'
      · subst hk'
        simp [assign, lookup, hk, Ne.symm hk]
      · simp [assign, lookup, hk, hk', ih]

theorem get_set (d : Dict κ ν) (k k' : κ) (v : ν) :
    (d.set k v).get k' = if k = k' then some v else d.get k' :=
  lookup_assign k k' v d.entries

@[simp] theorem get_set_self (d : Dict κ ν) (k : κ) (v : ν) : (d.set k v).get k = some v := by
  rw [get_set, if_pos rfl]

theorem get_set_of_ne {d : Dict κ ν} {k k' : κ} (v : ν) (h : k ≠ k') :
    (d.set k v).get k' = d.get k' := by
  rw [get_set, if_neg h]

theorem mem_keys_set {d : Dict κ ν} {k k' : κ} {v : ν} :
    k' ∈ (d.set k v).keys ↔ k' = k ∨ k' ∈ d.keys := by
  rw [keys_set]
  split
  · rename_i h
    exact ⟨Or.inr, fun h' => h'.elim (fun e => e ▸ h) id⟩
  · rw [List.mem_append, List.mem_singleton, or_comm]

/-- The keys of a dictionary that is filled in depend on the keys assigned alone. -/
theorem keys_foldl_set {α β μ : Type} {key : α → κ} {key' : β → κ}
    (value : Dict κ ν → α → ν) (value' : Dict κ μ → β → μ) {xs : List α} :
    ∀ {ys : List β} {d : Dict κ ν} {e : Dict κ μ}, xs.map key = ys.map key' → d.keys = e.keys →
      (xs.foldl (fun d x => d.set (key x) (value d x)) d).keys =
        (ys.foldl (fun e y => e.set (key' y) (value' e y)) e).keys := by
  induction xs with
  | nil =>
    intro ys d e hkeys hde
    obtain rfl := List.map_eq_nil_iff.mp hkeys.symm
    exact hde
  | cons x xs ih =>
    intro ys d e hkeys hde
    obtain ⟨y, ys, rfl, hkey, hrest⟩ := List.map_eq_cons_iff.mp hkeys.symm
    have hstep : (d.set (key x) (value d x)).keys = (e.set (key' y) (value' e y)).keys := by
      rw [keys_set, keys_set, hde, hkey]
    rw [List.foldl_cons, List.foldl_cons]
    exact ih hrest.symm hstep

/-! ## An entry in the middle -/

theorem entries_set_middle {d : Dict κ ν} {pre post : List (κ × ν)} {k : κ} {v : ν}
    (h : d.entries = pre ++ (k, v) :: post) (v' : ν) :
    (d.set k v').entries = pre ++ (k, v') :: post := by
  have hn := d.nodup
  rw [h, List.map_append, List.map_cons, List.nodup_append] at hn
  have hpre : k ∉ pre.map Prod.fst := fun hk => hn.2.2 k hk k List.mem_cons_self rfl
  change assign k v' d.entries = _
  rw [h]
  clear h hn
  induction pre with
  | nil => simp [assign]
  | cons p pre ih =>
    obtain ⟨k₁, v₁⟩ := p
    rw [List.map_cons, List.mem_cons, not_or] at hpre
    rw [List.cons_append, assign, if_neg (Ne.symm hpre.1), ih hpre.2, List.cons_append]

theorem get_middle {d : Dict κ ν} {pre post : List (κ × ν)} {k : κ} {v : ν}
    (h : d.entries = pre ++ (k, v) :: post) : d.get k = some v :=
  get_eq_some_iff.mpr (by rw [h]; simp)

/-- An assignment to a key that is there changes its entry only. -/
theorem entries_set_eq_map {d : Dict κ ν} {k : κ} {v : ν} (h : d.get k = some v) (g : ν → ν) :
    (d.set k (g v)).entries = d.entries.map fun e => if e.1 = k then (e.1, g e.2) else e := by
  obtain ⟨pre, post, hsplit⟩ := List.append_of_mem (get_eq_some_iff.mp h)
  have hn := d.nodup
  rw [hsplit, List.map_append, List.map_cons, List.nodup_append, List.nodup_cons] at hn
  obtain ⟨-, ⟨hpost, -⟩, hpre⟩ := hn
  have hkeep : ∀ l : List (κ × ν), k ∉ l.map Prod.fst →
      (l.map fun e => if e.1 = k then (e.1, g e.2) else e) = l := by
    intro l hl
    refine (List.map_congr_left fun e he => if_neg ?_).trans (List.map_id l)
    exact fun hek => hl (List.mem_map.mpr ⟨e, he, hek⟩)
  rw [entries_set_middle hsplit, hsplit, List.map_append, List.map_cons, if_pos rfl,
    hkeep pre fun hk => hpre k hk k List.mem_cons_self rfl, hkeep post hpost]

theorem set_set (d : Dict κ ν) (k : κ) (v v' : ν) : (d.set k v).set k v' = d.set k v' := by
  refine ext_entries ?_
  change assign k v' (assign k v d.entries) = assign k v' d.entries
  generalize d.entries = l
  induction l with
  | nil => simp [assign]
  | cons p l ih =>
    obtain ⟨k₁, v₁⟩ := p
    rw [assign]
    by_cases hk : k₁ = k
    · rw [if_pos hk, assign, if_pos hk, assign, if_pos hk]
    · rw [if_neg hk, assign, if_neg hk, assign, if_neg hk, ih]

/-- The entries are the keys with their values. -/
theorem entries_eq_filterMap (d : Dict κ ν) :
    d.entries = d.keys.filterMap fun k => (d.get k).map (Prod.mk k) := by
  unfold keys
  rw [List.filterMap_map]
  refine (List.filterMap_some.symm.trans (List.filterMap_congr fun e he => ?_))
  rw [Function.comp_apply, get_eq_some_iff.mpr he]
  rfl

theorem ext_get {d e : Dict κ ν} (hkeys : d.keys = e.keys) (hget : ∀ k, d.get k = e.get k) :
    d = e := by
  refine ext_entries ?_
  rw [entries_eq_filterMap d, entries_eq_filterMap e, hkeys]
  simp only [hget]

/-- Two dictionaries with the same keys, whose values are related key by key. -/
theorem forall₂_values {μ : Type} {d : Dict κ ν} {e : Dict κ μ} {R : ν → μ → Prop}
    (hkeys : d.keys = e.keys) (h : ∀ k v w, d.get k = some v → e.get k = some w → R v w) :
    List.Forall₂ R d.values e.values := by
  have hlen : d.entries.length = e.entries.length := by
    have hlengths : (d.entries.map Prod.fst).length = (e.entries.map Prod.fst).length :=
      congrArg List.length hkeys
    rw [List.length_map, List.length_map] at hlengths
    exact hlengths
  unfold values
  rw [List.forall₂_map_left_iff, List.forall₂_map_right_iff, List.forall₂_iff_get]
  refine ⟨hlen, fun i hi hi' => ?_⟩
  have hkey : (d.entries.get ⟨i, hi⟩).1 = (e.entries.get ⟨i, hi'⟩).1 := by
    have hget := congrArg (fun ks : List κ => ks[i]?) hkeys
    unfold keys at hget
    rw [List.getElem?_map, List.getElem?_map, List.getElem?_eq_getElem hi,
      List.getElem?_eq_getElem hi'] at hget
    exact Option.some.inj hget
  refine h (d.entries.get ⟨i, hi⟩).1 _ _ (get_eq_some_iff.mpr (List.get_mem _ _)) ?_
  rw [hkey]
  exact get_eq_some_iff.mpr (List.get_mem _ _)

/-! ## Values that know their keys -/

/-- Searching the values for a key that every value knows is looking it up. -/
theorem find?_values {d : Dict κ ν} {key : ν → κ}
    (h : ∀ k v, d.get k = some v → key v = k) (k : κ) :
    (d.values.find? fun v => key v = k) = d.get k := by
  cases hget : d.get k with
  | none =>
    refine List.find?_eq_none.mpr fun v hv => ?_
    obtain ⟨k', hk'⟩ := exists_get_of_mem_values hv
    rw [decide_eq_true_eq, h k' v hk']
    rintro rfl
    rw [hget] at hk'
    cases hk'
  | some v =>
    have hsome : (d.values.find? fun v => key v = k).isSome :=
      List.find?_isSome.mpr ⟨v, mem_values_of_get hget, by simp [h k v hget]⟩
    obtain ⟨v', hv'⟩ := Option.isSome_iff_exists.mp hsome
    obtain ⟨k', hk'⟩ := exists_get_of_mem_values (List.mem_of_find?_eq_some hv')
    have hkey : key v' = k := by simpa using List.find?_some hv'
    rw [h k' v' hk'] at hkey
    rw [hv', ← hget, ← hkey, hk']

/-- The place of a value is the place of its key. -/
theorem findIdx?_values {d : Dict κ ν} {key : ν → κ}
    (h : ∀ k v, d.get k = some v → key v = k) (k : κ) :
    (d.values.findIdx? fun v => key v = k) =
      if (d.get k).isSome then some (d.keys.idxOf k) else none := by
  have hmap : d.values.map key = d.keys := by
    unfold values keys
    rw [List.map_map]
    exact List.map_congr_left fun e he => h e.1 e.2 (get_eq_some_iff.mpr he)
  have hidx : (d.values.findIdx? fun v => key v = k) = d.keys.findIdx? (· == k) := by
    rw [← hmap, List.findIdx?_map]
    rfl
  rw [hidx]
  split
  next hsome =>
    have hmem : k ∈ d.keys := mem_keys_iff.mpr (Option.isSome_iff_exists.mp hsome)
    exact List.findIdx?_eq_some_iff_findIdx_eq.mpr ⟨List.idxOf_lt_length_of_mem hmem, rfl⟩
  next hnone =>
    refine List.findIdx?_eq_none_iff.mpr fun k' hk' => beq_false_of_ne ?_
    rintro rfl
    exact hnone (Option.isSome_iff_exists.mpr (mem_keys_iff.mp hk'))

end Lookup

end Dict

end SoftHier.Foundation
