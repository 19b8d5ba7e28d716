import Mathlib.Data.List.Nodup

/-!
# Ordered dictionaries

Dictionaries that keep their items in the order in which the keys came first, as a list of items with
distinct keys.

* `get`, `set`; **`get_set`**.
* `keys_set`: a new key goes to the end, a known one stays where it is.
-/

namespace Dict

variable {κ υ : Type} [DecidableEq κ] {d : List (κ × υ)} {k k' : κ} {v : υ}

/-- The value of a key. -/
def get (d : List (κ × υ)) (k : κ) : Option υ := (d.find? fun p => p.1 = k).map Prod.snd

/-- Set the value of a key. -/
def set (d : List (κ × υ)) (k : κ) (v : υ) : List (κ × υ) :=
  if k ∈ d.map Prod.fst then d.map fun p => if p.1 = k then (k, v) else p else d ++ [(k, v)]

@[simp] theorem get_nil (k : κ) : get ([] : List (κ × υ)) k = none := rfl

theorem get_cons (p : κ × υ) (d : List (κ × υ)) (k : κ) :
    get (p :: d) k = if p.1 = k then some p.2 else get d k := by
  rw [get, List.find?_cons]
  split_ifs with h
  · simp [h]
  · simp [h, get]

theorem get_eq_none_iff : get d k = none ↔ k ∉ d.map Prod.fst := by
  induction d with
  | nil => simp
  | cons p d ih =>
    rw [get_cons, List.map_cons, List.mem_cons, not_or, ← ih]
    split_ifs with h
    · simp [h]
    · simp [Ne.symm h]

theorem get_append (d d' : List (κ × υ)) (k : κ) : get (d ++ d') k = (get d k).or (get d' k) := by
  rw [get, get, get, List.find?_append, Option.map_or]

theorem get_map_self (h : k ∈ d.map Prod.fst) :
    get (d.map fun p => if p.1 = k then (k, v) else p) k = some v := by
  induction d with
  | nil => cases h
  | cons p d ih =>
    rw [List.map_cons, get_cons]
    by_cases hp : p.1 = k
    · simp [hp]
    · rw [if_neg hp, if_neg hp]
      exact ih ((List.mem_cons.mp h).resolve_left (Ne.symm hp))

theorem get_map_of_ne (h : k' ≠ k) :
    get (d.map fun p => if p.1 = k then (k, v) else p) k' = get d k' := by
  induction d with
  | nil => rfl
  | cons p d ih =>
    rw [List.map_cons, get_cons, get_cons, ih]
    by_cases hp : p.1 = k
    · rw [if_pos hp, if_neg (Ne.symm h), if_neg (hp ▸ Ne.symm h)]
    · rw [if_neg hp]

/-- **What is set can be got, and nothing else changes.** -/
theorem get_set (d : List (κ × υ)) (k k' : κ) (v : υ) :
    get (set d k v) k' = if k' = k then some v else get d k' := by
  unfold set
  split_ifs with hmem hkey hkey
  · subst hkey
    exact get_map_self hmem
  · exact get_map_of_ne hkey
  · subst hkey
    rw [get_append, get_eq_none_iff.mpr hmem, Option.none_or, get_cons, if_pos rfl]
  · rw [get_append, get_cons, if_neg (Ne.symm hkey), get_nil, Option.or_none]

theorem keys_set (d : List (κ × υ)) (k : κ) (v : υ) : (set d k v).map Prod.fst =
    if k ∈ d.map Prod.fst then d.map Prod.fst else d.map Prod.fst ++ [k] := by
  unfold set
  split_ifs with h
  · rw [List.map_map]
    refine List.map_congr_left fun p _ => ?_
    rw [Function.comp_apply]
    split_ifs with hp
    · exact hp.symm
    · rfl
  · rw [List.map_append, List.map_singleton]

theorem mem_keys_set : k' ∈ (set d k v).map Prod.fst ↔ k' = k ∨ k' ∈ d.map Prod.fst := by
  rw [keys_set]
  split_ifs with h
  · exact ⟨Or.inr, fun h' => h'.elim (fun heq => heq ▸ h) id⟩
  · rw [List.mem_append, List.mem_singleton, or_comm]

theorem nodup_keys_set (h : (d.map Prod.fst).Nodup) : ((set d k v).map Prod.fst).Nodup := by
  rw [keys_set]
  split_ifs with hk
  · exact h
  · exact h.append (List.nodup_singleton k) (by simpa using hk)

theorem mem_of_get (h : get d k = some v) : (k, v) ∈ d := by
  obtain ⟨p, hp, rfl⟩ := Option.map_eq_some_iff.mp h
  have hk : p.1 = k := by simpa using List.find?_some hp
  rw [← hk]
  exact List.mem_of_find?_eq_some hp

theorem get_of_mem (h : (d.map Prod.fst).Nodup) {p : κ × υ} (hp : p ∈ d) : get d p.1 = some p.2 := by
  induction d with
  | nil => cases hp
  | cons q d ih =>
    rw [List.map_cons, List.nodup_cons] at h
    rw [get_cons]
    rcases List.mem_cons.mp hp with rfl | hp
    · rw [if_pos rfl]
    · rw [if_neg fun heq : q.1 = p.1 => h.1 (heq ▸ List.mem_map_of_mem hp)]
      exact ih h.2 hp

end Dict
