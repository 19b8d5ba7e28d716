import Mathlib.Data.List.GetD
import Mathlib.Tactic

/-!
# Interleaving columns

Lists of different lengths are written row by row: the first elements of all of them, then the
second ones of those that have one, and so on.

* `interleave`: the writer; `slots`: where each element goes.
* `deinterleave`, **`deinterleave_interleave`**: a reader that knows the lengths gets the lists back.
* `length_interleave_eq_sum`: the length of what is written.
-/

namespace Interleave

variable {α : Type*}

/-- The columns row by row. -/
def interleave (rows : ℕ) (cols : List (List α)) : List α :=
  (List.range rows).flatMap fun i => cols.filterMap fun col => col[i]?

/-- The column and the row of every element, in the order of the writer. -/
def slots (rows : ℕ) (lens : List ℕ) : List (ℕ × ℕ) :=
  (List.range rows).flatMap fun i =>
    (List.range lens.length).filterMap fun r => if i < lens.getD r 0 then some (r, i) else none

/-- One column out of what was written. -/
def column (rows : ℕ) (lens : List ℕ) (data : List α) (r : ℕ) : List α :=
  (List.range (lens.getD r 0)).filterMap fun i => data[(slots rows lens).idxOf (r, i)]?

/-- The columns of the given lengths, out of what was written. -/
def deinterleave (rows : ℕ) (lens : List ℕ) (data : List α) : List (List α) :=
  (List.range lens.length).map (column rows lens data)

theorem exists_mem_of_mem_interleave {rows : ℕ} {cols : List (List α)} {c : α}
    (h : c ∈ interleave rows cols) : ∃ col ∈ cols, c ∈ col := by
  obtain ⟨i, -, hi⟩ := List.mem_flatMap.mp h
  obtain ⟨col, hcol, hget⟩ := List.mem_filterMap.mp hi
  exact ⟨col, hcol, List.mem_of_getElem? hget⟩

theorem mem_slots {rows : ℕ} {lens : List ℕ} {r i : ℕ} :
    (r, i) ∈ slots rows lens ↔ i < rows ∧ r < lens.length ∧ i < lens.getD r 0 := by
  rw [slots, List.mem_flatMap]
  constructor
  · rintro ⟨i', hi', hmem⟩
    obtain ⟨r', hr', hr⟩ := List.mem_filterMap.mp hmem
    split at hr
    · cases hr
      exact ⟨List.mem_range.mp hi', List.mem_range.mp hr', by assumption⟩
    · cases hr
  · rintro ⟨hi, hr, hlen⟩
    exact ⟨i, List.mem_range.mpr hi, List.mem_filterMap.mpr ⟨r, List.mem_range.mpr hr, if_pos hlen⟩⟩

theorem map_some_row (cols : List (List α)) (i : ℕ) :
    (cols.filterMap fun col => col[i]?).map some =
      ((List.range (cols.map List.length).length).filterMap fun r =>
        if i < (cols.map List.length).getD r 0 then some (r, i) else none).map
          fun p => (cols.getD p.1 [])[p.2]? := by
  induction cols with
  | nil => rfl
  | cons c cols ih =>
    have htail : ((List.range (cols.map List.length).length).filterMap
        ((fun r => if i < (c.length :: cols.map List.length).getD r 0 then some (r, i) else none) ∘
          Nat.succ)).map (fun p => ((c :: cols).getD p.1 [])[p.2]?) =
        (cols.filterMap fun col => col[i]?).map some := by
      rw [ih, List.map_filterMap, List.map_filterMap]
      refine congrArg (List.filterMap · _) (funext fun r => ?_)
      rw [Function.comp_apply, List.getD_cons_succ]
      split_ifs <;> rfl
    rw [List.map_cons, List.length_cons, List.range_succ_eq_map, List.filterMap_cons,
      List.filterMap_cons, List.getD_cons_zero, List.filterMap_map]
    by_cases hi : i < c.length
    · rw [if_pos hi, List.getElem?_eq_getElem hi]
      dsimp only
      rw [List.map_cons, List.map_cons, htail, List.getD_cons_zero, List.getElem?_eq_getElem hi]
    · rw [if_neg hi, List.getElem?_eq_none (Nat.le_of_not_lt hi)]
      exact htail.symm

theorem map_some_interleave (rows : ℕ) (cols : List (List α)) :
    (interleave rows cols).map some =
      (slots rows (cols.map List.length)).map fun p => (cols.getD p.1 [])[p.2]? := by
  rw [interleave, slots, List.map_flatMap, List.map_flatMap]
  exact congrArg (List.flatMap · _) (funext fun i => map_some_row cols i)

theorem length_interleave (rows : ℕ) (cols : List (List α)) :
    (interleave rows cols).length = (slots rows (cols.map List.length)).length := by
  have hlen := congrArg List.length (map_some_interleave rows cols)
  rwa [List.length_map, List.length_map] at hlen

theorem getElem?_interleave {rows : ℕ} {cols : List (List α)} {r i : ℕ}
    (h : (r, i) ∈ slots rows (cols.map List.length)) :
    (interleave rows cols)[(slots rows (cols.map List.length)).idxOf (r, i)]? =
      (cols.getD r [])[i]? := by
  have hlt := List.idxOf_lt_length_of_mem h
  have hmap := congrArg (·[(slots rows (cols.map List.length)).idxOf (r, i)]?)
    (map_some_interleave rows cols)
  simp only [List.getElem?_map] at hmap
  rw [List.getElem?_eq_getElem hlt, List.getElem_idxOf hlt,
    List.getElem?_eq_getElem (by rw [length_interleave]; exact hlt)] at hmap
  rw [List.getElem?_eq_getElem (by rw [length_interleave]; exact hlt)]
  exact Option.some.inj hmap

theorem filterMap_range {l : List α} {f : ℕ → Option α} {n : ℕ} (hn : n ≤ l.length)
    (h : ∀ i < n, f i = l[i]?) : (List.range n).filterMap f = l.take n := by
  induction n with
  | zero => rfl
  | succ n ih =>
    rw [List.range_succ, List.filterMap_append, ih (by omega) fun i hi => h i (by omega),
      List.filterMap_cons, h n (Nat.lt_succ_self n), List.getElem?_eq_getElem (by omega),
      List.take_succ_eq_append_getElem (by omega)]
    rfl

theorem column_interleave {rows : ℕ} {cols : List (List α)} (h : ∀ c ∈ cols, c.length ≤ rows)
    (rest : List α) {r : ℕ} (hr : r < cols.length) :
    column rows (cols.map List.length) (interleave rows cols ++ rest) r = cols[r] := by
  have hlen : (cols.map List.length).getD r 0 = cols[r].length := by
    rw [List.getD_eq_getElem _ _ (by rwa [List.length_map]), List.getElem_map]
  rw [column, hlen, filterMap_range le_rfl, List.take_length]
  intro i hi
  have hmem : (r, i) ∈ slots rows (cols.map List.length) :=
    mem_slots.mpr ⟨hi.trans_le (h _ (List.getElem_mem hr)), by rwa [List.length_map], by rwa [hlen]⟩
  rw [List.getElem?_append_left (by
    rw [length_interleave]
    exact List.idxOf_lt_length_of_mem hmem), getElem?_interleave hmem, List.getD_eq_getElem _ _ hr]

/-- **The columns are read back**, whatever follows them. -/
theorem deinterleave_interleave {rows : ℕ} {cols : List (List α)}
    (h : ∀ c ∈ cols, c.length ≤ rows) (rest : List α) :
    deinterleave rows (cols.map List.length) (interleave rows cols ++ rest) = cols := by
  have hlen : (cols.map List.length).length = cols.length := List.length_map _
  apply List.ext_getElem
  · rw [deinterleave, List.length_map, List.length_range, hlen]
  · intro r hr hr'
    simp only [deinterleave]
    rw [List.getElem_map, List.getElem_range, column_interleave h rest hr']

theorem map_interleave {β : Type*} (f : α → β) (rows : ℕ) (cols : List (List α)) :
    (interleave rows cols).map f = interleave rows (cols.map (List.map f)) := by
  rw [interleave, interleave, List.map_flatMap]
  refine congrArg (List.flatMap · _) (funext fun i => ?_)
  rw [List.map_filterMap, List.filterMap_map]
  exact congrArg (List.filterMap · cols) (funext fun col => (List.getElem?_map).symm)

theorem sum_min_succ (cols : List (List α)) (i : ℕ) :
    (cols.map fun c => min (i + 1) c.length).sum =
      (cols.map fun c => min i c.length).sum + (cols.filterMap fun col => col[i]?).length := by
  induction cols with
  | nil => rfl
  | cons c cols ih =>
    rw [List.map_cons, List.sum_cons, List.map_cons, List.sum_cons, ih, List.filterMap_cons]
    by_cases hi : i < c.length
    · rw [List.getElem?_eq_getElem hi]
      dsimp only
      rw [List.length_cons]
      omega
    · rw [List.getElem?_eq_none (Nat.le_of_not_lt hi)]
      dsimp only
      omega

theorem length_interleave_eq_sum {rows : ℕ} {cols : List (List α)} (h : ∀ c ∈ cols, c.length ≤ rows) :
    (interleave rows cols).length = (cols.map List.length).sum := by
  have hmin : ∀ n, (interleave n cols).length = (cols.map fun c => min n c.length).sum := by
    intro n
    induction n with
    | zero =>
      rw [interleave, List.range_zero, List.flatMap_nil, List.length_nil]
      exact (List.sum_eq_zero fun x hx => by
        obtain ⟨c, -, rfl⟩ := List.mem_map.mp hx
        exact Nat.zero_min _).symm
    | succ n ih =>
      rw [sum_min_succ, ← ih, interleave, interleave, List.range_succ, List.flatMap_append,
        List.length_append, List.flatMap_singleton]
  rw [hmin]
  exact congrArg List.sum (List.map_congr_left fun c hc => Nat.min_eq_right (h c hc))

end Interleave
