import Mathlib.Data.List.Nodup
import Mathlib.Logic.Function.Basic
import Mathlib.Tactic.SplitIfs
import Mathlib.Tactic.Common

/-!
# Filling free places

A walk along a path that puts one value after the other where nothing is yet.

* `fill`: the walk, with the number of values that are used.
* `fill_of_some`: what was there stays.
* **`fill_reads`**: along the free places of the path the values stand in their order.
-/

namespace Filling

variable {P α : Type*} [DecidableEq P]

/-- The walk: `value k p` is what the `k`-th value becomes at the place `p`. -/
def fill (value : ℕ → P → α) : List P → (P → Option α) × ℕ → (P → Option α) × ℕ
  | [], s => s
  | p :: path, s =>
    fill value path
      (if s.1 p = none then (Function.update s.1 p (some (value s.2 p)), s.2 + 1) else s)

variable (value : ℕ → P → α)

theorem fill_cons_free {m : P → Option α} {p : P} (path : List P) (k : ℕ) (h : m p = none) :
    fill value (p :: path) (m, k) =
      fill value path (Function.update m p (some (value k p)), k + 1) := by
  rw [fill, if_pos h]

theorem fill_cons_taken {m : P → Option α} {p : P} (path : List P) (k : ℕ) (h : m p ≠ none) :
    fill value (p :: path) (m, k) = fill value path (m, k) := by
  rw [fill, if_neg h]

theorem fill_of_some {path : List P} {m : P → Option α} {k : ℕ} {p : P} {a : α}
    (h : m p = some a) : (fill value path (m, k)).1 p = some a := by
  induction path generalizing m k with
  | nil => exact h
  | cons q path ih =>
    by_cases hq : m q = none
    · rw [fill_cons_free value path k hq]
      refine ih ?_
      rw [Function.update_of_ne _ _ _, h]
      rintro rfl
      rw [hq] at h
      cases h
    · rw [fill_cons_taken value path k hq]
      exact ih h

/-- The free places of a path. -/
def free (path : List P) (m : P → Option α) : List P := path.filter fun p => (m p).isNone

omit [DecidableEq P] in
theorem free_cons_free {m : P → Option α} {p : P} (path : List P) (h : m p = none) :
    free (p :: path) m = p :: free path m := by
  rw [free, List.filter_cons_of_pos (by rw [h]; rfl), free]

omit [DecidableEq P] in
theorem free_cons_taken {m : P → Option α} {p : P} (path : List P) (h : m p ≠ none) :
    free (p :: path) m = free path m := by
  rw [free, List.filter_cons_of_neg (by simpa using h), free]

theorem free_update {path : List P} {m : P → Option α} {p : P} (h : p ∉ path) (a : Option α) :
    free path (Function.update m p a) = free path m := by
  refine List.filter_congr fun q hq => ?_
  rw [Function.update_of_ne]
  rintro rfl
  exact h hq

/-- **Along the free places the values stand in their order.** -/
theorem fill_reads {path : List P} (hpath : path.Nodup) (m : P → Option α) (k : ℕ) {i : ℕ} {p : P}
    (h : (free path m)[i]? = some p) : (fill value path (m, k)).1 p = some (value (k + i) p) := by
  induction path generalizing m k i with
  | nil => cases h
  | cons q path ih =>
    obtain ⟨hq, hpath⟩ := List.nodup_cons.mp hpath
    by_cases hm : m q = none
    · rw [free_cons_free path hm] at h
      rw [fill_cons_free value path k hm]
      cases i with
      | zero =>
        cases h
        exact fill_of_some value (Function.update_self p _ m)
      | succ i =>
        rw [List.getElem?_cons_succ] at h
        have hi := ih hpath (Function.update m q (some (value k q))) (k + 1)
          (by rwa [free_update hq])
        rwa [Nat.add_right_comm] at hi
    · rw [free_cons_taken path hm] at h
      rw [fill_cons_taken value path k hm]
      exact ih hpath m k h

end Filling
