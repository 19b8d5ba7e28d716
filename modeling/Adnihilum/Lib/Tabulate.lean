import Mathlib.Data.List.GetD
import Mathlib.Order.Basic
import Mathlib.Order.Nat
import Mathlib.Tactic.SplitIfs

/-!
# Tables that a loop fills

* `build`: a table whose entries come one after the other, each from those before it;
  **`getD_build`**.
* `scatter`: writes of an index at places that the index determines; **`getD_scatter`** reads one
  back where no two indices write to one place.
* `pack`, `unpack`: a table of small numbers as one number, for fast evaluation.
-/

namespace Tabulate

/-! ## One entry after the other -/

section Build

variable {α : Type*} (f : List α → ℕ → α)

def build (n : ℕ) : List α := (List.range n).foldl (fun t i => t ++ [f t i]) []

theorem build_succ (n : ℕ) : build f (n + 1) = build f n ++ [f (build f n) n] := by
  rw [build, List.range_succ, List.foldl_append]
  rfl

@[simp] theorem length_build (n : ℕ) : (build f n).length = n := by
  induction n with
  | zero => rfl
  | succ n ih => rw [build_succ, List.length_append, ih, List.length_singleton]

theorem getD_build_of_le {i n m : ℕ} (hi : i < n) (hnm : n ≤ m) (d : α) :
    (build f m).getD i d = (build f n).getD i d := by
  induction m, hnm using Nat.le_induction with
  | base => rfl
  | succ m hm ih =>
    rw [build_succ, List.getD_append _ _ _ _ (by rw [length_build]; omega), ih]

/-- **Each entry comes from those before it.** -/
theorem getD_build {i n : ℕ} (hi : i < n) (d : α) : (build f n).getD i d = f (build f i) i := by
  rw [getD_build_of_le f (Nat.lt_succ_self i) hi, build_succ,
    List.getD_append_right _ _ _ _ (by rw [length_build]), length_build, Nat.sub_self]
  rfl

end Build

/-! ## Scattered writes -/

section Scatter

variable (place : ℕ → ℕ)

def scatter (size n : ℕ) : List (Option ℕ) :=
  (List.range n).foldl (fun t i => t.set (place i) (some i)) (List.replicate size none)

theorem scatter_succ (size n : ℕ) :
    scatter place size (n + 1) = (scatter place size n).set (place n) (some n) := by
  rw [scatter, List.range_succ, List.foldl_append]
  rfl

@[simp] theorem length_scatter (size n : ℕ) : (scatter place size n).length = size := by
  induction n with
  | zero => rw [scatter, List.range_zero, List.foldl_nil, List.length_replicate]
  | succ n ih => rw [scatter_succ, List.length_set, ih]

/-- **An index is read where it was written**, unless another one was written there later. -/
theorem getD_scatter {size n i : ℕ} (hi : i < n) (hsize : place i < size)
    (hinj : ∀ j < n, place j = place i → j = i) :
    (scatter place size n).getD (place i) none = some i := by
  induction n with
  | zero => cases hi
  | succ n ih =>
    rw [scatter_succ, List.getD_eq_getElem?_getD, List.getElem?_set, length_scatter]
    split_ifs with h hlt
    · rw [hinj n (Nat.lt_succ_self n) h, Option.getD_some]
    · exact absurd (h ▸ hsize) hlt
    · have hne : i ≠ n := fun he => h (congrArg place he.symm)
      rw [← List.getD_eq_getElem?_getD]
      exact ih (by omega) fun j hj => hinj j (Nat.lt_succ_of_lt hj)

end Scatter

/-! ## Tables as numbers -/

/-- The bytes `f 0, …, f (n - 1)` as one number. -/
def pack (f : ℕ → ℕ → ℕ) (n : ℕ) : ℕ := n.rec 0 fun i t => t + f t i <<< (8 * i)

/-- One byte of a number. -/
def unpack (t i : ℕ) : ℕ := (t >>> (8 * i)) % 256

end Tabulate
