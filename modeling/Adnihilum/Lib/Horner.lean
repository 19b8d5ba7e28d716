import Mathlib.Algebra.BigOperators.Group.List.Basic
import Mathlib.Algebra.BigOperators.Ring.List
import Mathlib.Tactic.Ring

/-!
# Values of polynomials

A polynomial is the list of its coefficients, the highest one first.

* `horner`: its value at a point; `horner_cons`, `horner_append`, `horner_zeros`.
* **`horner_modify`**: what adding to one coefficient adds to the value.
* **`horner_fold`**: what a loop over coefficients adds to the value.
* **`horner_mul`**: the product of two values, as the sum that a double loop makes.
-/

namespace Horner

variable {R : Type*} [CommSemiring R] (x : R)

/-- The value of a polynomial, by Horner's rule. -/
def horner (cs : List R) : R := cs.foldl (fun v c => v * x + c) 0

theorem foldl_horner (cs : List R) (v : R) :
    cs.foldl (fun v c => v * x + c) v = v * x ^ cs.length + horner x cs := by
  induction cs generalizing v with
  | nil => rw [List.foldl_nil, horner, List.foldl_nil, List.length_nil, pow_zero, mul_one, add_zero]
  | cons c cs ih =>
    have hcons : horner x (c :: cs) = (0 * x + c) * x ^ cs.length + horner x cs := ih (0 * x + c)
    rw [List.foldl_cons, ih, hcons, List.length_cons]
    ring

@[simp] theorem horner_nil : horner x [] = 0 := rfl

theorem horner_cons (c : R) (cs : List R) : horner x (c :: cs) = c * x ^ cs.length + horner x cs := by
  rw [horner, List.foldl_cons, zero_mul, zero_add, foldl_horner]

theorem horner_append (as bs : List R) :
    horner x (as ++ bs) = horner x as * x ^ bs.length + horner x bs := by
  rw [horner, List.foldl_append, foldl_horner, ← horner]

theorem horner_zeros (k : ℕ) : horner x (List.replicate k 0) = 0 := by
  induction k with
  | zero => rfl
  | succ k ih => rw [List.replicate_succ, horner_cons, ih, zero_mul, add_zero]

/-- **What adding to one coefficient adds to the value.** -/
theorem horner_modify (cs : List R) (v : R) {i : ℕ} (hi : i < cs.length) :
    horner x (cs.modify i (· + v)) = horner x cs + v * x ^ (cs.length - 1 - i) := by
  induction cs generalizing i with
  | nil => cases hi
  | cons c cs ih =>
    cases i with
    | zero =>
      rw [List.modify_zero_cons, horner_cons, horner_cons, List.length_cons, Nat.add_sub_cancel,
        Nat.sub_zero]
      ring
    | succ i =>
      rw [List.length_cons] at hi
      rw [List.modify_succ_cons, horner_cons, horner_cons, List.length_modify,
        ih (Nat.lt_of_succ_lt_succ hi), List.length_cons,
        show cs.length + 1 - 1 - (i + 1) = cs.length - 1 - i by omega, add_assoc]

/-- **What a loop over coefficients adds to the value.** -/
theorem horner_fold {ι : Type*} (place : ι → ℕ) (term : ι → R) (ls : List ι) (cs : List R)
    (h : ∀ l ∈ ls, place l < cs.length) :
    horner x (ls.foldl (fun cs l => cs.modify (place l) (· + term l)) cs) =
      horner x cs + (ls.map fun l => term l * x ^ (cs.length - 1 - place l)).sum := by
  induction ls generalizing cs with
  | nil => rw [List.foldl_nil, List.map_nil, List.sum_nil, add_zero]
  | cons l ls ih =>
    obtain ⟨hl, hls⟩ := List.forall_mem_cons.mp h
    rw [List.foldl_cons, ih _ fun l' hl' => by rw [List.length_modify]; exact hls l' hl',
      horner_modify x cs _ hl, List.length_modify, List.map_cons, List.sum_cons, add_assoc]

theorem horner_eq_sum (cs : List R) :
    horner x cs =
      ((List.range cs.length).map fun i => cs.getD i 0 * x ^ (cs.length - 1 - i)).sum := by
  induction cs with
  | nil => rfl
  | cons c cs ih =>
    rw [horner_cons, ih, List.length_cons, List.range_succ_eq_map, List.map_cons, List.sum_cons,
      List.map_map, List.getD_cons_zero, Nat.add_sub_cancel, Nat.sub_zero]
    refine congrArg (c * x ^ cs.length + ·) (congrArg List.sum (List.map_congr_left fun i _ => ?_))
    rw [Function.comp_apply, List.getD_cons_succ, Nat.sub_sub, Nat.add_comm 1 i]

/-- The pairs of indices below two bounds, row by row. -/
def pairs (n m : ℕ) : List (ℕ × ℕ) :=
  (List.range n).flatMap fun i => (List.range m).map fun j => (i, j)

theorem mem_pairs {n m : ℕ} {l : ℕ × ℕ} : l ∈ pairs n m ↔ l.1 < n ∧ l.2 < m := by
  rw [pairs, List.mem_flatMap]
  constructor
  · rintro ⟨i, hi, hl⟩
    obtain ⟨j, hj, rfl⟩ := List.mem_map.mp hl
    exact ⟨List.mem_range.mp hi, List.mem_range.mp hj⟩
  · rintro ⟨hi, hj⟩
    exact ⟨l.1, List.mem_range.mpr hi, List.mem_map.mpr ⟨l.2, List.mem_range.mpr hj, rfl⟩⟩

theorem sum_pairs (n m : ℕ) (f g : ℕ → R) :
    ((pairs n m).map fun l => f l.1 * g l.2).sum =
      ((List.range n).map f).sum * ((List.range m).map g).sum := by
  rw [pairs]
  induction List.range n with
  | nil => rw [List.flatMap_nil, List.map_nil, List.map_nil, List.sum_nil, zero_mul]
  | cons i is ih =>
    have hrow : ((List.range m).map fun j => f i * g j).sum = f i * ((List.range m).map g).sum :=
      List.sum_map_mul_left ..
    rw [List.flatMap_cons, List.map_append, List.sum_append, ih, List.map_map, List.map_cons,
      List.sum_cons, add_mul, ← hrow]
    rfl

/-- **The product of two values**, as the sum that a double loop makes. -/
theorem horner_mul (as bs : List R) :
    ((pairs as.length bs.length).map fun l => as.getD l.1 0 * bs.getD l.2 0 *
      x ^ (as.length + bs.length - 1 - 1 - (l.1 + l.2))).sum = horner x as * horner x bs := by
  rw [horner_eq_sum x as, horner_eq_sum x bs, ← sum_pairs]
  refine congrArg List.sum (List.map_congr_left fun l hl => ?_)
  obtain ⟨hi, hj⟩ := mem_pairs.mp hl
  rw [mul_mul_mul_comm, ← pow_add, show as.length + bs.length - 1 - 1 - (l.1 + l.2) =
    as.length - 1 - l.1 + (bs.length - 1 - l.2) by omega]

end Horner
