import Adnihilum.Lib.Lanes
import Mathlib.Tactic.TypeStar

/-!
# Searching for a placeholder

The pages carry runs of 16 equal bytes where the server writes its version and its uptime. `find_16`
searches for the first such run: plainly, 32 bytes at a time with AVX2, or 16 at a time with NEON. A
pointer is kept as its offset in the buffer.

* `all16EqByteX86_eq`, `all16EqByteNeon_eq`: the vector tests are the plain one.
* `FirstRun`: what a search from an offset on should find; `find16Scalar_first`,
  `recheckLanes_first`, `find16Avx2Loop_first`, `find16NeonLoop_first`.
* **`find_16_variants`**.
-/

namespace Adnihilum

open Lanes

/-- `REPLACE_SIZE`. -/
def replaceSize : ℕ := 16

/-- The pointer `data + i`. -/
def advance (data : ℕ → UInt8) (i : ℕ) : ℕ → UInt8 := fun j => data (i + j)

/-- A register of the bytes at `data + i`. -/
def loadBytes {n : ℕ} (data : ℕ → UInt8) (i : ℕ) : Reg n 8 := load (fun j => (data j).toBitVec) i

/-! ## Sixteen bytes -/

/-- The loops `if (a[i] != x) return false`, from index `i` on with `m` turns left. -/
def allEqLoop {α : Type} [DecidableEq α] (a : ℕ → α) (x : α) : ℕ → ℕ → Bool
  | 0, _ => true
  | m + 1, i => if a i ≠ x then false else allEqLoop a x m (i + 1)

/-- `all16_eq_byte_scalar`. -/
def all16EqByteScalar (data : ℕ → UInt8) (remaining : ℕ) (ch : UInt8) : Bool :=
  if remaining < replaceSize then false else allEqLoop data ch replaceSize 0

/-- `all16_eq_byte` with `SIMD_X86`. -/
def all16EqByteX86 (data : ℕ → UInt8) (remaining : ℕ) (ch : UInt8) : Bool :=
  if remaining < replaceSize then false
  else if 16 ≤ remaining then
    let v : Reg 16 8 := loadBytes data 0
    let c := set1 ch.toBitVec
    let eq := cmpeq v c
    let mask := movemask eq
    let full : BitVec 32 := if replaceSize = 32 then 0xFFFFFFFF else (1 <<< replaceSize) - 1
    mask &&& full == full
  else all16EqByteScalar data remaining ch

/-- `all16_eq_byte` with `SIMD_ARM`. -/
def all16EqByteNeon (data : ℕ → UInt8) (remaining : ℕ) (ch : UInt8) : Bool :=
  if remaining < replaceSize then false
  else if 16 ≤ remaining then
    let v : Reg 16 8 := loadBytes data 0
    let c := set1 ch.toBitVec
    let eq := cmpeq v c
    allEqLoop (store eq) 0xFF replaceSize 0
  else all16EqByteScalar data remaining ch

/-! ## The searches -/

/-- The loop of `find_16_scalar`. -/
def find16ScalarLoop (data : ℕ → UInt8) (size : ℕ) (ch : UInt8) (i : ℕ) : Option ℕ :=
  if i ≤ size - replaceSize then
    if data i = ch ∧ all16EqByteScalar (advance data i) (size - i) ch then some i
    else find16ScalarLoop data size ch (i + 1)
  else none
termination_by size - replaceSize + 1 - i

/-- `find_16_scalar`; `none` is a null pointer. -/
def find16Scalar (data : ℕ → UInt8) (size : ℕ) (ch : UInt8) : Option ℕ :=
  if size < replaceSize then none else find16ScalarLoop data size ch 0

/-- The loop of `find_16` over the lanes of a comparison, from lane `i` on with `m` turns left;
`all16` is the test of the bytes at an offset. -/
def recheckLanes (mask : ℕ → BitVec 8) (all16 : ℕ → Bool) (p : ℕ) : ℕ → ℕ → Option ℕ
  | 0, _ => none
  | m + 1, i => if mask i = 0xFF ∧ all16 (p + i) then some (p + i)
    else recheckLanes mask all16 p m (i + 1)

/-- The loop of `find_16` with AVX2, from offset `p` on, and the scalar search of what is left. -/
def find16Avx2Loop (data : ℕ → UInt8) (size : ℕ) (ch : UInt8) (p : ℕ) : Option ℕ :=
  if 32 ≤ size - p then
    let target := set1 ch.toBitVec
    let v : Reg 32 8 := loadBytes data p
    let eq := cmpeq v target
    let found :=
      if testz eq eq then none
      else recheckLanes (store eq) (fun q => all16EqByteX86 (advance data q) (size - q) ch) p 32 0
    found.or (find16Avx2Loop data size ch (p + 32))
  else (find16Scalar (advance data p) (size - p) ch).map (p + ·)
termination_by size - p

/-- `find_16` with AVX2. -/
def find16Avx2 (data : ℕ → UInt8) (size : ℕ) (ch : UInt8) : Option ℕ := find16Avx2Loop data size ch 0

/-- The loop of `find_16` with `SIMD_ARM`. -/
def find16NeonLoop (data : ℕ → UInt8) (size : ℕ) (ch : UInt8) (p : ℕ) : Option ℕ :=
  if 16 ≤ size - p then
    let target := set1 ch.toBitVec
    let v : Reg 16 8 := loadBytes data p
    let eq := cmpeq v target
    let found :=
      recheckLanes (store eq) (fun q => all16EqByteNeon (advance data q) (size - q) ch) p 16 0
    found.or (find16NeonLoop data size ch (p + 16))
  else (find16Scalar (advance data p) (size - p) ch).map (p + ·)
termination_by size - p

/-- `find_16` with `SIMD_ARM`. -/
def find16Neon (data : ℕ → UInt8) (size : ℕ) (ch : UInt8) : Option ℕ := find16NeonLoop data size ch 0

/-! ## The tests -/

section Tests

variable {data : ℕ → UInt8} {remaining : ℕ} {ch : UInt8}

theorem allEqLoop_iff {α : Type} [DecidableEq α] {a : ℕ → α} {x : α} (m i : ℕ) :
    allEqLoop a x m i = true ↔ ∀ j < m, a (i + j) = x := by
  induction m generalizing i with
  | zero => exact iff_of_true rfl fun j hj => absurd hj (Nat.not_lt_zero j)
  | succ m ih =>
    rw [allEqLoop, Nat.forall_lt_succ_left]
    split_ifs with h
    · exact iff_of_false (by decide) fun hc => h hc.1
    · rw [ih]
      simp only [Nat.add_zero, not_not.mp h, true_and, Nat.add_assoc, Nat.add_comm 1]

theorem all16EqByteScalar_iff : all16EqByteScalar data remaining ch = true ↔
    16 ≤ remaining ∧ ∀ j < 16, data j = ch := by
  rw [all16EqByteScalar, replaceSize]
  split_ifs with h
  · exact iff_of_false (by decide) fun hc => absurd hc.1 (by omega)
  · rw [allEqLoop_iff]
    simp only [Nat.zero_add]
    exact (and_iff_right (by omega)).symm

theorem lane_eq_iff {n : ℕ} {p : ℕ} (l : Fin n) :
    loadBytes data p l = set1 ch.toBitVec l ↔ data (p + l) = ch := UInt8.toBitVec_inj

theorem all16EqByteX86_eq :
    all16EqByteX86 data remaining ch = all16EqByteScalar data remaining ch := by
  by_cases h : remaining < replaceSize
  · rw [all16EqByteX86, if_pos h, all16EqByteScalar, if_pos h]
  have h16 : 16 ≤ remaining := not_lt.mp h
  have hfull : (if replaceSize = 32 then 0xFFFFFFFF else (1 <<< replaceSize) - 1 : BitVec 32) =
      BitVec.ofNat 32 (2 ^ 16 - 1) := by decide
  rw [Bool.eq_iff_iff, all16EqByteScalar_iff, and_iff_right h16, all16EqByteX86, if_neg h, if_pos h16]
  simp only [hfull, beq_iff_eq, and_low_eq (by decide : 16 ≤ 32)]
  refine forall₂_congr fun j hj => ?_
  rw [getLsbD_movemask (by decide), dif_pos hj, msb_cmpeq (by decide), decide_eq_true_eq, lane_eq_iff,
    Nat.zero_add]

theorem all16EqByteNeon_eq :
    all16EqByteNeon data remaining ch = all16EqByteScalar data remaining ch := by
  by_cases h : remaining < replaceSize
  · rw [all16EqByteNeon, if_pos h, all16EqByteScalar, if_pos h]
  have h16 : 16 ≤ remaining := not_lt.mp h
  rw [Bool.eq_iff_iff, all16EqByteScalar_iff, and_iff_right h16, all16EqByteNeon, if_neg h, if_pos h16]
  refine (allEqLoop_iff _ _).trans (forall₂_congr fun j hj => ?_)
  rw [Nat.zero_add]
  exact (store_cmpeq (by decide) _ _ hj).trans ((lane_eq_iff _).trans (by rw [Nat.zero_add]))

end Tests

/-! ## The first run -/

/-- Sixteen bytes equal to `ch` lie inside the buffer at offset `i`. -/
def IsRun (data : ℕ → UInt8) (size : ℕ) (ch : UInt8) (i : ℕ) : Prop :=
  i + 16 ≤ size ∧ ∀ j < 16, data (i + j) = ch

/-- What a search from offset `p` on should find: the first run, or no run at all. -/
def FirstRun (data : ℕ → UInt8) (size : ℕ) (ch : UInt8) (p : ℕ) : Option ℕ → Prop
  | some i => p ≤ i ∧ IsRun data size ch i ∧ ∀ j, p ≤ j → j < i → ¬ IsRun data size ch j
  | none => ∀ j, p ≤ j → ¬ IsRun data size ch j

section Searches

variable {data : ℕ → UInt8} {size : ℕ} {ch : UInt8}

theorem FirstRun.unique {p : ℕ} {r r' : Option ℕ} (h : FirstRun data size ch p r)
    (h' : FirstRun data size ch p r') : r = r' := by
  cases r with
  | none =>
    cases r' with
    | none => rfl
    | some i => exact absurd h'.2.1 (h i h'.1)
  | some i =>
    cases r' with
    | none => exact absurd h.2.1 (h' i h.1)
    | some i' =>
      rcases lt_trichotomy i i' with hlt | rfl | hlt
      · exact absurd h.2.1 (h'.2.2 i h.1 hlt)
      · rfl
      · exact absurd h'.2.1 (h.2.2 i' h'.1 hlt)

theorem FirstRun.of_later {p p' : ℕ} {r : Option ℕ} (h : FirstRun data size ch p' r) (hp : p ≤ p')
    (hnone : ∀ j, p ≤ j → j < p' → ¬ IsRun data size ch j) : FirstRun data size ch p r := by
  cases r with
  | none => exact fun j hj => (Nat.lt_or_ge j p').elim (hnone j hj) (h j)
  | some i =>
    exact ⟨hp.trans h.1, h.2.1, fun j hj hji => (Nat.lt_or_ge j p').elim (hnone j hj) fun hj' =>
      h.2.2 j hj' hji⟩

theorem isRun_iff {i : ℕ} (hi : i ≤ size) :
    all16EqByteScalar (advance data i) (size - i) ch = true ↔ IsRun data size ch i := by
  rw [all16EqByteScalar_iff]
  exact and_congr_left' (by omega)

theorem IsRun.head {i : ℕ} (h : IsRun data size ch i) : data i = ch := h.2 0 (by decide)

theorem find16ScalarLoop_first (hsize : replaceSize ≤ size) (i : ℕ) :
    FirstRun data size ch i (find16ScalarLoop data size ch i) := by
  have h16 : replaceSize = 16 := rfl
  induction i using find16ScalarLoop.induct data size ch with
  | case1 i hi htest =>
    rw [find16ScalarLoop, if_pos hi, if_pos htest]
    exact ⟨le_rfl, (isRun_iff (by omega)).mp htest.2, fun j hj hji => absurd hj (not_le.mpr hji)⟩
  | case2 i hi htest ih =>
    rw [find16ScalarLoop, if_pos hi, if_neg htest]
    refine ih.of_later (Nat.le_succ i) fun j hj hji hrun => htest ?_
    obtain rfl : j = i := by omega
    exact ⟨hrun.head, (isRun_iff (by omega)).mpr hrun⟩
  | case3 i hi =>
    rw [find16ScalarLoop, if_neg hi]
    exact fun j hj hrun => hi (by have := hrun.1; omega)

theorem find16Scalar_first : FirstRun data size ch 0 (find16Scalar data size ch) := by
  have h16 : replaceSize = 16 := rfl
  rw [find16Scalar]
  split_ifs with h
  · exact fun j _ hrun => absurd hrun.1 (by omega)
  · exact find16ScalarLoop_first (not_lt.mp h) 0

theorem find16Scalar_rest {p : ℕ} (hp : p ≤ size) :
    FirstRun data size ch p ((find16Scalar (advance data p) (size - p) ch).map (p + ·)) := by
  have hrun : ∀ i, IsRun (advance data p) (size - p) ch i ↔ IsRun data size ch (p + i) := fun i => by
    simp only [IsRun, advance, ← Nat.add_assoc]
    exact and_congr_left' (by omega)
  have hfirst : FirstRun (advance data p) (size - p) ch 0
    (find16Scalar (advance data p) (size - p) ch) := find16Scalar_first
  generalize find16Scalar (advance data p) (size - p) ch = r at hfirst ⊢
  have hback : ∀ j, p ≤ j → p + (j - p) = j := fun j hj => Nat.add_sub_cancel' hj
  cases r with
  | none =>
    intro j hj hc
    rw [← hback j hj, ← hrun] at hc
    exact hfirst (j - p) (Nat.zero_le _) hc
  | some i =>
    refine ⟨Nat.le_add_right p i, (hrun i).mp hfirst.2.1, fun j hj hji hc => ?_⟩
    have hji : j < p + i := hji
    rw [← hback j hj, ← hrun] at hc
    exact hfirst.2.2 (j - p) (Nat.zero_le _) (by omega) hc

theorem recheckLanes_first {mask : ℕ → BitVec 8} {all16 : ℕ → Bool} {p n : ℕ}
    (hmask : ∀ i < n, mask i = 0xFF ↔ data (p + i) = ch)
    (hall : ∀ i < n, all16 (p + i) = true ↔ IsRun data size ch (p + i)) {r : Option ℕ}
    (hrest : FirstRun data size ch (p + n) r) : ∀ m i, i + m = n →
      FirstRun data size ch (p + i) ((recheckLanes mask all16 p m i).or r)
  | 0, i, hi => by
    -- the register is done, and the search goes on behind it
    obtain rfl : i = n := hi
    exact hrest
  | m + 1, i, hi => by
    have hin : i < n := by omega
    have htest : (mask i = 0xFF ∧ all16 (p + i) = true) ↔ IsRun data size ch (p + i) := by
      rw [hmask i hin, hall i hin]
      exact and_iff_right_of_imp IsRun.head
    rw [recheckLanes]
    split_ifs with h
    · exact ⟨le_rfl, htest.mp h, fun j hj hji => absurd hj (not_le.mpr hji)⟩
    · refine (recheckLanes_first hmask hall hrest m (i + 1) (by omega)).of_later (by omega) ?_
      intro j hj hji
      obtain rfl : j = p + i := by omega
      exact mt htest.mpr h

theorem store_cmpeq_iff {n : ℕ} (p : ℕ) {i : ℕ} (hi : i < n) :
    store (cmpeq (loadBytes (n := n) data p) (set1 ch.toBitVec)) i = 0xFF ↔ data (p + i) = ch :=
  (store_cmpeq (by decide) _ _ hi).trans (lane_eq_iff ⟨i, hi⟩)

theorem find16Avx2Loop_first {p : ℕ} (hp : p ≤ size) :
    FirstRun data size ch p (find16Avx2Loop data size ch p) := by
  induction p using find16Avx2Loop.induct data size ch with
  | case1 p h ih =>
    rw [find16Avx2Loop, if_pos h]
    have hrest := ih (by omega)
    simp only [all16EqByteX86_eq]
    split_ifs with hz
    · -- no lane agrees, so no run starts here
      refine hrest.of_later (by omega) fun j hj hjp hrun => ?_
      have hlane := (testz_cmpeq (by decide) _ _).mp hz ⟨j - p, by omega⟩
      refine hlane ((lane_eq_iff _).mpr ?_)
      rw [Nat.add_sub_cancel' hj]
      exact hrun.head
    · exact recheckLanes_first (fun i hi => store_cmpeq_iff p hi) (fun i hi => isRun_iff (by omega))
        hrest 32 0 rfl
  | case2 p h =>
    rw [find16Avx2Loop, if_neg h]
    exact find16Scalar_rest hp

theorem find16NeonLoop_first {p : ℕ} (hp : p ≤ size) :
    FirstRun data size ch p (find16NeonLoop data size ch p) := by
  induction p using find16NeonLoop.induct data size ch with
  | case1 p h ih =>
    rw [find16NeonLoop, if_pos h]
    simp only [all16EqByteNeon_eq]
    exact recheckLanes_first (fun i hi => store_cmpeq_iff p hi) (fun i hi => isRun_iff (by omega))
      (ih (by omega)) 16 0 rfl
  | case2 p h =>
    rw [find16NeonLoop, if_neg h]
    exact find16Scalar_rest hp

end Searches

/-- **The three searches find the same**, the first run inside the buffer, for every buffer and
every byte. -/
theorem find_16_variants (data : ℕ → UInt8) (size : ℕ) (ch : UInt8) :
    FirstRun data size ch 0 (find16Scalar data size ch) ∧
      find16Avx2 data size ch = find16Scalar data size ch ∧
      find16Neon data size ch = find16Scalar data size ch :=
  ⟨find16Scalar_first, (find16Avx2Loop_first (Nat.zero_le _)).unique find16Scalar_first,
    (find16NeonLoop_first (Nat.zero_le _)).unique find16Scalar_first⟩

end Adnihilum
