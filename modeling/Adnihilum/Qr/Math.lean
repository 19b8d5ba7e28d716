import Adnihilum.Lib.Tabulate
import Mathlib.Algebra.BigOperators.Ring.Finset
import Mathlib.Tactic.LinearCombination

/-!
# Arithmetic of bytes

The drawer of codes computes in the field of 256 elements, by tables of exponents and logarithms.
An array that is not filled has holes, which read as `undefined`; arithmetic with one is `NaN`, and
`^` takes both for 0.

* `expTable`, `logTable`, `glog`, `gexp`: the tables and how they are read.
* `Root`, `value`: a byte as an element of any ring of characteristic 2 with a root of the polynomial
  that the table of exponents follows.
* **`Root.value_xor`**, **`Root.value_exp`**, **`Root.coef_product`**: the code's sums and products are those of
  the ring.
-/

namespace Adnihilum.Qr

open Tabulate

/-! ## The tables -/

/-- One entry of the table of exponents, from those before it. -/
def expEntry (t : ℕ → ℕ) (i : ℕ) : ℕ :=
  if i < 8 then 1 <<< i else t (i - 4) ^^^ t (i - 5) ^^^ t (i - 6) ^^^ t (i - 8)

/-- `QRMath.EXP_TABLE`. -/
def expTable : List ℕ := build (fun t => expEntry fun i => t.getD i 0) 256

/-- `QRMath.LOG_TABLE`: 255 writes into an array of holes. -/
def logTable : List (Option ℕ) := scatter (fun i => expTable.getD i 0) 256 255

def glog : Option ℕ → Except String (Option ℤ)
  | none => .ok none
  | some n => if n < 1 then .error s!"glog({n})" else .ok ((logTable.getD n none).map Int.ofNat)

/-- `while (n < 0) n += 255;`, in at most `f` rounds. -/
def raise : ℕ → ℤ → ℤ
  | 0, n => n
  | f + 1, n => if n < 0 then raise f (n + 255) else n

/-- `while (n >= 256) n -= 255;`, in at most `f` rounds. -/
def lower : ℕ → ℤ → ℤ
  | 0, n => n
  | f + 1, n => if 256 ≤ n then lower f (n - 255) else n

/-- The index that `gexp` looks up. -/
def expIndex (n : ℤ) : ℕ :=
  let n := raise n.natAbs n
  (lower n.natAbs n).toNat

def gexp : Option ℤ → Option ℕ
  | none => none
  | some n => expTable[expIndex n]?

/-- `a ^= b`. -/
def xorAssign (b a : Option ℕ) : Option ℕ := some (a.getD 0 ^^^ b.getD 0)

/-- `a + b` of numbers that may be `undefined`. -/
def add (a b : Option ℤ) : Option ℤ := a.bind fun a => b.map (a + ·)

/-- `a - b`. -/
def sub (a b : Option ℤ) : Option ℤ := a.bind fun a => b.map (a - ·)

/-! ## What the tables hold -/

/-- The table of exponents in one number. -/
def exps : ℕ := pack (fun t => expEntry (unpack t)) 256

/-- The table of logarithms in one number. -/
def logs : ℕ := (255).rec 0 fun i t => t + i <<< (8 * unpack exps i)

theorem unpack_exps : ∀ i < 256, unpack exps i = expEntry (unpack exps) i := by decide +kernel

theorem unpack_logs : ∀ i < 255, unpack logs (unpack exps i) = i := by decide +kernel

theorem unpack_exps_logs :
    ∀ n < 256, 1 ≤ n → unpack exps (unpack logs n) = n ∧ unpack logs n < 255 := by decide +kernel

theorem unpack_exps_pos : ∀ i < 256, 1 ≤ unpack exps i := by decide +kernel

theorem unpack_lt (t i : ℕ) : unpack t i < 256 := Nat.mod_lt _ (by decide)

theorem expEntry_congr {t t' : ℕ → ℕ} {i : ℕ} (h : ∀ j < i, t j = t' j) :
    expEntry t i = expEntry t' i := by
  rw [expEntry, expEntry]
  split_ifs with hi
  · rfl
  · rw [h _ (by omega), h _ (by omega), h _ (by omega), h _ (by omega)]

theorem expTable_getD {i : ℕ} (hi : i < 256) : expTable.getD i 0 = unpack exps i := by
  induction i using Nat.strong_induction_on with
  | _ i ih =>
    rw [expTable, getD_build _ hi, unpack_exps i hi]
    refine expEntry_congr fun j hj => ?_
    rw [← getD_build_of_le _ hj hi.le]
    exact ih j hj (by omega)

theorem expTable_getElem? (i : ℕ) :
    expTable[i]? = if i < 256 then some (unpack exps i) else none := by
  have hlen : expTable.length = 256 := length_build _ 256
  split_ifs with hi
  · rw [← expTable_getD hi, List.getD_eq_getElem?_getD, List.getElem?_eq_getElem (by omega)]
    rfl
  · exact List.getElem?_eq_none (by omega)

theorem logTable_getD {n : ℕ} (h1 : 1 ≤ n) (h : n < 256) :
    logTable.getD n none = some (unpack logs n) := by
  obtain ⟨hexp, hlt⟩ := unpack_exps_logs n h h1
  have hplace : expTable.getD (unpack logs n) 0 = n := by rw [expTable_getD (by omega), hexp]
  have hget : logTable.getD (expTable.getD (unpack logs n) 0) none = some (unpack logs n) :=
    getD_scatter _ hlt (by rw [hplace]; exact h) fun j hj hjn => by
      rw [hplace, expTable_getD (by omega)] at hjn
      rw [← unpack_logs j hj, hjn]
  rwa [hplace] at hget

/-! ## Reading the tables -/

/-- A coefficient that `glog` takes: neither 0 nor `undefined`. -/
def IsNonzero (c : Option ℕ) : Prop := ∃ n, c = some n ∧ 1 ≤ n ∧ n < 256

instance (c : Option ℕ) : Decidable (IsNonzero c) :=
  match c with
  | none => isFalse fun h => by
    obtain ⟨n, hn, -⟩ := h
    cases hn
  | some n => decidable_of_iff (1 ≤ n ∧ n < 256)
    ⟨fun h => ⟨n, rfl, h⟩, fun ⟨m, hm, h⟩ => by cases hm; exact h⟩

/-- The logarithm of a coefficient. -/
def log (c : Option ℕ) : ℕ := unpack logs (c.getD 0)

theorem glog_of_isNonzero {c : Option ℕ} (h : IsNonzero c) : glog c = .ok (some (log c)) := by
  obtain ⟨n, rfl, h1, h⟩ := h
  rw [glog, if_neg (by omega), logTable_getD h1 h]
  rfl

theorem log_lt {c : Option ℕ} (h : IsNonzero c) : log c < 255 := by
  obtain ⟨n, rfl, h1, h⟩ := h
  exact (unpack_exps_logs n h h1).2

theorem unpack_exps_log {c : Option ℕ} (h : IsNonzero c) : some (unpack exps (log c)) = c := by
  obtain ⟨n, rfl, h1, h⟩ := h
  exact congrArg some (unpack_exps_logs n h h1).1

theorem raise_spec (f : ℕ) (n : ℤ) (h : n.natAbs ≤ f) :
    0 ≤ raise f n ∧ (raise f n - n) % 255 = 0 ∧ (0 ≤ n → raise f n = n) := by
  induction f generalizing n with
  | zero =>
    rw [raise]
    omega
  | succ f ih =>
    rw [raise]
    split_ifs with hn
    · by_cases hpos : 0 ≤ n + 255
      · have hf : raise f (n + 255) = n + 255 := by
          cases f with
          | zero => rfl
          | succ f => rw [raise, if_neg (by omega)]
        rw [hf]
        omega
      · have hi := ih (n + 255) (by omega)
        omega
    · omega

theorem lower_spec (f : ℕ) (n : ℤ) (hn : 0 ≤ n) (h : n.natAbs ≤ f) :
    0 ≤ lower f n ∧ lower f n < 256 ∧ (lower f n - n) % 255 = 0 ∧ (n < 256 → lower f n = n) := by
  induction f generalizing n with
  | zero =>
    rw [lower]
    omega
  | succ f ih =>
    rw [lower]
    split_ifs with hle
    · have hi := ih (n - 255) (by omega) (by omega)
      omega
    · omega

theorem expIndex_spec (n : ℤ) :
    expIndex n < 256 ∧ ((expIndex n : ℤ) - n) % 255 = 0 ∧
      (0 ≤ n → n < 256 → (expIndex n : ℤ) = n) := by
  obtain ⟨hr0, hrmod, hrself⟩ := raise_spec n.natAbs n le_rfl
  obtain ⟨hl0, hl, hlmod, hlself⟩ := lower_spec _ _ hr0 le_rfl
  have hindex : (expIndex n : ℤ) = lower (raise n.natAbs n).natAbs (raise n.natAbs n) :=
    Int.toNat_of_nonneg hl0
  omega

theorem gexp_some (n : ℤ) : gexp (some n) = some (unpack exps (expIndex n)) := by
  rw [gexp, expTable_getElem?, if_pos (expIndex_spec n).1]

theorem gexp_add_sub {b c : Option ℕ} (hc : IsNonzero c) :
    gexp (add (some (log b : ℤ)) (sub (some (log c : ℤ)) (some (log b : ℤ)))) = c := by
  have hlog := log_lt hc
  have hsum : add (some (log b : ℤ)) (sub (some (log c : ℤ)) (some (log b : ℤ))) =
      some (log c : ℤ) := congrArg some (add_sub_cancel _ _)
  have hindex : expIndex (log c : ℤ) = log c := by
    have := (expIndex_spec (log c)).2.2
    omega
  rw [hsum, gexp_some, hindex, unpack_exps_log hc]

/-! ## Bytes in a ring -/

variable {R : Type*} [CommRing R]

/-- A root of the polynomial that the table of exponents follows. -/
structure Root (α : R) : Prop where
  two : (2 : R) = 0
  root : α ^ 8 = α ^ 4 + α ^ 3 + α ^ 2 + 1

/-- The bits of a byte are the coefficients of its powers. -/
def value (α : R) (n : ℕ) : R := ∑ i ∈ Finset.range 8, if n.testBit i then α ^ i else 0

@[simp] theorem value_zero (α : R) : value α 0 = 0 :=
  Finset.sum_eq_zero fun i _ => by rw [Nat.zero_testBit]; rfl

theorem value_shift (α : R) {i : ℕ} (hi : i < 8) : value α (1 <<< i) = α ^ i := by
  rw [value, Nat.one_shiftLeft]
  simp only [Nat.testBit_two_pow, decide_eq_true_eq]
  rw [Finset.sum_ite_eq, if_pos (Finset.mem_range.mpr hi)]

namespace Root

variable {α : R} (h : Root α)

include h

/-- **`^` adds.** -/
theorem value_xor (a b : ℕ) : value α (a ^^^ b) = value α a + value α b := by
  rw [value, value, value, ← Finset.sum_add_distrib]
  refine Finset.sum_congr rfl fun i _ => ?_
  rw [Nat.testBit_xor]
  have htwo : α ^ i + α ^ i = 0 := by rw [← two_mul, h.two, zero_mul]
  cases a.testBit i <;> cases b.testBit i <;> simp [htwo]

/-- **The table of exponents holds the powers of the root.** -/
theorem value_exp {i : ℕ} (hi : i < 256) : value α (unpack exps i) = α ^ i := by
  induction i using Nat.strong_induction_on with
  | _ i ih =>
    rw [unpack_exps i hi, expEntry]
    split_ifs with hlt
    · exact value_shift α hlt
    · rw [h.value_xor, h.value_xor, h.value_xor, ih _ (by omega) (by omega), ih _ (by omega) (by omega),
        ih _ (by omega) (by omega), ih _ (by omega) (by omega)]
      obtain ⟨k, rfl⟩ : ∃ k, i = k + 8 := ⟨i - 8, by omega⟩
      rw [show k + 8 - 4 = k + 4 by omega, show k + 8 - 5 = k + 3 by omega,
        show k + 8 - 6 = k + 2 by omega, Nat.add_sub_cancel]
      linear_combination - α ^ k * h.root

theorem pow_255 : α ^ 255 = 1 := by
  have hval := h.value_exp (show 255 < 256 by decide)
  rw [show unpack exps 255 = 1 <<< 0 by decide +kernel, value_shift α (by decide), pow_zero] at hval
  exact hval.symm

theorem pow_congr {i j : ℕ} (hij : ((i : ℤ) - j) % 255 = 0) : α ^ i = α ^ j := by
  rw [pow_eq_pow_mod i h.pow_255, pow_eq_pow_mod j h.pow_255, show i % 255 = j % 255 by omega]

theorem pow_expIndex_add (n : ℕ) (r : ℤ) :
    α ^ expIndex (n + r) = α ^ n * α ^ expIndex r := by
  rw [← pow_add]
  refine h.pow_congr ?_
  have h1 := (expIndex_spec (n + r)).2.1
  have h2 := (expIndex_spec r).2.1
  omega

end Root

/-- The value of a coefficient; a hole counts as 0. -/
def coef (α : R) (c : Option ℕ) : R := value α (c.getD 0)

namespace Root

variable {α : R} (h : Root α)

include h

theorem coef_xorAssign (a b : Option ℕ) : coef α (xorAssign b a) = coef α a + coef α b :=
  h.value_xor _ _

theorem coef_of_isNonzero {c : Option ℕ} (hc : IsNonzero c) : coef α c = α ^ log c := by
  rw [← h.value_exp (lt_trans (log_lt hc) (by decide)), coef]
  have hexp := unpack_exps_log hc
  rw [← hexp, Option.getD_some, hexp]

/-- **The code's product of a coefficient and a ratio.** -/
theorem coef_gexp_add {c : Option ℕ} (hc : IsNonzero c) (r : ℤ) :
    coef α (gexp (add (some (log c : ℤ)) (some r))) = coef α c * α ^ expIndex r := by
  rw [h.coef_of_isNonzero hc, ← h.pow_expIndex_add]
  have hadd : add (some (log c : ℤ)) (some r) = some ((log c : ℤ) + r) := rfl
  rw [hadd, gexp_some, coef, Option.getD_some, h.value_exp (expIndex_spec _).1]

/-- **The code's product of two coefficients.** -/
theorem coef_product {a b : Option ℕ} (ha : IsNonzero a) (hb : IsNonzero b) :
    coef α (gexp (add (some (log a : ℤ)) (some (log b : ℤ)))) = coef α a * coef α b := by
  have hlog := log_lt hb
  have hindex : expIndex (log b : ℤ) = log b := by
    have := (expIndex_spec (log b)).2.2
    omega
  rw [h.coef_gexp_add ha, hindex, h.coef_of_isNonzero hb]

end Root

end Adnihilum.Qr
