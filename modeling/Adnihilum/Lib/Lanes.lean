import Mathlib.Data.Nat.Bitwise
import Mathlib.Tactic.SplitIfs

/-!
# Vectors of lanes

Vector registers as functions from lanes to words, and the masks that comparisons leave.

* `set1`, `load`, `store`, `xor`, `cmpgt`, `cmpeq`, `testz`, `movemask`: the operations, lane by
  lane.
* `slt_xor_intMin`: flipping the sign bits turns the signed comparison into the unsigned one.
* `foldBits`: the loop that takes the lowest set bit of a mask and clears it; **`foldBits_eq`**: it
  visits the set bits in order.
-/

namespace Lanes

/-- A register of `n` lanes of `w` bits. -/
abbrev Reg (n w : ℕ) := Fin n → BitVec w

variable {n w : ℕ}

/-- The same word in every lane. -/
def set1 (x : BitVec w) : Reg n w := fun _ => x

/-- The words of an array from index `i` on. -/
def load (a : ℕ → BitVec w) (i : ℕ) : Reg n w := fun l => a (i + l)

def xor (a b : Reg n w) : Reg n w := fun l => a l ^^^ b l

/-- All ones where `a` is greater than `b` as a signed number. -/
def cmpgt (a b : Reg n w) : Reg n w := fun l => if (b l).slt (a l) then BitVec.allOnes w else 0

/-- All ones where `a` and `b` agree. -/
def cmpeq (a b : Reg n w) : Reg n w := fun l => if a l = b l then BitVec.allOnes w else 0

/-- The bits that two registers share are all zero. -/
def testz (a b : Reg n w) : Bool := decide (∀ l, a l &&& b l = 0)

/-- The lanes as an array. -/
def store (a : Reg n w) : ℕ → BitVec w := fun i => if h : i < n then a ⟨i, h⟩ else 0

/-- The sign bits of the lanes. -/
def movemask (a : Reg n w) : BitVec 32 :=
  (BitVec.ofBoolListLE (List.ofFn fun l => (a l).msb)).setWidth 32

theorem getLsbD_movemask (hn : n ≤ 32) (a : Reg n w) {i : ℕ} :
    (movemask a).getLsbD i = if h : i < n then (a ⟨i, h⟩).msb else false := by
  rw [movemask, BitVec.getLsbD_setWidth, BitVec.getLsbD_ofBoolListLE]
  split_ifs with h
  · rw [decide_eq_true (by omega), Bool.true_and, List.getD_eq_getElem _ _ (by simpa using h),
      List.getElem_ofFn]
  · rw [List.getD_eq_default _ _ (by simpa using h), Bool.and_false]

theorem msb_cmpgt (hw : 0 < w) (a b : Reg n w) (l : Fin n) :
    (cmpgt a b l).msb = (b l).slt (a l) := by
  rw [cmpgt]
  cases (b l).slt (a l)
  · exact BitVec.msb_zero
  · rw [if_pos rfl, BitVec.msb_allOnes hw]

theorem msb_cmpeq (hw : 0 < w) (a b : Reg n w) (l : Fin n) :
    (cmpeq a b l).msb = decide (a l = b l) := by
  rw [cmpeq]
  split_ifs with h
  · rw [BitVec.msb_allOnes hw, decide_eq_true h]
  · rw [decide_eq_false h]
    exact BitVec.msb_zero

theorem zero_ne_allOnes (hw : 0 < w) : (0 : BitVec w) ≠ BitVec.allOnes w := fun h => by
  have hmsb : (0 : BitVec w).msb = false := BitVec.msb_zero
  rw [h, BitVec.msb_allOnes hw] at hmsb
  cases hmsb

theorem store_cmpeq (hw : 0 < w) (a b : Reg n w) {i : ℕ} (hi : i < n) :
    store (cmpeq a b) i = BitVec.allOnes w ↔ a ⟨i, hi⟩ = b ⟨i, hi⟩ := by
  rw [store, dif_pos hi, cmpeq]
  split_ifs with h
  · exact iff_of_true rfl h
  · exact iff_of_false (zero_ne_allOnes hw) h

theorem testz_cmpeq (hw : 0 < w) (a b : Reg n w) :
    testz (cmpeq a b) (cmpeq a b) = true ↔ ∀ l, a l ≠ b l := by
  rw [testz, decide_eq_true_eq]
  refine forall_congr' fun l => ?_
  rw [BitVec.and_self]
  have hone := store_cmpeq hw a b l.isLt
  rw [store, dif_pos l.isLt] at hone
  constructor
  · exact fun hz heq => zero_ne_allOnes hw (hz.symm.trans (hone.mpr heq))
  · exact fun hne => if_neg hne

/-! ## Signs -/

theorem xor_two_pow {k x : ℕ} (hx : x < 2 ^ (k + 1)) :
    x ^^^ 2 ^ k = if x < 2 ^ k then x + 2 ^ k else x - 2 ^ k := by
  have hpos : 0 < 2 ^ k := Nat.two_pow_pos k
  have hdiv : (x ^^^ 2 ^ k) / 2 ^ k = x / 2 ^ k ^^^ 1 := by
    rw [Nat.xor_div_two_pow, Nat.div_self hpos]
  have hmod : (x ^^^ 2 ^ k) % 2 ^ k = x % 2 ^ k := by
    rw [Nat.xor_mod_two_pow, Nat.mod_self, Nat.xor_zero]
  have hsplit := Nat.div_add_mod (x ^^^ 2 ^ k) (2 ^ k)
  rw [hdiv, hmod] at hsplit
  split_ifs with h
  · rw [Nat.div_eq_of_lt h, Nat.zero_xor, Nat.mod_eq_of_lt h] at hsplit
    omega
  · have hsub : x - 2 ^ k < 2 ^ k := by
      rw [Nat.pow_succ] at hx
      omega
    have hq : x / 2 ^ k = 1 := by
      rw [Nat.div_eq_sub_div hpos (not_lt.mp h), Nat.div_eq_of_lt hsub]
    rw [hq, Nat.xor_self, Nat.mul_zero, Nat.zero_add, Nat.mod_eq_sub_mod (not_lt.mp h),
      Nat.mod_eq_of_lt hsub] at hsplit
    exact hsplit.symm

theorem toInt_xor_intMin {k : ℕ} (x : BitVec (k + 1)) :
    (x ^^^ BitVec.intMin (k + 1)).toInt = x.toNat - (2 ^ k : ℕ) := by
  have hx := x.isLt
  have hpow : 2 ^ (k + 1) = 2 * 2 ^ k := by rw [Nat.pow_succ, Nat.mul_comm]
  rw [BitVec.toInt_eq_toNat_cond, BitVec.toNat_xor, BitVec.toNat_intMin_of_pos (Nat.succ_pos k),
    Nat.add_one_sub_one, xor_two_pow hx]
  rw [hpow] at hx ⊢
  split_ifs <;> omega

theorem slt_xor_intMin {k : ℕ} (x y : BitVec (k + 1)) :
    (x ^^^ BitVec.intMin (k + 1)).slt (y ^^^ BitVec.intMin (k + 1)) = true ↔ x.toNat < y.toNat := by
  rw [BitVec.slt_iff_toInt_lt, toInt_xor_intMin, toInt_xor_intMin]
  omega

/-! ## The set bits of a mask -/

theorem and_low_eq {m : ℕ} (hm : m ≤ w) (x : BitVec w) :
    x &&& BitVec.ofNat w (2 ^ m - 1) = BitVec.ofNat w (2 ^ m - 1) ↔ ∀ i < m, x.getLsbD i = true := by
  have hlow : ∀ i, (BitVec.ofNat w (2 ^ m - 1)).getLsbD i = decide (i < m) := fun i => by
    rw [BitVec.getLsbD_ofNat, Nat.testBit_two_pow_sub_one]
    by_cases hi : i < m
    · rw [decide_eq_true (by omega : i < w), decide_eq_true hi, Bool.and_self]
    · rw [decide_eq_false hi, Bool.and_false]
  constructor
  · intro h i hi
    have hbit := congrArg (fun y => y.getLsbD i) h
    simpa only [BitVec.getLsbD_and, hlow, decide_eq_true hi, Bool.and_true] using hbit
  · intro h
    refine BitVec.eq_of_getLsbD_eq fun i _ => ?_
    rw [BitVec.getLsbD_and, hlow]
    by_cases hi : i < m
    · rw [h i hi, Bool.true_and]
    · rw [decide_eq_false hi, Bool.and_false]

/-- The positions of the set bits, in order. -/
def bits (x : BitVec w) : List ℕ := (List.range w).filter x.getLsbD

theorem toNat_sub_one {x : BitVec w} (hx : x ≠ 0) : (x - 1).toNat = x.toNat - 1 := by
  have hpos : 0 < x.toNat := Nat.pos_of_ne_zero fun h => hx (BitVec.eq_of_toNat_eq h)
  have hone : (1 : BitVec w).toNat = 1 :=
    (BitVec.toNat_ofNat 1 w).trans (Nat.mod_eq_of_lt (lt_of_le_of_lt hpos x.isLt))
  rw [BitVec.toNat_sub_of_le (by rw [BitVec.le_def, hone]; exact hpos), hone]

/-- `x &&& (x - 1)` clears the lowest set bit. -/
theorem getLsbD_clear {x : BitVec w} (hx : x ≠ 0) (i : ℕ) :
    (x &&& (x - 1)).getLsbD i = (x.getLsbD i && decide (i ≠ x.ctz.toNat)) := by
  have hc : x.toNat.testBit x.ctz.toNat = true := BitVec.getLsbD_true_ctz_of_ne_zero hx
  have hmin : ∀ j < x.ctz.toNat, x.toNat.testBit j = false := fun j => BitVec.getLsbD_false_of_lt_ctz
  set c := x.ctz.toNat with hcdef
  -- `x` ends in a one and `c` zeros
  have hlow : x.toNat % 2 ^ (c + 1) = 2 ^ c := by
    refine Nat.eq_of_testBit_eq fun j => ?_
    rw [Nat.testBit_mod_two_pow, Nat.testBit_two_pow]
    rcases lt_trichotomy j c with h | h | h
    · rw [hmin j h, Bool.and_false, decide_eq_false (by omega)]
    · rw [h, hc, decide_eq_true (by omega), decide_eq_true rfl, Bool.and_self]
    · rw [decide_eq_false (by omega), Bool.false_and, decide_eq_false (by omega)]
  have hsplit := Nat.div_add_mod x.toNat (2 ^ (c + 1))
  rw [hlow] at hsplit
  have hpos : 0 < 2 ^ c := Nat.two_pow_pos c
  have hlt : 2 ^ c < 2 ^ (c + 1) := Nat.pow_lt_pow_right (by decide) (Nat.lt_succ_self c)
  have hpred : x.toNat - 1 = 2 ^ (c + 1) * (x.toNat / 2 ^ (c + 1)) + (2 ^ c - 1) := by omega
  rw [BitVec.getLsbD_and, BitVec.getLsbD, BitVec.getLsbD, toNat_sub_one hx, hpred,
    Nat.testBit_two_pow_mul_add _ (by omega), Nat.testBit_two_pow_sub_one]
  rcases lt_trichotomy i c with h | h | h
  · rw [hmin i h, Bool.false_and, Bool.false_and]
  · rw [if_pos (by omega), decide_eq_false (by omega), decide_eq_false (not_not.mpr h)]
  · rw [if_neg (by omega), decide_eq_true (by omega), Bool.and_true]
    have htop : x.toNat.testBit i = (x.toNat / 2 ^ (c + 1)).testBit (i - (c + 1)) := by
      rw [Nat.testBit_div_two_pow]
      congr 1
      omega
    rw [htop, Bool.and_self]

theorem filter_range_cons {p : ℕ → Bool} {c : ℕ} (hc : p c = true) (hmin : ∀ i < c, p i = false) :
    ∀ {m : ℕ}, c < m →
      (List.range m).filter p = c :: (List.range m).filter fun i => p i && decide (i ≠ c) := by
  intro m
  induction m with
  | zero => exact fun h => absurd h (Nat.not_lt_zero c)
  | succ m ih =>
    intro h
    rw [List.range_succ, List.filter_append, List.filter_append]
    rcases Nat.lt_or_eq_of_le (Nat.le_of_lt_succ h) with hlt | rfl
    · rw [ih hlt]
      have hm : (fun i => p i && decide (i ≠ c)) m = p m := by
        simp [hlt.ne']
      simp [List.filter_cons, hlt.ne']
    · have hnone : ∀ q : ℕ → Bool, (∀ i < c, q i = false) → (List.range c).filter q = [] :=
        fun q hq => List.filter_eq_nil_iff.mpr fun i hi => by
          simp [hq i (List.mem_range.mp hi)]
      rw [hnone p hmin, hnone _ fun i hi => by rw [hmin i hi, Bool.false_and]]
      simp [hc]

theorem bits_eq_cons {x : BitVec w} (hx : x ≠ 0) :
    bits x = x.ctz.toNat :: bits (x &&& (x - 1)) := by
  have hc := BitVec.getLsbD_true_ctz_of_ne_zero hx
  have hmin : ∀ i < x.ctz.toNat, x.getLsbD i = false := fun i => BitVec.getLsbD_false_of_lt_ctz
  rw [bits, filter_range_cons hc hmin (BitVec.lt_of_getLsbD hc), bits]
  simp only [funext (getLsbD_clear hx)]

theorem bits_zero : bits (0 : BitVec w) = [] := by
  rw [bits, List.filter_eq_nil_iff]
  simp

theorem clear_lt {x : BitVec w} (hx : x ≠ 0) : (x &&& (x - 1)).toNat < x.toNat := by
  have hpos : 0 < x.toNat := Nat.pos_of_ne_zero fun h => hx (BitVec.eq_of_toNat_eq h)
  rw [BitVec.toNat_and]
  refine lt_of_le_of_lt Nat.and_le_right ?_
  rw [toNat_sub_one hx]
  omega

/-- Take the lowest set bit of the mask and clear it, as long as there is one. -/
def foldBits {σ : Type*} (f : σ → ℕ → σ) (s : σ) (mask : BitVec w) : σ :=
  if _h : mask = 0 then s
  else foldBits f (f s mask.ctz.toNat) (mask &&& (mask - 1))
termination_by mask.toNat
decreasing_by exact clear_lt _h

/-- **The loop visits the set bits in order.** -/
theorem foldBits_eq {σ : Type*} (f : σ → ℕ → σ) (s : σ) (mask : BitVec w) :
    foldBits f s mask = (bits mask).foldl f s := by
  induction s, mask using foldBits.induct f with
  | case1 s => rw [foldBits, dif_pos rfl, bits_zero, List.foldl_nil]
  | case2 s mask h ih => rw [foldBits, dif_neg h, ih, bits_eq_cons h, List.foldl_cons]

end Lanes
