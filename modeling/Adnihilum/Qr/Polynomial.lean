import Adnihilum.Lib.Horner
import Adnihilum.Qr.Math

/-!
# Polynomials over bytes

* `QRPolynomial`: `multiply`, `mod`; `getErrorCorrectPolynomial`.
* `eval`: the value of a polynomial in a ring; **`eval_multiply`**, **`eval_remainder`**: a product
  has the product of the values, and a remainder has the value of the polynomial where the divisor
  is 0.
* **`eval_generator`**: the divisor of length `n + 1` is 0 at the first `n` powers of the root.
-/

namespace Adnihilum.Qr

open Tabulate Horner

/-- The coefficients, the highest one first. -/
structure QRPolynomial where
  num : List (Option ℕ)
  deriving DecidableEq

namespace QRPolynomial

/-- The constructor: leading zeros go, and `shift` holes come. -/
def new (num : List (Option ℕ)) (shift : ℕ) : QRPolynomial :=
  ⟨num.dropWhile (· == some 0) ++ List.replicate shift none⟩

def get (p : QRPolynomial) (index : ℕ) : Option ℕ := p.num.getD index none

def getLength (p : QRPolynomial) : ℕ := p.num.length

def multiply (p e : QRPolynomial) : Except String QRPolynomial := do
  let num ← (pairs p.getLength e.getLength).foldlM (fun num l => do
    let a ← glog (p.get l.1)
    let b ← glog (e.get l.2)
    return num.modify (l.1 + l.2) (xorAssign (gexp (add a b))))
    (List.replicate (p.getLength + e.getLength - 1) none)
  return new num 0

/-- One round of `mod`: a multiple of `e` is added that removes the first coefficient. -/
def modStep (p e : QRPolynomial) : Except String QRPolynomial := do
  let a ← glog (p.get 0)
  let b ← glog (e.get 0)
  let ratio := sub a b
  let num ← (List.range e.getLength).foldlM (fun num i => do
    let c ← glog (e.get i)
    return num.modify i (xorAssign (gexp (add c ratio)))) p.num
  return new num 0

/-- `mod`, in at most `f` rounds. -/
def modLoop (e : QRPolynomial) : ℕ → QRPolynomial → Except String QRPolynomial
  | 0, p => return p
  | f + 1, p => if p.getLength < e.getLength then return p else modStep p e >>= modLoop e f

/-- Every round shortens the polynomial, so there are no more rounds than coefficients. -/
def mod (p e : QRPolynomial) : Except String QRPolynomial := modLoop e p.getLength p

end QRPolynomial

def getErrorCorrectPolynomial (errorCorrectLength : ℕ) : Except String QRPolynomial :=
  (List.range errorCorrectLength).foldlM
    (fun a (i : ℕ) => a.multiply (.new [some 1, gexp (some (i : ℤ))] 0)) (.new [some 1] 0)

/-! ## Products -/

theorem foldlM_ok {σ β : Type} {f : σ → β → Except String σ} {g : σ → β → σ} {ls : List β}
    (h : ∀ s, ∀ l ∈ ls, f s l = .ok (g s l)) (s : σ) : ls.foldlM f s = .ok (ls.foldl g s) := by
  induction ls generalizing s with
  | nil => rfl
  | cons l ls ih =>
    rw [List.foldlM_cons, h s l List.mem_cons_self, List.foldl_cons]
    exact ih (fun s l hl => h s l (List.mem_cons_of_mem _ hl)) (g s l)

namespace QRPolynomial

/-- All coefficients are nonzero. -/
def Full (p : QRPolynomial) : Prop := ∀ c ∈ p.num, IsNonzero c

instance (p : QRPolynomial) : Decidable p.Full := by unfold Full; infer_instance

theorem Full.get {p : QRPolynomial} (h : p.Full) {i : ℕ} (hi : i < p.getLength) :
    IsNonzero (p.get i) := by
  rw [QRPolynomial.get, List.getD_eq_getElem _ _ hi]
  exact h _ (List.getElem_mem hi)

/-- The coefficients of a product, before leading zeros go. -/
def productNum (p e : QRPolynomial) : List (Option ℕ) :=
  (pairs p.getLength e.getLength).foldl (fun num l =>
    num.modify (l.1 + l.2) (xorAssign (some (unpack exps (expIndex (log (p.get l.1) + log (e.get l.2)))))))
    (List.replicate (p.getLength + e.getLength - 1) none)

theorem multiply_of_full {p e : QRPolynomial} (hp : p.Full) (he : e.Full) :
    p.multiply e = .ok (new (productNum p e) 0) := by
  rw [multiply, foldlM_ok (g := fun num l => num.modify (l.1 + l.2)
    (xorAssign (some (unpack exps (expIndex (log (p.get l.1) + log (e.get l.2)))))))]
  · rfl
  · intro num l hl
    obtain ⟨hi, hj⟩ := mem_pairs.mp hl
    rw [glog_of_isNonzero (hp.get hi), glog_of_isNonzero (he.get hj), ← gexp_some]
    rfl

end QRPolynomial

/-! ## Values -/

section Values

variable {R : Type*} [CommRing R] {α : R} (h : Root α) (x : R)

/-- The value of a polynomial; holes count as 0. -/
def eval (α x : R) (p : QRPolynomial) : R := horner x (p.num.map (coef α))

omit h in
theorem horner_dropWhile (cs : List (Option ℕ)) :
    horner x ((cs.dropWhile (· == some 0)).map (coef α)) = horner x (cs.map (coef α)) := by
  induction cs with
  | nil => rfl
  | cons c cs ih =>
    rw [List.dropWhile_cons]
    split_ifs with hc
    · have hzero : coef α c = 0 := by
        rw [beq_iff_eq.mp hc]
        exact value_zero α
      rw [ih, List.map_cons, horner_cons, hzero, zero_mul, zero_add]
    · rfl

theorem eval_new (cs : List (Option ℕ)) (shift : ℕ) :
    eval α x (.new cs shift) = horner x (cs.map (coef α)) * x ^ shift := by
  have hzeros : (List.replicate shift (none : Option ℕ)).map (coef α) = List.replicate shift 0 := by
    rw [List.map_replicate]
    exact congrArg _ (value_zero α)
  rw [eval, QRPolynomial.new, List.map_append, horner_append, hzeros, horner_zeros,
    List.length_replicate, add_zero, horner_dropWhile]

include h

theorem map_modify (cs : List (Option ℕ)) (i : ℕ) (b : Option ℕ) :
    (cs.modify i (xorAssign b)).map (coef α) = (cs.map (coef α)).modify i (· + coef α b) := by
  induction cs generalizing i with
  | nil => rw [List.modify_nil, List.map_nil, List.modify_nil]
  | cons c cs ih =>
    cases i with
    | zero => rw [List.modify_zero_cons, List.map_cons, List.map_cons, List.modify_zero_cons,
        h.coef_xorAssign]
    | succ i => rw [List.modify_succ_cons, List.map_cons, List.map_cons, List.modify_succ_cons, ih]

theorem horner_foldl {ι : Type} (place : ι → ℕ) (term : ι → Option ℕ) (ls : List ι)
    (cs : List (Option ℕ)) (hplace : ∀ l ∈ ls, place l < cs.length) :
    horner x ((ls.foldl (fun cs l => cs.modify (place l) (xorAssign (term l))) cs).map (coef α)) =
      horner x (cs.map (coef α)) +
        (ls.map fun l => coef α (term l) * x ^ (cs.length - 1 - place l)).sum := by
  have hhom : (ls.foldl (fun cs l => cs.modify (place l) (xorAssign (term l))) cs).map (coef α) =
      ls.foldl (fun cs l => cs.modify (place l) (· + coef α (term l))) (cs.map (coef α)) :=
    (List.foldl_hom _ fun cs l => (map_modify h cs (place l) (term l)).symm).symm
  rw [hhom, horner_fold x place (fun l => coef α (term l)) ls _
    (by rw [List.length_map]; exact hplace), List.length_map]

omit h in
theorem getD_map_coef (p : QRPolynomial) (i : ℕ) :
    (p.num.map (coef α)).getD i 0 = coef α (p.get i) := by
  have hnone : coef α none = 0 := value_zero α
  rw [← hnone, List.getD_map]
  rfl

/-- **A product has the product of the values.** -/
theorem eval_multiply {p e q : QRPolynomial} (hp : p.Full) (he : e.Full)
    (hq : p.multiply e = .ok q) : eval α x q = eval α x p * eval α x e := by
  rw [QRPolynomial.multiply_of_full hp he, Except.ok.injEq] at hq
  have hlen : (List.replicate (p.getLength + e.getLength - 1) (none : Option ℕ)).length =
    p.getLength + e.getLength - 1 := List.length_replicate
  have hzero : horner x ((List.replicate (p.getLength + e.getLength - 1) none).map (coef α)) = 0 := by
    rw [List.map_replicate, show coef α none = 0 from value_zero α, horner_zeros]
  rw [← hq, eval_new, pow_zero, mul_one, QRPolynomial.productNum,
    horner_foldl h x (fun l : ℕ × ℕ => l.1 + l.2) _ _ _ (fun l hl => by
      obtain ⟨hi, hj⟩ := mem_pairs.mp hl
      rw [hlen]
      omega), hzero, zero_add, eval, eval, ← horner_mul, List.length_map, List.length_map, hlen]
  refine congrArg List.sum (List.map_congr_left fun l hl => ?_)
  obtain ⟨hi, hj⟩ := mem_pairs.mp hl
  rw [getD_map_coef, getD_map_coef, ← h.coef_product (hp.get hi) (he.get hj), ← gexp_some]
  rfl

end Values

/-! ## Remainders -/

namespace QRPolynomial

/-- A polynomial that the constructor can make of bytes. -/
structure Proper (p : QRPolynomial) : Prop where
  head : p.num.head? ≠ some (some 0)
  bytes : ∀ c ∈ p.num, c.getD 0 < 256

theorem proper_new {num : List (Option ℕ)} (h : ∀ c ∈ num, c.getD 0 < 256) (shift : ℕ) :
    (new num shift).Proper where
  head := by
    rw [new, List.head?_append]
    cases hd : (num.dropWhile (· == some 0)).head? with
    | none =>
      cases shift with
      | zero => rw [List.replicate_zero, List.head?_nil]; simp
      | succ k => rw [List.replicate_succ, List.head?_cons]; simp
    | some c =>
      have hc := List.head?_dropWhile_not (· == some 0) num
      rw [hd] at hc
      rintro he
      cases he
      cases hc
  bytes c hc := by
    rcases List.mem_append.mp hc with hc | hc
    · exact h c ((List.dropWhile_sublist _).mem hc)
    · rw [List.eq_of_mem_replicate hc]
      decide

theorem length_new_zero (num : List (Option ℕ)) :
    (new (some 0 :: num) 0).getLength ≤ num.length := by
  rw [getLength, new, List.dropWhile_cons_of_pos (by rfl), List.replicate_zero, List.append_nil]
  exact (List.dropWhile_sublist _).length_le

/-! One round. -/

/-- The ratio of the first coefficients. -/
def ratio (p e : QRPolynomial) : Option ℤ :=
  sub ((p.get 0).map fun _ => (log (p.get 0) : ℤ)) (some (log (e.get 0) : ℤ))

/-- The coefficients after one round, before leading zeros go. -/
def removed (p e : QRPolynomial) : List (Option ℕ) :=
  (List.range e.getLength).foldl (fun num i =>
    num.modify i (xorAssign (gexp (add (some (log (e.get i) : ℤ)) (ratio p e))))) p.num

theorem Proper.get_zero {p : QRPolynomial} (h : p.Proper) :
    p.get 0 = none ∨ IsNonzero (p.get 0) := by
  rcases p with ⟨_ | ⟨_ | n, cs⟩⟩
  · exact .inl rfl
  · exact .inl rfl
  · refine .inr ⟨n, rfl, Nat.pos_of_ne_zero ?_, h.bytes (some n) List.mem_cons_self⟩
    rintro rfl
    exact h.head rfl

theorem glog_get_zero {p : QRPolynomial} (h : p.Proper) :
    glog (p.get 0) = .ok ((p.get 0).map fun _ => (log (p.get 0) : ℤ)) := by
  rcases h.get_zero with hp | hp
  · rw [hp]
    rfl
  · rw [glog_of_isNonzero hp]
    obtain ⟨n, hn, -⟩ := hp
    rw [hn]
    rfl

theorem modStep_eq {p e : QRPolynomial} (hp : p.Proper) (he : e.Full) (he0 : 0 < e.getLength) :
    modStep p e = .ok (new (removed p e) 0) := by
  have hloop : (List.range e.getLength).foldlM (fun num i => do
      let c ← glog (e.get i)
      return num.modify i (xorAssign (gexp (add c (ratio p e))))) p.num = .ok (removed p e) := by
    refine foldlM_ok (fun num i hi => ?_) p.num
    rw [glog_of_isNonzero (he.get (List.mem_range.mp hi))]
    rfl
  rw [modStep, glog_get_zero hp, glog_of_isNonzero (he.get he0)]
  exact congrArg (· >>= fun num => Except.ok (new num 0)) hloop

theorem foldl_modify_succ {ι : Type} (place : ι → ℕ) (f : ι → Option ℕ → Option ℕ) (ls : List ι)
    (c : Option ℕ) (cs : List (Option ℕ)) :
    ls.foldl (fun cs l => cs.modify (place l + 1) (f l)) (c :: cs) =
      c :: ls.foldl (fun cs l => cs.modify (place l) (f l)) cs := by
  induction ls generalizing cs with
  | nil => rfl
  | cons l ls ih => rw [List.foldl_cons, List.foldl_cons, List.modify_succ_cons, ih]

theorem length_foldl_modify {ι : Type} (place : ι → ℕ) (f : ι → Option ℕ → Option ℕ) (ls : List ι)
    (cs : List (Option ℕ)) :
    (ls.foldl (fun cs l => cs.modify (place l) (f l)) cs).length = cs.length := by
  induction ls generalizing cs with
  | nil => rfl
  | cons l ls ih => rw [List.foldl_cons, ih, List.length_modify]

/-- **A round removes the first coefficient.** -/
theorem exists_removed {p e : QRPolynomial} (hp : p.Proper) (he0 : 0 < e.getLength)
    (hle : e.getLength ≤ p.getLength) :
    ∃ cs, removed p e = some 0 :: cs ∧ cs.length + 1 = p.getLength := by
  rcases p with ⟨_ | ⟨c, cs⟩⟩
  · exact absurd (he0.trans_le hle) (Nat.lt_irrefl 0)
  · have hfirst : xorAssign (gexp (add (some (log (e.get 0) : ℤ)) (ratio ⟨c :: cs⟩ e))) c = some 0 := by
      rcases hp.get_zero with hc | hc
      · cases (show c = none from hc)
        have hratio : ratio ⟨none :: cs⟩ e = none := rfl
        have hadd : add (some (log (e.get 0) : ℤ)) none = none := rfl
        rw [hratio, hadd]
        rfl
      · have hc' : IsNonzero c := hc
        obtain ⟨n, rfl, h1, h256⟩ := hc'
        have hratio : ratio ⟨some n :: cs⟩ e =
          sub (some (log (some n) : ℤ)) (some (log (e.get 0) : ℤ)) := rfl
        rw [hratio, gexp_add_sub ⟨n, rfl, h1, h256⟩, xorAssign, Nat.xor_self]
    obtain ⟨m, hm⟩ : ∃ m, e.getLength = m + 1 := ⟨e.getLength - 1, by omega⟩
    let term (i : ℕ) : Option ℕ → Option ℕ :=
      xorAssign (gexp (add (some (log (e.get (i + 1)) : ℤ)) (ratio ⟨c :: cs⟩ e)))
    have hrest := foldl_modify_succ id term (List.range m) (some 0) cs
    have hlen := length_foldl_modify id term (List.range m) cs
    refine ⟨_, Eq.trans ?_ hrest, congrArg (· + 1) hlen⟩
    rw [removed, hm, List.range_succ_eq_map, List.foldl_cons, List.modify_zero_cons, hfirst,
      List.foldl_map]
    rfl

theorem bytes_modify {cs : List (Option ℕ)} (h : ∀ c ∈ cs, c.getD 0 < 256) (i : ℕ) {b : Option ℕ}
    (hb : b.getD 0 < 256) : ∀ c ∈ cs.modify i (xorAssign b), c.getD 0 < 256 := by
  intro c hc
  obtain ⟨j, hj, rfl⟩ := List.mem_iff_getElem.mp hc
  rw [List.length_modify] at hj
  rw [List.getElem_modify]
  split_ifs
  · exact Nat.xor_lt_two_pow (n := 8) (h _ (List.getElem_mem hj)) hb
  · exact h _ (List.getElem_mem hj)

theorem bytes_gexp (z : Option ℤ) : (gexp z).getD 0 < 256 := by
  cases z with
  | none => decide
  | some z =>
    rw [gexp_some]
    exact unpack_lt _ _

theorem bytes_removed {p : QRPolynomial} (hp : p.Proper) (e : QRPolynomial) :
    ∀ c ∈ removed p e, c.getD 0 < 256 := by
  rw [removed]
  have hbytes := hp.bytes
  generalize p.num = cs at hbytes ⊢
  induction List.range e.getLength generalizing cs with
  | nil => exact hbytes
  | cons i is ih => exact ih _ (bytes_modify hbytes i (bytes_gexp _))

/-! All rounds. -/

/-- What `mod` leaves. -/
def remainder (e : QRPolynomial) : ℕ → QRPolynomial → QRPolynomial
  | 0, p => p
  | f + 1, p => if p.getLength < e.getLength then p else remainder e f (new (removed p e) 0)

theorem modLoop_eq {e : QRPolynomial} (he : e.Full) (he0 : 0 < e.getLength) (f : ℕ) {p : QRPolynomial}
    (hp : p.Proper) : modLoop e f p = .ok (remainder e f p) := by
  induction f generalizing p with
  | zero => rfl
  | succ f ih =>
    rw [modLoop, remainder]
    split_ifs with hlt
    · rfl
    · rw [modStep_eq hp he he0]
      exact ih (proper_new (bytes_removed hp e) 0)

/-- **The remainder is shorter than the divisor.** -/
theorem length_remainder {e : QRPolynomial} (he0 : 0 < e.getLength) {f : ℕ}
    {p : QRPolynomial} (hp : p.Proper) (hf : p.getLength ≤ f) :
    (remainder e f p).getLength < e.getLength := by
  induction f generalizing p with
  | zero => rw [remainder]; omega
  | succ f ih =>
    rw [remainder]
    split_ifs with hlt
    · exact hlt
    · refine ih (proper_new (bytes_removed hp e) 0) ?_
      obtain ⟨cs, hcs, hlen⟩ := exists_removed hp he0 (by omega)
      have hshort := length_new_zero cs
      rw [hcs]
      omega

theorem proper_remainder (e : QRPolynomial) (f : ℕ) {p : QRPolynomial} (hp : p.Proper) :
    (remainder e f p).Proper := by
  induction f generalizing p with
  | zero => exact hp
  | succ f ih =>
    rw [remainder]
    split_ifs
    · exact hp
    · exact ih (proper_new (bytes_removed hp e) 0)

end QRPolynomial

section Values

open QRPolynomial

variable {R : Type*} [CommRing R] {α : R} (h : Root α) {x : R}

include h

theorem eval_removed {p e : QRPolynomial} (he : e.Full) (hle : e.getLength ≤ p.getLength)
    (hx : eval α x e = 0) : eval α x (new (removed p e) 0) = eval α x p := by
  rw [eval_new, pow_zero, mul_one, removed, horner_foldl h x _ _ _ _ (fun i hi =>
    (List.mem_range.mp hi).trans_le hle), ← eval]
  refine add_eq_left.mpr ?_
  cases hr : ratio p e with
  | none =>
    refine List.sum_eq_zero fun y hy => ?_
    obtain ⟨i, -, rfl⟩ := List.mem_map.mp hy
    exact (congrArg (· * _) (value_zero α)).trans (zero_mul _)
  | some r =>
    have hterm : ∀ i ∈ List.range e.getLength,
        coef α (gexp (add (some (log (e.get i) : ℤ)) (some r))) * x ^ (p.num.length - 1 - i) =
          (α ^ expIndex r * x ^ (p.num.length - e.getLength)) *
            ((e.num.map (coef α)).getD i 0 * x ^ ((e.num.map (coef α)).length - 1 - i)) := by
      intro i hi
      have hi := List.mem_range.mp hi
      rw [h.coef_gexp_add (he.get hi), getD_map_coef, List.length_map]
      have hexp : p.num.length - 1 - i = p.num.length - e.getLength + (e.num.length - 1 - i) := by
        rw [getLength] at hle hi ⊢
        rw [getLength] at hle
        omega
      rw [hexp, pow_add]
      ring
    have hlen : e.getLength = (e.num.map (coef α)).length := (List.length_map _).symm
    rw [List.map_congr_left hterm, List.sum_map_mul_left, hlen, ← horner_eq_sum, ← eval, hx, mul_zero]

/-- **A remainder has the value of the polynomial** where the divisor is 0. -/
theorem eval_remainder {e : QRPolynomial} (he : e.Full) (hx : eval α x e = 0) (f : ℕ)
    (p : QRPolynomial) : eval α x (remainder e f p) = eval α x p := by
  induction f generalizing p with
  | zero => rfl
  | succ f ih =>
    rw [remainder]
    split_ifs with hlt
    · rfl
    · rw [ih, eval_removed h he (by omega) hx]

end Values

/-! ## The divisors -/

/-- The factor of one root. -/
def linear (i : ℕ) : QRPolynomial := ⟨[some 1, some (unpack exps i)]⟩

/-- The divisors, one factor after the other. -/
def generator : ℕ → QRPolynomial
  | 0 => .new [some 1] 0
  | n + 1 => .new ((generator n).productNum (linear n)) 0

theorem full_linear {i : ℕ} (hi : i < 256) : (linear i).Full := by
  intro c hc
  rcases List.mem_cons.mp hc with rfl | hc
  · exact ⟨1, rfl, by decide, by decide⟩
  · cases List.mem_singleton.mp hc
    exact ⟨_, rfl, unpack_exps_pos i hi, unpack_lt _ _⟩

/-- No coefficient of a divisor is 0, in `f` rounds from the `i`-th one on. -/
def fullUpTo : ℕ → ℕ → QRPolynomial → Bool
  | 0, i, p => decide (p.Full ∧ p.getLength = i + 1)
  | f + 1, i, p => decide (p.Full ∧ p.getLength = i + 1) &&
    fullUpTo f (i + 1) (.new (p.productNum (linear i)) 0)

theorem full_of_fullUpTo {f i : ℕ} (h : fullUpTo f i (generator i) = true) {n : ℕ} (hi : i ≤ n)
    (hn : n ≤ i + f) : (generator n).Full ∧ (generator n).getLength = n + 1 := by
  induction f generalizing i with
  | zero =>
    obtain rfl : n = i := by omega
    exact of_decide_eq_true h
  | succ f ih =>
    obtain ⟨hfirst, hrest⟩ := Bool.and_eq_true_iff.mp h
    rcases hi.eq_or_lt with rfl | hlt
    · exact of_decide_eq_true hfirst
    · exact ih hrest hlt (by omega)

theorem fullUpTo_30 : fullUpTo 30 0 (generator 0) = true := by decide +kernel

theorem full_generator {n : ℕ} (hn : n ≤ 30) : (generator n).Full :=
  (full_of_fullUpTo fullUpTo_30 (Nat.zero_le n) (by omega)).1

theorem length_generator {n : ℕ} (hn : n ≤ 30) : (generator n).getLength = n + 1 :=
  (full_of_fullUpTo fullUpTo_30 (Nat.zero_le n) (by omega)).2

theorem getErrorCorrectPolynomial_eq {n : ℕ} (hn : n ≤ 30) :
    getErrorCorrectPolynomial n = .ok (generator n) := by
  induction n with
  | zero => rfl
  | succ n ih =>
    have hexp : gexp (some (n : ℤ)) = some (unpack exps n) := by
      have hindex : expIndex (n : ℤ) = n := by
        have := (expIndex_spec n).2.2
        omega
      rw [gexp_some, hindex]
    have hlinear : QRPolynomial.new [some 1, gexp (some (n : ℤ))] 0 = linear n := by
      rw [hexp]
      rfl
    have hprev := ih (by omega)
    rw [getErrorCorrectPolynomial] at hprev ⊢
    rw [List.range_succ, List.foldlM_append, hprev]
    have hmul := QRPolynomial.multiply_of_full (full_generator (show n ≤ 30 by omega))
      (full_linear (show n < 256 by omega))
    rw [← hlinear] at hmul
    rw [generator, ← hlinear]
    exact (congrArg (· >>= pure) hmul).trans rfl

/-- **A divisor is 0 at the first powers of the root.** -/
theorem eval_generator {R : Type*} [CommRing R] {α : R} (h : Root α) {n i : ℕ} (hn : n ≤ 30)
    (hi : i < n) : eval α (α ^ i) (generator n) = 0 := by
  induction n with
  | zero => cases hi
  | succ n ih =>
    have hlinear : eval α (α ^ i) (linear n) = α ^ i + α ^ n := by
      have hone : coef α (some 1) = 1 := (value_shift α (i := 0) (by decide)).trans (pow_zero α)
      have hexp : coef α (some (unpack exps n)) = α ^ n := h.value_exp (by omega)
      rw [eval, linear, List.map_cons, List.map_cons, List.map_nil, horner_cons, horner_cons, hone, hexp,
        horner_nil, List.length_singleton, List.length_nil, one_mul, pow_one, pow_zero, mul_one, add_zero]
    have hmul := eval_multiply h (α ^ i) (full_generator (show n ≤ 30 by omega))
      (full_linear (show n < 256 by omega))
      (QRPolynomial.multiply_of_full (full_generator (by omega)) (full_linear (by omega)))
    rw [generator, hmul, hlinear]
    rcases Nat.lt_succ_iff_lt_or_eq.mp hi with hlt | rfl
    · rw [ih (by omega) hlt, zero_mul]
    · rw [← two_mul, h.two, zero_mul, mul_zero]

end Adnihilum.Qr
