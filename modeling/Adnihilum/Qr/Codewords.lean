import Adnihilum.Qr.Data

/-!
# Blocks of codewords

* `dcdata`, `ecBlocks`: the codewords that `createBytes` splits the bits into and those that it
  adds; **`createBytes_eq`**: it interleaves them and does not throw.
* **`syndrome_eq_zero`**: a block with its correction is 0 at the first powers of the root.
-/

namespace Adnihilum.Qr

open Bits Interleave Horner Tabulate

/-! ## Data -/

theorem map_length_dcdata (buffer : List ℕ) (offset : ℕ) (bs : List QRRSBlock) :
    (dcdata buffer offset bs).map List.length = bs.map QRRSBlock.dataCount := by
  induction bs generalizing offset with
  | nil => rfl
  | cons b bs ih => rw [dcdata, List.map_cons, ih, List.length_map, List.length_range, List.map_cons]

theorem length_dcdata (buffer : List ℕ) (offset : ℕ) (bs : List QRRSBlock) :
    (dcdata buffer offset bs).length = bs.length := by
  have hlen := congrArg List.length (map_length_dcdata buffer offset bs)
  rwa [List.length_map, List.length_map] at hlen

theorem byte_dcdata {buffer : List ℕ} {offset : ℕ} {bs : List QRRSBlock} {d : List ℕ}
    (hd : d ∈ dcdata buffer offset bs) : ∀ x ∈ d, x < 256 := by
  induction bs generalizing offset with
  | nil => cases hd
  | cons b bs ih =>
    rcases List.mem_cons.mp hd with rfl | hd
    · intro x hx
      obtain ⟨i, -, rfl⟩ := List.mem_map.mp hx
      exact lt_of_le_of_lt Nat.and_le_left (by decide)
    · exact ih hd

theorem flatten_dcdata {buffer : List ℕ} (h : ∀ k, buffer.getD k 0 < 256) {offset : ℕ}
    {bs : List QRRSBlock} (hlen : offset + (bs.map QRRSBlock.dataCount).sum ≤ buffer.length) :
    (dcdata buffer offset bs).flatten =
      (buffer.drop offset).take (bs.map QRRSBlock.dataCount).sum := by
  induction bs generalizing offset with
  | nil => rw [dcdata, List.flatten_nil, List.map_nil, List.sum_nil, List.take_zero]
  | cons b bs ih =>
    rw [List.map_cons, List.sum_cons] at hlen ⊢
    have hfirst : ((List.range b.dataCount).map fun i => 0xff &&& buffer.getD (i + offset) 0) =
        (buffer.drop offset).take b.dataCount := by
      apply List.ext_getElem
      · rw [List.length_map, List.length_range, List.length_take, List.length_drop]
        omega
      · intro i hi hi'
        rw [List.length_map, List.length_range] at hi
        have hbyte := h (i + offset)
        rw [List.getElem_map, List.getElem_range, List.getElem_take, List.getElem_drop, Nat.and_comm]
        have hand := Nat.and_two_pow_sub_one_eq_mod (buffer.getD (i + offset) 0) 8
        rw [show (0xff : ℕ) = 2 ^ 8 - 1 by decide, hand, Nat.mod_eq_of_lt hbyte,
          List.getD_eq_getElem _ _ (by omega)]
        congr 1
        omega
    rw [dcdata, List.flatten_cons, hfirst, ih (by omega), List.take_add, List.drop_drop]

/-! ## Correction -/

/-- The remainder that a block leaves. -/
def modPoly (dc : List ℕ) (ecCount : ℕ) : QRPolynomial :=
  let raw := QRPolynomial.new (dc.map some) ecCount
  QRPolynomial.remainder (generator ecCount) raw.getLength raw

/-- The codewords of correction of a block. -/
def ecWords (dc : List ℕ) (ecCount : ℕ) : List (Option ℕ) :=
  List.replicate (ecCount - (modPoly dc ecCount).getLength) (some 0) ++ (modPoly dc ecCount).num

section Block

variable {dc : List ℕ} (hdc : ∀ x ∈ dc, x < 256) {ecCount : ℕ} (hec : ecCount ≤ 30)

include hdc

theorem proper_raw (ecCount : ℕ) : (QRPolynomial.new (dc.map some) ecCount).Proper :=
  QRPolynomial.proper_new (fun c hc => by
    obtain ⟨x, hx, rfl⟩ := List.mem_map.mp hc
    exact hdc x hx) ecCount

include hec

theorem length_modPoly : (modPoly dc ecCount).getLength ≤ ecCount := by
  have hlen := length_generator hec
  have hlt := QRPolynomial.length_remainder (e := generator ecCount) (by omega)
    (proper_raw hdc ecCount) le_rfl
  rw [hlen] at hlt
  exact Nat.le_of_lt_succ hlt

theorem length_ecWords : (ecWords dc ecCount).length = ecCount := by
  have hle := length_modPoly hdc hec
  rw [ecWords, List.length_append, List.length_replicate]
  exact Nat.sub_add_cancel hle

theorem ecdata_eq : ecdata dc ecCount = .ok (ecWords dc ecCount) := by
  have hlen := length_generator hec
  have hle := length_modPoly hdc hec
  have hraw : (QRPolynomial.new (dc.map some) ((generator ecCount).getLength - 1)) =
      QRPolynomial.new (dc.map some) ecCount := by rw [hlen, Nat.add_sub_cancel]
  have hmod : (QRPolynomial.new (dc.map some) ecCount).mod (generator ecCount) =
      .ok (modPoly dc ecCount) :=
    QRPolynomial.modLoop_eq (full_generator hec) (by omega) _ (proper_raw hdc ecCount)
  have hwords : ((List.range ecCount).map fun i =>
      if ecCount ≤ i + (modPoly dc ecCount).getLength then
        (modPoly dc ecCount).get (i + (modPoly dc ecCount).getLength - ecCount)
      else some 0) = ecWords dc ecCount := by
    apply List.ext_getElem
    · rw [List.length_map, List.length_range, length_ecWords hdc hec]
    · intro i hi hi'
      rw [List.length_map, List.length_range] at hi
      simp only [ecWords]
      rw [List.getElem_map, List.getElem_range, List.getElem_append]
      split_ifs with h1 h2 h2
      · rw [List.length_replicate] at h2
        omega
      · rw [QRPolynomial.get, List.getD_eq_getElem _ _ (by rw [← QRPolynomial.getLength]; omega)]
        congr 1
        rw [List.length_replicate]
        omega
      · rw [List.getElem_replicate]
      · rw [List.length_replicate] at h2
        omega
  rw [ecdata, getErrorCorrectPolynomial_eq hec]
  change (QRPolynomial.new (dc.map some) ((generator ecCount).getLength - 1)).mod
    (generator ecCount) >>= _ = _
  rw [hlen, Nat.add_sub_cancel, hmod]
  exact congrArg Except.ok hwords

/-- **A block with its correction is 0 at the first powers of the root.** -/
theorem syndrome_eq_zero {R : Type*} [CommRing R] {α : R} (h : Root α) {i : ℕ} (hi : i < ecCount) :
    horner (α ^ i) ((dc.map some ++ ecWords dc ecCount).map (coef α)) = 0 := by
  have hzeros : (List.replicate (ecCount - (modPoly dc ecCount).getLength) (some 0)).map (coef α) =
      List.replicate (ecCount - (modPoly dc ecCount).getLength) 0 := by
    rw [List.map_replicate]
    exact congrArg _ (value_zero α)
  have hrem : horner (α ^ i) ((ecWords dc ecCount).map (coef α)) =
      horner (α ^ i) ((dc.map some).map (coef α)) * (α ^ i) ^ ecCount := by
    rw [ecWords, List.map_append, horner_append, hzeros, horner_zeros, zero_mul, zero_add, ← eval,
      modPoly, eval_remainder h (full_generator hec) (eval_generator h hec hi), eval_new]
  rw [List.map_append, horner_append, hrem, List.length_map, length_ecWords hdc hec, ← two_mul,
    h.two, zero_mul]

omit hec in
theorem byte_ecWords : ∀ c ∈ ecWords dc ecCount, c.getD 0 < 256 := by
  intro c hc
  rcases List.mem_append.mp hc with hc | hc
  · rw [List.eq_of_mem_replicate hc]
    decide
  · exact (QRPolynomial.proper_remainder _ _ (proper_raw hdc ecCount)).bytes c hc

end Block

/-! ## All blocks -/

theorem le_foldl_max (l : List ℕ) (a : ℕ) : a ≤ l.foldl max a ∧ ∀ x ∈ l, x ≤ l.foldl max a := by
  induction l generalizing a with
  | nil => exact ⟨le_rfl, fun x hx => nomatch hx⟩
  | cons b l ih =>
    obtain ⟨hmax, hmem⟩ := ih (max a b)
    refine ⟨(le_max_left a b).trans hmax, fun x hx => ?_⟩
    rcases List.mem_cons.mp hx with rfl | hx
    · exact (le_max_right a x).trans hmax
    · exact hmem x hx

theorem mapM_ok {α β : Type} {f : α → Except String β} {g : α → β} {l : List α}
    (h : ∀ a ∈ l, f a = .ok (g a)) : l.mapM f = .ok (l.map g) := by
  induction l with
  | nil => rfl
  | cons a l ih =>
    rw [List.mapM_cons, h a List.mem_cons_self, ih fun b hb => h b (List.mem_cons_of_mem a hb)]
    rfl

/-- The most data codewords of a block. -/
def maxDcCount (bs : List QRRSBlock) : ℕ := (bs.map QRRSBlock.dataCount).foldl max 0

/-- The most codewords of correction. -/
def maxEcCount (bs : List QRRSBlock) : ℕ := (bs.map fun b => b.totalCount - b.dataCount).foldl max 0

/-- The codewords of correction of all blocks. -/
def ecBlocks (buffer : List ℕ) (bs : List QRRSBlock) : List (List (Option ℕ)) :=
  ((dcdata buffer 0 bs).zip bs).map fun p => ecWords p.1 (p.2.totalCount - p.2.dataCount)

section Blocks

variable {bs : List QRRSBlock} (hbs : ∀ b ∈ bs, b.totalCount - b.dataCount ≤ 30) (b : QRBitBuffer)

include hbs

/-- **`createBytes` interleaves the blocks**, data first. -/
theorem createBytes_eq : createBytes b bs =
    .ok (interleave (maxDcCount bs) ((dcdata b.buffer 0 bs).map fun d => d.map some) ++
      interleave (maxEcCount bs) (ecBlocks b.buffer bs)) := by
  have hec : ((dcdata b.buffer 0 bs).zip bs).mapM (fun p => ecdata p.1 (p.2.totalCount - p.2.dataCount)) =
      .ok (ecBlocks b.buffer bs) :=
    mapM_ok fun p hp => ecdata_eq (byte_dcdata (List.of_mem_zip hp).1) (hbs _ (List.of_mem_zip hp).2)
  rw [createBytes, hec]
  rfl

theorem map_length_ecBlocks :
    (ecBlocks b.buffer bs).map List.length = bs.map fun b => b.totalCount - b.dataCount := by
  have hlen : (dcdata b.buffer 0 bs).length = bs.length := length_dcdata _ _ _
  have hsnd : ((dcdata b.buffer 0 bs).zip bs).map Prod.snd = bs := List.map_snd_zip hlen.ge
  rw [ecBlocks, List.map_map]
  conv_rhs => rw [← hsnd, List.map_map]
  refine List.map_congr_left fun p hp => ?_
  exact length_ecWords (byte_dcdata (List.of_mem_zip hp).1) (hbs _ (List.of_mem_zip hp).2)

end Blocks

end Adnihilum.Qr
