import Adnihilum.Lib.Lanes
import Adnihilum.Storage.Model

/-!
# The vector gather of the reaper

With `SIMD_X86` the first loop of `storage_reaper` compares eight times at once and walks the mask
of the comparison; what does not fill a register is left to a loop like the scalar one.

* `reaperGatherX86`: the vector code.
* `gatherBlock_eq`, `gatherBlocks_eq`, `gatherTail_eq`: each loop is the scalar loop on its slots.
* **`reaperGatherX86_eq`**.
-/

namespace Adnihilum

open Lanes

/-- `blob_ids_invalid` and its count. -/
abbrev Gathered := (ℕ → HtableKey) × ℕ

/-- `blob_ids_invalid[count++] = id`. -/
def Gathered.push (acc : Gathered) (id : HtableKey) : Gathered :=
  (Function.update acc.1 acc.2 id, acc.2 + 1)

/-- `bias`: the sign bit in every lane. -/
def bias : Reg 8 32 := set1 (BitVec.intMin 32)

/-- The body of the vector loop, for the eight slots from `i` on. -/
def gatherBlock (t : Htable) (timeVec : Reg 8 32) (i : ℕ) (acc : Gathered) : Gathered :=
  let untilVec : Reg 8 32 := load (fun j => BitVec.ofNat 32 (t.blobValidUntil j)) i
  let cmp := cmpgt timeVec (xor untilVec bias)
  foldBits (fun acc idx => acc.push (t.blobIds (i + idx))) acc (movemask cmp)

/-- The vector loop: the slot it stops at, and what it gathered. -/
def gatherBlocks (t : Htable) (timeVec : Reg 8 32) (size i : ℕ) (acc : Gathered) : ℕ × Gathered :=
  if i + 8 ≤ size then gatherBlocks t timeVec size (i + 8) (gatherBlock t timeVec i acc) else (i, acc)
termination_by size - i

/-- The loop over the slots that are left. -/
def gatherTail (t : Htable) (timeNow size i : ℕ) (acc : Gathered) : Gathered :=
  if i < size then
    gatherTail t timeNow size (i + 1)
      (if t.blobValidUntil i < timeNow then acc.push (t.blobIds i) else acc)
  else acc
termination_by size - i

/-- The gather loops of `storage_reaper` with `SIMD_X86`. -/
def reaperGatherX86 (s : Storage) (timeNow : ℕ) : Storage :=
  let timeVec := xor (set1 (BitVec.ofNat 32 timeNow)) bias
  let r := gatherBlocks s.table timeVec s.htableSize 0 (s.blobIdsInvalid, s.blobIdsInvalidCount)
  let acc := gatherTail s.table timeNow s.htableSize r.1 r.2
  { s with blobIdsInvalid := acc.1, blobIdsInvalidCount := acc.2 }

/-! ## The loops -/

section Loops

variable {t : Htable} {timeNow size : ℕ}

/-- One turn of the scalar loop. -/
def gatherSlot (t : Htable) (timeNow : ℕ) (acc : Gathered) (i : ℕ) : Gathered :=
  if t.blobValidUntil i < timeNow then acc.push (t.blobIds i) else acc

theorem getLsbD_expired (hnow : timeNow < 2 ^ 32) {i : ℕ}
    (hi : ∀ l < 8, t.blobValidUntil (i + l) < 2 ^ 32) (l : ℕ) :
    (movemask (cmpgt (xor (set1 (BitVec.ofNat 32 timeNow)) bias)
      (xor (load (fun j => BitVec.ofNat 32 (t.blobValidUntil j)) i) bias))).getLsbD l =
        (decide (l < 8) && decide (t.blobValidUntil (i + l) < timeNow)) := by
  rw [getLsbD_movemask (by decide)]
  split_ifs with hl
  · have hcmp := slt_xor_intMin (BitVec.ofNat 32 (t.blobValidUntil (i + l))) (BitVec.ofNat 32 timeNow)
    rw [BitVec.toNat_ofNat, BitVec.toNat_ofNat, Nat.mod_eq_of_lt (hi l hl),
      Nat.mod_eq_of_lt hnow] at hcmp
    rw [decide_eq_true hl, Bool.true_and, msb_cmpgt (by decide), Bool.eq_iff_iff, decide_eq_true_eq]
    exact hcmp
  · rw [decide_eq_false hl, Bool.false_and]

theorem gatherBlock_eq (hnow : timeNow < 2 ^ 32) {i : ℕ}
    (hi : ∀ l < 8, t.blobValidUntil (i + l) < 2 ^ 32) (acc : Gathered) :
    gatherBlock t (xor (set1 (BitVec.ofNat 32 timeNow)) bias) i acc =
      (List.range' i 8).foldl (gatherSlot t timeNow) acc := by
  have hbits : bits (movemask (cmpgt (xor (set1 (BitVec.ofNat 32 timeNow)) bias)
      (xor (load (fun j => BitVec.ofNat 32 (t.blobValidUntil j)) i) bias))) =
        (List.range 8).filter fun l => decide (t.blobValidUntil (i + l) < timeNow) := by
    rw [bits, funext (getLsbD_expired hnow hi)]
    rfl
  rw [gatherBlock, foldBits_eq, hbits, List.foldl_filter, List.range'_eq_map_range, List.foldl_map]
  simp only [decide_eq_true_eq]
  rfl

theorem gatherBlocks_eq (hnow : timeNow < 2 ^ 32) (ht : ∀ i < size, t.blobValidUntil i < 2 ^ 32)
    (i : ℕ) (acc : Gathered) (hi : i ≤ size) :
    ∃ d, i + d ≤ size ∧
      gatherBlocks t (xor (set1 (BitVec.ofNat 32 timeNow)) bias) size i acc =
        (i + d, (List.range' i d).foldl (gatherSlot t timeNow) acc) := by
  induction i, acc using gatherBlocks.induct t (xor (set1 (BitVec.ofNat 32 timeNow)) bias) size with
  | case1 i acc h ih =>
    obtain ⟨d, hd, heq⟩ := ih h
    refine ⟨8 + d, by omega, ?_⟩
    rw [gatherBlocks, if_pos h, heq, gatherBlock_eq hnow fun l hl => ht _ (by omega),
      ← List.foldl_append, Nat.add_assoc]
    congr 2
    rw [← List.range'_append_1]
  | case2 i acc h =>
    exact ⟨0, hi, by rw [gatherBlocks, if_neg h]; rfl⟩

theorem gatherTail_eq (i : ℕ) (acc : Gathered) :
    gatherTail t timeNow size i acc =
      (List.range' i (size - i)).foldl (gatherSlot t timeNow) acc := by
  induction i, acc using gatherTail.induct t timeNow size with
  | case1 i acc h ih =>
    simp only [dite_eq_ite] at ih
    rw [gatherTail, if_pos h, ih]
    obtain ⟨d, hd⟩ : ∃ d, size - i = d + 1 := ⟨size - i - 1, by omega⟩
    rw [hd, List.range'_succ, List.foldl_cons, show size - (i + 1) = d by omega]
    rfl
  | case2 i acc h =>
    rw [gatherTail, if_neg h, show size - i = 0 by omega]
    rfl

end Loops

/-- **The vector gather is the scalar one**, for a table of any size with any times and ids, any
time and any count to start with. -/
theorem reaperGatherX86_eq (s : Storage) (timeNow : UInt32)
    (hs : ∀ i < s.htableSize, s.table.blobValidUntil i < 2 ^ 32) :
    reaperGatherX86 s timeNow.toNat = reaperGather s timeNow.toNat := by
  obtain ⟨d, hd, heq⟩ := gatherBlocks_eq timeNow.toNat_lt hs 0
    (s.blobIdsInvalid, s.blobIdsInvalidCount) (Nat.zero_le _)
  have hscalar : (List.range s.htableSize).foldl (gatherSlot s.table timeNow.toNat)
      (s.blobIdsInvalid, s.blobIdsInvalidCount) =
        gatherTail s.table timeNow.toNat s.htableSize d
          ((List.range' 0 d).foldl (gatherSlot s.table timeNow.toNat)
            (s.blobIdsInvalid, s.blobIdsInvalidCount)) := by
    have hrange : List.range' 0 d ++ List.range' (0 + d) (s.htableSize - d) =
        List.range' 0 s.htableSize := by
      rw [List.range'_append_1, Nat.add_sub_cancel' (by omega)]
    rw [Nat.zero_add] at hrange
    rw [gatherTail_eq, ← List.foldl_append, hrange, List.range_eq_range']
  rw [reaperGatherX86, heq, Nat.zero_add, ← hscalar]
  rfl

/-- A table of ten slots around the sign bit. -/
theorem reaperGatherX86_eq_demo :
    reaperGatherX86 { storageInit 4096 10 with
      table := ⟨fun i => ⟨0, .ofNat i⟩, fun _ => Blk.zero, fun i => 2 ^ 31 - 5 + i⟩ } (2 ^ 31) =
    reaperGather { storageInit 4096 10 with
      table := ⟨fun i => ⟨0, .ofNat i⟩, fun _ => Blk.zero, fun i => 2 ^ 31 - 5 + i⟩ } (2 ^ 31) :=
  reaperGatherX86_eq _ (2 ^ 31) fun i hi => by
    have hi : i < 10 := hi
    change 2 ^ 31 - 5 + i < 2 ^ 32
    omega

end Adnihilum
