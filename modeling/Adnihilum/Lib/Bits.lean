import Mathlib.Tactic

/-!
# Bits and bytes

Numbers as lists of bits, the most significant one first.

* `toBits`, `ofBits`; **`ofBits_toBits`**.
* `bytesOf`: a list of bits in groups of eight; **`bytesOf_flatMap`**: the bits of bytes.
-/

namespace Bits

/-- The last `len` bits of a number. -/
def toBits (len n : ℕ) : List Bool := (List.range len).map fun i => n.testBit (len - 1 - i)

/-- The number that some bits spell. -/
def ofBits (bs : List Bool) : ℕ := bs.foldl (fun n b => 2 * n + b.toNat) 0

@[simp] theorem length_toBits (len n : ℕ) : (toBits len n).length = len := by simp [toBits]

theorem ofBits_concat (bs : List Bool) (b : Bool) : ofBits (bs ++ [b]) = 2 * ofBits bs + b.toNat := by
  simp only [ofBits, List.foldl_append, List.foldl_cons, List.foldl_nil]

theorem toBits_succ (len n : ℕ) : toBits (len + 1) n = toBits len (n / 2) ++ [n.testBit 0] := by
  rw [toBits, toBits, List.range_succ, List.map_append, List.map_singleton, Nat.add_sub_cancel,
    Nat.sub_self]
  refine congrArg (· ++ [n.testBit 0]) (List.map_congr_left fun i hi => ?_)
  have hi := List.mem_range.mp hi
  rw [← Nat.testBit_add_one, show len - 1 - i + 1 = len - i by omega]

/-- **Bits that are written are read back.** -/
theorem ofBits_toBits (len n : ℕ) : ofBits (toBits len n) = n % 2 ^ len := by
  induction len generalizing n with
  | zero => rw [pow_zero, Nat.mod_one]; rfl
  | succ len ih =>
    rw [toBits_succ, ofBits_concat, ih, Nat.testBit_zero, pow_succ, Nat.mul_comm (2 ^ len) 2,
      Nat.mod_mul]
    rcases Nat.mod_two_eq_zero_or_one n with h | h <;> simp [h]; omega

/-- Groups of eight bits. -/
def bytesOf (bs : List Bool) (count : ℕ) : List ℕ :=
  (List.range count).map fun k => ofBits ((bs.drop (8 * k)).take 8)

theorem length_flatMap_toBits (bytes : List ℕ) : (bytes.flatMap (toBits 8)).length = 8 * bytes.length := by
  induction bytes with
  | nil => rfl
  | cons b bytes ih =>
    rw [List.flatMap_cons, List.length_append, length_toBits, ih, List.length_cons]
    omega

theorem drop_flatMap_toBits (bytes : List ℕ) (k : ℕ) :
    (bytes.flatMap (toBits 8)).drop (8 * k) = (bytes.drop k).flatMap (toBits 8) := by
  induction k generalizing bytes with
  | zero => rfl
  | succ k ih =>
    cases bytes with
    | nil => rfl
    | cons b bytes =>
      rw [List.flatMap_cons, Nat.mul_succ, Nat.add_comm, ← List.drop_drop,
        List.drop_left' (length_toBits 8 b), ih, List.drop_succ_cons]

theorem getElem?_flatMap_toBits (bytes : List ℕ) {i : ℕ} (hi : i < 8 * bytes.length) :
    (bytes.flatMap (toBits 8))[i]? = some ((bytes.getD (i / 8) 0).testBit (7 - i % 8)) := by
  have hlt : i / 8 < bytes.length := by omega
  have hsplit := Nat.div_add_mod i 8
  have hdrop := drop_flatMap_toBits bytes (i / 8)
  rw [List.drop_eq_getElem_cons hlt, List.flatMap_cons] at hdrop
  have hget : (bytes.flatMap (toBits 8))[i]? =
      ((bytes.flatMap (toBits 8)).drop (8 * (i / 8)))[i % 8]? := by
    rw [List.getElem?_drop, hsplit]
  rw [hget, hdrop, List.getElem?_append_left (by rw [length_toBits]; exact Nat.mod_lt _ (by decide)),
    toBits, List.getElem?_map, List.getElem?_range (Nat.mod_lt _ (by decide)),
    List.getD_eq_getElem?_getD, List.getElem?_eq_getElem hlt]
  rfl

/-- **The bytes of a list of bits** that was made of bytes. -/
theorem bytesOf_flatMap {bytes : List ℕ} (h : ∀ b ∈ bytes, b < 256) (rest : List Bool) :
    bytesOf (bytes.flatMap (toBits 8) ++ rest) bytes.length = bytes := by
  apply List.ext_getElem
  · rw [bytesOf, List.length_map, List.length_range]
  · intro k hk hk'
    simp only [bytesOf]
    rw [List.getElem_map, List.getElem_range, List.drop_append_of_le_length
      (by rw [length_flatMap_toBits]; omega), drop_flatMap_toBits, List.drop_eq_getElem_cons hk',
      List.flatMap_cons, List.append_assoc, List.take_left' (length_toBits 8 _), ofBits_toBits]
    exact Nat.mod_eq_of_lt (h _ (List.getElem_mem hk'))

end Bits
