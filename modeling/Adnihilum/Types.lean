import Mathlib.Algebra.Group.Nat.Defs
import Mathlib.Data.Nat.Log

/-!
# The types of `types.h`

Addresses, sizes and indices are naturals; where the code relies on 64-bit wraparound the
operation says so (`subU64`). A `htable_key_t` is kept as its two 64-bit halves.
-/

namespace Adnihilum

/-- `blk_t`. -/
structure Blk where
  data : ℕ
  size : ℕ
  deriving DecidableEq, Repr

/-- `(blk_t){ 0 }`. -/
def Blk.zero : Blk := ⟨0, 0⟩

/-- `htable_key_t`. -/
structure HtableKey where
  h : UInt64
  l : UInt64
  deriving DecidableEq, Repr

/-- The all-zero key, which marks an empty slot. -/
def HtableKey.null : HtableKey := ⟨0, 0⟩

/-- Subtraction of `uint64_t`. -/
def subU64 (a b : ℕ) : ℕ := (a + 2 ^ 64 - b) % 2 ^ 64

/-- `__builtin_clzll` on a nonzero 64-bit argument. -/
def builtinClzll (i : ℕ) : ℕ := 63 - Nat.log2 i

/-- `ilog2_u64`. -/
def ilog2U64 (i : ℕ) : ℕ := 63 - builtinClzll i

theorem ilog2U64_eq {i : ℕ} (h0 : i ≠ 0) (h : i < 2 ^ 64) : ilog2U64 i = Nat.log2 i := by
  have : Nat.log2 i < 64 := (Nat.log2_lt h0).mpr h
  unfold ilog2U64 builtinClzll
  omega

end Adnihilum
