import Adnihilum.Server.CtxAlloc

/-!
# `ctxalloc.h` in memory

The pool as bytes: the link of a free block lies where its owner writes when it is a context, and
the header of the pool lies behind the blocks.

* `ctxaFootprint`, `ctxaInit`, `ctxaAlloc`, `ctxaFree`: the functions of the header. Sizes are 32
  bits wide, also the footprint.
* `PoolReach`: the pools after any calls, with the contexts in use.
* `PoolInv`: the free list and the contexts in use are all the blocks, each once. `PoolInv.init`,
  `PoolInv.alloc_cons`, `PoolInv.freed`, `PoolInv.written`, and by induction `PoolReach.inv`.
* `PoolLaw`; **`ctx_pool_law`**: as long as the footprint fits 32 bits; `footprint_wraps`.
* `poolAt`: the pool of `Adnihilum.ctxaInit`, `Adnihilum.ctxaAlloc`, `Adnihilum.ctxaFree` is this
  one with indices for pointers: `poolAt_init`, **`poolAt_alloc`**, `poolAt_free`, `poolAt_write`.
-/

namespace Adnihilum.CtxPool

open FlatMemory

/-! ## The functions of the header -/

/-- `sizeof(ctxalloc_block_t)`. -/
def sizeofCtxallocBlock : ℕ := 80

/-- `sizeof(ctxalloc_t)`: `free_list` at 0, `capacity` at 8, `available` at 12. -/
def sizeofCtxalloc : ℕ := 16

/-- Subtraction of `ctxalloc_size_t`. -/
def subU32 (a b : ℕ) : ℕ := (a + 2 ^ 32 - b) % 2 ^ 32

/-- `ctxa_footprint`: the sum is a `size_t`, the result a `ctxalloc_size_t`. -/
def ctxaFootprint (count : ℕ) : ℕ := (count * sizeofCtxallocBlock + sizeofCtxalloc) % 2 ^ 32

/-- Where `ctxa_init` puts the header. -/
def ctxaHeader (memory count : ℕ) : ℕ := memory + ctxaFootprint count - sizeofCtxalloc

/-- `&pool[i]`. -/
def blockAt (memory i : ℕ) : ℕ := memory + i * sizeofCtxallocBlock

/-- The loop of `ctxa_init`: link the first `n` blocks, each to the next. -/
def ctxaInitLoop (m : Mem) (pool n : ℕ) : Mem :=
  (List.range n).foldl (fun m i => m.storeWord (blockAt pool i) (blockAt pool (i + 1))) m

/-- The header as `ctxa_init` writes it. -/
def ctxaInitHeader (m : Mem) (alloc memory count : ℕ) : Mem :=
  let m := m.storeHalf (alloc + 8) count
  let m := m.storeHalf (alloc + 12) count
  let m := m.storeWord alloc 0
  m.storeWord alloc memory

/-- `ctxa_init`. -/
def ctxaInit (m : Mem) (memory count : ℕ) : Mem × ℕ :=
  let alloc := ctxaHeader memory count
  let m := ctxaInitHeader m alloc memory count
  let m := ctxaInitLoop m memory (subU32 count 1)
  (m.storeWord (blockAt memory (subU32 count 1)) 0, alloc)

/-- `ctxa_alloc`. -/
def ctxaAlloc (m : Mem) (alloc : ℕ) : Mem × ℕ :=
  let block := m.loadWord alloc
  if block = 0 then (m, 0)
  else
    let m := m.storeWord alloc (m.loadWord block)
    let m := m.storeHalf (alloc + 12) (subU32 (m.loadHalf (alloc + 12)) 1)
    (m.zero block sizeofCtxallocBlock, block)

/-- `ctxa_free`. -/
def ctxaFree (m : Mem) (alloc ptr : ℕ) : Mem :=
  let m := m.storeWord ptr (m.loadWord alloc)
  let m := m.storeWord alloc ptr
  m.storeHalf (alloc + 12) ((m.loadHalf (alloc + 12) + 1) % 2 ^ 32)

/-! ## Runs -/

/-- The memory of a pool after calls in any order, from `ctxa_init` on, with the contexts in use.
Their owners write what they want into them. -/
inductive PoolReach (memory count : ℕ) : Mem → List ℕ → Prop
  | init (m : Mem) : PoolReach memory count (ctxaInit m memory count).1 []
  | alloc {m : Mem} {live : List ℕ} (h : PoolReach memory count m live) :
      PoolReach memory count (ctxaAlloc m (ctxaHeader memory count)).1
        (if (ctxaAlloc m (ctxaHeader memory count)).2 = 0 then live
        else (ctxaAlloc m (ctxaHeader memory count)).2 :: live)
  | free {m : Mem} {live : List ℕ} {ctx : ℕ} (h : PoolReach memory count m live)
      (hlive : ctx ∈ live) :
      PoolReach memory count (ctxaFree m (ctxaHeader memory count) ctx) (live.erase ctx)
  | write {m : Mem} {live : List ℕ} {ctx a : ℕ} {bs : List UInt8}
      (h : PoolReach memory count m live) (hlive : ctx ∈ live) (hlo : ctx ≤ a)
      (hhi : a + bs.length ≤ ctx + sizeofCtxallocBlock) :
      PoolReach memory count (m.store a bs) live

/-- All blocks of a pool. -/
def poolBlocks (memory count : ℕ) : List ℕ := (List.range count).map (blockAt memory)

/-- The links of the free list. -/
def nextOf (m : Mem) (block : ℕ) : Option ℕ := asPtr (m.loadWord block)

/-- What a pool promises: `ctxa_alloc` fails exactly when `count` contexts are in use, and else it
gives a zeroed context that is not in use; `available` counts the free list. -/
structure PoolLaw (memory count : ℕ) (m : Mem) (live : List ℕ) : Prop where
  null_iff : (ctxaAlloc m (ctxaHeader memory count)).2 = 0 ↔ live.length = count
  fresh : (ctxaAlloc m (ctxaHeader memory count)).2 ≠ 0 →
    (ctxaAlloc m (ctxaHeader memory count)).2 ∈ poolBlocks memory count ∧
      (ctxaAlloc m (ctxaHeader memory count)).2 ∉ live ∧
      ∀ d < sizeofCtxallocBlock, (ctxaAlloc m (ctxaHeader memory count)).1
        ((ctxaAlloc m (ctxaHeader memory count)).2 + d) = 0
  nodup : live.Nodup
  placed : ∀ ctx ∈ live, ctx ∈ poolBlocks memory count
  available : ∃ l, Linked (nextOf m) (nextOf m (ctxaHeader memory count)) l ∧
    m.loadHalf (ctxaHeader memory count + 12) = l.length ∧ l.length + live.length = count

/-- The memory of a pool: not null, and within the address space. -/
structure Buffer (memory count : ℕ) : Prop where
  ne_null : memory ≠ 0
  space : memory + (count * sizeofCtxallocBlock + sizeofCtxalloc) ≤ 2 ^ 64

/-! ## What the functions leave in memory -/

section Effects

variable {m : Mem} {alloc block x : ℕ}

theorem ctxaAlloc_of_null (h : m.loadWord alloc = 0) : ctxaAlloc m alloc = (m, 0) := by
  simp only [ctxaAlloc, h, if_pos]

theorem ctxaAlloc_ptr (h : m.loadWord alloc = block) : (ctxaAlloc m alloc).2 = block := by
  by_cases hnull : block = 0
  · rw [ctxaAlloc_of_null (h.trans hnull), hnull]
  · simp only [ctxaAlloc, h, if_neg hnull]

theorem ctxaAlloc_mem (h : m.loadWord alloc = block) (hne : block ≠ 0) :
    (ctxaAlloc m alloc).1 = ((m.storeWord alloc (m.loadWord block)).storeHalf (alloc + 12)
      (subU32 (m.loadHalf (alloc + 12)) 1)).zero block sizeofCtxallocBlock := by
  simp only [ctxaAlloc, h, if_neg hne]
  rw [Mem.loadHalf_storeWord_of_apart (by omega)]

theorem ctxaAlloc_of_outside (h : m.loadWord alloc = block) (hne : block ≠ 0)
    (hblock : x < block ∨ block + sizeofCtxallocBlock ≤ x) (hlist : x < alloc ∨ alloc + 8 ≤ x)
    (havail : x < alloc + 12 ∨ alloc + 16 ≤ x) : (ctxaAlloc m alloc).1 x = m x := by
  rw [ctxaAlloc_mem h hne, Mem.zero_of_outside hblock, Mem.storeHalf_of_outside (by omega),
    Mem.storeWord_of_outside hlist]

theorem ctxaAlloc_of_inside (h : m.loadWord alloc = block) (hne : block ≠ 0)
    (hlo : block ≤ x) (hhi : x < block + sizeofCtxallocBlock) : (ctxaAlloc m alloc).1 x = 0 := by
  rw [ctxaAlloc_mem h hne, Mem.zero_of_inside hlo hhi]

theorem ctxaAlloc_freeList (h : m.loadWord alloc = block) (hne : block ≠ 0)
    (hapart : block + sizeofCtxallocBlock ≤ alloc) :
    (ctxaAlloc m alloc).1.loadWord alloc = m.loadWord block := by
  rw [ctxaAlloc_mem h hne, Mem.loadWord_zero_of_apart (by omega),
    Mem.loadWord_storeHalf_of_apart (by omega), Mem.loadWord_storeWord Mem.loadWord_lt]

theorem ctxaAlloc_available (h : m.loadWord alloc = block) (hne : block ≠ 0)
    (hapart : block + sizeofCtxallocBlock ≤ alloc) :
    (ctxaAlloc m alloc).1.loadHalf (alloc + 12) = subU32 (m.loadHalf (alloc + 12)) 1 := by
  have hlt : subU32 (m.loadHalf (alloc + 12)) 1 < 2 ^ 32 := Nat.mod_lt _ (by norm_num)
  rw [ctxaAlloc_mem h hne, Mem.loadHalf_zero_of_apart (by omega), Mem.loadHalf_storeHalf hlt]

theorem ctxaFree_eq (hapart : block + sizeofCtxallocBlock ≤ alloc) :
    ctxaFree m alloc block =
      ((m.storeWord block (m.loadWord alloc)).storeWord alloc block).storeHalf (alloc + 12)
        ((m.loadHalf (alloc + 12) + 1) % 2 ^ 32) := by
  have hsize : sizeofCtxallocBlock = 80 := rfl
  simp only [ctxaFree]
  rw [Mem.loadHalf_storeWord_of_apart (by omega), Mem.loadHalf_storeWord_of_apart (by omega)]

theorem ctxaFree_of_outside (hapart : block + sizeofCtxallocBlock ≤ alloc)
    (hblock : x < block ∨ block + 8 ≤ x) (hlist : x < alloc ∨ alloc + 8 ≤ x)
    (havail : x < alloc + 12 ∨ alloc + 16 ≤ x) : ctxaFree m alloc block x = m x := by
  rw [ctxaFree_eq hapart, Mem.storeHalf_of_outside (by omega), Mem.storeWord_of_outside hlist,
    Mem.storeWord_of_outside hblock]

theorem ctxaFree_link (hapart : block + sizeofCtxallocBlock ≤ alloc) :
    (ctxaFree m alloc block).loadWord block = m.loadWord alloc := by
  have hsize : sizeofCtxallocBlock = 80 := rfl
  rw [ctxaFree_eq hapart, Mem.loadWord_storeHalf_of_apart (by omega),
    Mem.loadWord_storeWord_of_apart (by omega), Mem.loadWord_storeWord Mem.loadWord_lt]

theorem ctxaFree_freeList (hapart : block + sizeofCtxallocBlock ≤ alloc) (hlt : block < 2 ^ 64) :
    (ctxaFree m alloc block).loadWord alloc = block := by
  rw [ctxaFree_eq hapart, Mem.loadWord_storeHalf_of_apart (by omega), Mem.loadWord_storeWord hlt]

theorem ctxaFree_available (hapart : block + sizeofCtxallocBlock ≤ alloc) :
    (ctxaFree m alloc block).loadHalf (alloc + 12) = (m.loadHalf (alloc + 12) + 1) % 2 ^ 32 := by
  rw [ctxaFree_eq hapart, Mem.loadHalf_storeHalf (Nat.mod_lt _ (by norm_num))]

end Effects

section Init

variable {m : Mem} {memory count n i x : ℕ}

theorem subU32_one (h1 : 1 ≤ n) (h2 : n < 2 ^ 32) : subU32 n 1 = n - 1 := by
  rw [subU32, show n + 2 ^ 32 - 1 = n - 1 + 2 ^ 32 by omega, Nat.add_mod_right,
    Nat.mod_eq_of_lt (by omega)]

theorem blockAt_zero : blockAt memory 0 = memory := by rw [blockAt, Nat.zero_mul, Nat.add_zero]

theorem blockAt_succ : blockAt memory (i + 1) = blockAt memory i + sizeofCtxallocBlock := by
  rw [blockAt, Nat.succ_mul, ← Nat.add_assoc, blockAt]

theorem blockAt_mono {j : ℕ} (h : i ≤ j) : blockAt memory i ≤ blockAt memory j :=
  Nat.add_le_add_left (Nat.mul_le_mul_right _ h) _

theorem blockAt_apart (memory : ℕ) {j : ℕ} (h : i < j) :
    blockAt memory i + sizeofCtxallocBlock ≤ blockAt memory j := by
  rw [← blockAt_succ]
  exact blockAt_mono h

theorem ctxaInitLoop_succ : ctxaInitLoop m memory (n + 1) =
    (ctxaInitLoop m memory n).storeWord (blockAt memory n) (blockAt memory (n + 1)) := by
  simp only [ctxaInitLoop, List.range_succ, List.foldl_append, List.foldl_cons, List.foldl_nil]

theorem ctxaInitLoop_of_outside (h : ∀ i < n, x < blockAt memory i ∨ blockAt memory i + 8 ≤ x) :
    ctxaInitLoop m memory n x = m x := by
  induction n with
  | zero => rfl
  | succ n ih =>
    rw [ctxaInitLoop_succ, Mem.storeWord_of_outside (h n (Nat.lt_succ_self n))]
    exact ih fun i hi => h i (Nat.lt_succ_of_lt hi)

theorem ctxaInitLoop_link (hi : i < n) (hspace : blockAt memory n < 2 ^ 64) :
    (ctxaInitLoop m memory n).loadWord (blockAt memory i) = blockAt memory (i + 1) := by
  induction n with
  | zero => cases hi
  | succ n ih =>
    rw [ctxaInitLoop_succ]
    by_cases hlast : i = n
    · rw [hlast, Mem.loadWord_storeWord hspace]
    · have hin : i < n := by omega
      have hsize : sizeofCtxallocBlock = 80 := rfl
      have hapart := blockAt_apart memory hin
      rw [Mem.loadWord_storeWord_of_apart (by omega)]
      exact ih hin ((blockAt_mono (Nat.le_succ n)).trans_lt hspace)

theorem ctxaInit_of_outside (h1 : 1 ≤ count) (h2 : count < 2 ^ 32)
    (h : ∀ i < count, x < blockAt memory i ∨ blockAt memory i + 8 ≤ x) :
    (ctxaInit m memory count).1 x =
      ctxaInitHeader m (ctxaHeader memory count) memory count x := by
  simp only [ctxaInit, subU32_one h1 h2]
  rw [Mem.storeWord_of_outside (h _ (by omega)),
    ctxaInitLoop_of_outside fun i hi => h i (by omega)]

theorem ctxaInit_link (h1 : 1 ≤ count) (h2 : count < 2 ^ 32)
    (hspace : blockAt memory count < 2 ^ 64) (hi : i < count) :
    (ctxaInit m memory count).1.loadWord (blockAt memory i) =
      if i + 1 < count then blockAt memory (i + 1) else 0 := by
  simp only [ctxaInit, subU32_one h1 h2]
  split_ifs with hlast
  · have hsize : sizeofCtxallocBlock = 80 := rfl
    have hapart := blockAt_apart memory (show i < count - 1 by omega)
    rw [Mem.loadWord_storeWord_of_apart (by omega), ctxaInitLoop_link (by omega)]
    exact (blockAt_mono (by omega)).trans_lt hspace
  · rw [show count - 1 = i by omega, Mem.loadWord_storeWord (by norm_num)]

theorem ctxaInitHeader_freeList {alloc : ℕ} (h : memory < 2 ^ 64) :
    (ctxaInitHeader m alloc memory count).loadWord alloc = memory := Mem.loadWord_storeWord h

theorem ctxaInitHeader_capacity {alloc : ℕ} (h : count < 2 ^ 32) :
    (ctxaInitHeader m alloc memory count).loadHalf (alloc + 8) = count := by
  have hstored : (m.storeHalf (alloc + 8) count).loadHalf (alloc + 8) = count :=
    Mem.loadHalf_storeHalf h
  rw [ctxaInitHeader, Mem.loadHalf_storeWord_of_apart (by omega),
    Mem.loadHalf_storeWord_of_apart (by omega), Mem.loadHalf_storeHalf_of_apart (by omega), hstored]

theorem ctxaInitHeader_available {alloc : ℕ} (h : count < 2 ^ 32) :
    (ctxaInitHeader m alloc memory count).loadHalf (alloc + 12) = count := by
  rw [ctxaInitHeader, Mem.loadHalf_storeWord_of_apart (by omega),
    Mem.loadHalf_storeWord_of_apart (by omega), Mem.loadHalf_storeHalf h]

end Init

/-! ## The invariant -/

/-- The free list and the contexts in use are all the blocks, each once. -/
structure PoolInv (memory count : ℕ) (m : Mem) (live free : List ℕ) : Prop where
  linked : Linked (nextOf m) (nextOf m (ctxaHeader memory count)) free
  available : m.loadHalf (ctxaHeader memory count + 12) = free.length
  blocks : (free ++ live).Perm (poolBlocks memory count)

section Blocks

variable {memory count b c : ℕ}

theorem ctxaHeader_eq (hfit : count * sizeofCtxallocBlock + sizeofCtxalloc < 2 ^ 32) :
    ctxaHeader memory count = blockAt memory count := by
  rw [ctxaHeader, ctxaFootprint, Nat.mod_eq_of_lt hfit, ← Nat.add_assoc, Nat.add_sub_cancel]
  rfl

theorem mem_poolBlocks : b ∈ poolBlocks memory count ↔ ∃ i < count, blockAt memory i = b := by
  simp [poolBlocks]

theorem blockAt_mem (memory : ℕ) {i : ℕ} (hi : i < count) :
    blockAt memory i ∈ poolBlocks memory count := mem_poolBlocks.mpr ⟨i, hi, rfl⟩

theorem length_poolBlocks : (poolBlocks memory count).length = count := by simp [poolBlocks]

theorem blockAt_injective (memory : ℕ) : Function.Injective (blockAt memory) := by
  intro i j hij
  simp only [blockAt, sizeofCtxallocBlock] at hij
  omega

theorem nodup_poolBlocks : (poolBlocks memory count).Nodup :=
  List.nodup_range.map (blockAt_injective memory)

theorem poolBlocks_apart (hb : b ∈ poolBlocks memory count) (hc : c ∈ poolBlocks memory count)
    (hne : b ≠ c) : b + sizeofCtxallocBlock ≤ c ∨ c + sizeofCtxallocBlock ≤ b := by
  obtain ⟨i, -, rfl⟩ := mem_poolBlocks.mp hb
  obtain ⟨j, -, rfl⟩ := mem_poolBlocks.mp hc
  rcases Nat.lt_trichotomy i j with hlt | rfl | hgt
  · exact Or.inl (blockAt_apart memory hlt)
  · exact absurd rfl hne
  · exact Or.inr (blockAt_apart memory hgt)

theorem le_header (hfit : count * sizeofCtxallocBlock + sizeofCtxalloc < 2 ^ 32)
    (hb : b ∈ poolBlocks memory count) : b + sizeofCtxallocBlock ≤ ctxaHeader memory count := by
  obtain ⟨i, hi, rfl⟩ := mem_poolBlocks.mp hb
  rw [ctxaHeader_eq hfit]
  exact blockAt_apart memory hi

theorem Buffer.block_ne_zero (h : Buffer memory count) (hb : b ∈ poolBlocks memory count) :
    b ≠ 0 := by
  obtain ⟨i, -, rfl⟩ := mem_poolBlocks.mp hb
  have hne := h.ne_null
  unfold blockAt
  omega

theorem Buffer.end_lt (h : Buffer memory count) : blockAt memory count < 2 ^ 64 := by
  have hspace := h.space
  have hsize : sizeofCtxalloc = 16 := rfl
  rw [blockAt]
  omega

theorem Buffer.block_lt (h : Buffer memory count) (hb : b ∈ poolBlocks memory count) :
    b < 2 ^ 64 := by
  obtain ⟨i, hi, rfl⟩ := mem_poolBlocks.mp hb
  exact (blockAt_mono hi.le).trans_lt h.end_lt

theorem count_lt (hfit : count * sizeofCtxallocBlock + sizeofCtxalloc < 2 ^ 32) :
    count < 2 ^ 32 := by
  simp only [sizeofCtxallocBlock, sizeofCtxalloc] at hfit
  omega

theorem nextOf_congr {m m' : Mem} (h : ∀ d < sizeofCtxallocBlock, m' (b + d) = m (b + d)) :
    nextOf m' b = nextOf m b := by
  have hsize : sizeofCtxallocBlock = 80 := rfl
  rw [nextOf, nextOf, Mem.loadWord_congr fun d hd => h d (by omega)]

end Blocks

namespace PoolInv

variable {memory count b : ℕ} {m : Mem} {live free : List ℕ}

theorem free_subset (h : PoolInv memory count m live free) (hb : b ∈ free) :
    b ∈ poolBlocks memory count := h.blocks.subset (List.mem_append_left _ hb)

theorem live_subset (h : PoolInv memory count m live free) (hb : b ∈ live) :
    b ∈ poolBlocks memory count := h.blocks.subset (List.mem_append_right _ hb)

theorem nodup (h : PoolInv memory count m live free) : (free ++ live).Nodup :=
  h.blocks.nodup_iff.mpr nodup_poolBlocks

theorem length_eq (h : PoolInv memory count m live free) : free.length + live.length = count := by
  rw [← List.length_append, h.blocks.length_eq, length_poolBlocks]

theorem head (h : PoolInv memory count m live (b :: free)) :
    m.loadWord (ctxaHeader memory count) = b ∧ b ≠ 0 := asPtr_eq_some.mp h.linked.1

theorem head_nil (h : PoolInv memory count m live []) :
    m.loadWord (ctxaHeader memory count) = 0 := by
  have hnone : asPtr (m.loadWord (ctxaHeader memory count)) = none := h.linked
  by_contra hne
  rw [asPtr_of_ne hne] at hnone
  cases hnone

theorem free_ne_live {c : ℕ} (h : PoolInv memory count m live free) (hc : c ∈ free)
    (hb : b ∈ live) : c ≠ b := by
  rintro rfl
  exact List.disjoint_of_nodup_append h.nodup hc hb

section Fits

variable (hbuf : Buffer memory count) (hfit : count * sizeofCtxallocBlock + sizeofCtxalloc < 2 ^ 32)

include hfit

theorem alloc_other {c : ℕ} (h : PoolInv memory count m live (b :: free))
    (hc : c ∈ poolBlocks memory count) (hne : c ≠ b) :
    ∀ d < sizeofCtxallocBlock, (ctxaAlloc m (ctxaHeader memory count)).1 (c + d) = m (c + d) := by
  intro d hd
  obtain ⟨hlist, hnull⟩ := h.head
  have hapart := poolBlocks_apart hc (h.free_subset List.mem_cons_self) hne
  have hle := le_header hfit hc
  exact ctxaAlloc_of_outside hlist hnull (by omega) (by omega) (by omega)

theorem free_other {c : ℕ} (h : PoolInv memory count m live free) (hb : b ∈ live)
    (hc : c ∈ poolBlocks memory count) (hne : c ≠ b) :
    ∀ d < sizeofCtxallocBlock, ctxaFree m (ctxaHeader memory count) b (c + d) = m (c + d) := by
  intro d hd
  have hsize : sizeofCtxallocBlock = 80 := rfl
  have hapart := poolBlocks_apart hc (h.live_subset hb) hne
  have hle := le_header hfit hc
  exact ctxaFree_of_outside (le_header hfit (h.live_subset hb)) (by omega) (by omega) (by omega)

include hbuf in
theorem init (h1 : 1 ≤ count) :
    PoolInv memory count (ctxaInit m memory count).1 [] (poolBlocks memory count) := by
  have hcount := count_lt hfit
  have hlt := hbuf.end_lt
  have hheader : ∀ x, ctxaHeader memory count ≤ x → (ctxaInit m memory count).1 x =
      ctxaInitHeader m (ctxaHeader memory count) memory count x := by
    intro x hx
    refine ctxaInit_of_outside h1 hcount fun i hi => ?_
    have hle := le_header hfit (blockAt_mem memory hi)
    have hsize : sizeofCtxallocBlock = 80 := rfl
    omega
  have hchain : ∀ d i, i + d = count → 0 < d →
      Linked (nextOf (ctxaInit m memory count).1) (some (blockAt memory i))
        ((List.range' i d).map (blockAt memory)) := by
    -- along the blocks from `i` on
    intro d
    induction d with
    | zero => omega
    | succ d ih =>
      intro i hi _
      refine ⟨rfl, ?_⟩
      rw [nextOf, ctxaInit_link h1 hcount hlt (by omega)]
      cases d with
      | zero =>
        rw [if_neg (by omega)]
        rfl
      | succ d =>
        rw [if_pos (by omega), asPtr_of_ne]
        · exact ih (i + 1) (by omega) (by omega)
        · exact hbuf.block_ne_zero (blockAt_mem memory (by omega))
  refine ⟨?_, ?_, by rw [List.append_nil]⟩
  · have hlist : (ctxaInit m memory count).1.loadWord (ctxaHeader memory count) = memory := by
      rw [Mem.loadWord_congr fun d _ => hheader _ (Nat.le_add_right _ d)]
      exact ctxaInitHeader_freeList ((Nat.le_add_right memory _).trans_lt hlt)
    have hfirst := hchain count 0 (Nat.zero_add _) h1
    rw [blockAt_zero] at hfirst
    rwa [nextOf, hlist, asPtr_of_ne hbuf.ne_null, poolBlocks, List.range_eq_range']
  · rw [length_poolBlocks, Mem.loadHalf_congr fun d _ => hheader _ (by omega),
      ctxaInitHeader_available hcount]

theorem alloc_cons (h : PoolInv memory count m live (b :: free)) :
    PoolInv memory count (ctxaAlloc m (ctxaHeader memory count)).1 (b :: live) free := by
  have hcount := count_lt hfit
  have hlength := h.length_eq
  have havailable := h.available
  obtain ⟨hlist, hne⟩ := h.head
  have hle := le_header hfit (h.free_subset List.mem_cons_self)
  refine ⟨?_, ?_, List.perm_middle.trans h.blocks⟩
  · rw [nextOf, ctxaAlloc_freeList hlist hne hle]
    refine h.linked.2.congr fun c hc => nextOf_congr (h.alloc_other hfit ?_ ?_)
    · exact h.free_subset (List.mem_cons_of_mem _ hc)
    · rintro rfl
      exact (List.nodup_cons.mp h.nodup.of_append_left).1 hc
  · rw [List.length_cons] at havailable hlength
    rw [ctxaAlloc_available hlist hne hle, havailable, subU32_one (by omega) (by omega),
      Nat.add_sub_cancel]

include hbuf in
theorem freed (h : PoolInv memory count m live free) (hb : b ∈ live) :
    PoolInv memory count (ctxaFree m (ctxaHeader memory count) b) (live.erase b) (b :: free) := by
  have hcount := count_lt hfit
  have hlength := h.length_eq
  have hpos := List.length_pos_of_mem hb
  have hmem := h.live_subset hb
  have hle := le_header hfit hmem
  refine ⟨⟨?_, ?_⟩, ?_, ?_⟩
  · rw [nextOf, ctxaFree_freeList hle (hbuf.block_lt hmem), asPtr_of_ne (hbuf.block_ne_zero hmem)]
  · rw [nextOf, ctxaFree_link hle]
    refine h.linked.congr fun c hc => nextOf_congr ?_
    exact h.free_other hfit hb (h.free_subset hc) (h.free_ne_live hc hb)
  · rw [ctxaFree_available hle, h.available, List.length_cons, Nat.mod_eq_of_lt (by omega)]
  · have hperm : (b :: free ++ live.erase b).Perm (free ++ b :: live.erase b) :=
      List.perm_middle.symm
    exact (hperm.trans ((List.perm_cons_erase hb).symm.append_left _)).trans h.blocks

/-- What the owner of a context writes into it lies neither in the header nor in another block. -/
theorem write_other {a x : ℕ} {bs : List UInt8} (h : PoolInv memory count m live free)
    (hb : b ∈ live) (hlo : b ≤ a) (hhi : a + bs.length ≤ b + sizeofCtxallocBlock)
    (hx : ctxaHeader memory count ≤ x ∨
      ∃ c ∈ poolBlocks memory count, c ≠ b ∧ c ≤ x ∧ x < c + sizeofCtxallocBlock) :
    m.store a bs x = m x := by
  have hmem := h.live_subset hb
  have hle := le_header hfit hmem
  obtain hheader | ⟨c, hc, hne, hcx, hxc⟩ := hx
  · exact Mem.store_of_outside (by omega)
  · have hapart := poolBlocks_apart hc hmem hne
    exact Mem.store_of_outside (by omega)

theorem written (h : PoolInv memory count m live free) (hb : b ∈ live) {a : ℕ} {bs : List UInt8}
    (hlo : b ≤ a) (hhi : a + bs.length ≤ b + sizeofCtxallocBlock) :
    PoolInv memory count (m.store a bs) live free := by
  have hheader : ∀ x, ctxaHeader memory count ≤ x → m.store a bs x = m x :=
    fun x hx => h.write_other hfit hb hlo hhi (Or.inl hx)
  refine ⟨?_, ?_, h.blocks⟩
  · rw [nextOf, Mem.loadWord_congr fun d _ => hheader _ (by omega)]
    refine h.linked.congr fun c hc => nextOf_congr fun d hd => ?_
    exact h.write_other hfit hb hlo hhi
      (Or.inr ⟨c, h.free_subset hc, h.free_ne_live hc hb, by omega, by omega⟩)
  · rw [← h.available]
    exact Mem.loadHalf_congr fun d _ => hheader _ (by omega)

end Fits

end PoolInv

/-! ## The law -/

theorem PoolReach.inv {memory count : ℕ} {m : Mem} {live : List ℕ} (hbuf : Buffer memory count)
    (h1 : 1 ≤ count) (hfit : count * sizeofCtxallocBlock + sizeofCtxalloc < 2 ^ 32)
    (h : PoolReach memory count m live) : ∃ free, PoolInv memory count m live free := by
  induction h with
  | init m => exact ⟨_, PoolInv.init hbuf hfit h1⟩
  | alloc _ ih =>
    obtain ⟨free, hinv⟩ := ih
    cases free with
    | nil =>
      rw [ctxaAlloc_of_null hinv.head_nil, if_pos rfl]
      exact ⟨[], hinv⟩
    | cons b free =>
      obtain ⟨hlist, hne⟩ := hinv.head
      rw [ctxaAlloc_ptr hlist, if_neg hne]
      exact ⟨free, hinv.alloc_cons hfit⟩
  | free _ hlive ih =>
    obtain ⟨free, hinv⟩ := ih
    exact ⟨_, hinv.freed hbuf hfit hlive⟩
  | write _ hlive hlo hhi ih =>
    obtain ⟨free, hinv⟩ := ih
    exact ⟨free, hinv.written hfit hlive hlo hhi⟩

theorem PoolInv.law {memory count : ℕ} {m : Mem} {live free : List ℕ}
    (h : PoolInv memory count m live free) : PoolLaw memory count m live := by
  have hlength := h.length_eq
  have hnodup := h.nodup
  refine ⟨?_, ?_, hnodup.of_append_right, fun _ => h.live_subset,
    free, h.linked, h.available, hlength⟩
  · cases free with
    | nil =>
      rw [ctxaAlloc_ptr h.head_nil]
      exact iff_of_true rfl (by simpa using hlength)
    | cons b free =>
      obtain ⟨hlist, hne⟩ := h.head
      rw [ctxaAlloc_ptr hlist]
      rw [List.length_cons] at hlength
      exact iff_of_false hne (by omega)
  · intro hptr
    cases free with
    | nil => exact absurd (ctxaAlloc_ptr h.head_nil) hptr
    | cons b free =>
      obtain ⟨hlist, hne⟩ := h.head
      rw [ctxaAlloc_ptr hlist]
      refine ⟨h.free_subset List.mem_cons_self, ?_, fun d hd => ?_⟩
      · exact fun hlive => List.disjoint_of_nodup_append hnodup List.mem_cons_self hlive
      · exact ctxaAlloc_of_inside hlist hne (Nat.le_add_right b d) (Nat.add_lt_add_left hd b)

/-- **The pool keeps its promise in every run**, if its footprint fits 32 bits. -/
theorem ctx_pool_law {memory count : ℕ} {m : Mem} {live : List ℕ} (hbuf : Buffer memory count)
    (h1 : 1 ≤ count) (hfit : count * sizeofCtxallocBlock + sizeofCtxalloc < 2 ^ 32)
    (h : PoolReach memory count m live) : PoolLaw memory count m live := by
  obtain ⟨free, hinv⟩ := h.inv hbuf h1 hfit
  exact hinv.law

/-- A pool of three: two contexts are taken and written to, and the first is free again. -/
def demoPool : Mem :=
  let alloc := ctxaHeader 4096 3
  let m := (ctxaInit (fun _ => 0xAA) 4096 3).1
  let m := (ctxaAlloc (ctxaAlloc m alloc).1 alloc).1
  let m := (m.store 4096 (List.replicate 80 0xFF)).store 4176 (List.replicate 80 0xEE)
  ctxaFree m alloc 4096

theorem ctx_pool_law_demo : PoolLaw 4096 3 demoPool [4176] ∧
    (ctxaAlloc demoPool (ctxaHeader 4096 3)).2 = 4096 := by
  have hfirst : (ctxaAlloc (ctxaInit (fun _ => 0xAA) 4096 3).1 (ctxaHeader 4096 3)).2 = 4096 := by
    decide +kernel
  have hsecond : (ctxaAlloc (ctxaAlloc (ctxaInit (fun _ => 0xAA) 4096 3).1 (ctxaHeader 4096 3)).1
      (ctxaHeader 4096 3)).2 = 4176 := by decide +kernel
  have hinit : PoolReach 4096 3 (ctxaInit (fun _ => 0xAA) 4096 3).1 [] := .init _
  have hone := hinit.alloc
  rw [hfirst, if_neg (by decide)] at hone
  have htwo := hone.alloc
  rw [hsecond, if_neg (by decide)] at htwo
  have hthree := @PoolReach.write _ _ _ _ 4096 4096 (List.replicate 80 0xFF) htwo (by decide)
    le_rfl le_rfl
  have hfour := @PoolReach.write _ _ _ _ 4176 4176 (List.replicate 80 0xEE) hthree (by decide)
    le_rfl le_rfl
  have hreach : PoolReach 4096 3 demoPool [4176] := hfour.free (by decide : 4096 ∈ [4176, 4096])
  exact ⟨ctx_pool_law ⟨by decide, by decide⟩ (by decide) (by decide) hreach, by decide +kernel⟩

/-- With a footprint that does not fit, the header lies in the first block. The first context that
is taken wipes it, and no other is to be had. -/
theorem footprint_wraps : Buffer 4096 53687092 ∧ ∃ m, PoolReach 4096 53687092 m [4096] ∧
    (ctxaAlloc m (ctxaHeader 4096 53687092)).2 = 0 ∧ ¬ PoolLaw 4096 53687092 m [4096] := by
  have hheader : ctxaHeader 4096 53687092 = 4096 + 64 := rfl
  have hinit : (ctxaInit (fun _ => 0) 4096 53687092).1.loadWord (4096 + 64) = 4096 := by
    rw [Mem.loadWord_congr fun d hd =>
      ctxaInit_of_outside (by norm_num) (by norm_num) fun i _ => ?_, hheader]
    · exact ctxaInitHeader_freeList (by norm_num)
    · simp only [blockAt, sizeofCtxallocBlock]
      omega
  have hwiped : (ctxaAlloc (ctxaInit (fun _ => 0) 4096 53687092).1 (4096 + 64)).1.loadWord
      (4096 + 64) = 0 := by
    refine Mem.loadWord_of_zero fun d hd => ?_
    refine ctxaAlloc_of_inside hinit (by norm_num) (by omega) ?_
    simp only [sizeofCtxallocBlock]
    omega
  have hstart : PoolReach 4096 53687092 (ctxaInit (fun _ => 0) 4096 53687092).1 [] := .init _
  have hreach := hstart.alloc
  rw [hheader, ctxaAlloc_ptr hinit, if_neg (by norm_num)] at hreach
  have hnull := ctxaAlloc_ptr hwiped
  rw [← hheader] at hnull hreach
  refine ⟨⟨by norm_num, by simp only [sizeofCtxallocBlock, sizeofCtxalloc]; norm_num⟩, _, hreach,
    hnull, fun hlaw => ?_⟩
  have hlength := hlaw.null_iff.mp hnull
  norm_num at hlength

/-! ## The handler's pool -/

/-- The index of a block. -/
def indexOf (memory p : ℕ) : Option ℕ :=
  (asPtr p).map fun p => (p - memory) / sizeofCtxallocBlock

/-- `deferred_error`. -/
def deferredErrorAt (b : UInt8) : DeferredErrorCode :=
  if b = 1 then .oom else if b = 2 then .dup else .noError

/-- `req_ctx_t` in memory. -/
def reqCtxAt (m : Mem) (a : ℕ) : ReqCtx where
  postBody := ⟨m.loadWord a, m.loadWord (a + 8)⟩
  blobSend := ⟨m.loadWord (a + 16), m.loadWord (a + 24)⟩
  expected := m.loadWord (a + 32)
  read := m.loadWord (a + 40)
  id := ⟨.ofNat (m.loadWord (a + 48)), .ofNat (m.loadWord (a + 56))⟩
  haveId := m (a + 64) ≠ 0
  deferredError := deferredErrorAt (m (a + 65))
  rateChecked := m (a + 66) ≠ 0

/-- The pool with indices for pointers, a block being a context exactly if it is in use. -/
def poolAt (memory count : ℕ) (m : Mem) (live : List ℕ) : Ctxalloc where
  freeList := indexOf memory (m.loadWord (ctxaHeader memory count))
  capacity := m.loadHalf (ctxaHeader memory count + 8)
  available := m.loadHalf (ctxaHeader memory count + 12)
  pool i :=
    if count ≤ i then .next none
    else if blockAt memory i ∈ live then .reqCtx (reqCtxAt m (blockAt memory i))
    else .next (indexOf memory (m.loadWord (blockAt memory i)))

theorem reqCtxAt_congr {m m' : Mem} {a : ℕ}
    (h : ∀ d < sizeofCtxallocBlock, m' (a + d) = m (a + d)) : reqCtxAt m' a = reqCtxAt m a := by
  have hsize : sizeofCtxallocBlock = 80 := rfl
  have hword : ∀ n, n + 8 ≤ 80 → m'.loadWord (a + n) = m.loadWord (a + n) := by
    intro n hn
    refine Mem.loadWord_congr fun d hd => ?_
    rw [Nat.add_assoc]
    exact h (n + d) (by omega)
  have hfirst := hword 0 (by norm_num)
  rw [Nat.add_zero] at hfirst
  simp only [reqCtxAt, hfirst, hword 8, hword 16, hword 24, hword 32, hword 40, hword 48, hword 56,
    h 64 (by omega), h 65 (by omega), h 66 (by omega), Nat.reduceAdd, Nat.reduceLeDiff]

theorem reqCtxAt_of_zero {m : Mem} {a : ℕ} (h : ∀ d < sizeofCtxallocBlock, m (a + d) = 0) :
    reqCtxAt m a = ReqCtx.zero := by
  have hword : ∀ n, Mem.loadWord (fun _ => 0) n = 0 := fun n => Mem.loadWord_of_zero fun _ _ => rfl
  rw [reqCtxAt_congr (m := fun _ => 0) h]
  simp only [reqCtxAt, hword]
  rfl

theorem indexOf_zero {memory : ℕ} : indexOf memory 0 = none := rfl

theorem Buffer.indexOf_blockAt {memory count i : ℕ} (h : Buffer memory count) :
    indexOf memory (blockAt memory i) = some i := by
  have hne : blockAt memory i ≠ 0 := by
    have hnull := h.ne_null
    unfold blockAt
    omega
  rw [indexOf, asPtr_of_ne hne, Option.map_some, blockAt, Nat.add_sub_cancel_left,
    Nat.mul_div_cancel _ (by decide)]

theorem ctxalloc_ext {a a' : Ctxalloc} (hlist : a.freeList = a'.freeList)
    (hcapacity : a.capacity = a'.capacity) (havailable : a.available = a'.available)
    (hpool : ∀ i, a.pool i = a'.pool i) : a = a' := by
  cases a
  cases a'
  simp only [Ctxalloc.mk.injEq]
  exact ⟨hlist, hcapacity, havailable, funext hpool⟩

section Tagged

variable {memory count i : ℕ} {m m' : Mem} {live live' free : List ℕ}

theorem ctxaRead_poolAt (hi : i < count) (hlive : blockAt memory i ∈ live) :
    ctxaRead (poolAt memory count m live) i = reqCtxAt m (blockAt memory i) := by
  simp only [ctxaRead, poolAt, if_neg (Nat.not_le.mpr hi), if_pos hlive]

theorem poolAt_freeList : (poolAt memory count m live).freeList =
    indexOf memory (m.loadWord (ctxaHeader memory count)) := by
  simp only [poolAt]

theorem poolAt_capacity : (poolAt memory count m live).capacity =
    m.loadHalf (ctxaHeader memory count + 8) := by
  simp only [poolAt]

theorem poolAt_available : (poolAt memory count m live).available =
    m.loadHalf (ctxaHeader memory count + 12) := by
  simp only [poolAt]

theorem poolAt_pool_of_frame (hlive : blockAt memory i ∈ live' ↔ blockAt memory i ∈ live)
    (hframe : i < count → ∀ d < sizeofCtxallocBlock,
      m' (blockAt memory i + d) = m (blockAt memory i + d)) :
    (poolAt memory count m' live').pool i = (poolAt memory count m live).pool i := by
  have hsize : sizeofCtxallocBlock = 80 := rfl
  simp only [poolAt, hlive]
  split_ifs with hi
  · rfl
  · rw [reqCtxAt_congr (hframe (by omega))]
  · rw [Mem.loadWord_congr fun d hd => hframe (by omega) d (by omega)]

variable (hbuf : Buffer memory count) (hfit : count * sizeofCtxallocBlock + sizeofCtxalloc < 2 ^ 32)

include hfit

include hbuf in
theorem poolAt_init (h1 : 1 ≤ count) :
    poolAt memory count (ctxaInit m memory count).1 [] = Adnihilum.ctxaInit count := by
  have hcount := count_lt hfit
  have hinv := PoolInv.init (m := m) hbuf hfit h1
  refine ctxalloc_ext ?_ ?_ ?_ fun i => ?_
  · have hblocks : poolBlocks memory count =
        blockAt memory 0 :: (List.range' 1 (count - 1)).map (blockAt memory) := by
      obtain ⟨n, rfl⟩ : ∃ n, count = n + 1 := ⟨count - 1, by omega⟩
      rw [poolBlocks, List.range_eq_range', List.range'_succ, List.map_cons, Nat.add_sub_cancel]
    rw [hblocks] at hinv
    rw [poolAt_freeList, hinv.head.1, hbuf.indexOf_blockAt, Adnihilum.ctxaInit]
  · have hstored : (ctxaInitHeader m (ctxaHeader memory count) memory count).loadHalf
        (ctxaHeader memory count + 8) = count := ctxaInitHeader_capacity hcount
    rw [poolAt_capacity, Adnihilum.ctxaInit]
    refine Eq.trans (Mem.loadHalf_congr fun d hd => ?_) hstored
    refine ctxaInit_of_outside h1 hcount fun i hi => ?_
    have hsize : sizeofCtxallocBlock = 80 := rfl
    have hle := le_header hfit (blockAt_mem memory hi)
    omega
  · rw [poolAt_available, hinv.available, length_poolBlocks, Adnihilum.ctxaInit]
  · simp only [poolAt, Adnihilum.ctxaInit]
    by_cases hi : count ≤ i
    · rw [if_pos hi, if_neg (by omega)]
    · rw [if_neg hi, if_neg List.not_mem_nil,
        ctxaInit_link h1 hcount hbuf.end_lt (Nat.not_le.mp hi)]
      by_cases hlast : i + 1 < count
      · rw [if_pos hlast, if_pos (by omega), hbuf.indexOf_blockAt]
      · rw [if_neg hlast, if_neg (by omega), indexOf_zero]

include hbuf in
theorem poolAt_alloc (h : PoolInv memory count m live free) :
    poolAt memory count (ctxaAlloc m (ctxaHeader memory count)).1
        (if (ctxaAlloc m (ctxaHeader memory count)).2 = 0 then live
        else (ctxaAlloc m (ctxaHeader memory count)).2 :: live) =
      (Adnihilum.ctxaAlloc (poolAt memory count m live)).1 ∧
    indexOf memory (ctxaAlloc m (ctxaHeader memory count)).2 =
      (Adnihilum.ctxaAlloc (poolAt memory count m live)).2 := by
  cases free with
  | nil =>
    have hnull := h.head_nil
    have hnone : (poolAt memory count m live).freeList = none := by
      rw [poolAt_freeList, hnull, indexOf_zero]
    rw [ctxaAlloc_of_null hnull, if_pos rfl, Adnihilum.ctxaAlloc, hnone]
    exact ⟨rfl, rfl⟩
  | cons b free =>
    obtain ⟨hlist, hne⟩ := h.head
    have hmem := h.free_subset List.mem_cons_self
    have hunused : b ∉ live := fun hb => h.free_ne_live List.mem_cons_self hb rfl
    have hinv := h.alloc_cons hfit
    have hle := le_header hfit hmem
    obtain ⟨i, hi, rfl⟩ := mem_poolBlocks.mp hmem
    have hfirst : (poolAt memory count m live).freeList = some i := by
      rw [poolAt_freeList, hlist, hbuf.indexOf_blockAt]
    have hlink : ((poolAt memory count m live).pool i).link =
        indexOf memory (m.loadWord (blockAt memory i)) := by
      simp only [poolAt, if_neg (Nat.not_le.mpr hi), if_neg hunused, CtxallocBlock.link]
    rw [ctxaAlloc_ptr hlist, if_neg hne, Adnihilum.ctxaAlloc, hfirst]
    dsimp only
    refine ⟨ctxalloc_ext ?_ ?_ ?_ fun j => ?_, hbuf.indexOf_blockAt⟩
    · rw [poolAt_freeList, ctxaAlloc_freeList hlist hne hle, hlink]
    · rw [poolAt_capacity]
      refine Mem.loadHalf_congr fun d hd => ?_
      exact ctxaAlloc_of_outside hlist hne (by omega) (by omega) (by omega)
    · rw [poolAt_available, hinv.available, poolAt_available, h.available, List.length_cons,
        Nat.add_sub_cancel]
    · dsimp only
      by_cases hj : j = i
      · rw [hj, Function.update_self]
        simp only [poolAt, if_neg (Nat.not_le.mpr hi), if_pos List.mem_cons_self]
        rw [reqCtxAt_of_zero fun d hd => ctxaAlloc_of_inside hlist hne (by omega) (by omega)]
      · have hother := (blockAt_injective memory).ne hj
        rw [Function.update_of_ne hj]
        refine poolAt_pool_of_frame ?_ fun hjc => ?_
        · rw [List.mem_cons, or_iff_right hother]
        · exact h.alloc_other hfit (blockAt_mem memory hjc) hother

include hbuf in
theorem poolAt_free (h : PoolInv memory count m live free) (hi : i < count)
    (hlive : blockAt memory i ∈ live) :
    poolAt memory count (ctxaFree m (ctxaHeader memory count) (blockAt memory i))
        (live.erase (blockAt memory i)) = Adnihilum.ctxaFree (poolAt memory count m live) i := by
  have hsize : sizeofCtxallocBlock = 80 := rfl
  have hinv := h.freed hbuf hfit hlive
  have hle := le_header hfit (h.live_subset hlive)
  rw [Adnihilum.ctxaFree]
  refine ctxalloc_ext ?_ ?_ ?_ fun j => ?_
  · rw [poolAt_freeList, hinv.head.1, hbuf.indexOf_blockAt]
  · dsimp only
    rw [poolAt_capacity, poolAt_capacity]
    refine Mem.loadHalf_congr fun d hd => ?_
    exact ctxaFree_of_outside hle (by omega) (by omega) (by omega)
  · dsimp only
    rw [poolAt_available, hinv.available, poolAt_available, h.available, List.length_cons]
  · dsimp only
    by_cases hj : j = i
    · have hfreed : blockAt memory i ∉ live.erase (blockAt memory i) :=
        h.nodup.of_append_right.not_mem_erase
      rw [hj, Function.update_self, poolAt_freeList]
      simp only [poolAt, if_neg (Nat.not_le.mpr hi), if_neg hfreed]
      rw [ctxaFree_link hle]
    · have hother := (blockAt_injective memory).ne hj
      rw [Function.update_of_ne hj]
      refine poolAt_pool_of_frame (List.mem_erase_of_ne hother) fun hjc => ?_
      exact h.free_other hfit hlive (blockAt_mem memory hjc) hother

theorem poolAt_write (h : PoolInv memory count m live free) (hi : i < count)
    (hlive : blockAt memory i ∈ live) {a : ℕ} {bs : List UInt8} (hlo : blockAt memory i ≤ a)
    (hhi : a + bs.length ≤ blockAt memory i + sizeofCtxallocBlock) :
    poolAt memory count (m.store a bs) live =
      ctxaWrite (poolAt memory count m live) i (reqCtxAt (m.store a bs) (blockAt memory i)) := by
  have hheader : ∀ x, ctxaHeader memory count ≤ x → m.store a bs x = m x :=
    fun x hx => h.write_other hfit hlive hlo hhi (Or.inl hx)
  rw [ctxaWrite]
  refine ctxalloc_ext ?_ ?_ ?_ fun j => ?_
  · dsimp only
    rw [poolAt_freeList, poolAt_freeList, Mem.loadWord_congr fun d _ => hheader _ (by omega)]
  · dsimp only
    rw [poolAt_capacity, poolAt_capacity, Mem.loadHalf_congr fun d _ => hheader _ (by omega)]
  · dsimp only
    rw [poolAt_available, poolAt_available, Mem.loadHalf_congr fun d _ => hheader _ (by omega)]
  · dsimp only
    by_cases hj : j = i
    · rw [hj, Function.update_self]
      simp only [poolAt, if_neg (Nat.not_le.mpr hi), if_pos hlive]
    · have hother := (blockAt_injective memory).ne hj
      rw [Function.update_of_ne hj]
      refine poolAt_pool_of_frame Iff.rfl fun hjc d hd => ?_
      exact h.write_other hfit hlive hlo hhi
        (Or.inr ⟨_, blockAt_mem memory hjc, hother, by omega, by omega⟩)

end Tagged

end Adnihilum.CtxPool
