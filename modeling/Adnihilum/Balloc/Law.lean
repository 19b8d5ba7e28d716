import Adnihilum.Balloc.Model

/-!
# The bucket allocator keeps its free lists

* Geometry: `IsItem memory i a` says that `a` is an item of bucket `i`; different items do not
  overlap (`item_disjoint`) and an address belongs to one bucket (`item_bucket_unique`).
* `bindex_eq`, `bindex_le_iff`: the size class of a request, **`bindex_isLeast`**; `bindex_lt`,
  `le_itemSize`: it exists and has room.
* `BallocRep memory ba m free`: the headers and the links in memory represent the free lists `free`.
* **`binit_rep`**, `balloc_nil`, `balloc_cons`, `bfree_rep`: the three operations on free lists.
-/

namespace Adnihilum

open FlatMemory

/-! ## Geometry -/

theorem bucketsCount_eq : bucketsCount = 11 := rfl

theorem blobSizeMax_eq : blobSizeMax = 131072 := rfl

theorem bbucketCapacity_eq (i : ℕ) : bbucketCapacity i = 2 ^ (17 - i) := Nat.one_shiftLeft _

theorem bbucketItemSizeMax_eq (i : ℕ) : bbucketItemSizeMax i = 2 ^ (7 + i) := Nat.one_shiftLeft _

theorem bbucketCapacity_pos (i : ℕ) : 0 < bbucketCapacity i := by
  rw [bbucketCapacity_eq]; positivity

theorem eight_le_itemSize (i : ℕ) : 8 ≤ bbucketItemSizeMax i := by
  rw [bbucketItemSizeMax_eq, pow_add]
  have : 0 < 2 ^ i := by positivity
  omega

theorem capacity_mul_itemSize {i : ℕ} (hi : i < bucketsCount) :
    bbucketCapacity i * bbucketItemSizeMax i = 2 ^ 24 := by
  rw [bucketsCount_eq] at hi
  rw [bbucketCapacity_eq, bbucketItemSizeMax_eq, ← pow_add, show 17 - i + (7 + i) = 24 by omega]

/-- Item `j` of bucket `i`, for an allocator whose memory starts at `memory`. -/
def itemPtr (memory i j : ℕ) : ℕ := memory + i * 2 ^ 24 + j * bbucketItemSizeMax i

/-- `a` is an item of bucket `i`. -/
def IsItem (memory i a : ℕ) : Prop := ∃ j < bbucketCapacity i, a = itemPtr memory i j

/-- Memory as `posix_memalign` returns it: not null, and inside the address space. -/
structure Arena (memory : ℕ) : Prop where
  pos : 0 < memory
  top : memory + bfootprint ≤ 2 ^ 64

theorem bfootprint_eq : bfootprint = 11 * 2 ^ 24 + 352 := by decide

section Geometry

variable {memory i j a b : ℕ}

theorem item_bounds (hi : i < bucketsCount) (h : IsItem memory i a) :
    memory + i * 2 ^ 24 ≤ a ∧ a + bbucketItemSizeMax i ≤ memory + (i + 1) * 2 ^ 24 := by
  obtain ⟨x, hx, rfl⟩ := h
  have h1 : (x + 1) * bbucketItemSizeMax i ≤ bbucketCapacity i * bbucketItemSizeMax i :=
    Nat.mul_le_mul_right _ hx
  rw [capacity_mul_itemSize hi, Nat.add_mul, Nat.one_mul] at h1
  unfold itemPtr
  constructor <;> omega

theorem item_ne_zero (hA : Arena memory) (hi : i < bucketsCount) (h : IsItem memory i a) : a ≠ 0 := by
  have := (item_bounds hi h).1
  have := hA.pos
  omega

theorem item_top (hA : Arena memory) (hi : i < bucketsCount) (h : IsItem memory i a) :
    a + bbucketItemSizeMax i ≤ 2 ^ 64 := by
  have h1 := (item_bounds hi h).2
  have h2 := hA.top
  rw [bfootprint_eq] at h2
  rw [bucketsCount_eq] at hi
  omega

theorem item_lt (hA : Arena memory) (hi : i < bucketsCount) (h : IsItem memory i a) : a < 2 ^ 64 := by
  have := item_top hA hi h
  have := eight_le_itemSize i
  omega

/-- **Different items do not overlap.** -/
theorem item_disjoint (hi : i < bucketsCount) (hj : j < bucketsCount) (ha : IsItem memory i a)
    (hb : IsItem memory j b) (hab : a ≠ b) :
    a + bbucketItemSizeMax i ≤ b ∨ b + bbucketItemSizeMax j ≤ a := by
  have h1 := item_bounds hi ha
  have h2 := item_bounds hj hb
  rcases Nat.lt_trichotomy i j with h | rfl | h
  · left; omega
  · obtain ⟨x, _, rfl⟩ := ha
    obtain ⟨y, _, rfl⟩ := hb
    unfold itemPtr at hab ⊢
    rcases Nat.lt_trichotomy x y with h | rfl | h
    · have := Nat.mul_le_mul_right (bbucketItemSizeMax i) (show x + 1 ≤ y by omega)
      rw [Nat.add_mul, Nat.one_mul] at this
      left; omega
    · exact absurd rfl hab
    · have := Nat.mul_le_mul_right (bbucketItemSizeMax i) (show y + 1 ≤ x by omega)
      rw [Nat.add_mul, Nat.one_mul] at this
      right; omega
  · right; omega

theorem item_bucket_unique (hi : i < bucketsCount) (hj : j < bucketsCount) (ha : IsItem memory i a)
    (hb : IsItem memory j a) : i = j := by
  have h1 := item_bounds hi ha
  have h2 := item_bounds hj hb
  have h3 := eight_le_itemSize i
  have h4 := eight_le_itemSize j
  omega

theorem itemPtr_inj {x y : ℕ} (h : itemPtr memory i x = itemPtr memory i y) : x = y := by
  have h8 := eight_le_itemSize i
  unfold itemPtr at h
  exact Nat.eq_of_mul_eq_mul_right (show 0 < bbucketItemSizeMax i by omega) (by omega)

theorem setOf_isItem :
    {a | IsItem memory i a} = itemPtr memory i '' (Finset.range (bbucketCapacity i) : Set ℕ) := by
  ext a
  simp [IsItem, eq_comm]

theorem finite_isItem : {a | IsItem memory i a}.Finite := by
  rw [setOf_isItem]
  exact (Finset.finite_toSet _).image _

theorem ncard_isItem : {a | IsItem memory i a}.ncard = bbucketCapacity i := by
  rw [setOf_isItem, Set.InjOn.ncard_image fun x _ y _ hxy => itemPtr_inj hxy, Set.ncard_coe_finset,
    Finset.card_range]

end Geometry

/-! ## Size classes -/

theorem and_allOnes {x : ℕ} (h : x < 2 ^ 64) : x &&& (2 ^ 64 - 1) = x := by
  rw [Nat.and_two_pow_sub_one_eq_mod, Nat.mod_eq_of_lt h]

/-- `bindex` is a truncated subtraction: the sign mask turns a negative index into `0`. -/
theorem bindex_eq {size : ℕ} (h2 : 2 ≤ size) (h : size < 2 ^ 64) :
    bindex size = Nat.log2 (size - 1) - 6 := by
  have hsub : subU64 size 1 = size - 1 := by
    unfold subU64
    rw [show size + 2 ^ 64 - 1 = size - 1 + 2 ^ 64 by omega, Nat.add_mod_right,
      Nat.mod_eq_of_lt (by omega)]
  have hlog : Nat.log2 (size - 1) < 64 := (Nat.log2_lt (by omega)).mpr (by omega)
  unfold bindex
  rw [hsub, ilog2U64_eq (by omega) (by omega)]
  simp only [blobAllocLogOfSizeMin]
  generalize Nat.log2 (size - 1) = x at hlog ⊢
  rcases Nat.lt_or_ge x 6 with hx | hx
  · have hindex : (subU64 x 7 + 1) % 2 ^ 64 = 2 ^ 64 + x - 6 := by unfold subU64; omega
    have hneg : (2 ^ 64 + x - 6) >>> 63 = 1 := by rw [Nat.shiftRight_eq_div_pow]; omega
    rw [hindex, hneg, show subU64 1 1 = 0 from rfl, Nat.and_zero]
    omega
  · have hindex : (subU64 x 7 + 1) % 2 ^ 64 = x - 6 := by unfold subU64; omega
    have hneg : (x - 6) >>> 63 = 0 := by rw [Nat.shiftRight_eq_div_pow]; omega
    rw [hindex, hneg, show subU64 0 1 = 2 ^ 64 - 1 from rfl, and_allOnes (by omega)]

section Classes

variable {size : ℕ} (h2 : 2 ≤ size)
include h2

theorem bindex_le_iff (h : size < 2 ^ 64) {i : ℕ} :
    bindex size ≤ i ↔ size ≤ bbucketItemSizeMax i := by
  have hlog : Nat.log2 (size - 1) < 7 + i ↔ size - 1 < 2 ^ (7 + i) := Nat.log2_lt (by omega)
  rw [bindex_eq h2 h, bbucketItemSizeMax_eq]
  omega

theorem bindex_lt (hmax : size ≤ blobSizeMax) : bindex size < bucketsCount := by
  have h : size < 2 ^ 64 := lt_of_le_of_lt hmax (by decide)
  exact Nat.lt_succ_of_le ((bindex_le_iff h2 h).mpr hmax)

theorem le_itemSize (hmax : size ≤ blobSizeMax) : size ≤ bbucketItemSizeMax (bindex size) :=
  (bindex_le_iff h2 (lt_of_le_of_lt hmax (by decide))).mp le_rfl

/-- **`bindex` selects the least class that has room**, for every 64-bit size: bigger requests get
no smaller class, and the class exists exactly up to `BLOB_SIZE_MAX`. -/
theorem bindex_isLeast (h : size < 2 ^ 64) :
    IsLeast {i | size ≤ 2 ^ (7 + i)} (bindex size) ∧
    (∀ size', size ≤ size' → size' < 2 ^ 64 → bindex size ≤ bindex size') ∧
    (bindex size < bucketsCount ↔ size ≤ blobSizeMax) ∧
    size ≤ bbucketItemSizeMax (bindex size) ∧
    ∀ i, i + 1 = bindex size → bbucketItemSizeMax i < size := by
  refine ⟨⟨?_, fun i hi => ?_⟩, fun size' hle h' => ?_, ?_, ?_, fun i hi => ?_⟩
  · show size ≤ 2 ^ (7 + bindex size)
    rw [← bbucketItemSizeMax_eq, ← bindex_le_iff h2 h]
  · have hroom : size ≤ 2 ^ (7 + i) := hi
    rwa [← bbucketItemSizeMax_eq, ← bindex_le_iff h2 h] at hroom
  · rw [bindex_le_iff h2 h]
    exact hle.trans ((bindex_le_iff (h2.trans hle) h').mp le_rfl)
  · exact Nat.lt_succ_iff.trans (bindex_le_iff h2 h)
  · exact (bindex_le_iff h2 h).mp le_rfl
  · rw [← not_le, ← bindex_le_iff h2 h]
    omega

end Classes

/-- The sizes around a power of two, and the greatest of all. -/
theorem bindex_isLeast_demo :
    IsLeast {i | 129 ≤ 2 ^ (7 + i)} (bindex 129) ∧ bbucketItemSizeMax 0 < 129 ∧
      ¬ bindex (2 ^ 64 - 1) < bucketsCount := by
  obtain ⟨hleast, -, -, -, hnext⟩ := bindex_isLeast (show 2 ≤ 129 by norm_num) (by norm_num)
  obtain ⟨-, -, hmax, -, -⟩ := bindex_isLeast (show 2 ≤ 2 ^ 64 - 1 by norm_num) (by norm_num)
  refine ⟨hleast, hnext 0 (by decide), fun hlt => ?_⟩
  exact absurd (hmax.mp hlt) (by decide)

/-! ## Free lists -/

/-- The link kept in the first eight bytes of a free item. -/
def nextPtr (m : Mem) (a : ℕ) : Option ℕ := asPtr (m.loadWord a)

/-- The headers of `ba` and the links in `m` represent the free lists `free`. -/
structure BallocRep (memory : ℕ) (ba : Balloc) (m : Mem) (free : ℕ → List ℕ) : Prop where
  linked : ∀ i < bucketsCount, Linked (nextPtr m) (asPtr (ba.buckets i).nextFree) (free i)
  count : ∀ i < bucketsCount, (ba.buckets i).free = (free i).length
  item : ∀ i < bucketsCount, ∀ a ∈ free i, IsItem memory i a

section Rep

variable {memory : ℕ} {ba : Balloc} {m m' : Mem} {free : ℕ → List ℕ}

theorem BallocRep.nodup (h : BallocRep memory ba m free) {i : ℕ} (hi : i < bucketsCount) :
    (free i).Nodup := (h.linked i hi).nodup

/-- Writes that spare the links of the free items do not touch the free lists. -/
theorem BallocRep.frame (h : BallocRep memory ba m free)
    (hm : ∀ i < bucketsCount, ∀ a ∈ free i, ∀ d < 8, m' (a + d) = m (a + d)) :
    BallocRep memory ba m' free where
  linked i hi := (h.linked i hi).congr fun a ha => by
    rw [nextPtr, nextPtr, Mem.loadWord_congr (hm i hi a ha)]
  count := h.count
  item := h.item

theorem BallocRep.frame_item (h : BallocRep memory ba m free) {i a : ℕ} (hi : i < bucketsCount)
    (ha : IsItem memory i a) (hfree : ∀ j < bucketsCount, a ∉ free j)
    (hm : ∀ x, x < a ∨ a + bbucketItemSizeMax i ≤ x → m' x = m x) :
    BallocRep memory ba m' free := by
  refine h.frame fun j hj b hb d hd => hm _ ?_
  have hne : a ≠ b := fun e => hfree j hj (e ▸ hb)
  have h8 := eight_le_itemSize j
  rcases item_disjoint hi hj ha (h.item j hj b hb) hne with h1 | h1 <;> omega

theorem balloc_nil (h : BallocRep memory ba m free) {size : ℕ} (hi : bindex size < bucketsCount)
    (hnil : free (bindex size) = []) : balloc ba m size = (ba, Blk.zero) := by
  have hc := h.count _ hi
  rw [hnil, List.length_nil] at hc
  rw [balloc, if_neg (by rw [hc]; simp)]

theorem balloc_cons (h : BallocRep memory ba m free) {size a : ℕ} {l : List ℕ}
    (hi : bindex size < bucketsCount) (hcons : free (bindex size) = a :: l) :
    ∃ ba', balloc ba m size = (ba', ⟨a, size⟩) ∧
      BallocRep memory ba' m (Function.update free (bindex size) l) := by
  have hc := h.count _ hi
  have hl := h.linked _ hi
  rw [hcons] at hc hl
  obtain ⟨hhead, htail⟩ := hl
  obtain ⟨hnext, _⟩ := asPtr_eq_some.mp hhead
  refine ⟨_, by rw [balloc, if_pos (by rw [hc]; simp), hnext], ?_, ?_, ?_⟩
  · intro i hi'
    by_cases he : i = bindex size
    · subst he
      simpa [nextPtr] using htail
    · simpa [he] using h.linked i hi'
  · intro i hi'
    by_cases he : i = bindex size
    · subst he
      simp [hc]
    · simpa [he] using h.count i hi'
  · intro i hi' b hb
    by_cases he : i = bindex size
    · subst he
      rw [Function.update_self] at hb
      exact h.item _ hi b (by rw [hcons]; exact List.mem_cons_of_mem _ hb)
    · rw [Function.update_of_ne he] at hb
      exact h.item i hi' b hb

theorem BallocRep.nextFree_eq (h : BallocRep memory ba m free) {i : ℕ} (hi : i < bucketsCount) :
    (ba.buckets i).nextFree = (free i).headD 0 := by
  have hl := h.linked i hi
  cases hf : free i with
  | nil =>
    rw [hf] at hl
    by_contra h0
    rw [asPtr_of_ne h0] at hl
    cases hl
  | cons a l =>
    rw [hf] at hl
    exact (asPtr_eq_some.mp hl.1).1

theorem head_lt (hA : Arena memory) (h : BallocRep memory ba m free) {i : ℕ}
    (hi : i < bucketsCount) : (ba.buckets i).nextFree < 2 ^ 64 := by
  rw [h.nextFree_eq hi]
  cases hf : free i with
  | nil => norm_num
  | cons a l => exact item_lt hA hi (h.item i hi a (by rw [hf]; exact List.mem_cons_self))

/-- **`bfree` puts an item that is not free back in front of its bucket's list.** -/
theorem bfree_rep (hA : Arena memory) (h : BallocRep memory ba m free) {blk : Blk}
    (hi : bindex blk.size < bucketsCount) (ha : IsItem memory (bindex blk.size) blk.data)
    (hfree : ∀ j < bucketsCount, blk.data ∉ free j) :
    BallocRep memory (bfree ba m blk).1 (bfree ba m blk).2
      (Function.update free (bindex blk.size) (blk.data :: free (bindex blk.size))) := by
  have h8 := eight_le_itemSize (bindex blk.size)
  have hframe : BallocRep memory ba (bfree ba m blk).2 free :=
    h.frame_item hi ha hfree fun x hx => Mem.storeWord_of_outside (by omega)
  have hlink : nextPtr (bfree ba m blk).2 blk.data =
      asPtr (ba.buckets (bindex blk.size)).nextFree := by
    rw [nextPtr, bfree, Mem.loadWord_storeWord (head_lt hA h hi)]
  refine ⟨?_, ?_, ?_⟩
  · intro i hi'
    by_cases he : i = bindex blk.size
    · subst he
      simp only [bfree, Function.update_self]
      rw [asPtr_of_ne (item_ne_zero hA hi ha)]
      exact (hframe.linked _ hi).push hlink fun _ _ => rfl
    · simpa [bfree, he] using hframe.linked i hi'
  · intro i hi'
    by_cases he : i = bindex blk.size
    · subst he
      simp [bfree, h.count _ hi]
    · simpa [bfree, he] using h.count i hi'
  · intro i hi' b hb
    by_cases he : i = bindex blk.size
    · subst he
      rw [Function.update_self] at hb
      rcases List.mem_cons.mp hb with rfl | hb
      · exact ha
      · exact h.item _ hi b hb
    · rw [Function.update_of_ne he] at hb
      exact h.item i hi' b hb

end Rep

/-! ## Initialisation -/

/-- The items of bucket `i` in the order `binit` leaves them, the last one first. -/
def initialFree (memory i : ℕ) : List ℕ :=
  ((List.range (bbucketCapacity i)).map (itemPtr memory i)).reverse

section Items

variable {m : Mem} {ptr itemSize : ℕ}

theorem binitItems_succ (c : ℕ) : binitItems m ptr itemSize (c + 1) =
    ((binitItems m ptr itemSize c).1.storeWord (ptr + c * itemSize) (binitItems m ptr itemSize c).2,
      ptr + c * itemSize) := by
  unfold binitItems
  rw [List.range_succ, List.foldl_append]
  rfl

theorem binitItems_last (c : ℕ) :
    (binitItems m ptr itemSize c).2 = if c = 0 then 0 else ptr + (c - 1) * itemSize := by
  cases c with
  | zero => rfl
  | succ c => rw [binitItems_succ]; simp

theorem binitItems_outside (c : ℕ) {x : ℕ}
    (hx : ∀ j < c, x < ptr + j * itemSize ∨ ptr + j * itemSize + 8 ≤ x) :
    (binitItems m ptr itemSize c).1 x = m x := by
  induction c with
  | zero => rfl
  | succ c ih =>
    rw [binitItems_succ]
    exact (Mem.storeWord_of_outside (hx c (Nat.lt_succ_self c))).trans
      (ih fun j hj => hx j (Nat.lt_succ_of_lt hj))

theorem binitItems_linked (hp : ptr ≠ 0) (h8 : 8 ≤ itemSize) (c : ℕ)
    (htop : ptr + c * itemSize ≤ 2 ^ 64) :
    Linked (nextPtr (binitItems m ptr itemSize c).1) (asPtr (binitItems m ptr itemSize c).2)
      ((List.range c).map fun j => ptr + j * itemSize).reverse := by
  induction c with
  | zero => rfl
  | succ c ih =>
    rw [Nat.add_mul, Nat.one_mul] at htop
    have hlast : (binitItems m ptr itemSize c).2 < 2 ^ 64 := by
      rw [binitItems_last]
      split_ifs with h0
      · norm_num
      · have := Nat.mul_le_mul_right itemSize (show c - 1 ≤ c by omega)
        omega
    rw [List.range_succ, List.map_append, List.reverse_append, List.map_cons, List.map_nil,
      List.reverse_singleton, List.singleton_append, binitItems_succ, asPtr_of_ne (by omega)]
    refine (ih (by omega)).push ?_ fun b hb => ?_
    · rw [nextPtr, Mem.loadWord_storeWord hlast]
    · obtain ⟨j, hj, rfl⟩ := List.mem_map.mp (List.mem_reverse.mp hb)
      rw [List.mem_range] at hj
      have := Nat.mul_le_mul_right itemSize (show j + 1 ≤ c by omega)
      rw [Nat.add_mul, Nat.one_mul] at this
      rw [nextPtr, nextPtr, Mem.loadWord_congr fun d hd => Mem.storeWord_of_outside (by omega)]

end Items

section Buckets

variable {m : Mem} {memory : ℕ}

/-- The state of `binit` after `c` buckets. -/
def binitPrefix (m : Mem) (memory c : ℕ) : Mem × ℕ × (ℕ → Bucket) :=
  (List.range c).foldl binitBucket (m, memory, fun _ => ⟨0, Blk.zero, 0⟩)

theorem binitPrefix_succ (c : ℕ) :
    binitPrefix m memory (c + 1) = binitBucket (binitPrefix m memory c) c := by
  unfold binitPrefix
  rw [List.range_succ, List.foldl_append]
  rfl

theorem binitPrefix_ptr (c : ℕ) (hc : c ≤ bucketsCount) :
    (binitPrefix m memory c).2.1 = memory + c * 2 ^ 24 := by
  induction c with
  | zero => simp [binitPrefix]
  | succ c ih =>
    have := capacity_mul_itemSize (i := c) (by omega)
    rw [binitPrefix_succ]
    simp only [binitBucket]
    rw [ih (by omega), Nat.mul_comm (bbucketItemSizeMax c)]
    omega

theorem binitPrefix_mem_succ {c : ℕ} (hc : c < bucketsCount) :
    (binitPrefix m memory (c + 1)).1 = (binitItems (binitPrefix m memory c).1
      (memory + c * 2 ^ 24) (bbucketItemSizeMax c) (bbucketCapacity c)).1 := by
  rw [binitPrefix_succ]
  simp only [binitBucket]
  rw [binitPrefix_ptr c hc.le]

theorem binitPrefix_outside {c : ℕ} (hc : c ≤ bucketsCount) {x : ℕ}
    (hx : ∀ i < c, ∀ a, IsItem memory i a → x < a ∨ a + 8 ≤ x) :
    (binitPrefix m memory c).1 x = m x := by
  induction c with
  | zero => rfl
  | succ c ih =>
    rw [binitPrefix_mem_succ (by omega), binitItems_outside]
    · exact ih (by omega) fun i hi => hx i (by omega)
    · intro j hj
      exact hx c (Nat.lt_succ_self c) _ ⟨j, hj, rfl⟩

theorem binitPrefix_linked (hA : Arena memory) (c : ℕ) (hc : c ≤ bucketsCount) :
    ∀ i < c, Linked (nextPtr (binitPrefix m memory c).1)
        (asPtr ((binitPrefix m memory c).2.2 i).nextFree) (initialFree memory i) ∧
      ((binitPrefix m memory c).2.2 i).free = bbucketCapacity i := by
  induction c with
  | zero => intro i hi; omega
  | succ c ih =>
    intro i hi
    have hcap := capacity_mul_itemSize (i := c) (by omega)
    have hpos := hA.pos
    have htop := hA.top
    rw [bfootprint_eq] at htop
    have hc11 : c < 11 := by rw [bucketsCount_eq] at hc; omega
    by_cases hic : i = c
    · subst hic
      have hl := @binitItems_linked (binitPrefix m memory i).1 (memory + i * 2 ^ 24) _
        (by omega) (eight_le_itemSize i) (bbucketCapacity i) (by omega)
      rw [binitPrefix_mem_succ (by omega), binitPrefix_succ]
      simp only [binitBucket, Function.update_self]
      rw [binitPrefix_ptr i (by omega)]
      exact ⟨hl, trivial⟩
    · obtain ⟨h1, h2⟩ := ih (by omega) i (by omega)
      rw [binitPrefix_mem_succ (by omega), binitPrefix_succ]
      simp only [binitBucket, Function.update_of_ne hic]
      refine ⟨h1.congr fun a ha => ?_, h2⟩
      obtain ⟨x, hx, rfl⟩ := List.mem_map.mp (List.mem_reverse.mp ha)
      have hb := item_bounds (by omega) (⟨x, List.mem_range.mp hx, rfl⟩ :
        IsItem memory i (itemPtr memory i x))
      have h8 := eight_le_itemSize i
      rw [nextPtr, nextPtr, Mem.loadWord_congr fun d hd =>
        binitItems_outside (bbucketCapacity c) fun j hj => by omega]

/-- **After `binit` every item of every bucket is free.** -/
theorem binit_rep (hA : Arena memory) :
    BallocRep memory (binit m memory).1 (binit m memory).2 (initialFree memory) where
  linked i hi := (binitPrefix_linked hA bucketsCount le_rfl i hi).1
  count i hi := by
    have : (((binit m memory).1).buckets i).free = bbucketCapacity i :=
      (binitPrefix_linked hA bucketsCount le_rfl i hi).2
    rw [this]
    simp [initialFree]
  item i _ a ha := by
    obtain ⟨j, hj, rfl⟩ := List.mem_map.mp (List.mem_reverse.mp ha)
    exact ⟨j, List.mem_range.mp hj, rfl⟩

theorem mem_initialFree {i a : ℕ} : a ∈ initialFree memory i ↔ IsItem memory i a := by
  simp only [initialFree, List.mem_reverse, List.mem_map, List.mem_range, IsItem]
  exact ⟨fun ⟨j, hj, h⟩ => ⟨j, hj, h.symm⟩, fun ⟨j, hj, h⟩ => ⟨j, hj, h.symm⟩⟩

theorem binit_outside {x : ℕ}
    (hx : ∀ i < bucketsCount, ∀ a, IsItem memory i a → x < a ∨ a + 8 ≤ x) :
    (binit m memory).2 x = m x := binitPrefix_outside le_rfl hx

end Buckets

end Adnihilum
