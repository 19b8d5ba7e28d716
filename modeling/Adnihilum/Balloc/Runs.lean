import Adnihilum.Balloc.Law

/-!
# Runs of the bucket allocator

Allocations, frees and writes of the owners into their blocks, in any order, from `binit` on. The
free lists are threaded through the items; what is not free is live.

* `BallocReach`: the states of an allocator with its live blocks.
* `BallocInv`: in each bucket the free items and the live ones are all items, each once; live blocks
  do not overlap. `BallocInv.init`, `BallocInv.balloc_cons`, `BallocInv.freed`, `BallocInv.written`,
  and by induction **`BallocReach.inv`**.
* `FreeList`; **`bucket_allocator_law`**.
-/

namespace Adnihilum

open FlatMemory

/-! ## Blocks -/

/-- Two blocks have no byte in common. -/
def Blk.Apart (b c : Blk) : Prop := b.data + b.size ≤ c.data ∨ c.data + c.size ≤ b.data

/-- A block lies where its bucket keeps it: at an item of the bucket, inside the item and so inside
the bucket's arena, before the bucket headers. -/
structure Placed (memory : ℕ) (ba : Balloc) (blk : Blk) : Prop where
  item : IsItem memory (bindex blk.size) blk.data
  room : blk.size ≤ bbucketItemSizeMax (bindex blk.size)
  arena_data : (ba.buckets (bindex blk.size)).blk.data ≤ blk.data
  arena_end : blk.data + blk.size ≤
    (ba.buckets (bindex blk.size)).blk.data + (ba.buckets (bindex blk.size)).blk.size
  headers : blk.data + blk.size ≤ memory + bfootprint - sizeofBucket * bucketsCount

/-- The states of an allocator from `binit` on, with the blocks that were allocated and not freed.
-/
inductive BallocReach (memory : ℕ) : Balloc → Mem → List Blk → Prop
  | binit (m : Mem) : BallocReach memory (binit m memory).1 (binit m memory).2 []
  | balloc {ba : Balloc} {m : Mem} {live : List Blk} {size : ℕ} (h : BallocReach memory ba m live)
      (h2 : 2 ≤ size) (hmax : size ≤ blobSizeMax) :
      BallocReach memory (balloc ba m size).1 m
        (if (balloc ba m size).2.size = 0 then live else (balloc ba m size).2 :: live)
  | bfree {ba : Balloc} {m : Mem} {live : List Blk} {blk : Blk} (h : BallocReach memory ba m live)
      (hlive : blk ∈ live) :
      BallocReach memory (bfree ba m blk).1 (bfree ba m blk).2 (live.erase blk)
  | write {ba : Balloc} {m : Mem} {live : List Blk} {blk : Blk} {a : ℕ} {bs : List UInt8}
      (h : BallocReach memory ba m live) (hlive : blk ∈ live) (hlo : blk.data ≤ a)
      (hhi : a + bs.length ≤ blk.data + blk.size) : BallocReach memory ba (m.store a bs) live

/-! ## The invariant -/

/-- The live items of a bucket. -/
def liveIn (live : List Blk) (i : ℕ) : List ℕ :=
  (live.filter fun blk => bindex blk.size = i).map Blk.data

/-- The headers and the memory represent free lists which, with the live blocks, are all items. -/
structure BallocInv (memory : ℕ) (ba : Balloc) (m : Mem) (live : List Blk) (free : ℕ → List ℕ) :
    Prop where
  rep : BallocRep memory ba m free
  arena : ∀ i < bucketsCount, (ba.buckets i).blk = ⟨memory + i * 2 ^ 24, 2 ^ 24⟩
  size : ∀ blk ∈ live, 2 ≤ blk.size ∧ blk.size ≤ blobSizeMax
  items : ∀ i < bucketsCount, (free i ++ liveIn live i).Perm (initialFree memory i)
  apart : live.Pairwise Blk.Apart

section Lists

variable {live : List Blk} {blk : Blk} {i : ℕ}

theorem liveIn_cons_self : liveIn (blk :: live) (bindex blk.size) =
    blk.data :: liveIn live (bindex blk.size) := by
  simp [liveIn]

theorem liveIn_cons_of_ne (h : bindex blk.size ≠ i) : liveIn (blk :: live) i = liveIn live i := by
  simp [liveIn, h]

theorem mem_liveIn (h : blk ∈ live) : blk.data ∈ liveIn live (bindex blk.size) :=
  List.mem_map_of_mem (List.mem_filter.mpr ⟨h, decide_eq_true rfl⟩)

theorem length_liveIn : (liveIn live i).length = live.countP fun blk => bindex blk.size = i := by
  rw [liveIn, List.length_map, List.countP_eq_length_filter]

theorem liveIn_erase (h : blk ∈ live) :
    (liveIn live i).Perm (liveIn (blk :: live.erase blk) i) :=
  ((List.perm_cons_erase h).filter _).map _

theorem nodup_initialFree (memory i : ℕ) : (initialFree memory i).Nodup :=
  List.nodup_reverse.mpr (List.nodup_range.map fun _ _ => itemPtr_inj)

theorem length_initialFree (memory i : ℕ) : (initialFree memory i).length = bbucketCapacity i := by
  simp [initialFree]

end Lists

section Headers

variable {memory : ℕ} {m : Mem} {ba : Balloc}

/-- The arenas lie one behind the other. -/
theorem binit_blk {i : ℕ} (hi : i < bucketsCount) :
    ((binit m memory).1.buckets i).blk = ⟨memory + i * 2 ^ 24, 2 ^ 24⟩ := by
  have hprefix : ∀ c ≤ bucketsCount, ∀ i < c,
      ((binitPrefix m memory c).2.2 i).blk = ⟨memory + i * 2 ^ 24, 2 ^ 24⟩ := by
    intro c
    induction c with
    | zero => exact fun _ i hi => absurd hi (Nat.not_lt_zero i)
    | succ c ih =>
      intro hc i hi
      rw [binitPrefix_succ]
      simp only [binitBucket]
      rcases Nat.lt_succ_iff_lt_or_eq.mp hi with hlt | rfl
      · rw [Function.update_of_ne hlt.ne]
        exact ih (by omega) i hlt
      · simp only [Function.update_self]
        rw [binitPrefix_ptr i (by omega), capacity_mul_itemSize (by omega)]
  exact hprefix bucketsCount le_rfl i hi

theorem balloc_blk (size i : ℕ) : ((balloc ba m size).1.buckets i).blk = (ba.buckets i).blk := by
  rw [balloc]
  split_ifs
  · by_cases hi : i = bindex size
    · rw [hi]
      simp only [Function.update_self]
    · simp only [Function.update_of_ne hi]
  · rfl

theorem bfree_blk (blk : Blk) (i : ℕ) : ((bfree ba m blk).1.buckets i).blk = (ba.buckets i).blk := by
  rw [bfree]
  by_cases hi : i = bindex blk.size
  · rw [hi]
    simp only [Function.update_self]
  · simp only [Function.update_of_ne hi]

end Headers

namespace BallocInv

variable {memory : ℕ} {ba : Balloc} {m : Mem} {live : List Blk} {free : ℕ → List ℕ} {blk : Blk}

theorem bindex_lt (h : BallocInv memory ba m live free) (hlive : blk ∈ live) :
    bindex blk.size < bucketsCount :=
  Adnihilum.bindex_lt (h.size blk hlive).1 (h.size blk hlive).2

theorem isItem (h : BallocInv memory ba m live free) (hlive : blk ∈ live) :
    IsItem memory (bindex blk.size) blk.data :=
  mem_initialFree.mp ((h.items _ (h.bindex_lt hlive)).subset
    (List.mem_append_right _ (mem_liveIn hlive)))

theorem not_mem_free (h : BallocInv memory ba m live free) (hlive : blk ∈ live) {i : ℕ}
    (hi : i < bucketsCount) : blk.data ∉ free i := by
  intro hfree
  have hlt := h.bindex_lt hlive
  obtain rfl : i = bindex blk.size :=
    item_bucket_unique hi hlt (h.rep.item i hi _ hfree) (h.isItem hlive)
  have hnodup := (h.items _ hi).nodup_iff.mpr (nodup_initialFree memory _)
  exact List.disjoint_of_nodup_append hnodup hfree (mem_liveIn hlive)

theorem apart_of_ne {b c : Blk} (hb2 : 2 ≤ b.size) (hbmax : b.size ≤ blobSizeMax) (hc2 : 2 ≤ c.size)
    (hcmax : c.size ≤ blobSizeMax) (hb : IsItem memory (bindex b.size) b.data)
    (hc : IsItem memory (bindex c.size) c.data) (hne : b.data ≠ c.data) : b.Apart c := by
  have hroom := le_itemSize hb2 hbmax
  have hroom' := le_itemSize hc2 hcmax
  rcases item_disjoint (Adnihilum.bindex_lt hb2 hbmax) (Adnihilum.bindex_lt hc2 hcmax) hb hc hne with
    h | h
  · exact .inl (by omega)
  · exact .inr (by omega)

theorem placed (h : BallocInv memory ba m live free) (hlive : blk ∈ live) : Placed memory ba blk := by
  obtain ⟨h2, hmax⟩ := h.size blk hlive
  have hlt := h.bindex_lt hlive
  have hroom := le_itemSize h2 hmax
  obtain ⟨hlo, hhi⟩ := item_bounds hlt (h.isItem hlive)
  refine ⟨h.isItem hlive, hroom, ?_, ?_, ?_⟩
  · rw [h.arena _ hlt]
    exact hlo
  · rw [h.arena _ hlt]
    simp only
    omega
  · rw [bucketsCount_eq] at hlt
    rw [bfootprint_eq, sizeofBucket, bucketsCount_eq]
    omega

theorem count (h : BallocInv memory ba m live free) {i : ℕ} (hi : i < bucketsCount) :
    (ba.buckets i).free + live.countP (fun blk => bindex blk.size = i) = bbucketCapacity i := by
  rw [h.rep.count i hi, ← length_liveIn, ← List.length_append, (h.items i hi).length_eq,
    length_initialFree]

/-! ### The operations -/

theorem init (hA : Arena memory) (m : Mem) :
    BallocInv memory (binit m memory).1 (binit m memory).2 [] (initialFree memory) where
  rep := binit_rep hA
  arena i hi := binit_blk hi
  size blk hlive := by cases hlive
  items i hi := by
    rw [liveIn, List.filter_nil, List.map_nil, List.append_nil]
  apart := List.Pairwise.nil

theorem balloc_cons (h : BallocInv memory ba m live free) {size a : ℕ} {l : List ℕ} (h2 : 2 ≤ size)
    (hmax : size ≤ blobSizeMax) (hcons : free (bindex size) = a :: l) :
    (balloc ba m size).2 = ⟨a, size⟩ ∧ BallocInv memory (balloc ba m size).1 m (⟨a, size⟩ :: live)
      (Function.update free (bindex size) l) := by
  have hlt := Adnihilum.bindex_lt h2 hmax
  obtain ⟨ba', hballoc, hrep⟩ := Adnihilum.balloc_cons h.rep hlt hcons
  have hitem : IsItem memory (bindex size) a := h.rep.item _ hlt a (hcons ▸ List.mem_cons_self)
  refine ⟨by rw [hballoc], by rw [hballoc]; exact hrep, fun i hi => ?_, ?_, fun i hi => ?_, ?_⟩
  · rw [balloc_blk]
    exact h.arena i hi
  · exact List.forall_mem_cons.mpr ⟨⟨h2, hmax⟩, h.size⟩
  · by_cases hib : i = bindex size
    · subst hib
      have hself : liveIn (⟨a, size⟩ :: live) (bindex size) = a :: liveIn live (bindex size) :=
        liveIn_cons_self
      rw [Function.update_self, hself]
      refine List.perm_middle.trans ?_
      rw [← List.cons_append, ← hcons]
      exact h.items _ hi
    · have hother : liveIn (⟨a, size⟩ :: live) i = liveIn live i := liveIn_cons_of_ne (Ne.symm hib)
      rw [Function.update_of_ne hib, hother]
      exact h.items i hi
  · refine List.pairwise_cons.mpr ⟨fun blk hlive => ?_, h.apart⟩
    obtain ⟨hblk2, hblkmax⟩ := h.size blk hlive
    refine apart_of_ne h2 hmax hblk2 hblkmax hitem (h.isItem hlive) fun heq => ?_
    exact h.not_mem_free hlive hlt (heq ▸ hcons ▸ List.mem_cons_self)

/-- **A live block is freed** to the bucket that its size names. -/
theorem freed (hA : Arena memory) (h : BallocInv memory ba m live free) (hlive : blk ∈ live) :
    BallocInv memory (bfree ba m blk).1 (bfree ba m blk).2 (live.erase blk)
      (Function.update free (bindex blk.size) (blk.data :: free (bindex blk.size))) := by
  have hlt := h.bindex_lt hlive
  refine ⟨bfree_rep hA h.rep hlt (h.isItem hlive) fun i hi => h.not_mem_free hlive hi,
    fun i hi => ?_, fun c hc => h.size c (List.mem_of_mem_erase hc), fun i hi => ?_,
    h.apart.sublist List.erase_sublist⟩
  · rw [bfree_blk]
    exact h.arena i hi
  · refine List.Perm.trans ?_ (h.items i hi)
    by_cases hib : i = bindex blk.size
    · subst hib
      rw [Function.update_self, List.cons_append]
      refine List.perm_middle.symm.trans (List.Perm.append_left _ ?_)
      rw [← liveIn_cons_self]
      exact (liveIn_erase hlive).symm
    · rw [Function.update_of_ne hib]
      refine List.Perm.append_left _ ?_
      rw [← liveIn_cons_of_ne (Ne.symm hib)]
      exact (liveIn_erase hlive).symm

/-- **An owner writes into a live block**: no link of a free item is there. -/
theorem written (h : BallocInv memory ba m live free) (hlive : blk ∈ live) {a : ℕ} {bs : List UInt8}
    (hlo : blk.data ≤ a) (hhi : a + bs.length ≤ blk.data + blk.size) :
    BallocInv memory ba (m.store a bs) live free := by
  have hroom := (h.placed hlive).room
  refine { h with rep := ?_ }
  refine h.rep.frame_item (h.bindex_lt hlive) (h.isItem hlive)
    (fun i hi => h.not_mem_free hlive hi) fun x hx => ?_
  exact Mem.store_of_outside (by omega)

end BallocInv

/-! ## Runs -/

section Reach

variable {memory : ℕ} {ba : Balloc} {m : Mem} {live : List Blk} {free : ℕ → List ℕ} {size : ℕ}

theorem BallocInv.balloc_nil (h : BallocInv memory ba m live free) (h2 : 2 ≤ size)
    (hmax : size ≤ blobSizeMax) (hnil : free (bindex size) = []) :
    balloc ba m size = (ba, Blk.zero) :=
  Adnihilum.balloc_nil h.rep (Adnihilum.bindex_lt h2 hmax) hnil

theorem BallocReach.inv (hA : Arena memory) (h : BallocReach memory ba m live) :
    ∃ free, BallocInv memory ba m live free := by
  induction h with
  | binit m => exact ⟨_, BallocInv.init hA m⟩
  | @balloc ba m live size _ h2 hmax ih =>
    obtain ⟨free, hinv⟩ := ih
    cases hfree : free (bindex size) with
    | nil =>
      rw [hinv.balloc_nil h2 hmax hfree]
      exact ⟨free, hinv⟩
    | cons a l =>
      obtain ⟨hret, hinv'⟩ := hinv.balloc_cons h2 hmax hfree
      rw [hret, if_neg (show size ≠ 0 by omega)]
      exact ⟨_, hinv'⟩
  | bfree _ hlive ih =>
    obtain ⟨free, hinv⟩ := ih
    exact ⟨_, hinv.freed hA hlive⟩
  | write _ hlive hlo hhi ih =>
    obtain ⟨free, hinv⟩ := ih
    exact ⟨free, hinv.written hlive hlo hhi⟩

/-! ## The law -/

/-- Following the links from the header of bucket `i` visits exactly `l`, up to a null link. -/
def FreeList (ba : Balloc) (m : Mem) (i : ℕ) (l : List ℕ) : Prop :=
  Linked (nextPtr m) (asPtr (ba.buckets i).nextFree) l

theorem BallocInv.balloc_spec (h : BallocInv memory ba m live free) (h2 : 2 ≤ size)
    (hmax : size ≤ blobSizeMax) :
    ((balloc ba m size).2.size = 0 ↔
      live.countP (fun blk => bindex blk.size = bindex size) = bbucketCapacity (bindex size)) ∧
    ((balloc ba m size).2.size = 0 → balloc ba m size = (ba, Blk.zero)) ∧
    ((balloc ba m size).2.size ≠ 0 → (balloc ba m size).2.size = size ∧
      Placed memory ba (balloc ba m size).2 ∧ ∀ blk ∈ live, (balloc ba m size).2.Apart blk) := by
  have hlt := Adnihilum.bindex_lt h2 hmax
  have hcount := h.count hlt
  rw [h.rep.count _ hlt] at hcount
  cases hfree : free (bindex size) with
  | nil =>
    rw [hfree, List.length_nil, Nat.zero_add] at hcount
    have hnil := h.balloc_nil h2 hmax hfree
    rw [hnil]
    exact ⟨iff_of_true rfl hcount, fun _ => rfl, fun hne => absurd rfl hne⟩
  | cons a l =>
    rw [hfree, List.length_cons] at hcount
    obtain ⟨hret, hinv⟩ := h.balloc_cons h2 hmax hfree
    have hplaced := hinv.placed List.mem_cons_self
    have hapart := (List.pairwise_cons.mp hinv.apart).1
    have hne : size ≠ 0 := by omega
    rw [hret]
    refine ⟨iff_of_false hne (by omega), fun h0 => absurd h0 hne, fun _ => ⟨rfl, ?_, hapart⟩⟩
    obtain ⟨hitem, hroom, hlo, hhi, hheaders⟩ := hplaced
    rw [balloc_blk] at hlo hhi
    exact ⟨hitem, hroom, hlo, hhi, hheaders⟩

theorem BallocInv.bfree_spec (hA : Arena memory) (h : BallocInv memory ba m live free) {blk : Blk}
    (hlive : blk ∈ live) {i : ℕ} (hi : i < bucketsCount) {l : List ℕ} (hl : FreeList ba m i l) :
    FreeList (bfree ba m blk).1 (bfree ba m blk).2 i
      (if i = bindex blk.size then blk.data :: l else l) := by
  obtain rfl : l = free i := hl.unique (h.rep.linked i hi)
  have hlinked := (h.freed hA hlive).rep.linked i hi
  rw [FreeList]
  split_ifs with hib
  · subst hib
    rw [Function.update_self] at hlinked
    exact hlinked
  · rw [Function.update_of_ne hib] at hlinked
    exact hlinked

/-- **The law of the bucket allocator**, in every state of every run: live blocks lie where their
bucket keeps them and do not overlap; each free list ends, is as long as the header says, and with
the live blocks of the bucket makes up its items; an allocation fails exactly if all items of its
class are live, and else returns a block of its own; a free puts the block back into the only bucket
it can be of. -/
theorem bucket_allocator_law (hA : Arena memory) (h : BallocReach memory ba m live) :
    (∀ blk ∈ live, Placed memory ba blk) ∧ live.Pairwise Blk.Apart ∧
    (∀ i < bucketsCount, ∃ l, FreeList ba m i l ∧ (ba.buckets i).free = l.length ∧
      (l ++ liveIn live i).Perm (initialFree memory i)) ∧
    (∀ size, 2 ≤ size → size ≤ blobSizeMax →
      ((balloc ba m size).2.size = 0 ↔
        live.countP (fun blk => bindex blk.size = bindex size) = bbucketCapacity (bindex size)) ∧
      ((balloc ba m size).2.size = 0 → balloc ba m size = (ba, Blk.zero)) ∧
      ((balloc ba m size).2.size ≠ 0 → (balloc ba m size).2.size = size ∧
        Placed memory ba (balloc ba m size).2 ∧ ∀ blk ∈ live, (balloc ba m size).2.Apart blk)) ∧
    ∀ blk ∈ live, (∀ i < bucketsCount, IsItem memory i blk.data → i = bindex blk.size) ∧
      ∀ i < bucketsCount, ∀ l, FreeList ba m i l →
        FreeList (bfree ba m blk).1 (bfree ba m blk).2 i
          (if i = bindex blk.size then blk.data :: l else l) := by
  obtain ⟨free, hinv⟩ := h.inv hA
  refine ⟨fun blk => hinv.placed, hinv.apart, fun i hi => ?_, fun size => hinv.balloc_spec,
    fun blk hlive => ⟨fun i hi hitem => ?_, fun i hi l => hinv.bfree_spec hA hlive hi⟩⟩
  · exact ⟨free i, hinv.rep.linked i hi, hinv.rep.count i hi, hinv.items i hi⟩
  · exact item_bucket_unique hi (hinv.bindex_lt hlive) hitem (hinv.isItem hlive)

/-- The law for an allocator at address 4096: from `binit` on, 200 bytes are there, and 200 more. -/
theorem bucket_allocator_law_demo : ∃ ba m blk, BallocReach 4096 ba m [blk] ∧ blk.size = 200 ∧
    Placed 4096 ba blk ∧ (balloc ba m 200).2.size = 200 ∧ (balloc ba m 200).2.Apart blk := by
  have hA : Arena 4096 := ⟨by norm_num, by rw [bfootprint_eq]; norm_num⟩
  have hmax : 200 ≤ blobSizeMax := by rw [blobSizeMax_eq]; norm_num
  have hindex : bindex 200 = 1 := by decide
  have hcap : bbucketCapacity 1 = 65536 := by decide
  have hstart : BallocReach 4096 (binit (fun _ => 0) 4096).1 (binit (fun _ => 0) 4096).2 [] :=
    .binit fun _ => 0
  generalize (binit (fun _ => 0) 4096).1 = ba at hstart
  generalize (binit (fun _ => 0) 4096).2 = m at hstart
  obtain ⟨-, -, -, halloc, -⟩ := bucket_allocator_law hA hstart
  obtain ⟨hfail, -, hret⟩ := halloc 200 (by norm_num) hmax
  have hne := mt hfail.mp (bbucketCapacity_pos (bindex 200)).ne
  obtain ⟨hsize, -, -⟩ := hret hne
  have hone := hstart.balloc (by norm_num) hmax
  rw [if_neg hne] at hone
  obtain ⟨hplaced, -, -, halloc', -⟩ := bucket_allocator_law hA hone
  obtain ⟨hfail', -, hret'⟩ := halloc' 200 (by norm_num) hmax
  have hne' : (balloc (balloc ba m 200).1 m 200).2.size ≠ 0 := by
    intro h0
    have hfull := hfail'.mp h0
    rw [List.countP_cons, List.countP_nil, hsize, hindex, hcap] at hfull
    exact absurd hfull (by decide)
  obtain ⟨hsize', -, hapart⟩ := hret' hne'
  exact ⟨_, _, _, hone, hsize, hplaced _ List.mem_cons_self, hsize', hapart _ List.mem_cons_self⟩

end Reach

end Adnihilum
