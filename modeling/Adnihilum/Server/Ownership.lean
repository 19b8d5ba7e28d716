import Adnihilum.Server.Progress

/-!
# Who owns the blocks

The custody of the vault, read in the arrays, the free lists and the contexts of the server.

* `Spot`, `Server.Keeps`: the free list, a slot of the table, `blob_send` of a live context.
* `Reached.exclusive`: every item of every bucket is in exactly one spot.
* **`block_ownership`**: this, the counters, and the owners of unpublished entries.
-/

namespace Adnihilum

open FlatMemory Custody

/-- Where a block can be. -/
inductive Spot where
  | freeList
  | slot (j : ℕ)
  | blobSend (r : ℕ)

/-- Item `a` of bucket `i` is in the spot. -/
def Server.Keeps (S : Server) (i : ℕ) : Spot → ℕ → Prop
  | .freeList, a => ∃ l, Linked (nextPtr S.storage.mem)
      (asPtr (S.storage.ballocData.buckets i).nextFree) l ∧ a ∈ l
  | .slot j, a => j < S.storage.htableSize ∧ S.storage.table.blobIds j ≠ HtableKey.null ∧
      (S.storage.table.blobData j).data = a
  | .blobSend r, a => ∃ c, S.ctx r = some c ∧ c.blobSend.size ≠ 0 ∧ c.blobSend.data = a

/-- The occupied slots whose blocks are of bucket `i`. -/
def Server.slotsOf (S : Server) (i : ℕ) : Set ℕ :=
  {j | j < S.storage.htableSize ∧ S.storage.table.blobIds j ≠ HtableKey.null ∧
    bindex (S.storage.table.blobData j).size = i}

/-- The requests that are sending a block of bucket `i`. -/
def Server.sendersOf (S : Server) (i : ℕ) : Set ℕ :=
  {r | ∃ c, S.ctx r = some c ∧ c.blobSend.size ≠ 0 ∧ bindex c.blobSend.size = i}

section Reached

variable {requests : ℕ → Request} {mallocated : ℕ} {tr : Trace} {S : Server} {w : World}

/-- `blob_send` of a context is the block its request was handed. -/
theorem ServerRep.blobSend_iff {memory : ℕ} (h : ServerRep requests memory tr S w)
    (ho : Owned memory w.vault) {r : ℕ} {b : Blk} :
    (∃ c, S.ctx r = some c ∧ c.blobSend.size ≠ 0 ∧ c.blobSend = b) ↔ w.vault.out r = some b := by
  have hreq := h.request r
  constructor
  · rintro ⟨c, hc, hsize, rfl⟩
    have hsend := (hreq.live c hc).send
    cases hout : w.vault.out r with
    | none =>
      rw [hsend, hout] at hsize
      exact absurd rfl hsize
    | some b =>
      rw [hsend, hout, Option.getD_some]
  · intro hout
    cases hc : S.ctx r with
    | none =>
      rw [(hreq.dead hc).2.1] at hout
      cases hout
    | some c =>
      have hsend := (hreq.live c hc).send
      rw [hout, Option.getD_some] at hsend
      exact ⟨c, rfl, by rw [hsend]; exact (ho.out_ok r b hout).size_ne_zero, hsend⟩

variable (h : Reached requests mallocated tr S w)
include h

theorem Reached.htableSize : S.storage.htableSize = 2 ^ 18 := h.rep.storage.size

theorem Reached.keeps_freeList {i a : ℕ} (hi : i < bucketsCount) :
    S.Keeps i .freeList a ↔ a ∈ w.vault.free i := by
  have hl := h.rep.storage.balloc.linked i hi
  constructor
  · rintro ⟨l, hl', ha⟩
    rwa [hl.unique hl']
  · exact fun ha => ⟨_, hl, ha⟩

theorem Reached.keeps_slot {i j a : ℕ} : S.Keeps i (.slot j) a ↔
    j < 2 ^ 18 ∧ S.storage.table.blobIds j ≠ HtableKey.null ∧
      w.vault.Holds (.stored (S.storage.table.blobIds j)) a := by
  have hsize := h.htableSize
  unfold Server.Keeps Vault.Holds
  rw [hsize]
  constructor
  · rintro ⟨hj, hid, ha⟩
    exact ⟨hj, hid, _, h.rep.storage.slot j hj hid, ha⟩
  · rintro ⟨hj, hid, e, he, ha⟩
    rw [h.rep.storage.slot j hj hid, Option.some_inj] at he
    subst he
    exact ⟨hj, hid, ha⟩

theorem Reached.keeps_blobSend {i r a : ℕ} :
    S.Keeps i (.blobSend r) a ↔ w.vault.Holds (.out r) a := by
  constructor
  · rintro ⟨c, hc, hsize, ha⟩
    exact ⟨_, (h.rep.blobSend_iff h.inv.owned).mp ⟨c, hc, hsize, rfl⟩, ha⟩
  · rintro ⟨b, hb, ha⟩
    obtain ⟨c, hc, hsize, hsend⟩ := (h.rep.blobSend_iff h.inv.owned).mpr hb
    exact ⟨c, hc, hsize, by rw [hsend, ha]⟩

/-- **Every item of every bucket is in exactly one spot.** -/
theorem Reached.exclusive {i : ℕ} (hi : i < bucketsCount) :
    Exclusive (IsItem (serverArena mallocated) i) (S.Keeps i) := by
  have hplace : Exclusive (IsItem (serverArena mallocated) i) w.vault.Holds :=
    fun a ha => h.inv.owned.place a ⟨i, hi, ha⟩
  refine hplace.refine (fun q _ => match q with
    | .freeList => .free
    | .slot j => .stored (S.storage.table.blobIds j)
    | .blobSend r => .out r) (fun q a ha hq => ?_) (fun q q' a ha hq hq' heq => ?_)
    fun p a ha hp => ?_
  · cases q with
    | freeList => exact holds_free hi ((h.keeps_freeList hi).mp hq)
    | slot j => exact (h.keeps_slot.mp hq).2.2
    | blobSend r => exact h.keeps_blobSend.mp hq
  · cases q with
    | freeList => cases q' <;> first | rfl | cases heq
    | slot j =>
      cases q' with
      | freeList | blobSend r' => cases heq
      | slot j' =>
        obtain ⟨hj, hid, _⟩ := h.keeps_slot.mp hq
        obtain ⟨hj', _, _⟩ := h.keeps_slot.mp hq'
        rw [h.rep.storage.slotKey_inj hj hj' hid (Place.stored.inj heq)]
    | blobSend r =>
      cases q' with
      | freeList | slot j' => cases heq
      | blobSend r' => rw [Place.out.inj heq]
  · cases p with
    | free => exact ⟨.freeList, (h.keeps_freeList hi).mpr ((h.inv.owned.mem_free_iff hi ha).mp hp)⟩
    | stored id =>
      obtain ⟨e, he, ha⟩ := hp
      obtain ⟨j, hj, rfl⟩ := h.rep.storage.found id e he
      exact ⟨.slot j, h.keeps_slot.mpr ⟨hj, h.rep.storage.ne_null he, e, he, ha⟩⟩
    | out r => exact ⟨.blobSend r, h.keeps_blobSend.mpr hp⟩

/-! ## Counting -/

theorem Reached.blobData_ok {j : ℕ} (hj : j < 2 ^ 18)
    (hid : S.storage.table.blobIds j ≠ HtableKey.null) :
    BlkOk (serverArena mallocated) (S.storage.table.blobData j) :=
  (h.inv.owned.entry_ok _ _ (h.rep.storage.slot j hj hid)).1

theorem Reached.blobSend_ok {r : ℕ} {c : ReqCtx} (hc : S.ctx r = some c)
    (hsize : c.blobSend.size ≠ 0) : BlkOk (serverArena mallocated) c.blobSend :=
  h.inv.owned.out_ok r _ ((h.rep.blobSend_iff h.inv.owned).mp ⟨c, hc, hsize, rfl⟩)

theorem Reached.inside_eq {i : ℕ} (hi : i < bucketsCount) :
    {a | IsItem (serverArena mallocated) i a} = inside (IsItem (serverArena mallocated) i) (S.Keeps i)
      ({.freeList} ∪ (Spot.slot '' S.slotsOf i ∪ Spot.blobSend '' S.sendersOf i)) := by
  ext a
  refine ⟨fun ha => ⟨ha, ?_⟩, fun ha => ha.1⟩
  obtain ⟨q, hq⟩ := (h.exclusive hi a ha).exists
  refine ⟨q, ?_, hq⟩
  cases q with
  | freeList => exact Or.inl rfl
  | slot j =>
    obtain ⟨hj, hid, rfl⟩ := hq
    have hok := h.blobData_ok (h.htableSize ▸ hj) hid
    exact Or.inr (Or.inl ⟨j, ⟨hj, hid, item_bucket_unique hok.bindex_lt hi hok.item ha⟩, rfl⟩)
  | blobSend r =>
    obtain ⟨c, hc, hsize, rfl⟩ := hq
    have hok := h.blobSend_ok hc hsize
    exact Or.inr (Or.inr ⟨r, ⟨c, hc, hsize, item_bucket_unique hok.bindex_lt hi hok.item ha⟩, rfl⟩)

/-- **The capacity of a bucket** is its free items, its stored blocks and its blocks in flight. -/
theorem Reached.capacity_eq {i : ℕ} (hi : i < bucketsCount) :
    bbucketCapacity i = (S.storage.ballocData.buckets i).free +
      ((S.slotsOf i).ncard + (S.sendersOf i).ncard) := by
  have hx := h.exclusive hi
  have hfin : {a | IsItem (serverArena mallocated) i a}.Finite := finite_isItem
  have hdisj : ∀ q ∈ Spot.slot '' S.slotsOf i, q ∉ Spot.blobSend '' S.sendersOf i := by
    rintro _ ⟨j, _, rfl⟩ ⟨r, _, hr⟩
    cases hr
  have hdisj' : ∀ q ∈ ({.freeList} : Set Spot),
      q ∉ Spot.slot '' S.slotsOf i ∪ Spot.blobSend '' S.sendersOf i := by
    rintro _ rfl (⟨j, _, hj⟩ | ⟨r, _, hr⟩)
    · cases hj
    · cases hr
  have hfree : (inside (IsItem (serverArena mallocated) i) (S.Keeps i) {.freeList}).ncard =
      (S.storage.ballocData.buckets i).free := by
    have hset : inside (IsItem (serverArena mallocated) i) (S.Keeps i) {.freeList} =
        ((w.vault.free i).toFinset : Set ℕ) := by
      ext a
      rw [List.coe_toFinset]
      constructor
      · rintro ⟨_, q, rfl, hq⟩
        exact (h.keeps_freeList hi).mp hq
      · exact fun ha => ⟨h.inv.owned.free_item i hi a ha, _, rfl, (h.keeps_freeList hi).mpr ha⟩
    rw [hset, Set.ncard_coe_finset, List.toFinset_card_of_nodup (h.inv.owned.free_nodup i hi),
      h.rep.storage.balloc.count i hi]
  have hslot : (inside (IsItem (serverArena mallocated) i) (S.Keeps i)
      (Spot.slot '' S.slotsOf i)).ncard = (S.slotsOf i).ncard := by
    rw [hx.ncard_keepers (fun q => match q with
        | .slot j => (S.storage.table.blobData j).data
        | _ => 0),
      Set.InjOn.ncard_image fun j _ j' _ hjj => Spot.slot.inj hjj]
    · rintro _ ⟨j, ⟨hj, hid, rfl⟩, rfl⟩
      exact (h.blobData_ok (h.htableSize ▸ hj) hid).item
    · rintro _ ⟨j, ⟨hj, hid, _⟩, rfl⟩ a _
      exact ⟨fun hq => hq.2.2.symm, fun ha => ⟨hj, hid, ha.symm⟩⟩
  have hsend : (inside (IsItem (serverArena mallocated) i) (S.Keeps i)
      (Spot.blobSend '' S.sendersOf i)).ncard = (S.sendersOf i).ncard := by
    rw [hx.ncard_keepers (fun q => match q with
        | .blobSend r => ((S.ctx r).getD ReqCtx.zero).blobSend.data
        | _ => 0),
      Set.InjOn.ncard_image fun r _ r' _ hrr => Spot.blobSend.inj hrr]
    · rintro _ ⟨r, ⟨c, hc, hsize, rfl⟩, rfl⟩
      simp only [hc, Option.getD_some]
      exact (h.blobSend_ok hc hsize).item
    · rintro _ ⟨r, ⟨c, hc, hsize, _⟩, rfl⟩ a _
      simp only [hc, Option.getD_some]
      refine ⟨fun ⟨c', hc', _, ha⟩ => ?_, fun ha => ⟨c, hc, hsize, ha.symm⟩⟩
      obtain rfl : c = c' := Option.some_inj.mp (hc.symm.trans hc')
      exact ha.symm
  have hcap : {a | IsItem (serverArena mallocated) i a}.ncard = bbucketCapacity i := ncard_isItem
  rw [← hcap, h.inside_eq hi, hx.ncard_inside_union hfin hdisj', hx.ncard_inside_union hfin hdisj,
    hfree, hslot, hsend]

/-- `storage_status` counts the blocks that are stored or in flight. -/
theorem Reached.status_eq {i : ℕ} (hi : i < bucketsCount) :
    (storageStatus S.storage).inUse i = (S.slotsOf i).ncard + (S.sendersOf i).ncard ∧
      (storageStatus S.storage).inUse i + bbucketItemsFree S.storage.ballocData i =
        (storageStatus S.storage).max i := by
  have hcap := h.capacity_eq hi
  have hlt : bbucketCapacity i < 2 ^ 64 := by
    rw [bbucketCapacity_eq]
    exact Nat.pow_lt_pow_right (by norm_num) (by omega)
  have hsub : (storageStatus S.storage).inUse i =
      bbucketCapacity i - (S.storage.ballocData.buckets i).free := by
    unfold storageStatus bbucketItemsFree subU64
    simp only
    omega
  refine ⟨by omega, ?_⟩
  rw [hsub]
  unfold bbucketItemsFree storageStatus
  simp only
  omega

end Reached

section Runs

variable {requests : ℕ → Request} {mallocated : ℕ} {tr : Trace} {S : Server}

/-- **Block ownership.** In every reachable state every item of every bucket is in exactly one
place; a context with a post body is the only one with its id and owns the unpublished entry of that
id; the counter of every bucket is the length of its free list, and `storage_status` counts the
blocks stored and in flight; and when no context and no entry is left, every item is free. -/
theorem block_ownership (hA : Arena (serverArena mallocated))
    (hrun : Run requests (serverInit mallocated) tr S) :
    (∀ i < bucketsCount, ∀ a, IsItem (serverArena mallocated) i a → ∃! p, S.Keeps i p a) ∧
    (∀ r c, S.ctx r = some c → c.postBody.size ≠ 0 →
      S.storage.HasEntry c.id c.postBody validUntilNotPublished ∧
      ∀ r' c', S.ctx r' = some c' → c'.postBody.size ≠ 0 → c'.id = c.id → r' = r) ∧
    (∀ i < bucketsCount, ∃ l, Linked (nextPtr S.storage.mem)
        (asPtr (S.storage.ballocData.buckets i).nextFree) l ∧
      bbucketItemsFree S.storage.ballocData i = l.length ∧
      ∀ a ∈ l, IsItem (serverArena mallocated) i a) ∧
    (∀ i < bucketsCount,
      (storageStatus S.storage).inUse i = (S.slotsOf i).ncard + (S.sendersOf i).ncard ∧
      (storageStatus S.storage).inUse i + bbucketItemsFree S.storage.ballocData i =
        (storageStatus S.storage).max i) ∧
    (∀ r, S.phase r = .fresh ∨ S.phase r = .done → S.ctx r = none) ∧
    ((∀ r, S.ctx r = none) →
      (∀ j < S.storage.htableSize, S.storage.table.blobIds j = HtableKey.null) →
      ∀ i < bucketsCount, bbucketItemsFree S.storage.ballocData i = bbucketCapacity i ∧
        ∀ a, IsItem (serverArena mallocated) i a → S.Keeps i .freeList a) := by
  obtain ⟨w, h⟩ := hrun.reached hA
  refine ⟨fun i hi => h.exclusive hi, fun r c hc hsize => ?_, fun i hi => ?_,
    fun i hi => h.status_eq hi, fun r hr => ?_, fun hctx hnull i hi => ⟨?_, fun a ha => ?_⟩⟩
  · obtain ⟨u, hu, _, hid, hentry⟩ := h.postBody hc hsize
    refine ⟨hentry, fun r' c' hc' hsize' hid' => ?_⟩
    obtain ⟨u', hu', _, hid₂, _⟩ := h.postBody hc' hsize'
    exact h.inv.distinct r' r u' u hu' hu (by rw [← hid₂, hid', hid])
  · exact ⟨w.vault.free i, h.rep.storage.balloc.linked i hi, h.rep.storage.balloc.count i hi,
      h.inv.owned.free_item i hi⟩
  · rcases hr with hr | hr
    · exact ((h.rep.request r).fresh hr).1
    · exact (h.rep.request r).done hr
  · have hslots : S.slotsOf i = ∅ :=
      Set.eq_empty_of_forall_notMem fun j ⟨hj, hid, _⟩ => hid (hnull j hj)
    have hsenders : S.sendersOf i = ∅ :=
      Set.eq_empty_of_forall_notMem fun r ⟨c, hc, _⟩ => by
        rw [hctx r] at hc
        cases hc
    have hcap := h.capacity_eq hi
    rw [hslots, hsenders, Set.ncard_empty] at hcap
    exact hcap.symm
  · obtain ⟨q, hq⟩ := (h.exclusive hi a ha).exists
    cases q with
    | freeList => exact hq
    | slot j => exact absurd (hnull j hq.1) hq.2.1
    | blobSend r =>
      obtain ⟨c, hc, _⟩ := hq
      rw [hctx r] at hc
      cases hc

end Runs

/-- After an upload and its delivery. -/
theorem block_ownership_postAndGet : ∃ (tr : Trace) (S : Server),
    Run postAndGet (serverInit 4096) tr S ∧ tr.length = 5 ∧
    ∀ i < bucketsCount, ∀ a, IsItem (serverArena 4096) i a → ∃! p, S.Keeps i p a := by
  obtain ⟨S, blk, _, _, hrun⟩ := postAndGet_run [] goodEnv
  exact ⟨_, S, hrun, rfl, (block_ownership arena_4096 hrun).1⟩

end Adnihilum
