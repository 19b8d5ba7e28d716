import Adnihilum.Server.Ownership

/-!
# The table never fills

Every entry holds a block of its own, and the buckets have fewer items than the table has slots.

* `capacity_sum`: the items of all buckets.
* `Reached.occupied_le`: so there are at most as many occupied slots.
* **`htable_never_full`**: the search for an empty slot always ends.
-/

namespace Adnihilum

open FlatMemory OpenAddressing

/-- The eleven buckets have 128 items fewer than the table has slots. -/
theorem capacity_sum :
    ∑ i ∈ Finset.range bucketsCount, bbucketCapacity i + 128 = storageBlobsMax := by decide

section Reached

variable {requests : ℕ → Request} {mallocated : ℕ} {tr : Trace} {S : Server} {w : World}
  (h : Reached requests mallocated tr S w)
include h

theorem Reached.occupied_le :
    ((Finset.range (2 ^ 18)).filter fun j => S.storage.table.blobIds j ≠ HtableKey.null).card ≤
      ∑ i ∈ Finset.range bucketsCount, bbucketCapacity i := by
  rw [Finset.card_eq_sum_card_fiberwise (f := fun j => bindex (S.storage.table.blobData j).size)
    (t := Finset.range bucketsCount)]
  · refine Finset.sum_le_sum fun i hi => ?_
    have hset : S.slotsOf i = (((Finset.range (2 ^ 18)).filter fun j =>
        S.storage.table.blobIds j ≠ HtableKey.null).filter fun j =>
          bindex (S.storage.table.blobData j).size = i : Finset ℕ) := by
      ext j
      simp only [Server.slotsOf, h.htableSize, Finset.coe_filter, Finset.mem_filter,
        Finset.mem_range, and_assoc]
    rw [← Set.ncard_coe_finset, ← hset, h.capacity_eq (Finset.mem_range.mp hi)]
    omega
  · intro j hj
    simp only [Finset.coe_filter, Finset.mem_range] at hj
    exact Finset.mem_coe.mpr (Finset.mem_range.mpr (h.blobData_ok hj.1 hj.2).bindex_lt)

theorem Reached.htableFree_ge : 128 ≤ S.storage.htableFree := by
  have h1 := h.rep.storage.card_occupied
  have h2 := h.rep.storage.htableFree
  have h3 := h.occupied_le
  have h4 := capacity_sum
  rw [storageBlobsMax_eq] at h4
  omega

end Reached

section Runs

variable {requests : ℕ → Request} {mallocated : ℕ} {tr : Trace} {S : Server}

/-- **The table never fills.** In every reachable state `htable_free` counts the empty slots, and
there are at least 128 of them, because the occupied slots hold different items; so the search for
an empty slot ends for every key, with the first one from its home slot, and `htable_find_free_slot`
does not fail. -/
theorem htable_never_full (hA : Arena (serverArena mallocated))
    (hrun : Run requests (serverInit mallocated) tr S) :
    S.storage.htableSize = storageBlobsMax ∧
    S.storage.htableFree = ((Finset.range S.storage.htableSize).filter fun j =>
      S.storage.table.blobIds j = HtableKey.null).card ∧
    128 ≤ S.storage.htableFree ∧
    (∀ j < S.storage.htableSize, S.storage.table.blobIds j ≠ HtableKey.null →
      IsAnItem (serverArena mallocated) (S.storage.table.blobData j).data ∧
      ∀ j' < S.storage.htableSize, S.storage.table.blobIds j' ≠ HtableKey.null →
        (S.storage.table.blobData j').data = (S.storage.table.blobData j).data → j' = j) ∧
    ∀ id, ∃ d < S.storage.htableSize,
      let home := lpHomeIndex (htableHash id) S.storage.htableSize
      let i := (home + d) % S.storage.htableSize
      lpFindFreeSlot storageHost S.storage.table.blobIds id S.storage.htableSize = some i ∧
        S.storage.table.blobIds i = HtableKey.null ∧
        (∀ e < d, S.storage.table.blobIds ((home + e) % S.storage.htableSize) ≠ HtableKey.null) ∧
        htableFindFreeSlot S.storage id = some (some i) := by
  obtain ⟨w, h⟩ := hrun.reached hA
  have hsize := h.htableSize
  have hge := h.htableFree_ge
  refine ⟨by rw [hsize, storageBlobsMax_eq], by rw [hsize, h.rep.storage.card_null], hge,
    fun j hj hid => ⟨(h.blobData_ok (hsize ▸ hj) hid).isAnItem, fun j' hj' hid' hdata => ?_⟩,
    fun id => ?_⟩
  · rw [hsize] at hj hj'
    exact h.rep.storage.slotKey_inj hj' hj hid' (h.inv.owned.stored_inj
      (h.rep.storage.slot j' hj' hid') (h.rep.storage.slot j hj hid) hdata)
  · rw [hsize]
    obtain ⟨i, hi, hfind, hnull, hpath⟩ := h.rep.storage.findFreeSlot id (by omega)
    have hhome : lpHomeIndex (htableHash id) (2 ^ 18) < 2 ^ 18 := homeOf_lt storageHost 18 id
    have hd : fwd (2 ^ 18) (lpHomeIndex (htableHash id) (2 ^ 18)) i < 2 ^ 18 := fwd_lt hhome
    refine ⟨_, hd, ?_⟩
    simp only
    rw [add_fwd_mod hhome hi]
    refine ⟨?_, hnull, fun e he => ?_, hfind⟩
    · rw [htableFindFreeSlot, if_neg (by omega), hsize, Option.map_eq_some_iff] at hfind
      obtain ⟨i', hi', hii⟩ := hfind
      rw [hi', Option.some_inj.mp hii]
    · refine hpath _ (Nat.mod_lt _ (by positivity)) ?_
      have hfwd := fwd_add_mod hhome (he.trans hd)
      unfold OnPath
      rw [show homeOf storageHost (2 ^ 18) id = lpHomeIndex (htableHash id) (2 ^ 18) from rfl, hfwd]
      exact he

end Runs

/-- After an upload and its delivery. -/
theorem htable_never_full_postAndGet : ∃ (tr : Trace) (S : Server),
    Run postAndGet (serverInit 4096) tr S ∧ tr.length = 5 ∧
    128 ≤ S.storage.htableFree := by
  obtain ⟨S, blk, _, _, hrun⟩ := postAndGet_run [] goodEnv
  exact ⟨_, S, hrun, rfl, (htable_never_full arena_4096 hrun).2.2.1⟩

end Adnihilum
