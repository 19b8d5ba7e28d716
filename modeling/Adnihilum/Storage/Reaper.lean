import Adnihilum.Storage.Contents
import Adnihilum.Storage.Refine

/-!
# The reaper

The first loop of `storage_reaper` gathers ids, the second takes each of them out of the table and
frees its block. On the vault the second loop is `Vault.abort` for one id after the other.

* `idsInvalid_reaperGather`: the ids gathered are those of the expired slots, in slot order;
  `mem_expiredIds`, `nodup_expiredIds`.
* `reaperRip_rep`, `reaperRip_inv`: the second loop, and what it needs to get through.
* **`storageReaper_rep`**, `storageReaper_inv`.
-/

namespace Adnihilum

open FlatMemory OpenAddressing Custody

/-- The ids of the slots that expired before `timeNow`, in slot order. -/
def expiredIds (s : Storage) (timeNow : ℕ) : List HtableKey :=
  ((List.range s.htableSize).filter fun i => s.table.blobValidUntil i < timeNow).map s.table.blobIds

/-! ## Gathering -/

/-- The gather loop appends the ids it selects to the buffer, from index `0` on. -/
theorem gather_spec (p : ℕ → Prop) [DecidablePred p] (ids buf : ℕ → HtableKey) (n : ℕ) :
    let r := (List.range n).foldl (fun (acc : (ℕ → HtableKey) × ℕ) i =>
      if p i then (Function.update acc.1 acc.2 (ids i), acc.2 + 1) else acc) (buf, 0)
    (List.range r.2).map r.1 = ((List.range n).filter p).map ids ∧ ∀ j, r.2 ≤ j → r.1 j = buf j := by
  induction n with
  | zero => exact ⟨rfl, fun _ _ => rfl⟩
  | succ n ih =>
    obtain ⟨ih1, ih2⟩ := ih
    simp only [List.range_succ, List.foldl_append, List.foldl_cons, List.foldl_nil,
      List.filter_append, List.map_append]
    set r := (List.range n).foldl (fun (acc : (ℕ → HtableKey) × ℕ) i =>
      if p i then (Function.update acc.1 acc.2 (ids i), acc.2 + 1) else acc) (buf, 0) with hr
    by_cases hp : p n
    · rw [if_pos hp, List.filter_cons_of_pos (by simpa using hp), ← ih1]
      refine ⟨?_, fun j hj => ?_⟩
      · have hkeep : (List.range r.2).map (Function.update r.1 r.2 (ids n)) =
            (List.range r.2).map r.1 :=
          List.map_congr_left fun j hj => Function.update_of_ne (List.mem_range.mp hj).ne _ _
        simp only [List.range_succ, List.map_append, List.map_singleton, Function.update_self, hkeep]
        rfl
      · exact (Function.update_of_ne (Nat.ne_of_gt hj) _ _).trans (ih2 j (Nat.le_of_succ_le hj))
    · rw [if_neg hp, List.filter_cons_of_neg (by simpa using hp), ← ih1]
      simpa using ih2

section Reaper

variable {ι : Type} {k memory timeNow : ℕ} {s : Storage} {v : Vault ι}

theorem idsInvalid_reaperGather (h : StorageRep noIds k memory s v) (timeNow : ℕ) :
    idsInvalid (reaperGather s timeNow) = expiredIds s timeNow ∧
      ∀ j, (reaperGather s timeNow).blobIdsInvalidCount ≤ j →
        (reaperGather s timeNow).blobIdsInvalid j = HtableKey.null := by
  obtain ⟨hbuf, hcnt⟩ := Prod.mk.inj h.invalid
  have := gather_spec (fun i => s.table.blobValidUntil i < timeNow) s.table.blobIds
    (fun _ => HtableKey.null) s.htableSize
  simpa only [idsInvalid, reaperGather, expiredIds, hbuf, hcnt] using this

theorem reaperGather_rep {inv : (ℕ → HtableKey) × ℕ} (h : StorageRep inv k memory s v)
    (timeNow : ℕ) :
    StorageRep ((reaperGather s timeNow).blobIdsInvalid, (reaperGather s timeNow).blobIdsInvalidCount)
      k memory (reaperGather s timeNow) v :=
  ⟨h.size, h.sound, h.slot, h.found, h.nonnull, h.empty, h.htableFree, h.balloc, h.mem, rfl⟩

variable {inv : (ℕ → HtableKey) × ℕ} (h : StorageRep inv k memory s v)
include h

/-- **The gathered ids are those of the expired entries.** No empty slot is gathered, because no
time is above `VALID_UNTIL_EMPTY`. -/
theorem mem_expiredIds (hnow : timeNow ≤ validUntilEmpty) {id : HtableKey} :
    id ∈ expiredIds s timeNow ↔ ∃ e, v.entries.lookup id = some e ∧ e.validUntil < timeNow := by
  simp only [expiredIds, h.size, List.mem_map, List.mem_filter, List.mem_range, decide_eq_true_eq]
  constructor
  · rintro ⟨i, ⟨hi, hlt⟩, rfl⟩
    have hne : s.table.blobIds i ≠ HtableKey.null := fun hnull => by
      rw [h.empty i hi hnull] at hlt
      omega
    exact ⟨_, h.slot i hi hne, hlt⟩
  · rintro ⟨e, he, hlt⟩
    obtain ⟨i, hi, _, hkey, _, huntil⟩ := h.index he
    exact ⟨i, ⟨hi, by rw [huntil]; exact hlt⟩, hkey⟩

theorem nodup_expiredIds (hnow : timeNow ≤ validUntilEmpty) : (expiredIds s timeNow).Nodup := by
  unfold expiredIds
  refine List.Nodup.map_on (fun i hi j hj heq => ?_) (List.nodup_range.filter _)
  rw [h.size, List.mem_filter, List.mem_range, decide_eq_true_eq] at hi hj
  have hne : s.table.blobIds i ≠ HtableKey.null := fun hnull => by
    have := h.empty i hi.1 hnull
    omega
  exact h.slotKey_inj hi.1 hj.1 hne heq

end Reaper

/-! ## Ripping -/

theorem Vault.lookup_foldl_abort {ι : Type} (ids : List HtableKey) :
    ∀ (v : Vault ι) (id : HtableKey), (ids.foldl Vault.abort v).entries.lookup id =
      if id ∈ ids then none else v.entries.lookup id := by
  induction ids with
  | nil => simp
  | cons id' ids ih =>
    intro v id
    rw [List.foldl_cons, ih, Vault.lookup_abort]
    by_cases h1 : id ∈ ids <;> by_cases h2 : id = id' <;> simp [h1, h2]

theorem Owned.foldl_abort {ι : Type} {memory : ℕ} (ids : List HtableKey) :
    ∀ {v : Vault ι}, Owned memory v → Owned memory (ids.foldl Vault.abort v) := by
  induction ids with
  | nil => exact fun ho => ho
  | cons id ids ih => exact fun ho => ih (ho.abort id)

section Rip

variable {ι : Type} {inv : (ℕ → HtableKey) × ℕ} {k memory : ℕ}

/-- One turn of the loop: fetching a published entry and freeing its block is aborting it. -/
theorem rip_one {s : Storage} {v : Vault ι} (h : StorageRep inv k memory s v) (hA : Arena memory)
    (hk : k ≤ 64) (ho : Owned memory v) {id : HtableKey} (hid : v.Available id) :
    ∃ s' b, storageBlobGet s id = some (s', b) ∧ b.size ≠ 0 ∧ b.data ≠ 0 ∧
      StorageRep inv k memory (storageBlobFree s' b) (v.abort id) := by
  obtain ⟨e, he, hpub⟩ := hid
  have hb := (ho.entry_ok id e he).1
  obtain ⟨s', hget, hrep⟩ := storageBlobGet_some h hk he hpub
    { v with entries := v.entries.erase id } rfl rfl rfl
  refine ⟨s', e.blk, hget, hb.size_ne_zero, item_ne_zero hA hb.bindex_lt hb.item, ?_⟩
  rw [Vault.abort, he]
  exact storageBlobFree_rep hrep hA hb (ho.stored_not_free he)

/-- **The second loop gets through published ids.** -/
theorem reaperRip_rep (hA : Arena memory) (hk : k ≤ 64) (ids : List HtableKey) :
    ∀ {s : Storage} {v : Vault ι}, StorageRep inv k memory s v → Owned memory v → ids.Nodup →
      (∀ id ∈ ids, v.Available id) → ∃ s', reaperRip s ids = some s' ∧
        StorageRep inv k memory s' (ids.foldl Vault.abort v) := by
  induction ids with
  | nil => exact fun h _ _ _ => ⟨_, rfl, h⟩
  | cons id ids ih =>
    intro s v h ho hnd hav
    rw [List.nodup_cons] at hnd
    obtain ⟨s', b, hget, hsize, hdata, hrep⟩ := rip_one h hA hk ho (hav id List.mem_cons_self)
    rw [reaperRip, hget]
    simp only [hsize, hdata, or_self, if_false]
    refine ih hrep (ho.abort id) hnd.2 fun id' hid' => (v.available_abort id id').mpr
      ⟨hav id' (List.mem_cons_of_mem _ hid'), fun e => hnd.1 (e ▸ hid')⟩

/-- An id that cannot be fetched stops it at `unreachable()`. -/
theorem reaperRip_inv (hA : Arena memory) (hk : k ≤ 64) (ids : List HtableKey) :
    ∀ {s s' : Storage} {v : Vault ι}, StorageRep inv k memory s v → Owned memory v →
      reaperRip s ids = some s' → ∀ id ∈ ids, v.Available id := by
  induction ids with
  | nil => simp
  | cons id ids ih =>
    intro s s' v h ho hrip
    have hid : v.Available id := by
      by_contra hno
      have hget : storageBlobGet s id = some (s, Blk.zero) :=
        storageBlobGet_none h fun e he hp => hno ⟨e, he, hp⟩
      rw [reaperRip, hget] at hrip
      simp [Blk.zero] at hrip
    obtain ⟨s₁, b, hget, hsize, hdata, hrep⟩ := rip_one h hA hk ho hid
    rw [reaperRip, hget] at hrip
    simp only [hsize, hdata, or_self, if_false] at hrip
    intro id' hid'
    rcases List.mem_cons.mp hid' with rfl | hid'
    · exact hid
    · exact ((v.available_abort id id').mp (ih hrep (ho.abort id) hrip id' hid')).1

end Rip

/-! ## The reaper -/

section Reaper

variable {ι : Type} {k memory timeNow : ℕ} {s : Storage} {v : Vault ι}
  (h : StorageRep noIds k memory s v) (hA : Arena memory) (hk : k ≤ 64) (ho : Owned memory v)
include h hA hk ho

/-- **When every expired entry is published, `storage_reaper` ends and aborts exactly those.** -/
theorem storageReaper_rep (hnow : timeNow ≤ validUntilEmpty)
    (hpub : ∀ id ∈ expiredIds s timeNow, v.Available id) :
    ∃ s', storageReaper s timeNow = some s' ∧
      StorageRep noIds k memory s' ((expiredIds s timeNow).foldl Vault.abort v) := by
  obtain ⟨hids, hrest⟩ := idsInvalid_reaperGather h timeNow
  obtain ⟨s', hrip, hrep⟩ := reaperRip_rep hA hk (expiredIds s timeNow)
    (reaperGather_rep h timeNow) ho (nodup_expiredIds h hnow) hpub
  obtain ⟨hbuf, hcnt⟩ := Prod.mk.inj hrep.invalid
  have hreap : storageReaper s timeNow = some { s' with
      blobIdsInvalid := fun i =>
        if i < s'.blobIdsInvalidCount then HtableKey.null else s'.blobIdsInvalid i
      blobIdsInvalidCount := 0 } := by
    simp only [storageReaper, hids, hrip, Option.map_some]
  refine ⟨_, hreap, hrep.size, hrep.sound, hrep.slot, hrep.found,
    hrep.nonnull, hrep.empty, hrep.htableFree, hrep.balloc, hrep.mem, ?_⟩
  rw [noIds]
  congr 1
  funext i
  change (if i < s'.blobIdsInvalidCount then HtableKey.null else s'.blobIdsInvalid i) = _
  split_ifs with hi
  · rfl
  · rw [hbuf]
    exact hrest i (by rw [← hcnt]; omega)

/-- The other way round: a reaper that ends met published entries only. -/
theorem storageReaper_inv {s' : Storage} (hreap : storageReaper s timeNow = some s') :
    ∀ id ∈ expiredIds s timeNow, v.Available id := by
  obtain ⟨hids, _⟩ := idsInvalid_reaperGather h timeNow
  rw [storageReaper, hids, Option.map_eq_some_iff] at hreap
  obtain ⟨s₁, hrip, _⟩ := hreap
  exact reaperRip_inv hA hk _ (reaperGather_rep h timeNow) ho hrip

end Reaper

end Adnihilum
