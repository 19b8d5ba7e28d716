import Adnihilum.LinearProbing.Law
import Adnihilum.Storage.Vault

/-!
# The blob store refines the vault

`StorageRep inv k memory s v`: the arrays of `s`, a table of `2 ^ k` slots, represent the vault `v`.

* `StorageRep.index`, `StorageRep.index_none`: looking an id up.
* `StorageRep.card_null`: `htable_free` counts the empty slots.
* **`storageBlobCreate_rep`**, `storageBlobPublish_rep`, `storageBlobAbort_rep`,
  `storageBlobGet_rep`, `storageBlobFree_rep`: every operation of `storage.c` computes the operation
  of the vault. None of them runs for ever.
* `storageInit_rep`: the start.
-/

namespace Adnihilum

open FlatMemory OpenAddressing Custody

/-- The ids waiting for the reaper, and their number, when there are none. -/
def noIds : (ℕ → HtableKey) × ℕ := (fun _ => HtableKey.null, 0)

/-- The arrays of `s` represent the vault; `inv` is what `blob_ids_invalid` holds. -/
structure StorageRep {ι : Type} (inv : (ℕ → HtableKey) × ℕ) (k memory : ℕ) (s : Storage)
    (v : Vault ι) : Prop where
  size : s.htableSize = 2 ^ k
  sound : Sound (2 ^ k) (homeOf storageHost (2 ^ k)) (slotKey storageHost s.table.blobIds)
  slot : ∀ i < 2 ^ k, s.table.blobIds i ≠ HtableKey.null →
    v.entries.lookup (s.table.blobIds i) = some ⟨s.table.blobData i, s.table.blobValidUntil i⟩
  found : ∀ id e, v.entries.lookup id = some e → ∃ i < 2 ^ k, s.table.blobIds i = id
  nonnull : v.entries.lookup HtableKey.null = none
  empty : ∀ i < 2 ^ k, s.table.blobIds i = HtableKey.null → s.table.blobValidUntil i = validUntilEmpty
  htableFree : v.entries.keys.card + s.htableFree = 2 ^ k
  balloc : BallocRep memory s.ballocData s.mem v.free
  mem : s.mem = v.mem
  invalid : (s.blobIdsInvalid, s.blobIdsInvalidCount) = inv

namespace StorageRep

variable {ι : Type} {inv : (ℕ → HtableKey) × ℕ} {k memory : ℕ} {s : Storage} {v : Vault ι}
  (h : StorageRep inv k memory s v)
include h

/-! ## Looking an id up -/

theorem ne_null {id : HtableKey} {e : Entry} (he : v.entries.lookup id = some e) :
    id ≠ HtableKey.null := by
  rintro rfl
  rw [h.nonnull] at he
  cases he

theorem index {id : HtableKey} {e : Entry} (he : v.entries.lookup id = some e) :
    ∃ i < 2 ^ k, htableGetBlobIndex s id = (i, true) ∧ s.table.blobIds i = id ∧
      s.table.blobData i = e.blk ∧ s.table.blobValidUntil i = e.validUntil := by
  have hid := h.ne_null he
  obtain ⟨i, hi, hkey⟩ := h.found id e he
  have hslot := h.slot i hi (by rw [hkey]; exact hid)
  rw [hkey, he, Option.some_inj] at hslot
  subst hslot
  refine ⟨i, hi, ?_, hkey, rfl, rfl⟩
  have hl : lpLookup storageHost s.table.blobIds id (2 ^ k) = i :=
    lpLookup_of_present h.sound hi hkey hid
  rw [htableGetBlobIndex, h.size, hl]
  simp [hi.ne]

theorem index_none {id : HtableKey} (he : v.entries.lookup id = none) :
    htableGetBlobIndex s id = (2 ^ k, false) := by
  have hl : lpLookup storageHost s.table.blobIds id (2 ^ k) = 2 ^ k := by
    refine lpLookup_of_absent fun j hj hkey => ?_
    by_contra hid
    have hslot := h.slot j hj (by rw [hkey]; exact hid)
    rw [hkey, he] at hslot
    cases hslot
  rw [htableGetBlobIndex, h.size, hl]
  simp

theorem isAlreadyTaken (id : HtableKey) :
    storageBlobIsAlreadyTaken s id = (v.entries.lookup id).isSome := by
  have hidx : storageBlobIsAlreadyTaken s id = (htableGetBlobIndex s id).2 := by
    simp only [storageBlobIsAlreadyTaken, htableGetBlobIndex, bne_comm]
  rw [hidx]
  cases he : v.entries.lookup id with
  | none => rw [h.index_none he]; rfl
  | some e =>
    obtain ⟨i, _, hi, _⟩ := h.index he
    rw [hi]
    rfl

/-- **The entries of the arrays are the entries of the vault.** -/
theorem hasEntry_iff {id : HtableKey} {blk : Blk} {t : ℕ} :
    s.HasEntry id blk t ↔ v.entries.lookup id = some ⟨blk, t⟩ := by
  constructor
  · rintro ⟨hid, j, hj, rfl, rfl, rfl⟩
    rw [h.size] at hj
    exact h.slot j hj hid
  · intro he
    obtain ⟨j, hj, _, hkey, hdata, huntil⟩ := h.index he
    exact ⟨h.ne_null he, j, by rw [h.size]; exact hj, hkey, hdata, huntil⟩

/-! ## Counting slots -/

theorem slotKey_inj {i j : ℕ} (hi : i < 2 ^ k) (hj : j < 2 ^ k)
    (hne : s.table.blobIds i ≠ HtableKey.null) (heq : s.table.blobIds i = s.table.blobIds j) :
    i = j :=
  (key_inj h.sound hi hj hne heq.symm).symm

theorem card_occupied :
    ((Finset.range (2 ^ k)).filter fun i => s.table.blobIds i ≠ HtableKey.null).card =
      v.entries.keys.card := by
  refine Finset.card_bij (fun i _ => s.table.blobIds i) ?_ ?_ ?_
  · intro i hi
    rw [Finset.mem_filter, Finset.mem_range] at hi
    exact Finmap.mem_keys.mpr (Finmap.mem_of_lookup_eq_some (h.slot i hi.1 hi.2))
  · intro i hi j hj heq
    rw [Finset.mem_filter, Finset.mem_range] at hi hj
    exact h.slotKey_inj hi.1 hj.1 hi.2 heq
  · intro id hid
    obtain ⟨e, he⟩ := Finmap.mem_iff.mp (Finmap.mem_keys.mp hid)
    obtain ⟨i, hi, hkey⟩ := h.found id e he
    exact ⟨i, by simp [hi, hkey, h.ne_null he], hkey⟩

/-- **`htable_free` counts the empty slots.** -/
theorem card_null :
    ((Finset.range (2 ^ k)).filter fun i => s.table.blobIds i = HtableKey.null).card =
      s.htableFree := by
  have h1 := Finset.card_filter_add_card_filter_not (s := Finset.range (2 ^ k))
    (fun i => s.table.blobIds i = HtableKey.null)
  have h2 := h.card_occupied
  have h3 := h.htableFree
  rw [Finset.card_range] at h1
  simp only [ne_eq] at h2
  omega

theorem exists_null (hfree : s.htableFree ≠ 0) :
    ∃ j < 2 ^ k, s.table.blobIds j = HtableKey.null := by
  rw [← h.card_null, Finset.card_ne_zero] at hfree
  obtain ⟨j, hj⟩ := hfree
  rw [Finset.mem_filter, Finset.mem_range] at hj
  exact ⟨j, hj.1, hj.2⟩

/-- **With an empty slot counted the search for one ends**, at the first on the probe path. -/
theorem findFreeSlot (id : HtableKey) (hfree : s.htableFree ≠ 0) :
    ∃ i < 2 ^ k, htableFindFreeSlot s id = some (some i) ∧ s.table.blobIds i = HtableKey.null ∧
      ∀ j < 2 ^ k, OnPath (2 ^ k) (homeOf storageHost (2 ^ k) id) i j →
        s.table.blobIds j ≠ HtableKey.null := by
  obtain ⟨i, hi, hfind, hempty, hpath⟩ :=
    @lpFindFreeSlot_spec _ _ _ storageHost s.table.blobIds id k (h.exists_null hfree)
  exact ⟨i, hi, by rw [htableFindFreeSlot, if_neg hfree, h.size, hfind]; rfl, hempty, hpath⟩

theorem congr {v' : Vault ι} (hentries : v'.entries = v.entries) (hfree : v'.free = v.free)
    (hmem : v'.mem = v.mem) : StorageRep inv k memory s v' where
  size := h.size
  sound := h.sound
  slot := by rw [hentries]; exact h.slot
  found := by rw [hentries]; exact h.found
  nonnull := by rw [hentries]; exact h.nonnull
  empty := h.empty
  htableFree := by rw [hentries]; exact h.htableFree
  balloc := by rw [hfree]; exact h.balloc
  mem := by rw [hmem]; exact h.mem
  invalid := h.invalid

/-! ## Erasing a slot -/

/-- **Erasing the slot of an id and clearing the slot `lp_erase` returns erases the entry**,
whatever the block of the cleared slot. -/
theorem erased {id : HtableKey} {e : Entry} {start hole : ℕ} {t : Htable} {s' : Storage}
    {v' : Vault ι} (he : v.entries.lookup id = some e) (hstart : start < 2 ^ k)
    (hkey : s.table.blobIds start = id)
    (her : Erased storageHost (2 ^ k) s.table start t hole)
    (hids : s'.table.blobIds = Function.update t.blobIds hole HtableKey.null)
    (hdata : ∀ j, j ≠ hole → s'.table.blobData j = t.blobData j)
    (huntil : s'.table.blobValidUntil = Function.update t.blobValidUntil hole validUntilEmpty)
    (hfree : s'.htableFree = s.htableFree + 1) (hsize : s'.htableSize = s.htableSize)
    (hballoc : s'.ballocData = s.ballocData) (hmem : s'.mem = s.mem)
    (hinv : s'.blobIdsInvalid = s.blobIdsInvalid)
    (hcnt : s'.blobIdsInvalidCount = s.blobIdsInvalidCount)
    (hentries' : v'.entries = v.entries.erase id) (hfree' : v'.free = v.free)
    (hmem' : v'.mem = v.mem) : StorageRep inv k memory s' v' := by
  obtain ⟨π, hπn, hπ, hk', hv'⟩ := her.perm
  replace hk' : t.blobIds = Function.update (s.table.blobIds ∘ π) hole HtableKey.null := hk'
  replace hv' : ∀ j, t.blobData j = s.table.blobData (π j) ∧
      t.blobValidUntil j = s.table.blobValidUntil (π j) := fun j => by
    have := congrFun hv' j
    exact ⟨congrArg Prod.fst this, congrArg Prod.snd this⟩
  have hids' : s'.table.blobIds = t.blobIds := by
    rw [hids, hk', Function.update_idem]
  have hat : ∀ j, j ≠ hole → s'.table.blobIds j = s.table.blobIds (π j) := fun j hj => by
    rw [hids', hk', Function.update_of_ne hj, Function.comp_apply]
  have hhole : s'.table.blobIds hole = HtableKey.null := by rw [hids, Function.update_self]
  -- an occupied slot other than `start` does not hold `id`
  have hother : ∀ j, j ≠ hole → j < 2 ^ k → s.table.blobIds (π j) ≠ HtableKey.null →
      s.table.blobIds (π j) ≠ id := by
    intro j hj hjk hne heq
    have := h.slotKey_inj ((hπn j).mpr hjk) hstart hne (heq.trans hkey.symm)
    exact hj (π.injective (this.trans hπ.symm))
  refine ⟨hsize.trans h.size, ?_, ?_, ?_, ?_, ?_, ?_, ?_, ?_, ?_⟩
  · have := her.sound
    rwa [show storageHost.keys t = s'.table.blobIds from hids'.symm] at this
  · intro j hj hne
    have hjh : j ≠ hole := fun e => hne (by rw [e, hhole])
    rw [hat j hjh] at hne ⊢
    rw [hentries', Finmap.lookup_erase_ne (hother j hjh hj hne), h.slot _ ((hπn j).mpr hj) hne,
      hdata j hjh, huntil, Function.update_of_ne hjh, (hv' j).1, (hv' j).2]
  · intro id' e' he'
    rw [hentries'] at he'
    have hne : id' ≠ id := fun hc => by
      rw [hc, Finmap.lookup_erase] at he'
      cases he'
    obtain ⟨i, hi, hid'⟩ := h.found id' e' (lookup_of_erase he')
    have hjh : π.symm i ≠ hole := fun hc => by
      rw [← hc, Equiv.apply_symm_apply] at hπ
      rw [← hid', hπ, hkey] at hne
      exact hne rfl
    refine ⟨π.symm i, (hπn _).mp (by rwa [Equiv.apply_symm_apply]), ?_⟩
    rw [hat _ hjh, Equiv.apply_symm_apply, hid']
  · rw [hentries', Finmap.lookup_erase_ne (h.ne_null he).symm]
    exact h.nonnull
  · intro j hj hnull
    by_cases hjh : j = hole
    · rw [hjh, huntil, Function.update_self]
    · rw [hat j hjh] at hnull
      rw [huntil, Function.update_of_ne hjh, (hv' j).2]
      exact h.empty _ ((hπn j).mpr hj) hnull
  · have hmem : id ∈ v.entries.keys := Finmap.mem_keys.mpr (Finmap.mem_of_lookup_eq_some he)
    have h1 := h.htableFree
    have h2 := Finset.card_pos.mpr ⟨id, hmem⟩
    rw [hentries', Finmap.keys_erase, Finset.card_erase_of_mem hmem, hfree]
    omega
  · rw [hballoc, hmem, hfree']
    exact h.balloc
  · rw [hmem, hmem', h.mem]
  · rw [hinv, hcnt, h.invalid]

theorem eraseSlot {id : HtableKey} {e : Entry} {start : ℕ} (hk : k ≤ 64)
    (he : v.entries.lookup id = some e) (hstart : start < 2 ^ k)
    (hkey : s.table.blobIds start = id) :
    ∃ t hole, htableEraseSlot s start = some ({ s with table := t }, hole) ∧
      Erased storageHost (2 ^ k) s.table start t hole := by
  have hne : storageHost.keys s.table start ≠ storageHost.null := by
    change s.table.blobIds start ≠ HtableKey.null
    rw [hkey]
    exact h.ne_null he
  obtain ⟨t, hole, h1, h2⟩ := lpErase_spec hk h.sound hstart hne
  exact ⟨t, hole, by rw [htableEraseSlot, h.size, h1]; rfl, h2⟩

end StorageRep

/-! ## The operations -/

section Operations

variable {ι : Type} {inv : (ℕ → HtableKey) × ℕ} {k memory : ℕ} {s : Storage} {v : Vault ι}
  (h : StorageRep inv k memory s v)
include h

theorem storageBlobFree_rep (hA : Arena memory) {b : Blk} (hb : BlkOk memory b)
    (hfree : ∀ j < bucketsCount, b.data ∉ v.free j) :
    StorageRep inv k memory (storageBlobFree s b) (v.giveBack b) := by
  have hz : BallocRep memory s.ballocData (s.mem.zero b.data b.size) v.free :=
    h.balloc.frame_item hb.bindex_lt hb.item hfree fun x hx => by
      have := hb.le_itemSize
      exact Mem.zero_of_outside (by omega)
  refine ⟨h.size, h.sound, h.slot, h.found, h.nonnull, h.empty, h.htableFree,
    bfree_rep hA hz hb.bindex_lt hb.item hfree, ?_, h.invalid⟩
  change (s.mem.zero b.data b.size).storeWord b.data
    (s.ballocData.buckets (bindex b.size)).nextFree = _
  rw [h.balloc.nextFree_eq hb.bindex_lt, h.mem]
  rfl

theorem storageBlobPublish_rep (id : HtableKey) (t : ℕ) :
    (storageBlobPublish s id t).2 = (v.publish id t).2 ∧
      StorageRep inv k memory (storageBlobPublish s id t).1 (v.publish id t).1 := by
  unfold storageBlobPublish Vault.publish
  cases he : v.entries.lookup id with
  | none =>
    rw [h.index_none he]
    exact ⟨rfl, h⟩
  | some e =>
    obtain ⟨i, hi, hidx, hkey, hdata, huntil⟩ := h.index he
    rw [hidx]
    have hid := h.ne_null he
    refine ⟨rfl, h.size, h.sound, ?_, ?_, ?_, ?_, ?_, h.balloc, h.mem, h.invalid⟩
    · intro j hj hne
      change (v.entries.insert id _).lookup (s.table.blobIds j) =
        some ⟨s.table.blobData j, Function.update s.table.blobValidUntil i t j⟩
      by_cases hji : j = i
      · rw [hji, hkey, Finmap.lookup_insert, hdata, Function.update_self]
      · have : s.table.blobIds j ≠ id := fun hc =>
          hji (h.slotKey_inj hj hi hne (hc.trans hkey.symm))
        rw [Finmap.lookup_insert_of_ne _ this, h.slot j hj hne, Function.update_of_ne hji]
    · intro id' e' he'
      by_cases hc : id' = id
      · exact ⟨i, hi, hkey.trans hc.symm⟩
      · exact h.found id' e' (by rwa [← Finmap.lookup_insert_of_ne _ hc])
    · rw [Finmap.lookup_insert_of_ne _ hid.symm]
      exact h.nonnull
    · intro j hj hnull
      have hji : j ≠ i := fun hc => hid (by rw [← hkey, ← hc]; exact hnull)
      exact (Function.update_of_ne hji _ _).trans (h.empty j hj hnull)
    · have hkeys : (v.entries.insert id { e with validUntil := t }).keys = v.entries.keys := by
        ext id'
        rw [Finmap.mem_keys, Finmap.mem_keys, Finmap.mem_insert]
        exact ⟨fun hc => hc.elim (fun hc => hc ▸ Finmap.mem_of_lookup_eq_some he) fun hm => hm,
          Or.inr⟩
      rw [hkeys]
      exact h.htableFree

/-- **`storage_blob_abort`** erases the entry and frees its block. -/
theorem storageBlobAbort_rep (hA : Arena memory) (hk : k ≤ 64) (ho : Owned memory v)
    (id : HtableKey) :
    ∃ s', storageBlobAbort s id = some s' ∧ StorageRep inv k memory s' (v.abort id) := by
  unfold storageBlobAbort Vault.abort
  cases he : v.entries.lookup id with
  | none =>
    rw [h.index_none he]
    exact ⟨s, rfl, h⟩
  | some e =>
    obtain ⟨i, hi, hidx, hkey, hdata, huntil⟩ := h.index he
    obtain ⟨t, hole, herase, her⟩ := h.eraseSlot hk he hi hkey
    rw [hidx]
    simp only [if_true, herase, Option.map_some]
    refine ⟨_, rfl, ?_⟩
    -- the block of the cleared slot is the block of the entry
    have hblk : t.blobData hole = e.blk := by
      obtain ⟨π, _, hπ, _, hv⟩ := her.perm
      have := congrArg Prod.fst (congrFun hv hole)
      rw [Function.comp_apply, hπ] at this
      exact this.trans hdata
    have hrep : StorageRep inv k memory { s with
        table := { t with
          blobIds := Function.update t.blobIds hole HtableKey.null
          blobData := Function.update t.blobData hole Blk.zero
          blobValidUntil := Function.update t.blobValidUntil hole validUntilEmpty }
        htableFree := s.htableFree + 1 } { v with entries := v.entries.erase id } :=
      h.erased he hi hkey her rfl (fun j hj => Function.update_of_ne hj _ _) rfl rfl rfl rfl rfl rfl
        rfl rfl rfl rfl
    rw [hblk]
    exact storageBlobFree_rep hrep hA (ho.entry_ok id e he).1 (ho.stored_not_free he)

theorem storageBlobGet_none {id : HtableKey}
    (he : ∀ e, v.entries.lookup id = some e → ¬ e.Published) :
    storageBlobGet s id = some (s, Blk.zero) := by
  unfold storageBlobGet
  cases hl : v.entries.lookup id with
  | none =>
    rw [h.index_none hl]
    rfl
  | some e =>
    obtain ⟨i, _, hidx, _, _, huntil⟩ := h.index hl
    have hun : e.validUntil = validUntilNotPublished := not_not.mp (he e hl)
    rw [hidx]
    simp [huntil, hun]

/-- **`storage_blob_get`** of a published id erases the entry and returns its block. -/
theorem storageBlobGet_some (hk : k ≤ 64) {id : HtableKey} {e : Entry}
    (he : v.entries.lookup id = some e) (hpub : e.Published) (v' : Vault ι)
    (hentries : v'.entries = v.entries.erase id) (hfree : v'.free = v.free) (hmem : v'.mem = v.mem) :
    ∃ s', storageBlobGet s id = some (s', e.blk) ∧ StorageRep inv k memory s' v' := by
  obtain ⟨i, hi, hidx, hkey, hdata, huntil⟩ := h.index he
  obtain ⟨t, hole, herase, her⟩ := h.eraseSlot hk he hi hkey
  have hpub' : validUntilNotPublished ≠ s.table.blobValidUntil i := by
    rw [huntil]
    exact Ne.symm hpub
  unfold storageBlobGet
  rw [hidx]
  simp only [if_true, if_pos hpub', herase, Option.map_some, hdata]
  exact ⟨_, rfl, h.erased he hi hkey her rfl (fun _ _ => rfl) rfl rfl rfl rfl rfl rfl rfl
    hentries hfree hmem⟩

theorem storageBlobGet_rep [DecidableEq ι] (hk : k ≤ 64) (keeper : Blk → ι) (id : HtableKey) :
    ∃ s', storageBlobGet s id = some (s', (v.get keeper id).2) ∧
      StorageRep inv k memory s' (v.get keeper id).1 := by
  unfold Vault.get
  cases he : v.entries.lookup id with
  | none => exact ⟨s, storageBlobGet_none h (by simp [he]), h⟩
  | some e =>
    simp only
    split_ifs with hpub
    · exact storageBlobGet_some h hk he hpub _ rfl rfl rfl
    · refine ⟨s, storageBlobGet_none h fun e' he' => ?_, h⟩
      rw [he] at he'
      cases he'
      exact hpub

theorem card_eq_iff : v.entries.keys.card = 2 ^ k ↔ s.htableFree = 0 := by
  have := h.htableFree
  omega

theorem storageBlobCreate_none {id : HtableKey} {size : ℕ} (hmin : blobSizeMin ≤ size)
    (hmax : size ≤ blobSizeMax)
    (hfail : id = HtableKey.null ∨ v.entries.keys.card = 2 ^ k ∨ v.free (bindex size) = []) :
    storageBlobCreate s id size = some (s, Blk.zero) := by
  have hpos : 0 < size := lt_of_lt_of_le (by decide) hmin
  unfold storageBlobCreate
  by_cases hnull : id = HtableKey.null
  · rw [if_pos ((keyIsNull_iff id).mpr hnull)]
  rw [if_neg (mt (keyIsNull_iff id).mp hnull)]
  rw [card_eq_iff h] at hfail
  by_cases hfull : s.htableFree = 0
  · rw [htableFindFreeSlot, if_pos hfull]
  obtain ⟨i, _, hfind, _⟩ := h.findFreeSlot id hfull
  have hi := bindex_lt (le_trans (by decide) hmin) hmax
  have hnil := (hfail.resolve_left hnull).resolve_left hfull
  rw [hfind]
  simp only [balloc_nil h.balloc hi hnil]
  rw [if_pos (by exact hpos)]

/-- **`storage_blob_create`** fills the first empty slot of the id's probe path. -/
theorem storageBlobCreate_some {id : HtableKey} {size a : ℕ} {l : List ℕ}
    (hmin : blobSizeMin ≤ size) (hmax : size ≤ blobSizeMax) (habs : v.entries.lookup id = none)
    (hnull : id ≠ HtableKey.null) (hcard : v.entries.keys.card ≠ 2 ^ k)
    (hcons : v.free (bindex size) = a :: l) :
    ∃ s', storageBlobCreate s id size = some (s', ⟨a, size⟩) ∧
      StorageRep inv k memory s' { v with
        entries := v.entries.insert id ⟨⟨a, size⟩, validUntilNotPublished⟩
        free := Function.update v.free (bindex size) l } := by
  have hfull : s.htableFree ≠ 0 := fun h0 => hcard ((card_eq_iff h).mpr h0)
  obtain ⟨i, hi, hfind, hempty, hpath⟩ := h.findFreeSlot id hfull
  obtain ⟨ba', hballoc, hrep⟩ := balloc_cons h.balloc (bindex_lt (le_trans (by decide) hmin) hmax) hcons
  have hbusy : ∀ j < 2 ^ k, s.table.blobIds j ≠ id := by
    intro j hj hc
    have hslot := h.slot j hj (by rw [hc]; exact hnull)
    rw [hc, habs] at hslot
    cases hslot
  unfold storageBlobCreate
  rw [if_neg (mt (keyIsNull_iff id).mp hnull), hfind]
  simp only [hballoc]
  rw [if_neg (lt_irrefl size)]
  refine ⟨_, rfl, h.size, ?_, ?_, ?_, ?_, ?_, ?_, hrep, h.mem, h.invalid⟩
  · have hsound := h.sound.insert (k := id) hi ((slotKey_eq_none storageHost).mpr hempty)
      (fun j hj hp => mt (slotKey_eq_none storageHost).mp (hpath j hj hp))
      (fun j hj => mt (fun hc => ((slotKey_eq_some storageHost).mp hc).1) (hbusy j hj))
    rw [← slotKey_update hnull] at hsound
    exact hsound
  · intro j hj hne
    change Function.update s.table.blobIds i id j ≠ HtableKey.null at hne
    change (v.entries.insert id _).lookup (Function.update s.table.blobIds i id j) = _
    by_cases hji : j = i
    · subst hji
      simp only [Function.update_self]
      rw [Function.update_self, Finmap.lookup_insert]
    · simp only [Function.update_of_ne hji] at hne ⊢
      rw [Function.update_of_ne hji, Finmap.lookup_insert_of_ne _ (hbusy j hj), h.slot j hj hne]
  · intro id' e' he'
    by_cases hc : id' = id
    · exact ⟨i, hi, by simp [hc]⟩
    · rw [Finmap.lookup_insert_of_ne _ hc] at he'
      obtain ⟨j, hj, hkey⟩ := h.found id' e' he'
      have hji : j ≠ i := fun e => h.ne_null he' (by rw [← hkey, e]; exact hempty)
      exact ⟨j, hj, by simpa [hji] using hkey⟩
  · rw [Finmap.lookup_insert_of_ne _ hnull.symm]
    exact h.nonnull
  · intro j hj hn
    by_cases hji : j = i
    · subst hji
      simp only [Function.update_self] at hn
      exact absurd hn hnull
    · simp only [Function.update_of_ne hji] at hn ⊢
      exact h.empty j hj hn
  · have hkeys : (v.entries.insert id ⟨⟨a, size⟩, validUntilNotPublished⟩).keys =
        insert id v.entries.keys := by
      ext id'
      rw [Finmap.mem_keys, Finset.mem_insert, Finmap.mem_insert, Finmap.mem_keys]
    have hmem : id ∉ v.entries.keys := by
      rw [Finmap.mem_keys]
      exact Finmap.lookup_eq_none.mp habs
    have := h.htableFree
    simp only [hkeys, Finset.card_insert_of_notMem hmem]
    omega

theorem storageBlobCreate_rep {id : HtableKey} {size : ℕ} (hmin : blobSizeMin ≤ size)
    (hmax : size ≤ blobSizeMax) (habs : v.entries.lookup id = none) :
    ∃ s', storageBlobCreate s id size = some (s', (v.create (2 ^ k) id size).2) ∧
      StorageRep inv k memory s' (v.create (2 ^ k) id size).1 := by
  unfold Vault.create
  split_ifs with hfail
  · exact ⟨s, storageBlobCreate_none h hmin hmax (hfail.imp_right Or.inl), h⟩
  · push Not at hfail
    cases hcons : v.free (bindex size) with
    | nil => exact ⟨s, storageBlobCreate_none h hmin hmax (Or.inr (Or.inr hcons)), h⟩
    | cons a l => exact storageBlobCreate_some h hmin hmax habs hfail.1 hfail.2 hcons

theorem storeInBlock_rep (ho : Owned memory v) {id : HtableKey} {e : Entry} {r : ℕ}
    {bs : List UInt8} (he : v.entries.lookup id = some e) (hr : r + bs.length ≤ e.blk.size) :
    StorageRep inv k memory { s with mem := s.mem.store (e.blk.data + r) bs }
      (v.write (e.blk.data + r) bs) := by
  have hb := (ho.entry_ok id e he).1
  refine ⟨h.size, h.sound, h.slot, h.found, h.nonnull, h.empty, h.htableFree, ?_, ?_, h.invalid⟩
  · refine h.balloc.frame_item hb.bindex_lt hb.item (ho.stored_not_free he) fun x hx => ?_
    have := hb.le_itemSize
    exact Mem.store_of_outside (by omega)
  · simp only [Vault.write, h.mem]

end Operations

/-! ## The start -/

/-- **`storage_init`** represents the empty store. -/
theorem storageInit_rep {ι : Type} {k mallocated : ℕ} (hA : Arena (arenaStart mallocated (2 ^ k))) :
    StorageRep noIds k (arenaStart mallocated (2 ^ k)) (storageInit mallocated (2 ^ k))
      (Vault.init ι mallocated (2 ^ k)) where
  size := rfl
  sound := by
    have hsound : Sound (2 ^ k) (homeOf storageHost (2 ^ k)) fun _ => none :=
      Sound.empty (by positivity)
    convert hsound using 1
    funext i
    exact (slotKey_eq_none storageHost).mpr rfl
  slot i _ hne := absurd rfl hne
  found id e he := by
    rw [Vault.init, Finmap.lookup_empty] at he
    cases he
  nonnull := Finmap.lookup_empty _
  empty _ _ _ := rfl
  htableFree := by simp [Vault.init, storageInit]
  balloc := binit_rep hA
  mem := rfl
  invalid := rfl

end Adnihilum
