import Adnihilum.Storage.Runs

/-!
# What the reaper leaves

The reaper in any state that the calls of `storage.h`, the writes of the uploads and earlier
reapings can lead to.

* `StoreReach`: these states, with the blocks that were fetched and not freed yet; `StoreReach.rep`.
* `Vault.mem_free_foldl_abort`, `Vault.load_foldl_abort`: what aborting ids frees, and what it does
  not touch.
* **`reaper_removes_expired`**.
-/

namespace Adnihilum

open FlatMemory OpenAddressing Custody

/-- Item `a` is on the free list of bucket `i`. -/
def Storage.IsFree (s : Storage) (i a : ℕ) : Prop :=
  ∃ l, Linked (nextPtr s.mem) (asPtr (s.ballocData.buckets i).nextFree) l ∧ a ∈ l

/-- The states of a store with a table of `2 ^ k` slots, with the blocks that `storage_blob_get`
returned and that are not freed yet. The callers create absent ids only, check the size before,
write inside the blocks of entries, and free what they got. -/
inductive StoreReach (mallocated k : ℕ) : Storage → (ℕ → Option Blk) → Prop
  | init : StoreReach mallocated k (storageInit mallocated (2 ^ k)) fun _ => none
  | create {s s' : Storage} {out : ℕ → Option Blk} {id : HtableKey} {size : ℕ} {blk : Blk}
      (h : StoreReach mallocated k s out) (hnew : storageBlobIsAlreadyTaken s id = false)
      (hmin : blobSizeMin ≤ size) (hmax : size ≤ blobSizeMax)
      (hrun : storageBlobCreate s id size = some (s', blk)) : StoreReach mallocated k s' out
  | write {s : Storage} {out : ℕ → Option Blk} {id : HtableKey} {blk : Blk} {t r : ℕ}
      {bytes : List UInt8} (h : StoreReach mallocated k s out) (hentry : s.HasEntry id blk t)
      (hfit : r + bytes.length ≤ blk.size) :
      StoreReach mallocated k { s with mem := s.mem.store (blk.data + r) bytes } out
  | publish {s : Storage} {out : ℕ → Option Blk} (id : HtableKey) (t : UInt32)
      (h : StoreReach mallocated k s out) :
      StoreReach mallocated k (storageBlobPublish s id t.toNat).1 out
  | abort {s s' : Storage} {out : ℕ → Option Blk} {id : HtableKey} (h : StoreReach mallocated k s out)
      (hrun : storageBlobAbort s id = some s') : StoreReach mallocated k s' out
  | get {s s' : Storage} {out : ℕ → Option Blk} {id : HtableKey} {blk : Blk}
      (h : StoreReach mallocated k s out) (hrun : storageBlobGet s id = some (s', blk)) :
      StoreReach mallocated k s'
        (if blk.size = 0 then out else Function.update out blk.data (some blk))
  | free {s : Storage} {out : ℕ → Option Blk} {blk : Blk} (h : StoreReach mallocated k s out)
      (hout : out blk.data = some blk) :
      StoreReach mallocated k (storageBlobFree s blk) (Function.update out blk.data none)
  | reap {s s' : Storage} {out : ℕ → Option Blk} {timeNow : ℕ} (h : StoreReach mallocated k s out)
      (hnow : timeNow < validUntilEmpty) (hrun : storageReaper s timeNow = some s') :
      StoreReach mallocated k s' out

/-! ## Aborting -/

namespace Vault

variable {memory : ℕ} {v : Vault ℕ}

theorem foldl_abort_out (ids : List HtableKey) : ∀ v : Vault ℕ, (ids.foldl abort v).out = v.out := by
  induction ids with
  | nil => exact fun _ => rfl
  | cons id ids ih => exact fun v => (ih _).trans (v.abort_out id)

theorem mem_free_abort {id : HtableKey} {i a : ℕ} : a ∈ (v.abort id).free i ↔
    a ∈ v.free i ∨ ∃ e, v.entries.lookup id = some e ∧ bindex e.blk.size = i ∧ e.blk.data = a := by
  unfold abort
  cases he : v.entries.lookup id with
  | none => exact ⟨.inl, fun h => h.resolve_right fun ⟨_, hc, _⟩ => (by cases hc)⟩
  | some e =>
    simp only [giveBack, Option.some_inj, exists_eq_left']
    by_cases hi : bindex e.blk.size = i
    · subst hi
      rw [Function.update_self, List.mem_cons]
      exact ⟨fun h => h.symm.imp_right fun h => ⟨rfl, h.symm⟩,
        fun h => h.symm.imp_left fun h => h.2.symm⟩
    · rw [Function.update_of_ne (Ne.symm hi)]
      exact ⟨.inl, fun h => h.resolve_right fun hc => hi hc.1⟩

theorem mem_free_foldl_abort {i a : ℕ} (ids : List HtableKey) :
    ∀ v : Vault ℕ, ids.Nodup → (a ∈ (ids.foldl abort v).free i ↔ a ∈ v.free i ∨
      ∃ id ∈ ids, ∃ e, v.entries.lookup id = some e ∧ bindex e.blk.size = i ∧ e.blk.data = a) := by
  -- by induction on the ids; aborting one does not change the entries of the others
  induction ids with
  | nil => simp
  | cons id ids ih =>
    intro v hnd
    rw [List.nodup_cons] at hnd
    rw [List.foldl_cons, ih _ hnd.2, mem_free_abort, or_assoc]
    refine or_congr_right ?_
    have hrest : ∀ id' ∈ ids, (v.abort id).entries.lookup id' = v.entries.lookup id' :=
      fun id' hid' => by
        rw [lookup_abort, if_neg]
        rintro rfl
        exact hnd.1 hid'
    constructor
    · rintro (he | ⟨id', hid', he⟩)
      · exact ⟨id, List.mem_cons_self, he⟩
      · rw [hrest id' hid'] at he
        exact ⟨id', List.mem_cons_of_mem _ hid', he⟩
    · rintro ⟨id', hid', he⟩
      rcases List.mem_cons.mp hid' with rfl | hid'
      · exact .inl he
      · refine .inr ⟨id', hid', ?_⟩
        rw [hrest id' hid']
        exact he

theorem load_abort (ho : Owned memory v) {id id' : HtableKey} {e : Entry} (hne : id' ≠ id)
    (he : v.entries.lookup id' = some e) :
    (v.abort id).mem.load e.blk.data e.blk.size = v.mem.load e.blk.data e.blk.size := by
  unfold abort
  cases he₀ : v.entries.lookup id with
  | none => rfl
  | some e₀ =>
    exact load_giveBack (ho.entry_ok id e₀ he₀).1 (ho.entry_ok id' e he).1
      (fun hd => hne (ho.stored_inj he he₀ hd)) le_rfl

theorem load_foldl_abort (ids : List HtableKey) : ∀ {v : Vault ℕ}, Owned memory v →
    ∀ {id : HtableKey} {e : Entry}, id ∉ ids → v.entries.lookup id = some e →
      (ids.foldl abort v).mem.load e.blk.data e.blk.size = v.mem.load e.blk.data e.blk.size := by
  induction ids with
  | nil => exact fun _ _ _ _ _ => rfl
  | cons id ids ih =>
    intro v ho id' e hmem he
    rw [List.mem_cons, not_or] at hmem
    have he' : (v.abort id).entries.lookup id' = some e := by
      rw [lookup_abort, if_neg hmem.1]
      exact he
    exact (ih (ho.abort id) hmem.2 he').trans (load_abort ho hmem.1 he)

theorem get_out (ho : Owned memory v) (id : HtableKey) : (v.get Blk.data id).1.out =
    if (v.get Blk.data id).2.size = 0 then v.out
    else Function.update v.out (v.get Blk.data id).2.data (some (v.get Blk.data id).2) := by
  unfold get
  cases he : v.entries.lookup id with
  | none => rfl
  | some e =>
    by_cases hpub : e.Published
    · simp only [if_pos hpub, if_neg (ho.entry_ok id e he).1.size_ne_zero]
    · simp only [if_neg hpub]
      rfl

theorem release_out {a : ℕ} (v : Vault ℕ) : (v.release a).out = Function.update v.out a none := by
  unfold release
  cases ha : v.out a with
  | none => exact (Function.update_eq_self_iff.mpr ha.symm).symm
  | some b => rfl

end Vault

/-! ## Reachable states -/

section Reach

variable {mallocated k timeNow : ℕ} {s : Storage} {out : ℕ → Option Blk}

theorem available_of_expired {inv : (ℕ → HtableKey) × ℕ} {memory : ℕ} {v : Vault ℕ}
    (h : StorageRep inv k memory s v) (hnow : timeNow < validUntilEmpty) :
    ∀ id ∈ expiredIds s timeNow, v.Available id := by
  intro id hid
  obtain ⟨e, he, hlt⟩ := (mem_expiredIds h hnow.le).mp hid
  refine ⟨e, he, fun hunpub => ?_⟩
  rw [hunpub, validUntilNotPublished] at hlt
  omega

/-- **Every reachable state represents a vault**: the run on the vault, call by call. -/
theorem StoreReach.rep (hA : Arena (arenaStart mallocated (2 ^ k)))
    (h : StoreReach mallocated k s out) :
    ∃ v : Vault ℕ, StorageRep noIds k (arenaStart mallocated (2 ^ k)) s v ∧
      Owned (arenaStart mallocated (2 ^ k)) v ∧ OutByAddress v ∧ v.out = out := by
  have hk := le_of_arena hA
  induction h with
  | init => exact ⟨Vault.init ℕ mallocated (2 ^ k), storageInit_rep hA, Vault.init_owned,
      fun _ _ hb => (by cases hb), rfl⟩
  | @create s s' out id size blk _ hnew hmin hmax hrun ih =>
    obtain ⟨v, hrep, ho, hfiled, rfl⟩ := ih
    rw [hrep.isAlreadyTaken, Option.isSome_eq_false_iff, Option.isNone_iff_eq_none] at hnew
    have hvalid : (StoreOp.create id size).Valid v := ⟨hnew, hmin, hmax⟩
    obtain ⟨s₁, hrun', hrep', ho', hfiled'⟩ := StoreOp.run_spec hA hk hrep ho hfiled hvalid
    rw [StoreOp.run, hrun] at hrun'
    obtain rfl : s' = s₁ := congrArg Prod.fst (Option.some.inj hrun')
    exact ⟨_, hrep', ho', hfiled', v.create_out id _ _⟩
  | write _ hentry hfit ih =>
    obtain ⟨v, hrep, ho, hfiled, rfl⟩ := ih
    exact ⟨_, storeInBlock_rep hrep ho (hrep.hasEntry_iff.mp hentry) hfit, ho.write _ _, hfiled, rfl⟩
  | publish id t _ ih =>
    obtain ⟨v, hrep, ho, hfiled, rfl⟩ := ih
    refine ⟨_, (storageBlobPublish_rep hrep id t.toNat).2, ho.publish id _, ?_, v.publish_out id _⟩
    rw [OutByAddress, v.publish_out]
    exact hfiled
  | @abort s s' out id _ hrun ih =>
    obtain ⟨v, hrep, ho, hfiled, rfl⟩ := ih
    have hvalid : (StoreOp.abort id).Valid v := trivial
    obtain ⟨s₁, hrun', hrep', ho', hfiled'⟩ := StoreOp.run_spec hA hk hrep ho hfiled hvalid
    rw [StoreOp.run, hrun] at hrun'
    obtain rfl : s' = s₁ := congrArg Prod.fst (Option.some.inj hrun')
    exact ⟨_, hrep', ho', hfiled', v.abort_out id⟩
  | @get s s' out id blk _ hrun ih =>
    obtain ⟨v, hrep, ho, hfiled, rfl⟩ := ih
    have hvalid : (StoreOp.get id).Valid v := trivial
    obtain ⟨s₁, hrun', hrep', ho', hfiled'⟩ := StoreOp.run_spec hA hk hrep ho hfiled hvalid
    rw [StoreOp.run, hrun] at hrun'
    obtain ⟨rfl, hblk⟩ := Prod.mk.inj (Option.some.inj hrun')
    obtain rfl : blk = (v.get Blk.data id).2 := StoreResult.blk.inj hblk
    exact ⟨_, hrep', ho', hfiled', Vault.get_out ho id⟩
  | @free s out blk _ hout ih =>
    obtain ⟨v, hrep, ho, hfiled, rfl⟩ := ih
    have hvalid : (StoreOp.free blk).Valid v := hout
    obtain ⟨s₁, hrun', hrep', ho', hfiled'⟩ := StoreOp.run_spec hA hk hrep ho hfiled hvalid
    obtain rfl : storageBlobFree s blk = s₁ := congrArg Prod.fst (Option.some.inj hrun')
    exact ⟨_, hrep', ho', hfiled', Vault.release_out v⟩
  | @reap s s' out timeNow _ hnow hrun ih =>
    obtain ⟨v, hrep, ho, hfiled, rfl⟩ := ih
    obtain ⟨s₁, hrun', hrep'⟩ :=
      storageReaper_rep hrep hA hk ho hnow.le (available_of_expired hrep hnow)
    obtain rfl := Option.some.inj (hrun'.symm.trans hrun)
    refine ⟨_, hrep', ho.foldl_abort _, ?_, Vault.foldl_abort_out _ v⟩
    rw [OutByAddress, Vault.foldl_abort_out]
    exact hfiled

theorem StorageRep.isFree_iff {inv : (ℕ → HtableKey) × ℕ} {memory : ℕ} {v : Vault ℕ}
    (h : StorageRep inv k memory s v) {i a : ℕ} (hi : i < bucketsCount) :
    s.IsFree i a ↔ a ∈ v.free i := by
  constructor
  · rintro ⟨l, hl, ha⟩
    rwa [hl.unique (h.balloc.linked i hi)] at ha
  · exact fun ha => ⟨v.free i, h.balloc.linked i hi, ha⟩

theorem reaperGather_count_le {memory : ℕ} {v : Vault ℕ} (h : StorageRep noIds k memory s v)
    (timeNow : ℕ) : (reaperGather s timeNow).blobIdsInvalidCount ≤ s.htableSize := by
  have hlen := congrArg List.length (idsInvalid_reaperGather h timeNow).1
  rw [idsInvalid, List.length_map, List.length_range] at hlen
  rw [hlen, expiredIds, List.length_map]
  exact (List.length_filter_le _ _).trans_eq List.length_range

/-- **The reaper removes exactly the expired entries.** In every reachable state and at every time
below `UINT32_MAX` it comes back; the entries are those before that are not published or have time
left, and the bytes of their blocks are unchanged; the blocks of the others are what became free. -/
theorem reaper_removes_expired (hA : Arena (arenaStart mallocated (2 ^ k)))
    (h : StoreReach mallocated k s out) (hnow : timeNow < validUntilEmpty) :
    (reaperGather s timeNow).blobIdsInvalidCount ≤ s.htableSize ∧
    ∃ s', storageReaper s timeNow = some s' ∧
      (∀ id blk t, s'.HasEntry id blk t ↔
        s.HasEntry id blk t ∧ (t = validUntilNotPublished ∨ timeNow ≤ t)) ∧
      (∀ id blk t, s'.HasEntry id blk t →
        s'.mem.load blk.data blk.size = s.mem.load blk.data blk.size) ∧
      ∀ i < bucketsCount, ∀ a, s'.IsFree i a ↔ s.IsFree i a ∨ ∃ id blk t, s.HasEntry id blk t ∧
        t ≠ validUntilNotPublished ∧ t < timeNow ∧ bindex blk.size = i ∧ blk.data = a := by
  have hk := le_of_arena hA
  obtain ⟨v, hrep, ho, -, -⟩ := h.rep hA
  have hexpired := @mem_expiredIds _ _ _ _ _ _ _ hrep hnow.le
  obtain ⟨s', hreap, hrep'⟩ := storageReaper_rep hrep hA hk ho hnow.le (available_of_expired hrep hnow)
  have hunpub : ∀ {t : ℕ}, t < timeNow → t ≠ validUntilNotPublished := fun hlt heq => by
    rw [heq, validUntilNotPublished] at hlt
    omega
  have hkept : ∀ id blk t, s'.HasEntry id blk t ↔
      id ∉ expiredIds s timeNow ∧ v.entries.lookup id = some ⟨blk, t⟩ := fun id blk t => by
    rw [hrep'.hasEntry_iff, Vault.lookup_foldl_abort]
    split_ifs with hid <;> simp [hid]
  refine ⟨reaperGather_count_le hrep timeNow, s', hreap, fun id blk t => ?_, fun id blk t hentry => ?_,
    fun i hi a => ?_⟩
  · rw [hkept, hrep.hasEntry_iff, and_comm]
    refine and_congr_right fun he => ?_
    rw [hexpired, he]
    simp only [Option.some_inj, exists_eq_left', not_lt]
    exact ⟨.inr, fun ht => ht.elim (fun heq => not_lt.mp fun hlt => hunpub hlt heq) fun hle => hle⟩
  · obtain ⟨hid, he⟩ := (hkept id blk t).mp hentry
    rw [hrep'.mem, hrep.mem]
    exact Vault.load_foldl_abort _ ho hid he
  · rw [hrep'.isFree_iff hi, hrep.isFree_iff hi,
      Vault.mem_free_foldl_abort _ v (nodup_expiredIds hrep hnow.le)]
    refine or_congr_right ⟨?_, ?_⟩
    · rintro ⟨id, hid, ⟨blk, t⟩, he, hblk⟩
      obtain ⟨e, he', hlt⟩ := hexpired.mp hid
      obtain rfl := Option.some.inj (he.symm.trans he')
      exact ⟨id, blk, t, hrep.hasEntry_iff.mpr he, hunpub hlt, hlt, hblk⟩
    · rintro ⟨id, blk, t, hentry, -, hlt, hblk⟩
      have he := hrep.hasEntry_iff.mp hentry
      exact ⟨id, hexpired.mpr ⟨_, he, hlt⟩, _, he, hblk⟩

theorem storageBlobPublish_mem (id : HtableKey) (t : ℕ) : (storageBlobPublish s id t).1.mem = s.mem := by
  unfold storageBlobPublish
  dsimp only
  split_ifs <;> rfl

theorem StoreReach.published (hA : Arena (arenaStart mallocated (2 ^ k)))
    (h : StoreReach mallocated k s out) {id : HtableKey} {blk : Blk} {t₀ : ℕ}
    (hentry : s.HasEntry id blk t₀) (t : UInt32) :
    (storageBlobPublish s id t.toNat).1.HasEntry id blk t.toNat := by
  obtain ⟨v, hrep, -, -, -⟩ := h.rep hA
  rw [(storageBlobPublish_rep hrep id t.toNat).2.hasEntry_iff, Vault.lookup_publish, if_pos rfl,
    hrep.hasEntry_iff.mp hentry]
  rfl

theorem StoreReach.published_of_ne (hA : Arena (arenaStart mallocated (2 ^ k)))
    (h : StoreReach mallocated k s out) {id id' : HtableKey} {blk : Blk} {t₀ : ℕ} (hne : id' ≠ id)
    (hentry : s.HasEntry id' blk t₀) (t : UInt32) :
    (storageBlobPublish s id t.toNat).1.HasEntry id' blk t₀ := by
  obtain ⟨v, hrep, -, -, -⟩ := h.rep hA
  rw [(storageBlobPublish_rep hrep id t.toNat).2.hasEntry_iff, Vault.lookup_publish, if_neg hne,
    hrep.hasEntry_iff.mp hentry]

/-- A store of two slots, both taken: one entry lives until time 7, the other one until time 9. -/
theorem demo_filled : ∃ s a b, StoreReach 4096 1 s (fun _ => none) ∧ s.HasEntry ⟨0, 1⟩ ⟨a, 46⟩ 7 ∧
    s.HasEntry ⟨0, 2⟩ ⟨b, 300⟩ 9 ∧ s.mem.load b 300 = List.replicate 300 0xAB := by
  have hA : Arena (arenaStart 4096 (2 ^ 1)) := ⟨by decide, by decide⟩
  have hinit : StorageRep noIds 1 _ _ (Vault.init ℕ 4096 (2 ^ 1)) := storageInit_rep hA
  have hnone : ∀ id, (Vault.init ℕ 4096 (2 ^ 1)).entries.lookup id = none := Finmap.lookup_empty
  have hcons : ∀ n, ∃ a l, (Vault.init ℕ 4096 (2 ^ 1)).free (bindex n) = a :: l := fun n => by
    refine List.exists_cons_of_ne_nil (List.ne_nil_of_length_pos ?_)
    have hfree : (Vault.init ℕ 4096 (2 ^ 1)).free = initialFree (arenaStart 4096 (2 ^ 1)) := rfl
    rw [hfree, initialFree, List.length_reverse, List.length_map, List.length_range]
    exact bbucketCapacity_pos _
  obtain ⟨⟨a, l, ha⟩, ⟨b, l', hb⟩⟩ := And.intro (hcons 46) (hcons 300)
  obtain ⟨s₁, hcreate₁, hrep₁⟩ := storageBlobCreate_some hinit (by decide) (by decide) (hnone ⟨0, 1⟩)
    (by decide) (by simp [Vault.init]) ha
  have hreach₁ : StoreReach 4096 1 s₁ fun _ => none :=
    .create .init (by rw [hinit.isAlreadyTaken, hnone]; rfl) (by decide) (by decide) hcreate₁
  -- the second entry: it has another size, so its block comes from another bucket
  have hnew : (Finmap.insert (⟨0, 1⟩ : HtableKey) ⟨⟨a, 46⟩, validUntilNotPublished⟩
      (Vault.init ℕ 4096 (2 ^ 1)).entries).lookup ⟨0, 2⟩ = none := by
    rw [Finmap.lookup_insert_of_ne _ (by decide), hnone]
  have hcard : (Finmap.insert (⟨0, 1⟩ : HtableKey) ⟨⟨a, 46⟩, validUntilNotPublished⟩
      (Vault.init ℕ 4096 (2 ^ 1)).entries).keys = {⟨0, 1⟩} := by
    ext id
    rw [Finmap.mem_keys, Finmap.mem_insert, Finset.mem_singleton]
    exact or_iff_left (Finmap.lookup_eq_none.mp (hnone id))
  have hother : bindex 300 ≠ bindex 46 := by decide +kernel
  have hsize : blobSizeMin ≤ 300 ∧ 300 ≤ blobSizeMax := by decide +kernel
  have hcons₁ : Function.update (Vault.init ℕ 4096 (2 ^ 1)).free (bindex 46) l (bindex 300) =
      b :: l' := by rw [Function.update_of_ne hother, hb]
  obtain ⟨s₂, hcreate₂, hrep₂⟩ := storageBlobCreate_some hrep₁ hsize.1 hsize.2 hnew (by decide)
    (by rw [hcard]; decide) (by dsimp only; exact hcons₁)
  have hreach₂ : StoreReach 4096 1 s₂ fun _ => none :=
    .create hreach₁ (by rw [hrep₁.isAlreadyTaken, hnew]; rfl) hsize.1 hsize.2 hcreate₂
  -- its bytes arrive, and both are published
  have hfiled : s₂.HasEntry ⟨0, 2⟩ ⟨b, 300⟩ validUntilNotPublished := by
    rw [hrep₂.hasEntry_iff, Finmap.lookup_insert]
  have hfirst : s₂.HasEntry ⟨0, 1⟩ ⟨a, 46⟩ validUntilNotPublished := by
    rw [hrep₂.hasEntry_iff, Finmap.lookup_insert_of_ne _ (by decide), Finmap.lookup_insert]
  have hreach₃ := @StoreReach.write _ _ _ _ _ _ _ 0 (List.replicate 300 0xAB) hreach₂ hfiled
    (by rw [Nat.zero_add, List.length_replicate])
  have hreach₄ := hreach₃.publish ⟨0, 1⟩ 7
  refine ⟨_, a, b, hreach₄.publish ⟨0, 2⟩ 9, ?_, ?_, ?_⟩
  · exact hreach₄.published_of_ne hA (by decide) (hreach₃.published hA hfirst 7) 9
  · exact hreach₄.published hA (hreach₃.published_of_ne hA (by decide) hfiled 7) 9
  · have hload := Mem.load_store_self (m := s₂.mem) (a := b) (List.replicate 300 0xAB)
    rw [List.length_replicate] at hload
    rw [storageBlobPublish_mem, storageBlobPublish_mem]
    exact hload

/-- The reaper at time 8 takes the one and leaves the other, with its bytes. -/
theorem reaper_removes_expired_demo : ∃ s s' a b, s.HasEntry ⟨0, 1⟩ ⟨a, 46⟩ 7 ∧
    s.HasEntry ⟨0, 2⟩ ⟨b, 300⟩ 9 ∧ storageReaper s 8 = some s' ∧ ¬ s'.HasEntry ⟨0, 1⟩ ⟨a, 46⟩ 7 ∧
    s'.IsFree 0 a ∧ s'.HasEntry ⟨0, 2⟩ ⟨b, 300⟩ 9 ∧
    s'.mem.load b 300 = List.replicate 300 0xAB := by
  obtain ⟨s, a, b, hreach, hold, hyoung, hbytes⟩ := demo_filled
  have hA : Arena (arenaStart 4096 (2 ^ 1)) := ⟨by decide, by decide⟩
  obtain ⟨-, s', hreap, hkept, hmem, hfree⟩ := reaper_removes_expired hA hreach (by decide : 8 < _)
  have hbucket : bindex 46 = 0 := by decide
  have hstays : s'.HasEntry ⟨0, 2⟩ ⟨b, 300⟩ 9 := (hkept _ _ _).mpr ⟨hyoung, .inr (by decide)⟩
  refine ⟨s, s', a, b, hold, hyoung, hreap, fun hleft => ?_, ?_, hstays, ?_⟩
  · exact absurd ((hkept _ _ _).mp hleft).2 (by decide)
  · exact (hfree 0 (by decide) a).mpr
      (.inr ⟨⟨0, 1⟩, ⟨a, 46⟩, 7, hold, by decide, by decide, hbucket, rfl⟩)
  · exact (hmem _ _ _ hstays).trans hbytes

end Reach

end Adnihilum
