import Adnihilum.Storage.Reaper

/-!
# Runs of the blob store

Any sequence of calls of `storage.h`, from `storage_init` on, against the same sequence on the
vault. A block that was returned by `storage_blob_get` is filed under its address until it is freed.

* `StoreOp.run`, `StoreOp.spec`: one call on the arrays and on the vault; `StoreOp.Valid`: what the
  caller promises.
* `StoreOp.run_spec`: one call; `runOps_spec`: a sequence of calls.
* **`storage_refines_map`**: results and arrays of every run are those of the map.
-/

namespace Adnihilum

open FlatMemory OpenAddressing Custody

/-- A call of `storage.h`. -/
inductive StoreOp where
  | create (id : HtableKey) (size : ℕ)
  | publish (id : HtableKey) (validUntil : ℕ)
  | abort (id : HtableKey)
  | get (id : HtableKey)
  | isAlreadyTaken (id : HtableKey)
  | free (block : Blk)

/-- What a call returns. -/
inductive StoreResult where
  | unit
  | bool (b : Bool)
  | blk (b : Blk)
  deriving DecidableEq

namespace StoreOp

/-- The call on the arrays. -/
def run (s : Storage) : StoreOp → Option (Storage × StoreResult)
  | create id size => (storageBlobCreate s id size).map fun r => (r.1, .blk r.2)
  | publish id t => some ((storageBlobPublish s id t).1, .bool (storageBlobPublish s id t).2)
  | abort id => (storageBlobAbort s id).map fun s => (s, .unit)
  | get id => (storageBlobGet s id).map fun r => (r.1, .blk r.2)
  | isAlreadyTaken id => some (s, .bool (storageBlobIsAlreadyTaken s id))
  | free block => some (storageBlobFree s block, .unit)

/-- The call on the vault. -/
def spec (n : ℕ) (v : Vault ℕ) : StoreOp → Vault ℕ × StoreResult
  | create id size => ((v.create n id size).1, .blk (v.create n id size).2)
  | publish id t => ((v.publish id t).1, .bool (v.publish id t).2)
  | abort id => (v.abort id, .unit)
  | get id => ((v.get Blk.data id).1, .blk (v.get Blk.data id).2)
  | isAlreadyTaken id => (v, .bool (v.entries.lookup id).isSome)
  | free block => (v.release block.data, .unit)

/-- What the caller promises: `ahc` creates absent ids only and checks the size before, publishes
with a time of the clock and frees blocks that it got. -/
def Valid (v : Vault ℕ) : StoreOp → Prop
  | create id size => v.entries.lookup id = none ∧ blobSizeMin ≤ size ∧ size ≤ blobSizeMax
  | publish _ t => t < validUntilNotPublished
  | free block => v.out block.data = some block
  | _ => True

end StoreOp

/-- A sequence of calls on the arrays. -/
def runOps : List StoreOp → Storage → Option (Storage × List StoreResult)
  | [], s => some (s, [])
  | op :: ops, s =>
    match op.run s with
    | none => none
    | some (s, r) => (runOps ops s).map fun p => (p.1, r :: p.2)

/-- A sequence of calls on the vault. -/
def specOps (n : ℕ) : List StoreOp → Vault ℕ → Vault ℕ × List StoreResult
  | [], v => (v, [])
  | op :: ops, v =>
    let p := specOps n ops (op.spec n v).1
    (p.1, (op.spec n v).2 :: p.2)

/-- Every call of the sequence keeps the promises of its caller. -/
def AllValid (n : ℕ) : List StoreOp → Vault ℕ → Prop
  | [], _ => True
  | op :: ops, v => op.Valid v ∧ AllValid n ops (op.spec n v).1

/-- Blocks handed out are filed under their addresses. -/
def OutByAddress (v : Vault ℕ) : Prop := ∀ w b, v.out w = some b → b.data = w

/-- **The three arrays describe the map**: a slot with an id holds block and time of that id, and
every id of the map is in exactly one slot. -/
structure ArraysDescribe (k : ℕ) (s : Storage) (v : Vault ℕ) : Prop where
  slot : ∀ i < 2 ^ k, s.table.blobIds i ≠ HtableKey.null →
    v.entries.lookup (s.table.blobIds i) = some ⟨s.table.blobData i, s.table.blobValidUntil i⟩
  nonnull : v.entries.lookup HtableKey.null = none
  once : ∀ id e, v.entries.lookup id = some e → ∃! i, i < 2 ^ k ∧ s.table.blobIds i = id

theorem StorageRep.arraysDescribe {inv : (ℕ → HtableKey) × ℕ} {k memory : ℕ} {s : Storage}
    {v : Vault ℕ} (h : StorageRep inv k memory s v) : ArraysDescribe k s v := by
  refine ⟨h.slot, h.nonnull, fun id e he => ?_⟩
  obtain ⟨i, hi, hkey⟩ := h.found id e he
  refine ⟨i, ⟨hi, hkey⟩, fun j ⟨hj, hkey'⟩ => ?_⟩
  exact h.slotKey_inj hj hi (by rw [hkey']; exact h.ne_null he) (hkey'.trans hkey.symm)

section Runs

variable {inv : (ℕ → HtableKey) × ℕ} {k memory : ℕ}

/-- **One call**: the same result on both sides, and the invariants hold again. -/
theorem StoreOp.run_spec {s : Storage} {v : Vault ℕ} (hA : Arena memory) (hk : k ≤ 64)
    (h : StorageRep inv k memory s v) (ho : Owned memory v) (hout : OutByAddress v) {op : StoreOp}
    (hv : op.Valid v) : ∃ s', op.run s = some (s', (op.spec (2 ^ k) v).2) ∧
      StorageRep inv k memory s' (op.spec (2 ^ k) v).1 ∧ Owned memory (op.spec (2 ^ k) v).1 ∧
      OutByAddress (op.spec (2 ^ k) v).1 := by
  cases op with
  | create id size =>
    obtain ⟨habs, hmin, hmax⟩ := hv
    obtain ⟨s', hrun, hrep⟩ := storageBlobCreate_rep h hmin hmax habs
    exact ⟨s', by rw [StoreOp.run, hrun]; rfl, hrep, ho.create hmin hmax habs,
      by simpa [OutByAddress, StoreOp.spec] using hout⟩
  | publish id t =>
    obtain ⟨hres, hrep⟩ := storageBlobPublish_rep h id t
    exact ⟨_, by rw [StoreOp.run, hres]; rfl, hrep, ho.publish id t,
      by simpa [OutByAddress, StoreOp.spec] using hout⟩
  | abort id =>
    obtain ⟨s', hrun, hrep⟩ := storageBlobAbort_rep h hA hk ho id
    exact ⟨s', by rw [StoreOp.run, hrun]; rfl, hrep, ho.abort id,
      by simpa [OutByAddress, StoreOp.spec] using hout⟩
  | get id =>
    obtain ⟨s', hrun, hrep⟩ := storageBlobGet_rep h hk Blk.data id
    refine ⟨s', by rw [StoreOp.run, hrun]; rfl, hrep, ho.get fun e he => ?_, ?_⟩
    · -- the block is in its entry, so it is not filed as handed out
      cases hb : v.out e.blk.data with
      | none => rfl
      | some b => exact absurd (hout _ _ hb).symm (ho.stored_ne_out he hb)
    · intro w b hb
      simp only [StoreOp.spec, Vault.get] at hb
      cases he : v.entries.lookup id with
      | none =>
        rw [he] at hb
        exact hout w b hb
      | some e =>
        rw [he] at hb
        simp only at hb
        split_ifs at hb
        · rcases of_update_eq_some hb with ⟨hw, hnew⟩ | ⟨-, hold⟩
          · obtain rfl := Option.some_inj.mp hnew
            exact hw.symm
          · exact hout w b hold
        · exact hout w b hb
  | isAlreadyTaken id =>
    exact ⟨s, by rw [StoreOp.run, h.isAlreadyTaken]; rfl, h, ho, hout⟩
  | free block =>
    have hb : v.out block.data = some block := hv
    refine ⟨storageBlobFree s block, rfl, ?_, ho.release _, fun w b hw => ?_⟩
    · simp only [StoreOp.spec, Vault.release, hb]
      have h' : StorageRep inv k memory s
          { v with out := Function.update v.out block.data none } := h.congr rfl rfl rfl
      exact storageBlobFree_rep h' hA (ho.out_ok _ _ hb) (ho.out_not_free hb)
    · simp only [StoreOp.spec, Vault.release, hb] at hw
      exact hout w b (of_update_none_eq_some hw).2

theorem runOps_spec (hA : Arena memory) (hk : k ≤ 64) (ops : List StoreOp) :
    ∀ {s : Storage} {v : Vault ℕ}, StorageRep inv k memory s v → Owned memory v → OutByAddress v →
      AllValid (2 ^ k) ops v → ∃ s', runOps ops s = some (s', (specOps (2 ^ k) ops v).2) ∧
        StorageRep inv k memory s' (specOps (2 ^ k) ops v).1 ∧
        Owned memory (specOps (2 ^ k) ops v).1 := by
  induction ops with
  | nil => exact fun h ho _ _ => ⟨_, rfl, h, ho⟩
  | cons op ops ih =>
    rintro s v h ho hout ⟨hv, hvs⟩
    obtain ⟨s₁, hrun, h₁, ho₁, hout₁⟩ := StoreOp.run_spec hA hk h ho hout hv
    obtain ⟨s', hruns, h', ho'⟩ := ih h₁ ho₁ hout₁ hvs
    refine ⟨s', ?_, h', ho'⟩
    simp only [runOps, hrun, hruns, Option.map_some, specOps]

/-- A table that fits into the address space has at most `2 ^ 64` slots. -/
theorem le_of_arena {mallocated : ℕ} (hA : Arena (arenaStart mallocated (2 ^ k))) : k ≤ 64 := by
  have htop := hA.top
  rw [arenaStart] at htop
  have : 2 ^ k < 2 ^ 64 := by omega
  exact ((Nat.pow_lt_pow_iff_right (by norm_num)).mp this).le

/-- **The blob store refines a finite map.** In every run that keeps the promises of the callers,
every call comes back with the result of the map, and the three arrays describe the map; creating
fails and changes nothing exactly when the id is null, the table is full or the class has no free
block, and getting fails and changes nothing exactly when there is no published entry. -/
theorem storage_refines_map {mallocated : ℕ} (hA : Arena (arenaStart mallocated (2 ^ k)))
    {ops : List StoreOp} (hv : AllValid (2 ^ k) ops (Vault.init ℕ mallocated (2 ^ k))) :
    ∃ s v results, specOps (2 ^ k) ops (Vault.init ℕ mallocated (2 ^ k)) = (v, results) ∧
      runOps ops (storageInit mallocated (2 ^ k)) = some (s, results) ∧ ArraysDescribe k s v ∧
      (∀ id size, (StoreOp.create id size).Valid v →
        (storageBlobCreate s id size = some (s, Blk.zero) ↔
          id = HtableKey.null ∨ v.entries.keys.card = 2 ^ k ∨ v.free (bindex size) = [])) ∧
      ∀ id, storageBlobGet s id = some (s, Blk.zero) ↔ ¬ v.Available id := by
  have hk := le_of_arena hA
  have hout : OutByAddress (Vault.init ℕ mallocated (2 ^ k)) := fun w b hb => by cases hb
  obtain ⟨s, hrun, hrep, ho⟩ := runOps_spec hA hk ops (storageInit_rep hA) Vault.init_owned hout hv
  generalize specOps (2 ^ k) ops (Vault.init ℕ mallocated (2 ^ k)) = p at hrun hrep ho ⊢
  obtain ⟨v, results⟩ := p
  refine ⟨s, v, results, rfl, hrun, hrep.arraysDescribe, ?_, ?_⟩
  · rintro id size ⟨habs, hmin, hmax⟩
    refine ⟨fun hcreate => ?_, storageBlobCreate_none hrep hmin hmax⟩
    by_contra hno
    push Not at hno
    obtain ⟨a, l, hcons⟩ := List.exists_cons_of_ne_nil hno.2.2
    obtain ⟨s', hs', _⟩ := storageBlobCreate_some hrep hmin hmax habs hno.1 hno.2.1 hcons
    rw [hs', Option.some_inj, Prod.mk.injEq, Blk.zero, Blk.mk.injEq] at hcreate
    have : 0 < size := lt_of_lt_of_le (by decide) hmin
    omega
  · intro id
    refine ⟨fun hget => ?_, fun hno => storageBlobGet_none hrep fun e he hp => hno ⟨e, he, hp⟩⟩
    rintro ⟨e, he, hpub⟩
    obtain ⟨s', hs', _⟩ := storageBlobGet_some hrep hk he hpub
      { v with entries := v.entries.erase id } rfl rfl rfl
    rw [hs', Option.some_inj, Prod.mk.injEq] at hget
    -- the block of an entry is not empty
    exact (ho.entry_ok id e he).1.size_ne_zero (congrArg Blk.size hget.2)

end Runs

/-- Three uploads into two slots, and what becomes of the first two. -/
def overfill : List StoreOp :=
  [.create ⟨0, 1⟩ 46, .create ⟨0, 2⟩ 46, .create ⟨0, 3⟩ 46, .publish ⟨0, 1⟩ 7, .get ⟨0, 1⟩,
    .get ⟨0, 2⟩, .abort ⟨0, 2⟩]

theorem overfill_allValid {n : ℕ} {v : Vault ℕ} (hv : ∀ id, v.entries.lookup id = none) :
    AllValid n overfill v := by
  refine ⟨⟨hv _, by decide, by decide⟩, ⟨?_, by decide, by decide⟩, ⟨?_, by decide, by decide⟩, ?_,
    trivial, trivial, trivial, trivial⟩
  · exact (Vault.lookup_create_of_ne _ _ _ (by decide) _ _).trans (hv _)
  · exact (Vault.lookup_create_of_ne _ _ _ (by decide) _ _).trans
      ((Vault.lookup_create_of_ne _ _ _ (by decide) _ _).trans (hv _))
  · change 7 < validUntilNotPublished
    decide

/-- The run `overfill` on a table of two slots. -/
theorem storage_refines_map_overfill :
    ∃ s v results, specOps (2 ^ 1) overfill (Vault.init ℕ 4096 (2 ^ 1)) = (v, results) ∧
      runOps overfill (storageInit 4096 (2 ^ 1)) = some (s, results) ∧ ArraysDescribe 1 s v ∧
      (∀ id size, (StoreOp.create id size).Valid v →
        (storageBlobCreate s id size = some (s, Blk.zero) ↔
          id = HtableKey.null ∨ v.entries.keys.card = 2 ^ 1 ∨ v.free (bindex size) = [])) ∧
      ∀ id, storageBlobGet s id = some (s, Blk.zero) ↔ ¬ v.Available id :=
  storage_refines_map ⟨by decide, by decide⟩ (overfill_allValid fun id => Finmap.lookup_empty id)

end Adnihilum
