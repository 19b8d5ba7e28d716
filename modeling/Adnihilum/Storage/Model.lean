import Adnihilum.Balloc.Model
import Adnihilum.LinearProbing

/-!
# `storage.c`: the blob store

Three parallel arrays indexed by the slots of the hash table, and the bucket allocator behind them.
Functions that run `lp_find_free_slot` or `lp_erase` return an `Option`: `none` is a call that does
not come back. So is `unreachable()` in the reaper.
-/

namespace Adnihilum

open FlatMemory

/-- `VALID_UNTIL_EMPTY`, that is `UINT32_MAX`. -/
def validUntilEmpty : ℕ := 2 ^ 32 - 1

/-- `VALID_UNTIL_NOT_PUBLISHED`. -/
def validUntilNotPublished : ℕ := validUntilEmpty - 1

/-- `monotonic_now_s`: the seconds of the monotonic clock, chopped to 32 bits. -/
def monotonicNowS (tvSec : ℕ) : ℕ := tvSec % 2 ^ 32

/-- The parallel arrays of the hash table. -/
structure Htable where
  blobIds : ℕ → HtableKey
  blobData : ℕ → Blk
  blobValidUntil : ℕ → ℕ

/-- The static state of `storage.c`. -/
structure Storage where
  table : Htable
  htableFree : ℕ
  htableSize : ℕ
  blobIdsInvalid : ℕ → HtableKey
  blobIdsInvalidCount : ℕ
  ballocData : Balloc
  mem : Mem

/-! ## The host of the linear-probing header -/

/-- `key_cmp`. -/
def keyCmp (a b : HtableKey) : Bool := a.h == b.h && a.l == b.l

/-- `key_is_null`. -/
def keyIsNull (a : HtableKey) : Bool := a.h ||| a.l == 0

/-- Exchange two elements of an array. -/
def arraySwap {α : Type} (f : ℕ → α) (a b : ℕ) : ℕ → α :=
  let tmp := f a
  Function.update (Function.update f a (f b)) b tmp

/-- `htable_swap`. The `double` that carries a `valid_until` holds every 32-bit value exactly. -/
def htableSwap (t : Htable) (a b : ℕ) : Htable :=
  if a = b then t
  else ⟨arraySwap t.blobIds a b, arraySwap t.blobData a b, arraySwap t.blobValidUntil a b⟩

/-- `htable_hash_rotl64`. -/
def htableHashRotl64 (x r : UInt64) : UInt64 := (x <<< r) ||| (x >>> (64 - r))

/-- `htable_hash`. -/
def htableHash (data : HtableKey) : UInt64 :=
  let k0 : UInt64 := 0x9e3779b97f4a7c15
  let k1 : UInt64 := 0xbf58476d1ce4e5b9
  let a := data.h ^^^ k0
  let b := data.l ^^^ k1
  let mixed := (a + htableHashRotl64 b 23) ^^^ (b + htableHashRotl64 a 41)
  let z := mixed
  let z := (z ^^^ (z >>> 30)) * 0xbf58476d1ce4e5b9
  let z := (z ^^^ (z >>> 27)) * 0x94d049bb133111eb
  z ^^^ (z >>> 31)

theorem keyIsNull_iff (k : HtableKey) : keyIsNull k = true ↔ k = HtableKey.null := by
  obtain ⟨h, l⟩ := k
  simp [keyIsNull, HtableKey.null]

theorem keyCmp_iff (a b : HtableKey) : keyCmp a b = true ↔ a = b := by
  obtain ⟨h, l⟩ := a
  obtain ⟨h', l'⟩ := b
  simp [keyCmp]

theorem arraySwap_eq {α : Type} (f : ℕ → α) (a b : ℕ) : arraySwap f a b = f ∘ Equiv.swap a b := by
  funext i
  rw [arraySwap, Function.comp_apply]
  by_cases hb : i = b
  · rw [hb, Function.update_self, Equiv.swap_apply_right]
  · rw [Function.update_of_ne hb]
    by_cases ha : i = a
    · rw [ha, Function.update_self, Equiv.swap_apply_left]
    · rw [Function.update_of_ne ha, Equiv.swap_apply_of_ne_of_ne ha hb]

theorem htableSwap_eq (t : Htable) (a b : ℕ) : htableSwap t a b =
    ⟨t.blobIds ∘ Equiv.swap a b, t.blobData ∘ Equiv.swap a b, t.blobValidUntil ∘ Equiv.swap a b⟩ := by
  unfold htableSwap
  split_ifs with h
  · subst h
    simp
  · simp only [arraySwap_eq]

/-- `storage.c` as the host of `linear_probing.h`: a slot carries its block and its time. -/
def storageHost : LpHost Htable HtableKey (Blk × ℕ) where
  null := HtableKey.null
  keyIsNull := keyIsNull
  keyCmp := keyCmp
  htableHash := htableHash
  keys t := t.blobIds
  vals t i := (t.blobData i, t.blobValidUntil i)
  htableSwap := htableSwap
  keySetNull t i := { t with blobIds := Function.update t.blobIds i HtableKey.null }
  keyIsNull_iff := keyIsNull_iff
  keyCmp_iff := keyCmp_iff
  keys_swap t a b := by rw [htableSwap_eq]
  vals_swap t a b := by rw [htableSwap_eq]; rfl
  keys_setNull _ _ := rfl
  vals_setNull _ _ := rfl

/-- The arrays hold an entry for `id`, with its block and its time. -/
def Storage.HasEntry (s : Storage) (id : HtableKey) (blk : Blk) (validUntil : ℕ) : Prop :=
  id ≠ HtableKey.null ∧ ∃ j < s.htableSize, s.table.blobIds j = id ∧ s.table.blobData j = blk ∧
    s.table.blobValidUntil j = validUntil

/-! ## The functions of `storage.h` -/

/-- `htable_get_blob_index`. -/
def htableGetBlobIndex (s : Storage) (id : HtableKey) : ℕ × Bool :=
  let index := lpLookup storageHost s.table.blobIds id s.htableSize
  (index, index != s.htableSize)

/-- `htable_find_free_slot`; the inner `none` is the failure "No empty slots!". -/
def htableFindFreeSlot (s : Storage) (id : HtableKey) : Option (Option ℕ) :=
  if s.htableFree = 0 then some none
  else (lpFindFreeSlot storageHost s.table.blobIds id s.htableSize).map some

/-- `htable_erase_slot`. -/
def htableEraseSlot (s : Storage) (i : ℕ) : Option (Storage × ℕ) :=
  (lpErase storageHost s.table i s.htableSize).map fun p => ({ s with table := p.1 }, p.2)

/-- Where `storage_init` places the memory of the allocator: behind two arrays of ids, the times
and the blocks. -/
def arenaStart (mallocated htableSize : ℕ) : ℕ :=
  mallocated + 16 * htableSize + 16 * htableSize + 4 * htableSize + 16 * htableSize

/-- `storage_init` on the memory `posix_memalign` returned. -/
def storageInit (mallocated htableSize : ℕ) : Storage :=
  let b := binit (fun _ => 0) (arenaStart mallocated htableSize)
  { table := ⟨fun _ => HtableKey.null, fun _ => Blk.zero, fun _ => validUntilEmpty⟩
    htableFree := htableSize
    htableSize := htableSize
    blobIdsInvalid := fun _ => HtableKey.null
    blobIdsInvalidCount := 0
    ballocData := b.1
    mem := b.2 }

/-- `storage_blob_create`. -/
def storageBlobCreate (s : Storage) (id : HtableKey) (size : ℕ) : Option (Storage × Blk) :=
  if keyIsNull id then some (s, Blk.zero)
  else
    match htableFindFreeSlot s id with
    | none => none
    | some none => some (s, Blk.zero)
    | some (some index) =>
      let r := balloc s.ballocData s.mem size
      if r.2.size < size then some ({ s with ballocData := r.1 }, Blk.zero)
      else
        some ({ s with
          ballocData := r.1
          table :=
            { blobIds := Function.update s.table.blobIds index id
              blobData := Function.update s.table.blobData index r.2
              blobValidUntil := Function.update s.table.blobValidUntil index validUntilNotPublished }
          htableFree := s.htableFree - 1 }, r.2)

/-- `storage_blob_publish`. -/
def storageBlobPublish (s : Storage) (id : HtableKey) (validUntil : ℕ) : Storage × Bool :=
  let r := htableGetBlobIndex s id
  if r.2 then
    ({ s with table := { s.table with
        blobValidUntil := Function.update s.table.blobValidUntil r.1 validUntil } }, true)
  else (s, false)

/-- `storage_blob_free`. -/
def storageBlobFree (s : Storage) (block : Blk) : Storage :=
  let r := bfree s.ballocData (s.mem.zero block.data block.size) block
  { s with ballocData := r.1, mem := r.2 }

/-- `storage_blob_abort`. -/
def storageBlobAbort (s : Storage) (id : HtableKey) : Option Storage :=
  let r := htableGetBlobIndex s id
  if r.2 then
    (htableEraseSlot s r.1).map fun p =>
      let s := p.1
      let index := p.2
      let s := { s with table := { s.table with
        blobIds := Function.update s.table.blobIds index HtableKey.null } }
      let s := storageBlobFree s (s.table.blobData index)
      { s with
        table := { s.table with
          blobData := Function.update s.table.blobData index Blk.zero
          blobValidUntil := Function.update s.table.blobValidUntil index validUntilEmpty }
        htableFree := s.htableFree + 1 }
  else some s

/-- `storage_blob_is_already_taken`. -/
def storageBlobIsAlreadyTaken (s : Storage) (id : HtableKey) : Bool :=
  s.htableSize != lpLookup storageHost s.table.blobIds id s.htableSize

/-- `storage_blob_get`. -/
def storageBlobGet (s : Storage) (id : HtableKey) : Option (Storage × Blk) :=
  let r := htableGetBlobIndex s id
  if r.2 then
    if validUntilNotPublished ≠ s.table.blobValidUntil r.1 then
      let ret := s.table.blobData r.1
      (htableEraseSlot s r.1).map fun p =>
        let s := p.1
        let index := p.2
        ({ s with
          table := { s.table with
            blobIds := Function.update s.table.blobIds index HtableKey.null
            blobValidUntil := Function.update s.table.blobValidUntil index validUntilEmpty }
          htableFree := s.htableFree + 1 }, ret)
    else some (s, Blk.zero)
  else some (s, Blk.zero)

/-- `storage_status_t`. -/
structure StorageStatus where
  inUse : ℕ → ℕ
  max : ℕ → ℕ

/-- `storage_status`. -/
def storageStatus (s : Storage) : StorageStatus where
  inUse i := subU64 (bbucketCapacity i) (bbucketItemsFree s.ballocData i)
  max i := bbucketCapacity i

/-! ## The reaper -/

/-- The gather loop of `storage_reaper`, in its scalar form. -/
def reaperGather (s : Storage) (timeNow : ℕ) : Storage :=
  let r := (List.range s.htableSize).foldl
    (fun (acc : (ℕ → HtableKey) × ℕ) i =>
      if s.table.blobValidUntil i < timeNow then
        (Function.update acc.1 acc.2 (s.table.blobIds i), acc.2 + 1)
      else acc)
    (s.blobIdsInvalid, s.blobIdsInvalidCount)
  { s with blobIdsInvalid := r.1, blobIdsInvalidCount := r.2 }

/-- The rip loop of `storage_reaper` over gathered ids; `none` also stands for `unreachable()`. -/
def reaperRip (s : Storage) : List HtableKey → Option Storage
  | [] => some s
  | id :: ids =>
    match storageBlobGet s id with
    | none => none
    | some (s, block) =>
      if block.size = 0 ∨ block.data = 0 then none else reaperRip (storageBlobFree s block) ids

/-- The ids waiting in `blob_ids_invalid`. -/
def idsInvalid (s : Storage) : List HtableKey :=
  (List.range s.blobIdsInvalidCount).map s.blobIdsInvalid

/-- `storage_reaper`. The rip loop does not write `blob_ids_invalid`, so it runs over the ids
gathered before it. -/
def storageReaper (s : Storage) (timeNow : ℕ) : Option Storage :=
  let s := reaperGather s timeNow
  (reaperRip s (idsInvalid s)).map fun s =>
    { s with
      blobIdsInvalid := fun i =>
        if i < s.blobIdsInvalidCount then HtableKey.null else s.blobIdsInvalid i
      blobIdsInvalidCount := 0 }

end Adnihilum
