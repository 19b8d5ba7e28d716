import Adnihilum.Lib.Memory
import Adnihilum.Types

/-!
# `balloc.h`: the bucket allocator

Eleven buckets of equal items, from 131072 items of 128 bytes to 128 items of 128 KiB. The free
items of a bucket form a linked list threaded through their first eight bytes; the bucket headers
live behind the arenas and are kept here as a function of the bucket index.
-/

namespace Adnihilum

open FlatMemory

/-- `BLOB_ALLOC_LOG_OF_SIZE_MIN`. -/
def blobAllocLogOfSizeMin : ℕ := 7

/-- `BLOB_LOG_OF_SIZE_MAX`. -/
def blobLogOfSizeMax : ℕ := blobAllocLogOfSizeMin + 10

/-- `BLOB_SIZE_MAX`. -/
def blobSizeMax : ℕ := 1 <<< blobLogOfSizeMax

/-- `BUCKETS_COUNT`. -/
def bucketsCount : ℕ := blobLogOfSizeMax - blobAllocLogOfSizeMin + 1

/-- `bucket_t`. -/
structure Bucket where
  nextFree : ℕ
  blk : Blk
  free : ℕ

/-- `balloc_t`. -/
structure Balloc where
  buckets : ℕ → Bucket

/-- `bbucket_capacity`. -/
def bbucketCapacity (index : ℕ) : ℕ := 1 <<< (blobLogOfSizeMax - index)

/-- `bbucket_items_free`. -/
def bbucketItemsFree (ba : Balloc) (index : ℕ) : ℕ := (ba.buckets index).free

/-- `bbucket_item_size_max`. -/
def bbucketItemSizeMax (index : ℕ) : ℕ := 1 <<< (blobAllocLogOfSizeMin + index)

/-- `sizeof(bucket_t)`. -/
def sizeofBucket : ℕ := 32

/-- `bfootprint`. -/
def bfootprint : ℕ :=
  (List.range bucketsCount).foldl
    (fun footprint i => footprint + bbucketCapacity i * bbucketItemSizeMax i)
    (sizeofBucket * bucketsCount)

/-- The inner loop of `binit`: link `count` items from `ptr` on, each to the one before. The result
carries the last item linked. -/
def binitItems (m : Mem) (ptr itemSize count : ℕ) : Mem × ℕ :=
  (List.range count).foldl
    (fun (s : Mem × ℕ) j => (s.1.storeWord (ptr + j * itemSize) s.2, ptr + j * itemSize)) (m, 0)

/-- One turn of the outer loop of `binit`. -/
def binitBucket (s : Mem × ℕ × (ℕ → Bucket)) (i : ℕ) : Mem × ℕ × (ℕ → Bucket) :=
  let count := bbucketCapacity i
  let itemSize := bbucketItemSizeMax i
  let ptr := s.2.1
  let linked := binitItems s.1 ptr itemSize count
  (linked.1, ptr + itemSize * count,
    Function.update s.2.2 i ⟨linked.2, ⟨ptr, count * itemSize⟩, count⟩)

/-- `binit` on zeroed memory at address `memory`. -/
def binit (m : Mem) (memory : ℕ) : Balloc × Mem :=
  let s := (List.range bucketsCount).foldl binitBucket (m, memory, fun _ => ⟨0, Blk.zero, 0⟩)
  (⟨s.2.2⟩, s.1)

/-- `bindex`, with its wrapping subtractions and its sign mask. -/
def bindex (size : ℕ) : ℕ :=
  let index := (subU64 (ilog2U64 (subU64 size 1)) blobAllocLogOfSizeMin + 1) % 2 ^ 64
  let isNegative := index >>> 63
  let mask := subU64 isNegative 1
  index &&& mask

/-- `balloc`. Memory is read only: the item keeps its link in its first eight bytes. -/
def balloc (ba : Balloc) (m : Mem) (size : ℕ) : Balloc × Blk :=
  let i := bindex size
  let b := ba.buckets i
  if b.free ≠ 0 then
    let ret : Blk := ⟨b.nextFree, size⟩
    (⟨Function.update ba.buckets i { b with nextFree := m.loadWord ret.data, free := b.free - 1 }⟩,
      ret)
  else (ba, Blk.zero)

/-- `bfree`. -/
def bfree (ba : Balloc) (m : Mem) (blk : Blk) : Balloc × Mem :=
  let i := bindex blk.size
  let b := ba.buckets i
  (⟨Function.update ba.buckets i { b with nextFree := blk.data, free := b.free + 1 }⟩,
    m.storeWord blk.data b.nextFree)

example : bindex 46 = 0 ∧ bindex 128 = 0 ∧ bindex 129 = 1 ∧ bindex 131072 = 10 := by decide

example : bfootprint = 11 * 2 ^ 24 + 32 * 11 := by decide

end Adnihilum
