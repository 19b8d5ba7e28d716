import Adnihilum.Balloc.Law
import Adnihilum.Lib.Custody
import Adnihilum.Storage.Model
import Mathlib.Data.Finmap

/-!
# The vault: what the blob store is for

The abstract store: a finite map from ids to entries, the free lists of the allocator, and the
blocks that were handed out and not given back yet. Handed-out blocks are filed under keepers
`ι`; for the server these are the requests being answered.

* `Vault.create`, `publish`, `abort`, `get`, `release`: the operations.
* `Owned`: every allocator item is in exactly one place, on a free list, in an entry or handed out.
* **`Owned.create`**, `Owned.publish`, `Owned.abort`, `Owned.get`, `Owned.release`: the operations
  keep ownership.
-/

namespace Adnihilum

open FlatMemory Custody

/-- An entry of the store. `validUntilNotPublished` marks an upload that is still running. -/
structure Entry where
  blk : Blk
  validUntil : ℕ
  deriving DecidableEq

/-- The entry can be fetched. -/
def Entry.Published (e : Entry) : Prop := e.validUntil ≠ validUntilNotPublished

instance (e : Entry) : Decidable e.Published := by unfold Entry.Published; infer_instance

/-- The abstract store. -/
structure Vault (ι : Type) where
  entries : Finmap fun _ : HtableKey => Entry
  free : ℕ → List ℕ
  out : ι → Option Blk
  mem : Mem

namespace Vault

variable {ι : Type}

/-- Zero a block and put it in front of its free list; the old head is linked behind it. -/
def giveBack (v : Vault ι) (b : Blk) : Vault ι :=
  { v with
    free := Function.update v.free (bindex b.size) (b.data :: v.free (bindex b.size))
    mem := (v.mem.zero b.data b.size).storeWord b.data ((v.free (bindex b.size)).headD 0) }

/-- Make an unpublished entry in a map of at most `n` entries. -/
def create (n : ℕ) (v : Vault ι) (id : HtableKey) (size : ℕ) : Vault ι × Blk :=
  if id = HtableKey.null ∨ v.entries.keys.card = n then (v, Blk.zero)
  else
    match v.free (bindex size) with
    | [] => (v, Blk.zero)
    | a :: l =>
      ({ v with
        entries := v.entries.insert id ⟨⟨a, size⟩, validUntilNotPublished⟩
        free := Function.update v.free (bindex size) l }, ⟨a, size⟩)

/-- Set the time of an entry. -/
def publish (v : Vault ι) (id : HtableKey) (validUntil : ℕ) : Vault ι × Bool :=
  match v.entries.lookup id with
  | none => (v, false)
  | some e => ({ v with entries := v.entries.insert id { e with validUntil := validUntil } }, true)

/-- Remove an entry and give its block back. -/
def abort (v : Vault ι) (id : HtableKey) : Vault ι :=
  match v.entries.lookup id with
  | none => v
  | some e => giveBack { v with entries := v.entries.erase id } e.blk

/-- The owner of a block writes inside it. -/
def write (v : Vault ι) (a : ℕ) (bs : List UInt8) : Vault ι := { v with mem := v.mem.store a bs }

variable [DecidableEq ι]

/-- Remove a published entry and hand its block to a keeper. -/
def get (keeper : Blk → ι) (v : Vault ι) (id : HtableKey) : Vault ι × Blk :=
  match v.entries.lookup id with
  | none => (v, Blk.zero)
  | some e =>
    if e.Published then
      ({ v with
        entries := v.entries.erase id
        out := Function.update v.out (keeper e.blk) (some e.blk) }, e.blk)
    else (v, Blk.zero)

/-- The keeper gives its block back. -/
def release (v : Vault ι) (w : ι) : Vault ι :=
  match v.out w with
  | none => v
  | some b => giveBack { v with out := Function.update v.out w none } b

omit [DecidableEq ι]

/-- There is an entry and it can be fetched. -/
def Available (v : Vault ι) (id : HtableKey) : Prop :=
  ∃ e, v.entries.lookup id = some e ∧ e.Published

section Untouched

variable (v : Vault ι) (id : HtableKey)

@[simp] theorem create_out (n size : ℕ) : (v.create n id size).1.out = v.out := by
  unfold create
  split_ifs
  · rfl
  · cases v.free (bindex size) <;> rfl

@[simp] theorem publish_out (t : ℕ) : (v.publish id t).1.out = v.out := by
  unfold publish
  cases v.entries.lookup id <;> rfl

@[simp] theorem abort_out : (v.abort id).out = v.out := by
  unfold abort
  cases v.entries.lookup id <;> rfl

theorem publish_mem (t : ℕ) : (v.publish id t).1.mem = v.mem := by
  unfold publish
  cases v.entries.lookup id <;> rfl

theorem get_mem [DecidableEq ι] (keeper : Blk → ι) : (v.get keeper id).1.mem = v.mem := by
  unfold get
  cases v.entries.lookup id with
  | none => rfl
  | some e => simp only; split_ifs <;> rfl

@[simp] theorem release_entries [DecidableEq ι] (w : ι) : (v.release w).entries = v.entries := by
  unfold release
  cases v.out w <;> rfl

end Untouched

section Lookup

variable (v : Vault ι) (id id' : HtableKey)

theorem lookup_create_of_ne (hid : id' ≠ id) (n size : ℕ) :
    (v.create n id size).1.entries.lookup id' = v.entries.lookup id' := by
  unfold create
  split_ifs
  · rfl
  · cases v.free (bindex size) with
    | nil => rfl
    | cons a l => exact Finmap.lookup_insert_of_ne _ hid

theorem create_some {v v' : Vault ι} {n size : ℕ} {id : HtableKey} {blk : Blk}
    (h : v.create n id size = (v', blk)) (hblk : blk.size ≠ 0) :
    blk.size = size ∧ id ≠ HtableKey.null ∧ v'.mem = v.mem ∧ v'.out = v.out ∧
      ∀ id', v'.entries.lookup id' =
        if id' = id then some ⟨blk, validUntilNotPublished⟩ else v.entries.lookup id' := by
  unfold create at h
  split_ifs at h with hnull
  · cases h
    exact absurd rfl hblk
  · push Not at hnull
    cases hcons : v.free (bindex size) with
    | nil =>
      rw [hcons] at h
      cases h
      exact absurd rfl hblk
    | cons a l =>
      rw [hcons] at h
      cases h
      refine ⟨rfl, hnull.1, rfl, rfl, fun id' => ?_⟩
      split_ifs with hid
      · rw [hid, Finmap.lookup_insert]
      · rw [Finmap.lookup_insert_of_ne _ hid]

theorem create_none {v : Vault ι} {n size : ℕ} {id : HtableKey} (hsize : size ≠ 0)
    (h : (v.create n id size).2.size = 0) : v.create n id size = (v, Blk.zero) := by
  unfold create at h ⊢
  split_ifs at h ⊢
  · rfl
  · cases hcons : v.free (bindex size) with
    | nil => rfl
    | cons a l =>
      rw [hcons] at h
      exact absurd h hsize

theorem lookup_publish (t : ℕ) : (v.publish id t).1.entries.lookup id' =
    if id' = id then (v.entries.lookup id).map fun e => { e with validUntil := t }
    else v.entries.lookup id' := by
  unfold publish
  cases he : v.entries.lookup id with
  | none =>
    split_ifs with hid
    · rw [hid, he]
      rfl
    · rfl
  | some e =>
    split_ifs with hid
    · rw [hid, Finmap.lookup_insert]
      rfl
    · rw [Finmap.lookup_insert_of_ne _ hid]

theorem lookup_abort :
    (v.abort id).entries.lookup id' = if id' = id then none else v.entries.lookup id' := by
  unfold abort
  cases he : v.entries.lookup id with
  | none =>
    split_ifs with hid
    · rw [hid, he]
    · rfl
  | some e =>
    change (v.entries.erase id).lookup id' = _
    split_ifs with hid
    · rw [hid, Finmap.lookup_erase]
    · rw [Finmap.lookup_erase_ne hid]

theorem available_abort :
    (v.abort id).Available id' ↔ v.Available id' ∧ id' ≠ id := by
  unfold Available
  rw [lookup_abort]
  split_ifs with hid <;> simp [hid]

theorem get_some [DecidableEq ι] {v : Vault ι} {id : HtableKey} {e : Entry} (keeper : Blk → ι)
    (he : v.entries.lookup id = some e) (hpub : e.Published) : v.get keeper id =
      ({ v with
        entries := v.entries.erase id
        out := Function.update v.out (keeper e.blk) (some e.blk) }, e.blk) := by
  rw [get, he]
  simp only [if_pos hpub]

end Lookup

end Vault

/-! ## Places -/

/-- Where an item can be. -/
inductive Place (ι : Type) where
  | free
  | stored (id : HtableKey)
  | out (w : ι)

/-- The item is in the place. -/
def Vault.Holds {ι : Type} (v : Vault ι) : Place ι → ℕ → Prop
  | .free, a => ∃ i < bucketsCount, a ∈ v.free i
  | .stored id, a => ∃ e, v.entries.lookup id = some e ∧ e.blk.data = a
  | .out w, a => ∃ b, v.out w = some b ∧ b.data = a

/-- `BLOB_SIZE_MIN`: nonce, salt, marker and tag. -/
def blobSizeMin : ℕ := 12 + 16 + 2 + 16

/-- A block as the server asks for it. -/
structure BlkOk (memory : ℕ) (b : Blk) : Prop where
  min : blobSizeMin ≤ b.size
  max : b.size ≤ blobSizeMax
  item : IsItem memory (bindex b.size) b.data

/-- `a` is an item of some bucket. -/
def IsAnItem (memory a : ℕ) : Prop := ∃ i < bucketsCount, IsItem memory i a

/-- **Every allocator item is in exactly one place.** -/
structure Owned {ι : Type} (memory : ℕ) (v : Vault ι) : Prop where
  free_item : ∀ i < bucketsCount, ∀ a ∈ v.free i, IsItem memory i a
  free_nodup : ∀ i < bucketsCount, (v.free i).Nodup
  entry_ok : ∀ id e, v.entries.lookup id = some e → BlkOk memory e.blk ∧ id ≠ HtableKey.null
  out_ok : ∀ w b, v.out w = some b → BlkOk memory b
  place : Exclusive (IsAnItem memory) v.Holds

section Blocks

variable {memory : ℕ} {b : Blk}

theorem BlkOk.bindex_lt (h : BlkOk memory b) : bindex b.size < bucketsCount :=
  Adnihilum.bindex_lt (le_trans (by decide) h.min) h.max

theorem BlkOk.le_itemSize (h : BlkOk memory b) : b.size ≤ bbucketItemSizeMax (bindex b.size) :=
  Adnihilum.le_itemSize (le_trans (by decide) h.min) h.max

theorem BlkOk.isAnItem (h : BlkOk memory b) : IsAnItem memory b.data := ⟨_, h.bindex_lt, h.item⟩

theorem BlkOk.size_ne_zero (h : BlkOk memory b) : b.size ≠ 0 := by
  have := h.min
  unfold blobSizeMin at this
  omega

theorem BlkOk.eight_le (h : BlkOk memory b) : 8 ≤ b.size := le_trans (by decide) h.min

end Blocks

section Holds

variable {ι : Type} {v : Vault ι}

theorem holds_free {i a : ℕ} (hi : i < bucketsCount) (ha : a ∈ v.free i) : v.Holds .free a :=
  ⟨i, hi, ha⟩

theorem holds_stored {id : HtableKey} {e : Entry} (he : v.entries.lookup id = some e) :
    v.Holds (.stored id) e.blk.data := ⟨e, he, rfl⟩

theorem holds_out {w : ι} {b : Blk} (hb : v.out w = some b) : v.Holds (.out w) b.data :=
  ⟨b, hb, rfl⟩

theorem erase_leaves {id : HtableKey} {e : Entry} (he : v.entries.lookup id = some e) :
    Leaves e.blk.data (.stored id) v.Holds
      ({ v with entries := v.entries.erase id } : Vault ι).Holds := by
  intro p a
  cases p with
  | free => simp [Vault.Holds]
  | out w => simp [Vault.Holds]
  | stored id' =>
    by_cases hid : id' = id
    · subst hid
      simp only [Vault.Holds, Finmap.lookup_erase, he, true_and]
      simp [eq_comm]
    · simp [Vault.Holds, Finmap.lookup_erase_ne hid, hid]

theorem pop_leaves {i a : ℕ} {l : List ℕ} (hi : i < bucketsCount) (hcons : v.free i = a :: l)
    (hnodup : (v.free i).Nodup) (hother : ∀ j < bucketsCount, j ≠ i → a ∉ v.free j) :
    Leaves a .free v.Holds ({ v with free := Function.update v.free i l } : Vault ι).Holds := by
  intro p x
  cases p with
  | out w => simp [Vault.Holds]
  | stored id => simp [Vault.Holds]
  | free =>
    rw [hcons, List.nodup_cons] at hnodup
    simp only [Vault.Holds, true_and]
    constructor
    · rintro ⟨j, hj, hx⟩
      by_cases hji : j = i
      · subst hji
        rw [Function.update_self] at hx
        exact ⟨⟨j, hj, by rw [hcons]; exact List.mem_cons_of_mem _ hx⟩, fun e => hnodup.1 (e ▸ hx)⟩
      · rw [Function.update_of_ne hji] at hx
        exact ⟨⟨j, hj, hx⟩, fun e => hother j hj hji (e ▸ hx)⟩
    · rintro ⟨⟨j, hj, hx⟩, hne⟩
      refine ⟨j, hj, ?_⟩
      by_cases hji : j = i
      · subst hji
        rw [hcons] at hx
        rw [Function.update_self]
        exact (List.mem_cons.mp hx).resolve_left hne
      · rwa [Function.update_of_ne hji]

theorem push_lands {b : Blk} (hi : bindex b.size < bucketsCount) :
    Lands b.data .free v.Holds (v.giveBack b).Holds := by
  intro p x
  cases p with
  | out w => simp [Vault.Holds, Vault.giveBack]
  | stored id => simp [Vault.Holds, Vault.giveBack]
  | free =>
    simp only [Vault.Holds, Vault.giveBack, true_and]
    constructor
    · rintro ⟨j, hj, hx⟩
      by_cases hji : j = bindex b.size
      · subst hji
        rw [Function.update_self, List.mem_cons] at hx
        exact hx.symm.imp_left fun hx => ⟨_, hj, hx⟩
      · rw [Function.update_of_ne hji] at hx
        exact Or.inl ⟨j, hj, hx⟩
    · rintro (⟨j, hj, hx⟩ | rfl)
      · refine ⟨j, hj, ?_⟩
        by_cases hji : j = bindex b.size
        · subst hji
          rw [Function.update_self]
          exact List.mem_cons_of_mem _ hx
        · rwa [Function.update_of_ne hji]
      · exact ⟨_, hi, by rw [Function.update_self]; exact List.mem_cons_self⟩

theorem insert_lands {id : HtableKey} {e : Entry} (habs : v.entries.lookup id = none) :
    Lands e.blk.data (.stored id) v.Holds
      ({ v with entries := v.entries.insert id e } : Vault ι).Holds := by
  intro p x
  cases p with
  | free => simp [Vault.Holds]
  | out w => simp [Vault.Holds]
  | stored id' =>
    by_cases hid : id' = id
    · subst hid
      simp [Vault.Holds, habs, eq_comm]
    · simp [Vault.Holds, Finmap.lookup_insert_of_ne _ hid, hid]

theorem lookup_of_erase {id id' : HtableKey} {e : Entry}
    (he : (v.entries.erase id).lookup id' = some e) : v.entries.lookup id' = some e := by
  by_cases hid : id' = id
  · rw [hid, Finmap.lookup_erase] at he
    cases he
  · rwa [Finmap.lookup_erase_ne hid] at he

theorem holds_publish {id : HtableKey} {e : Entry} {t : ℕ} (he : v.entries.lookup id = some e)
    (p : Place ι) (a : ℕ) :
    ({ v with entries := v.entries.insert id { e with validUntil := t } } : Vault ι).Holds p a ↔
      v.Holds p a := by
  cases p with
  | free => simp [Vault.Holds]
  | out w => simp [Vault.Holds]
  | stored id' =>
    by_cases hid : id' = id
    · subst hid
      simp [Vault.Holds, he]
    · simp [Vault.Holds, Finmap.lookup_insert_of_ne _ hid]

variable [DecidableEq ι]

theorem out_leaves {w : ι} {b : Blk} (hb : v.out w = some b) :
    Leaves b.data (.out w) v.Holds
      ({ v with out := Function.update v.out w none } : Vault ι).Holds := by
  intro p a
  cases p with
  | free => simp [Vault.Holds]
  | stored id => simp [Vault.Holds]
  | out w' =>
    by_cases hw : w' = w
    · subst hw
      simp [Vault.Holds, hb, eq_comm]
    · simp [Vault.Holds, hw]

theorem out_lands {w : ι} {b : Blk} (hw : v.out w = none) :
    Lands b.data (.out w) v.Holds
      ({ v with out := Function.update v.out w (some b) } : Vault ι).Holds := by
  intro p x
  cases p with
  | free => simp [Vault.Holds]
  | stored id => simp [Vault.Holds]
  | out w' =>
    by_cases he : w' = w
    · subst he
      simp [Vault.Holds, hw, eq_comm]
    · simp [Vault.Holds, he]

end Holds

namespace Owned

variable {ι : Type} {memory : ℕ} {v : Vault ι} (h : Owned memory v)
include h

theorem mem_free_iff {i a : ℕ} (hi : i < bucketsCount) (ha : IsItem memory i a) :
    v.Holds .free a ↔ a ∈ v.free i := by
  constructor
  · rintro ⟨j, hj, haj⟩
    rwa [item_bucket_unique hi hj ha (h.free_item j hj a haj)]
  · exact fun hm => ⟨i, hi, hm⟩

theorem stored_inj {id id' : HtableKey} {e e' : Entry} (he : v.entries.lookup id = some e)
    (he' : v.entries.lookup id' = some e') (hd : e.blk.data = e'.blk.data) : id = id' :=
  Place.stored.inj <| h.place.eq (h.entry_ok id e he).1.isAnItem (holds_stored he)
    (hd ▸ holds_stored he')

theorem stored_ne_out {id : HtableKey} {e : Entry} {w : ι} {b : Blk}
    (he : v.entries.lookup id = some e) (hb : v.out w = some b) : e.blk.data ≠ b.data := by
  intro hd
  cases h.place.eq (h.entry_ok id e he).1.isAnItem (holds_stored he) (hd ▸ holds_out hb)

theorem not_free_of_holds {p : Place ι} {a : ℕ} (ha : IsAnItem memory a) (hp : v.Holds p a)
    (hne : p ≠ .free) : ∀ j < bucketsCount, a ∉ v.free j := by
  intro j hj hm
  exact hne (h.place.eq ha hp (holds_free hj hm))

theorem stored_not_free {id : HtableKey} {e : Entry} (he : v.entries.lookup id = some e) :
    ∀ j < bucketsCount, e.blk.data ∉ v.free j :=
  h.not_free_of_holds (h.entry_ok id e he).1.isAnItem (holds_stored he) (by simp)

theorem out_not_free {w : ι} {b : Blk} (hb : v.out w = some b) :
    ∀ j < bucketsCount, b.data ∉ v.free j :=
  h.not_free_of_holds (h.out_ok w b hb).isAnItem (holds_out hb) (by simp)

/-! ## The operations keep ownership -/

theorem giveBack {v₁ : Vault ι} {b : Blk} {p : Place ι} (hb : BlkOk memory b)
    (hp : v.Holds p b.data) (hpf : p ≠ .free) (hl : Leaves b.data p v.Holds v₁.Holds)
    (hfree : v₁.free = v.free)
    (hentry : ∀ id e, v₁.entries.lookup id = some e → v.entries.lookup id = some e)
    (hout : ∀ w b, v₁.out w = some b → v.out w = some b) : Owned memory (v₁.giveBack b) where
  free_item i hi a ha := by
    simp only [Vault.giveBack, hfree] at ha
    by_cases he : i = bindex b.size
    · subst he
      rw [Function.update_self, List.mem_cons] at ha
      rcases ha with rfl | ha
      · exact hb.item
      · exact h.free_item _ hi a ha
    · rw [Function.update_of_ne he] at ha
      exact h.free_item i hi a ha
  free_nodup i hi := by
    simp only [Vault.giveBack, hfree]
    by_cases he : i = bindex b.size
    · subst he
      rw [Function.update_self, List.nodup_cons]
      exact ⟨h.not_free_of_holds hb.isAnItem hp hpf _ hi, h.free_nodup _ hi⟩
    · rw [Function.update_of_ne he]
      exact h.free_nodup i hi
  entry_ok id e he := h.entry_ok id e (hentry id e he)
  out_ok w b' hb' := h.out_ok w b' (hout w b' hb')
  place := h.place.move hb.isAnItem hp hl (push_lands hb.bindex_lt)

theorem abort (id : HtableKey) : Owned memory (v.abort id) := by
  unfold Vault.abort
  cases he : v.entries.lookup id with
  | none => exact h
  | some e =>
    exact h.giveBack (h.entry_ok id e he).1 (holds_stored he) (by simp) (erase_leaves he) rfl
      (fun _ _ => lookup_of_erase) fun _ _ hb => hb

theorem publish (id : HtableKey) (t : ℕ) : Owned memory (v.publish id t).1 := by
  unfold Vault.publish
  cases he : v.entries.lookup id with
  | none => exact h
  | some e =>
    refine ⟨h.free_item, h.free_nodup, fun id' e' he' => ?_, h.out_ok,
      h.place.congr (holds_publish he)⟩
    by_cases hid : id' = id
    · rw [hid, Finmap.lookup_insert] at he'
      cases he'
      rw [hid]
      exact h.entry_ok id e he
    · rw [Finmap.lookup_insert_of_ne _ hid] at he'
      exact h.entry_ok id' e' he'

theorem write (a : ℕ) (bs : List UInt8) : Owned memory (v.write a bs) :=
  ⟨h.free_item, h.free_nodup, h.entry_ok, h.out_ok, h.place⟩

theorem create {n : ℕ} {id : HtableKey} {size : ℕ} (hmin : blobSizeMin ≤ size)
    (hmax : size ≤ blobSizeMax) (habs : v.entries.lookup id = none) :
    Owned memory (v.create n id size).1 := by
  unfold Vault.create
  have h2 : 2 ≤ size := le_trans (by decide) hmin
  have hi := bindex_lt h2 hmax
  split_ifs with hnull
  · exact h
  · push Not at hnull
    cases hcons : v.free (bindex size) with
    | nil => exact h
    | cons a l =>
      have hmem : a ∈ v.free (bindex size) := by rw [hcons]; exact List.mem_cons_self
      have hitem := h.free_item _ hi a hmem
      have hpop : Leaves a .free v.Holds
          ({ v with free := Function.update v.free (bindex size) l } : Vault ι).Holds :=
        pop_leaves hi hcons (h.free_nodup _ hi) fun j hj hji ha =>
          hji (item_bucket_unique hj hi (h.free_item j hj a ha) hitem)
      have hsub : ∀ i x, x ∈ Function.update v.free (bindex size) l i → x ∈ v.free i := by
        intro i x hx
        by_cases he : i = bindex size
        · subst he
          rw [Function.update_self] at hx
          rw [hcons]
          exact List.mem_cons_of_mem _ hx
        · rwa [Function.update_of_ne he] at hx
      refine ⟨fun i hi x hx => h.free_item i hi x (hsub i x hx), fun i hi => ?_, ?_, h.out_ok,
        h.place.move ⟨_, hi, hitem⟩ (holds_free hi hmem) hpop
          (insert_lands (e := ⟨⟨a, size⟩, validUntilNotPublished⟩) habs)⟩
      · by_cases he : i = bindex size
        · subst he
          have := h.free_nodup _ hi
          rw [hcons, List.nodup_cons] at this
          simpa using this.2
        · simpa [he] using h.free_nodup i hi
      · intro id' e' he'
        by_cases hid : id' = id
        · rw [hid, Finmap.lookup_insert] at he'
          cases he'
          rw [hid]
          exact ⟨⟨hmin, hmax, hitem⟩, hnull.1⟩
        · rw [Finmap.lookup_insert_of_ne _ hid] at he'
          exact h.entry_ok id' e' he'

variable [DecidableEq ι]

theorem get {keeper : Blk → ι} {id : HtableKey}
    (hfresh : ∀ e, v.entries.lookup id = some e → v.out (keeper e.blk) = none) :
    Owned memory (v.get keeper id).1 := by
  unfold Vault.get
  cases he : v.entries.lookup id with
  | none => exact h
  | some e =>
    simp only
    split_ifs with hpub
    · have hok := (h.entry_ok id e he).1
      refine ⟨h.free_item, h.free_nodup, fun id' e' he' => h.entry_ok id' e' (lookup_of_erase he'),
        fun w b hb => ?_, h.place.move hok.isAnItem (holds_stored he) (erase_leaves he)
          (out_lands (hfresh e he))⟩
      rcases of_update_eq_some hb with ⟨-, hnew⟩ | ⟨-, hold⟩
      · obtain rfl := Option.some_inj.mp hnew
        exact hok
      · exact h.out_ok w b hold
    · exact h

theorem release (w : ι) : Owned memory (v.release w) := by
  unfold Vault.release
  cases hb : v.out w with
  | none => exact h
  | some b =>
    refine h.giveBack (h.out_ok w b hb) (holds_out hb) (by simp) (out_leaves hb) rfl
      (fun _ _ he => he) fun w' b' hb' => ?_
    exact (of_update_none_eq_some hb').2

end Owned

/-! ## The start -/

/-- The empty store. -/
def Vault.init (ι : Type) (mallocated n : ℕ) : Vault ι where
  entries := ∅
  free := initialFree (arenaStart mallocated n)
  out _ := none
  mem := (binit (fun _ => 0) (arenaStart mallocated n)).2

theorem Vault.init_owned {ι : Type} {mallocated n : ℕ} :
    Owned (arenaStart mallocated n) (Vault.init ι mallocated n) where
  free_item i _ a ha := mem_initialFree.mp ha
  free_nodup i _ := by
    refine List.nodup_reverse.mpr (List.Nodup.map_on (fun x _ y _ hxy => itemPtr_inj hxy) ?_)
    exact List.nodup_range
  entry_ok id e he := by
    rw [Vault.init, Finmap.lookup_empty] at he
    cases he
  out_ok w b hb := by cases hb
  place := by
    rintro a ⟨i, hi, ha⟩
    refine ⟨.free, holds_free hi (mem_initialFree.mpr ha), ?_⟩
    rintro (_ | id | w) hp
    · rfl
    · obtain ⟨e, he, _⟩ := hp
      rw [Vault.init, Finmap.lookup_empty] at he
      cases he
    · obtain ⟨b, hb, _⟩ := hp
      cases hb

end Adnihilum
