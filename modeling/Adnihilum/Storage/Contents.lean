import Adnihilum.Storage.Vault

/-!
# What the memory of the vault holds

* `item_frame`: writes inside one item do not show in another.
* `Vault.load_giveBack`, `Vault.load_write`: so the bytes of a block are changed by its owner only.
* `Clean`: a free item is zero behind its link and a live item is zero behind its block.
* **`Clean.giveBack`** and the operations: the vault stays clean.
-/

namespace Adnihilum

open FlatMemory Custody

section Frame

variable {memory : ℕ} {b b' : Blk} {m m' : Mem}

theorem item_frame {i a : ℕ} (hb : BlkOk memory b) (hi : i < bucketsCount) (ha : IsItem memory i a)
    (hne : a ≠ b.data)
    (hm : ∀ x, x < b.data ∨ b.data + bbucketItemSizeMax (bindex b.size) ≤ x → m' x = m x) :
    ∀ d < bbucketItemSizeMax i, m' (a + d) = m (a + d) := by
  intro d hd
  refine hm _ ?_
  rcases item_disjoint hi hb.bindex_lt ha hb.item hne with h | h <;> omega

theorem load_frame (hb : BlkOk memory b) (hb' : BlkOk memory b') (hne : b'.data ≠ b.data)
    (hm : ∀ x, x < b.data ∨ b.data + bbucketItemSizeMax (bindex b.size) ≤ x → m' x = m x)
    {r : ℕ} (hr : r ≤ b'.size) : m'.load b'.data r = m.load b'.data r := by
  have hle := hb'.le_itemSize
  exact Mem.load_congr fun d hd =>
    item_frame hb hb'.bindex_lt hb'.item hne hm d (by omega)

end Frame

namespace Vault

variable {ι : Type} {memory : ℕ} {v : Vault ι} {b b' : Blk}

theorem giveBack_outside (hb : BlkOk memory b) {x : ℕ}
    (hx : x < b.data ∨ b.data + bbucketItemSizeMax (bindex b.size) ≤ x) :
    (v.giveBack b).mem x = v.mem x := by
  have h1 := hb.le_itemSize
  have h2 := hb.eight_le
  exact (Mem.storeWord_of_outside (by omega)).trans (Mem.zero_of_outside (by omega))

theorem giveBack_inside {d : ℕ} (h8 : 8 ≤ d)
    (hblank : b.size ≤ d → v.mem (b.data + d) = 0) : (v.giveBack b).mem (b.data + d) = 0 := by
  have : (v.giveBack b).mem (b.data + d) = v.mem.zero b.data b.size (b.data + d) :=
    Mem.storeWord_of_outside (by omega)
  rw [this]
  rcases Nat.lt_or_ge d b.size with h | h
  · exact Mem.zero_of_inside (by omega) (by omega)
  · rw [Mem.zero_of_outside (by omega), hblank h]

theorem write_outside (hb : BlkOk memory b) {r : ℕ} {bs : List UInt8} (hr : r + bs.length ≤ b.size)
    {x : ℕ} (hx : x < b.data ∨ b.data + bbucketItemSizeMax (bindex b.size) ≤ x) :
    (v.write (b.data + r) bs).mem x = v.mem x := by
  have := hb.le_itemSize
  exact Mem.store_of_outside (by omega)

theorem load_giveBack (hb : BlkOk memory b) (hb' : BlkOk memory b') (hne : b'.data ≠ b.data)
    {r : ℕ} (hr : r ≤ b'.size) : (v.giveBack b).mem.load b'.data r = v.mem.load b'.data r :=
  load_frame hb hb' hne (fun _ hx => giveBack_outside hb hx) hr

theorem load_write (hb : BlkOk memory b) (hb' : BlkOk memory b') (hne : b'.data ≠ b.data)
    {r d : ℕ} {bs : List UInt8} (hd : d + bs.length ≤ b.size) (hr : r ≤ b'.size) :
    (v.write (b.data + d) bs).mem.load b'.data r = v.mem.load b'.data r :=
  load_frame hb hb' hne (fun _ hx => write_outside hb hd hx) hr

end Vault

/-! ## Clean memory -/

/-- The item of a block is zero behind the block. -/
def Blank (m : Mem) (b : Blk) : Prop :=
  ∀ d, b.size ≤ d → d < bbucketItemSizeMax (bindex b.size) → m (b.data + d) = 0

/-- **No bytes of an old block are left anywhere.** -/
structure Clean {ι : Type} (v : Vault ι) : Prop where
  free : ∀ i < bucketsCount, ∀ a ∈ v.free i, ∀ d, 8 ≤ d → d < bbucketItemSizeMax i →
    v.mem (a + d) = 0
  entry : ∀ id e, v.entries.lookup id = some e → Blank v.mem e.blk
  out : ∀ w b, v.out w = some b → Blank v.mem b

theorem Blank.frame {memory : ℕ} {b b' : Blk} {m m' : Mem} (h : Blank m b') (hb : BlkOk memory b)
    (hb' : BlkOk memory b') (hne : b'.data ≠ b.data)
    (hm : ∀ x, x < b.data ∨ b.data + bbucketItemSizeMax (bindex b.size) ≤ x → m' x = m x) :
    Blank m' b' := fun d h1 h2 => by
  rw [item_frame hb hb'.bindex_lt hb'.item hne hm d h2, h d h1 h2]

namespace Clean

variable {ι : Type} {memory : ℕ} {v : Vault ι} (h : Clean v) (ho : Owned memory v)
include h ho

theorem giveBack {v₁ : Vault ι} {b : Blk} {p : Place ι} (hb : BlkOk memory b)
    (hblank : Blank v.mem b) (hp : v.Holds p b.data) (hpf : p ≠ .free)
    (hl : Leaves b.data p v.Holds v₁.Holds) (hfree : v₁.free = v.free) (hmem : v₁.mem = v.mem)
    (hentry : ∀ id e, v₁.entries.lookup id = some e → v.entries.lookup id = some e)
    (hout : ∀ w b, v₁.out w = some b → v.out w = some b) : Clean (v₁.giveBack b) := by
  have hgone : ∀ {q : Place ι} {a : ℕ}, v₁.Holds q a → a ≠ b.data := by
    rintro q a hq rfl
    exact hl.gone ho.place hb.isAnItem hp hq
  have hm : ∀ x, x < b.data ∨ b.data + bbucketItemSizeMax (bindex b.size) ≤ x →
      (v₁.giveBack b).mem x = v.mem x := fun x hx => by
    rw [Vault.giveBack_outside hb hx, hmem]
  refine ⟨fun i hi a ha d h8 hd => ?_, fun id e he => ?_, fun w b' hb' => ?_⟩
  · by_cases hab : a = b.data
    · subst hab
      have hib : i = bindex b.size := by
        by_contra hne
        simp only [Vault.giveBack, hfree, Function.update_of_ne hne] at ha
        exact ho.not_free_of_holds hb.isAnItem hp hpf i hi ha
      subst hib
      exact Vault.giveBack_inside h8 fun hs => by rw [hmem]; exact hblank d hs hd
    · have ha' : a ∈ v.free i := by
        simp only [Vault.giveBack, hfree] at ha
        by_cases hib : i = bindex b.size
        · subst hib
          rw [Function.update_self] at ha
          exact (List.mem_cons.mp ha).resolve_left hab
        · rwa [Function.update_of_ne hib] at ha
      rw [item_frame hb hi (ho.free_item i hi a ha') hab hm d hd]
      exact h.free i hi a ha' d h8 hd
  · exact (h.entry id e (hentry id e he)).frame hb (ho.entry_ok id e (hentry id e he)).1
      (hgone (holds_stored he)) hm
  · exact (h.out w b' (hout w b' hb')).frame hb (ho.out_ok w b' (hout w b' hb'))
      (hgone (holds_out hb')) hm

theorem abort (id : HtableKey) : Clean (v.abort id) := by
  unfold Vault.abort
  cases he : v.entries.lookup id with
  | none => exact h
  | some e =>
    exact h.giveBack ho (ho.entry_ok id e he).1 (h.entry id e he) (holds_stored he) (by simp)
      (erase_leaves he) rfl rfl (fun _ _ => lookup_of_erase) fun _ _ hb => hb

omit ho in
theorem publish (id : HtableKey) (t : ℕ) : Clean (v.publish id t).1 := by
  unfold Vault.publish
  cases he : v.entries.lookup id with
  | none => exact h
  | some e =>
    refine ⟨h.free, fun id' e' he' => ?_, h.out⟩
    by_cases hid : id' = id
    · rw [hid, Finmap.lookup_insert] at he'
      cases he'
      exact h.entry id e he
    · rw [Finmap.lookup_insert_of_ne _ hid] at he'
      exact h.entry id' e' he'

omit ho in
theorem create (n : ℕ) (id : HtableKey) {size : ℕ} (hmin : blobSizeMin ≤ size)
    (hmax : size ≤ blobSizeMax) : Clean (v.create n id size).1 := by
  unfold Vault.create
  have hi := bindex_lt (le_trans (by decide) hmin) hmax
  have h8 : 8 ≤ size := le_trans (by decide) hmin
  split_ifs with hnull
  · exact h
  · cases hcons : v.free (bindex size) with
    | nil => exact h
    | cons a l =>
      refine ⟨fun i hi' x hx => ?_, fun id' e' he' => ?_, h.out⟩
      · refine h.free i hi' x ?_
        change x ∈ Function.update v.free (bindex size) l i at hx
        by_cases he : i = bindex size
        · subst he
          rw [Function.update_self] at hx
          rw [hcons]
          exact List.mem_cons_of_mem _ hx
        · rwa [Function.update_of_ne he] at hx
      · change (v.entries.insert id ⟨⟨a, size⟩, validUntilNotPublished⟩).lookup id' = some e' at he'
        by_cases hid : id' = id
        · rw [hid, Finmap.lookup_insert] at he'
          cases he'
          exact fun d h1 h2 => h.free _ hi a (by rw [hcons]; exact List.mem_cons_self) d
            (le_trans h8 h1) h2
        · rw [Finmap.lookup_insert_of_ne _ hid] at he'
          exact h.entry id' e' he'

theorem write {id : HtableKey} {e : Entry} {r : ℕ} {bs : List UInt8}
    (he : v.entries.lookup id = some e) (hr : r + bs.length ≤ e.blk.size) :
    Clean (v.write (e.blk.data + r) bs) := by
  have hb := (ho.entry_ok id e he).1
  have hm : ∀ x, x < e.blk.data ∨ e.blk.data + bbucketItemSizeMax (bindex e.blk.size) ≤ x →
      (v.write (e.blk.data + r) bs).mem x = v.mem x := fun x hx => Vault.write_outside hb hr hx
  refine ⟨fun i hi a ha d h8 hd => ?_, fun id' e' he' => ?_, fun w b' hb' => ?_⟩
  · have hne : a ≠ e.blk.data := fun ha' => ho.stored_not_free he i hi (ha' ▸ ha)
    rw [item_frame hb hi (ho.free_item i hi a ha) hne hm d hd]
    exact h.free i hi a ha d h8 hd
  · by_cases hd : e'.blk.data = e.blk.data
    · obtain rfl := ho.stored_inj he' he hd
      obtain rfl : e' = e := Option.some_inj.mp (he'.symm.trans he)
      intro d h1 h2
      exact (Mem.store_of_outside (by omega)).trans (h.entry id' e' he d h1 h2)
    · exact (h.entry id' e' he').frame hb (ho.entry_ok id' e' he').1 hd hm
  · exact (h.out w b' hb').frame hb (ho.out_ok w b' hb') (ho.stored_ne_out he hb').symm hm

variable [DecidableEq ι]

omit ho in
theorem get (keeper : Blk → ι) (id : HtableKey) : Clean (v.get keeper id).1 := by
  unfold Vault.get
  cases he : v.entries.lookup id with
  | none => exact h
  | some e =>
    simp only
    split_ifs with hpub
    · refine ⟨h.free, fun id' e' he' => h.entry id' e' (lookup_of_erase he'), fun w b hb => ?_⟩
      rcases of_update_eq_some hb with ⟨-, hnew⟩ | ⟨-, hold⟩
      · obtain rfl := Option.some_inj.mp hnew
        exact h.entry id e he
      · exact h.out w b hold
    · exact h

theorem release (w : ι) : Clean (v.release w) := by
  unfold Vault.release
  cases hb : v.out w with
  | none => exact h
  | some b =>
    refine h.giveBack ho (ho.out_ok w b hb) (h.out w b hb) (holds_out hb) (by simp) (out_leaves hb)
      rfl rfl (fun _ _ he => he) fun w' b' hb' => ?_
    exact (of_update_none_eq_some hb').2

end Clean

theorem Vault.init_clean {ι : Type} {mallocated n : ℕ} : Clean (Vault.init ι mallocated n) where
  free i hi a ha d h8 hd := by
    refine binit_outside fun j hj b hb => ?_
    by_cases hab : a = b
    · subst hab
      omega
    · have := eight_le_itemSize j
      rcases item_disjoint hi hj (mem_initialFree.mp ha) hb hab with h | h <;> omega
  entry id e he := by
    rw [Vault.init, Finmap.lookup_empty] at he
    cases he
  out w b hb := by cases hb

end Adnihilum
