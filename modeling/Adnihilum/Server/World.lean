import Adnihilum.Server.Ahc
import Adnihilum.Storage.Contents

/-!
# Uploads and deliveries

What the server is for, without tables, pointers and contexts: uploads fill blocks of a vault, are
committed when they are complete, and leave the vault again by one delivery or by the reaper.

* `World`: the vault, the running uploads, and the uploads committed so far.
* `Move w c w'`: what the call `c` does to it, and when it is allowed. Calls that fail do nothing.
* `World.Inv`: ownership, clean memory, and that every running upload owns its entry and has written
  what it received.
* `Move.load`: no move changes a block it does not own.
* **`World.Inv.move`**: every move keeps the invariant.
-/

namespace Adnihilum

open FlatMemory Custody

/-- An upload: its id, its block, and what arrived. -/
structure Upload where
  id : HtableKey
  blk : Blk
  body : List UInt8

/-- The vault, the running uploads and the committed ones, by request. -/
structure World where
  vault : Vault ℕ
  uploads : ℕ → Option Upload
  committed : ℕ → Option Upload

/-- The entry is not fetched: there is none, or it is not published. -/
def World.Unavailable (w : World) (id : HtableKey) : Prop :=
  ∀ e, w.vault.entries.lookup id = some e → ¬ e.Published

/-- What a call does. -/
inductive Move (w : World) : Call → World → Prop
  | createFail {r size : ℕ} {id : HtableKey} : Move w (.create r id size Blk.zero) w
  | create {r size : ℕ} {id : HtableKey} {v : Vault ℕ} {blk : Blk}
      (hup : w.uploads r = none) (hcom : w.committed r = none)
      (habs : w.vault.entries.lookup id = none) (hmin : blobSizeMin ≤ size)
      (hmax : size ≤ blobSizeMax)
      (hcreate : w.vault.create storageBlobsMax id size = (v, blk)) (hblk : blk.size ≠ 0) :
      Move w (.create r id size blk)
        { w with vault := v, uploads := Function.update w.uploads r (some ⟨id, blk, []⟩) }
  | write {r : ℕ} {u : Upload} {bytes : List UInt8} (hup : w.uploads r = some u)
      (hfit : u.body.length + bytes.length ≤ u.blk.size) :
      Move w (.write r (u.blk.data + u.body.length) bytes)
        { w with
          vault := w.vault.write (u.blk.data + u.body.length) bytes
          uploads := Function.update w.uploads r (some { u with body := u.body ++ bytes }) }
  | publish {r t : ℕ} {u : Upload} (hup : w.uploads r = some u)
      (hfull : u.body.length = u.blk.size) :
      Move w (.publish r u.id t true)
        { vault := (w.vault.publish u.id t).1
          uploads := Function.update w.uploads r none
          committed := Function.update w.committed r (some u) }
  | getFail {r : ℕ} {id : HtableKey} (hno : w.Unavailable id) : Move w (.get r id Blk.zero) w
  | get {r : ℕ} {id : HtableKey} {e : Entry} (he : w.vault.entries.lookup id = some e)
      (hpub : e.Published) (hout : w.vault.out r = none) :
      Move w (.get r id e.blk) { w with vault := (w.vault.get (fun _ => r) id).1 }
  | abort {r : ℕ} {u : Upload} (hup : w.uploads r = some u) :
      Move w (.abort r u.id)
        { w with vault := w.vault.abort u.id, uploads := Function.update w.uploads r none }
  | free {r : ℕ} {b : Blk} (hout : w.vault.out r = some b) :
      Move w (.free r b) { w with vault := w.vault.release r }
  | reap {id : HtableKey} {e : Entry} (he : w.vault.entries.lookup id = some e)
      (hpub : e.Published) : Move w (.reap id) { w with vault := w.vault.abort id }
  | queue {r pending : ℕ} {resp : Response} {ret : Bool} : Move w (.queue r pending resp ret) w

theorem Move.create_inv {w w' : World} {r size : ℕ} {id : HtableKey} {blk : Blk}
    (h : Move w (.create r id size blk) w') (hblk : blk.size ≠ 0) :
    w'.uploads r = some ⟨id, blk, []⟩ := by
  cases h with
  | createFail => exact absurd rfl hblk
  | create => exact Function.update_self _ _ _

theorem Move.write_inv {w w' : World} {r dst : ℕ} {bytes : List UInt8}
    (h : Move w (.write r dst bytes) w') : ∃ u, w.uploads r = some u ∧
      w'.uploads r = some { u with body := u.body ++ bytes } := by
  cases h with
  | write hup => exact ⟨_, hup, Function.update_self _ _ _⟩

theorem Move.publish_inv {w w' : World} {r t : ℕ} {id : HtableKey} {ret : Bool}
    (h : Move w (.publish r id t ret) w') : ret = true ∧ ∃ u, w.uploads r = some u ∧ u.id = id ∧
      w'.vault = (w.vault.publish id t).1 := by
  cases h with
  | publish hup => exact ⟨rfl, _, hup, rfl, rfl⟩

theorem Move.abort_inv {w w' : World} {r : ℕ} {id : HtableKey} (h : Move w (.abort r id) w') :
    ∃ u, w.uploads r = some u ∧ u.id = id ∧ w'.vault = w.vault.abort u.id := by
  cases h with
  | abort hup => exact ⟨_, hup, rfl, rfl⟩

theorem Move.get_inv {w w' : World} {r : ℕ} {id : HtableKey} {blk : Blk}
    (h : Move w (.get r id blk) w') : (blk = Blk.zero ∧ w.Unavailable id ∧ w' = w) ∨
      ∃ e, w.vault.entries.lookup id = some e ∧ e.Published ∧ e.blk = blk ∧
        w'.vault.entries = w.vault.entries.erase id := by
  cases h with
  | getFail hno => exact Or.inl ⟨rfl, hno, rfl⟩
  | @get _ _ e he hpub hout =>
    refine Or.inr ⟨e, he, hpub, rfl, ?_⟩
    rw [Vault.get_some _ he hpub]

theorem Move.free_inv {w w' : World} {r : ℕ} {b : Blk} (h : Move w (.free r b) w') :
    w.vault.out r = some b ∧ w'.vault = w.vault.release r := by
  cases h with
  | free hout => exact ⟨hout, rfl⟩

/-- A sequence of calls. -/
def Moves (w : World) : List Call → World → Prop
  | [], w' => w' = w
  | c :: calls, w' => ∃ w₁, Move w c w₁ ∧ Moves w₁ calls w'

theorem Moves.append {w w₁ w₂ : World} {calls₁ calls₂ : List Call} (h₁ : Moves w calls₁ w₁)
    (h₂ : Moves w₁ calls₂ w₂) : Moves w (calls₁ ++ calls₂) w₂ := by
  induction calls₁ generalizing w with
  | nil =>
    cases h₁
    exact h₂
  | cons c calls ih =>
    obtain ⟨w', hm, hrest⟩ := h₁
    exact ⟨w', hm, ih hrest⟩

theorem Moves.split {w w' : World} {calls₁ calls₂ : List Call} (h : Moves w (calls₁ ++ calls₂) w') :
    ∃ w₁, Moves w calls₁ w₁ ∧ Moves w₁ calls₂ w' := by
  induction calls₁ generalizing w with
  | nil => exact ⟨w, rfl, h⟩
  | cons c calls ih =>
    obtain ⟨w₁, hm, hrest⟩ := h
    obtain ⟨w₂, h1, h2⟩ := ih hrest
    exact ⟨w₂, ⟨w₁, hm, h1⟩, h2⟩

theorem Moves.mem {w w' : World} {calls : List Call} (h : Moves w calls w') {c : Call}
    (hc : c ∈ calls) : ∃ w₁ w₂, Move w₁ c w₂ := by
  obtain ⟨before, after, rfl⟩ := List.append_of_mem hc
  obtain ⟨w₁, _, w₂, hm, _⟩ := h.split
  exact ⟨w₁, w₂, hm⟩

theorem Moves.single {w w' : World} {c : Call} (h : Move w c w') : Moves w [c] w' := ⟨w', h, rfl⟩

theorem Moves.keep {P : World → Prop} (hP : ∀ w c w', Move w c w' → P w → P w') {calls : List Call} :
    ∀ {w w' : World}, Moves w calls w' → P w → P w' := by
  induction calls with
  | nil =>
    rintro w w' rfl h
    exact h
  | cons c calls ih =>
    rintro w w' ⟨w₁, hm, hrest⟩ h
    exact ih hrest (hP w c w₁ hm h)

/-! ## Who moves -/

/-- The request a call belongs to; the reaper belongs to none. -/
def Call.actor : Call → Option ℕ
  | .create r _ _ _ | .write r _ _ | .publish r _ _ _ | .get r _ _ | .abort r _ | .free r _
  | .queue r _ _ _ => some r
  | .reap _ => none

/-- The handler makes the call; the others are made by `req_done` and the reaper. -/
def Call.byHandler : Call → Bool
  | .abort _ _ | .free _ _ | .reap _ => false
  | _ => true

/-- The handler makes the call for request `r`. -/
def Call.HandlerOf (r : ℕ) (c : Call) : Prop := c.actor = some r ∧ c.byHandler = true

theorem Call.handlerOf_single {r : ℕ} {c : Call} (h : c.HandlerOf r) : ∀ c' ∈ [c], c'.HandlerOf r :=
  List.forall_mem_singleton.mpr h

theorem Move.frame {w w' : World} {c : Call} (h : Move w c w') {r : ℕ} (hr : c.actor ≠ some r) :
    w'.uploads r = w.uploads r ∧ w'.committed r = w.committed r ∧
      w'.vault.out r = w.vault.out r := by
  have hne : ∀ {r' : ℕ}, c.actor = some r' → r ≠ r' := fun ha e => hr (e ▸ ha)
  cases h with
  | createFail => exact ⟨rfl, rfl, rfl⟩
  | create hup hcom habs hmin hmax hcreate hblk =>
    obtain ⟨_, _, _, hout, _⟩ := Vault.create_some hcreate hblk
    exact ⟨Function.update_of_ne (hne rfl) _ _, rfl, congrFun hout r⟩
  | write hup hfit => exact ⟨Function.update_of_ne (hne rfl) _ _, rfl, rfl⟩
  | publish hup hfull =>
    exact ⟨Function.update_of_ne (hne rfl) _ _, Function.update_of_ne (hne rfl) _ _,
      congrFun (Vault.publish_out _ _ _) r⟩
  | getFail => exact ⟨rfl, rfl, rfl⟩
  | get he hpub hout =>
    refine ⟨rfl, rfl, ?_⟩
    rw [Vault.get_some _ he hpub]
    exact Function.update_of_ne (hne rfl) _ _
  | abort hup =>
    exact ⟨Function.update_of_ne (hne rfl) _ _, rfl, congrFun (Vault.abort_out _ _) r⟩
  | free hout =>
    refine ⟨rfl, rfl, ?_⟩
    simp only [Vault.release, hout]
    exact Function.update_of_ne (hne rfl) _ _
  | reap he hpub => exact ⟨rfl, rfl, congrFun (Vault.abort_out _ _) r⟩
  | queue => exact ⟨rfl, rfl, rfl⟩

theorem Moves.frame {calls : List Call} {r : ℕ} : ∀ {w w' : World}, Moves w calls w' →
    (∀ c ∈ calls, c.actor ≠ some r) → w'.uploads r = w.uploads r ∧ w'.committed r = w.committed r ∧
      w'.vault.out r = w.vault.out r := by
  induction calls with
  | nil =>
    rintro w w' rfl _
    exact ⟨rfl, rfl, rfl⟩
  | cons c calls ih =>
    rintro w w' ⟨w₁, hm, hrest⟩ hr
    obtain ⟨h1, h2, h3⟩ := hm.frame (hr c List.mem_cons_self)
    obtain ⟨h4, h5, h6⟩ := ih hrest fun c hc => hr c (List.mem_cons_of_mem _ hc)
    exact ⟨h4.trans h1, h5.trans h2, h6.trans h3⟩

/-! ## The invariant -/

/-- **Every running upload owns an unpublished entry**, no two of them share one, and the block
holds what arrived. -/
structure World.Inv (memory : ℕ) (w : World) : Prop where
  owned : Owned memory w.vault
  clean : Clean w.vault
  upload : ∀ r u, w.uploads r = some u →
    w.vault.entries.lookup u.id = some ⟨u.blk, validUntilNotPublished⟩
  body : ∀ r u, w.uploads r = some u →
    u.body.length ≤ u.blk.size ∧ w.vault.mem.load u.blk.data u.body.length = u.body
  distinct : ∀ r r' u u', w.uploads r = some u → w.uploads r' = some u' → u.id = u'.id → r = r'
  once : ∀ r u, w.uploads r = some u → w.committed r = none

/-- A block that is in an entry or handed out. -/
def World.Held (w : World) (b : Blk) : Prop :=
  (∃ id e, w.vault.entries.lookup id = some e ∧ e.blk = b) ∨ ∃ r, w.vault.out r = some b

theorem World.Held.ok {memory : ℕ} {w : World} {b : Blk} (h : w.Held b) (ho : Owned memory w.vault) :
    BlkOk memory b := by
  rcases h with ⟨id, e, he, rfl⟩ | ⟨r, hr⟩
  · exact (ho.entry_ok id e he).1
  · exact ho.out_ok r b hr

theorem World.Held.ne_free {memory : ℕ} {w : World} {b : Blk} {a : ℕ} (h : w.Held b)
    (ho : Owned memory w.vault) (ha : w.vault.Holds .free a) : b.data ≠ a := by
  rintro rfl
  obtain ⟨j, hj, hm⟩ := ha
  rcases h with ⟨id, e, he, rfl⟩ | ⟨r, hr⟩
  · exact ho.stored_not_free he j hj hm
  · exact ho.out_not_free hr j hj hm

theorem Move.owned {memory : ℕ} {w w' : World} {c : Call} (h : Move w c w')
    (ho : Owned memory w.vault) : Owned memory w'.vault := by
  cases h with
  | createFail => exact ho
  | create hup hcom habs hmin hmax hcreate hblk =>
    have := ho.create (n := storageBlobsMax) hmin hmax habs
    rwa [hcreate] at this
  | write hup hfit => exact ho.write _ _
  | publish hup hfull => exact ho.publish _ _
  | getFail => exact ho
  | get he hpub hout => exact ho.get fun _ _ => hout
  | abort hup => exact ho.abort _
  | free hout => exact ho.release _
  | reap he hpub => exact ho.abort _
  | queue => exact ho

theorem Move.clean {memory : ℕ} {w w' : World} {c : Call} (h : Move w c w') (hi : w.Inv memory) :
    Clean w'.vault := by
  cases h with
  | createFail => exact hi.clean
  | @create r size id v blk hup hcom habs hmin hmax hcreate hblk =>
    have := hi.clean.create storageBlobsMax id hmin hmax
    rwa [hcreate] at this
  | write hup hfit => exact hi.clean.write hi.owned (hi.upload _ _ hup) hfit
  | publish hup hfull => exact hi.clean.publish _ _
  | getFail => exact hi.clean
  | get he hpub hout => exact hi.clean.get _ _
  | abort hup => exact hi.clean.abort hi.owned _
  | free hout => exact hi.clean.release hi.owned _
  | reap he hpub => exact hi.clean.abort hi.owned _
  | queue => exact hi.clean

theorem load_abort {memory : ℕ} {w : World} {v : Vault ℕ} {id : HtableKey} {b : Blk} {n : ℕ}
    (ho : Owned memory v) (hw : w.vault = v.abort id) (hb : w.Held b) (hn : n ≤ b.size) :
    w.vault.mem.load b.data n = v.mem.load b.data n := by
  have ho' : Owned memory w.vault := hw ▸ ho.abort id
  have hok := hb.ok ho'
  cases he : v.entries.lookup id with
  | none => rw [hw, Vault.abort, he]
  | some e =>
    have habort : v.abort id = Vault.giveBack { v with entries := v.entries.erase id } e.blk := by
      rw [Vault.abort, he]
    have hfree : w.vault.Holds .free e.blk.data := by
      rw [hw, habort]
      exact (push_lands (ho.entry_ok id e he).1.bindex_lt _ _).mpr (Or.inr ⟨rfl, rfl⟩)
    rw [hw, habort]
    exact Vault.load_giveBack (ho.entry_ok id e he).1 hok (hb.ne_free ho' hfree) hn

theorem load_release {memory : ℕ} {w : World} {v : Vault ℕ} {r : ℕ} {b : Blk} {n : ℕ}
    (ho : Owned memory v) (hw : w.vault = v.release r) (hb : w.Held b) (hn : n ≤ b.size) :
    w.vault.mem.load b.data n = v.mem.load b.data n := by
  have ho' : Owned memory w.vault := hw ▸ ho.release r
  have hok := hb.ok ho'
  cases hr : v.out r with
  | none => rw [hw, Vault.release, hr]
  | some b₀ =>
    have hrel : v.release r = Vault.giveBack { v with out := Function.update v.out r none } b₀ := by
      rw [Vault.release, hr]
    have hfree : w.vault.Holds .free b₀.data := by
      rw [hw, hrel]
      exact (push_lands (ho.out_ok r b₀ hr).bindex_lt _ _).mpr (Or.inr ⟨rfl, rfl⟩)
    rw [hw, hrel]
    exact Vault.load_giveBack (ho.out_ok r b₀ hr) hok (hb.ne_free ho' hfree) hn

/-- **No move changes a block that stays held**, except the owner's writes. -/
theorem Move.load {memory : ℕ} {w w' : World} {c : Call} (h : Move w c w') (hi : w.Inv memory)
    {b : Blk} (hb : w.Held b) (hb' : w'.Held b)
    (hown : ∀ r dst bytes u, c = .write r dst bytes → w.uploads r = some u → u.blk ≠ b) {n : ℕ}
    (hn : n ≤ b.size) :
    w'.vault.mem.load b.data n = w.vault.mem.load b.data n := by
  cases h with
  | createFail => rfl
  | create hup hcom habs hmin hmax hcreate hblk =>
    obtain ⟨_, _, hmem, _⟩ := Vault.create_some hcreate hblk
    simp only [hmem]
  | @write r u bytes hup hfit =>
    have he := hi.upload _ _ hup
    have hne : b.data ≠ u.blk.data := by
      intro hd
      rcases hb with ⟨id, e, he', rfl⟩ | ⟨r', hr'⟩
      · have hid := hi.owned.stored_inj he' he hd
        rw [hid, he, Option.some_inj] at he'
        exact hown r _ bytes u rfl hup (congrArg Entry.blk he')
      · exact hi.owned.stored_ne_out he hr' hd.symm
    exact Vault.load_write (hi.owned.entry_ok _ _ he).1 (hb.ok hi.owned) hne hfit hn
  | publish hup hfull => simp only [Vault.publish_mem]
  | getFail => rfl
  | get he hpub hout => simp only [Vault.get_mem]
  | abort hup => exact load_abort hi.owned rfl hb' hn
  | free hout => exact load_release hi.owned rfl hb' hn
  | reap he hpub => exact load_abort hi.owned rfl hb' hn
  | queue => rfl

/-- A running upload after a move was running before, with the same id and block, unless the move
created it. -/
theorem Move.upload_back {w w' : World} {c : Call} (h : Move w c w') {r : ℕ} {u' : Upload}
    (hu' : w'.uploads r = some u') :
    (∃ u, w.uploads r = some u ∧ u.id = u'.id ∧ u.blk = u'.blk) ∨
      (w.uploads r = none ∧ w.committed r = none ∧ u'.body = [] ∧
        w.vault.entries.lookup u'.id = none) := by
  cases h with
  | createFail | getFail | get | free | reap | queue => exact Or.inl ⟨u', hu', rfl, rfl⟩
  | create hup hcom habs =>
    rcases of_update_eq_some hu' with ⟨rfl, hnew⟩ | ⟨-, hold⟩
    · obtain rfl := Option.some_inj.mp hnew
      exact Or.inr ⟨hup, hcom, rfl, habs⟩
    · exact Or.inl ⟨u', hold, rfl, rfl⟩
  | @write r₀ u bytes hup hfit =>
    rcases of_update_eq_some hu' with ⟨rfl, hnew⟩ | ⟨-, hold⟩
    · obtain rfl := Option.some_inj.mp hnew
      exact Or.inl ⟨u, hup, rfl, rfl⟩
    · exact Or.inl ⟨u', hold, rfl, rfl⟩
  | publish | abort => exact Or.inl ⟨u', (of_update_none_eq_some hu').2, rfl, rfl⟩

namespace World.Inv

variable {memory : ℕ} {w w' : World} {c : Call} (hi : w.Inv memory)
include hi

theorem ne_published {r : ℕ} {u : Upload} {id : HtableKey} {e : Entry} (hu : w.uploads r = some u)
    (he : w.vault.entries.lookup id = some e) (hpub : e.Published) : u.id ≠ id := by
  rintro rfl
  rw [hi.upload r u hu, Option.some_inj] at he
  subst he
  exact hpub rfl

theorem blk_size_ne_zero {r : ℕ} {u : Upload} (hu : w.uploads r = some u) : u.blk.size ≠ 0 :=
  (hi.owned.entry_ok _ _ (hi.upload r u hu)).1.size_ne_zero

theorem ne_absent {r : ℕ} {u : Upload} {id : HtableKey} (hu : w.uploads r = some u)
    (he : w.vault.entries.lookup id = none) : u.id ≠ id := by
  rintro rfl
  rw [hi.upload r u hu] at he
  cases he

theorem held {r : ℕ} {u : Upload} (hu : w.uploads r = some u) : w.Held u.blk :=
  Or.inl ⟨_, _, hi.upload r u hu, rfl⟩

theorem blk_ne {r r' : ℕ} {u u' : Upload} (hu : w.uploads r = some u) (hu' : w.uploads r' = some u')
    (hr : r ≠ r') : u.blk ≠ u'.blk := by
  intro hb
  refine hr (hi.distinct r r' u u' hu hu' ?_)
  exact hi.owned.stored_inj (hi.upload r u hu) (hi.upload r' u' hu') (congrArg Blk.data hb)

theorem upload_move (h : Move w c w') {r : ℕ} {u' : Upload} (hu' : w'.uploads r = some u') :
    w'.vault.entries.lookup u'.id = some ⟨u'.blk, validUntilNotPublished⟩ := by
  cases h with
  | createFail | getFail | queue => exact hi.upload r u' hu'
  | @create r₀ size id v blk hup hcom habs hmin hmax hcreate hblk =>
    obtain ⟨_, _, _, _, hlook⟩ := Vault.create_some hcreate hblk
    simp only [hlook]
    rcases of_update_eq_some hu' with ⟨-, hnew⟩ | ⟨-, hold⟩
    · obtain rfl := Option.some_inj.mp hnew
      rw [if_pos rfl]
    · rw [if_neg (hi.ne_absent hold habs), hi.upload r u' hold]
  | @write r₀ u bytes hup hfit =>
    change w.vault.entries.lookup u'.id = _
    rcases of_update_eq_some hu' with ⟨-, hnew⟩ | ⟨-, hold⟩
    · obtain rfl := Option.some_inj.mp hnew
      exact hi.upload r₀ u hup
    · exact hi.upload r u' hold
  | @publish r₀ t u hup hfull =>
    obtain ⟨hr, hold⟩ := of_update_none_eq_some hu'
    have hid : u'.id ≠ u.id := fun e => hr (hi.distinct r r₀ u' u hold hup e)
    simp only [Vault.lookup_publish, if_neg hid]
    exact hi.upload r u' hold
  | @get r₀ id e he hpub hout =>
    have hid := hi.ne_published hu' he hpub
    rw [Vault.get_some _ he hpub]
    change (w.vault.entries.erase id).lookup u'.id = _
    rw [Finmap.lookup_erase_ne hid]
    exact hi.upload r u' hu'
  | @abort r₀ u hup =>
    obtain ⟨hr, hold⟩ := of_update_none_eq_some hu'
    have hid : u'.id ≠ u.id := fun e => hr (hi.distinct r r₀ u' u hold hup e)
    simp only [Vault.lookup_abort, if_neg hid]
    exact hi.upload r u' hold
  | free hout =>
    simp only [Vault.release_entries]
    exact hi.upload r u' hu'
  | @reap id e he hpub =>
    have hid := hi.ne_published hu' he hpub
    simp only [Vault.lookup_abort, if_neg hid]
    exact hi.upload r u' hu'

theorem body_move (h : Move w c w') {r : ℕ} {u' : Upload} (hu' : w'.uploads r = some u') :
    u'.body.length ≤ u'.blk.size ∧ w'.vault.mem.load u'.blk.data u'.body.length = u'.body := by
  have hheld : w'.Held u'.blk := Or.inl ⟨_, _, hi.upload_move h hu', rfl⟩
  -- an upload that the move did not touch
  have hkeep : w.uploads r = some u' →
      (∀ r₀ dst bytes u, c = .write r₀ dst bytes → w.uploads r₀ = some u → u.blk ≠ u'.blk) →
      u'.body.length ≤ u'.blk.size ∧ w'.vault.mem.load u'.blk.data u'.body.length = u'.body := by
    intro hu hown
    obtain ⟨h1, h2⟩ := hi.body r u' hu
    exact ⟨h1, by rw [h.load hi (hi.held hu) hheld hown h1, h2]⟩
  rcases h.upload_back hu' with ⟨u, hu, _, _⟩ | ⟨_, _, hbody, _⟩
  · by_cases hc : c.actor = some r
    · cases h with
      | createFail | getFail | get | free | queue => exact hkeep hu' (by simp)
      | create hup =>
        obtain rfl : _ = r := Option.some_inj.mp hc
        rw [hup] at hu
        cases hu
      | @write r₀ u₀ bytes hup hfit =>
        obtain rfl : r₀ = r := Option.some_inj.mp hc
        simp only [Function.update_self, Option.some_inj] at hu'
        subst hu'
        obtain ⟨h1, h2⟩ := hi.body r₀ u₀ hup
        refine ⟨by simpa using hfit, ?_⟩
        rw [List.length_append]
        exact (Mem.load_store_append _ _).trans (by rw [h2])
      | publish hup hfull =>
        obtain rfl : _ = r := Option.some_inj.mp hc
        simp only [Function.update_self] at hu'
        cases hu'
      | abort hup =>
        obtain rfl : _ = r := Option.some_inj.mp hc
        simp only [Function.update_self] at hu'
        cases hu'
      | reap => cases hc
    · have hu := hu'
      rw [(h.frame hc).1] at hu
      refine hkeep hu fun r₀ dst bytes u hcw hu₀ => hi.blk_ne hu₀ hu ?_
      rintro rfl
      rw [hcw] at hc
      exact hc rfl
  · rw [hbody]
    exact ⟨Nat.zero_le _, rfl⟩

/-- **Every move keeps the invariant.** -/
theorem move (h : Move w c w') : w'.Inv memory where
  owned := h.owned hi.owned
  clean := h.clean hi
  upload r u hu := hi.upload_move h hu
  body r u hu := hi.body_move h hu
  distinct r r' u u' hu hu' hid := by
    rcases h.upload_back hu with ⟨v, hv, hid1, _⟩ | ⟨hn, _, _, habs⟩
    · rcases h.upload_back hu' with ⟨v', hv', hid2, _⟩ | ⟨_, _, _, habs'⟩
      · exact hi.distinct r r' v v' hv hv' (by rw [hid1, hid2, hid])
      · exact absurd (hid1.trans hid) (hi.ne_absent hv habs')
    · rcases h.upload_back hu' with ⟨v', hv', hid2, _⟩ | ⟨hn', _, _, _⟩
      · exact absurd (hid2.trans hid.symm) (hi.ne_absent hv' habs)
      · -- one move creates at most one upload
        by_contra hr
        have hc : c.actor = some r := by
          by_contra hc
          rw [(h.frame hc).1, hn] at hu
          cases hu
        have hc' : c.actor = some r' := by
          by_contra hc'
          rw [(h.frame hc').1, hn'] at hu'
          cases hu'
        exact hr (Option.some_inj.mp (hc.symm.trans hc'))
  once r u hu := by
    have hold : w.committed r = none := by
      rcases h.upload_back hu with ⟨v, hv, _⟩ | ⟨_, hcom, _⟩
      · exact hi.once r v hv
      · exact hcom
    cases h with
    | createFail | create | write | getFail | get | abort | free | reap | queue => exact hold
    | @publish r₀ t u₀ hup hfull =>
      by_cases hr : r = r₀
      · subst hr
        simp only [Function.update_self] at hu
        cases hu
      · exact (Function.update_of_ne hr _ _).trans hold

omit hi in
theorem moves {calls : List Call} (h : Moves w calls w') (hi : w.Inv memory) : w'.Inv memory :=
  h.keep (P := fun w => w.Inv memory) (fun _ _ _ hm hi => hi.move hm) hi

end World.Inv

end Adnihilum
