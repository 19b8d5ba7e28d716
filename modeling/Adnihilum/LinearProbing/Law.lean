import Adnihilum.Storage.Model

/-!
# The law of the linear-probing table

A table under insertions and erasures, from all-null slots on, for any hash and any power-of-two
size. What it should hold is a partial function from keys to payloads; the slots move underneath,
and in a full table no empty slot ends a search.

* `LpRep`: the slots hold exactly what they should, on a sound table.
* `LpReach`: the states of a table, with what they should hold; **`LpReach.rep`**.
* **`lp_table_law`**: lookups, searches for a free slot and erasures in any such state.
-/

namespace Adnihilum

open OpenAddressing

/-! ## Entries -/

section Entries

variable {σ κ β : Type} {H : LpHost σ κ β} {s : σ}

/-- A slot holds the key with the payload. -/
def LpHost.Holds (H : LpHost σ κ β) (n : ℕ) (s : σ) (key : κ) (val : β) : Prop :=
  ∃ j < n, H.keys s j = key ∧ H.vals s j = val

theorem slotKey_update {keys : ℕ → κ} {i : ℕ} {key : κ} (hkey : key ≠ H.null) :
    slotKey H (Function.update keys i key) = Function.update (slotKey H keys) i (some key) := by
  funext j
  by_cases hj : j = i
  · rw [hj, Function.update_self]
    exact (slotKey_eq_some H).mpr ⟨Function.update_self _ _ _, hkey⟩
  · rw [Function.update_of_ne hj, slotKey, slotKey, Function.update_of_ne hj]

theorem key_inj {n i j : ℕ} (hK : Sound n (homeOf H n) (slotKey H (H.keys s))) (hi : i < n) (hj : j < n)
    (hne : H.keys s i ≠ H.null) (heq : H.keys s j = H.keys s i) : j = i :=
  hK.inj j hj i hi _ ((slotKey_eq_some H).mpr ⟨heq, hne⟩) ((slotKey_eq_some H).mpr ⟨rfl, hne⟩)

/-- **Erasing takes one entry out**, wherever the others go. -/
theorem Erased.holds_iff {n start hole : ℕ} {s' : σ} {key : κ} {val : β}
    (hK : Sound n (homeOf H n) (slotKey H (H.keys s))) (hstart : start < n)
    (hne : H.keys s start ≠ H.null) (h : Erased H n s start s' hole) (hkey : key ≠ H.null) :
    H.Holds n s' key val ↔ key ≠ H.keys s start ∧ H.Holds n s key val := by
  obtain ⟨π, hπn, hπ, hkeys, hvals⟩ := h.perm
  constructor
  · rintro ⟨j, hj, hkj, hvj⟩
    rw [hkeys] at hkj
    rw [hvals] at hvj
    by_cases hjh : j = hole
    · rw [hjh, Function.update_self] at hkj
      exact absurd hkj.symm hkey
    rw [Function.update_of_ne hjh] at hkj
    refine ⟨fun heq => hjh ?_, π j, (hπn j).mpr hj, hkj, hvj⟩
    have := key_inj hK hstart ((hπn j).mpr hj) hne (hkj.trans heq)
    exact π.injective (this.trans hπ.symm)
  · rintro ⟨hother, j, hj, rfl, rfl⟩
    have hback : π (π.symm j) = j := π.apply_symm_apply j
    have hjh : π.symm j ≠ hole := fun e => hother (by rw [← hback, e, hπ])
    refine ⟨π.symm j, (hπn _).mp (by rw [hback]; exact hj), ?_, ?_⟩
    · rw [hkeys, Function.update_of_ne hjh, Function.comp_apply, hback]
    · rw [hvals, Function.comp_apply, hback]

/-- The slot that is empty after erasing keeps the payload. -/
theorem Erased.vals_hole {n start hole : ℕ} {s' : σ} (h : Erased H n s start s' hole) :
    H.keys s' hole = H.null ∧ H.vals s' hole = H.vals s start := by
  obtain ⟨π, -, hπ, hkeys, hvals⟩ := h.perm
  exact ⟨by rw [hkeys, Function.update_self], by rw [hvals, Function.comp_apply, hπ]⟩

end Entries

/-! ## Runs -/

/-- A host whose slots can be written. -/
structure LpTable (σ κ β : Type) extends LpHost σ κ β where
  put : σ → ℕ → κ → β → σ
  keys_put : ∀ s i key val, keys (put s i key val) = Function.update (keys s) i key
  vals_put : ∀ s i key val, vals (put s i key val) = Function.update (vals s) i val

section Runs

variable {σ κ β : Type}

/-- The slots hold what they should. -/
structure LpRep (T : LpTable σ κ β) (n : ℕ) (s : σ) (m : κ → Option β) : Prop where
  sound : Sound n (homeOf T.toLpHost n) (slotKey T.toLpHost (T.keys s))
  nonnull : m T.null = none
  holds_iff : ∀ key ≠ T.null, ∀ val, T.Holds n s key val ↔ m key = some val

namespace LpRep

variable {T : LpTable σ κ β} {k : ℕ} {s : σ} {m : κ → Option β} {key : κ} {val : β}

theorem ne_null {n : ℕ} (h : LpRep T n s m) (hkey : m key = some val) : key ≠ T.null := by
  rintro rfl
  rw [h.nonnull] at hkey
  cases hkey

theorem lookup_some (h : LpRep T (2 ^ k) s m) (hkey : m key = some val) :
    ∃ i < 2 ^ k, lpLookup T.toLpHost (T.keys s) key (2 ^ k) = i ∧ T.keys s i = key ∧
      T.vals s i = val := by
  have hnull := h.ne_null hkey
  obtain ⟨i, hi, hki, hvi⟩ := (h.holds_iff key hnull val).mpr hkey
  exact ⟨i, hi, lpLookup_of_present h.sound hi hki hnull, hki, hvi⟩

theorem lookup_none (h : LpRep T (2 ^ k) s m) (hkey : m key = none) :
    lpLookup T.toLpHost (T.keys s) key (2 ^ k) = 2 ^ k := by
  refine lpLookup_of_absent fun j hj hkj => ?_
  by_contra hnull
  have := (h.holds_iff key hnull _).mp ⟨j, hj, hkj, rfl⟩
  rw [hkey] at this
  cases this

theorem start (hs : ∀ i < 2 ^ k, T.keys s i = T.null) : LpRep T (2 ^ k) s fun _ => none where
  sound :=
    { inj := fun i hi _ _ _ hk _ => absurd (((slotKey_eq_some T.toLpHost).mp hk).1.symm.trans (hs i hi))
        ((slotKey_eq_some T.toLpHost).mp hk).2
      reach := fun i hi _ hk => absurd (((slotKey_eq_some T.toLpHost).mp hk).1.symm.trans (hs i hi))
        ((slotKey_eq_some T.toLpHost).mp hk).2
      cut := ⟨0, by positivity, fun i hi _ hk =>
        absurd (((slotKey_eq_some T.toLpHost).mp hk).1.symm.trans (hs i hi))
          ((slotKey_eq_some T.toLpHost).mp hk).2⟩ }
  nonnull := rfl
  holds_iff key hkey val := by
    refine ⟨fun ⟨j, hj, hkj, _⟩ => absurd (hkj.symm.trans (hs j hj)) hkey, fun h => ?_⟩
    cases h

variable [DecidableEq κ]

/-- **A new key in the first empty slot of its probe path.** -/
theorem insert (h : LpRep T (2 ^ k) s m) (hkey : key ≠ T.null) (hnew : m key = none)
    (hroom : ∃ j < 2 ^ k, T.keys s j = T.null) {i : ℕ}
    (hi : lpFindFreeSlot T.toLpHost (T.keys s) key (2 ^ k) = some i) (val : β) :
    LpRep T (2 ^ k) (T.put s i key val) (Function.update m key (some val)) := by
  obtain ⟨i', hik, hi', hfree, hpath⟩ := @lpFindFreeSlot_spec _ _ _ T.toLpHost _ key _ hroom
  obtain rfl := Option.some.inj (hi'.symm.trans hi)
  have habs : ∀ j < 2 ^ k, T.keys s j ≠ key := fun j hj hkj => by
    have := (h.holds_iff key hkey _).mp ⟨j, hj, hkj, rfl⟩
    rw [hnew] at this
    cases this
  refine ⟨?_, ?_, fun key' hkey' val' => ?_⟩
  · rw [T.keys_put, slotKey_update hkey]
    exact h.sound.insert hik ((slotKey_eq_none T.toLpHost).mpr hfree)
      (fun j hj hp => mt (slotKey_eq_none T.toLpHost).mp (hpath j hj hp))
      (fun j hj hk => habs j hj ((slotKey_eq_some T.toLpHost).mp hk).1)
  · rw [Function.update_of_ne hkey.symm]
    exact h.nonnull
  · rw [LpHost.Holds, T.keys_put, T.vals_put]
    by_cases hkk : key' = key
    · subst hkk
      rw [Function.update_self, Option.some_inj]
      constructor
      · rintro ⟨j, hj, hkj, hvj⟩
        by_cases hji : j = i'
        · rw [hji, Function.update_self] at hvj
          exact hvj
        · rw [Function.update_of_ne hji] at hkj
          exact absurd hkj (habs j hj)
      · rintro rfl
        exact ⟨i', hik, Function.update_self _ _ _, Function.update_self _ _ _⟩
    · rw [Function.update_of_ne hkk, ← h.holds_iff key' hkey']
      constructor
      · rintro ⟨j, hj, hkj, hvj⟩
        by_cases hji : j = i'
        · rw [hji, Function.update_self] at hkj
          exact absurd hkj.symm hkk
        · rw [Function.update_of_ne hji] at hkj hvj
          exact ⟨j, hj, hkj, hvj⟩
      · rintro ⟨j, hj, hkj, hvj⟩
        have hji : j ≠ i' := by
          rintro rfl
          exact hkey' (hkj.symm.trans hfree)
        refine ⟨j, hj, ?_, ?_⟩
        · rw [Function.update_of_ne hji]
          exact hkj
        · rw [Function.update_of_ne hji]
          exact hvj

/-- **Erasing a key of the table** ends, and empties a slot that keeps the payload. -/
theorem erase (hk : k < 64) (h : LpRep T (2 ^ k) s m) (hkey : m key = some val) :
    ∃ s' hole, lpErase T.toLpHost s (lpLookup T.toLpHost (T.keys s) key (2 ^ k)) (2 ^ k) =
        some (s', hole) ∧ hole < 2 ^ k ∧ T.keys s' hole = T.null ∧ T.vals s' hole = val ∧
      (∀ key' ≠ T.null, ∀ val', T.Holds (2 ^ k) s' key' val' ↔
        key' ≠ key ∧ T.Holds (2 ^ k) s key' val') ∧
      LpRep T (2 ^ k) s' (Function.update m key none) := by
  obtain ⟨i, hi, hlookup, rfl, rfl⟩ := h.lookup_some hkey
  have hne := h.ne_null hkey
  obtain ⟨s', hole, he, her⟩ := lpErase_spec hk.le h.sound hi hne
  have hholds : ∀ key' ≠ T.null, ∀ val', T.Holds (2 ^ k) s' key' val' ↔
      key' ≠ T.keys s i ∧ T.Holds (2 ^ k) s key' val' := fun key' hkey' val' =>
    her.holds_iff h.sound hi hne hkey'
  rw [hlookup]
  refine ⟨s', hole, he, her.hole_lt, her.vals_hole.1, her.vals_hole.2, hholds, her.sound, ?_,
    fun key' hkey' val' => ?_⟩
  · rw [Function.update_of_ne hne.symm]
    exact h.nonnull
  · rw [hholds key' hkey' val', h.holds_iff key' hkey']
    by_cases hkk : key' = T.keys s i
    · rw [hkk, Function.update_self]
      exact ⟨fun hc => absurd rfl hc.1, fun hc => (by cases hc)⟩
    · rw [Function.update_of_ne hkk]
      exact and_iff_right hkk

end LpRep

variable [DecidableEq κ]

/-- The states of a table of `n` slots, from all-null slots on, with what the table should hold: new
keys are written where `lp_find_free_slot` says, as long as there is a null slot, and keys are
erased where `lp_lookup` finds them. -/
inductive LpReach (T : LpTable σ κ β) (n : ℕ) : σ → (κ → Option β) → Prop
  | start {s : σ} (hs : ∀ i < n, T.keys s i = T.null) : LpReach T n s fun _ => none
  | insert {s : σ} {m : κ → Option β} {key : κ} {i : ℕ} (val : β) (h : LpReach T n s m)
      (hkey : key ≠ T.null) (hnew : m key = none) (hroom : ∃ j < n, T.keys s j = T.null)
      (hi : lpFindFreeSlot T.toLpHost (T.keys s) key n = some i) :
      LpReach T n (T.put s i key val) (Function.update m key (some val))
  | erase {s s' : σ} {m : κ → Option β} {key : κ} {val : β} {hole : ℕ} (h : LpReach T n s m)
      (hkey : m key = some val)
      (he : lpErase T.toLpHost s (lpLookup T.toLpHost (T.keys s) key n) n = some (s', hole)) :
      LpReach T n s' (Function.update m key none)

variable {T : LpTable σ κ β} {k : ℕ} {s : σ} {m : κ → Option β}

theorem LpReach.rep (hk : k < 64) (h : LpReach T (2 ^ k) s m) : LpRep T (2 ^ k) s m := by
  induction h with
  | start hs => exact LpRep.start hs
  | insert val _ hkey hnew hroom hi ih => exact ih.insert hkey hnew hroom hi val
  | erase _ hkey he ih =>
    obtain ⟨s', hole, he', -, -, -, -, hrep⟩ := ih.erase hk hkey
    obtain ⟨rfl, -⟩ := Prod.mk.inj (Option.some.inj (he'.symm.trans he))
    exact hrep

/-- **The law of the table**, in every state of every run: a key is found exactly if it is there, at
a slot with its payload; with a null slot the search for one ends at a null slot; erasing a key
ends, at a null slot that keeps its payload, and takes out this key only. -/
theorem lp_table_law (hk : k < 64) (h : LpReach T (2 ^ k) s m) :
    (∀ key ≠ T.null,
      (∀ val, m key = some val → ∃ i < 2 ^ k, lpLookup T.toLpHost (T.keys s) key (2 ^ k) = i ∧
        T.keys s i = key ∧ T.vals s i = val) ∧
      (m key = none → lpLookup T.toLpHost (T.keys s) key (2 ^ k) = 2 ^ k)) ∧
    (∀ key, (∃ j < 2 ^ k, T.keys s j = T.null) →
      ∃ i < 2 ^ k, lpFindFreeSlot T.toLpHost (T.keys s) key (2 ^ k) = some i ∧
        T.keys s i = T.null) ∧
    ∀ key val, m key = some val → ∃ s' hole,
      lpErase T.toLpHost s (lpLookup T.toLpHost (T.keys s) key (2 ^ k)) (2 ^ k) = some (s', hole) ∧
      hole < 2 ^ k ∧ T.keys s' hole = T.null ∧ T.vals s' hole = val ∧
      (∀ key' ≠ T.null, ∀ val', T.Holds (2 ^ k) s' key' val' ↔
        key' ≠ key ∧ T.Holds (2 ^ k) s key' val') ∧
      LpReach T (2 ^ k) s' (Function.update m key none) := by
  have hrep := h.rep hk
  refine ⟨fun key _ => ⟨fun val => hrep.lookup_some, hrep.lookup_none⟩, fun key hroom => ?_,
    fun key val hkey => ?_⟩
  · obtain ⟨i, hi, hfind, hnull, -⟩ := @lpFindFreeSlot_spec _ _ _ T.toLpHost _ key _ hroom
    exact ⟨i, hi, hfind, hnull⟩
  · obtain ⟨s', hole, he, hlt, hnull, hval, hholds, -⟩ := hrep.erase hk hkey
    exact ⟨s', hole, he, hlt, hnull, hval, hholds, h.erase hkey he⟩

end Runs

/-! ## The table of the tests -/

/-- `g_keys` and `g_vals` of the tests. -/
structure MockTable where
  gKeys : ℕ → HtableKey
  gVals : ℕ → ℤ

/-- `htable_hash` of the tests. -/
def mockHash (data : HtableKey) : UInt64 :=
  let z := data.h ^^^ data.l
  let z := (z ^^^ (z >>> 30)) * 0xbf58476d1ce4e5b9
  let z := (z ^^^ (z >>> 27)) * 0x94d049bb133111eb
  z ^^^ (z >>> 31)

/-- The table of the tests. -/
def mockTable : LpTable MockTable HtableKey ℤ where
  null := HtableKey.null
  keyIsNull a := a.h == 0 && a.l == 0
  keyCmp := keyCmp
  htableHash := mockHash
  keys t := t.gKeys
  vals t := t.gVals
  htableSwap t a b := ⟨arraySwap t.gKeys a b, arraySwap t.gVals a b⟩
  keySetNull t i := { t with gKeys := Function.update t.gKeys i HtableKey.null }
  keyIsNull_iff k := by
    obtain ⟨h, l⟩ := k
    simp [HtableKey.null]
  keyCmp_iff := keyCmp_iff
  keys_swap t a b := arraySwap_eq t.gKeys a b
  vals_swap t a b := arraySwap_eq t.gVals a b
  keys_setNull _ _ := rfl
  vals_setNull _ _ := rfl
  put t i key val := ⟨Function.update t.gKeys i key, Function.update t.gVals i val⟩
  keys_put _ _ _ _ := rfl
  vals_put _ _ _ _ := rfl

/-- Four slots that are full: two keys are at home in the last one, and the second of them has gone
round to the first slot, which is the home of the third. -/
def demoFull : MockTable :=
  mockTable.put (mockTable.put (mockTable.put (mockTable.put ⟨fun _ => HtableKey.null, fun _ => 0⟩
    3 ⟨0, 9⟩ (-9)) 0 ⟨0, 19⟩ (-19)) 1 ⟨0, 3⟩ (-3)) 2 ⟨0, 2⟩ (-2)

/-- The key in the last slot is erased, and two keys move up. -/
theorem lp_table_law_demo : ∃ s',
    lpErase mockTable.toLpHost demoFull
        (lpLookup mockTable.toLpHost (mockTable.keys demoFull) ⟨0, 9⟩ (2 ^ 2)) (2 ^ 2) = some (s', 1) ∧
      mockTable.keys s' 1 = HtableKey.null ∧ mockTable.vals s' 1 = -9 ∧
      mockTable.Holds (2 ^ 2) s' ⟨0, 19⟩ (-19) ∧ mockTable.Holds (2 ^ 2) s' ⟨0, 3⟩ (-3) ∧
      mockTable.Holds (2 ^ 2) s' ⟨0, 2⟩ (-2) := by
  have hstart : LpReach mockTable (2 ^ 2) ⟨fun _ => HtableKey.null, fun _ => 0⟩ fun _ => none :=
    .start fun _ _ => rfl
  have h₁ := @LpReach.insert _ _ _ _ _ _ _ _ ⟨0, 9⟩ 3 (-9) hstart (by decide) rfl ⟨0, by decide, rfl⟩
    (by decide)
  have h₂ := @LpReach.insert _ _ _ _ _ _ _ _ ⟨0, 19⟩ 0 (-19) h₁ (by decide) rfl ⟨0, by decide, rfl⟩
    (by decide)
  have h₃ := @LpReach.insert _ _ _ _ _ _ _ _ ⟨0, 3⟩ 1 (-3) h₂ (by decide) rfl ⟨1, by decide, rfl⟩
    (by decide)
  have h₄ := @LpReach.insert _ _ _ _ _ _ _ _ ⟨0, 2⟩ 2 (-2) h₃ (by decide) rfl ⟨2, by decide, rfl⟩
    (by decide)
  obtain ⟨s', hole, he, -, hnull, hval, hholds, -⟩ :=
    (lp_table_law (by decide) h₄).2.2 ⟨0, 9⟩ (-9) rfl
  have hhole : (lpErase mockTable.toLpHost demoFull (lpLookup mockTable.toLpHost
      (mockTable.keys demoFull) ⟨0, 9⟩ (2 ^ 2)) (2 ^ 2)).map Prod.snd = some 1 := by decide
  have he' : lpErase mockTable.toLpHost demoFull (lpLookup mockTable.toLpHost
      (mockTable.keys demoFull) ⟨0, 9⟩ (2 ^ 2)) (2 ^ 2) = some (s', hole) := he
  rw [he', Option.map_some, Option.some_inj] at hhole
  subst hhole
  refine ⟨s', he', hnull, hval, (hholds _ (by decide) _).mpr ⟨by decide, 0, by decide, rfl, rfl⟩,
    (hholds _ (by decide) _).mpr ⟨by decide, 1, by decide, rfl, rfl⟩,
    (hholds _ (by decide) _).mpr ⟨by decide, 2, by decide, rfl, rfl⟩⟩

end Adnihilum
