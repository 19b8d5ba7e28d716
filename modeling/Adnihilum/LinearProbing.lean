import Adnihilum.Lib.OpenAddressing
import Adnihilum.Types
import Mathlib.Tactic

/-!
# `linear_probing.h`

The header is included by a file that owns the arrays: `LpHost` lists what it asks for. The table
size is a power of two, so that `& (table_size - 1)` is reduction modulo the size.

* `lpHomeIndex`, `lpFindFreeSlot`, `lpLookup`, `lpErase`: the functions of the header. The `goto`
  loop of `lp_find_free_slot` has no bound of its own; the model runs it on fuel, and
  `lpFindFreeSlotLoop_eq_none` says that fuel for two rounds already decides termination.
* `lpFindFreeSlot_spec`: with an empty slot the search returns the first one on the probe path.
* `lpLookup_of_present`, `lpLookup_of_absent`, **`lpErase_spec`**: on a sound table.
-/

namespace Adnihilum

open OpenAddressing

/-- What `linear_probing.h` asks of the file that includes it: its keys, and `htable_swap`, which
exchanges two slots with all they carry. -/
structure LpHost (σ κ β : Type) where
  null : κ
  keyIsNull : κ → Bool
  keyCmp : κ → κ → Bool
  htableHash : κ → UInt64
  keys : σ → ℕ → κ
  vals : σ → ℕ → β
  htableSwap : σ → ℕ → ℕ → σ
  keySetNull : σ → ℕ → σ
  keyIsNull_iff : ∀ k, keyIsNull k = true ↔ k = null
  keyCmp_iff : ∀ a b, keyCmp a b = true ↔ a = b
  keys_swap : ∀ s a b, keys (htableSwap s a b) = keys s ∘ Equiv.swap a b
  vals_swap : ∀ s a b, vals (htableSwap s a b) = vals s ∘ Equiv.swap a b
  keys_setNull : ∀ s i, keys (keySetNull s i) = Function.update (keys s) i null
  vals_setNull : ∀ s i, vals (keySetNull s i) = vals s

/-- `lp_home_index`. -/
def lpHomeIndex (h : UInt64) (tableSize : ℕ) : ℕ := h.toNat &&& (tableSize - 1)

section Header

variable {σ κ β : Type} (H : LpHost σ κ β)

/-- The loop of `lp_find_free_slot` from `repeat:` on. -/
def lpFindFreeSlotLoop (keys : ℕ → κ) (tableSize : ℕ) : ℕ → ℕ → Option ℕ
  | 0, _ => none
  | fuel + 1, i =>
    if i < tableSize then
      if H.keyIsNull (keys i) then some i else lpFindFreeSlotLoop keys tableSize fuel (i + 1)
    else lpFindFreeSlotLoop keys tableSize fuel 0

/-- `lp_find_free_slot`; `none` is a search that does not end. -/
def lpFindFreeSlot (keys : ℕ → κ) (key : κ) (tableSize : ℕ) : Option ℕ :=
  let i := lpHomeIndex (H.htableHash key) tableSize
  if H.keyIsNull (keys i) then some i
  else lpFindFreeSlotLoop H keys tableSize (2 * tableSize + 2) (i + 1)

/-- The loop of `lp_lookup`, with `m` steps left. -/
def lpLookupLoop (keys : ℕ → κ) (key : κ) (tableSize home mask : ℕ) : ℕ → ℕ → ℕ
  | 0, _ => tableSize
  | m + 1, step =>
    let idx := (home + step) &&& mask
    if H.keyIsNull (keys idx) then tableSize
    else if H.keyCmp (keys idx) key then idx
    else lpLookupLoop keys key tableSize home mask m (step + 1)

/-- `lp_lookup`. -/
def lpLookup (keys : ℕ → κ) (key : κ) (tableSize : ℕ) : ℕ :=
  let home := lpHomeIndex (H.htableHash key) tableSize
  lpLookupLoop H keys key tableSize home (tableSize - 1) tableSize 0

/-- The `while (true)` loop of `lp_erase`: the state and the hole at the `break`. -/
def lpEraseLoop (startIdx tableSize mask : ℕ) : ℕ → σ → ℕ → ℕ → Option (σ × ℕ)
  | 0, _, _, _ => none
  | fuel + 1, s, hole, next =>
    let next := (next + 1) &&& mask
    if H.keyIsNull (H.keys s next) || next == startIdx then some (s, hole)
    else
      let home := lpHomeIndex (H.htableHash (H.keys s next)) tableSize
      if (subU64 hole home &&& mask) < (subU64 next home &&& mask) then
        lpEraseLoop startIdx tableSize mask fuel (H.htableSwap s hole next) next next
      else lpEraseLoop startIdx tableSize mask fuel s hole next

/-- `lp_erase`: the new state and the index of the slot that is empty now. -/
def lpErase (s : σ) (startIdx tableSize : ℕ) : Option (σ × ℕ) :=
  (lpEraseLoop H startIdx tableSize (tableSize - 1) tableSize s startIdx startIdx).map
    fun p => (H.keySetNull p.1 p.2, p.2)

end Header

/-! ## Masks -/

theorem and_mask {k : ℕ} (x : ℕ) : x &&& (2 ^ k - 1) = x % 2 ^ k := Nat.and_two_pow_sub_one_eq_mod x k

theorem lpHomeIndex_lt {k : ℕ} (h : UInt64) : lpHomeIndex h (2 ^ k) < 2 ^ k := by
  rw [lpHomeIndex, and_mask]
  exact Nat.mod_lt _ (by positivity)

theorem subU64_mask {k a b : ℕ} (hk : k ≤ 64) (ha : a < 2 ^ k) (hb : b < 2 ^ k) :
    subU64 a b &&& (2 ^ k - 1) = fwd (2 ^ k) b a := by
  have hdvd : 2 ^ k ∣ 2 ^ 64 := pow_dvd_pow 2 hk
  obtain ⟨m, hm⟩ := hdvd
  have hm0 : 0 < m := by
    rcases Nat.eq_zero_or_pos m with h | h
    · rw [h] at hm
      norm_num at hm
    · exact h
  have hle : 2 ^ k ≤ 2 ^ 64 := Nat.pow_le_pow_right (by norm_num) hk
  rw [and_mask, subU64, Nat.mod_mod_of_dvd _ ⟨m, hm⟩, fwd, hm]
  obtain ⟨m', rfl⟩ : ∃ m', m = m' + 1 := ⟨m - 1, by omega⟩
  rw [show a + 2 ^ k * (m' + 1) - b = a + 2 ^ k - b + 2 ^ k * m' by
    rw [Nat.mul_add, Nat.mul_one]; omega, Nat.add_mul_mod_self_left]

/-! ## Keys in slots -/

section Slots

variable {σ κ β : Type} (H : LpHost σ κ β)

/-- The key a slot holds, if any. -/
def slotKey (keys : ℕ → κ) (i : ℕ) : Option κ := if H.keyIsNull (keys i) then none else some (keys i)

/-- The home slot of a key. -/
def homeOf (tableSize : ℕ) (key : κ) : ℕ := lpHomeIndex (H.htableHash key) tableSize

theorem homeOf_lt (k : ℕ) (key : κ) : homeOf H (2 ^ k) key < 2 ^ k := lpHomeIndex_lt _

theorem slotKey_eq_none {keys : ℕ → κ} {i : ℕ} : slotKey H keys i = none ↔ keys i = H.null := by
  unfold slotKey
  split_ifs with h
  · simp [(H.keyIsNull_iff _).mp h]
  · simp [mt (H.keyIsNull_iff _).mpr h]

theorem slotKey_eq_some {keys : ℕ → κ} {i : ℕ} {k : κ} :
    slotKey H keys i = some k ↔ keys i = k ∧ k ≠ H.null := by
  unfold slotKey
  split_ifs with h
  · rw [H.keyIsNull_iff] at h
    simp only [false_iff, not_and, not_not]
    rintro rfl
    exact h
  · rw [H.keyIsNull_iff] at h
    simp only [Option.some_inj]
    exact ⟨fun e => ⟨e, e ▸ h⟩, fun e => e.1⟩

/-! ## Searching for an empty slot -/

variable {H} {keys : ℕ → κ} {key : κ}

/-- In a table without an empty slot the search never ends. -/
theorem lpFindFreeSlotLoop_eq_none {n : ℕ} (h : ∀ j < n, keys j ≠ H.null) (fuel i : ℕ) :
    lpFindFreeSlotLoop H keys n fuel i = none := by
  induction fuel generalizing i with
  | zero => rfl
  | succ fuel ih =>
    rw [lpFindFreeSlotLoop]
    split_ifs with hi hk
    · exact absurd ((H.keyIsNull_iff _).mp hk) (h i hi)
    · exact ih _
    · exact ih _

theorem lpFindFreeSlotLoop_ahead {n i : ℕ} (hi : i < n) (hnull : keys i = H.null) (d : ℕ) :
    ∀ x fuel, x + d = i → (∀ j, x ≤ j → j < i → keys j ≠ H.null) → d < fuel →
      lpFindFreeSlotLoop H keys n fuel x = some i := by
  induction d with
  | zero =>
    intro x fuel hx _ hf
    obtain ⟨fuel, rfl⟩ : ∃ f, fuel = f + 1 := ⟨fuel - 1, by omega⟩
    obtain rfl : x = i := by omega
    rw [lpFindFreeSlotLoop, if_pos hi, if_pos ((H.keyIsNull_iff _).mpr hnull)]
  | succ d ih =>
    intro x fuel hx hbusy hf
    obtain ⟨fuel, rfl⟩ : ∃ f, fuel = f + 1 := ⟨fuel - 1, by omega⟩
    have hne : ¬ H.keyIsNull (keys x) = true := by
      rw [H.keyIsNull_iff]
      exact hbusy x le_rfl (by omega)
    rw [lpFindFreeSlotLoop, if_pos (by omega), if_neg hne]
    exact ih (x + 1) fuel (by omega) (fun j h1 h2 => hbusy j (by omega) h2) (by omega)

theorem lpFindFreeSlotLoop_wrap {n : ℕ} (d fuel : ℕ) :
    ∀ x, x + d = n → (∀ j, x ≤ j → j < n → keys j ≠ H.null) →
      lpFindFreeSlotLoop H keys n (d + 1 + fuel) x = lpFindFreeSlotLoop H keys n fuel 0 := by
  induction d with
  | zero =>
    intro x hx _
    rw [show 0 + 1 + fuel = fuel + 1 by omega, lpFindFreeSlotLoop, if_neg (by omega)]
  | succ d ih =>
    intro x hx hbusy
    have hne : ¬ H.keyIsNull (keys x) = true := by
      rw [H.keyIsNull_iff]
      exact hbusy x le_rfl (by omega)
    rw [show d + 1 + 1 + fuel = (d + 1 + fuel) + 1 by omega, lpFindFreeSlotLoop,
      if_pos (by omega), if_neg hne]
    exact ih (x + 1) (by omega) fun j h1 h2 => hbusy j (by omega) h2

/-- **With an empty slot the search ends, at the first empty slot of the probe path.** -/
theorem lpFindFreeSlot_spec {k : ℕ} (hfree : ∃ j < 2 ^ k, keys j = H.null) :
    ∃ i < 2 ^ k, lpFindFreeSlot H keys key (2 ^ k) = some i ∧ keys i = H.null ∧
      ∀ j < 2 ^ k, OnPath (2 ^ k) (homeOf H (2 ^ k) key) i j → keys j ≠ H.null := by
  classical
  set n := 2 ^ k with hn
  set home := homeOf H n key with hhome
  have hh : home < n := homeOf_lt H k key
  -- the empty slot nearest to the home slot
  have hex : ∃ d, d < n ∧ keys ((home + d) % n) = H.null := by
    obtain ⟨j, hj, hjn⟩ := hfree
    exact ⟨fwd n home j, fwd_lt hh, by rw [add_fwd_mod hh hj]; exact hjn⟩
  obtain ⟨hd, hnull⟩ := Nat.find_spec hex
  have hmin : ∀ m < Nat.find hex, m < n → keys ((home + m) % n) ≠ H.null := fun m hm hmn e =>
    Nat.find_min hex hm ⟨hmn, e⟩
  set d := Nat.find hex with hdef
  set i := (home + d) % n with hi
  have hin : i < n := Nat.mod_lt _ (by omega)
  have hdist : fwd n home i = d := fwd_add_mod hh hd
  have hbusy : ∀ j < n, OnPath n home i j → keys j ≠ H.null := by
    intro j hj hp
    rw [OnPath, hdist] at hp
    have := hmin _ hp (fwd_lt hh)
    rwa [add_fwd_mod hh hj] at this
  refine ⟨i, hin, ?_, hnull, hbusy⟩
  have hval : i = home + d ∨ i + n = home + d := by
    rcases Nat.lt_or_ge (home + d) n with h | h
    · left
      rw [hi, Nat.mod_eq_of_lt h]
    · right
      rw [hi, Nat.mod_eq_sub_mod h, Nat.mod_eq_of_lt (by omega)]
      omega
  have onPath : ∀ j < n, (home ≤ j ∧ j < home + d) ∨ j + n < home + d → OnPath n home i j := by
    intro j hj hc
    rw [OnPath, hdist, fwd_eq hh hj]
    split_ifs <;> omega
  change (if H.keyIsNull (keys home) then some home
    else lpFindFreeSlotLoop H keys n (2 * n + 2) (home + 1)) = some i
  by_cases hd0 : d = 0
  · have : i = home := by omega
    rw [← this, if_pos ((H.keyIsNull_iff _).mpr hnull)]
  have hhb : ¬ H.keyIsNull (keys home) = true := by
    rw [H.keyIsNull_iff]
    exact hbusy home hh (onPath home hh (Or.inl ⟨le_rfl, by omega⟩))
  rw [if_neg hhb]
  rcases hval with hv | hv
  · exact lpFindFreeSlotLoop_ahead hin hnull (d - 1) (home + 1) _ (by omega)
      (fun j h1 h2 => hbusy j (by omega) (onPath j (by omega) (Or.inl ⟨by omega, by omega⟩)))
      (by omega)
  · rw [show 2 * n + 2 = (n - (home + 1)) + 1 + (2 * n + 1 - (n - (home + 1))) by omega,
      lpFindFreeSlotLoop_wrap (n - (home + 1)) _ (home + 1) (by omega)
        (fun j h1 h2 => hbusy j h2 (onPath j h2 (Or.inl ⟨by omega, by omega⟩)))]
    exact lpFindFreeSlotLoop_ahead hin hnull i 0 _ (by omega)
      (fun j _ h2 => hbusy j (by omega) (onPath j (by omega) (Or.inr (by omega)))) (by omega)

/-! ## Looking a key up -/

theorem lpLookupLoop_of_absent {k home : ℕ} (h : ∀ j < 2 ^ k, keys j = key → key = H.null)
    (m step : ℕ) : lpLookupLoop H keys key (2 ^ k) home (2 ^ k - 1) m step = 2 ^ k := by
  induction m generalizing step with
  | zero => rfl
  | succ m ih =>
    have hlt : (home + step) &&& (2 ^ k - 1) < 2 ^ k := by
      rw [and_mask]
      exact Nat.mod_lt _ (by positivity)
    rw [lpLookupLoop]
    split_ifs with h1 h2
    · rfl
    · rw [H.keyCmp_iff] at h2
      rw [H.keyIsNull_iff] at h1
      exact absurd (h2.trans (h _ hlt h2)) h1
    · exact ih _

theorem lpLookup_of_absent {k : ℕ} (h : ∀ j < 2 ^ k, keys j = key → key = H.null) :
    lpLookup H keys key (2 ^ k) = 2 ^ k := lpLookupLoop_of_absent h _ _

/-- **A key of a sound table is found in its slot.** -/
theorem lpLookup_of_present {k s : ℕ}
    (hK : Sound (2 ^ k) (homeOf H (2 ^ k)) (slotKey H keys)) (hs : s < 2 ^ k)
    (hkey : keys s = key) (hnull : key ≠ H.null) : lpLookup H keys key (2 ^ k) = s := by
  have hh := homeOf_lt H k key
  have hsome : slotKey H keys s = some key := (slotKey_eq_some H).mpr ⟨hkey, hnull⟩
  have hd : fwd (2 ^ k) (homeOf H (2 ^ k) key) s < 2 ^ k := fwd_lt hh
  have loop : ∀ m step, step + m = 2 ^ k → step ≤ fwd (2 ^ k) (homeOf H (2 ^ k) key) s →
      lpLookupLoop H keys key (2 ^ k) (homeOf H (2 ^ k) key) (2 ^ k - 1) m step = s := by
    intro m
    induction m with
    | zero => intro step _ _; omega
    | succ m ih =>
      intro step hm hle
      rw [lpLookupLoop, and_mask]
      rcases Nat.lt_or_ge step (fwd (2 ^ k) (homeOf H (2 ^ k) key) s) with hlt | hge
      · obtain ⟨h1, h2⟩ := hK.before hh hs hsome hlt
        have h1' := mt (slotKey_eq_none H).mpr h1
        have h2' : keys ((homeOf H (2 ^ k) key + step) % 2 ^ k) ≠ key := fun e =>
          h2 ((slotKey_eq_some H).mpr ⟨e, hnull⟩)
        rw [if_neg (mt (H.keyIsNull_iff _).mp h1'), if_neg (mt (H.keyCmp_iff _ _).mp h2')]
        exact ih (step + 1) (by omega) (by omega)
      · rw [show step = fwd (2 ^ k) (homeOf H (2 ^ k) key) s by omega, add_fwd_mod hh hs, hkey,
          if_neg (mt (H.keyIsNull_iff _).mp hnull), if_pos ((H.keyCmp_iff _ _).mpr rfl)]
  exact loop _ 0 (Nat.zero_add _) (Nat.zero_le _)

/-! ## Erasing -/

/-- What `lp_erase` does: the slots are permuted so that the erased slot ends up at `hole`, which is
then emptied, and the table is sound. -/
structure Erased (H : LpHost σ κ β) (n : ℕ) (s : σ) (start : ℕ) (s' : σ) (hole : ℕ) : Prop where
  hole_lt : hole < n
  sound : Sound n (homeOf H n) (slotKey H (H.keys s'))
  perm : ∃ π : Equiv.Perm ℕ, (∀ i, π i < n ↔ i < n) ∧ π hole = start ∧
    H.keys s' = Function.update (H.keys s ∘ π) hole H.null ∧ H.vals s' = H.vals s ∘ π

theorem swap_lt_iff {n a b i : ℕ} (ha : a < n) (hb : b < n) : Equiv.swap a b i < n ↔ i < n := by
  by_cases h1 : i = a
  · rw [h1, Equiv.swap_apply_left]
    exact ⟨fun _ => ha, fun _ => hb⟩
  · by_cases h2 : i = b
    · rw [h2, Equiv.swap_apply_right]
      exact ⟨fun _ => hb, fun _ => ha⟩
    · rw [Equiv.swap_apply_of_ne_of_ne h1 h2]

theorem slotKey_setNull {s : σ} {hole : ℕ} :
    slotKey H (H.keys (H.keySetNull s hole)) = Function.update (slotKey H (H.keys s)) hole none := by
  funext i
  by_cases hi : i = hole
  · subst hi
    rw [Function.update_self, slotKey_eq_none, H.keys_setNull, Function.update_self]
  · rw [Function.update_of_ne hi, slotKey, slotKey, H.keys_setNull, Function.update_of_ne hi]

theorem slotKey_swap {s : σ} {hole x : ℕ} (hnull : H.keys s x ≠ H.null) :
    Function.update (slotKey H (H.keys (H.htableSwap s hole x))) x none =
      Function.update (Function.update (Function.update (slotKey H (H.keys s)) hole none) hole
        (some (H.keys s x))) x none := by
  funext i
  by_cases h2 : i = x
  · rw [h2, Function.update_self, Function.update_self]
  · rw [Function.update_of_ne h2, Function.update_of_ne h2]
    by_cases h1 : i = hole
    · rw [h1, Function.update_self, slotKey_eq_some, H.keys_swap, Function.comp_apply,
        Equiv.swap_apply_left]
      exact ⟨rfl, hnull⟩
    · rw [Function.update_of_ne h1, Function.update_of_ne h1, slotKey, slotKey, H.keys_swap,
        Function.comp_apply, Equiv.swap_apply_of_ne_of_ne h1 h2]

/-- One turn of the loop keeps the walk of `Shifting` going, on a permuted table. -/
theorem lpEraseLoop_spec {k c start : ℕ} {s₀ : σ} (hk : k ≤ 64) (hc : c < 2 ^ k)
    (hstart : start < 2 ^ k) (hkey : H.keys s₀ start ≠ H.null) (fuel : ℕ) :
    ∀ (s : σ) (hole next : ℕ) (π : Equiv.Perm ℕ), (∀ i, π i < 2 ^ k ↔ i < 2 ^ k) → π hole = start →
      H.keys s = H.keys s₀ ∘ π → H.vals s = H.vals s₀ ∘ π →
      Shifting (2 ^ k) c (homeOf H (2 ^ k)) start hole next
        (Function.update (slotKey H (H.keys s)) hole none) →
      2 ^ k ≤ fwd (2 ^ k) start next + fuel →
      ∃ s' hole', lpEraseLoop H start (2 ^ k) (2 ^ k - 1) fuel s hole next = some (s', hole') ∧
        Erased H (2 ^ k) s₀ start (H.keySetNull s' hole') hole' := by
  have hh := homeOf_lt H k
  induction fuel with
  | zero =>
    intro s hole next π _ _ _ _ _ hf
    have := fwd_lt (b := next) hstart
    omega
  | succ fuel ih =>
    intro s hole next π hπn hπ hkeys hvals hS hf
    have hxlt : (next + 1) % 2 ^ k < 2 ^ k := Nat.mod_lt _ (by positivity)
    rw [lpEraseLoop, and_mask]
    set x := (next + 1) % 2 ^ k with hx
    by_cases hend : H.keys s x = H.null ∨ x = start
    · -- the `break`
      rw [if_pos (by simpa [H.keyIsNull_iff] using hend)]
      refine ⟨s, hole, rfl, hS.hole_lt, ?_, π, hπn, hπ, ?_, ?_⟩
      · have hsound := hS.stop hh hc hstart (by
          rcases hend with hnull | hclosed
          · refine Or.inr ⟨fun e => ?_, ?_⟩
            · rw [show x = hole from e, hkeys, Function.comp_apply, hπ] at hnull
              exact hkey hnull
            · rw [← hx]
              by_cases hxh : x = hole
              · rw [hxh, Function.update_self]
              · rw [Function.update_of_ne hxh]
                exact (slotKey_eq_none H).mpr hnull
          · exact Or.inl hclosed)
        rwa [slotKey_setNull]
      · rw [H.keys_setNull, hkeys]
      · rw [H.vals_setNull, hvals]
    · push Not at hend
      obtain ⟨hnull, hopen⟩ := hend
      rw [if_neg (by simp [H.keyIsNull_iff, hnull, hopen])]
      have hsucc : fwd (2 ^ k) start x = fwd (2 ^ k) start next + 1 :=
        fwd_succ hstart hS.next_lt hopen
      have hxh : x ≠ hole := fun e => by
        have := hS.ahead
        rw [e] at hsucc
        omega
      have hsome : Function.update (slotKey H (H.keys s)) hole none x = some (H.keys s x) := by
        rw [Function.update_of_ne hxh]
        exact (slotKey_eq_some H).mpr ⟨rfl, hnull⟩
      change ∃ s' hole', (if (subU64 hole (homeOf H (2 ^ k) (H.keys s x)) &&& (2 ^ k - 1)) <
        (subU64 x (homeOf H (2 ^ k) (H.keys s x)) &&& (2 ^ k - 1)) then _ else _) =
          some (s', hole') ∧ _
      rw [subU64_mask hk hS.hole_lt (hh _), subU64_mask hk hxlt (hh _)]
      split_ifs with hp
      · -- `htable_swap(hole, next)`
        have hmove := hS.move hh hc hstart hsome hp
        refine ih (H.htableSwap s hole x) x x ((Equiv.swap hole x).trans π) ?_ ?_ ?_ ?_ ?_ (by omega)
        · intro i
          rw [Equiv.trans_apply, hπn]
          exact swap_lt_iff hS.hole_lt hxlt
        · rw [Equiv.trans_apply, Equiv.swap_apply_right, hπ]
        · rw [H.keys_swap, hkeys]
          rfl
        · rw [H.vals_swap, hvals]
          rfl
        · rw [slotKey_swap hnull]
          exact hmove
      · exact ih s hole x π hπn hπ hkeys hvals (hS.skip hh hc hstart hopen hsome hp) (by omega)

/-- **Erasing a key of a sound table** ends, permutes the other entries and leaves the table
sound. -/
theorem lpErase_spec {k start : ℕ} {s : σ} (hk : k ≤ 64)
    (hK : Sound (2 ^ k) (homeOf H (2 ^ k)) (slotKey H (H.keys s))) (hstart : start < 2 ^ k)
    (hkey : H.keys s start ≠ H.null) :
    ∃ s' hole, lpErase H s start (2 ^ k) = some (s', hole) ∧
      Erased H (2 ^ k) s start s' hole := by
  obtain ⟨c, hc, hcut⟩ := hK.cut
  obtain ⟨s', hole, he, hspec⟩ := lpEraseLoop_spec hk hc hstart hkey (2 ^ k) s start start
    (Equiv.refl ℕ) (fun _ => Iff.rfl) rfl rfl rfl
    (Shifting.init (homeOf_lt H k) hc hstart hK hcut) (by omega)
  exact ⟨_, hole, by rw [lpErase, he]; rfl, hspec⟩

end Slots

end Adnihilum
