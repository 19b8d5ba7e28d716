import Adnihilum.Debouncer.Model
import Adnihilum.Lib.OpenAddressing

/-!
# The table of the rate limiter

Keys are looked up along a probe path of the whole table. Until the table is full no probe path to a
key meets an empty slot; then there is no empty slot at all, and an entry that gives way leaves
every other one in reach.

* `DebSound`: unique keys, no empty slot on a probe path.
* `DebStep`: what a call can do; **`debouncerAllowKey_cases`**, **`debouncerAllowKey_sound`**.
-/

namespace Adnihilum

open OpenAddressing

/-- A table with unique keys and no empty slot on a probe path. -/
structure DebSound (tbl : ℕ → DebEntry) : Prop where
  inj : ∀ i < debCap, ∀ j < debCap, (tbl i).key ≠ 0 → (tbl i).key = (tbl j).key → i = j
  reach : ∀ s < debCap, (tbl s).key ≠ 0 → ∀ j < debCap,
    OnPath debCap (debHome (tbl s).key) s j → (tbl j).key ≠ 0

/-- The table has an entry for the key. -/
def DebHolds (tbl : ℕ → DebEntry) (key : UInt64) : Prop := ∃ s < debCap, (tbl s).key = key

theorem and_debMask (x : ℕ) : x &&& debMask = x % debCap :=
  Nat.and_two_pow_sub_one_eq_mod x 10

theorem debHome_lt (key : UInt64) : debHome key < debCap := by
  rw [debHome, and_debMask]
  exact Nat.mod_lt _ (by decide)

section Probing

variable {tbl : ℕ → DebEntry} {key : UInt64}

/-- What the loop stops at. -/
def ProbeSpec (tbl : ℕ → DebEntry) (key : UInt64) : Probe → Prop
  | .found s => s < debCap ∧ (tbl s).key = key
  | .free s => s < debCap ∧ (tbl s).key = 0 ∧
    ∀ j < debCap, OnPath debCap (debHome key) s j → (tbl j).key ≠ 0 ∧ (tbl j).key ≠ key
  | .full => ∀ j < debCap, (tbl j).key ≠ 0 ∧ (tbl j).key ≠ key

theorem debProbe_spec : ∀ (m p : ℕ), p + m = debCap →
    (∀ j < debCap, fwd debCap (debHome key) j < p → (tbl j).key ≠ 0 ∧ (tbl j).key ≠ key) →
      ProbeSpec tbl key (debProbe tbl key (debHome key) m p)
  | 0, p, hp, hpassed => fun j hj => hpassed j hj (by
      have := fwd_lt (b := j) (debHome_lt key)
      omega)
  | m + 1, p, hp, hpassed => by
    -- `m + 1` turns are left, and the `p` slots passed so far hold other keys
    have hp' : p < debCap := by omega
    have hs : (debHome key + p) % debCap < debCap := Nat.mod_lt _ (by decide)
    have hf : fwd debCap (debHome key) ((debHome key + p) % debCap) = p :=
      fwd_add_mod (debHome_lt key) hp'
    rw [debProbe]
    simp only [and_debMask]
    split_ifs with hkey hnull
    · exact ⟨hs, hkey⟩
    · refine ⟨hs, hnull, fun j hj hon => hpassed j hj ?_⟩
      rw [OnPath, hf] at hon
      exact hon
    · refine debProbe_spec m (p + 1) (by omega) fun j hj hlt => ?_
      rcases Nat.lt_succ_iff_lt_or_eq.mp hlt with hlt | heq
      · exact hpassed j hj hlt
      · rw [fwd_inj (debHome_lt key) hj hs (heq.trans hf.symm)]
        exact ⟨hnull, hkey⟩

end Probing

/-- What a call for a non-zero key can do: reject it, allow a known key, fill an empty slot or, in a
full table, take the place of another entry. -/
inductive DebStep (d : Debouncer) (key : UInt64) (now : UInt32) : Debouncer × Bool → Prop
  | reject (s : ℕ) (hs : s < debCap) (hkey : (d.tbl s).key = key)
      (hwindow : 0 < ((d.tbl s).untilMs - now).toInt32) : DebStep d key now (d, false)
  | refresh (s : ℕ) (hs : s < debCap) (hkey : (d.tbl s).key = key)
      (hwindow : ¬ 0 < ((d.tbl s).untilMs - now).toInt32) :
      DebStep d key now
        ({ d with tbl := Function.update d.tbl s { d.tbl s with untilMs := now + debWindowMs } }, true)
  | insert (s : ℕ) (hs : s < debCap) (hnull : (d.tbl s).key = 0)
      (hpath : ∀ j < debCap, OnPath debCap (debHome key) s j → (d.tbl j).key ≠ 0)
      (hnew : ¬ DebHolds d.tbl key) :
      DebStep d key now
        ({ d with tbl := Function.update d.tbl s ⟨key, now + debWindowMs⟩ }, true)
  | evict (s : ℕ) (hs : s < debCap) (hfull : ∀ j < debCap, (d.tbl j).key ≠ 0)
      (hnew : ¬ DebHolds d.tbl key) :
      DebStep d key now
        (⟨Function.update d.tbl s ⟨key, now + debWindowMs⟩, d.sweep + 1⟩, true)

section Step

variable {d : Debouncer} {key : UInt64} {now : UInt32}

theorem not_holds_of_free (h : DebSound d.tbl) (hkey : key ≠ 0) {s : ℕ} (hs : s < debCap)
    (hnull : (d.tbl s).key = 0)
    (hpath : ∀ j < debCap, OnPath debCap (debHome key) s j →
      (d.tbl j).key ≠ 0 ∧ (d.tbl j).key ≠ key) : ¬ DebHolds d.tbl key := by
  rintro ⟨t, ht, hkt⟩
  have hne : (d.tbl t).key ≠ 0 := hkt ▸ hkey
  rcases lt_trichotomy (fwd debCap (debHome key) s) (fwd debCap (debHome key) t) with hlt | heq | hlt
  · exact h.reach t ht hne s hs (hkt ▸ hlt) hnull
  · rw [fwd_inj (debHome_lt key) hs ht heq] at hnull
    exact hne hnull
  · exact (hpath t ht hlt).2 hkt

theorem debouncerAllowKey_cases (h : DebSound d.tbl) (hkey : key ≠ 0) (now : UInt32) :
    DebStep d key now (debouncerAllowKey d key now) := by
  have hprobe : ProbeSpec d.tbl key (debProbe d.tbl key (debHome key) debCap 0) :=
    debProbe_spec debCap 0 (Nat.zero_add _) fun _ _ hlt => absurd hlt (Nat.not_lt_zero _)
  rw [debouncerAllowKey, if_neg hkey]
  cases hp : debProbe d.tbl key (debHome key) debCap 0 with
  | found s =>
    rw [hp] at hprobe
    simp only
    split_ifs with hwindow
    · exact .reject s hprobe.1 hprobe.2 hwindow
    · exact .refresh s hprobe.1 hprobe.2 hwindow
  | free s =>
    rw [hp] at hprobe
    obtain ⟨hs, hnull, hpath⟩ := hprobe
    exact .insert s hs hnull (fun j hj hon => (hpath j hj hon).1)
      (not_holds_of_free h hkey hs hnull hpath)
  | full =>
    rw [hp] at hprobe
    simp only [and_debMask]
    refine .evict _ (Nat.mod_lt _ (by decide)) (fun j hj => (hprobe j hj).1) ?_
    rintro ⟨t, ht, hkt⟩
    exact (hprobe t ht).2 hkt

theorem DebSound.update (h : DebSound d.tbl) {s : ℕ} {until' : UInt32}
    (hnew : ¬ DebHolds d.tbl key)
    (hpath : ∀ j < debCap, OnPath debCap (debHome key) s j → (d.tbl j).key ≠ 0) (hkey : key ≠ 0) :
    DebSound (Function.update d.tbl s ⟨key, until'⟩) where
  inj i hi j hj hne heq := by
    by_cases his : i = s <;> by_cases hjs : j = s
    · rw [his, hjs]
    · subst his
      rw [Function.update_self, Function.update_of_ne hjs] at heq
      exact absurd ⟨j, hj, heq.symm⟩ hnew
    · subst hjs
      rw [Function.update_self, Function.update_of_ne his] at heq
      exact absurd ⟨i, hi, heq⟩ hnew
    · rw [Function.update_of_ne his] at hne
      rw [Function.update_of_ne his, Function.update_of_ne hjs] at heq
      exact h.inj i hi j hj hne heq
  reach t ht hne j hj hon := by
    by_cases hjs : j = s
    · rw [hjs, Function.update_self]
      exact hkey
    · rw [Function.update_of_ne hjs]
      by_cases hts : t = s
      · rw [hts, Function.update_self] at hon
        exact hpath j hj hon
      · rw [Function.update_of_ne hts] at hne hon
        exact h.reach t ht hne j hj hon

theorem DebSound.refresh (h : DebSound d.tbl) (s : ℕ) (until' : UInt32) :
    DebSound (Function.update d.tbl s { d.tbl s with untilMs := until' }) := by
  have hkeys : ∀ j, (Function.update d.tbl s { d.tbl s with untilMs := until' } j).key =
      (d.tbl j).key := by
    intro j
    by_cases hj : j = s
    · rw [hj, Function.update_self]
    · rw [Function.update_of_ne hj]
  constructor
  · simp only [hkeys]
    exact h.inj
  · simp only [hkeys]
    exact h.reach

/-- **A call keeps the table sound.** -/
theorem debouncerAllowKey_sound (h : DebSound d.tbl) (key : UInt64) (now : UInt32) :
    DebSound (debouncerAllowKey d key now).1.tbl := by
  by_cases hkey : key = 0
  · rw [debouncerAllowKey, if_pos hkey]
    exact h
  · have hstep := debouncerAllowKey_cases h hkey now
    generalize debouncerAllowKey d key now = out at hstep ⊢
    cases hstep with
    | reject => exact h
    | refresh s => exact h.refresh s _
    | insert s hs hnull hpath hnew => exact h.update hnew hpath hkey
    | evict s hs hfull hnew => exact h.update hnew (fun j hj _ => hfull j hj) hkey

theorem debInit_sound : DebSound debInit.tbl where
  inj _ _ _ _ hne _ := absurd rfl hne
  reach _ _ hne _ _ _ := absurd rfl hne

end Step

end Adnihilum
