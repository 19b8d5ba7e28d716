import Adnihilum.Debouncer.Window

/-!
# The rate limiter in a flood

With more keys than slots the limiter forgets keys: a call that finds the table full takes the place
of another key, in the order of the slots. A key that is forgotten is allowed again before its window
is over. But the sweep has to come round to its slot first, and it takes a call of a new key for each
slot on the way.

* `Evicts`: a call that finds the table full without its key; `EvictsKey`: the key that it evicts.
* `allowedSince_length_le`: a key is allowed again only after its entry was evicted.
* `Flooded`: how many keys were evicted for a key to be allowed so often.
* **`early_allowed_in_flood`**; in `demoFlood` it is an equality.
-/

namespace Adnihilum

open OpenAddressing

/-- Every slot has a key. -/
def DebFull (tbl : ℕ → DebEntry) : Prop := ∀ j < debCap, (tbl j).key ≠ 0

instance (tbl : ℕ → DebEntry) : Decidable (DebFull tbl) :=
  inferInstanceAs (Decidable (∀ j < debCap, (tbl j).key ≠ 0))

instance (tbl : ℕ → DebEntry) (key : UInt64) : Decidable (DebHolds tbl key) :=
  inferInstanceAs (Decidable (∃ s < debCap, (tbl s).key = key))

/-- A call for the key takes the place of another one. -/
def Evicts (d : Debouncer) (key : UInt64) : Prop :=
  key ≠ 0 ∧ DebFull d.tbl ∧ ¬ DebHolds d.tbl key

instance (d : Debouncer) (key : UInt64) : Decidable (Evicts d key) :=
  inferInstanceAs (Decidable (_ ∧ _))

/-- How many of the calls evict a key. -/
def evictions (d : Debouncer) : List DebCall → ℕ
  | [] => 0
  | c :: cs =>
    (if Evicts d c.key then 1 else 0) +
      evictions (debouncerAllowKey d c.key (.ofNat c.time)).1 cs

/-- The slot that the next eviction takes. -/
def sweepSlot (d : Debouncer) : ℕ := d.sweep.toNat % debCap

/-- A call for `key'` takes the place of `key`. -/
def EvictsKey (d : Debouncer) (key' key : UInt64) : Prop :=
  Evicts d key' ∧ (d.tbl (sweepSlot d)).key = key

instance (d : Debouncer) (key' key : UInt64) : Decidable (EvictsKey d key' key) :=
  inferInstanceAs (Decidable (_ ∧ _))

/-- How many of the calls evict the key. -/
def evictionsOf (key : UInt64) (d : Debouncer) : List DebCall → ℕ
  | [] => 0
  | c :: cs =>
    (if EvictsKey d c.key key then 1 else 0) +
      evictionsOf key (debouncerAllowKey d c.key (.ofNat c.time)).1 cs

/-- The times at which a key is allowed in the second part of a run. -/
def allowedSince (key : UInt64) (pre seg : List DebCall) : List ℕ :=
  (allowedTimes key (pre ++ seg)).drop (allowedTimes key pre).length

/-! ## One call -/

section Step

variable {d : Debouncer} {key : UInt64} {now : UInt32}

theorem sweepSlot_lt (d : Debouncer) : sweepSlot d < debCap := Nat.mod_lt _ (by decide)

theorem debouncerAllowKey_evicts (h : Evicts d key) (now : UInt32) : debouncerAllowKey d key now =
    (⟨Function.update d.tbl (sweepSlot d) ⟨key, now + debWindowMs⟩, d.sweep + 1⟩, true) := by
  obtain ⟨hkey, hfull, hnew⟩ := h
  have hprobe : ProbeSpec d.tbl key (debProbe d.tbl key (debHome key) debCap 0) :=
    debProbe_spec debCap 0 (Nat.zero_add _) fun _ _ hlt => absurd hlt (Nat.not_lt_zero _)
  rw [debouncerAllowKey, if_neg hkey]
  cases hp : debProbe d.tbl key (debHome key) debCap 0 with
  | found s =>
    rw [hp] at hprobe
    exact absurd ⟨s, hprobe⟩ hnew
  | free s =>
    rw [hp] at hprobe
    exact absurd hprobe.2.1 (hfull s hprobe.1)
  | full =>
    simp only [and_debMask]
    rfl

/-- A call that evicts nothing leaves every key in its slot. -/
theorem debouncerAllowKey_keeps (hsound : DebSound d.tbl) (h : ¬ Evicts d key) (now : UInt32) :
    (debouncerAllowKey d key now).1.sweep = d.sweep ∧ ∀ s, (d.tbl s).key ≠ 0 →
      ((debouncerAllowKey d key now).1.tbl s).key = (d.tbl s).key := by
  by_cases hkey : key = 0
  · rw [debouncerAllowKey, if_pos hkey]
    exact ⟨rfl, fun _ _ => rfl⟩
  have hstep := debouncerAllowKey_cases hsound hkey now
  generalize debouncerAllowKey d key now = out at hstep
  cases hstep with
  | reject => exact ⟨rfl, fun _ _ => rfl⟩
  | refresh t ht hk hwindow =>
    refine ⟨rfl, fun s _ => ?_⟩
    simp only
    by_cases hst : s = t
    · rw [hst, Function.update_self]
    · rw [Function.update_of_ne hst]
  | insert t ht hnull hpath hnew =>
    refine ⟨rfl, fun s hne => ?_⟩
    have hst : s ≠ t := by
      rintro rfl
      exact hne hnull
    simp only
    rw [Function.update_of_ne hst]
  | evict t ht hfull hnew => exact absurd ⟨hkey, hfull, hnew⟩ h

theorem DebFull.step (hfull : DebFull d.tbl) (hsound : DebSound d.tbl) (now : UInt32) :
    DebFull (debouncerAllowKey d key now).1.tbl := by
  intro j hj
  by_cases h : Evicts d key
  · rw [debouncerAllowKey_evicts h]
    simp only
    by_cases hs : j = sweepSlot d
    · rw [hs, Function.update_self]
      exact h.1
    · rw [Function.update_of_ne hs]
      exact hfull j hj
  · rw [(debouncerAllowKey_keeps hsound h now).2 j (hfull j hj)]
    exact hfull j hj

theorem sweepSlot_succ (tbl : ℕ → DebEntry) :
    sweepSlot ⟨tbl, d.sweep + 1⟩ = (sweepSlot d + 1) % debCap := by
  have hcap : debCap = 1024 := rfl
  simp only [sweepSlot, hcap, UInt32.toNat_add]
  rw [show (1 : UInt32).toNat = 1 from rfl]
  omega

theorem fwd_succ_left {n a s : ℕ} (ha : a < n) (hs : s < n) (hne : s ≠ a) :
    fwd n ((a + 1) % n) s + 1 = fwd n a s := by
  have hlt : (a + 1) % n < n := Nat.mod_lt _ (by omega)
  have hmod : (a + 1) % n = if a + 1 = n then 0 else a + 1 := by
    split_ifs with h
    · rw [h, Nat.mod_self]
    · exact Nat.mod_eq_of_lt (by omega)
  rw [fwd_eq hlt hs, fwd_eq ha hs, hmod]
  split_ifs <;> omega

theorem fwd_succ_self {n a : ℕ} (ha : a < n) : fwd n ((a + 1) % n) a + 1 = n := by
  have hlt : (a + 1) % n < n := Nat.mod_lt _ (by omega)
  have hmod : (a + 1) % n = if a + 1 = n then 0 else a + 1 := by
    split_ifs with h
    · rw [h, Nat.mod_self]
    · exact Nat.mod_eq_of_lt (by omega)
  rw [fwd_eq hlt ha, hmod]
  split_ifs <;> omega

end Step

/-! ## Part of a run -/

section Runs

variable {pre seg cs : List DebCall} {c : DebCall} {key : UInt64}

theorem evictions_append (d : Debouncer) (cs : List DebCall) (c : DebCall) :
    evictions d (cs ++ [c]) = evictions d cs +
      if Evicts (cs.foldl (fun d c => (debouncerAllowKey d c.key (.ofNat c.time)).1) d) c.key
      then 1 else 0 := by
  induction cs generalizing d with
  | nil => rw [List.nil_append, evictions, evictions, evictions, Nat.zero_add, List.foldl_nil, add_zero]
  | cons c' cs ih => rw [List.cons_append, evictions, evictions, ih, List.foldl_cons, Nat.add_assoc]

theorem evictions_since (pre seg : List DebCall) (c : DebCall) :
    evictions (debAfter pre) (seg ++ [c]) = evictions (debAfter pre) seg +
      if Evicts (debAfter (pre ++ seg)) c.key then 1 else 0 := by
  rw [evictions_append, debAfter, debAfter, List.foldl_append]

theorem evictionsOf_append (key : UInt64) (d : Debouncer) (cs : List DebCall) (c : DebCall) :
    evictionsOf key d (cs ++ [c]) = evictionsOf key d cs +
      if EvictsKey (cs.foldl (fun d c => (debouncerAllowKey d c.key (.ofNat c.time)).1) d) c.key key
      then 1 else 0 := by
  induction cs generalizing d with
  | nil =>
    rw [List.nil_append, evictionsOf, evictionsOf, evictionsOf, Nat.zero_add, List.foldl_nil, add_zero]
  | cons c' cs ih =>
    rw [List.cons_append, evictionsOf, evictionsOf, ih, List.foldl_cons, Nat.add_assoc]

theorem evictionsOf_since (key : UInt64) (pre seg : List DebCall) (c : DebCall) :
    evictionsOf key (debAfter pre) (seg ++ [c]) = evictionsOf key (debAfter pre) seg +
      if EvictsKey (debAfter (pre ++ seg)) c.key key then 1 else 0 := by
  rw [evictionsOf_append, debAfter, debAfter, List.foldl_append]

theorem allowedTimes_length_le (key : UInt64) (pre seg : List DebCall) :
    (allowedTimes key pre).length ≤ (allowedTimes key (pre ++ seg)).length := by
  induction seg using List.reverseRecOn with
  | nil => rw [List.append_nil]
  | append_singleton seg c ih =>
    rw [← List.append_assoc, allowedTimes_append]
    split_ifs
    · rw [List.length_append]
      exact ih.trans (Nat.le_add_right _ _)
    · exact ih

theorem allowedSince_append (key : UInt64) (pre seg : List DebCall) (c : DebCall) :
    allowedSince key pre (seg ++ [c]) =
      if c.key = key ∧ debAllowed (pre ++ seg) c = true then allowedSince key pre seg ++ [c.time]
      else allowedSince key pre seg := by
  rw [allowedSince, ← List.append_assoc, allowedTimes_append]
  split_ifs
  · rw [List.drop_append_of_le_length (allowedTimes_length_le key pre seg)]
    rfl
  · rfl

theorem mem_allowedSince {t : ℕ} (h : t ∈ allowedSince key pre seg) : ∃ c ∈ seg, c.time = t := by
  induction seg using List.reverseRecOn with
  | nil =>
    rw [allowedSince, List.append_nil, List.drop_length] at h
    cases h
  | append_singleton seg c ih =>
    rw [allowedSince_append] at h
    split_ifs at h
    · rcases List.mem_append.mp h with h | h
      · obtain ⟨c', hc', ht⟩ := ih h
        exact ⟨c', List.mem_append_left _ hc', ht⟩
      · exact ⟨c, by simp, (List.mem_singleton.mp h).symm⟩
    · obtain ⟨c', hc', ht⟩ := ih h
      exact ⟨c', List.mem_append_left _ hc', ht⟩

/-- The last time at which the key was allowed is in the second part. -/
theorem getLast_allowedSince {t : ℕ} (hne : allowedSince key pre seg ≠ [])
    (ht : (allowedTimes key (pre ++ seg)).getLast? = some t) : ∃ c ∈ seg, c.time = t := by
  suffices hmem : t ∈ allowedSince key pre seg from mem_allowedSince hmem
  have hdrop : allowedSince key pre seg ≠ [] := hne
  rw [allowedSince] at hdrop ⊢
  have hlast := List.getLast?_drop (l := allowedTimes key (pre ++ seg))
    (i := (allowedTimes key pre).length)
  rw [if_neg fun hle => hdrop (List.drop_eq_nil_of_le hle), ht] at hlast
  exact List.mem_of_getLast? hlast

/-- A key that has its entry is not allowed twice within its window. -/
theorem rejected_within (hord : TimesOrdered (pre ++ seg ++ [c])) (hkey : c.key ≠ 0)
    (hshort : ∀ c' ∈ seg, c.time < c'.time + debWindowMs.toNat)
    (hne : allowedSince c.key pre seg ≠ []) (hholds : DebHolds (debAfter (pre ++ seg)).tbl c.key) :
    debAllowed (pre ++ seg) c = false := by
  obtain ⟨t, ht, hle, hanswer⟩ := debAllowed_of_holds hord hkey hholds
  obtain ⟨c', hc', rfl⟩ := getLast_allowedSince hne ht
  have hwithin := hshort c' hc'
  have hwindow : debWindowMs.toNat = 150 := rfl
  rw [hanswer]
  omega

/-- After `a` times at which the key was allowed and `e` evictions: each time but the first cost a
round of the sweep and the return of the key. The round that is under way counts as far as it came. -/
structure Flooded (d : Debouncer) (key : UInt64) (a e : ℕ) : Prop where
  gone : ¬ DebHolds d.tbl key → DebFull d.tbl ∧ (debCap + 1) * (a - 1) + 1 ≤ e
  there : ∀ s < debCap, (d.tbl s).key = key → (debCap + 1) * (a - 1) ≤ e + fwd debCap (sweepSlot d) s

theorem Flooded.evicts {d : Debouncer} {a e : ℕ} (h : Flooded d key a e) (hsound : DebSound d.tbl)
    (ha : a ≠ 0) (hevicts : Evicts d c.key) (now : UInt32) :
    Flooded (debouncerAllowKey d c.key now).1 key (a + if c.key = key then 1 else 0) (e + 1) := by
  have hfull : DebFull (debouncerAllowKey d c.key now).1.tbl := hevicts.2.1.step hsound now
  rw [debouncerAllowKey_evicts hevicts] at hfull ⊢
  have hslot := sweepSlot_lt d
  constructor
  · intro hgone
    have hne : c.key ≠ key := fun hkey =>
      hgone ⟨sweepSlot d, hslot, by rw [← hkey]; simp only [Function.update_self]⟩
    refine ⟨hfull, ?_⟩
    rw [if_neg hne, Nat.add_zero a]
    by_cases hholds : DebHolds d.tbl key
    · -- its slot is the one that was taken
      obtain ⟨s, hs, hk⟩ := hholds
      have hslots : s = sweepSlot d := by
        by_contra hne
        exact hgone ⟨s, hs, by simp only [Function.update_of_ne hne, hk]⟩
      have := h.there s hs hk
      rw [hslots, fwd_self hslot] at this
      omega
    · have := (h.gone hholds).2
      omega
  · intro s hs hk
    rw [sweepSlot_succ]
    by_cases hslots : s = sweepSlot d
    · subst hslots
      simp only [Function.update_self] at hk
      rw [if_pos hk]
      have hgone := (h.gone (hk ▸ hevicts.2.2)).2
      have hround := fwd_succ_self hslot
      obtain ⟨a, rfl⟩ := Nat.exists_eq_succ_of_ne_zero ha
      simp only [Nat.succ_eq_add_one, Nat.add_sub_cancel] at hgone ⊢
      rw [Nat.mul_add, Nat.mul_one]
      omega
    · simp only [Function.update_of_ne hslots] at hk
      rw [if_neg fun hkey => hevicts.2.2 ⟨s, hs, hk.trans hkey.symm⟩, Nat.add_zero a]
      have := h.there s hs hk
      have hnext := fwd_succ_left hslot hs hslots
      omega

theorem Flooded.keeps {d : Debouncer} {a e : ℕ} (h : Flooded d key a e) (hsound : DebSound d.tbl)
    (hkey : key ≠ 0) (hevicts : ¬ Evicts d c.key) (now : UInt32) :
    Flooded (debouncerAllowKey d c.key now).1 key a e := by
  obtain ⟨hsweep, hkeys⟩ := debouncerAllowKey_keeps hsound hevicts now
  have hsound' := debouncerAllowKey_sound hsound c.key now
  constructor
  · intro hgone
    have hgone' : ¬ DebHolds d.tbl key := by
      rintro ⟨s, hs, hk⟩
      exact hgone ⟨s, hs, (hkeys s (hk ▸ hkey)).trans hk⟩
    exact ⟨(h.gone hgone').1.step hsound now, (h.gone hgone').2⟩
  · intro s hs hk
    rw [sweepSlot, hsweep]
    by_cases hholds : DebHolds d.tbl key
    · obtain ⟨t, ht, hkt⟩ := hholds
      have hkt' := (hkeys t (hkt ▸ hkey)).trans hkt
      obtain rfl := hsound'.inj s hs t ht (hk ▸ hkey) (hk.trans hkt'.symm)
      exact h.there s hs hkt
    · have hnull := (h.gone hholds).1 s hs
      exact absurd ⟨s, hs, (hkeys s hnull).symm.trans hk⟩ hholds

theorem debHolds_of_allowed {d : Debouncer} (hsound : DebSound d.tbl) (hkey : key ≠ 0) {now : UInt32}
    (hallowed : (debouncerAllowKey d key now).2 = true) :
    DebHolds (debouncerAllowKey d key now).1.tbl key := by
  have hstep := debouncerAllowKey_cases hsound hkey now
  generalize debouncerAllowKey d key now = out at hallowed hstep
  cases hstep with
  | reject => cases hallowed
  | refresh s hs hk => exact ⟨s, hs, by simp only [Function.update_self, hk]⟩
  | insert s hs => exact ⟨s, hs, by simp only [Function.update_self]⟩
  | evict s hs => exact ⟨s, hs, by simp only [Function.update_self]⟩

theorem flooded (hord : TimesOrdered (pre ++ seg)) (hkey : key ≠ 0)
    (hshort : ∀ c ∈ seg, ∀ c' ∈ seg, c'.time < c.time + debWindowMs.toNat)
    (hne : allowedSince key pre seg ≠ []) :
    Flooded (debAfter (pre ++ seg)) key (allowedSince key pre seg).length
      (evictions (debAfter pre) seg) := by
  induction seg using List.reverseRecOn with
  | nil =>
    rw [allowedSince, List.append_nil, List.drop_length] at hne
    exact absurd rfl hne
  | append_singleton seg c ih =>
    rw [← List.append_assoc] at hord ⊢
    have hsound := debAfter_sound (pre ++ seg)
    have hafter := debAfter_append (pre ++ seg) c
    rw [allowedSince_append] at hne ⊢
    rw [evictions_since, hafter]
    by_cases hfirst : allowedSince key pre seg = []
    · -- the first time
      rw [hfirst] at hne ⊢
      by_cases hc : c.key = key ∧ debAllowed (pre ++ seg) c = true
      · have hholds := debHolds_of_allowed hsound (hc.1 ▸ hkey) hc.2
        rw [hc.1] at hholds ⊢
        rw [if_pos ⟨rfl, hc.2⟩]
        exact ⟨fun hgone => absurd hholds hgone, fun s _ _ => by simp⟩
      · rw [if_neg hc] at hne
        exact absurd rfl hne
    · have hflooded := ih hord.left (fun c hc c' hc' => hshort c (List.mem_append_left _ hc) c'
        (List.mem_append_left _ hc')) hfirst
      by_cases hevicts : Evicts (debAfter (pre ++ seg)) c.key
      · have hallowed : debAllowed (pre ++ seg) c = true := debAllowed_of_not_holds hevicts.2.2
        have hstep := hflooded.evicts hsound (List.length_pos_of_ne_nil hfirst).ne' hevicts
          (.ofNat c.time)
        rw [if_pos hevicts]
        by_cases hc : c.key = key
        · rw [if_pos ⟨hc, hallowed⟩, List.length_append]
          rwa [if_pos hc] at hstep
        · rw [if_neg fun h => hc h.1]
          rwa [if_neg hc] at hstep
      · have hstep := hflooded.keeps hsound hkey hevicts (.ofNat c.time)
        rw [if_neg hevicts, Nat.add_zero, if_neg]
        · exact hstep
        · -- the key is in the table, and its window is not over
          rintro ⟨rfl, hallowed⟩
          have hholds : DebHolds (debAfter (pre ++ seg)).tbl c.key := by
            by_contra hgone
            exact hevicts ⟨hkey, (hflooded.gone hgone).1, hgone⟩
          have hrejected := rejected_within hord hkey
            (fun c' hc' => hshort c' (List.mem_append_left _ hc') c (by simp)) hfirst hholds
          rw [hallowed] at hrejected
          cases hrejected

theorem DebHolds.step {d : Debouncer} (h : DebHolds d.tbl key) (hsound : DebSound d.tbl) (hkey : key ≠ 0)
    {key' : UInt64} (hevicts : ¬ EvictsKey d key' key) (now : UInt32) :
    DebHolds (debouncerAllowKey d key' now).1.tbl key := by
  by_cases hany : Evicts d key'
  · rw [debouncerAllowKey_evicts hany]
    exact h.update (Or.inl fun hslot => hevicts ⟨hany, hslot⟩)
  · obtain ⟨s, hs, hk⟩ := h
    exact ⟨s, hs, ((debouncerAllowKey_keeps hsound hany now).2 s (hk ▸ hkey)).trans hk⟩

/-- **A key is allowed again only after its entry was evicted**: by induction on the calls of the
second part. While the key has an entry, one more time is accounted for. -/
theorem allowedSince_length_le (hord : TimesOrdered (pre ++ seg)) (hkey : key ≠ 0)
    (hshort : ∀ c ∈ seg, ∀ c' ∈ seg, c'.time < c.time + debWindowMs.toNat) :
    (allowedSince key pre seg).length ≤ evictionsOf key (debAfter pre) seg +
      if DebHolds (debAfter (pre ++ seg)).tbl key then 1 else 0 := by
  induction seg using List.reverseRecOn with
  | nil =>
    rw [allowedSince, List.append_nil, List.drop_length]
    exact Nat.zero_le _
  | append_singleton seg c ih =>
    rw [← List.append_assoc] at hord ⊢
    have hsound := debAfter_sound (pre ++ seg)
    have hle := ih hord.left fun c hc c' hc' => hshort c (List.mem_append_left _ hc) c'
      (List.mem_append_left _ hc')
    rw [allowedSince_append, evictionsOf_since, debAfter_append]
    by_cases hc : c.key = key ∧ debAllowed (pre ++ seg) c = true
    · obtain ⟨rfl, hallowed⟩ := hc
      rw [if_pos ⟨rfl, hallowed⟩, if_pos (debHolds_of_allowed hsound hkey hallowed), List.length_append]
      by_cases hholds : DebHolds (debAfter (pre ++ seg)).tbl c.key
      · -- its window is over, or this is the first time
        have hfirst : allowedSince c.key pre seg = [] := by
          by_contra hne
          rw [rejected_within hord hkey (fun c' hc' => hshort c' (List.mem_append_left _ hc') c
            (by simp)) hne hholds] at hallowed
          cases hallowed
        rw [hfirst]
        simp
      · rw [if_neg hholds] at hle
        simp only [List.length_singleton]
        omega
    · rw [if_neg hc]
      by_cases hevicts : EvictsKey (debAfter (pre ++ seg)) c.key key
      · rw [if_pos hevicts]
        split_ifs at hle ⊢ <;> omega
      · rw [if_neg hevicts]
        by_cases hholds : DebHolds (debAfter (pre ++ seg)).tbl key
        · rw [if_pos hholds] at hle
          rwa [if_pos (hholds.step hsound hkey hevicts _)]
        · rw [if_neg hholds] at hle
          omega

/-- **A key is allowed early only in a flood.** Within one window a key is allowed at most once more
than its entry is evicted; and for each time but the first, all the other slots and its own were given
to new keys in between. -/
theorem early_allowed_in_flood (hord : TimesOrdered (pre ++ seg)) (hkey : key ≠ 0)
    (hshort : ∀ c ∈ seg, ∀ c' ∈ seg, c'.time < c.time + debWindowMs.toNat) :
    (allowedSince key pre seg).length ≤ evictionsOf key (debAfter pre) seg + 1 ∧
    (debCap + 1) * ((allowedSince key pre seg).length - 1) ≤
      evictions (debAfter pre) seg + (debCap - 1) := by
  refine ⟨(allowedSince_length_le hord hkey hshort).trans ?_, ?_⟩
  · split_ifs <;> omega
  by_cases hne : allowedSince key pre seg = []
  · rw [hne]
    simp
  have hflooded := flooded hord hkey hshort hne
  have hcap : debCap = 1024 := rfl
  by_cases hholds : DebHolds (debAfter (pre ++ seg)).tbl key
  · obtain ⟨s, hs, hk⟩ := hholds
    have := hflooded.there s hs hk
    have := fwd_lt (b := s) (sweepSlot_lt (debAfter (pre ++ seg)))
    omega
  · have := (hflooded.gone hholds).2
    omega

end Runs

/-! ## A flood -/

theorem debouncerAllowKey_home {d : Debouncer} {key : UInt64} (hkey : key ≠ 0)
    (hfree : (d.tbl (debHome key)).key = 0) (now : UInt32) : debouncerAllowKey d key now =
      ({ d with tbl := Function.update d.tbl (debHome key) ⟨key, now + debWindowMs⟩ }, true) := by
  have hprobe : debProbe d.tbl key (debHome key) debCap 0 = .free (debHome key) := by
    have hslot : (debHome key + 0) &&& debMask = debHome key := by
      rw [and_debMask, Nat.add_zero, Nat.mod_eq_of_lt (debHome_lt key)]
    rw [show debCap = 1023 + 1 from rfl, debProbe]
    simp only [hslot, hfree, if_neg hkey.symm, if_true]
  rw [debouncerAllowKey, if_neg hkey, hprobe]

theorem debHome_ofNat {k : ℕ} (hk : k < 2 ^ 32) : debHome (.ofNat k) = k % debCap := by
  have hnat : (UInt64.ofNat k).toNat = k := by
    rw [UInt64.toNat_ofNat']
    omega
  have hhigh : UInt64.ofNat k >>> 32 = 0 := by
    apply UInt64.toNat_inj.mp
    rw [UInt64.toNat_shiftRight, hnat]
    exact Nat.shiftRight_eq_zero k 32 hk
  rw [debHome, and_debMask, hhigh, UInt64.xor_zero, UInt64.toNat_toUInt32, hnat,
    Nat.mod_eq_of_lt hk]

/-- The keys from 1 to `n`, one after the other. -/
def fillCalls (n : ℕ) : List DebCall := (List.range n).map fun k => ⟨.ofNat (k + 1), 0⟩

/-- A table with the keys from 1 to `n` in their home slots. -/
def filledTbl (n s : ℕ) : DebEntry := if 1 ≤ s ∧ s ≤ n then ⟨.ofNat s, debWindowMs⟩ else ⟨0, 0⟩

theorem ofNat_ne {k m : ℕ} (hk : k < 2 ^ 64) (hm : m < 2 ^ 64) (hne : k ≠ m) :
    UInt64.ofNat k ≠ .ofNat m := fun h => hne (by
  have := congrArg UInt64.toNat h
  rw [UInt64.toNat_ofNat', UInt64.toNat_ofNat'] at this
  omega)

theorem debAfter_fillCalls {n : ℕ} (hn : n < debCap) : debAfter (fillCalls n) = ⟨filledTbl n, 0⟩ := by
  have hcap : debCap = 1024 := rfl
  induction n with
  | zero =>
    have htbl : filledTbl 0 = fun _ => ⟨0, 0⟩ := by
      funext s
      rw [filledTbl, if_neg (by omega)]
    rw [htbl]
    rfl
  | succ n ih =>
    have hhome : debHome (.ofNat (n + 1)) = n + 1 := by
      rw [debHome_ofNat (by omega), Nat.mod_eq_of_lt hn]
    have hkey : UInt64.ofNat (n + 1) ≠ 0 := ofNat_ne (m := 0) (by omega) (by omega) (Nat.succ_ne_zero n)
    have htbl : Function.update (filledTbl n) (n + 1) ⟨.ofNat (n + 1), debWindowMs⟩ =
        filledTbl (n + 1) := by
      funext s
      by_cases hs : s = n + 1
      · rw [hs, Function.update_self, filledTbl, if_pos (by omega)]
      · rw [Function.update_of_ne hs, filledTbl, filledTbl]
        simp only [show s ≤ n + 1 ↔ s ≤ n by omega]
    have hfree : (filledTbl n (debHome (.ofNat (n + 1)))).key = 0 := by
      rw [hhome, filledTbl, if_neg (by omega)]
    rw [fillCalls, List.range_succ, List.map_append, List.map_singleton, ← fillCalls, debAfter_append,
      ih (by omega), debouncerAllowKey_home (d := ⟨filledTbl n, 0⟩) hkey hfree, hhome, ← htbl]
    rfl

/-- The table when the key `k` came to the last free slot. -/
def fullTbl (k : ℕ) : ℕ → DebEntry := Function.update (filledTbl 1023) 0 ⟨.ofNat k, debWindowMs⟩

theorem evicts_fullTbl {k k' : ℕ} (hk : 1023 < k) (hk' : 1023 < k') (hlt : k < 2 ^ 64)
    (hlt' : k' < 2 ^ 64) (hne : k ≠ k') (sweep : UInt32) : Evicts ⟨fullTbl k, sweep⟩ (.ofNat k') := by
  have hcap : debCap = 1024 := rfl
  have hslot : ∀ j < debCap, ∃ n, (fullTbl k j).key = .ofNat n ∧ n ≠ 0 ∧ n ≠ k' ∧ n < 2 ^ 64 := by
    intro j hj
    by_cases h0 : j = 0
    · exact ⟨k, by rw [h0, fullTbl, Function.update_self], by omega, hne, hlt⟩
    · exact ⟨j, by rw [fullTbl, Function.update_of_ne h0, filledTbl, if_pos (by omega)], h0, by omega,
        by omega⟩
  refine ⟨ofNat_ne (m := 0) hlt' (by omega) (by omega), fun j hj => ?_, ?_⟩
  · obtain ⟨n, hn, h0, -, hlt⟩ := hslot j hj
    simp only [hn]
    exact ofNat_ne (m := 0) hlt (by omega) h0
  · rintro ⟨j, hj, hkey⟩
    obtain ⟨n, hn, -, hne, hlt⟩ := hslot j hj
    exact ofNat_ne hlt hlt' hne (hn.symm.trans hkey)

/-- One slot is free and a client comes; another client takes its place, and it comes again. -/
def demoFlood : List DebCall := [⟨.ofNat 1024, 0⟩, ⟨.ofNat 2000, 0⟩, ⟨.ofNat 1024, 0⟩]

/-- In the flood the client is allowed twice within a window: once more than its entry is evicted, and
after no more evictions than it takes. -/
theorem early_allowed_in_flood_demo :
    allowedSince (.ofNat 1024) (fillCalls 1023) demoFlood = [0, 0] ∧
      evictionsOf (.ofNat 1024) (debAfter (fillCalls 1023)) demoFlood = 1 ∧
      evictions (debAfter (fillCalls 1023)) demoFlood = 2 ∧
      (2 ≤ 1 + 1 ∧ (debCap + 1) * (2 - 1) ≤ 2 + (debCap - 1)) := by
  have hfill : debAfter (fillCalls 1023) = ⟨filledTbl 1023, 0⟩ := debAfter_fillCalls (by decide)
  have hhome : debHome (.ofNat 1024) = 0 := debHome_ofNat (by decide)
  have hfree : (filledTbl 1023 (debHome (.ofNat 1024))).key = 0 := by
    rw [hhome]
    rfl
  -- the first call takes the free slot, the others evict a key
  have hfirst := debouncerAllowKey_home (d := ⟨filledTbl 1023, 0⟩) (by decide) hfree (.ofNat 0)
  have hsecond : Evicts ⟨fullTbl 1024, 0⟩ (.ofNat 2000) :=
    evicts_fullTbl (by decide) (by decide) (by decide) (by decide) (by decide) 0
  have hthird : Evicts ⟨fullTbl 2000, 1⟩ (.ofNat 1024) :=
    evicts_fullTbl (by decide) (by decide) (by decide) (by decide) (by decide) 1
  have h₁ : debAfter (fillCalls 1023 ++ [⟨.ofNat 1024, 0⟩]) = ⟨fullTbl 1024, 0⟩ := by
    rw [debAfter_append, hfill, hfirst, hhome]
    rfl
  have h₂ : debAfter (fillCalls 1023 ++ [⟨.ofNat 1024, 0⟩] ++ [⟨.ofNat 2000, 0⟩]) =
      ⟨fullTbl 2000, 1⟩ := by
    rw [debAfter_append, h₁, debouncerAllowKey_evicts hsecond]
    exact congrArg (Debouncer.mk · 1) (Function.update_idem _ _ _)
  have hnone : ¬ Evicts ⟨filledTbl 1023, 0⟩ (.ofNat 1024) := fun h =>
    h.2.1 0 (by decide) rfl
  have hflood : demoFlood = [] ++ [⟨.ofNat 1024, 0⟩] ++ [⟨.ofNat 2000, 0⟩] ++ [⟨.ofNat 1024, 0⟩] := rfl
  have hallowed : allowedSince (.ofNat 1024) (fillCalls 1023) demoFlood = [0, 0] := by
    have hcall : debAllowed (fillCalls 1023) ⟨.ofNat 1024, 0⟩ = true := by rw [debAllowed, hfill, hfirst]
    have hagain : debAllowed (fillCalls 1023 ++ [⟨.ofNat 1024, 0⟩] ++ [⟨.ofNat 2000, 0⟩])
        ⟨.ofNat 1024, 0⟩ = true := by rw [debAllowed, h₂, debouncerAllowKey_evicts hthird]
    have hother : UInt64.ofNat 2000 ≠ .ofNat 1024 := by decide
    have hempty : allowedSince (.ofNat 1024) (fillCalls 1023) [] = [] := by
      rw [allowedSince, List.append_nil, List.drop_length]
    have hone : allowedSince (.ofNat 1024) (fillCalls 1023) ([] ++ [⟨.ofNat 1024, 0⟩]) = [0] := by
      rw [allowedSince_append, List.append_nil, hempty]
      exact if_pos ⟨rfl, hcall⟩
    have htwo : allowedSince (.ofNat 1024) (fillCalls 1023)
        ([] ++ [⟨.ofNat 1024, 0⟩] ++ [⟨.ofNat 2000, 0⟩]) = [0] := by
      rw [allowedSince_append, hone]
      exact if_neg fun h => hother h.1
    rw [hflood, allowedSince_append, htwo, List.nil_append, ← List.append_assoc]
    exact if_pos ⟨rfl, hagain⟩
  have hown : evictionsOf (.ofNat 1024) (debAfter (fillCalls 1023)) demoFlood = 1 := by
    have hfree' : ¬ EvictsKey ⟨filledTbl 1023, 0⟩ (.ofNat 1024) (.ofNat 1024) := fun h => hnone h.1
    have htaken : EvictsKey ⟨fullTbl 1024, 0⟩ (.ofNat 2000) (.ofNat 1024) :=
      ⟨hsecond, congrArg DebEntry.key (Function.update_self 0 _ (filledTbl 1023))⟩
    have hslot : ¬ EvictsKey ⟨fullTbl 2000, 1⟩ (.ofNat 1024) (.ofNat 1024) := fun h =>
      absurd h.2 (by decide)
    rw [hflood, evictionsOf_since, evictionsOf_since, evictionsOf_since, List.append_nil,
      List.nil_append, ← List.append_assoc, h₁, h₂, hfill, if_neg hfree', if_pos htaken, if_neg hslot]
    rfl
  have hall : evictions (debAfter (fillCalls 1023)) demoFlood = 2 := by
    rw [hflood, evictions_since, evictions_since, evictions_since, List.append_nil, List.nil_append,
      ← List.append_assoc, h₁, h₂, hfill, if_neg hnone, if_pos hsecond, if_pos hthird]
    rfl
  have htimes : ∀ c ∈ fillCalls 1023 ++ demoFlood, c.time = 0 := by
    intro c hc
    rcases List.mem_append.mp hc with hc | hc
    · obtain ⟨k, -, rfl⟩ := List.mem_map.mp hc
      rfl
    · exact (by decide : ∀ c ∈ demoFlood, c.time = 0) c hc
  have hord : TimesOrdered (fillCalls 1023 ++ demoFlood) :=
    List.pairwise_of_forall_mem_list fun c hc c' hc' => by rw [htimes c hc, htimes c' hc']
  have hshort : ∀ c ∈ demoFlood, ∀ c' ∈ demoFlood, c'.time < c.time + debWindowMs.toNat := by decide
  have hbound := @early_allowed_in_flood _ _ (.ofNat 1024) hord (by decide) hshort
  rw [hallowed, hown, hall] at hbound
  exact ⟨hallowed, hown, hall, hbound⟩

end Adnihilum
