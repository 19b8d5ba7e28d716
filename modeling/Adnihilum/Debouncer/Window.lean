import Adnihilum.Debouncer.Table

/-!
# The window of the rate limiter

Runs of calls at non-decreasing real times, of which the limiter sees the low 32 bits. An entry
keeps the time of the last allowed call of its key, and the test is a signed difference of wrapped
times.

* `until_sub_now_pos`: the test in real time.
* `DebTimed`: every entry belongs to the last allowed call of its key.
* **`rejected_soon_iff`**: exactly which runs reject only within the window.
* **`window_enforced`**: with no more keys than entries, allowed calls keep the window.
-/

namespace Adnihilum

/-! ## The clock -/

theorem toInt32_pos {x : UInt32} : 0 < x.toInt32 ↔ 0 < x.toNat ∧ x.toNat < 2 ^ 31 := by
  have hpos : 0 < x.toInt32 ↔ (0 : ℤ) < x.toBitVec.toInt := Int32.lt_iff_toInt_lt
  have hlt := x.toNat_lt
  have hnat : x.toBitVec.toNat = x.toNat := rfl
  rw [hpos, BitVec.toInt_eq_toNat_cond, hnat]
  split_ifs <;> omega

/-- The signed difference of the wrapped times is positive during the window, and again after half
the range of the counter. -/
theorem until_sub_now_pos {t now : ℕ} (h : t ≤ now) :
    0 < (UInt32.ofNat t + debWindowMs - UInt32.ofNat now).toInt32 ↔
      (now - t) % 2 ^ 32 < 150 ∨ 2 ^ 31 + 151 ≤ (now - t) % 2 ^ 32 := by
  have hwindow : debWindowMs.toNat = 150 := rfl
  rw [toInt32_pos, UInt32.toNat_sub, UInt32.toNat_add, UInt32.toNat_ofNat', UInt32.toNat_ofNat',
    hwindow]
  omega

/-! ## Runs -/

/-- A call, with its real time in milliseconds. -/
structure DebCall where
  key : UInt64
  time : ℕ
  deriving DecidableEq

/-- The limiter after some calls. -/
def debAfter (cs : List DebCall) : Debouncer :=
  cs.foldl (fun d c => (debouncerAllowKey d c.key (.ofNat c.time)).1) debInit

/-- The answer to a call after some others. -/
def debAllowed (cs : List DebCall) (c : DebCall) : Bool :=
  (debouncerAllowKey (debAfter cs) c.key (.ofNat c.time)).2

/-- The times of the allowed calls for a key. -/
def allowedTimes (key : UInt64) (cs : List DebCall) : List ℕ :=
  (cs.foldl (fun (s : Debouncer × List ℕ) c =>
    let out := debouncerAllowKey s.1 c.key (.ofNat c.time)
    (out.1, if c.key = key ∧ out.2 = true then s.2 ++ [c.time] else s.2)) (debInit, [])).2

/-- The real times do not decrease. -/
def TimesOrdered (cs : List DebCall) : Prop := cs.Pairwise fun c c' => c.time ≤ c'.time

section Runs

variable {cs : List DebCall} {c : DebCall} {key : UInt64}

theorem debAfter_append (cs : List DebCall) (c : DebCall) :
    debAfter (cs ++ [c]) = (debouncerAllowKey (debAfter cs) c.key (.ofNat c.time)).1 := by
  rw [debAfter, List.foldl_append]
  rfl

theorem allowedTimes_append (key : UInt64) (cs : List DebCall) (c : DebCall) :
    allowedTimes key (cs ++ [c]) =
      if c.key = key ∧ debAllowed cs c = true then allowedTimes key cs ++ [c.time]
      else allowedTimes key cs := by
  have hstate : ∀ cs : List DebCall, (cs.foldl (fun (s : Debouncer × List ℕ) c =>
      let out := debouncerAllowKey s.1 c.key (.ofNat c.time)
      (out.1, if c.key = key ∧ out.2 = true then s.2 ++ [c.time] else s.2)) (debInit, [])).1 =
        debAfter cs := by
    intro cs
    induction cs using List.reverseRecOn with
    | nil => rfl
    | append_singleton cs c ih =>
      rw [List.foldl_append, debAfter_append, ← ih]
      rfl
  rw [allowedTimes, List.foldl_append, List.foldl_cons, List.foldl_nil]
  simp only [hstate]
  rfl

theorem debAfter_sound (cs : List DebCall) : DebSound (debAfter cs).tbl := by
  induction cs using List.reverseRecOn with
  | nil => exact debInit_sound
  | append_singleton cs c ih =>
    rw [debAfter_append]
    exact debouncerAllowKey_sound ih _ _

theorem mem_allowedTimes {t : ℕ} (h : t ∈ allowedTimes key cs) :
    ∃ c ∈ cs, c.key = key ∧ c.time = t := by
  induction cs using List.reverseRecOn with
  | nil => cases h
  | append_singleton cs c ih =>
    rw [allowedTimes_append] at h
    split_ifs at h with hc
    · rcases List.mem_append.mp h with h | h
      · obtain ⟨c', hc', hkey⟩ := ih h
        exact ⟨c', List.mem_append_left _ hc', hkey⟩
      · exact ⟨c, List.mem_append_right _ List.mem_cons_self, hc.1, (List.mem_singleton.mp h).symm⟩
    · obtain ⟨c', hc', hkey⟩ := ih h
      exact ⟨c', List.mem_append_left _ hc', hkey⟩

theorem TimesOrdered.le (h : TimesOrdered (cs ++ [c])) {c' : DebCall} (hc' : c' ∈ cs) :
    c'.time ≤ c.time := (List.pairwise_append.mp h).2.2 c' hc' c List.mem_cons_self

theorem TimesOrdered.left (h : TimesOrdered (cs ++ [c])) : TimesOrdered cs :=
  (List.pairwise_append.mp h).1

theorem allowedTimes_le (h : TimesOrdered (cs ++ [c])) {t : ℕ} (ht : t ∈ allowedTimes key cs) :
    t ≤ c.time := by
  obtain ⟨c', hc', -, rfl⟩ := mem_allowedTimes ht
  exact h.le hc'

theorem allowedTimes_sorted (h : TimesOrdered cs) : (allowedTimes key cs).Pairwise (· ≤ ·) := by
  induction cs using List.reverseRecOn with
  | nil => exact List.Pairwise.nil
  | append_singleton cs c ih =>
    rw [allowedTimes_append]
    split_ifs
    · rw [List.pairwise_append]
      refine ⟨ih h.left, List.pairwise_singleton _ _, fun t ht t' ht' => ?_⟩
      rw [List.mem_singleton.mp ht']
      exact allowedTimes_le h ht
    · exact ih h.left

theorem le_getLast {l : List ℕ} (h : l.Pairwise (· ≤ ·)) {t t' : ℕ} (hlast : l.getLast? = some t)
    (ht' : t' ∈ l) : t' ≤ t := by
  obtain ⟨l', rfl⟩ := List.getLast?_eq_some_iff.mp hlast
  rcases List.mem_append.mp ht' with ht' | ht'
  · exact (List.pairwise_append.mp h).2.2 t' ht' t List.mem_cons_self
  · exact (List.mem_singleton.mp ht').le

/-! ## Entries and times -/

/-- Every entry belongs to the last allowed call of its key. -/
def DebTimed (cs : List DebCall) : Prop :=
  ∀ s < debCap, ((debAfter cs).tbl s).key ≠ 0 →
    ∃ t, (allowedTimes ((debAfter cs).tbl s).key cs).getLast? = some t ∧
      ((debAfter cs).tbl s).untilMs = .ofNat t + debWindowMs

theorem DebTimed.same (h : DebTimed cs) (htbl : (debAfter (cs ++ [c])).tbl = (debAfter cs).tbl)
    (htimes : ∀ k ≠ 0, allowedTimes k (cs ++ [c]) = allowedTimes k cs) : DebTimed (cs ++ [c]) := by
  intro s hs hne
  rw [htbl] at hne ⊢
  rw [htimes _ hne]
  exact h s hs hne

theorem DebTimed.allow (h : DebTimed cs) {s : ℕ}
    (htbl : (debAfter (cs ++ [c])).tbl =
      Function.update (debAfter cs).tbl s ⟨c.key, .ofNat c.time + debWindowMs⟩)
    (hallowed : debAllowed cs c = true)
    (hothers : ∀ j < debCap, j ≠ s → ((debAfter cs).tbl j).key ≠ c.key) : DebTimed (cs ++ [c]) := by
  intro j hj hne
  rw [htbl] at hne ⊢
  by_cases hjs : j = s
  · rw [hjs, Function.update_self]
    exact ⟨c.time, by rw [allowedTimes_append, if_pos ⟨rfl, hallowed⟩, List.getLast?_concat], rfl⟩
  · rw [Function.update_of_ne hjs] at hne ⊢
    rw [allowedTimes_append, if_neg fun hc => hothers j hj hjs hc.1.symm]
    exact h j hj hne

theorem debTimed (cs : List DebCall) : DebTimed cs := by
  -- by induction on the calls, one case for each thing a call can do
  induction cs using List.reverseRecOn with
  | nil => exact fun _ _ hne => absurd rfl hne
  | append_singleton cs c ih =>
    have hsound := debAfter_sound cs
    have hafter := debAfter_append cs c
    have hanswer : debAllowed cs c = (debouncerAllowKey (debAfter cs) c.key (.ofNat c.time)).2 := rfl
    by_cases hkey : c.key = 0
    · refine ih.same ?_ fun k hk => ?_
      · rw [hafter, debouncerAllowKey, if_pos hkey]
      · rw [allowedTimes_append, if_neg fun hc => hk (hc.1.symm.trans hkey)]
    have hstep := debouncerAllowKey_cases hsound hkey (.ofNat c.time)
    generalize debouncerAllowKey (debAfter cs) c.key (.ofNat c.time) = out at hafter hanswer hstep
    cases hstep with
    | reject =>
      refine ih.same (by rw [hafter]) fun k hk => ?_
      rw [allowedTimes_append, if_neg fun hc => ?_]
      rw [hanswer] at hc
      exact Bool.false_ne_true hc.2
    | refresh s hs hk hwindow =>
      refine ih.allow (s := s) (by rw [hafter]; simp only [hk]) hanswer fun j hj hjs hkj => hjs ?_
      exact hsound.inj j hj s hs (hkj ▸ hkey) (hkj.trans hk.symm)
    | insert s hs hnull hpath hnew =>
      exact ih.allow (by rw [hafter]) hanswer fun j hj _ hkj => hnew ⟨j, hj, hkj⟩
    | evict s hs hfull hnew =>
      exact ih.allow (by rw [hafter]) hanswer fun j hj _ hkj => hnew ⟨j, hj, hkj⟩

theorem debAllowed_of_not_holds (hnew : ¬ DebHolds (debAfter cs).tbl c.key) :
    debAllowed cs c = true := by
  by_cases hkey : c.key = 0
  · rw [debAllowed, debouncerAllowKey, if_pos hkey]
  have hstep := debouncerAllowKey_cases (debAfter_sound cs) hkey (.ofNat c.time)
  rw [debAllowed]
  generalize debouncerAllowKey (debAfter cs) c.key (.ofNat c.time) = out at hstep
  cases hstep with
  | reject s hs hk => exact absurd ⟨s, hs, hk⟩ hnew
  | refresh | insert | evict => rfl

/-- **The answer to a call for a key with an entry**, by the real time since its last allowed call.
-/
theorem debAllowed_of_holds (hord : TimesOrdered (cs ++ [c])) (hkey : c.key ≠ 0)
    (hholds : DebHolds (debAfter cs).tbl c.key) :
    ∃ t, (allowedTimes c.key cs).getLast? = some t ∧ t ≤ c.time ∧ (debAllowed cs c = false ↔
      (c.time - t) % 2 ^ 32 < 150 ∨ 2 ^ 31 + 151 ≤ (c.time - t) % 2 ^ 32) := by
  have hsound := debAfter_sound cs
  obtain ⟨s, hs, hk⟩ := hholds
  obtain ⟨t, ht, huntil⟩ := debTimed cs s hs (hk ▸ hkey)
  rw [hk] at ht
  have hle : t ≤ c.time := allowedTimes_le hord (List.mem_of_getLast? ht)
  refine ⟨t, ht, hle, ?_⟩
  rw [← until_sub_now_pos hle, ← huntil]
  have hstep := debouncerAllowKey_cases hsound hkey (.ofNat c.time)
  rw [debAllowed]
  generalize debouncerAllowKey (debAfter cs) c.key (.ofNat c.time) = out at hstep
  have same {s' : ℕ} (hs' : s' < debCap) (hk' : ((debAfter cs).tbl s').key = c.key) : s' = s :=
    hsound.inj s' hs' s hs (hk' ▸ hkey) (hk'.trans hk.symm)
  cases hstep with
  | reject s' hs' hk' hwindow =>
    obtain rfl := same hs' hk'
    exact ⟨fun _ => hwindow, fun _ => rfl⟩
  | refresh s' hs' hk' hwindow =>
    obtain rfl := same hs' hk'
    exact ⟨fun h => (by cases h), fun h => absurd h hwindow⟩
  | insert _ _ _ _ hnew => exact absurd ⟨s, hs, hk⟩ hnew
  | evict _ _ _ hnew => exact absurd ⟨s, hs, hk⟩ hnew

/-! ## Rejections -/

/-- A call is rejected only if a call for its key was allowed within the window before. -/
def RejectsSoon (cs : List DebCall) : Prop :=
  ∀ pre c post, cs = pre ++ c :: post → debAllowed pre c = false →
    ∃ t ∈ allowedTimes c.key pre, c.time < t + debWindowMs.toNat

/-- A call for a key with an entry comes within the window after the last allowed call for it, or at
a time that the counter takes for later: modulo 2^32, at most half the range after the window. -/
def IdleInRange (cs : List DebCall) : Prop :=
  ∀ pre c post, cs = pre ++ c :: post → c.key ≠ 0 → DebHolds (debAfter pre).tbl c.key →
    ∀ t, (allowedTimes c.key pre).getLast? = some t →
      c.time < t + debWindowMs.toNat ∨
        debWindowMs.toNat ≤ (c.time - t) % 2 ^ 32 ∧
          (c.time - t) % 2 ^ 32 ≤ 2 ^ 31 + debWindowMs.toNat

theorem TimesOrdered.prefix' {pre post : List DebCall} (h : TimesOrdered cs)
    (hcs : cs = pre ++ c :: post) : TimesOrdered (pre ++ [c]) := by
  rw [hcs, List.append_cons] at h
  exact (List.pairwise_append.mp h).1

/-- **A run rejects only within the window exactly when no idle time is out of range.** -/
theorem rejected_soon_iff (h : TimesOrdered cs) : RejectsSoon cs ↔ IdleInRange cs := by
  have hwindow : debWindowMs.toNat = 150 := rfl
  constructor
  · intro hsoon pre c post hcs hkey hholds t ht
    have hord := h.prefix' hcs
    obtain ⟨t', ht', hle, hanswer⟩ := debAllowed_of_holds hord hkey hholds
    obtain rfl := Option.some.inj (ht'.symm.trans ht)
    by_cases hrej : debAllowed pre c = false
    · obtain ⟨t, htmem, hlt⟩ := hsoon pre c post hcs hrej
      have := le_getLast (allowedTimes_sorted hord.left) ht' htmem
      exact .inl (by omega)
    · rw [hanswer] at hrej
      exact .inr (by omega)
  · intro hidle pre c post hcs hrej
    have hord := h.prefix' hcs
    have hkey : c.key ≠ 0 := fun hkey => by
      rw [debAllowed, debouncerAllowKey, if_pos hkey] at hrej
      exact Bool.false_ne_true hrej.symm
    have hholds : DebHolds (debAfter pre).tbl c.key := by
      by_contra hnew
      rw [debAllowed_of_not_holds hnew] at hrej
      exact Bool.false_ne_true hrej.symm
    obtain ⟨t, ht, hle, hanswer⟩ := debAllowed_of_holds hord hkey hholds
    refine ⟨t, List.mem_of_getLast? ht, ?_⟩
    have := hanswer.mp hrej
    have := hidle pre c post hcs hkey hholds t ht
    omega

/-- A client comes back after 24.9 days and is turned away. -/
theorem idle_client_rejected :
    TimesOrdered [⟨1, 0⟩, ⟨1, 2 ^ 31 + 200⟩] ∧
      ¬ RejectsSoon [⟨1, 0⟩, ⟨1, 2 ^ 31 + 200⟩] := by
  refine ⟨by simp [TimesOrdered], fun h => ?_⟩
  have hrej : debAllowed [⟨1, 0⟩] ⟨1, 2 ^ 31 + 200⟩ = false := by decide +kernel
  have htimes : allowedTimes 1 [⟨1, 0⟩] = [0] := by decide +kernel
  have hwindow : debWindowMs.toNat = 150 := rfl
  obtain ⟨t, ht, hlt⟩ := h [⟨1, 0⟩] ⟨1, 2 ^ 31 + 200⟩ [] rfl hrej
  rw [htimes, List.mem_singleton] at ht
  rw [ht, hwindow] at hlt
  exact absurd hlt (by decide)

theorem rejected_soon_iff_demo :
    RejectsSoon [⟨1, 0⟩, ⟨1, 100⟩] ↔ IdleInRange [⟨1, 0⟩, ⟨1, 100⟩] :=
  rejected_soon_iff (by simp [TimesOrdered])

/-! ## Few keys -/

/-- The non-zero keys of the calls. -/
def calledKeys (cs : List DebCall) : Finset UInt64 := (cs.map DebCall.key).toFinset.erase 0

theorem mem_calledKeys : key ∈ calledKeys cs ↔ key ≠ 0 ∧ ∃ c ∈ cs, c.key = key := by
  rw [calledKeys, Finset.mem_erase, List.mem_toFinset, List.mem_map]

theorem calledKeys_append (hkey : c.key ≠ 0) :
    calledKeys (cs ++ [c]) = insert c.key (calledKeys cs) := by
  ext k
  simp only [mem_calledKeys, Finset.mem_insert, List.mem_append, List.mem_singleton]
  constructor
  · rintro ⟨hk, c', hc' | rfl, rfl⟩
    · exact .inr ⟨hk, c', hc', rfl⟩
    · exact .inl rfl
  · rintro (rfl | ⟨hk, c', hc', rfl⟩)
    · exact ⟨hkey, c, .inr rfl, rfl⟩
    · exact ⟨hk, c', .inl hc', rfl⟩

theorem calledKeys_append_zero (hkey : c.key = 0) : calledKeys (cs ++ [c]) = calledKeys cs := by
  ext k
  simp only [mem_calledKeys, List.mem_append, List.mem_singleton]
  constructor
  · rintro ⟨hk, c', hc' | rfl, rfl⟩
    · exact ⟨hk, c', hc', rfl⟩
    · exact absurd hkey hk
  · rintro ⟨hk, c', hc', rfl⟩
    exact ⟨hk, c', .inl hc', rfl⟩

theorem key_mem_calledKeys {s : ℕ} (hs : s < debCap) (hne : ((debAfter cs).tbl s).key ≠ 0) :
    ((debAfter cs).tbl s).key ∈ calledKeys cs := by
  obtain ⟨t, ht, -⟩ := debTimed cs s hs hne
  obtain ⟨c, hc, hkey, -⟩ := mem_allowedTimes (List.mem_of_getLast? ht)
  exact mem_calledKeys.mpr ⟨hne, c, hc, hkey⟩

theorem debCap_le_card (hfull : ∀ j < debCap, ((debAfter cs).tbl j).key ≠ 0) :
    debCap ≤ (calledKeys cs).card := by
  rw [← Finset.card_range debCap]
  refine Finset.card_le_card_of_injOn (fun s => ((debAfter cs).tbl s).key) ?_ ?_
  · intro s hs
    have hs := Finset.mem_range.mp hs
    exact key_mem_calledKeys hs (hfull s hs)
  · intro i hi j hj hij
    have hi := Finset.mem_range.mp hi
    exact (debAfter_sound cs).inj i hi j (Finset.mem_range.mp hj) (hfull i hi) hij

theorem DebHolds.update {tbl : ℕ → DebEntry} (h : DebHolds tbl key) {s : ℕ} {e : DebEntry}
    (hs : (tbl s).key ≠ key ∨ e.key = key) : DebHolds (Function.update tbl s e) key := by
  obtain ⟨t, ht, hkt⟩ := h
  refine ⟨t, ht, ?_⟩
  by_cases hts : t = s
  · subst hts
    rw [Function.update_self]
    exact hs.resolve_left fun hne => hne hkt
  · rw [Function.update_of_ne hts]
    exact hkt

/-- **With no more keys than entries nothing is evicted**: every key called so far has its entry. -/
theorem debHolds_of_few (hfew : (calledKeys cs).card ≤ debCap) (hmem : key ∈ calledKeys cs) :
    DebHolds (debAfter cs).tbl key := by
  induction cs using List.reverseRecOn generalizing key with
  | nil => cases hmem
  | append_singleton cs c ih =>
    have hafter := debAfter_append cs c
    by_cases hkey : c.key = 0
    · rw [calledKeys_append_zero hkey] at hfew hmem
      rw [hafter, debouncerAllowKey, if_pos hkey]
      exact ih hfew hmem
    rw [calledKeys_append hkey] at hfew hmem
    have hold : ∀ k ∈ calledKeys cs, DebHolds (debAfter cs).tbl k := fun k hk =>
      ih ((Finset.card_le_card (Finset.subset_insert _ _)).trans hfew) hk
    have hstep := debouncerAllowKey_cases (debAfter_sound cs) hkey (.ofNat c.time)
    rw [hafter]
    generalize debouncerAllowKey (debAfter cs) c.key (.ofNat c.time) = out at hstep
    cases hstep with
    | reject s hs hk =>
      rcases Finset.mem_insert.mp hmem with rfl | hmem
      · exact ⟨s, hs, hk⟩
      · exact hold key hmem
    | refresh s hs hk =>
      rcases Finset.mem_insert.mp hmem with rfl | hmem
      · exact DebHolds.update ⟨s, hs, hk⟩ (.inr hk)
      · exact (hold key hmem).update (or_iff_not_imp_left.mpr not_not.mp)
    | insert s hs hnull =>
      rcases Finset.mem_insert.mp hmem with rfl | hmem
      · refine ⟨s, hs, ?_⟩
        simp only [Function.update_self]
      · exact (hold key hmem).update (.inl (hnull ▸ (mem_calledKeys.mp hmem).1.symm))
    | evict s hs hfull hnew =>
      rw [Finset.card_insert_of_notMem fun hmem => hnew (hold _ hmem)] at hfew
      have := debCap_le_card hfull
      omega

/-- An allowed call comes after the window of every earlier allowed call for its key. -/
theorem window_of_allowed (hord : TimesOrdered (cs ++ [c])) (hkey : c.key ≠ 0)
    (hfew : (calledKeys cs).card ≤ debCap) (hallowed : debAllowed cs c = true) {t : ℕ}
    (ht : t ∈ allowedTimes c.key cs) : t + debWindowMs.toNat ≤ c.time := by
  have hwindow : debWindowMs.toNat = 150 := rfl
  obtain ⟨c', hc', hk, -⟩ := mem_allowedTimes ht
  have hholds := debHolds_of_few hfew (mem_calledKeys.mpr ⟨hkey, c', hc', hk⟩)
  obtain ⟨t', ht', hle, hanswer⟩ := debAllowed_of_holds hord hkey hholds
  have hlast : t ≤ t' := le_getLast (allowedTimes_sorted hord.left) ht' ht
  have hnot : ¬ debAllowed cs c = false := fun hrej => by cases hallowed.symm.trans hrej
  rw [hanswer] at hnot
  omega

theorem allowedTimes_window (hord : TimesOrdered cs) (hfew : (calledKeys cs).card ≤ debCap)
    (hkey : key ≠ 0) :
    (allowedTimes key cs).Pairwise fun t t' => t + debWindowMs.toNat ≤ t' := by
  induction cs using List.reverseRecOn with
  | nil => exact List.Pairwise.nil
  | append_singleton cs c ih =>
    have hfew' : (calledKeys cs).card ≤ debCap := by
      refine (Finset.card_le_card ?_).trans hfew
      by_cases hc : c.key = 0
      · rw [calledKeys_append_zero hc]
      · rw [calledKeys_append hc]
        exact Finset.subset_insert _ _
    rw [allowedTimes_append]
    split_ifs with hc
    · obtain ⟨rfl, hallowed⟩ := hc
      rw [List.pairwise_append]
      refine ⟨ih hord.left hfew', List.pairwise_singleton _ _, fun t ht t' ht' => ?_⟩
      rw [List.mem_singleton.mp ht']
      exact window_of_allowed hord hkey hfew' hallowed ht
    · exact ih hord.left hfew'

/-- **The limiter enforces its window**, for any order of the calls and across the wraparound of the
clock; and it never has two entries for a key. -/
theorem window_enforced (cs : List DebCall) :
    (TimesOrdered cs → (calledKeys cs).card ≤ debCap → ∀ key ≠ 0,
      (allowedTimes key cs).Pairwise fun t t' => t + debWindowMs.toNat ≤ t') ∧
    ∀ i < debCap, ∀ j < debCap, ((debAfter cs).tbl i).key ≠ 0 →
      ((debAfter cs).tbl i).key = ((debAfter cs).tbl j).key → i = j :=
  ⟨fun hord hfew _ hkey => allowedTimes_window hord hfew hkey, (debAfter_sound cs).inj⟩

/-- Two clients in turn: the first is turned away once, and let in again after the window. -/
theorem window_enforced_demo :
    allowedTimes 1 [⟨1, 0⟩, ⟨2, 40⟩, ⟨1, 100⟩, ⟨2, 190⟩, ⟨1, 200⟩] = [0, 200] ∧
      (allowedTimes 1 [⟨1, 0⟩, ⟨2, 40⟩, ⟨1, 100⟩, ⟨2, 190⟩, ⟨1, 200⟩]).Pairwise
        fun t t' => t + debWindowMs.toNat ≤ t' :=
  ⟨by decide +kernel, (window_enforced [⟨1, 0⟩, ⟨2, 40⟩, ⟨1, 100⟩, ⟨2, 190⟩, ⟨1, 200⟩]).1
    (by simp [TimesOrdered]) (by decide +kernel) 1 (by decide)⟩

end Runs

end Adnihilum
