import Mathlib.Tactic.Ring
import Mathlib.Tactic.SplitIfs
import Mathlib.Logic.Function.Basic
import Mathlib.Data.Nat.ModEq

/-!
# Open addressing with linear probing

A table of `n` slots arranged in a ring; slot `s` is empty or holds a key, and a key is searched
for from its home slot onwards.

* `fwd n a b`: the number of slots from `a` forward to `b`; `OnPath n h s j`: slot `j` lies on the
  probe path from home `h` to slot `s`, `s` itself excluded.
* `Sound n home K`: keys are unique, no probe path meets an empty slot, and some slot (the **cut**)
  lies on no probe path. In a table with an empty slot the cut comes for free; in a full table it
  is what keeps probe paths from going round for ever.
* `Sound.insert`: filling the first empty slot of a probe path keeps the table sound.
* `Shifting`: the invariant of backward-shift deletion while a hole travels along the ring;
  `Shifting.init`, `Shifting.skip`, `Shifting.move` and **`Shifting.stop`**, the last of which says
  that the table is sound again when the walk ends.
-/

namespace OpenAddressing

/-! ## Distances on the ring -/

/-- The number of slots from `a` forward to `b` on a ring of `n` slots. -/
def fwd (n a b : ℕ) : ℕ := (b + n - a) % n

theorem fwd_eq {n a b : ℕ} (ha : a < n) (hb : b < n) :
    fwd n a b = if a ≤ b then b - a else b + n - a := by
  unfold fwd
  split_ifs with h
  · rw [show b + n - a = b - a + n by omega, Nat.add_mod_right, Nat.mod_eq_of_lt (by omega)]
  · exact Nat.mod_eq_of_lt (by omega)

theorem fwd_lt {n a b : ℕ} (ha : a < n) : fwd n a b < n := Nat.mod_lt _ (by omega)

theorem fwd_self {n a : ℕ} (ha : a < n) : fwd n a a = 0 := by
  rw [fwd_eq ha ha, if_pos le_rfl, Nat.sub_self]

theorem fwd_rebase {n a b x : ℕ} (ha : a < n) (hb : b < n) (hx : x < n) :
    fwd n a x = if fwd n b a ≤ fwd n b x then fwd n b x - fwd n b a
      else fwd n b x + n - fwd n b a := by
  rw [fwd_eq ha hx, fwd_eq hb ha, fwd_eq hb hx]
  split_ifs <;> omega

theorem fwd_inj {n b x y : ℕ} (hb : b < n) (hx : x < n) (hy : y < n)
    (h : fwd n b x = fwd n b y) : x = y := by
  rw [fwd_eq hb hx, fwd_eq hb hy] at h
  split_ifs at h <;> omega

theorem add_fwd_mod {n a b : ℕ} (ha : a < n) (hb : b < n) : (a + fwd n a b) % n = b := by
  rw [fwd_eq ha hb]
  split_ifs with h
  · rw [show a + (b - a) = b by omega, Nat.mod_eq_of_lt hb]
  · rw [show a + (b + n - a) = b + n by omega, Nat.add_mod_right, Nat.mod_eq_of_lt hb]

theorem fwd_add_mod {n a d : ℕ} (ha : a < n) (hd : d < n) : fwd n a ((a + d) % n) = d := by
  have hm : (a + d) % n < n := Nat.mod_lt _ (by omega)
  refine Nat.ModEq.eq_of_lt_of_lt (m := n) ?_ (fwd_lt ha) hd
  have h1 : (a + fwd n a ((a + d) % n)) % n = (a + d) % n := add_fwd_mod ha hm
  exact Nat.ModEq.add_left_cancel' a h1

theorem fwd_succ {n a x : ℕ} (ha : a < n) (hx : x < n) (hne : (x + 1) % n ≠ a) :
    fwd n a ((x + 1) % n) = fwd n a x + 1 := by
  have hd : fwd n a x < n := fwd_lt ha
  have hx' : (a + fwd n a x) % n = x := add_fwd_mod ha hx
  have hstep : (x + 1) % n = (a + (fwd n a x + 1)) % n := by
    conv_lhs => rw [← hx']
    rw [Nat.mod_add_mod, Nat.add_assoc]
  have hlt : fwd n a x + 1 < n := by
    by_contra hc
    apply hne
    rw [hstep, show fwd n a x + 1 = n by omega, Nat.add_mod_right, Nat.mod_eq_of_lt ha]
  rw [hstep, fwd_add_mod ha hlt]

theorem fwd_le_of_closed {n a x s : ℕ} (ha : a < n) (hx : x < n) (hc : (x + 1) % n = a)
    (hs : s < n) : fwd n a s ≤ fwd n a x := by
  have h1 := fwd_lt (n := n) (b := s) ha
  have h2 : fwd n a x = n - 1 := by
    have hdiv : (x + 1) % n = if x + 1 = n then 0 else x + 1 := by
      split_ifs with h
      · rw [h, Nat.mod_self]
      · exact Nat.mod_eq_of_lt (by omega)
    rw [hdiv] at hc
    rw [fwd_eq ha hx]
    split_ifs at hc ⊢ <;> omega
  omega

/-! ## Probe paths -/

/-- Slot `j` lies on the probe path from home `h` to slot `s`, `s` itself excluded. -/
def OnPath (n h s j : ℕ) : Prop := fwd n h j < fwd n h s

instance (n h s j : ℕ) : Decidable (OnPath n h s j) := inferInstanceAs (Decidable (_ < _))

/-- The position of a slot when the ring is cut open just after slot `c`. -/
def pos (n c x : ℕ) : ℕ := fwd n ((c + 1) % n) x

section Cut

variable {n c : ℕ} (hc : c < n)
include hc

theorem cut_lt : (c + 1) % n < n := Nat.mod_lt _ (by omega)

theorem pos_lt {x : ℕ} : pos n c x < n := fwd_lt (cut_lt hc)

theorem pos_cut : pos n c c = n - 1 := by
  unfold pos
  rcases Nat.lt_or_ge (c + 1) n with h | h
  · rw [Nat.mod_eq_of_lt h, fwd_eq h hc, if_neg (by omega)]
    omega
  · have : c + 1 = n := by omega
    rw [this, Nat.mod_self, fwd_eq (by omega) hc, if_pos (by omega)]
    omega

theorem fwd_pos {a x : ℕ} (ha : a < n) (hx : x < n) :
    fwd n a x = if pos n c a ≤ pos n c x then pos n c x - pos n c a
      else pos n c x + n - pos n c a := fwd_rebase ha (cut_lt hc) hx

/-- **A path that avoids the cut is an interval of positions.** -/
theorem not_onPath_cut_iff {h s : ℕ} (hh : h < n) (hs : s < n) :
    ¬ OnPath n h s c ↔ pos n c h ≤ pos n c s := by
  have e1 := fwd_pos hc hh hs
  have e2 := fwd_pos hc hh hc
  have e3 := pos_cut hc
  have e4 := pos_lt hc (x := h)
  have e5 := pos_lt hc (x := s)
  unfold OnPath
  split_ifs at e1 e2 <;> omega

theorem onPath_iff {h s j : ℕ} (hh : h < n) (hs : s < n) (hj : j < n)
    (hle : pos n c h ≤ pos n c s) :
    OnPath n h s j ↔ pos n c h ≤ pos n c j ∧ pos n c j < pos n c s := by
  have e1 := fwd_pos hc hh hs
  have e2 := fwd_pos hc hh hj
  have e5 := pos_lt hc (x := s)
  unfold OnPath
  rw [if_pos hle] at e1
  split_ifs at e2 <;> omega

end Cut

/-! ## Sound tables -/

variable {κ : Type*} {n : ℕ} {home : κ → ℕ} {K : ℕ → Option κ}

/-- **A sound table**: unique keys, no empty slot on a probe path, and a slot that no path
crosses. -/
structure Sound (n : ℕ) (home : κ → ℕ) (K : ℕ → Option κ) : Prop where
  inj : ∀ i < n, ∀ j < n, ∀ k, K i = some k → K j = some k → i = j
  reach : ∀ s < n, ∀ k, K s = some k → ∀ j < n, OnPath n (home k) s j → K j ≠ none
  cut : ∃ c < n, ∀ s < n, ∀ k, K s = some k → ¬ OnPath n (home k) s c

theorem Sound.empty (hn : 0 < n) : Sound n home (fun _ => (none : Option κ)) where
  inj := by simp
  reach := by simp
  cut := ⟨0, hn, by simp⟩

/-- Before the slot of `k`, probing meets neither an empty slot nor `k`. -/
theorem Sound.before {k : κ} {s d : ℕ} (hK : Sound n home K) (hh : home k < n) (hs : s < n)
    (hk : K s = some k) (hd : d < fwd n (home k) s) :
    K ((home k + d) % n) ≠ none ∧ K ((home k + d) % n) ≠ some k := by
  have hdn : d < n := hd.trans (fwd_lt hh)
  have hm : (home k + d) % n < n := Nat.mod_lt _ (by omega)
  have hf : fwd n (home k) ((home k + d) % n) = d := fwd_add_mod hh hdn
  refine ⟨hK.reach s hs k hk _ hm (by rw [OnPath, hf]; exact hd), fun he => ?_⟩
  have := hK.inj _ hm s hs k he hk
  rw [this] at hf
  omega

theorem Sound.insert {k : κ} {i : ℕ} (hK : Sound n home K) (hi : i < n) (hfree : K i = none)
    (hpath : ∀ j < n, OnPath n (home k) i j → K j ≠ none) (habs : ∀ j < n, K j ≠ some k) :
    Sound n home (Function.update K i (some k)) where
  inj a ha b hb k' h1 h2 := by
    by_cases hai : a = i <;> by_cases hbi : b = i
    · rw [hai, hbi]
    · subst hai
      rw [Function.update_self, Option.some_inj] at h1
      rw [Function.update_of_ne hbi, ← h1] at h2
      exact absurd h2 (habs b hb)
    · subst hbi
      rw [Function.update_self, Option.some_inj] at h2
      rw [Function.update_of_ne hai, ← h2] at h1
      exact absurd h1 (habs a ha)
    · rw [Function.update_of_ne hai] at h1
      rw [Function.update_of_ne hbi] at h2
      exact hK.inj a ha b hb k' h1 h2
  reach s hs k' h1 j hj hp := by
    by_cases hji : j = i
    · rw [hji, Function.update_self]
      exact Option.some_ne_none k
    · rw [Function.update_of_ne hji]
      by_cases hsi : s = i
      · subst hsi
        rw [Function.update_self, Option.some_inj] at h1
        subst h1
        exact hpath j hj hp
      · rw [Function.update_of_ne hsi] at h1
        exact hK.reach s hs k' h1 j hj hp
  cut := by
    refine ⟨i, hi, fun s hs k' h1 hp => ?_⟩
    by_cases hsi : s = i
    · subst hsi
      exact absurd hp (lt_irrefl _)
    · rw [Function.update_of_ne hsi] at h1
      exact hK.reach s hs k' h1 i hi hp hfree

/-! ## Backward-shift deletion -/

/-- The invariant of a deletion that started at `start`: the walk has passed the slots up to
`next`, the slot `hole` is the one left empty, and no key already passed has the hole on its probe
path. Positions are taken from a cut `c`. -/
structure Shifting (n c : ℕ) (home : κ → ℕ) (start hole next : ℕ) (K : ℕ → Option κ) : Prop where
  hole_lt : hole < n
  next_lt : next < n
  inj : ∀ i < n, ∀ j < n, ∀ k, K i = some k → K j = some k → i = j
  home_le : ∀ s < n, ∀ k, K s = some k → pos n c (home k) ≤ pos n c s
  reach : ∀ s < n, ∀ k, K s = some k → ∀ j < n, j ≠ hole → pos n c (home k) ≤ pos n c j →
    pos n c j < pos n c s → K j ≠ none
  empty : K hole = none
  seen : ∀ s < n, ∀ k, K s = some k → fwd n start s ≤ fwd n start next →
    pos n c hole < pos n c s → pos n c hole < pos n c (home k)
  ahead : fwd n start hole ≤ fwd n start next
  start_le : pos n c start ≤ pos n c hole

section Deletion

variable {c start hole next : ℕ} (hh : ∀ k, home k < n) (hc : c < n) (hstart : start < n)

include hh hc hstart

theorem Shifting.init (hK : Sound n home K)
    (hcut : ∀ s < n, ∀ k, K s = some k → ¬ OnPath n (home k) s c) :
    Shifting n c home start start start (Function.update K start none) := by
  have old : ∀ s < n, ∀ k, Function.update K start none s = some k →
      s ≠ start ∧ K s = some k := by
    intro s _ k h
    by_cases hs : s = start
    · subst hs
      rw [Function.update_self] at h
      cases h
    · rw [Function.update_of_ne hs] at h
      exact ⟨hs, h⟩
  refine ⟨hstart, hstart, ?_, ?_, ?_, Function.update_self _ _ _, ?_, le_rfl, le_rfl⟩
  · intro i hi j hj k h1 h2
    exact hK.inj i hi j hj k (old i hi k h1).2 (old j hj k h2).2
  · intro s hs k h
    exact (not_onPath_cut_iff hc (hh k) hs).mp (hcut s hs k (old s hs k h).2)
  · intro s hs k h j hj hne h1 h2
    have hk := (old s hs k h).2
    have hle := (not_onPath_cut_iff hc (hh k) hs).mp (hcut s hs k hk)
    rw [Function.update_of_ne hne]
    exact hK.reach s hs k hk j hj ((onPath_iff hc (hh k) hs hj hle).mpr ⟨h1, h2⟩)
  · intro s hs k h h1 _
    rw [fwd_self hstart] at h1
    have : fwd n start s = fwd n start start := by rw [fwd_self hstart]; omega
    exact absurd (fwd_inj hstart hs hstart this) (old s hs k h).1

theorem Shifting.skip (hS : Shifting n c home start hole next K) {k : κ}
    (hne : (next + 1) % n ≠ start) (hk : K ((next + 1) % n) = some k)
    (hp : ¬ OnPath n (home k) ((next + 1) % n) hole) :
    Shifting n c home start hole ((next + 1) % n) K := by
  have hlt : (next + 1) % n < n := Nat.mod_lt _ (by omega)
  have hsucc := fwd_succ hstart hS.next_lt hne
  refine { hS with next_lt := hlt, seen := ?_, ahead := by have := hS.ahead; omega }
  intro s hs k' h h1 h2
  by_cases hs' : s = (next + 1) % n
  · subst hs'
    obtain rfl : k = k' := Option.some_inj.mp (hk.symm.trans h)
    have hle := hS.home_le _ hs k hk
    rw [onPath_iff hc (hh k) hs hS.hole_lt hle] at hp
    omega
  · have : fwd n start s ≠ fwd n start ((next + 1) % n) := fun e =>
      hs' (fwd_inj hstart hs hlt e)
    exact hS.seen s hs k' h (by omega) h2

/-- The walk moves a key into the hole, which was on its path; its old slot is the new hole. -/
theorem Shifting.move (hS : Shifting n c home start hole next K) {k : κ}
    (hk : K ((next + 1) % n) = some k) (hp : OnPath n (home k) ((next + 1) % n) hole) :
    Shifting n c home start ((next + 1) % n) ((next + 1) % n)
      (Function.update (Function.update K hole (some k)) ((next + 1) % n) none) := by
  have hlt : (next + 1) % n < n := Nat.mod_lt _ (by omega)
  set x := (next + 1) % n with hx
  have hle := hS.home_le x hlt k hk
  rw [onPath_iff hc (hh k) hlt hS.hole_lt hle] at hp
  obtain ⟨hp1, hp2⟩ := hp
  have hxh : hole ≠ x := fun e => by rw [e] at hp2; exact lt_irrefl _ hp2
  have moved : ∀ s < n, ∀ k', Function.update (Function.update K hole (some k)) x none s = some k' →
      (s = hole ∧ k' = k) ∨ (s ≠ hole ∧ s ≠ x ∧ K s = some k') := by
    intro s _ k' h
    by_cases hsx : s = x
    · rw [hsx, Function.update_self] at h
      cases h
    · rw [Function.update_of_ne hsx] at h
      by_cases hsh : s = hole
      · rw [hsh, Function.update_self, Option.some_inj] at h
        exact Or.inl ⟨hsh, h.symm⟩
      · rw [Function.update_of_ne hsh] at h
        exact Or.inr ⟨hsh, hsx, h⟩
  have filled : ∀ j, j ≠ x → (j ≠ hole → K j ≠ none) →
      Function.update (Function.update K hole (some k)) x none j ≠ none := by
    intro j hjx hj
    rw [Function.update_of_ne hjx]
    by_cases hjh : j = hole
    · rw [hjh, Function.update_self]
      exact Option.some_ne_none k
    · rw [Function.update_of_ne hjh]
      exact hj hjh
  have hs1 := hS.start_le
  refine ⟨hlt, hlt, ?_, ?_, ?_, Function.update_self _ _ _, ?_, le_rfl, by omega⟩
  · intro i hi j hj k' h1 h2
    rcases moved i hi k' h1 with ⟨rfl, rfl⟩ | ⟨_, hix, h1'⟩ <;>
      rcases moved j hj _ h2 with ⟨rfl, e⟩ | ⟨_, hjx, h2'⟩
    · rfl
    · exact absurd (hS.inj j hj x hlt _ h2' hk) hjx
    · subst e
      exact absurd (hS.inj i hi x hlt _ h1' hk) hix
    · exact hS.inj i hi j hj k' h1' h2'
  · intro s hs k' h
    rcases moved s hs k' h with ⟨rfl, rfl⟩ | ⟨_, _, h'⟩
    · exact hp1
    · exact hS.home_le s hs k' h'
  · intro s hs k' h j hj hjx h1 h2
    refine filled j hjx fun hjh => ?_
    rcases moved s hs k' h with ⟨rfl, rfl⟩ | ⟨_, _, h'⟩
    · exact hS.reach x hlt k' hk j hj hjh h1 (by omega)
    · exact hS.reach s hs k' h' j hj hjh h1 h2
  · -- a key behind the new hole and further from the cut would have been passed before the start
    intro s hs k' _ h1 h2
    have e1 := fwd_pos hc hstart hs
    have e2 := fwd_pos hc hstart hlt
    rw [if_pos (by omega)] at e1 e2
    omega

/-- **When the walk meets an empty slot or closes the ring, the table is sound again.** -/
theorem Shifting.stop (hS : Shifting n c home start hole next K)
    (hend : (next + 1) % n = start ∨ (next + 1) % n ≠ hole ∧ K ((next + 1) % n) = none) :
    Sound n home K := by
  have hlt : (next + 1) % n < n := Nat.mod_lt _ (by omega)
  have avoid : ∀ s < n, ∀ k, K s = some k → pos n c hole < pos n c s →
      pos n c hole < pos n c (home k) := by
    intro s hs k hk hps
    rcases hend with hclosed | ⟨hxh, hnone⟩
    · exact hS.seen s hs k hk (fwd_le_of_closed hstart hS.next_lt hclosed hs) hps
    · by_cases hstart' : (next + 1) % n = start
      · exact hS.seen s hs k hk (fwd_le_of_closed hstart hS.next_lt hstart' hs) hps
      by_cases hseen : fwd n start s ≤ fwd n start next
      · exact hS.seen s hs k hk hseen hps
      by_contra hcon
      -- the empty slot that ended the walk lies between the hole and `s`
      have hsucc := fwd_succ hstart hS.next_lt hstart'
      have hsx : fwd n start s ≠ fwd n start ((next + 1) % n) := fun e => by
        rw [fwd_inj hstart hs hlt e, hnone] at hk
        cases hk
      have hs1 := hS.start_le
      have hs2 := hS.ahead
      have e1 := fwd_pos hc hstart hs
      have e2 := fwd_pos hc hstart hlt
      have e3 := fwd_pos hc hstart hS.hole_lt
      have e4 := pos_lt hc (x := s)
      rw [if_pos (by omega)] at e1 e3
      have hle : pos n c start ≤ pos n c ((next + 1) % n) := by
        by_contra hgt
        rw [if_neg hgt] at e2
        omega
      rw [if_pos hle] at e2
      exact hS.reach s hs k hk _ hlt hxh (by omega) (by omega) hnone
  refine ⟨hS.inj, fun s hs k hk j hj hp => ?_, c, hc, fun s hs k hk => ?_⟩
  · have hle := hS.home_le s hs k hk
    rw [onPath_iff hc (hh k) hs hj hle] at hp
    by_cases hjh : j = hole
    · subst hjh
      have := avoid s hs k hk hp.2
      omega
    · exact hS.reach s hs k hk j hj hjh hp.1 hp.2
  · exact (not_onPath_cut_iff hc (hh k) hs).mpr (hS.home_le s hs k hk)

end Deletion

end OpenAddressing
