import Mathlib.Tactic

/-!
# Custody

Resources that are kept in places, each in exactly one.

* `Exclusive S holds`: every resource of `S` has exactly one keeper.
* `Leaves`, `Lands`: a resource is taken out of a place, or put into one, and nothing else changes.
* **`Exclusive.move`**: taking a resource out and putting it elsewhere keeps custody exclusive.
* `Exclusive.refine`: custody described with finer places.
* `inside S h C`: the resources kept in the places of `C`; `Exclusive.ncard_inside_union` and
  `Exclusive.ncard_keepers` count them.
-/

namespace Custody

variable {R P : Type*} {S : R → Prop} {h h₁ h₂ : P → R → Prop} {r : R} {p q : P}

/-- Every resource of `S` has exactly one keeper. -/
def Exclusive (S : R → Prop) (h : P → R → Prop) : Prop := ∀ r, S r → ∃! p, h p r

/-- The resource `r` leaves `p`; nothing else changes. -/
def Leaves (r : R) (p : P) (h h' : P → R → Prop) : Prop :=
  ∀ p' r', h' p' r' ↔ h p' r' ∧ ¬ (p' = p ∧ r' = r)

/-- The resource `r` lands in `p`; nothing else changes. -/
def Lands (r : R) (p : P) (h h' : P → R → Prop) : Prop :=
  ∀ p' r', h' p' r' ↔ h p' r' ∨ (p' = p ∧ r' = r)

theorem Exclusive.eq (hx : Exclusive S h) (hr : S r) (hp : h p r) (hq : h q r) : p = q :=
  (hx r hr).unique hp hq

theorem Leaves.gone (hx : Exclusive S h) (hr : S r) (hp : h p r) (hl : Leaves r p h h₁) :
    ¬ h₁ q r := by
  intro hq
  obtain ⟨h1, h2⟩ := (hl q r).mp hq
  exact h2 ⟨hx.eq hr h1 hp, rfl⟩

theorem Leaves.lands (hx : Exclusive S h) (hr : S r) (hp : h p r) (hl : Leaves r p h h₁)
    (hq : Lands r q h₁ h₂) (p' : P) : h₂ p' r ↔ p' = q := by
  rw [hq]
  constructor
  · rintro (h1 | ⟨h1, _⟩)
    · exact absurd h1 (hl.gone hx hr hp)
    · exact h1
  · exact fun e => Or.inr ⟨e, rfl⟩

theorem Leaves.lands_other (hl : Leaves r p h h₁) (hq : Lands r q h₁ h₂) {r' : R} (hr : r' ≠ r)
    (p' : P) : h₂ p' r' ↔ h p' r' := by
  rw [hq, hl]
  simp [hr]

/-- **Moving a resource keeps custody exclusive.** -/
theorem Exclusive.move (hx : Exclusive S h) (hr : S r) (hp : h p r) (hl : Leaves r p h h₁)
    (hq : Lands r q h₁ h₂) : Exclusive S h₂ := by
  intro r' hr'
  by_cases he : r' = r
  · subst he
    have hmoved := hl.lands hx hr hp hq
    exact ⟨q, (hmoved q).mpr rfl, fun p' => (hmoved p').mp⟩
  · have hstay := hl.lands_other hq he
    obtain ⟨p₀, h1, h2⟩ := hx r' hr'
    exact ⟨p₀, (hstay p₀).mpr h1, fun p' hp' => h2 p' ((hstay p').mp hp')⟩

theorem Exclusive.congr (hx : Exclusive S h) (hh : ∀ p r, h₁ p r ↔ h p r) : Exclusive S h₁ := by
  intro r hr
  obtain ⟨p, h1, h2⟩ := hx r hr
  exact ⟨p, (hh p r).mpr h1, fun p' hp' => h2 p' ((hh p' r).mp hp')⟩

/-- **Finer places**: every keeper of the finer kind belongs to one of the coarser kind, and one
keeper of the coarser kind has one of the finer kind for each of its resources. -/
theorem Exclusive.refine {Q : Type*} {h' : Q → R → Prop} (hx : Exclusive S h) (f : Q → R → P)
    (hf : ∀ q r, S r → h' q r → h (f q r) r)
    (hinj : ∀ q q' r, S r → h' q r → h' q' r → f q r = f q' r → q = q')
    (hsurj : ∀ p r, S r → h p r → ∃ q, h' q r) : Exclusive S h' := by
  intro r hr
  obtain ⟨p, hp, hp'⟩ := hx r hr
  obtain ⟨q, hq⟩ := hsurj p r hr hp
  refine ⟨q, hq, fun q' hq' => hinj q' q r hr hq' hq ?_⟩
  rw [hp' _ (hf q' r hr hq'), hp' _ (hf q r hr hq)]

/-! ## Counting -/

/-- The resources that are kept in the places of `C`. -/
def inside (S : R → Prop) (h : P → R → Prop) (C : Set P) : Set R := {r | S r ∧ ∃ p ∈ C, h p r}

theorem Exclusive.ncard_inside_union (hx : Exclusive S h) (hfin : {r | S r}.Finite) {C D : Set P}
    (hCD : ∀ p ∈ C, p ∉ D) :
    (inside S h (C ∪ D)).ncard = (inside S h C).ncard + (inside S h D).ncard := by
  have hsub : ∀ C, inside S h C ⊆ {r | S r} := fun C r hr => hr.1
  have hunion : inside S h (C ∪ D) = inside S h C ∪ inside S h D := by
    ext r
    constructor
    · rintro ⟨hr, p, hp | hp, hh⟩
      · exact Or.inl ⟨hr, p, hp, hh⟩
      · exact Or.inr ⟨hr, p, hp, hh⟩
    · rintro (⟨hr, p, hp, hh⟩ | ⟨hr, p, hp, hh⟩)
      · exact ⟨hr, p, Or.inl hp, hh⟩
      · exact ⟨hr, p, Or.inr hp, hh⟩
  rw [hunion]
  refine Set.ncard_union_eq ?_ (hfin.subset (hsub C)) (hfin.subset (hsub D))
  rw [Set.disjoint_left]
  rintro r ⟨hr, p, hp, hh⟩ ⟨_, q, hq, hh'⟩
  exact hCD p hp (hx.eq hr hh hh' ▸ hq)

theorem Exclusive.ncard_keepers (hx : Exclusive S h) {C : Set P} (f : P → R)
    (hf : ∀ p ∈ C, S (f p)) (hf' : ∀ p ∈ C, ∀ r, S r → (h p r ↔ r = f p)) :
    (inside S h C).ncard = C.ncard := by
  have himage : inside S h C = f '' C := by
    ext r
    constructor
    · rintro ⟨hr, p, hp, hh⟩
      exact ⟨p, hp, ((hf' p hp r hr).mp hh).symm⟩
    · rintro ⟨p, hp, rfl⟩
      exact ⟨hf p hp, p, hp, (hf' p hp _ (hf p hp)).mpr rfl⟩
  rw [himage]
  refine Set.InjOn.ncard_image fun p hp q hq hpq => ?_
  refine hx.eq (hf p hp) ((hf' p hp _ (hf p hp)).mpr rfl) ?_
  rw [hpq]
  exact (hf' q hq _ (hf q hq)).mpr rfl

end Custody
