import Mathlib.Tactic.TypeStar

/-!
# Runs of a deterministic machine

A machine is a partial function `step : σ → ε → Option σ`; `none` means that the event cannot
happen.

* `run`: the state after a list of events; `run_concat`: one more event.
* `Always`: a property of all the states of a run; `EveryStep`: a condition on all its steps.
* **`always_iff_everyStep`**: if each step keeps the property exactly when it meets the condition,
  then so does each run.
-/

namespace Runs

variable {σ ε : Type*} {step : σ → ε → Option σ}

/-- The state after a list of events. -/
def run (step : σ → ε → Option σ) : σ → List ε → Option σ
  | s, [] => some s
  | s, e :: es => (step s e).bind fun s' => run step s' es

theorem run_append {es' : List ε} : ∀ {es : List ε} {s : σ},
    run step s (es ++ es') = (run step s es).bind fun s' => run step s' es'
  | [], _ => rfl
  | e :: es, s => by
    rw [List.cons_append, run, run, Option.bind_assoc]
    exact congrArg _ (funext fun _ => run_append)

theorem run_concat {es : List ε} {e : ε} {s s' : σ} :
    run step s (es ++ [e]) = some s' ↔ ∃ s₁, run step s es = some s₁ ∧ step s₁ e = some s' := by
  rw [run_append, Option.bind_eq_some_iff]
  simp only [run, Option.bind_fun_some]

/-- `P` holds in every state of the run. -/
def Always (step : σ → ε → Option σ) (P : σ → Prop) : σ → List ε → Prop
  | s, [] => P s
  | s, e :: es => P s ∧ ∀ s', step s e = some s' → Always step P s' es

/-- Every step of the run meets the condition `C`. -/
def EveryStep (step : σ → ε → Option σ) (C : σ → ε → Prop) : σ → List ε → Prop
  | _, [] => True
  | s, e :: es => ∀ s', step s e = some s' → C s e ∧ EveryStep step C s' es

theorem Always.head {P : σ → Prop} : ∀ {es : List ε} {s : σ}, Always step P s es → P s
  | [], _, h => h
  | _ :: _, _, h => h.1

theorem Always.rest {P : σ → Prop} {es' : List ε} : ∀ {es : List ε} {s s' : σ},
    Always step P s (es ++ es') → run step s es = some s' → Always step P s' es'
  | [], _, _, h, hrun => Option.some.inj hrun ▸ h
  | _ :: _, _, _, h, hrun => by
    obtain ⟨s₁, hstep, hrun⟩ := Option.bind_eq_some_iff.mp hrun
    exact (h.2 s₁ hstep).rest hrun

theorem EveryStep.concat {C : σ → ε → Prop} {e : ε} : ∀ {es : List ε} {s : σ},
    EveryStep step C s (es ++ [e]) → EveryStep step C s es ∧
      ∀ s₁ s', run step s es = some s₁ → step s₁ e = some s' → C s₁ e
  | [], _, h => by
    refine ⟨trivial, fun s₁ s' hrun hstep => ?_⟩
    obtain rfl := Option.some.inj hrun
    exact (h s' hstep).1
  | _ :: _, _, h => by
    refine ⟨fun s' hstep => ⟨(h s' hstep).1, (h s' hstep).2.concat.1⟩, fun s₁ s' hrun hstep => ?_⟩
    obtain ⟨s₂, hfirst, hrest⟩ := Option.bind_eq_some_iff.mp hrun
    exact (h s₂ hfirst).2.concat.2 s₁ s' hrest hstep

instance decidableEveryStep {C : σ → ε → Prop} [∀ s e, Decidable (C s e)] :
    ∀ (es : List ε) (s : σ), Decidable (EveryStep step C s es)
  | [], _ => .isTrue trivial
  | e :: es, s =>
    match h : step s e with
    | none => .isTrue fun s' hs' => by
      rw [h] at hs'
      cases hs'
    | some s' =>
      have : Decidable (EveryStep step C s' es) := decidableEveryStep es s'
      decidable_of_iff (C s e ∧ EveryStep step C s' es)
        ⟨fun hc s₁ hs₁ => by
          rw [h] at hs₁
          exact Option.some.inj hs₁ ▸ hc, fun hc => hc s' h⟩

/-- If, under an invariant, a step keeps the property exactly when it meets the condition, then a
run has the property throughout exactly when all its steps meet the condition. -/
theorem always_iff_everyStep {I P : σ → Prop} {C : σ → ε → Prop}
    (hI : ∀ s e s', I s → step s e = some s' → I s')
    (hP : ∀ s e s', I s → P s → step s e = some s' → (P s' ↔ C s e)) :
    ∀ (es : List ε) {s : σ}, I s → P s → (Always step P s es ↔ EveryStep step C s es)
  | [], _, _, h => ⟨fun _ => trivial, fun _ => h⟩
  | e :: es, s, hi, h => by
    constructor
    · intro halways s' hstep
      have hs' := halways.2 s' hstep
      exact ⟨(hP s e s' hi h hstep).mp hs'.head,
        (always_iff_everyStep hI hP es (hI s e s' hi hstep) hs'.head).mp hs'⟩
    · intro hevery
      refine ⟨h, fun s' hstep => ?_⟩
      obtain ⟨hc, hrest⟩ := hevery s' hstep
      exact (always_iff_everyStep hI hP es (hI s e s' hi hstep)
        ((hP s e s' hi h hstep).mpr hc)).mpr hrest

theorem always_of_everyStep {I P : σ → Prop} {C : σ → ε → Prop}
    (hI : ∀ s e s', I s → C s e → step s e = some s' → I s') (hP : ∀ s, I s → P s) :
    ∀ (es : List ε) {s : σ}, I s → EveryStep step C s es → Always step P s es
  | [], s, hi, _ => hP s hi
  | e :: es, s, hi, hevery => by
    refine ⟨hP s hi, fun s' hstep => ?_⟩
    obtain ⟨hc, hrest⟩ := hevery s' hstep
    exact always_of_everyStep hI hP es (hI s e s' hi hc hstep) hrest

theorem everyStep_of_forall {C : σ → ε → Prop} : ∀ {es : List ε} (s : σ),
    (∀ s, ∀ e ∈ es, C s e) → EveryStep step C s es
  | [], _, _ => trivial
  | _ :: _, s, h => fun s' _ => ⟨h s _ List.mem_cons_self,
    everyStep_of_forall s' fun s e he => h s e (List.mem_cons_of_mem _ he)⟩

theorem EveryStep.imp {I : σ → Prop} {C C' : σ → ε → Prop} : ∀ {es : List ε} {s : σ},
    EveryStep step C s es →
    (∀ s, ∀ e ∈ es, ∀ s', I s → step s e = some s' → C s e → C' s e ∧ I s') → I s →
      EveryStep step C' s es
  | [], _, _, _, _ => trivial
  | e :: es, s, h, himp, hi => fun s' hstep => by
    obtain ⟨hc, hrest⟩ := h s' hstep
    obtain ⟨hc', hi'⟩ := himp s e List.mem_cons_self s' hi hstep hc
    exact ⟨hc', hrest.imp (fun s e he => himp s e (List.mem_cons_of_mem _ he)) hi'⟩

end Runs
