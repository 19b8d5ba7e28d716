import Adnihilum.Client.Page
import Adnihilum.Client.RoundTrip

/-!
# The first scrub of the receiving page

`bindSensitiveUiScrubbing` has a frame callback run `scrubSensitiveUi` once, at any time after the
page asked for the secret.

* `Page.Good`: what holds on the page in every run.
* `SecretKept`: a delivered secret is in the text output, or pending until a call decrypted it.
* **`secretKept_iff`**: that is so throughout a run exactly when no step of it is a callback that
  scrubs a delivered secret.
-/

namespace Adnihilum.Client

open Runs

/-- What holds of the page in every run. -/
structure Page.Good (p : Page) : Prop where
  pending : ∀ r, p.pendingSecret = some r →
    p.receiving = .returned (some (.ok (.pending (p.objects r)))) ∧
      ∀ c plaintext, p.calls c ≠ .returned (some plaintext)
  card : p.cardVisible = true → p.pendingSecret ≠ none
  calls : ∀ c, p.calls c ≠ .idle →
    ∃ pending, p.receiving = .returned (some (.ok (.pending pending)))
  tone : ∀ payload, p.receiving = .returned (some (.ok (.text payload))) → p.tone = .plain

/-- A plain secret that was obtained is displayed, and one under a password is pending, as it was
obtained, until a call has decrypted it. -/
structure SecretKept (w : Web) (p : Page) : Prop where
  plain : ∀ payload, p.receiving = .returned (some (.ok (.text payload))) → p.text = w.decode payload
  pending : ∀ pending, p.receiving = .returned (some (.ok (.pending pending))) →
    (∀ c plaintext, p.calls c ≠ .returned (some plaintext)) →
      ∃ r, p.pendingSecret = some r ∧ p.objects r = pending

/-- The callback does not run when a plain secret is displayed, nor while a secret is pending. -/
def ScrubHarmless (w : Web) (p : Page) (e : Event) : Prop :=
  e = .frame → p.pendingSecret = none ∧
    ∀ payload, p.receiving = .returned (some (.ok (.text payload))) → w.decode payload = []

namespace Page

variable {w : Web} {p p' : Page}

theorem Good.waiting (h : p.Good) (hr : p.receiving.Awaits) :
    p.pendingSecret = none ∧ ∀ c, p.calls c = .idle := by
  constructor
  · cases hp : p.pendingSecret with
    | none => rfl
    | some r => exact absurd (h.pending r hp).1 (hr _)
  · intro c
    apply not_not.mp
    intro hc
    obtain ⟨pending, hrec⟩ := h.calls c hc
    exact hr _ hrec

theorem receiveFailed_good (w : Web) (err : JsError) (hcalls : ∀ c, p.calls c = .idle) :
    (p.receiveFailed w err).Good where
  pending r hr := by
    simp only [receiveFailed, clearPendingSecret_pendingSecret] at hr
    cases hr
  card hc := by
    simp only [receiveFailed, clearPendingSecret_cardVisible] at hc
    cases hc
  calls c hc := by
    simp only [receiveFailed, clearPendingSecret_calls] at hc
    exact absurd (hcalls c) hc
  tone payload hr := by cases hr

theorem receiveOpened_good (w : Web) (o : Opened)
    (hcard : p.cardVisible = true → p.pendingSecret ≠ none)
    (hpending : p.pendingSecret = none) (hcalls : ∀ c, p.calls c = .idle) :
    (p.receiveOpened w o).Good := by
  cases o with
  | text payload =>
    refine ⟨fun r hr => ?_, fun hc => ?_, fun c hc => ?_, fun _ _ => rfl⟩
    · rw [show (p.receiveOpened w (.text payload)).pendingSecret = p.pendingSecret from rfl,
        hpending] at hr
      cases hr
    · exact hcard hc
    · exact absurd (hcalls c) hc
  | pending pending =>
    refine ⟨fun r hr => ?_, fun _ h => (by cases h), fun c hc => ?_, fun payload hr => (by cases hr)⟩
    · obtain rfl := Option.some.inj hr
      refine ⟨?_, fun c plaintext h => ?_⟩
      · show Receiving.returned (some (.ok (.pending pending))) =
          .returned (some (.ok (.pending (Function.update p.objects p.made pending p.made))))
        rw [Function.update_self]
      · rw [show (p.receiveOpened w (.pending pending)).calls c = p.calls c from rfl, hcalls c] at h
        cases h
    · exact absurd (hcalls c) hc

theorem Receives.good (h : p.Good) (hr : p.receiving.Awaits) (hp' : Receives w p p') : p'.Good := by
  obtain ⟨hpending, hcalls⟩ := h.waiting hr
  rcases hp' with ⟨err, rfl⟩ | ⟨r, hr', rfl⟩ | ⟨o, rfl⟩
  · exact receiveFailed_good w err hcalls
  · refine ⟨fun r hr => ?_, h.card, fun c hc => absurd (hcalls c) hc, fun payload hx =>
      absurd hx (hr' _)⟩
    have hsome : p.pendingSecret = some r := hr
    rw [hpending] at hsome
    cases hsome
  · exact receiveOpened_good w o h.card hpending hcalls

theorem setCall_good (h : p.Good) {pending : Pending} {c : ℕ} {call : Calling}
    (hr : p.receiving = .returned (some (.ok (.pending pending))))
    (hcall : ∀ plaintext, call ≠ .returned (some plaintext)) (text : List Char) (tone : Tone) :
    ((p.setViewerText text tone).setCall c call).Good := by
  refine ⟨fun r hp => ⟨(h.pending r hp).1, fun c' plaintext hc' => ?_⟩, h.card,
    fun _ _ => ⟨pending, hr⟩, fun payload ht => ?_⟩
  · by_cases hcc : c' = c
    · subst hcc
      exact hcall plaintext (by simpa [setCall, setViewerText] using hc')
    · refine (h.pending r hp).2 c' plaintext ?_
      simpa [setCall, setViewerText, hcc] using hc'
  · have ht' : p.receiving = .returned (some (.ok (.text payload))) := ht
    rw [hr] at ht'
    cases ht'

theorem submit_good (h : p.Good) (w : Web) (c : ℕ) (hcard : p.cardVisible = true) :
    (p.submit w c).Good := by
  obtain ⟨r, hr⟩ := Option.ne_none_iff_exists'.mp (h.card hcard)
  have hrec := (h.pending r hr).1
  unfold submit
  rw [hr]
  simp only
  split_ifs
  · exact setCall_good h hrec (fun _ h => (by cases h)) p.text p.tone
  · exact setCall_good h hrec (fun _ h => (by cases h)) _ _

theorem callDecrypted_good (h : p.Good) {c : ℕ} (hc : p.calls c ≠ .idle) (plaintext : List UInt8) :
    (p.callDecrypted w c plaintext).Good := by
  obtain ⟨pending, hr⟩ := h.calls c hc
  have hrec : (p.callDecrypted w c plaintext).receiving = p.receiving := by
    simp [callDecrypted, setCall, setDecryptionCardVisible, setViewerText]
  refine ⟨fun r hp => ?_, fun hcard => ?_, fun _ _ => ⟨pending, hrec.trans hr⟩, fun payload ht => ?_⟩
  · simp only [callDecrypted, setCall, clearPendingSecret_pendingSecret] at hp
    cases hp
  · simp only [callDecrypted, setCall, clearPendingSecret_cardVisible] at hcard
    cases hcard
  · rw [hrec, hr] at ht
    cases ht

theorem Settles.good (h : p.Good) {c : ℕ} (hc : p.calls c ≠ .idle) (hp' : Settles w c p p') :
    p'.Good := by
  obtain ⟨pending, hr⟩ := h.calls c hc
  cases hp' with
  | failed => exact setCall_good h hr (fun _ h => (by cases h)) _ _
  | derive => exact setCall_good h hr (fun _ h => (by cases h)) p.text p.tone
  | decrypt => exact setCall_good h hr (fun _ h => (by cases h)) p.text p.tone
  | decrypted => exact callDecrypted_good h hc _

theorem scrub_good (h : p.Good) : ({ p.scrubSensitiveUi with scrubQueued := false } : Page).Good := by
  refine ⟨fun r hp => ?_, fun hcard => ?_, fun c hc => ?_, fun payload ht => ?_⟩
  · simp only [scrubSensitiveUi_pendingSecret] at hp
    cases hp
  · simp only [scrubSensitiveUi_cardVisible] at hcard
    cases hcard
  · simp only [scrubSensitiveUi_calls, scrubSensitiveUi_receiving] at hc ⊢
    exact h.calls c hc
  · simp only [scrubSensitiveUi_receiving, scrubSensitiveUi_tone] at ht ⊢
    exact h.tone payload ht

theorem step_good {e : Event} (h : p.Good) (hstep : p.step w e = some p') : p'.Good := by
  cases e with
  | frame =>
    obtain ⟨-, hp'⟩ := Option.ite_none_right_eq_some.mp hstep
    obtain rfl := Option.some.inj hp'
    exact scrub_good h
  | answer r =>
    obtain ⟨hr, hp'⟩ := answered_cases hstep
    exact Receives.good h hr hp'
  | resume err =>
    obtain ⟨hr, hp'⟩ := resume_cases hstep
    exact Receives.good h hr hp'
  | input value =>
    obtain rfl := Option.some.inj hstep
    exact ⟨h.pending, h.card, h.calls, h.tone⟩
  | submit c =>
    obtain ⟨⟨hcard, -⟩, hp'⟩ := Option.ite_none_right_eq_some.mp hstep
    obtain rfl := Option.some.inj hp'
    exact submit_good h w c hcard
  | settle c err =>
    obtain ⟨hc, hp'⟩ := settle_cases hstep
    exact Settles.good h hc.1 hp'

theorem load_good (w : Web) (hash initial : List Char) : (load w hash initial).Good := by
  obtain ⟨hpending, hcard, hcalls, hrec⟩ := load_cases w hash initial
  refine ⟨fun r hr => ?_, fun hc => ?_, fun c hc => absurd (hcalls c) hc, fun payload hr =>
    absurd hr (hrec _)⟩
  · rw [hpending] at hr
    cases hr
  · rw [hcard] at hc
    cases hc

/-! ## The secret along a step -/

theorem Receives.secretKept (hp' : Receives w p p') : SecretKept w p' := by
  rcases hp' with ⟨err, rfl⟩ | ⟨r, hr', rfl⟩ | ⟨o, rfl⟩
  · exact ⟨fun payload h => (by cases h), fun pending h => (by cases h)⟩
  · exact ⟨fun payload h => absurd h (hr' _), fun pending h => absurd h (hr' _)⟩
  · cases o with
    | text payload =>
      refine ⟨fun payload' h => ?_, fun pending h => (by cases h)⟩
      cases h
      rfl
    | pending pending =>
      refine ⟨fun payload h => (by cases h), fun pending' h _ => ⟨p.made, rfl, ?_⟩⟩
      cases h
      exact receiveOpened_object w pending p

theorem setCall_secretKept (h : SecretKept w p) {pending : Pending} {c : ℕ} {call : Calling}
    (hr : p.receiving = .returned (some (.ok (.pending pending))))
    (hc : ∀ plaintext, p.calls c ≠ .returned (some plaintext)) (text : List Char) (tone : Tone) :
    SecretKept w ((p.setViewerText text tone).setCall c call) := by
  refine ⟨fun payload ht => ?_, fun pending' hp hcalls => h.pending pending' hp ?_⟩
  · have ht' : p.receiving = .returned (some (.ok (.text payload))) := ht
    rw [hr] at ht'
    cases ht'
  · intro c' plaintext hc'
    by_cases hcc : c' = c
    · exact hc plaintext (hcc ▸ hc')
    · refine hcalls c' plaintext ?_
      simpa [setCall, setViewerText, hcc] using hc'

theorem Settles.secretKept (h : p.Good) (hk : SecretKept w p) {c : ℕ} (hc : (p.calls c).InFlight)
    (hp' : Settles w c p p') : SecretKept w p' := by
  obtain ⟨pending, hr⟩ := h.calls c hc.1
  have hret : ∀ plaintext, p.calls c ≠ .returned (some plaintext) := fun _ => hc.2 _
  cases hp' with
  | failed => exact setCall_secretKept hk hr hret _ _
  | derive => exact setCall_secretKept hk hr hret p.text p.tone
  | decrypt => exact setCall_secretKept hk hr hret p.text p.tone
  | decrypted r passwordValue key iv aad ciphertext plaintext =>
    refine ⟨fun payload ht => ?_, fun pending' _ hcalls => ?_⟩
    · have ht' : (p.callDecrypted w c plaintext).receiving = p.receiving := by
        simp [callDecrypted, setCall, setDecryptionCardVisible, setViewerText]
      rw [ht', hr] at ht
      cases ht
    · exact absurd (Function.update_self ..) (hcalls c plaintext)

theorem submit_secretKept (h : p.Good) (hk : SecretKept w p) {c : ℕ} (hcard : p.cardVisible = true)
    (hc : p.calls c = .idle) : SecretKept w (p.submit w c) := by
  obtain ⟨r, hr⟩ := Option.ne_none_iff_exists'.mp (h.card hcard)
  have hrec := (h.pending r hr).1
  have hret : ∀ plaintext, p.calls c ≠ .returned (some plaintext) := fun _ hx => by
    rw [hc] at hx
    cases hx
  unfold submit
  rw [hr]
  simp only
  split_ifs
  · exact setCall_secretKept hk hrec hret p.text p.tone
  · exact setCall_secretKept hk hrec hret _ _

/-- **The callback loses a secret exactly when there is one to scrub.** -/
theorem scrub_secretKept_iff (h : p.Good) (hk : SecretKept w p) :
    SecretKept w { p.scrubSensitiveUi with scrubQueued := false } ↔ ScrubHarmless w p .frame := by
  constructor
  · intro hk' _
    constructor
    · cases hp : p.pendingSecret with
      | none => rfl
      | some r =>
        obtain ⟨hrec, hcalls⟩ := h.pending r hp
        obtain ⟨r', hr', -⟩ := hk'.pending (p.objects r) (by simpa using hrec)
          (fun c plaintext => by simpa using hcalls c plaintext)
        simp only [scrubSensitiveUi_pendingSecret] at hr'
        cases hr'
    · intro payload ht
      have htext := hk'.plain payload (by simpa using ht)
      simp only [scrubSensitiveUi_text, h.tone payload ht, hk.plain payload ht] at htext
      by_contra hne
      rw [if_pos ⟨hne, trivial⟩] at htext
      exact hne htext.symm
  · intro hsafe
    obtain ⟨hpending, hplain⟩ := hsafe rfl
    refine ⟨fun payload ht => ?_, fun pending hp hcalls => ?_⟩
    · simp only [scrubSensitiveUi_receiving] at ht
      simp only [scrubSensitiveUi_text, hk.plain payload ht, hplain payload ht]
      exact if_neg fun h => h.1 rfl
    · simp only [scrubSensitiveUi_receiving] at hp
      obtain ⟨r, hr, -⟩ := hk.pending pending hp fun c plaintext hx =>
        hcalls c plaintext (by simpa using hx)
      rw [hpending] at hr
      cases hr

theorem step_secretKept_iff {e : Event} (h : p.Good) (hk : SecretKept w p)
    (hstep : p.step w e = some p') : SecretKept w p' ↔ ScrubHarmless w p e := by
  have other : e ≠ .frame → SecretKept w p' → (SecretKept w p' ↔ ScrubHarmless w p e) :=
    fun he hk' => ⟨fun _ hframe => absurd hframe he, fun _ => hk'⟩
  cases e with
  | frame =>
    obtain ⟨-, hp'⟩ := Option.ite_none_right_eq_some.mp hstep
    obtain rfl := Option.some.inj hp'
    exact scrub_secretKept_iff h hk
  | answer r =>
    exact other (fun he => (by cases he)) (Receives.secretKept (answered_cases hstep).2)
  | resume err =>
    exact other (fun he => (by cases he)) (Receives.secretKept (resume_cases hstep).2)
  | input value =>
    obtain rfl := Option.some.inj hstep
    exact other (fun he => (by cases he)) ⟨hk.plain, hk.pending⟩
  | submit c =>
    obtain ⟨⟨hcard, hc⟩, hp'⟩ := Option.ite_none_right_eq_some.mp hstep
    obtain rfl := Option.some.inj hp'
    exact other (fun he => (by cases he)) (submit_secretKept h hk hcard hc)
  | settle c err =>
    obtain ⟨hc, hp'⟩ := settle_cases hstep
    exact other (fun he => (by cases he)) (Settles.secretKept h hk hc hp')

theorem load_secretKept (w : Web) (hash initial : List Char) :
    SecretKept w (load w hash initial) := by
  obtain ⟨-, -, -, hrec⟩ := load_cases w hash initial
  exact ⟨fun payload h => absurd h (hrec _), fun pending h => absurd h (hrec _)⟩

end Page

/-- **No secret is lost between fetch and display, exactly when the callback scrubs none.** For
every link and every order of events from the loading of the page on. -/
theorem secretKept_iff (w : Web) (hash initial : List Char) (es : List Event) :
    Always (fun p => p.step w) (SecretKept w) (Page.load w hash initial) es ↔
      EveryStep (fun p => p.step w) (ScrubHarmless w) (Page.load w hash initial) es :=
  always_iff_everyStep (fun _ _ _ h hstep => Page.step_good h hstep)
    (fun _ _ _ h hk hstep => Page.step_secretKept_iff h hk hstep) es
    (Page.load_good w hash initial) (Page.load_secretKept w hash initial)

/-- The page at the link to the plain demo secret obtains the secret, then the callback runs. -/
def demoScrub : List Event :=
  .answer (.ok (demoResponse [])) :: List.replicate 5 (.resume none) ++ [.frame]

/-- **A late callback loses a plain secret.** -/
theorem late_scrub_loses_secret :
    ¬ Always (fun p => p.step demoWeb) (SecretKept demoWeb) (Page.load demoWeb demoHash [])
      demoScrub := by
  intro halways
  obtain ⟨url, res, hres, hrun⟩ := Page.run_receive (demo_receive []) []
  obtain rfl := Except.ok.inj hres
  have hlast := halways.rest (hrun _ rfl)
  rw [if_pos rfl] at hlast
  have hkept := hlast.2 _ (Page.step_frame (Page.load_scrubQueued demoWeb demoHash []))
  have htext := hkept.plain [104, 105] (by rw [Page.scrubSensitiveUi_receiving]; rfl)
  rw [Page.scrubSensitiveUi_text, if_pos ⟨by decide, rfl⟩] at htext
  cases htext

end Adnihilum.Client
