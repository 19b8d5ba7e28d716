import Adnihilum.Client.Page
import Adnihilum.Client.RoundTrip

/-!
# Overlapping password attempts

A pending secret can be submitted any number of times while its card is visible, and the attempts
share it by reference.

* `Ready`: a page with a pending secret, before any attempt.
* `SecretSafe`: a new attempt with the right password would still display the secret, and once it is
  displayed it stays.
* `InTime`: when an attempt succeeds, the others are as good as done with the right password.
* **`attempts_safe`**: in a run whose steps are all in time, the secret is safe throughout.
-/

namespace Adnihilum.Client

open Runs

/-- The page has the secret `pending` at reference `r`, and nothing else is going on. -/
structure Ready (pending : Pending) (r : ℕ) (p : Page) : Prop where
  pendingSecret : p.pendingSecret = some r
  object : p.objects r = pending
  card : p.cardVisible = true
  scrubbed : p.scrubQueued = false
  received : ∃ x, p.receiving = .returned x
  idle : ∀ c, p.calls c = .idle

/-- The events of one attempt: the password is typed and submitted, and three promises are
fulfilled. -/
def attempt (passwordValue : List Char) (c : ℕ) : List Event :=
  [.input passwordValue, .submit c, .settle c none, .settle c none, .settle c none]

/-- Until an attempt has succeeded, one with the right password would; from then on the secret `m`
is displayed. -/
structure SecretSafe (w : Web) (pending : Pending) (m : List UInt8) (p : Page) : Prop where
  usable : (∀ c plaintext, p.calls c ≠ .returned (some plaintext)) →
    ∀ passwordValue c, decryptPending w pending passwordValue = .ok m → passwordValue ≠ [] →
      p.calls c = .idle → ∃ p', run (fun p => p.step w) p (attempt passwordValue c) = some p' ∧
        p'.text = w.decode m ∧ p'.tone = .plain
  shown : (∃ c plaintext, p.calls c = .returned (some plaintext)) →
    p.text = w.decode m ∧ p.tone = .plain

/-- The call waits for `decrypt`, and its password is right. -/
def Decrypting (w : Web) (pending : Pending) (call : Calling) : Prop :=
  ∃ r passwordValue key iv aad ciphertext m,
    call = .decrypt r passwordValue key iv aad ciphertext ∧
      decryptPending w pending passwordValue = .ok m

instance : DecidablePred Calling.InFlight
  | .idle => .isFalse fun h => h.1 rfl
  | .importKey .. | .deriveKey .. | .decrypt .. => .isTrue ⟨nofun, nofun⟩
  | .returned plaintext => .isFalse fun h => h.2 plaintext rfl

instance (w : Web) (pending : Pending) : DecidablePred (Decrypting w pending)
  | .decrypt r passwordValue key iv aad ciphertext =>
    match h : decryptPending w pending passwordValue with
    | .ok m => .isTrue ⟨r, passwordValue, key, iv, aad, ciphertext, m, rfl, h⟩
    | .error _ => .isFalse fun ⟨_, _, _, _, _, _, _, hcall, hok⟩ => by
      cases hcall
      rw [h] at hok
      cases hok
  | .idle | .importKey .. | .deriveKey .. | .returned _ =>
    .isFalse fun ⟨_, _, _, _, _, _, _, hcall, _⟩ => nomatch hcall

/-- When a call with the right password is about to succeed, every call in flight waits for
`decrypt` with a right password. -/
def InTime (w : Web) (pending : Pending) (p : Page) (e : Event) : Prop :=
  ∀ c err, e = .settle c err → Decrypting w pending (p.calls c) →
    ∀ c', (p.calls c').InFlight → Decrypting w pending (p.calls c')

/-- The call works on the secret as it was received, and did not display anything. -/
def Trying (w : Web) (pending : Pending) (r : ℕ) : Calling → Prop
  | .idle => True
  | .importKey r' _ => r' = r
  | .deriveKey r' passwordValue key =>
    r' = r ∧ key = derivePasswordKey w.crypto passwordValue pending.salt
  | .decrypt r' passwordValue key iv aad ciphertext =>
    r' = r ∧ key = derivePasswordKey w.crypto passwordValue pending.salt ∧ iv = pending.nonce ∧
      aad = idAad pending.id ∧ ciphertext = pending.ciphertext
  | .returned plaintext => plaintext = none

/-- The attempts before and after the first success. -/
inductive Attempts (w : Web) (pending : Pending) (m : List UInt8) (r : ℕ) (p : Page) : Prop
  | waiting (hp : p.pendingSecret = some r) (ho : p.objects r = pending) (hcard : p.cardVisible = true)
      (htrying : ∀ c, Trying w pending r (p.calls c))
  | shown (hcard : p.cardVisible = false) (htext : p.text = w.decode m) (htone : p.tone = .plain)
      (hdone : ∃ c, p.calls c = .returned (some m))
      (hrest : ∀ c, (p.calls c).InFlight →
        Decrypting w pending (p.calls c) ∧ Trying w pending r (p.calls c))

namespace Page

variable {w : Web} {pending : Pending} {m : List UInt8} {r : ℕ} {p p' : Page}

theorem Trying.decrypt_eq {r' : ℕ} {passwordValue : List Char} {key iv aad ciphertext : List UInt8}
    (h : Trying w pending r (.decrypt r' passwordValue key iv aad ciphertext)) :
    w.crypto.decrypt key iv aad ciphertext = decryptPending w pending passwordValue := by
  obtain ⟨-, rfl, rfl, rfl, rfl⟩ := h
  rfl

theorem trying_update (h : ∀ c, Trying w pending r (p.calls c)) (c : ℕ) {call : Calling}
    (hcall : Trying w pending r call) (c' : ℕ) :
    Trying w pending r (Function.update p.calls c call c') := by
  by_cases hc : c' = c
  · rw [hc, Function.update_self]
    exact hcall
  · rw [Function.update_of_ne hc]
    exact h c'

theorem callDecrypted_shown (w : Web) (c : ℕ) (m : List UInt8) (p : Page) :
    (p.callDecrypted w c m).cardVisible = false ∧ (p.callDecrypted w c m).text = w.decode m ∧
      (p.callDecrypted w c m).tone = .plain ∧
        (p.callDecrypted w c m).calls = Function.update p.calls c (.returned (some m)) := by
  simp [callDecrypted, setCall, setDecryptionCardVisible, setViewerText]

theorem Settles.waiting (hm : ∀ passwordValue m', decryptPending w pending passwordValue = .ok m' →
    m' = m) {c : ℕ} {err : Option JsError} (hp : p.pendingSecret = some r)
    (ho : p.objects r = pending) (hcard : p.cardVisible = true)
    (htrying : ∀ c, Trying w pending r (p.calls c)) (hin : InTime w pending p (.settle c err))
    (hp' : Settles w c p p') : Attempts w pending m r p' := by
  have htc := htrying c
  cases hp' with
  | failed => exact .waiting hp ho hcard (trying_update htrying c rfl)
  | derive r' passwordValue hc =>
    rw [hc] at htc
    obtain rfl : r' = r := htc
    exact .waiting hp ho hcard (trying_update htrying c ⟨rfl, by rw [ho]⟩)
  | decrypt r' passwordValue key hc =>
    rw [hc] at htc
    obtain ⟨rfl, rfl⟩ := htc
    rw [ho]
    exact .waiting hp ho hcard (trying_update htrying c ⟨rfl, rfl, rfl, rfl, rfl⟩)
  | decrypted r' passwordValue key iv aad ciphertext plaintext hc hok =>
    rw [hc] at htc
    rw [Trying.decrypt_eq htc] at hok
    obtain rfl := hm _ _ hok
    obtain ⟨hcard', htext, htone, hcalls⟩ := callDecrypted_shown w c plaintext p
    refine .shown hcard' htext htone ⟨c, by rw [hcalls, Function.update_self]⟩ fun c' hc' => ?_
    rw [hcalls] at hc' ⊢
    by_cases hcc : c' = c
    · rw [hcc, Function.update_self] at hc'
      exact absurd rfl (hc'.2 _)
    · rw [Function.update_of_ne hcc] at hc' ⊢
      exact ⟨hin c err rfl ⟨r', passwordValue, key, iv, aad, ciphertext, plaintext, hc, hok⟩ c' hc',
        htrying c'⟩

theorem Settles.shown (hm : ∀ passwordValue m', decryptPending w pending passwordValue = .ok m' →
    m' = m) {c : ℕ} (hc : (p.calls c).InFlight)
    (hrest : ∀ c, (p.calls c).InFlight →
      Decrypting w pending (p.calls c) ∧ Trying w pending r (p.calls c))
    (hp' : Settles w c p p') : Attempts w pending m r p' := by
  obtain ⟨⟨r', passwordValue, key, iv, aad, ciphertext, m', hcall, hopen⟩, htc⟩ := hrest c hc
  rw [hcall] at htc
  have hdec := (Trying.decrypt_eq htc).trans hopen
  cases hp' with
  | failed h => exact absurd hdec (h _ _ _ _ _ _ _ hcall)
  | derive _ _ hc' =>
    rw [hcall] at hc'
    cases hc'
  | decrypt _ _ _ hc' =>
    rw [hcall] at hc'
    cases hc'
  | decrypted _ _ _ _ _ _ plaintext hc' hok =>
    rw [hcall] at hc'
    cases hc'
    rw [hdec] at hok
    obtain rfl := Except.ok.inj hok
    obtain rfl := hm _ _ hopen
    obtain ⟨hcard', htext, htone, hcalls⟩ := callDecrypted_shown w c m' p
    refine .shown hcard' htext htone ⟨c, by rw [hcalls, Function.update_self]⟩ fun c' hc' => ?_
    rw [hcalls] at hc' ⊢
    by_cases hcc : c' = c
    · rw [hcc, Function.update_self] at hc'
      exact absurd rfl (hc'.2 _)
    · rw [Function.update_of_ne hcc] at hc' ⊢
      exact hrest c' hc'

theorem submit_calls_of_ne (w : Web) {c c' : ℕ} (hc : c' ≠ c) :
    (p.submit w c).calls c' = p.calls c' := by
  unfold submit
  cases p.pendingSecret with
  | none => exact Function.update_of_ne hc _ _
  | some r =>
    simp only
    split_ifs
    · exact Function.update_of_ne hc _ _
    · exact Function.update_of_ne hc _ _

theorem Settles.calls_of_ne {c c' : ℕ} (hp' : Settles w c p p') (hc : c' ≠ c) :
    p'.calls c' = p.calls c' := by
  cases hp' with
  | failed => exact Function.update_of_ne hc _ _
  | derive => exact Function.update_of_ne hc _ _
  | decrypt => exact Function.update_of_ne hc _ _
  | decrypted =>
    rw [(callDecrypted_shown w c _ p).2.2.2]
    exact Function.update_of_ne hc _ _

/-- Nothing but attempts goes on. -/
structure Quiet (p : Page) : Prop where
  scrubbed : p.scrubQueued = false
  received : ∃ x, p.receiving = .returned x

theorem submit_attempts (h : Attempts w pending m r p) {c : ℕ} (hcard : p.cardVisible = true) :
    Attempts w pending m r (p.submit w c) := by
  cases h with
  | waiting hp ho _ htrying =>
    unfold submit
    rw [hp]
    simp only
    split_ifs
    · exact .waiting hp ho hcard (trying_update htrying c rfl)
    · exact .waiting hp ho hcard (trying_update htrying c rfl)
  | shown hcard' =>
    rw [hcard] at hcard'
    cases hcard'

theorem submit_quiet (h : p.Quiet) (c : ℕ) : (p.submit w c).Quiet := by
  unfold submit
  cases p.pendingSecret with
  | none => exact ⟨h.scrubbed, h.received⟩
  | some r =>
    simp only
    split_ifs
    · exact ⟨h.scrubbed, h.received⟩
    · exact ⟨h.scrubbed, h.received⟩

theorem Settles.quiet (h : p.Quiet) {c : ℕ} (hp' : Settles w c p p') : p'.Quiet := by
  cases hp' with
  | failed => exact ⟨h.scrubbed, h.received⟩
  | derive => exact ⟨h.scrubbed, h.received⟩
  | decrypt => exact ⟨h.scrubbed, h.received⟩
  | decrypted =>
    constructor
    · simpa [callDecrypted, setCall, setDecryptionCardVisible, setViewerText] using h.scrubbed
    · simpa [callDecrypted, setCall, setDecryptionCardVisible, setViewerText] using h.received

/-- **One event keeps the attempts safe**, if it is in time. -/
theorem step_attempts (hm : ∀ passwordValue m', decryptPending w pending passwordValue = .ok m' →
    m' = m) {e : Event} (hq : p.Quiet) (h : Attempts w pending m r p) (hin : InTime w pending p e)
    (hstep : p.step w e = some p') : p'.Quiet ∧ Attempts w pending m r p' := by
  cases e with
  | frame =>
    obtain ⟨hs, -⟩ := Option.ite_none_right_eq_some.mp hstep
    rw [hq.scrubbed] at hs
    cases hs
  | answer res =>
    obtain ⟨x, hx⟩ := hq.received
    exact absurd hx ((answered_cases hstep).1 x)
  | resume err =>
    obtain ⟨x, hx⟩ := hq.received
    exact absurd hx ((resume_cases hstep).1 x)
  | input value =>
    obtain rfl := Option.some.inj hstep
    refine ⟨⟨hq.scrubbed, hq.received⟩, ?_⟩
    cases h with
    | waiting hp ho hcard htrying => exact .waiting hp ho hcard htrying
    | shown hcard htext htone hdone hrest => exact .shown hcard htext htone hdone hrest
  | submit c =>
    obtain ⟨⟨hcard, -⟩, hp'⟩ := Option.ite_none_right_eq_some.mp hstep
    obtain rfl := Option.some.inj hp'
    exact ⟨submit_quiet hq c, submit_attempts h hcard⟩
  | settle c err =>
    obtain ⟨hc, hp'⟩ := settle_cases hstep
    refine ⟨Settles.quiet hq hp', ?_⟩
    cases h with
    | waiting hp ho hcard htrying => exact Settles.waiting hm hp ho hcard htrying hin hp'
    | shown _ _ _ _ hrest => exact Settles.shown hm hc hrest hp'

theorem run_attempt (hp : p.pendingSecret = some r) (ho : p.objects r = pending)
    (hcard : p.cardVisible = true) {passwordValue : List Char} {c : ℕ}
    (hopen : decryptPending w pending passwordValue = .ok m) (hne : passwordValue ≠ [])
    (hc : p.calls c = .idle) :
    ∃ p', run (fun p => p.step w) p (attempt passwordValue c) = some p' ∧ p'.text = w.decode m ∧
      p'.tone = .plain := by
  let p₁ : Page := { p with passwordField := passwordValue }
  let p₂ : Page := (p₁.setViewerText (w.i18n "receiving_secret") .info).setCall c
    (.importKey r passwordValue)
  let key := derivePasswordKey w.crypto passwordValue pending.salt
  let p₃ : Page := p₂.setCall c (.deriveKey r passwordValue key)
  let p₄ : Page := p₃.setCall c
    (.decrypt r passwordValue key pending.nonce (idAad pending.id) pending.ciphertext)
  have h₁ : p.step w (.input passwordValue) = some p₁ := rfl
  have h₂ : p₁.step w (.submit c) = some p₂ := by
    have hsubmit : p₁.submit w c = p₂ := by
      simp only [submit, p₁, hp, if_neg hne, p₂]
    rw [← hsubmit]
    exact if_pos ⟨hcard, hc⟩
  have hc₂ : p₂.calls c = .importKey r passwordValue := Function.update_self ..
  have h₃ : p₂.step w (.settle c none) = some p₃ := by
    have ho₂ : p₂.objects r = pending := ho
    simp only [step, settle, hc₂, ho₂, p₃, key]
  have hc₃ : p₃.calls c = .deriveKey r passwordValue key := Function.update_self ..
  have h₄ : p₃.step w (.settle c none) = some p₄ := by
    have ho₃ : p₃.objects r = pending := ho
    simp only [step, settle, hc₃, ho₃, p₄]
  have hc₄ : p₄.calls c =
      .decrypt r passwordValue key pending.nonce (idAad pending.id) pending.ciphertext :=
    Function.update_self ..
  have h₅ : p₄.step w (.settle c none) = some (p₄.callDecrypted w c m) := by
    have hok : w.crypto.decrypt key pending.nonce (idAad pending.id) pending.ciphertext = .ok m :=
      hopen
    simp only [step, settle, hc₄, hok]
  obtain ⟨-, htext, htone, -⟩ := callDecrypted_shown w c m p₄
  refine ⟨p₄.callDecrypted w c m, ?_, htext, htone⟩
  simp only [attempt, run, h₁, h₂, h₃, h₄, h₅, Option.bind_some]

theorem Attempts.safe (h : Attempts w pending m r p) : SecretSafe w pending m p := by
  cases h with
  | waiting hp ho hcard htrying =>
    refine ⟨fun _ passwordValue c hopen hne hc => run_attempt hp ho hcard hopen hne hc, ?_⟩
    rintro ⟨c, plaintext, hc⟩
    have := htrying c
    rw [hc] at this
    cases this
  | shown hcard htext htone hdone =>
    obtain ⟨c, hc⟩ := hdone
    exact ⟨fun hnone => absurd hc (hnone c m), fun _ => ⟨htext, htone⟩⟩

end Page

/-- **Overlapping attempts leave the secret safe**: from a page with a pending secret that its
passwords open to `m` only, in every run whose steps are all in time. -/
theorem attempts_safe {w : Web} {pending : Pending} {m : List UInt8} {r : ℕ} {p : Page}
    (h : Ready pending r p)
    (hm : ∀ passwordValue m', decryptPending w pending passwordValue = .ok m' → m' = m)
    (es : List Event) (hin : EveryStep (fun p => p.step w) (InTime w pending) p es) :
    Always (fun p => p.step w) (SecretSafe w pending m) p es := by
  refine always_of_everyStep (I := fun p => p.Quiet ∧ Attempts w pending m r p)
    (fun p e p' hI hC hstep => Page.step_attempts hm hI.1 hI.2 hC hstep)
    (fun p hI => Page.Attempts.safe hI.2) es ⟨⟨h.scrubbed, h.received⟩, ?_⟩ hin
  exact .waiting h.pendingSecret h.object h.card fun c => by
    rw [h.idle c]
    trivial

/-! ## Runs of a page -/

/-- The page that has obtained the demo secret under the password `pw`, after the callback ran. -/
def demoReady : Page :=
  ({ (Page.load demoWeb demoHash []).scrubSensitiveUi with scrubQueued := false } : Page).receiveOpened
    demoWeb (.pending (demoPending "pw".toList))

/-- The page gets there. -/
theorem run_demoReady : run (fun p => p.step demoWeb) (Page.load demoWeb demoHash [])
    (.frame :: .answer (.ok (demoResponse "pw".toList)) :: List.replicate 5 (.resume none)) =
      some demoReady := by
  obtain ⟨url, res, hres, hrun⟩ := Page.run_receive (demo_receive "pw".toList) []
  obtain rfl := Except.ok.inj hres
  rw [run, Page.step_frame (Page.load_scrubQueued demoWeb demoHash []), Option.bind_some, hrun]
  · rw [if_neg (by decide)]
    rfl
  · rw [Page.scrubSensitiveUi_receiving]

theorem demoReady_ready : Ready (demoPending "pw".toList)
    (Page.load demoWeb demoHash []).scrubSensitiveUi.made demoReady where
  pendingSecret := rfl
  object := Page.receiveOpened_object ..
  card := rfl
  scrubbed := rfl
  received := ⟨_, rfl⟩
  idle c := by
    show (Page.load demoWeb demoHash []).scrubSensitiveUi.calls c = .idle
    rw [Page.scrubSensitiveUi_calls]
    exact (Page.load_cases demoWeb demoHash []).2.2.1 c

theorem demoReady_opens (passwordValue : List Char) (m' : List UInt8)
    (h : decryptPending demoWeb (demoPending "pw".toList) passwordValue = .ok m') :
    m' = [104, 105] := by
  have htext : (demoPending "pw".toList).ciphertext.take
      ((demoPending "pw".toList).ciphertext.length - 16) = [104, 105] := by decide +kernel
  simp only [decryptPending, demoWeb, plainCrypto, htext] at h
  split_ifs at h
  exact (Except.ok.inj h).symm

/-- The event is an input, or one of a call below `n`. -/
def AttemptBelow (n : ℕ) : Event → Prop
  | .input _ => True
  | .submit c => c < n
  | .settle c _ => c < n
  | .frame | .answer _ | .resume _ => False

instance (n : ℕ) : DecidablePred (AttemptBelow n) := fun e => by
  cases e <;> unfold AttemptBelow <;> infer_instance

/-- `InTime`, as far as the calls below `n` go. -/
def InTimeBelow (n : ℕ) (w : Web) (pending : Pending) (p : Page) : Event → Prop
  | .settle c _ => Decrypting w pending (p.calls c) →
    ∀ c' < n, (p.calls c').InFlight → Decrypting w pending (p.calls c')
  | _ => True

instance (n : ℕ) (w : Web) (pending : Pending) (p : Page) :
    DecidablePred (InTimeBelow n w pending p) := fun e => by
  cases e <;> unfold InTimeBelow <;> infer_instance

/-- **Attempts can be checked**: the calls that were not made do not count. -/
theorem everyStep_inTime {w : Web} {pending : Pending} {n : ℕ} {p : Page} {es : List Event}
    (hes : ∀ e ∈ es, AttemptBelow n e) (hidle : ∀ c, n ≤ c → p.calls c = .idle)
    (h : EveryStep (fun p => p.step w) (InTimeBelow n w pending) p es) :
    EveryStep (fun p => p.step w) (InTime w pending) p es := by
  refine h.imp (I := fun p => ∀ c, n ≤ c → p.calls c = .idle) (fun p e he p' hI hstep hin => ?_) hidle
  have hbelow := hes e he
  constructor
  · rintro c err rfl hdec c' hflight
    by_cases hc' : c' < n
    · exact hin hdec c' hc' hflight
    · exact absurd (hI c' (by omega)) hflight.1
  · intro c hc
    rw [← hI c hc]
    cases e with
    | frame | answer | resume => cases hbelow
    | input value =>
      obtain rfl := Option.some.inj hstep
      rfl
    | submit c' =>
      obtain ⟨-, hp'⟩ := Option.ite_none_right_eq_some.mp hstep
      obtain rfl := Option.some.inj hp'
      exact Page.submit_calls_of_ne w (Nat.ne_of_gt (Nat.lt_of_lt_of_le hbelow hc))
    | settle c' err =>
      exact Page.Settles.calls_of_ne (Page.settle_cases hstep).2
        (Nat.ne_of_gt (Nat.lt_of_lt_of_le hbelow hc))

/-- A wrong attempt that ends, then two attempts with the right password that overlap throughout. -/
def demoOverlap : List Event :=
  attempt "no".toList 2 ++ [.input "pw".toList, .submit 0, .submit 1, .settle 0 none, .settle 1 none,
    .settle 0 none, .settle 1 none, .settle 0 none, .settle 1 none]

theorem attempts_safe_demo :
    run (fun p => p.step demoWeb) (Page.load demoWeb demoHash [])
        (.frame :: .answer (.ok (demoResponse "pw".toList)) :: List.replicate 5 (.resume none)) =
      some demoReady ∧
    Always (fun p => p.step demoWeb) (SecretSafe demoWeb (demoPending "pw".toList) [104, 105])
        demoReady demoOverlap ∧
      (run (fun p => p.step demoWeb) demoReady demoOverlap).map
        (fun p => (p.calls 2, p.calls 0, p.calls 1, p.text)) =
          some (.returned none, .returned (some [104, 105]), .returned (some [104, 105]), "hi".toList) :=
  ⟨run_demoReady, attempts_safe demoReady_ready demoReady_opens _ (everyStep_inTime (n := 3) (by decide)
    (fun c _ => demoReady_ready.idle c) (by decide +kernel)), by decide +kernel⟩

/-- Two submissions of the right password, and the first is done before the second goes on. -/
def demoAttempts : List Event :=
  [.input "pw".toList, .submit 0, .submit 1, .settle 0 none, .settle 0 none, .settle 0 none,
    .settle 1 none, .settle 1 none, .settle 1 none]

/-- **Two attempts with the right password lose the secret.** -/
theorem two_attempts_lose_secret :
    ¬ Always (fun p => p.step demoWeb) (SecretSafe demoWeb (demoPending "pw".toList) [104, 105])
      demoReady demoAttempts := by
  intro halways
  have hrun : ((run (fun p => p.step demoWeb) demoReady demoAttempts).map fun p =>
      (p.text, p.calls 0)) = some ("wrong_password".toList, .returned (some [104, 105])) := by
    decide +kernel
  obtain ⟨p, hp, hlast⟩ := Option.map_eq_some_iff.mp hrun
  rw [Prod.mk.injEq] at hlast
  rw [← List.append_nil demoAttempts] at halways
  have htext := ((halways.rest hp).shown ⟨0, _, hlast.2⟩).1
  rw [hlast.1] at htext
  revert htext
  decide

end Adnihilum.Client
