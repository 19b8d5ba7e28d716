import Adnihilum.Client.Receive
import Adnihilum.Lib.Runs
import Mathlib.Logic.Function.Basic

/-!
# The receiving page

The page runs in one thread: between two events nothing else happens. `tryToReceiveSecret` and each
call of `decryptPendingSecretWithPassword` stop at every `await`, and go on when the promise
settles, in any order. The object in `state.pendingSecret` is shared by reference.

* `Page`: the page with its tasks; the functions of the source on it.
* `Event`, `Page.step`: a frame callback, a settled promise, an input or a submission.
* `resume_cases`, `settle_cases`: what a settled promise can do.
-/

namespace Adnihilum.Client

/-- The class of the text output: `receive-state-info`, `receive-state-error` or none. -/
inductive Tone where
  | plain
  | info
  | error
  deriving DecidableEq

/-- What `tryToReceiveSecret` waits for. A finished call has what it obtained, `none` without a
link. -/
inductive Receiving where
  | fetch (t : Target)
  | text (t : Target) (res : Response)
  | arrayBuffer (t : Target) (res : Response)
  | importHkdfKey (t : Target) (b : BlobParts)
  | deriveBits (t : Target) (b : BlobParts)
  | importKey (t : Target) (b : BlobParts)
  | decrypt (t : Target) (b : BlobParts)
  | returned (r : Option (Except JsError Opened))

/-- `tryToReceiveSecret` is not over. -/
def Receiving.Awaits (r : Receiving) : Prop := ∀ x, r ≠ .returned x

/-- What a call of `decryptPendingSecretWithPassword` waits for, with its reference to the pending
secret and its password. The arguments of a request are copied when it is made. A finished call has
the secret that it displayed, if any. -/
inductive Calling where
  | idle
  | importKey (pending : ℕ) (passwordValue : List Char)
  | deriveKey (pending : ℕ) (passwordValue : List Char) (key : List UInt8)
  | decrypt (pending : ℕ) (passwordValue : List Char) (key iv aad ciphertext : List UInt8)
  | returned (plaintext : Option (List UInt8))
  deriving DecidableEq

/-- A call that waits for a promise. -/
def Calling.InFlight (call : Calling) : Prop :=
  call ≠ .idle ∧ ∀ plaintext, call ≠ .returned plaintext

/-- The state of the page. -/
structure Page where
  text : List Char
  tone : Tone
  passwordField : List Char
  cardVisible : Bool
  objects : ℕ → Pending
  made : ℕ
  pendingSecret : Option ℕ
  /-- The callback of `scrubSoon` is still to run. -/
  scrubQueued : Bool
  receiving : Receiving
  calls : ℕ → Calling

namespace Page

def setViewerText (message : List Char) (tone : Tone) (p : Page) : Page :=
  { p with text := message, tone := tone }

/-- `a.fill(0)`. -/
def fillZero (a : List UInt8) : List UInt8 := List.replicate a.length 0

def clearPendingSecret (p : Page) : Page :=
  match p.pendingSecret with
  | none => p
  | some r =>
    let pending := p.objects r
    { p with
      objects := Function.update p.objects r
        { pending with
          ciphertext := fillZero pending.ciphertext
          nonce := fillZero pending.nonce
          salt := fillZero pending.salt }
      pendingSecret := none }

def setDecryptionCardVisible (visible : Bool) (p : Page) : Page :=
  { p with
    cardVisible := visible
    passwordField := if visible then p.passwordField else [] }

/-- `scrubSensitiveUi` on the receiving page, which has no `optionalPassword` and no `generatedUrl`.
-/
def scrubSensitiveUi (p : Page) : Page :=
  let p := if p.text ≠ [] ∧ p.tone = .plain then { p with text := [] } else p
  let p := { p with passwordField := [] }
  (p.setDecryptionCardVisible false).clearPendingSecret

/-! ## `tryToReceiveSecret` -/

/-- The `catch` of `tryToReceiveSecret`. -/
def receiveFailed (w : Web) (err : JsError) (p : Page) : Page :=
  let p := p.setDecryptionCardVisible false
  let p := p.setViewerText (friendlyReceiveError w err) .error
  { p.clearPendingSecret with receiving := .returned (some (.error err)) }

/-- A value of the `try` block, or the `catch`. -/
def orFailed {α : Type} (w : Web) (p : Page) (r : Except JsError α) (go : α → Page) : Page :=
  match r with
  | .error err => p.receiveFailed w err
  | .ok a => go a

/-- The secret is displayed, or kept until there is a password. -/
def receiveOpened (w : Web) (o : Opened) (p : Page) : Page :=
  match o with
  | .text payload =>
    { p.setViewerText (w.decode payload) .plain with receiving := .returned (some (.ok o)) }
  | .pending pending =>
    let p := { p with
      objects := Function.update p.objects p.made pending
      made := p.made + 1
      pendingSecret := some p.made }
    let p := (p.setViewerText [] .plain).setDecryptionCardVisible true
    { p with passwordField := [], receiving := .returned (some (.ok o)) }

/-- `tryToReceiveSecret` up to its `fetch`. -/
def tryToReceive (w : Web) (hash : List Char) (p : Page) : Page :=
  match parseLocationHash w hash with
  | none => { p.setViewerText (w.i18n "open_full_link") .info with receiving := .returned none }
  | some info =>
    let p := p.clearPendingSecret.setViewerText (w.i18n "receiving_secret") .info
    p.orFailed w (receiveTarget w info) fun t => { p with receiving := .fetch t }

/-- A promise that is fulfilled, or rejected with an error. -/
def settled {α : Type} (err : Option JsError) (r : Except JsError α) : Except JsError α :=
  match err with
  | some err => .error err
  | none => r

/-- The `fetch` settles. -/
def answered (w : Web) (r : Except JsError Response) (p : Page) : Option Page :=
  match p.receiving with
  | .fetch t =>
    some (p.orFailed w r fun res =>
      if !res.ok then { p with receiving := .text t res }
      else { p with receiving := .arrayBuffer t res })
  | _ => none

/-- Another promise that `tryToReceiveSecret` waits for settles. -/
def resume (w : Web) (err : Option JsError) (p : Page) : Option Page :=
  match p.receiving with
  | .text t res =>
    -- `safeText` catches the rejection
    let responseText := if err = none then w.decode res.body else []
    some (p.receiveFailed w (httpError "GET" t.url res responseText))
  | .arrayBuffer t res =>
    some (p.orFailed w (settled err (blobParts res.body)) fun b =>
      { p with receiving := .importHkdfKey t b })
  | .importHkdfKey t b =>
    some (p.orFailed w (settled err (.ok ())) fun _ => { p with receiving := .deriveBits t b })
  | .deriveBits t b =>
    some (p.orFailed w
      (settled err (checkId t (deriveIdFromKeyAndSalt w.crypto t.keyBytes b.salt))) fun _ =>
        { p with receiving := .importKey t b })
  | .importKey t b =>
    some (p.orFailed w (settled err (.ok ())) fun _ => { p with receiving := .decrypt t b })
  | .decrypt t b =>
    some (p.orFailed w
      (settled err ((w.crypto.decrypt t.keyBytes b.nonce (idAad t.id) b.ciphertext).bind
        (openPayload t.id b))) fun o => p.receiveOpened w o)
  | .fetch _ | .returned _ => none

/-! ## `decryptPendingSecretWithPassword` -/

def setCall (c : ℕ) (call : Calling) (p : Page) : Page :=
  { p with calls := Function.update p.calls c call }

/-- A call starts. -/
def submit (w : Web) (c : ℕ) (p : Page) : Page :=
  match p.pendingSecret with
  | none => (p.setViewerText (w.i18n "no_pending_secret") .plain).setCall c (.returned none)
  | some r =>
    if p.passwordField = [] then p.setCall c (.returned none)
    else
      (p.setViewerText (w.i18n "receiving_secret") .info).setCall c (.importKey r p.passwordField)

/-- The `catch` of a call. -/
def callFailed (w : Web) (c : ℕ) (p : Page) : Page :=
  (p.setViewerText (w.i18n "wrong_password") .error).setCall c (.returned none)

/-- The secret is displayed, and the pending copy is cleared. -/
def callDecrypted (w : Web) (c : ℕ) (plaintext : List UInt8) (p : Page) : Page :=
  let p := { p.setViewerText (w.decode plaintext) .plain with passwordField := [] }
  (p.setDecryptionCardVisible false).clearPendingSecret.setCall c (.returned (some plaintext))

/-- The promise settles that call `c` waits for; that of `decrypt` settles as WebCrypto decides. -/
def settle (w : Web) (c : ℕ) (err : Option JsError) (p : Page) : Option Page :=
  match p.calls c with
  | .importKey r passwordValue =>
    match err with
    | some _ => some (p.callFailed w c)
    | none =>
      -- the salt is read now, and copied by `deriveKey`
      let key := derivePasswordKey w.crypto passwordValue (p.objects r).salt
      some (p.setCall c (.deriveKey r passwordValue key))
  | .deriveKey r passwordValue key =>
    match err with
    | some _ => some (p.callFailed w c)
    | none =>
      let pending := p.objects r
      some (p.setCall c
        (.decrypt r passwordValue key pending.nonce (idAad pending.id) pending.ciphertext))
  | .decrypt _ _ key iv aad ciphertext =>
    match err with
    | some _ => none
    | none =>
      match w.crypto.decrypt key iv aad ciphertext with
      | .error _ => some (p.callFailed w c)
      | .ok plaintext => some (p.callDecrypted w c plaintext)
  | .idle | .returned _ => none

end Page

/-! ## The event loop -/

/-- What can happen. -/
inductive Event where
  /-- The callback of `scrubSoon` runs. -/
  | frame
  /-- The `fetch` settles. -/
  | answer (r : Except JsError Response)
  /-- Another promise of `tryToReceiveSecret` settles. -/
  | resume (err : Option JsError)
  /-- The password field changes. -/
  | input (value : List Char)
  /-- A click on the button, or Enter in the password field. -/
  | submit (c : ℕ)
  /-- A promise of call `c` settles. -/
  | settle (c : ℕ) (err : Option JsError)

namespace Page

/-- One event. The button and the field can be reached while the card is visible. -/
def step (w : Web) (p : Page) : Event → Option Page
  | .frame => if p.scrubQueued then some { p.scrubSensitiveUi with scrubQueued := false } else none
  | .answer r => p.answered w r
  | .resume err => p.resume w err
  | .input value => some { p with passwordField := value }
  | .submit c => if p.cardVisible ∧ p.calls c = .idle then some (p.submit w c) else none
  | .settle c err => p.settle w c err

/-- The page at the end of `client.js`: the callback is registered, then the secret is asked for. -/
def load (w : Web) (hash initial : List Char) : Page :=
  tryToReceive w hash
    { text := initial
      tone := .info
      passwordField := []
      cardVisible := false
      objects := fun _ => ⟨[], [], [], []⟩
      made := 0
      pendingSecret := none
      scrubQueued := true
      receiving := .returned none
      calls := fun _ => .idle }

/-! ## What the functions leave alone -/

section Fields

variable (p : Page)

@[simp] theorem clearPendingSecret_text : p.clearPendingSecret.text = p.text := by
  unfold clearPendingSecret; split <;> rfl

@[simp] theorem clearPendingSecret_tone : p.clearPendingSecret.tone = p.tone := by
  unfold clearPendingSecret; split <;> rfl

@[simp] theorem clearPendingSecret_cardVisible : p.clearPendingSecret.cardVisible = p.cardVisible := by
  unfold clearPendingSecret; split <;> rfl

@[simp] theorem clearPendingSecret_calls : p.clearPendingSecret.calls = p.calls := by
  unfold clearPendingSecret; split <;> rfl

@[simp] theorem clearPendingSecret_receiving : p.clearPendingSecret.receiving = p.receiving := by
  unfold clearPendingSecret; split <;> rfl

@[simp] theorem clearPendingSecret_scrubQueued : p.clearPendingSecret.scrubQueued = p.scrubQueued := by
  unfold clearPendingSecret; split <;> rfl

@[simp] theorem clearPendingSecret_pendingSecret : p.clearPendingSecret.pendingSecret = none := by
  unfold clearPendingSecret
  split
  · assumption
  · rfl

theorem scrubSensitiveUi_text :
    p.scrubSensitiveUi.text = if p.text ≠ [] ∧ p.tone = .plain then [] else p.text := by
  simp only [scrubSensitiveUi, clearPendingSecret_text, setDecryptionCardVisible]
  split_ifs <;> rfl

@[simp] theorem scrubSensitiveUi_tone : p.scrubSensitiveUi.tone = p.tone := by
  simp only [scrubSensitiveUi, clearPendingSecret_tone, setDecryptionCardVisible]
  split_ifs <;> rfl

@[simp] theorem scrubSensitiveUi_cardVisible : p.scrubSensitiveUi.cardVisible = false := by
  simp only [scrubSensitiveUi, clearPendingSecret_cardVisible, setDecryptionCardVisible]

@[simp] theorem scrubSensitiveUi_calls : p.scrubSensitiveUi.calls = p.calls := by
  simp only [scrubSensitiveUi, clearPendingSecret_calls, setDecryptionCardVisible]
  split_ifs <;> rfl

@[simp] theorem scrubSensitiveUi_receiving : p.scrubSensitiveUi.receiving = p.receiving := by
  simp only [scrubSensitiveUi, clearPendingSecret_receiving, setDecryptionCardVisible]
  split_ifs <;> rfl

@[simp] theorem scrubSensitiveUi_pendingSecret : p.scrubSensitiveUi.pendingSecret = none := by
  simp only [scrubSensitiveUi, clearPendingSecret_pendingSecret]

end Fields

theorem load_cases (w : Web) (hash initial : List Char) :
    (load w hash initial).pendingSecret = none ∧ (load w hash initial).cardVisible = false ∧
      (∀ c, (load w hash initial).calls c = .idle) ∧
      ∀ o, (load w hash initial).receiving ≠ .returned (some (.ok o)) := by
  unfold load tryToReceive
  cases parseLocationHash w hash with
  | none => exact ⟨rfl, rfl, fun _ => rfl, fun o h => (by cases h)⟩
  | some info =>
    cases hinfo : receiveTarget w info with
    | error err =>
      simp only [orFailed, hinfo]
      exact ⟨clearPendingSecret_pendingSecret _, rfl, fun _ => rfl, fun o h => (by cases h)⟩
    | ok t =>
      simp only [orFailed, hinfo]
      exact ⟨rfl, rfl, fun _ => rfl, fun o h => (by cases h)⟩

theorem load_scrubQueued (w : Web) (hash initial : List Char) :
    (load w hash initial).scrubQueued = true := by
  unfold load tryToReceive
  cases parseLocationHash w hash with
  | none => rfl
  | some info => cases hinfo : receiveTarget w info <;> simp only [orFailed, hinfo] <;> rfl

theorem step_frame {w : Web} {p : Page} (h : p.scrubQueued = true) :
    p.step w .frame = some { p.scrubSensitiveUi with scrubQueued := false } := if_pos h

/-! ## What a settled promise can do -/

/-- What `tryToReceiveSecret` can do between two suspension points: fail, go on, or obtain a secret.
-/
def Receives (w : Web) (p p' : Page) : Prop :=
  (∃ err, p' = p.receiveFailed w err) ∨ (∃ r : Receiving, r.Awaits ∧ p' = { p with receiving := r }) ∨
    ∃ o, p' = p.receiveOpened w o

theorem orFailed_receives {α : Type} {w : Web} {p : Page} (r : Except JsError α) {go : α → Page}
    (h : ∀ a, Receives w p (go a)) : Receives w p (p.orFailed w r go) := by
  cases r with
  | error err => exact .inl ⟨err, rfl⟩
  | ok a => exact h a

theorem answered_cases {w : Web} {r : Except JsError Response} {p p' : Page}
    (h : p.answered w r = some p') : p.receiving.Awaits ∧ Receives w p p' := by
  unfold answered at h
  split at h
  · rename_i t hr
    obtain rfl := Option.some.inj h
    rw [hr]
    refine ⟨fun x h => (by cases h), orFailed_receives r fun res => ?_⟩
    split_ifs
    · exact .inr (.inl ⟨_, fun x h => (by cases h), rfl⟩)
    · exact .inr (.inl ⟨_, fun x h => (by cases h), rfl⟩)
  · cases h

theorem resume_cases {w : Web} {err : Option JsError} {p p' : Page}
    (h : p.resume w err = some p') : p.receiving.Awaits ∧ Receives w p p' := by
  have go : ∀ r : Receiving, r.Awaits → Receives w p { p with receiving := r } := fun r hr =>
    .inr (.inl ⟨r, hr, rfl⟩)
  unfold resume at h
  cases hr : p.receiving with
  | fetch | returned => rw [hr] at h; cases h
  | text t res =>
    rw [hr] at h
    obtain rfl := Option.some.inj h
    exact ⟨fun x h => (by cases h), .inl ⟨_, rfl⟩⟩
  | arrayBuffer t res =>
    rw [hr] at h
    obtain rfl := Option.some.inj h
    exact ⟨fun x h => (by cases h), orFailed_receives _ fun b => go _ fun x h => (by cases h)⟩
  | importHkdfKey t b =>
    rw [hr] at h
    obtain rfl := Option.some.inj h
    exact ⟨fun x h => (by cases h), orFailed_receives _ fun _ => go _ fun x h => (by cases h)⟩
  | deriveBits t b =>
    rw [hr] at h
    obtain rfl := Option.some.inj h
    exact ⟨fun x h => (by cases h), orFailed_receives _ fun _ => go _ fun x h => (by cases h)⟩
  | importKey t b =>
    rw [hr] at h
    obtain rfl := Option.some.inj h
    exact ⟨fun x h => (by cases h), orFailed_receives _ fun _ => go _ fun x h => (by cases h)⟩
  | decrypt t b =>
    rw [hr] at h
    obtain rfl := Option.some.inj h
    exact ⟨fun x h => (by cases h), orFailed_receives _ fun o => .inr (.inr ⟨o, rfl⟩)⟩

/-- What a call does when its promise settles: fail, go on, or display the secret. -/
inductive Settles (w : Web) (c : ℕ) (p : Page) : Page → Prop
  | failed (h : ∀ r passwordValue key iv aad ciphertext plaintext,
      p.calls c = .decrypt r passwordValue key iv aad ciphertext →
        w.crypto.decrypt key iv aad ciphertext ≠ .ok plaintext) : Settles w c p (p.callFailed w c)
  | derive (r : ℕ) (passwordValue : List Char) (h : p.calls c = .importKey r passwordValue) :
      Settles w c p (p.setCall c (.deriveKey r passwordValue
        (derivePasswordKey w.crypto passwordValue (p.objects r).salt)))
  | decrypt (r : ℕ) (passwordValue : List Char) (key : List UInt8)
      (h : p.calls c = .deriveKey r passwordValue key) :
      Settles w c p (p.setCall c (.decrypt r passwordValue key (p.objects r).nonce
        (idAad (p.objects r).id) (p.objects r).ciphertext))
  | decrypted (r : ℕ) (passwordValue : List Char) (key iv aad ciphertext plaintext : List UInt8)
      (h : p.calls c = .decrypt r passwordValue key iv aad ciphertext)
      (hok : w.crypto.decrypt key iv aad ciphertext = .ok plaintext) :
      Settles w c p (p.callDecrypted w c plaintext)

theorem settle_cases {w : Web} {c : ℕ} {err : Option JsError} {p p' : Page}
    (h : p.settle w c err = some p') :
    (p.calls c).InFlight ∧ Settles w c p p' := by
  unfold settle at h
  cases hc : p.calls c with
  | idle | returned => rw [hc] at h; cases h
  | importKey r passwordValue =>
    rw [hc] at h
    refine ⟨⟨fun h => (by cases h), fun _ h => (by cases h)⟩, ?_⟩
    cases err with
    | some =>
      obtain rfl := Option.some.inj h
      exact .failed fun r passwordValue key iv aad ciphertext plaintext hd => by
        rw [hc] at hd
        cases hd
    | none => obtain rfl := Option.some.inj h; exact .derive r passwordValue hc
  | deriveKey r passwordValue key =>
    rw [hc] at h
    refine ⟨⟨fun h => (by cases h), fun _ h => (by cases h)⟩, ?_⟩
    cases err with
    | some =>
      obtain rfl := Option.some.inj h
      exact .failed fun r passwordValue key iv aad ciphertext plaintext hd => by
        rw [hc] at hd
        cases hd
    | none => obtain rfl := Option.some.inj h; exact .decrypt r passwordValue key hc
  | decrypt r passwordValue key iv aad ciphertext =>
    rw [hc] at h
    refine ⟨⟨fun h => (by cases h), fun _ h => (by cases h)⟩, ?_⟩
    cases err with
    | some => cases h
    | none =>
      simp only at h
      cases hd : w.crypto.decrypt key iv aad ciphertext with
      | error err =>
        rw [hd] at h
        obtain rfl := Option.some.inj h
        refine .failed fun r' passwordValue' key' iv' aad' ciphertext' plaintext hc' hok => ?_
        rw [hc] at hc'
        cases hc'
        rw [hd] at hok
        cases hok
      | ok plaintext =>
        rw [hd] at h
        obtain rfl := Option.some.inj h
        exact .decrypted r passwordValue key iv aad ciphertext plaintext hc hd

/-! ## Nothing in between -/

section Alone

variable {w : Web} {p : Page}

theorem bind_ok {ε α β : Type} {x : Except ε α} {f : α → Except ε β} {b : β}
    (h : x >>= f = .ok b) : ∃ a, x = .ok a ∧ f a = .ok b := by
  cases x with
  | error => cases h
  | ok a => exact ⟨a, rfl, h⟩

theorem receiveOpened_object (w : Web) (pending : Pending) (p : Page) :
    (p.receiveOpened w (.pending pending)).objects p.made = pending := Function.update_self ..

theorem receiveOpened_receiving (o : Opened) (r : Receiving) :
    ({ p with receiving := r } : Page).receiveOpened w o = p.receiveOpened w o := by
  cases o <;> rfl

theorem run_resume {t : Target} {res : Response} {b : BlobParts} {m : List UInt8} {o : Opened}
    (hp : p.receiving = .fetch t) (hok : res.ok = true) (hb : blobParts res.body = .ok b)
    (hid : checkId t (deriveIdFromKeyAndSalt w.crypto t.keyBytes b.salt) = .ok ())
    (hm : w.crypto.decrypt t.keyBytes b.nonce (idAad t.id) b.ciphertext = .ok m)
    (ho : openPayload t.id b m = .ok o) :
    Runs.run (fun p => p.step w) p (.answer (.ok res) :: List.replicate 5 (.resume none)) =
      some (p.receiveOpened w o) := by
  have h0 : p.step w (.answer (.ok res)) = some { p with receiving := .arrayBuffer t res } := by
    simp [step, answered, hp, orFailed, hok]
  have h1 : ({ p with receiving := .arrayBuffer t res } : Page).step w (.resume none) =
      some { p with receiving := .importHkdfKey t b } := by
    simp [step, resume, orFailed, settled, hb]
  have h2 : ({ p with receiving := .importHkdfKey t b } : Page).step w (.resume none) =
      some { p with receiving := .deriveBits t b } := rfl
  have h3 : ({ p with receiving := .deriveBits t b } : Page).step w (.resume none) =
      some { p with receiving := .importKey t b } := by
    simp [step, resume, orFailed, settled, hid]
  have h4 : ({ p with receiving := .importKey t b } : Page).step w (.resume none) =
      some { p with receiving := .decrypt t b } := rfl
  have h5 : ({ p with receiving := .decrypt t b } : Page).step w (.resume none) =
      some (p.receiveOpened w o) := by
    simp [step, resume, orFailed, settled, hm, Except.bind, ho, receiveOpened_receiving]
  simp only [List.replicate, Runs.run, h0, h1, h2, h3, h4, h5, Option.bind_some]

/-- **Without events in between the page obtains what `tryToReceiveSecret` obtains.** -/
theorem run_receive {fetch : List Char → Except JsError Response} {hash : List Char} {o : Opened}
    (h : tryToReceiveSecret w fetch hash = some (.ok o)) (initial : List Char) :
    ∃ url res, fetch url = .ok res ∧ ∀ p : Page, p.receiving = (load w hash initial).receiving →
      Runs.run (fun p => p.step w) p (.answer (.ok res) :: List.replicate 5 (.resume none)) =
        some (p.receiveOpened w o) := by
  obtain ⟨info, hinfo, h⟩ := Option.map_eq_some_iff.mp h
  obtain ⟨t, ht, h⟩ := bind_ok h
  obtain ⟨res, hres, h⟩ := bind_ok h
  have hok : res.ok = true := by
    cases hres : res.ok with
    | true => rfl
    | false =>
      simp only [hres, Bool.not_false, if_true] at h
      cases h
  simp only [hok, Bool.not_true, Bool.false_eq_true, if_false] at h
  obtain ⟨b, hb, h⟩ := bind_ok h
  obtain ⟨⟨⟩, hid, h⟩ := bind_ok h
  obtain ⟨m, hm, ho⟩ := bind_ok h
  refine ⟨t.url, res, hres, fun p hp => run_resume (hp.trans ?_) hok hb hid hm ho⟩
  simp only [load, tryToReceive, hinfo, ht, orFailed]

end Alone

end Page

end Adnihilum.Client
