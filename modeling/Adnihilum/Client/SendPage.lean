import Adnihilum.Client.Authentic
import Adnihilum.Lib.Runs

/-!
# The sending page

Like the receiving page, it runs in one thread. A call of `sendSecret` reads the two fields when it
starts, stops at every `await`, and goes on when the promise settles. Calls can overlap: Ctrl+Enter
in the text field starts one while another one has disabled the button.

* `SendPage`: the page with its calls; the functions of the source on it.
* `SendEvent`, `SendPage.step`: an input, a call, a settled promise, or a callback that scrubs.
* `Of`: what a call has made so far; `Change`, `settle_change`: what a settled promise can do.
-/

namespace Adnihilum.Client

/-! ## Errors -/

/-- `/^s$/i.test(message)`. -/
def isText (s : String) (message : List Char) : Bool :=
  message.map Char.toLower == s.toList.map Char.toLower

/-- `/^s/i.test(message)`. -/
def beginsWith (s : String) (message : List Char) : Bool :=
  (s.toList.map Char.toLower).isPrefixOf (message.map Char.toLower)

/-- `/POST .* ddd\b/i.test(message)`, for the statuses `ddd` that `accepts` knows. -/
def mentionsStatus (accepts : List Char → Bool) (message : List Char) : Bool :=
  (message.map Char.toLower).tails.any fun t => "post ".toList.isPrefixOf t &&
    -- a dot matches no line terminator
    ((t.drop 5).takeWhile fun c => c.toNat ∉ [10, 13, 0x2028, 0x2029]).tails.any fun u =>
      u.head? = some ' ' && accepts ((u.drop 1).take 3) &&
        (u.drop 4).head?.all fun c => !(c.isAlphanum || c = '_')

def friendlySendError (w : Web) (err : JsError) : List Char :=
  let message := if err.message ≠ [] then err.message else err.name
  if isText "Invalid service origin URL" message then w.i18n "invalid_service_url"
  else if isText "Origin must not include credentials" message then w.i18n "origin_credentials"
  else if isText "Origin must not include path, query, or fragment" message then w.i18n "origin_path"
  else if beginsWith "Service origin must use https://" message then w.i18n "origin_https"
  else if isText "Key length mismatch" message || isText "ID length mismatch" message ||
      isText "Invalid base64 data" message then w.i18n "generated_invalid"
  else if beginsWith "Image clipboard is not available" message then
    w.i18n "clipboard_image_unavailable"
  else if isText "Clipboard API unavailable" message then w.i18n "clipboard_text_unavailable"
  else if mentions "Failed to fetch" message || mentions "NetworkError" message ||
      mentions "Load failed" message then w.i18n "service_unreachable"
  else if mentionsStatus (fun ds => ds ∈ ["400".toList, "403".toList, "404".toList]) message then
    w.i18n "server_refused"
  else if mentionsStatus (fun ds => ds ∈ ["410".toList, "413".toList]) message then
    w.i18n "server_busy"
  else if mentionsStatus (fun ds => ds ∈ ["423".toList, "429".toList]) message then
    w.i18n "rate_limited"
  else if mentionsStatus (fun ds => ds.head? = some '5' && ds.length == 3 && ds.all Char.isDigit)
      message then w.i18n "server_failed"
  else w.i18n "create_secret_failed"

/-! ## The page -/

/-- What the sending page sees of the browser. -/
structure SendWeb extends Web where
  /-- `navigator.clipboard.writeText` is there. -/
  hasClipboard : Bool
  /-- `makeCode` draws a code for this text. -/
  makesCode : List Char → Bool

/-- The class and the label of the button. -/
inductive ButtonState where
  | plain
  | busy
  | ready
  | success
  deriving DecidableEq

/-- What a call of `sendSecret` has read when it first waits. -/
structure Draft where
  origin : List Char
  payload : List UInt8
  passwordValue : List Char
  keyBytes : List UInt8
  nonce : List UInt8
  salt : List UInt8

/-- What a call of `sendSecret` waits for. A finished call has what it posted, if that was accepted.
-/
inductive Sending where
  | idle
  | importHkdfKey (d : Draft)
  | deriveBits (d : Draft)
  | importPassword (d : Draft) (idBytes : List UInt8)
  | derivePassword (d : Draft) (idBytes : List UInt8)
  | wrap (d : Draft) (idBytes passwordKey : List UInt8)
  | importKey (d : Draft) (idBytes payload : List UInt8)
  | encrypt (d : Draft) (idBytes taggedPayload : List UInt8)
  | fetch (post : Post)
  | text (post : Post) (res : Response)
  | copy (post : Post) (link : List Char)
  | returned (sent : Option Post)

def Sending.isIdle : Sending → Bool
  | .idle => true
  | _ => false

/-- A call that waits for a promise. -/
def Sending.InFlight (call : Sending) : Prop := call ≠ .idle ∧ ∀ sent, call ≠ .returned sent

instance : DecidablePred Sending.InFlight
  | .idle => .isFalse fun h => h.1 rfl
  | .returned sent => .isFalse fun h => h.2 sent rfl
  | .importHkdfKey .. | .deriveBits .. | .importPassword .. | .derivePassword .. | .wrap ..
  | .importKey .. | .encrypt .. | .fetch .. | .text .. | .copy .. => .isTrue ⟨nofun, nofun⟩

/-- The state of the page. -/
structure SendPage where
  text : List Char
  password : List Char
  readonly : Bool
  originalReadonly : Option Bool
  inputsDisabled : Bool
  button : ButtonState
  popup : Option (List Char × List Char)
  /-- `state.link`. -/
  link : Option (List Char)
  generatedUrl : List Char
  /-- The text of the code that is drawn. -/
  qr : Option (List Char)
  clipboard : Option (List Char)
  suppressGeneratedStateReset : Bool
  /-- The callback of `scrubSoon` is still to run. -/
  scrubQueued : Bool
  calls : ℕ → Sending

namespace SendPage

def setCall (c : ℕ) (call : Sending) (p : SendPage) : SendPage :=
  { p with calls := Function.update p.calls c call }

def showPopup (title message : List Char) (p : SendPage) : SendPage :=
  { p with popup := some (title, message) }

/-- `setLink` with the link that it makes, and `updateQr`. -/
def setLink (w : SendWeb) (link : Option (List Char)) (p : SendPage) : SendPage :=
  { p with
    link := link
    generatedUrl := link.getD []
    qr := link.filter w.makesCode }

def setPrimaryButtonLabel (b : ButtonState) (p : SendPage) : SendPage := { p with button := b }

def clearGeneratedState (w : SendWeb) (p : SendPage) : SendPage :=
  if p.suppressGeneratedStateReset then p
  else
    let p := if p.link ≠ none then p.setLink w none else p
    p.setPrimaryButtonLabel .plain

/-- `lockTextarea`; it dispatches an `input` event in the end. -/
def lockTextarea (w : SendWeb) (lock : Bool) (p : SendPage) : SendPage :=
  let originalReadonly := p.originalReadonly.getD p.readonly
  clearGeneratedState w
    { p with
      originalReadonly := some originalReadonly
      readonly := lock || originalReadonly }

def setInputsDisabled (disabled : Bool) (p : SendPage) : SendPage :=
  { p with inputsDisabled := disabled }

/-- `scrubSensitiveUi` on the sending page: the fields are emptied, with an `input` event each, and
the link is reset. -/
def scrubSensitiveUi (w : SendWeb) (p : SendPage) : SendPage :=
  let p := if p.text ≠ [] then clearGeneratedState w { p with text := [] } else p
  let p := if p.password ≠ [] then clearGeneratedState w { p with password := [] } else p
  p.setLink w none

/-! ## `sendSecret` -/

/-- The `finally` of `sendSecret`. -/
def finish (w : SendWeb) (c : ℕ) (sent : Option Post) (p : SendPage) : SendPage :=
  let p := { p with suppressGeneratedStateReset := true }
  let p := { p.lockTextarea w false with suppressGeneratedStateReset := false }
  (p.setInputsDisabled false).setCall c (.returned sent)

/-- The `catch` of `sendSecret`. -/
def sendFailed (w : SendWeb) (c : ℕ) (err : JsError) (p : SendPage) : SendPage :=
  let p := (p.setPrimaryButtonLabel .plain).showPopup (w.i18n "create_link_error")
    (friendlySendError w.toWeb err)
  p.finish w c none

/-- A return with a popup. -/
def refused (w : SendWeb) (c : ℕ) (title message : String) (p : SendPage) : SendPage :=
  ((p.setPrimaryButtonLabel .plain).showPopup (w.i18n title) (w.i18n message)).finish w c none

/-- A call up to its first `await`. -/
def start (w : SendWeb) (c : ℕ) (keyBytes nonce salt : List UInt8) (p : SendPage) : SendPage :=
  let p := ((p.lockTextarea w true).setInputsDisabled true).setPrimaryButtonLabel .busy
  match getOrigin w.toWeb with
  | .error err => p.sendFailed w c err
  | .ok origin =>
    if p.text = [] then p.refused w c "nothing_to_send" "enter_secret"
    else p.setCall c (.importHkdfKey ⟨origin, encode p.text, p.password, keyBytes, nonce, salt⟩)

/-- The link could not be copied. -/
def copyFailed (w : SendWeb) (c : ℕ) (post : Post) (copyErr : JsError) (p : SendPage) : SendPage :=
  ((p.setPrimaryButtonLabel .ready).showPopup (w.i18n "link_created")
    (friendlySendError w.toWeb copyErr)).finish w c (some post)

/-- The upload was accepted: the link is made and copied. -/
def accepted (w : SendWeb) (c : ℕ) (post : Post) (p : SendPage) : SendPage :=
  let p := { p with password := [] }
  let p := p.setLink w
    (Client.setLink post.origin (base64UrlEncode post.idBytes) (base64UrlEncode post.keyBytes))
  if w.hasClipboard then p.setCall c (.copy post (p.link.getD "null".toList))
  else p.copyFailed w c post ⟨"Error".toList, w.i18n "clipboard_text_unavailable"⟩

/-- The `fetch` of call `c` settles. -/
def answered (w : SendWeb) (c : ℕ) (r : Except JsError Response) (p : SendPage) : Option SendPage :=
  match p.calls c with
  | .fetch post =>
    match r with
    | .error err => some (p.sendFailed w c err)
    | .ok res => if res.ok then some (p.accepted w c post) else some (p.setCall c (.text post res))
  | _ => none

/-- The blob is made; it is posted unless it is too large. -/
def encrypted (w : SendWeb) (c : ℕ) (d : Draft) (idBytes taggedPayload : List UInt8)
    (p : SendPage) : SendPage :=
  let aad := idAad (base64UrlEncode idBytes)
  let blob := d.nonce ++ d.salt ++ w.crypto.encrypt d.keyBytes d.nonce aad taggedPayload
  if sharedBlobSizeMax - 100 < blob.length then p.refused w c "secret_too_large" "shorten_secret"
  else
    p.setCall c (.fetch ⟨normalizeOrigin d.origin ++ "/blob/".toList ++ bytesToHex idBytes, blob,
      d.origin, idBytes, d.keyBytes⟩)

/-- A promise is rejected with an error, or the call goes on. -/
def orFailed (w : SendWeb) (c : ℕ) (err : Option JsError) (p go : SendPage) : SendPage :=
  match err with
  | some err => p.sendFailed w c err
  | none => go

/-- Another promise of call `c` settles. -/
def settle (w : SendWeb) (c : ℕ) (err : Option JsError) (p : SendPage) : Option SendPage :=
  let orFailed (go : SendPage) : Option SendPage := some (p.orFailed w c err go)
  match p.calls c with
  | .importHkdfKey d => orFailed (p.setCall c (.deriveBits d))
  | .deriveBits d =>
    let idBytes := deriveIdFromKeyAndSalt w.crypto d.keyBytes d.salt
    orFailed (p.setCall c
      (if d.passwordValue ≠ [] then .importPassword d idBytes else .importKey d idBytes d.payload))
  | .importPassword d idBytes => orFailed (p.setCall c (.derivePassword d idBytes))
  | .derivePassword d idBytes =>
    orFailed (p.setCall c (.wrap d idBytes (derivePasswordKey w.crypto d.passwordValue d.salt)))
  | .wrap d idBytes passwordKey =>
    let aad := idAad (base64UrlEncode idBytes)
    orFailed (p.setCall c
      (.importKey d idBytes (w.crypto.encrypt passwordKey d.nonce aad d.payload)))
  | .importKey d idBytes payload =>
    let tagBytes := if d.passwordValue ≠ [] then blobTypePassword else blobTypeText
    orFailed (p.setCall c (.encrypt d idBytes (tagBytes ++ payload)))
  | .encrypt d idBytes taggedPayload => orFailed (p.encrypted w c d idBytes taggedPayload)
  | .text post res =>
    -- `safeText` catches the rejection
    let responseText := if err = none then w.decode res.body else []
    some (p.sendFailed w c (httpError "POST" post.url res responseText))
  | .copy post link =>
    match err with
    | some copyErr => some (p.copyFailed w c post copyErr)
    | none =>
      some (({ p with clipboard := some link }.setPrimaryButtonLabel .success).finish w c (some post))
  | .idle | .fetch _ | .returned _ => none

end SendPage

/-! ## The event loop -/

/-- What can happen. -/
inductive SendEvent where
  /-- The callback of `scrubSoon` runs. -/
  | frame
  /-- The page is left, or taken back out of the cache. -/
  | pagehide
  | pageshow
  /-- A field changes. -/
  | inputText (value : List Char)
  | inputPassword (value : List Char)
  /-- A call starts, with its random bytes: by Ctrl+Enter in the text field, or by the button or the
  password field. -/
  | start (c : ℕ) (inTextField : Bool) (keyBytes nonce salt : List UInt8)
  /-- The `fetch` of call `c` settles. -/
  | answer (c : ℕ) (r : Except JsError Response)
  /-- Another promise of call `c` settles. -/
  | settle (c : ℕ) (err : Option JsError)
  /-- A click on the button that copies the link. -/
  | copyLink

namespace SendPage

/-- One event. A field that is read-only does not change; a disabled control has no events. -/
def step (w : SendWeb) (p : SendPage) : SendEvent → Option SendPage
  | .frame => if p.scrubQueued then some { p.scrubSensitiveUi w with scrubQueued := false } else none
  | .pagehide => some (p.scrubSensitiveUi w)
  | .pageshow => some { p with scrubQueued := true }
  | .inputText value =>
    if p.readonly then none else some (clearGeneratedState w { p with text := value })
  | .inputPassword value =>
    if p.inputsDisabled then none else some (clearGeneratedState w { p with password := value })
  | .start c inTextField keyBytes nonce salt =>
    if (p.calls c).isIdle ∧ (inTextField ∨ ¬ p.inputsDisabled) ∧ keyBytes.length = keySize ∧
        nonce.length = nonceSize ∧ salt.length = saltSize then
      some (p.start w c keyBytes nonce salt)
    else none
  | .answer c r => p.answered w c r
  | .settle c err => p.settle w c err
  | .copyLink =>
    if p.inputsDisabled then none
    else match p.link with
      | none => some p
      | some link => some { p with clipboard := some link }

/-- The page at the end of `client.js`. -/
def load : SendPage where
  text := []
  password := []
  readonly := false
  originalReadonly := none
  inputsDisabled := false
  button := .plain
  popup := none
  link := none
  generatedUrl := []
  qr := none
  clipboard := none
  suppressGeneratedStateReset := false
  scrubQueued := true
  calls := fun _ => .idle

/-! ## What a settled promise can do -/

section Changes

variable {w : SendWeb} {c : ℕ} {p p' : SendPage}

/-- The link of a post. -/
def linkOf (post : Post) : Option (List Char) :=
  Client.setLink post.origin (base64UrlEncode post.idBytes) (base64UrlEncode post.keyBytes)

/-- What a call reads of the fields, and its random bytes. -/
structure Read (w : SendWeb) (d : Draft) : Prop where
  origin : getOrigin w.toWeb = .ok d.origin
  payload : d.payload ≠ []
  key : d.keyBytes.length = keySize
  nonce : d.nonce.length = nonceSize
  salt : d.salt.length = saltSize

/-- What a call has made so far of what it read is what `sendSecret` makes of it. -/
def Of (w : SendWeb) (d : Draft) : Sending → Prop
  | .idle => False
  | .importHkdfKey d' | .deriveBits d' => d' = d
  | .importPassword d' idBytes | .derivePassword d' idBytes =>
    d' = d ∧ idBytes = deriveIdFromKeyAndSalt w.crypto d.keyBytes d.salt ∧ d.passwordValue ≠ []
  | .wrap d' idBytes passwordKey =>
    d' = d ∧ idBytes = deriveIdFromKeyAndSalt w.crypto d.keyBytes d.salt ∧ d.passwordValue ≠ [] ∧
      passwordKey = derivePasswordKey w.crypto d.passwordValue d.salt
  | .importKey d' idBytes payload =>
    d' = d ∧ idBytes = deriveIdFromKeyAndSalt w.crypto d.keyBytes d.salt ∧
      payload = wrapPayload w.crypto d.passwordValue d.salt d.nonce (idAad (base64UrlEncode idBytes))
        d.payload
  | .encrypt d' idBytes taggedPayload =>
    d' = d ∧ idBytes = deriveIdFromKeyAndSalt w.crypto d.keyBytes d.salt ∧
      taggedPayload = tagBytes d.passwordValue ++ wrapPayload w.crypto d.passwordValue d.salt d.nonce
        (idAad (base64UrlEncode idBytes)) d.payload
  | .fetch post | .text post _ =>
    sendSecret w.toWeb d.payload d.passwordValue d.keyBytes d.nonce d.salt = .ok (.post post)
  | .copy post link =>
    sendSecret w.toWeb d.payload d.passwordValue d.keyBytes d.nonce d.salt = .ok (.post post) ∧
      link = (linkOf post).getD "null".toList
  | .returned sent => ∀ post ∈ sent,
    sendSecret w.toWeb d.payload d.passwordValue d.keyBytes d.nonce d.salt = .ok (.post post)

/-- A call whose post was accepted. -/
def Accepted (post : Post) (call : Sending) : Prop :=
  (∃ link, call = .copy post link) ∨ call = .returned (some post)

/-- What a settled promise of call `c` does: the call goes on to wait for another one, it is over, or
the link is made, and the call goes on or is over. -/
inductive Change (w : SendWeb) (c : ℕ) (p : SendPage) : SendPage → Prop
  | waits (call : Sending) (hfrom : ∀ post link, p.calls c ≠ .copy post link) (hto : call.InFlight)
      (hcopy : ∀ post link, call ≠ .copy post link)
      (h : ∀ d, Read w d → Of w d (p.calls c) → Of w d call) : Change w c p (p.setCall c call)
  | failed (popup : Option (List Char × List Char)) (hfrom : ∀ post link, p.calls c ≠ .copy post link) :
      Change w c p ({ p with button := .plain, popup := popup }.finish w c none)
  | linked (post : Post) (h : p.calls c = .fetch post) :
      Change w c p (({ p with password := [] }.setLink w (linkOf post)).setCall c
        (.copy post ((linkOf post).getD "null".toList)))
  | linkedOnly (post : Post) (popup : Option (List Char × List Char)) (h : p.calls c = .fetch post) :
      Change w c p ({ { p with password := [] }.setLink w (linkOf post) with
        button := .ready, popup := popup }.finish w c (some post))
  | copied (post : Post) (link : List Char) (b : ButtonState) (popup : Option (List Char × List Char))
      (clipboard : Option (List Char)) (h : p.calls c = .copy post link) (hb : b ≠ .busy)
      (hclip : clipboard = p.clipboard ∨ clipboard = some link) :
      Change w c p ({ p with button := b, popup := popup, clipboard := clipboard }.finish w c
        (some post))

theorem encrypted_change {d : Draft} {idBytes taggedPayload : List UInt8}
    (h : p.calls c = .encrypt d idBytes taggedPayload) :
    Change w c p (p.encrypted w c d idBytes taggedPayload) := by
  unfold encrypted
  simp only
  split_ifs with hlarge
  · exact .failed _ (by simp [h])
  · refine .waits _ (by simp [h]) ⟨by simp, by simp⟩ (by simp) fun d' hread hof => ?_
    rw [h] at hof
    obtain ⟨rfl, rfl, rfl⟩ := hof
    show sendSecret w.toWeb _ _ _ _ _ = _
    rw [sendSecret_eq hread.origin hread.payload]
    exact if_neg hlarge

theorem orFailed_change {err : Option JsError} {go : SendPage}
    (hfrom : ∀ post link, p.calls c ≠ .copy post link) (h : Change w c p go) :
    Change w c p (p.orFailed w c err go) := by
  cases err with
  | some err => exact .failed _ hfrom
  | none => exact h

/-- **What a settled promise can do.** -/
theorem settle_change {err : Option JsError} (h : p.settle w c err = some p') : Change w c p p' := by
  unfold settle at h
  cases hc : p.calls c with
  | idle | fetch | returned =>
    rw [hc] at h
    cases h
  | importHkdfKey d =>
    rw [hc] at h
    obtain rfl := Option.some.inj h
    refine orFailed_change (by simp [hc]) (.waits _ (by simp [hc]) ⟨by simp, by simp⟩ (by simp)
      fun d' _ hof => ?_)
    rw [hc] at hof
    exact hof
  | deriveBits d =>
    rw [hc] at h
    obtain rfl := Option.some.inj h
    by_cases hpassword : d.passwordValue = []
    · simp only [hpassword, ne_eq, not_true_eq_false, if_false]
      refine orFailed_change (by simp [hc]) (.waits _ (by simp [hc]) ⟨by simp, by simp⟩ (by simp)
      fun d' _ hof => ?_)
      rw [hc] at hof
      obtain rfl : d = d' := hof
      exact ⟨rfl, rfl, by rw [wrapPayload, if_pos hpassword]⟩
    · simp only [hpassword, ne_eq, not_false_eq_true, if_true]
      refine orFailed_change (by simp [hc]) (.waits _ (by simp [hc]) ⟨by simp, by simp⟩ (by simp)
      fun d' _ hof => ?_)
      rw [hc] at hof
      obtain rfl : d = d' := hof
      exact ⟨rfl, rfl, hpassword⟩
  | importPassword d idBytes =>
    rw [hc] at h
    obtain rfl := Option.some.inj h
    refine orFailed_change (by simp [hc]) (.waits _ (by simp [hc]) ⟨by simp, by simp⟩ (by simp)
      fun d' _ hof => ?_)
    rw [hc] at hof
    exact hof
  | derivePassword d idBytes =>
    rw [hc] at h
    obtain rfl := Option.some.inj h
    refine orFailed_change (by simp [hc]) (.waits _ (by simp [hc]) ⟨by simp, by simp⟩ (by simp)
      fun d' _ hof => ?_)
    rw [hc] at hof
    obtain ⟨rfl, hid, hpassword⟩ := hof
    exact ⟨rfl, hid, hpassword, rfl⟩
  | wrap d idBytes passwordKey =>
    rw [hc] at h
    obtain rfl := Option.some.inj h
    refine orFailed_change (by simp [hc]) (.waits _ (by simp [hc]) ⟨by simp, by simp⟩ (by simp)
      fun d' _ hof => ?_)
    rw [hc] at hof
    obtain ⟨rfl, hid, hpassword, rfl⟩ := hof
    exact ⟨rfl, hid, by rw [wrapPayload, if_neg hpassword]⟩
  | importKey d idBytes payload =>
    rw [hc] at h
    obtain rfl := Option.some.inj h
    refine orFailed_change (by simp [hc]) (.waits _ (by simp [hc]) ⟨by simp, by simp⟩ (by simp)
      fun d' _ hof => ?_)
    rw [hc] at hof
    obtain ⟨rfl, hid, rfl⟩ := hof
    refine ⟨rfl, hid, ?_⟩
    rw [tagBytes, ite_not]
  | encrypt d idBytes taggedPayload =>
    rw [hc] at h
    obtain rfl := Option.some.inj h
    exact orFailed_change (by simp [hc]) (encrypted_change hc)
  | text post res =>
    rw [hc] at h
    obtain rfl := Option.some.inj h
    exact .failed _ (by simp [hc])
  | copy post link =>
    rw [hc] at h
    cases err with
    | some copyErr =>
      obtain rfl := Option.some.inj h
      exact .copied post link .ready _ _ hc (by simp) (Or.inl rfl)
    | none =>
      obtain rfl := Option.some.inj h
      exact .copied post link .success _ _ hc (by simp) (Or.inr rfl)

theorem answered_change {r : Except JsError Response} (h : p.answered w c r = some p') :
    Change w c p p' ∧ ∀ post, Accepted post (p'.calls c) → ∃ res, r = .ok res ∧ res.ok = true := by
  unfold answered at h
  cases hc : p.calls c with
  | fetch post =>
    rw [hc] at h
    cases r with
    | error err =>
      obtain rfl := Option.some.inj h
      exact ⟨.failed _ (by simp [hc]), fun post' hpost => by
        simp [sendFailed, finish, setCall, Accepted] at hpost⟩
    | ok res =>
      simp only at h
      cases hok : res.ok with
      | false =>
        rw [hok] at h
        obtain rfl := Option.some.inj h
        refine ⟨.waits _ (by simp [hc]) ⟨by simp, by simp⟩ (by simp) fun d _ hof => ?_,
          fun post' hpost => by simp [setCall, Accepted] at hpost⟩
        rw [hc] at hof
        exact hof
      | true =>
        rw [hok] at h
        obtain rfl := Option.some.inj h
        refine ⟨?_, fun _ _ => ⟨res, rfl, hok⟩⟩
        unfold accepted
        simp only
        split_ifs
        · exact .linked post hc
        · exact .linkedOnly post _ hc
  | _ =>
    rw [hc] at h
    cases h

theorem settle_inFlight {err : Option JsError} (h : p.settle w c err = some p') :
    (p.calls c).InFlight := by
  unfold settle at h
  cases hc : p.calls c with
  | idle | fetch | returned =>
    rw [hc] at h
    cases h
  | _ => exact ⟨by simp, by simp⟩

theorem answered_inFlight {r : Except JsError Response} (h : p.answered w c r = some p') :
    (p.calls c).InFlight := by
  unfold answered at h
  cases hc : p.calls c with
  | fetch post => exact ⟨by simp, by simp⟩
  | _ =>
    rw [hc] at h
    cases h

/-- No other promise makes a post accepted. -/
theorem settle_accepted {err : Option JsError} (h : p.settle w c err = some p') {post : Post}
    (hpost : Accepted post (p'.calls c)) : Accepted post (p.calls c) := by
  cases settle_change h with
  | waits call _ hto hcopy _ =>
    simp only [setCall, Function.update_self] at hpost
    rcases hpost with ⟨link, rfl⟩ | rfl
    · exact absurd rfl (hcopy _ _)
    · exact absurd rfl (hto.2 _)
  | failed => simp [finish, setCall, Accepted] at hpost
  | linked post' hc | linkedOnly post' _ hc =>
    unfold settle at h
    rw [hc] at h
    cases h
  | copied post' link _ _ _ hc =>
    simp only [finish, setCall, Function.update_self, Accepted, reduceCtorEq, exists_false, false_or,
      Sending.returned.injEq, Option.some.injEq] at hpost
    rw [hc, hpost]
    exact Or.inl ⟨link, rfl⟩

end Changes

end SendPage

end Adnihilum.Client
