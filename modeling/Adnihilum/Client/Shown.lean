import Adnihilum.Client.SendPage

/-!
# The link on the sending page

What the user does and how the promises settle can interleave in any way. A link that is shown or
copied is always one that yields the bytes of the text that the field held when its call started.

* `Consistent`: what the page keeps in every state; `Moves`, `step_moves`: what an event can do.
* `Begun`, `History`: the calls of a run; `history_step`.
* **`shown_link`**; **`shown_link_current`**: when calls do not overlap; **`controls_restored`**.
-/

namespace Adnihilum.Client

namespace SendPage

variable {w : SendWeb} {c : ℕ} {p p' : SendPage} {e : SendEvent} {es : List SendEvent}

/-! ## Steps -/

/-- What holds of the page between two events. -/
structure Consistent (w : SendWeb) (p : SendPage) : Prop where
  suppress : p.suppressGeneratedStateReset = false
  original : p.originalReadonly.getD p.readonly = false
  generatedUrl : p.generatedUrl = p.link.getD []
  qr : p.qr = p.link.filter w.makesCode
  password : p.link ≠ none → p.password = []
  busy : p.readonly = true ∨ p.inputsDisabled = true ∨ p.button = .busy → ∃ c, (p.calls c).InFlight

theorem load_consistent (w : SendWeb) : Consistent w load :=
  ⟨rfl, rfl, rfl, rfl, fun h => absurd rfl h, by simp [load]⟩

theorem finish_eq (sent : Option Post) : p.finish w c sent =
    { p with
      originalReadonly := some (p.originalReadonly.getD p.readonly)
      readonly := p.originalReadonly.getD p.readonly
      suppressGeneratedStateReset := false
      inputsDisabled := false
      calls := Function.update p.calls c (.returned sent) } := rfl

/-- The link is gone. -/
def unlinked (p : SendPage) : SendPage := { p with link := none, generatedUrl := [], qr := none }

theorem clearGeneratedState_eq (hs : p.suppressGeneratedStateReset = false)
    (hg : p.generatedUrl = p.link.getD []) (hq : p.qr = p.link.filter w.makesCode) :
    clearGeneratedState w p = { p.unlinked with button := .plain } := by
  rcases p with ⟨text, password, readonly, original, disabled, button, popup, link, url, qr, clipboard,
    suppress, queued, calls⟩
  obtain rfl : suppress = false := hs
  obtain rfl : url = link.getD [] := hg
  obtain rfl : qr = link.filter w.makesCode := hq
  cases link <;> rfl

/-- The page of a call that starts. -/
def locked (p : SendPage) : SendPage :=
  { p.unlinked with
    originalReadonly := some false, readonly := true, inputsDisabled := true, button := .busy }

/-- What an event can do: fields are changed and the link is gone; nothing is shown or hidden; a call
starts, or a promise settles. -/
inductive Moves (w : SendWeb) (p : SendPage) : SendEvent → SendPage → Prop
  | cleared (e : SendEvent) (text password : List Char) (b : ButtonState) (q : Bool)
      (hb : b = p.button ∨ b = .plain) (ht : text = [] ∨ text = p.text ∨ p.readonly = false) :
      Moves w p e { p.unlinked with text := text, password := password, button := b, scrubQueued := q }
  | kept (e : SendEvent) (clipboard : Option (List Char)) (q : Bool)
      (hclip : clipboard = p.clipboard ∨ clipboard = p.link) :
      Moves w p e { p with clipboard := clipboard, scrubQueued := q }
  | begun (c : ℕ) (inTextField : Bool) (d : Draft) (hidle : p.calls c = .idle) (hread : Read w d)
      (hpayload : d.payload = encode p.text) (hpassword : d.passwordValue = p.password) :
      Moves w p (.start c inTextField d.keyBytes d.nonce d.salt)
        (p.locked.setCall c (.importHkdfKey d))
  | notBegun (c : ℕ) (inTextField : Bool) (keyBytes nonce salt : List UInt8)
      (popup : Option (List Char × List Char)) (hidle : p.calls c = .idle) :
      Moves w p (.start c inTextField keyBytes nonce salt)
        ({ p.locked with button := .plain, popup := popup }.finish w c none)
  | changed (e : SendEvent) (c : ℕ) {p' : SendPage} (hflight : (p.calls c).InFlight)
      (h : Change w c p p')
      (hanswer : ∀ post, Accepted post (p'.calls c) → Accepted post (p.calls c) ∨
        ∃ res, e = .answer c (.ok res) ∧ res.ok = true) : Moves w p e p'

theorem scrubSensitiveUi_eq (h : Consistent w p) : ∃ b, (b = p.button ∨ b = .plain) ∧
    p.scrubSensitiveUi w = { p.unlinked with text := [], password := [], button := b } := by
  rcases p with ⟨text, password, readonly, original, disabled, button, popup, link, url, qr, clipboard,
    suppress, queued, calls⟩
  obtain rfl : suppress = false := h.suppress
  obtain rfl : url = link.getD [] := h.generatedUrl
  obtain rfl : qr = link.filter w.makesCode := h.qr
  cases text with
  | nil =>
    cases password with
    | nil => exact ⟨button, Or.inl rfl, rfl⟩
    | cons => cases link <;> exact ⟨.plain, Or.inr rfl, rfl⟩
  | cons => cases password <;> cases link <;> exact ⟨.plain, Or.inr rfl, rfl⟩

theorem start_moves {inTextField : Bool} {keyBytes nonce salt : List UInt8} (h : Consistent w p)
    (hidle : p.calls c = .idle) (hkey : keyBytes.length = keySize) (hnonce : nonce.length = nonceSize)
    (hsalt : salt.length = saltSize) :
    Moves w p (.start c inTextField keyBytes nonce salt) (p.start w c keyBytes nonce salt) := by
  have hlock : ((p.lockTextarea w true).setInputsDisabled true).setPrimaryButtonLabel .busy =
      p.locked := by
    have heq := clearGeneratedState_eq (w := w) (p := { p with
      originalReadonly := some (p.originalReadonly.getD p.readonly)
      readonly := true || p.originalReadonly.getD p.readonly }) h.suppress h.generatedUrl h.qr
    rw [lockTextarea, heq, h.original]
    rfl
  unfold start
  simp only [hlock]
  cases horigin : getOrigin w.toWeb with
  | error err => exact .notBegun c _ _ _ _ _ hidle
  | ok origin =>
    simp only
    split_ifs with htext
    · exact .notBegun c _ _ _ _ _ hidle
    · refine .begun c inTextField ⟨origin, encode p.text, p.password, keyBytes, nonce, salt⟩ hidle
        ⟨horigin, fun hnil => htext ?_, hkey, hnonce, hsalt⟩ rfl rfl
      exact encode_injective (hnil.trans rfl)

/-- **What an event can do.** -/
theorem step_moves (h : Consistent w p) (hstep : p.step w e = some p') : Moves w p e p' := by
  cases e with
  | frame =>
    simp only [step] at hstep
    split_ifs at hstep
    obtain rfl := Option.some.inj hstep
    obtain ⟨b, hb, hscrub⟩ := scrubSensitiveUi_eq h
    rw [hscrub]
    exact .cleared _ [] [] b false hb (Or.inl rfl)
  | pagehide =>
    obtain rfl := Option.some.inj hstep
    obtain ⟨b, hb, hscrub⟩ := scrubSensitiveUi_eq h
    rw [hscrub]
    exact .cleared _ [] [] b p.scrubQueued hb (Or.inl rfl)
  | pageshow =>
    obtain rfl := Option.some.inj hstep
    exact .kept _ p.clipboard true (Or.inl rfl)
  | inputText value =>
    simp only [step] at hstep
    split_ifs at hstep with hreadonly
    obtain rfl := Option.some.inj hstep
    have heq := clearGeneratedState_eq (w := w) (p := { p with text := value }) h.suppress
      h.generatedUrl h.qr
    rw [heq]
    exact .cleared _ value p.password .plain p.scrubQueued (Or.inr rfl)
      (Or.inr (Or.inr (by simpa using hreadonly)))
  | inputPassword value =>
    simp only [step] at hstep
    split_ifs at hstep
    obtain rfl := Option.some.inj hstep
    have heq := clearGeneratedState_eq (w := w) (p := { p with password := value }) h.suppress
      h.generatedUrl h.qr
    rw [heq]
    exact .cleared _ p.text value .plain p.scrubQueued (Or.inr rfl) (Or.inr (Or.inl rfl))
  | start c inTextField keyBytes nonce salt =>
    simp only [step] at hstep
    split_ifs at hstep with hguard
    obtain rfl := Option.some.inj hstep
    obtain ⟨hidle, -, hkey, hnonce, hsalt⟩ := hguard
    refine start_moves h ?_ hkey hnonce hsalt
    cases hc : p.calls c with
    | idle => rfl
    | _ =>
      rw [hc] at hidle
      cases hidle
  | answer c r =>
    obtain ⟨hchange, hanswer⟩ := answered_change hstep
    refine .changed _ c (answered_inFlight hstep) hchange fun post hpost => Or.inr ?_
    obtain ⟨res, rfl, hok⟩ := hanswer post hpost
    exact ⟨res, rfl, hok⟩
  | settle c err =>
    exact .changed _ c (settle_inFlight hstep) (settle_change hstep) fun post hpost =>
      Or.inl (settle_accepted hstep hpost)
  | copyLink =>
    simp only [step] at hstep
    split_ifs at hstep
    split at hstep
    · obtain rfl := Option.some.inj hstep
      exact .kept _ p.clipboard p.scrubQueued (Or.inl rfl)
    · next link hl =>
      obtain rfl := Option.some.inj hstep
      exact .kept _ (some link) p.scrubQueued (Or.inr hl.symm)

/-! ## Every state -/

theorem inFlight_update {calls : ℕ → Sending} {call : Sending} (h : call.InFlight) :
    ∃ c', (Function.update calls c call c').InFlight := ⟨c, by rwa [Function.update_self]⟩

/-- **One event** keeps the page consistent. -/
theorem step_consistent (h : Consistent w p) (hstep : p.step w e = some p') : Consistent w p' := by
  cases step_moves h hstep with
  | cleared _ text password b q hb ht =>
    refine ⟨h.suppress, h.original, rfl, rfl, fun hne => absurd rfl hne, fun hbusy => h.busy ?_⟩
    rcases hbusy with hro | hdis | hbusy
    · exact Or.inl hro
    · exact Or.inr (Or.inl hdis)
    · rcases hb with rfl | rfl
      · exact Or.inr (Or.inr hbusy)
      · cases hbusy
  | kept _ clipboard q hclip => exact ⟨h.suppress, h.original, h.generatedUrl, h.qr, h.password, h.busy⟩
  | begun c inTextField d hidle hread hpayload hpassword =>
    exact ⟨h.suppress, rfl, rfl, rfl, fun hne => absurd rfl hne,
      fun _ => inFlight_update ⟨by simp, by simp⟩⟩
  | notBegun c _ _ _ _ popup hidle =>
    rw [finish_eq]
    exact ⟨rfl, rfl, rfl, rfl, fun hne => absurd rfl hne, by simp [locked]⟩
  | changed _ c hflight hchange hanswer =>
    cases hchange with
    | waits call hfrom hto hcopy hof =>
      exact ⟨h.suppress, h.original, h.generatedUrl, h.qr, h.password, fun _ => inFlight_update hto⟩
    | failed popup hfrom =>
      rw [finish_eq]
      exact ⟨rfl, h.original, h.generatedUrl, h.qr, h.password, by simp [h.original]⟩
    | linked post hc =>
      exact ⟨h.suppress, h.original, rfl, rfl, fun _ => rfl,
        fun _ => inFlight_update ⟨by simp, by simp⟩⟩
    | linkedOnly post popup hc =>
      rw [finish_eq]
      exact ⟨rfl, h.original, rfl, rfl, fun _ => rfl, by simp [setLink, h.original]⟩
    | copied post link b popup clipboard hc hb hclip =>
      rw [finish_eq]
      exact ⟨rfl, h.original, h.generatedUrl, h.qr, h.password, by simp [h.original, hb]⟩

theorem run_consistent (hrun : Runs.run (fun p => p.step w) load es = some p) : Consistent w p := by
  induction es using List.reverseRecOn generalizing p with
  | nil => exact Option.some.inj hrun ▸ load_consistent w
  | append_singleton es e ih =>
    obtain ⟨p₁, hfirst, hstep⟩ := Runs.run_concat.mp hrun
    exact step_consistent (ih hfirst) hstep

/-- **The controls are usable again** when no call is under way, however the calls before were
interleaved and however they ended. -/
theorem controls_restored (hrun : Runs.run (fun p => p.step w) load es = some p)
    (hcalls : ∀ c, ¬ (p.calls c).InFlight) :
    p.readonly = false ∧ p.inputsDisabled = false ∧ p.button ≠ .busy := by
  have hbusy := (run_consistent hrun).busy
  refine ⟨?_, ?_, fun hb => ?_⟩
  · by_contra hro
    obtain ⟨c, hc⟩ := hbusy (Or.inl (by simpa using hro))
    exact hcalls c hc
  · by_contra hdis
    obtain ⟨c, hc⟩ := hbusy (Or.inr (Or.inl (by simpa using hdis)))
    exact hcalls c hc
  · obtain ⟨c, hc⟩ := hbusy (Or.inr (Or.inr hb))
    exact hcalls c hc

/-! ## The calls of a run -/

/-- Call `c` started in the page `p₁`, whose fields it read; the events `rest` came after. -/
structure Begun (w : SendWeb) (es : List SendEvent) (c : ℕ) (p₁ : SendPage) (d : Draft)
    (rest : List SendEvent) : Prop where
  started : ∃ before inTextField, Runs.run (fun p => p.step w) load before = some p₁ ∧
    es = before ++ .start c inTextField d.keyBytes d.nonce d.salt :: rest
  read : Read w d
  payload : d.payload = encode p₁.text
  password : d.passwordValue = p₁.password

theorem Begun.concat {p₁ : SendPage} {d : Draft} {rest : List SendEvent}
    (h : Begun w es c p₁ d rest) (e : SendEvent) : Begun w (es ++ [e]) c p₁ d (rest ++ [e]) := by
  obtain ⟨before, inTextField, hrun, rfl⟩ := h.started
  exact ⟨⟨before, inTextField, hrun, by simp⟩, h.read, h.payload, h.password⟩

/-- A call is as `sendSecret` has it, for what the fields of the page `p₁` held; if its post was
accepted, the server said so. -/
def From (w : SendWeb) (es : List SendEvent) (c : ℕ) (call : Sending) (p₁ : SendPage) : Prop :=
  ∃ d rest, Begun w es c p₁ d rest ∧ Of w d call ∧
    ∀ post, Accepted post call → ∃ res, .answer c (.ok res) ∈ rest ∧ res.ok = true

theorem From.concat {p₁ : SendPage} {call : Sending} (h : From w es c call p₁) (e : SendEvent) :
    From w (es ++ [e]) c call p₁ := by
  obtain ⟨d, rest, hbegun, hof, hanswer⟩ := h
  refine ⟨d, rest ++ [e], hbegun.concat e, hof, fun post hpost => ?_⟩
  obtain ⟨res, hmem, hok⟩ := hanswer post hpost
  exact ⟨res, List.mem_append_left _ hmem, hok⟩

theorem From.next {p₁ : SendPage} {call call' : Sending} (h : From w es c call p₁)
    (hof : ∀ d, Read w d → Of w d call → Of w d call')
    (hanswer : ∀ post, Accepted post call' → Accepted post call ∨
      ∃ res, e = .answer c (.ok res) ∧ res.ok = true) : From w (es ++ [e]) c call' p₁ := by
  obtain ⟨d, rest, hbegun, hcall, hold⟩ := h
  refine ⟨d, rest ++ [e], hbegun.concat e, hof d hbegun.read hcall, fun post hpost => ?_⟩
  rcases hanswer post hpost with hpost | ⟨res, rfl, hok⟩
  · obtain ⟨res, hmem, hok⟩ := hold post hpost
    exact ⟨res, List.mem_append_left _ hmem, hok⟩
  · exact ⟨res, List.mem_append_right _ List.mem_cons_self, hok⟩

/-- The text field shows what it did, or it was emptied. -/
def Shows (p p₁ : SendPage) : Prop := p.text = p₁.text ∨ p.text = []

/-- The calls of a run and what came of them. If calls do not overlap (`alone`), the text field
stays as it was when the call started. -/
structure History (w : SendWeb) (alone : Prop) (es : List SendEvent) (p : SendPage) : Prop where
  calls : ∀ c, (p.calls c).InFlight ∨ (∃ post, Accepted post (p.calls c)) →
    ∃ p₁, From w es c (p.calls c) p₁ ∧ (alone → (p.calls c).InFlight → Shows p p₁)
  link : ∀ l, p.link = some l → ∃ c post p₁, Accepted post (p.calls c) ∧ linkOf post = some l ∧
    From w es c (p.calls c) p₁ ∧ (alone → Shows p p₁)
  clipboard : ∀ l, p.clipboard = some l → ∃ c post, Accepted post (p.calls c) ∧
    (linkOf post).getD "null".toList = l
  locked : alone → ∀ c, (p.calls c).InFlight → p.readonly = true
  one : alone → ∀ c c', (p.calls c).InFlight → (p.calls c').InFlight → c = c'

/-- No call starts while another one is under way. -/
def Alone (p : SendPage) (e : SendEvent) : Prop :=
  ∀ c inTextField keyBytes nonce salt, e = .start c inTextField keyBytes nonce salt →
    ∀ c', ¬ (p.calls c').InFlight

section Steps

variable {alone : Prop}

theorem load_history (w : SendWeb) (alone : Prop) : History w alone [] load where
  calls c h := by
    rcases h with ⟨h, -⟩ | ⟨post, ⟨link, h⟩ | h⟩
    · exact absurd rfl h
    · cases h
    · cases h
  link l h := by cases h
  clipboard l h := by cases h
  locked _ c h := absurd rfl h.1
  one _ c _ h := absurd rfl h.1

theorem History.set (h : History w alone es p) (call : Sending)
    (hflight : (p.calls c).InFlight) (hcalls : p'.calls = Function.update p.calls c call)
    (htext : p'.text = p.text) (hro : call.InFlight → p'.readonly = p.readonly)
    (hnext : ∀ p₁, From w es c (p.calls c) p₁ → From w (es ++ [e]) c call p₁)
    (hkeep : ∀ post, Accepted post (p.calls c) → Accepted post call)
    (hlink : ∀ l, p'.link = some l → p.link = some l ∨ ∃ post, Accepted post call ∧ linkOf post = some l)
    (hclip : ∀ l, p'.clipboard = some l → p.clipboard = some l ∨
      ∃ post, Accepted post call ∧ (linkOf post).getD "null".toList = l) :
    History w alone (es ++ [e]) p' := by
  obtain ⟨p₁, hfrom, hshows⟩ := h.calls c (Or.inl hflight)
  have hself : p'.calls c = call := by rw [hcalls, Function.update_self]
  have hother : ∀ c', c' ≠ c → p'.calls c' = p.calls c' := fun c' hne => by
    rw [hcalls, Function.update_of_ne hne]
  have htext' : ∀ {p₂ : SendPage}, Shows p p₂ → Shows p' p₂ := fun hs => by
    rwa [Shows, htext]
  have haccepted : ∀ {c' post}, Accepted post (p.calls c') → Accepted post (p'.calls c') := by
    intro c' post hpost
    by_cases hne : c' = c
    · subst hne
      rw [hself]
      exact hkeep post hpost
    · rwa [hother c' hne]
  -- without overlaps no other call is in flight
  have honly : alone → ∀ c', (p'.calls c').InFlight → c' = c := by
    intro ha c' hc'
    by_contra hne
    rw [hother c' hne] at hc'
    exact hne (h.one ha c' c hc' hflight)
  refine ⟨fun c' hlive => ?_, fun l hl => ?_, fun l hl => ?_, fun ha c' hc' => ?_,
    fun ha c' c'' hc' hc'' => ?_⟩
  · by_cases hne : c' = c
    · subst hne
      rw [hself]
      exact ⟨p₁, hnext p₁ hfrom, fun ha _ => htext' (hshows ha hflight)⟩
    · rw [hother c' hne] at hlive ⊢
      obtain ⟨p₂, hfrom₂, hshows₂⟩ := h.calls c' hlive
      exact ⟨p₂, hfrom₂.concat e, fun ha hc' => htext' (hshows₂ ha hc')⟩
  · rcases hlink l hl with hold | ⟨post, hpost, heq⟩
    · obtain ⟨c', post, p₂, hpost, heq, hfrom₂, hshows₂⟩ := h.link l hold
      refine ⟨c', post, p₂, haccepted hpost, heq, ?_, fun ha => htext' (hshows₂ ha)⟩
      by_cases hne : c' = c
      · subst hne
        rw [hself]
        exact hnext p₂ hfrom₂
      · rw [hother c' hne]
        exact hfrom₂.concat e
    · exact ⟨c, post, p₁, hself ▸ hpost, heq, hself ▸ hnext p₁ hfrom,
        fun ha => htext' (hshows ha hflight)⟩
  · rcases hclip l hl with hold | ⟨post, hpost, heq⟩
    · obtain ⟨c', post, hpost, heq⟩ := h.clipboard l hold
      exact ⟨c', post, haccepted hpost, heq⟩
    · exact ⟨c, post, hself ▸ hpost, heq⟩
  · obtain rfl := honly ha c' hc'
    rw [hself] at hc'
    rw [hro hc']
    exact h.locked ha _ hflight
  · exact (honly ha c' hc').trans (honly ha c'' hc'').symm

theorem History.changed (h : History w alone es p) (hflight : (p.calls c).InFlight)
    (hchange : Change w c p p')
    (hanswer : ∀ post, Accepted post (p'.calls c) → Accepted post (p.calls c) ∨
      ∃ res, e = .answer c (.ok res) ∧ res.ok = true) : History w alone (es ++ [e]) p' := by
  have hcopy : (∀ post link, p.calls c ≠ .copy post link) → ∀ post, ¬ Accepted post (p.calls c) := by
    rintro hfrom post (⟨link, hc⟩ | hc)
    · exact hfrom _ _ hc
    · exact hflight.2 _ hc
  cases hchange with
  | waits call hfrom hto hnocopy hof =>
    refine h.set call hflight rfl rfl (fun _ => rfl) (fun p₁ hf => hf.next hof fun post hpost => ?_)
      (fun post hpost => absurd hpost (hcopy hfrom post)) (fun l hl => Or.inl hl)
      (fun l hl => Or.inl hl)
    refine hanswer post ?_
    simpa only [setCall, Function.update_self] using hpost
  | failed popup hfrom =>
    refine h.set (.returned none) hflight rfl rfl (fun hto => absurd rfl (hto.2 none))
      (fun p₁ hf => hf.next (fun d _ _ post hpost => absurd hpost (by simp)) fun post hpost => ?_)
      (fun post hpost => absurd hpost (hcopy hfrom post)) (fun l hl => Or.inl hl)
      (fun l hl => Or.inl hl)
    rcases hpost with ⟨link, hc⟩ | hc <;> cases hc
  | linked post hc =>
    refine h.set (.copy post ((linkOf post).getD "null".toList)) hflight rfl rfl
      (fun _ => rfl) (fun p₁ hf => hf.next (fun d _ hof => ?_) fun post' hpost => ?_)
      (fun post' hpost => ?_) (fun l hl => Or.inr ⟨post, Or.inl ⟨_, rfl⟩, hl⟩) (fun l hl => Or.inl hl)
    · rw [hc] at hof
      exact ⟨hof, rfl⟩
    · refine hanswer post' ?_
      simpa only [setCall, Function.update_self] using hpost
    · rw [hc] at hpost
      rcases hpost with ⟨link, hc⟩ | hc <;> cases hc
  | linkedOnly post popup hc =>
    refine h.set (.returned (some post)) hflight rfl rfl (fun hto => absurd rfl (hto.2 _))
      (fun p₁ hf => hf.next (fun d _ hof => ?_) fun post' hpost => ?_)
      (fun post' hpost => ?_) (fun l hl => Or.inr ⟨post, Or.inr rfl, hl⟩) (fun l hl => Or.inl hl)
    · rw [hc] at hof
      intro post' hpost'
      rw [← Option.mem_some_iff.mp hpost']
      exact hof
    · refine hanswer post' ?_
      simpa only [finish_eq, Function.update_self] using hpost
    · rw [hc] at hpost
      rcases hpost with ⟨link, hc⟩ | hc <;> cases hc
  | copied post link b popup clipboard hc hb hclip =>
    have hkeep : ∀ post', Accepted post' (p.calls c) → Accepted post' (.returned (some post)) := by
      rintro post' (⟨link', hc'⟩ | hc')
      · obtain ⟨rfl, -⟩ := Sending.copy.inj (hc.symm.trans hc')
        exact Or.inr rfl
      · exact absurd hc' (hflight.2 _)
    obtain ⟨p₁, ⟨d, rest, hbegun, hof, -⟩, -⟩ := h.calls c (Or.inl hflight)
    rw [hc] at hof
    refine h.set (.returned (some post)) hflight rfl rfl (fun hto => absurd rfl (hto.2 _))
      (fun p₁ hf => hf.next (fun d _ hof => ?_) fun post' hpost => ?_) hkeep (fun l hl => Or.inl hl)
      (fun l hl => ?_)
    · rw [hc] at hof
      intro post' hpost'
      rw [← Option.mem_some_iff.mp hpost']
      exact hof.1
    · refine hanswer post' ?_
      simpa only [finish_eq, Function.update_self] using hpost
    · rcases hclip with rfl | rfl
      · exact Or.inl hl
      · exact Or.inr ⟨post, Or.inr rfl, hof.2.symm.trans (Option.some.inj hl)⟩

theorem History.started (h : History w alone es p) (call : Sending) (hidle : p.calls c = .idle)
    (hcalls : p'.calls = Function.update p.calls c call) (hlink : p'.link = none)
    (hclip : p'.clipboard = p.clipboard) (hnone : ∀ post, ¬ Accepted post call)
    (halone : alone → ∀ c', ¬ (p.calls c').InFlight) (hro : call.InFlight → p'.readonly = true)
    (hnew : call.InFlight → From w (es ++ [e]) c call p) (htext : p'.text = p.text) :
    History w alone (es ++ [e]) p' := by
  have hself : p'.calls c = call := by rw [hcalls, Function.update_self]
  have hother : ∀ c', c' ≠ c → p'.calls c' = p.calls c' := fun c' hne => by
    rw [hcalls, Function.update_of_ne hne]
  have honly : alone → ∀ c', (p'.calls c').InFlight → c' = c := by
    intro ha c' hc'
    by_contra hne
    rw [hother c' hne] at hc'
    exact halone ha c' hc'
  refine ⟨fun c' hlive => ?_, fun l hl => ?_, fun l hl => ?_, fun ha c' hc' => ?_,
    fun ha c' c'' hc' hc'' => (honly ha c' hc').trans (honly ha c'' hc'').symm⟩
  · by_cases hne : c' = c
    · subst hne
      rw [hself] at hlive ⊢
      rcases hlive with hflight | ⟨post, hpost⟩
      · exact ⟨p, hnew hflight, fun _ _ => Or.inl htext⟩
      · exact absurd hpost (hnone post)
    · rw [hother c' hne] at hlive ⊢
      obtain ⟨p₁, hfrom, hshows⟩ := h.calls c' hlive
      exact ⟨p₁, hfrom.concat e, fun ha hc' => absurd hc' (halone ha c')⟩
  · rw [hlink] at hl
    cases hl
  · rw [hclip] at hl
    obtain ⟨c', post, hpost, heq⟩ := h.clipboard l hl
    refine ⟨c', post, ?_, heq⟩
    rw [hother c' (by
      rintro rfl
      rw [hidle] at hpost
      rcases hpost with ⟨link, hc⟩ | hc <;> cases hc)]
    exact hpost
  · obtain rfl := honly ha c' hc'
    exact hro (hself ▸ hc')

/-- **One event** keeps the history. -/
theorem history_step (hrun : Runs.run (fun p => p.step w) load es = some p)
    (h : History w alone es p) (hstep : p.step w e = some p') (halone : alone → Alone p e) :
    History w alone (es ++ [e]) p' := by
  cases step_moves (run_consistent hrun) hstep with
  | cleared _ text password b q hb ht =>
    refine ⟨fun c hlive => ?_, fun l hl => (by cases hl), fun l hl => h.clipboard l hl,
      fun ha c hc => h.locked ha c hc, fun ha c c' hc hc' => h.one ha c c' hc hc'⟩
    obtain ⟨p₁, hfrom, hshows⟩ := h.calls c hlive
    refine ⟨p₁, hfrom.concat e, fun ha hc => ?_⟩
    -- a text field that can be changed belongs to no call
    rcases ht with rfl | rfl | hro
    · exact Or.inr rfl
    · exact hshows ha hc
    · have hlocked := h.locked ha c hc
      rw [hro] at hlocked
      cases hlocked
  | kept _ clipboard q hclip =>
    refine ⟨fun c hlive => ?_, fun l hl => ?_, fun l hl => ?_, fun ha c hc => h.locked ha c hc,
      fun ha c c' hc hc' => h.one ha c c' hc hc'⟩
    · obtain ⟨p₁, hfrom, hshows⟩ := h.calls c hlive
      exact ⟨p₁, hfrom.concat e, hshows⟩
    · obtain ⟨c, post, p₁, hpost, heq, hfrom, hshows⟩ := h.link l hl
      exact ⟨c, post, p₁, hpost, heq, hfrom.concat e, hshows⟩
    · rcases hclip with rfl | rfl
      · exact h.clipboard l hl
      · obtain ⟨c, post, -, hpost, heq, -⟩ := h.link l hl
        exact ⟨c, post, hpost, by rw [heq]; rfl⟩
  | begun c inTextField d hidle hread hpayload hpassword =>
    refine h.started (.importHkdfKey d) hidle rfl rfl rfl ?_ (fun ha => halone ha _ _ _ _ _ rfl) (fun _ => rfl)
      (fun _ => ⟨d, [], ⟨⟨es, inTextField, hrun, rfl⟩, hread, hpayload, hpassword⟩, rfl, ?_⟩) rfl
    · rintro post (⟨link, hc⟩ | hc) <;> cases hc
    · rintro post (⟨link, hc⟩ | hc) <;> cases hc
  | notBegun c _ _ _ _ popup hidle =>
    refine h.started (.returned none) hidle rfl rfl rfl ?_ (fun ha => halone ha _ _ _ _ _ rfl)
      (fun hto => absurd rfl (hto.2 none)) (fun hto => absurd rfl (hto.2 none)) rfl
    rintro post (⟨link, hc⟩ | hc) <;> cases hc
  | changed _ c hflight hchange hanswer => exact h.changed hflight hchange hanswer

theorem run_history (alone : Prop) (hrun : Runs.run (fun p => p.step w) load es = some p)
    (halone : alone → Runs.EveryStep (fun p => p.step w) Alone load es) : History w alone es p := by
  induction es using List.reverseRecOn generalizing p with
  | nil => exact Option.some.inj hrun ▸ load_history w alone
  | append_singleton es e ih =>
    obtain ⟨p₁, hfirst, hstep⟩ := Runs.run_concat.mp hrun
    exact history_step hfirst (ih hfirst fun ha => (halone ha).concat.1) hstep fun ha =>
      (halone ha).concat.2 p₁ p hfirst hstep

end Steps

theorem started_of_inFlight (hrun : Runs.run (fun p => p.step w) load es = some p)
    (hflight : (p.calls c).InFlight) : ∃ inTextField keyBytes nonce salt,
    .start c inTextField keyBytes nonce salt ∈ es := by
  have hhist := run_history False hrun False.elim
  obtain ⟨p₁, ⟨d, rest, hbegun, -, -⟩, -⟩ := hhist.calls c (Or.inl hflight)
  obtain ⟨before, inTextField, -, rfl⟩ := hbegun.started
  exact ⟨inTextField, d.keyBytes, d.nonce, d.salt,
    List.mem_append_right _ List.mem_cons_self⟩

/-! ## What a link opens -/

section Opens

variable {v v' : Web} {payload key nonce salt : List UInt8} {passwordValue link : List Char}
  {post : Post}

theorem post_eq (hsend : sendSecret v payload passwordValue key nonce salt = .ok (.post post)) :
    ∃ origin, getOrigin v = .ok origin ∧
      post = ⟨normalizeOrigin origin ++ "/blob/".toList ++
        bytesToHex (deriveIdFromKeyAndSalt v.crypto key salt),
        secretBlob v.crypto payload passwordValue key nonce salt, origin,
        deriveIdFromKeyAndSalt v.crypto key salt, key⟩ := by
  cases hget : getOrigin v with
  | error err => simp [sendSecret, hget, bind, Except.bind] at hsend
  | ok origin =>
    have hpayload : payload ≠ [] := by
      rintro rfl
      simp [sendSecret, hget, bind, Except.bind, pure, Except.pure] at hsend
    rw [sendSecret_eq hget hpayload] at hsend
    simp only at hsend
    split_ifs at hsend
    · cases hsend
    · exact ⟨origin, rfl, (Sent.post.inj (Except.ok.inj hsend)).symm⟩

theorem linkOf_post (hv : v.Lawful) (hkey : key.length = keySize)
    (hsend : sendSecret v payload passwordValue key nonce salt = .ok (.post post)) :
    linkOf post = some (normalizeOrigin post.origin ++ "/receive#".toList ++
      base64UrlEncode post.idBytes ++ ['/'] ++ base64UrlEncode post.keyBytes) := by
  obtain ⟨origin, hget, rfl⟩ := post_eq hsend
  exact setLink_encode hkey (hv.crypto.length_deriveBits _ _ _ _) (getOrigin_ok hv hget).1

/-- On every page of the service that is handed the post, the link yields the bytes of a text. -/
def Opens (v : Web) (post : Post) (link passwordValue text : List Char) : Prop :=
  ∀ (v' : Web) (fetch : List Char → Except JsError Response) (res : Response), v'.Lawful →
    v'.crypto = v.crypto → getOrigin v' = getOrigin v → fetch post.url = .ok res → res.ok = true →
      res.body = post.blob → displayed v' fetch (locationHash link) passwordValue = some (encode text)

theorem opens_of_post {text : List Char} (hv : v.Lawful) (hkey : key.length = keySize)
    (hnonce : nonce.length = nonceSize) (hsalt : salt.length = saltSize)
    (hsend : sendSecret v (encode text) passwordValue key nonce salt = .ok (.post post))
    (hlink : linkOf post = some link) : Opens v post link passwordValue text := by
  intro v' fetch res hv' hcrypto horigin hfetch hok hbody
  rw [linkOf_post hv hkey hsend] at hlink
  obtain rfl := Option.some.inj hlink
  obtain ⟨origin, hget, rfl⟩ := post_eq hsend
  have hlen : (deriveIdFromKeyAndSalt v.crypto key salt).length = idSize :=
    hv.crypto.length_deriveBits _ _ _ _
  have hhash := parseLocationHash_link hv' (getOrigin_ok hv hget).2 (fun c => isIdChar_of_mem_encode)
    (by rw [length_base64UrlEncode, hlen]; decide) (fun c => isIdChar_of_mem_encode)
    (List.ne_nil_of_length_pos (by rw [length_base64UrlEncode, hkey]; decide))
  have hreceive := tryToReceiveSecret_secretBlob hv' (horigin.trans hget) hkey hnonce hsalt
    (by rw [hcrypto]) hhash hfetch hok (hbody.trans (by rw [hcrypto]))
  rw [displayed, hreceive]
  by_cases hpassword : passwordValue = []
  · simp only [hpassword, if_true, wrapPayload]
  · simp only [if_neg hpassword]
    rw [decryptPending, wrapPayload, if_neg hpassword]
    simp only [hv'.crypto.decrypt_encrypt, Except.toOption]

end Opens

theorem From.accepted {p₁ : SendPage} {call : Sending} {post : Post} (h : From w es c call p₁)
    (hpost : Accepted post call) : ∃ before inTextField d rest res,
      es = before ++ .start c inTextField d.keyBytes d.nonce d.salt :: rest ∧
      Runs.run (fun p => p.step w) load before = some p₁ ∧ Read w d ∧
      sendSecret w.toWeb (encode p₁.text) p₁.password d.keyBytes d.nonce d.salt = .ok (.post post) ∧
      .answer c (.ok res) ∈ rest ∧ res.ok = true := by
  obtain ⟨d, rest, hbegun, hof, hanswer⟩ := h
  obtain ⟨before, inTextField, hrun, heq⟩ := hbegun.started
  obtain ⟨res, hmem, hok⟩ := hanswer post hpost
  refine ⟨before, inTextField, d, rest, res, heq, hrun, hbegun.read, ?_, hmem, hok⟩
  rw [← hbegun.payload, ← hbegun.password]
  rcases hpost with ⟨link, rfl⟩ | rfl
  · exact hof.1
  · exact hof post rfl

/-- The user has a link: in the output field, as a code, or on the clipboard. -/
def Offers (p : SendPage) (link : List Char) : Prop :=
  (p.generatedUrl = link ∧ link ≠ []) ∨ p.qr = some link ∨ p.clipboard = some link

/-- **A link that the user has** is from a call that the server accepted, and it yields, with the
password if there was one, the bytes of the text that the field held when this call started. -/
theorem shown_link (hw : w.toWeb.Lawful) (hrun : Runs.run (fun p => p.step w) load es = some p)
    {link : List Char} (hlink : p.Offers link) :
    ∃ before c inTextField keyBytes nonce salt rest p₁ post res,
      es = before ++ .start c inTextField keyBytes nonce salt :: rest ∧
      Runs.run (fun p => p.step w) load before = some p₁ ∧
      sendSecret w.toWeb (encode p₁.text) p₁.password keyBytes nonce salt = .ok (.post post) ∧
      .answer c (.ok res) ∈ rest ∧ res.ok = true ∧
      Opens w.toWeb post link p₁.password p₁.text := by
  have hcons := run_consistent hrun
  have hhist := run_history False hrun False.elim
  have hfrom : ∃ c post p₁, Accepted post (p.calls c) ∧ From w es c (p.calls c) p₁ ∧
      (linkOf post).getD "null".toList = link := by
    have hshown : p.link = some link → ∃ c post p₁, Accepted post (p.calls c) ∧
        From w es c (p.calls c) p₁ ∧ (linkOf post).getD "null".toList = link := fun hl => by
      obtain ⟨c, post, p₁, hpost, heq, hf, -⟩ := hhist.link link hl
      exact ⟨c, post, p₁, hpost, hf, by rw [heq]; rfl⟩
    rcases hlink with ⟨hurl, hne⟩ | hqr | hclip
    · refine hshown ?_
      rw [hcons.generatedUrl] at hurl
      cases hl : p.link with
      | none =>
        rw [hl] at hurl
        exact absurd hurl.symm hne
      | some l =>
        rw [hl] at hurl
        exact congrArg some hurl
    · rw [hcons.qr] at hqr
      exact hshown (Option.eq_some_of_filter_eq_some hqr)
    · obtain ⟨c, post, hpost, heq⟩ := hhist.clipboard link hclip
      obtain ⟨p₁, hf, -⟩ := hhist.calls c (Or.inr ⟨post, hpost⟩)
      exact ⟨c, post, p₁, hpost, hf, heq⟩
  obtain ⟨c, post, p₁, hpost, hf, heq⟩ := hfrom
  obtain ⟨before, inTextField, d, rest, res, hes, hbefore, hread, hsend, hmem, hok⟩ := hf.accepted hpost
  rw [linkOf_post hw hread.key hsend, Option.getD_some] at heq
  exact ⟨before, c, inTextField, d.keyBytes, d.nonce, d.salt, rest, p₁, post, res, hes, hbefore, hsend,
    hmem, hok, opens_of_post hw hread.key hread.nonce hread.salt hsend
      ((linkOf_post hw hread.key hsend).trans (congrArg some heq))⟩

/-- **The link in the output field yields the bytes of the text in the text field**, if calls do not
overlap and the text was not scrubbed; and no password is left in its field. -/
theorem shown_link_current (hw : w.toWeb.Lawful)
    (hrun : Runs.run (fun p => p.step w) load es = some p)
    (halone : Runs.EveryStep (fun p => p.step w) Alone load es) (hlink : p.generatedUrl ≠ []) :
    p.password = [] ∧ (p.text = [] ∨ ∃ c post res passwordValue keyBytes nonce salt,
      sendSecret w.toWeb (encode p.text) passwordValue keyBytes nonce salt = .ok (.post post) ∧
      .answer c (.ok res) ∈ es ∧ res.ok = true ∧
      Opens w.toWeb post p.generatedUrl passwordValue p.text) := by
  have hcons := run_consistent hrun
  have hhist := run_history True hrun fun _ => halone
  cases hl : p.link with
  | none =>
    rw [hcons.generatedUrl, hl] at hlink
    exact absurd rfl hlink
  | some link =>
    refine ⟨hcons.password (by rw [hl]; simp), ?_⟩
    obtain ⟨c, post, p₁, hpost, heq, hf, hshows⟩ := hhist.link link hl
    rcases hshows trivial with htext | hnil
    · obtain ⟨before, inTextField, d, rest, res, rfl, -, hread, hsend, hmem, hok⟩ := hf.accepted hpost
      refine Or.inr ⟨c, post, res, p₁.password, d.keyBytes, d.nonce, d.salt, by rw [htext]; exact hsend,
        by simp [hmem], hok, ?_⟩
      rw [hcons.generatedUrl, hl, htext]
      exact opens_of_post hw hread.key hread.nonce hread.salt hsend heq
    · exact Or.inl hnil

/-! ## A secret to send -/

/-- A browser with a clipboard, which draws every code. -/
def demoSendWeb : SendWeb := { demoWeb with hasClipboard := true, makesCode := fun _ => true }

/-- Call `c` runs from its first promise to its last one. -/
def demoCall (c : ℕ) : List SendEvent :=
  List.replicate 7 (.settle c none) ++ [.answer c (.ok ⟨201, [], []⟩), .settle c none]

/-- The text `hi` is sent with the password `pw`. -/
def demoEvents : List SendEvent :=
  [.frame, .inputText "hi".toList, .inputPassword "pw".toList,
    .start 0 false demoKey demoNonce demoSalt] ++ demoCall 0

/-- The link to a demo secret. -/
def demoLink : List Char :=
  normalizeOrigin "https://a".toList ++ "/receive#".toList ++ base64UrlEncode demoId ++ ['/'] ++
    base64UrlEncode demoKey

theorem demo_run : ∃ p, Runs.run (fun p => p.step demoSendWeb) load demoEvents = some p ∧
    p.text = "hi".toList ∧ p.generatedUrl = demoLink ∧ (p.calls 0).isIdle = false := by
  have hrun : (Runs.run (fun p => p.step demoSendWeb) load demoEvents).map
      (fun p => (p.text, p.generatedUrl, (p.calls 0).isIdle)) = some ("hi".toList, demoLink, false) := by
    decide +kernel
  obtain ⟨p, hp, heq⟩ := Option.map_eq_some_iff.mp hrun
  simp only [Prod.mk.injEq] at heq
  exact ⟨p, hp, heq⟩

theorem demo_alone : Runs.EveryStep (fun p => p.step demoSendWeb) Alone load demoEvents := by
  have hother : ∀ {p : SendPage} {e : SendEvent}, (∀ c i key n s, e ≠ .start c i key n s) → Alone p e :=
    fun h c i key n s he => absurd he (h c i key n s)
  intro p₁ h₁
  obtain rfl := Option.some.inj h₁
  refine ⟨hother (by simp), fun p₂ h₂ => ?_⟩
  obtain rfl := Option.some.inj h₂
  refine ⟨hother (by simp), fun p₃ h₃ => ?_⟩
  obtain rfl := Option.some.inj h₃
  refine ⟨hother (by simp), fun p₄ h₄ => ⟨fun _ _ _ _ _ _ _ hflight => hflight.1 rfl, ?_⟩⟩
  refine Runs.everyStep_of_forall _ fun p e he => hother fun c i key n s heq => ?_
  subst heq
  simp [demoCall] at he

theorem shown_link_demo : ∃ p post, Runs.run (fun p => p.step demoSendWeb) load demoEvents = some p ∧
    p.generatedUrl = demoLink ∧ Opens demoWeb post demoLink "pw".toList "hi".toList := by
  obtain ⟨p, hrun, -, hurl, -⟩ := demo_run
  have hoffers : p.Offers demoLink := Or.inl ⟨hurl, by decide +kernel⟩
  obtain ⟨before, c, i, key, n, s, rest, p₁, post, res, hes, hbefore, -, -, -, hopens⟩ :=
    shown_link demoWeb_lawful hrun hoffers
  -- the one call of the run starts as the fourth event
  have hfour : before = demoEvents.take 3 := by
    have hlen : before.length = 3 := by
      have hat : demoEvents[before.length]? = some (.start c i key n s) := by
        rw [hes, List.getElem?_append_right le_rfl, Nat.sub_self]
        rfl
      have hlt : before.length < 13 := by
        have := congrArg List.length hes
        simp [demoEvents, demoCall] at this
        omega
      generalize before.length = n at hat hlt
      interval_cases n <;> first | rfl | (simp [demoEvents, demoCall] at hat)
    rw [hes, ← hlen, List.take_left]
  subst hfour
  obtain rfl := Option.some.inj hbefore
  exact ⟨p, post, hrun, hurl, hopens⟩

theorem shown_link_current_demo : ∃ p passwordValue post,
    Runs.run (fun p => p.step demoSendWeb) load demoEvents = some p ∧ p.password = [] ∧
      Opens demoWeb post demoLink passwordValue "hi".toList := by
  obtain ⟨p, hrun, htext, hurl, -⟩ := demo_run
  obtain ⟨hpassword, hnil | ⟨-, post, -, passwordValue, -, -, -, -, -, -, hopens⟩⟩ :=
    shown_link_current demoWeb_lawful hrun demo_alone (by rw [hurl]; decide +kernel)
  · rw [htext] at hnil
    cases hnil
  · rw [hurl, htext] at hopens
    exact ⟨p, passwordValue, post, hrun, hpassword, hopens⟩

/-- Ctrl+Enter starts a second call while the first one is under way; the server refuses the first. -/
def demoBusy : List SendEvent :=
  [.frame, .inputText "hi".toList, .inputPassword "pw".toList,
    .start 0 true demoKey demoNonce demoSalt, .start 1 true demoKey demoNonce demoSalt] ++
      List.replicate 7 (.settle 0 none)

theorem controls_restored_demo : ∃ p₁ p,
    Runs.run (fun p => p.step demoSendWeb) load demoBusy = some p₁ ∧
    p₁.readonly = true ∧ p₁.inputsDisabled = true ∧ p₁.button = .busy ∧
    Runs.run (fun p => p.step demoSendWeb) load (demoBusy ++
      [.answer 0 (.ok ⟨500, [], []⟩), .settle 0 none] ++ demoCall 1) = some p ∧
    p.readonly = false ∧ p.inputsDisabled = false ∧ p.button ≠ .busy := by
  obtain ⟨p₁, hbusy, hlocked⟩ := Option.map_eq_some_iff.mp
    (show (Runs.run (fun p => p.step demoSendWeb) load demoBusy).map
      (fun p => (p.readonly, p.inputsDisabled, p.button)) = some (true, true, .busy) by decide +kernel)
  obtain ⟨p, hrun, hdone⟩ := Option.map_eq_some_iff.mp
    (show (Runs.run (fun p => p.step demoSendWeb) load (demoBusy ++
      [.answer 0 (.ok ⟨500, [], []⟩), .settle 0 none] ++ demoCall 1)).map
        (fun p => (decide (p.calls 0).InFlight, decide (p.calls 1).InFlight)) =
          some (false, false) by decide +kernel)
  simp only [Prod.mk.injEq, decide_eq_false_iff_not] at hlocked hdone
  obtain ⟨hreadonly, hdisabled, hbutton⟩ := hlocked
  refine ⟨p₁, p, hbusy, hreadonly, hdisabled, hbutton, hrun, controls_restored hrun fun c hflight => ?_⟩
  obtain ⟨inTextField, key, nonce, salt, hmem⟩ := started_of_inFlight hrun hflight
  simp only [demoBusy, demoCall, List.mem_append, List.mem_cons, List.mem_replicate, List.not_mem_nil,
    SendEvent.start.injEq, reduceCtorEq, and_false, false_or, or_false] at hmem
  rcases hmem with ⟨rfl, -⟩ | ⟨rfl, -⟩
  · exact hdone.1 hflight
  · exact hdone.2 hflight

/-- Two calls of one text: the first one ends and frees the text field, which is changed; then the
second one ends, and the link that is shown is to the first text. -/
theorem stale_link : ∃ post, sendSecret demoWeb (encode "a".toList) [] demoKey demoNonce demoSalt =
      .ok (.post post) ∧
    (Runs.run (fun p => p.step demoSendWeb) load
      ([.inputText "a".toList, .start 0 true demoKey demoNonce demoSalt,
        .start 1 true demoKey demoNonce demoSalt] ++
        (demoCall 0).drop 3 ++ [.inputText "b".toList] ++ (demoCall 1).drop 3)).map
          (fun p => (p.text, some p.generatedUrl)) = some ("b".toList, linkOf post) := by
  refine ⟨_, rfl, ?_⟩
  decide +kernel

end SendPage

end Adnihilum.Client
