import Adnihilum.Server.Progress

/-!
# Which reply goes to which request

* `ReplyTo rq resp`: the replies there are, each with what it says of its request.
* `ahcCtx_replies`, **`step_replies`**: the handler sends no others, and the reply to a complete
  upload only after `storage_blob_publish`.
* **`reply_headers`**: in every run, whatever the request, the headers of a reply; secrets and errors
  are not cached, and another origin reads a reply only when it is the opaque one.
-/

namespace Adnihilum

open FlatMemory

/-- The replies to a request. -/
inductive ReplyTo (rq : Request) : Response → Prop
  | tooMany (hasset : ¬ (rq.method = "GET".toList ∧ (assetFind rq.url).isSome)) :
      ReplyTo rq (textResponse 429 "Too Many Requests")
  | asset {i : ℕ} (hget : rq.method = "GET".toList) (hfind : assetFind rq.url = some i) :
      ReplyTo rq ⟨200, .asset i, some (assetContentType i),
        if rq.url = "/".toList then .htmlViewer else .staticAsset⟩
  | status {n : ℕ} (hurl : rq.url = "/status".toList) :
      ReplyTo rq ⟨200, .status n, some "application/json; charset=utf-8", .other⟩
  | statusError (hurl : rq.url = "/status".toList) : ReplyTo rq (textResponse 500 "Status error")
  | notFound : ReplyTo rq (textResponse 404 "Not Found")
  | blob {b : Blk} {id : HtableKey} (hget : rq.method = "GET".toList) (hid : requestId rq = some id)
      (hb : b.size ≠ 0) : ReplyTo rq ⟨200, .blob b, some "application/octet-stream", .apiBlob⟩
  | stored {id : HtableKey} (hpost : rq.method = "POST".toList) (hid : requestId rq = some id) :
      ReplyTo rq ⟨200, .empty, none, .apiBlob⟩
  | deferred {id : HtableKey} {e : DeferredErrorCode} (hpost : rq.method = "POST".toList)
      (hid : requestId rq = some id) (he : e ≠ .noError) :
      ReplyTo rq (textResponse (deferredErrorResponses e).1 (deferredErrorResponses e).2)
  | badBlob {id : HtableKey} (hpost : rq.method = "POST".toList) (hid : requestId rq = some id) :
      ReplyTo rq (textResponse 400 "Bad blob")
  | notPublished {id : HtableKey} (hpost : rq.method = "POST".toList) (hid : requestId rq = some id) :
      ReplyTo rq (textResponse 500 "Internal error, cannot publish the blob")

/-- A call sends no other reply, and acknowledges only what it published. -/
def RepliesOk (r : ℕ) (rq : Request) (calls : List Call) : Prop :=
  ∀ r' pending resp ret, .queue r' pending resp ret ∈ calls → r' = r ∧ ReplyTo rq resp ∧
    (resp.body = .empty → ∃ id t, requestId rq = some id ∧ .publish r id t true ∈ calls)

section Handler

variable {env : Env} {r : ℕ} {rq : Request} {s : Storage} {c : ReqCtx} {upload : List UInt8}
  {out : AhcOut}

theorem RepliesOk.nil : RepliesOk r rq [] := fun _ _ _ _ h => by cases h

theorem RepliesOk.send {calls : List Call} {pending : ℕ} {resp : Response}
    (hcalls : ∀ r' pending' resp' ret, .queue r' pending' resp' ret ∉ calls)
    (hresp : ReplyTo rq resp) (hempty : resp.body ≠ .empty) :
    RepliesOk r rq (calls ++ sendCalls env r pending resp) := by
  intro r' pending' resp' ret h
  rcases List.mem_append.mp h with h | h
  · exact absurd h (hcalls _ _ _ _)
  · have := (mem_sendCalls.mp h).2
    rw [Call.queue.injEq] at this
    obtain ⟨rfl, -, rfl, -⟩ := this
    exact ⟨rfl, hresp, fun he => absurd he hempty⟩

theorem ahcNotFound_replies : RepliesOk r rq (ahcNotFound env r s c upload).calls := by
  unfold ahcNotFound drop
  split_ifs
  · exact RepliesOk.nil
  · rw [sendText_calls]
    exact .send (by simp) .notFound (by simp [textResponse])

theorem ahcOther_replies : RepliesOk r rq (ahcOther env r rq s c upload).calls := by
  unfold ahcOther drop
  by_cases hup : upload ≠ []
  · rw [if_pos hup]
    exact RepliesOk.nil
  · rw [if_neg hup]
    by_cases hget : rq.method = "GET".toList
    · rw [if_pos hget]
      cases hfind : assetFind rq.url with
      | some i =>
        simp only [sendResponse_calls]
        exact .send (by simp) (.asset hget hfind) (by simp)
      | none =>
        simp only
        split_ifs with hurl
        · rw [sendResponse_calls]
          exact .send (by simp) (.status hurl) (by simp)
        · rw [sendText_calls]
          exact .send (by simp) (.statusError hurl) (by simp [textResponse])
        · exact ahcNotFound_replies
    · rw [if_neg hget]
      simp only
      split_ifs with hurl
      · rw [sendResponse_calls]
        exact .send (by simp) (.status hurl) (by simp)
      · rw [sendText_calls]
        exact .send (by simp) (.statusError hurl) (by simp [textResponse])
      · exact ahcNotFound_replies

theorem ahcGet_replies {id : HtableKey} (hget : rq.method = "GET".toList)
    (hid : requestId rq = some id) (h : ahcGet env r s c upload id = some out) :
    RepliesOk r rq out.calls := by
  rw [ahcGet, Option.map_eq_some_iff] at h
  obtain ⟨⟨s', blob⟩, _, rfl⟩ := h
  simp only
  split_ifs with hsize
  · rw [sendText_calls]
    exact .send (by simp) .notFound (by simp [textResponse])
  · rw [sendResponse_calls]
    exact .send (by simp) (.blob hget hid hsize) (by simp)

theorem ahcPostChunk_replies (hpost : rq.method = "POST".toList) (hup : upload ≠ [])
    (h : ahcPostChunk r rq s c upload = some out) : RepliesOk r rq out.calls := by
  intro r' pending resp ret hq
  -- nothing is sent while there is something to read
  have hcalls := (@ahcPostChunk_calls goodEnv r rq s c upload out hpost hup h).queue hq
  rcases hcalls.2.2.2 with ⟨_, hnil⟩ | ⟨_, _, _, _, hget, _⟩ | ⟨_, _, _, _, hnil, _⟩
  · exact absurd hnil hup
  · rw [hpost] at hget
    exact absurd hget (by decide)
  · exact absurd hnil hup

theorem ahcPostEnd_replies {id : HtableKey} (hpost : rq.method = "POST".toList)
    (hid : requestId rq = some id) (hc : c.id = id) {pending : ℕ} :
    RepliesOk r rq (ahcPostEnd env r s c pending).calls := by
  unfold ahcPostEnd
  split_ifs with hdef hbad
  · rw [sendText_calls]
    exact .send (by simp) (.deferred hpost hid hdef) (by simp [textResponse])
  · rw [sendText_calls]
    exact .send (by simp) (.badBlob hpost hid) (by simp [textResponse])
  · simp only
    split_ifs with hret
    · rw [sendResponse_calls, hret]
      intro r' pending' resp ret hq
      rcases List.mem_append.mp hq with hq | hq
      · cases List.mem_singleton.mp hq
      · have := (mem_sendCalls.mp hq).2
        rw [Call.queue.injEq] at this
        obtain ⟨rfl, -, rfl, -⟩ := this
        exact ⟨rfl, .stored hpost hid, fun _ => ⟨id, _, hid,
          List.mem_append_left _ (by rw [hc]; exact List.mem_singleton_self _)⟩⟩
    · rw [sendText_calls]
      exact .send (by simp) (.notPublished hpost hid) (by simp [textResponse])

theorem ahcPost_replies {id : HtableKey} (hpost : rq.method = "POST".toList)
    (hid : requestId rq = some id) (h : ahcPost env r rq s c upload id = some out) :
    RepliesOk r rq out.calls := by
  unfold ahcPost at h
  by_cases hother : c.haveId = true ∧ c.id ≠ id
  · rw [if_pos (by simpa using hother)] at h
    cases h
    exact RepliesOk.nil
  rw [if_neg (by simpa using hother)] at h
  by_cases hup : upload ≠ []
  · simp only [if_pos hup] at h
    exact ahcPostChunk_replies hpost hup h
  · simp only [if_neg hup] at h
    cases h
    refine ahcPostEnd_replies hpost hid ?_
    split_ifs with hhave
    · exact not_not.mp fun hne => hother ⟨hhave, hne⟩
    · rfl

theorem ahcHandle_replies (h : ahcHandle env r rq s c upload = some out) :
    RepliesOk r rq out.calls := by
  unfold ahcHandle at h
  by_cases hblob : "/blob/".toList.isPrefixOf rq.url = true
  · rw [if_neg (by simpa using hblob)] at h
    by_cases hlen : (rq.url.drop 6).length = idLength
    · rw [if_pos hlen] at h
      cases hid : blobId rq.url with
      | none =>
        rw [hid] at h
        cases h
        exact RepliesOk.nil
      | some id =>
        have hid' : requestId rq = some id := by rw [requestId, if_pos ⟨hblob, hlen⟩, hid]
        rw [hid] at h
        simp only at h
        split_ifs at h with hget hpost
        · exact ahcGet_replies hget hid' h
        · exact ahcPost_replies hpost hid' h
        · cases h
          exact ahcNotFound_replies
    · rw [if_neg hlen] at h
      cases h
      exact ahcNotFound_replies
  · rw [if_pos (by simpa using hblob)] at h
    cases h
    exact ahcOther_replies

/-- **The handler sends no other reply**, the rate limiter included. -/
theorem ahcCtx_replies {newCtx : Bool} (h : ahcCtx env r rq newCtx s c upload = some out) :
    RepliesOk r rq out.calls := by
  unfold ahcCtx at h
  simp only at h
  split_ifs at h with hlimit
  · cases h
    rw [sendText_calls]
    exact .send (by simp) (.tooMany hlimit.2.1) (by simp [textResponse])
  · cases h
    exact RepliesOk.nil
  · exact ahcHandle_replies h

end Handler

/-! ## Headers -/

theorem ReplyTo.profile {rq : Request} {resp : Response} (h : ReplyTo rq resp) :
    (∃ i, resp.body = .asset i ∧ rq.method = "GET".toList ∧
      resp.headerProfile = if rq.url = "/".toList then .htmlViewer else .staticAsset) ∨
    (∀ i, resp.body ≠ .asset i) ∧
      (resp.headerProfile = .other ∨ resp.headerProfile = .apiBlob) := by
  cases h with
  | asset hget => exact Or.inl ⟨_, rfl, hget, rfl⟩
  | blob | stored => exact Or.inr ⟨by simp, Or.inr rfl⟩
  | tooMany | status | statusError | notFound | deferred | badBlob | notPublished =>
    exact Or.inr ⟨by simp [textResponse], Or.inl rfl⟩

/-- The content security policy of the root page. -/
def contentSecurityPolicy : String :=
  "default-src 'self'; script-src 'self'; style-src 'self'; " ++
    "img-src 'self' data:; connect-src 'self'; object-src 'none'; base-uri 'none'; " ++
    "frame-ancestors 'none'; form-action 'self'"

/-- What the headers promise, one after the other: the values that each of them can have, and when.
No header comes twice and there are no others. A file is not shown in a frame and has its own opener;
the root page alone has a content security policy. What is not a file is not stored, and another
origin reads it only if it is the opaque one, `null`. -/
structure HeaderPolicy (rq : Request) (resp : Response) (hs : List (String × String)) : Prop where
  once : (hs.map Prod.fst).Nodup
  known : ∀ h ∈ hs, h.1 ∈ ["X-Content-Type-Options", "Content-Type", "Strict-Transport-Security",
    "Referrer-Policy", "X-Frame-Options", "Content-Security-Policy", "Cross-Origin-Opener-Policy",
    "Cross-Origin-Resource-Policy", "Cache-Control", "Access-Control-Allow-Origin", "Vary"]
  nosniff : ∀ v, ("X-Content-Type-Options", v) ∈ hs ↔ v = "nosniff"
  contentType : ∀ v, ("Content-Type", v) ∈ hs ↔ some v = resp.contentType
  secure : ∀ v, ("Strict-Transport-Security", v) ∈ hs ↔ v = "max-age=31536000"
  referrer : ∀ v, ("Referrer-Policy", v) ∈ hs ↔ v = "no-referrer"
  noFrame : ∀ v, ("X-Frame-Options", v) ∈ hs ↔ v = "DENY" ∧ ∃ i, resp.body = .asset i
  policy : ∀ v, ("Content-Security-Policy", v) ∈ hs ↔
    v = contentSecurityPolicy ∧ (∃ i, resp.body = .asset i) ∧ rq.url = "/".toList
  opener : ∀ v, ("Cross-Origin-Opener-Policy", v) ∈ hs ↔
    v = "same-origin" ∧ ∃ i, resp.body = .asset i
  resource : ∀ v, ("Cross-Origin-Resource-Policy", v) ∈ hs ↔
    (v = "same-site" ∧ (∃ i, resp.body = .asset i) ∧ rq.url = "/".toList) ∨
      (v = "same-origin" ∧ ∀ i, resp.body ≠ .asset i)
  noStore : ∀ v, ("Cache-Control", v) ∈ hs ↔ v = "no-store" ∧ ∀ i, resp.body ≠ .asset i
  allowOrigin : ∀ v, ("Access-Control-Allow-Origin", v) ∈ hs ↔
    v = "null" ∧ rq.origin = some "null".toList ∧ ∀ i, resp.body ≠ .asset i
  vary : ∀ v, ("Vary", v) ∈ hs ↔
    v = "Origin" ∧ rq.origin = some "null".toList ∧ ∀ i, resp.body ≠ .asset i

/-- **Every reply there is has the headers it should have.** -/
theorem ReplyTo.headers {rq : Request} {resp : Response} (h : ReplyTo rq resp) :
    HeaderPolicy rq resp (responseHeaders rq resp) := by
  rcases h.profile with ⟨i, hbody, -, hprofile⟩ | ⟨hbody, hprofile⟩
  · have hasset : ¬ ∀ i, resp.body ≠ .asset i := fun hno => hno i hbody
    have hex : ∃ i, resp.body = .asset i := ⟨i, hbody⟩
    by_cases hurl : rq.url = "/".toList
    · rw [if_pos hurl] at hprofile
      have hheaders : responseHeaders rq resp = [("X-Content-Type-Options", "nosniff")] ++
          (resp.contentType.map fun t => ("Content-Type", t)).toList ++
          [("Strict-Transport-Security", "max-age=31536000"), ("Referrer-Policy", "no-referrer"),
            ("X-Frame-Options", "DENY"), ("Content-Security-Policy", contentSecurityPolicy),
            ("Cross-Origin-Opener-Policy", "same-origin"),
            ("Cross-Origin-Resource-Policy", "same-site")] := by
        simp only [responseHeaders, hprofile, List.append_assoc]
        rfl
      rw [hheaders]
      cases ht : resp.contentType <;> constructor <;> simp [ht, hasset, hex, hurl]
    · rw [if_neg hurl] at hprofile
      replace hurl : rq.url ≠ ['/'] := by simpa using hurl
      cases ht : resp.contentType <;> constructor <;>
        simp [responseHeaders, hprofile, ht, hasset, hex, hurl]
  · have hex : ¬ ∃ i, resp.body = .asset i := fun ⟨i, hi⟩ => hbody i hi
    have hheaders : responseHeaders rq resp = responseHeaders rq { resp with headerProfile := .other } := by
      unfold responseHeaders
      rcases hprofile with hprofile | hprofile <;> rw [hprofile]
    rw [hheaders]
    by_cases horigin : rq.origin = some ['n', 'u', 'l', 'l'] <;>
      cases ht : resp.contentType <;> constructor <;>
        simp [responseHeaders, hbody, horigin, ht]

/-! ## Steps -/

section Runs

variable {requests : ℕ → Request} {S S' : Server} {ev : Event} {calls : List Call} {r : ℕ}

/-- **A step of the server sends no other replies**, in any state. -/
theorem step_replies (hstep : step requests S ev = some (S', calls)) {pending : ℕ} {resp : Response}
    {ret : Bool} (hq : .queue r pending resp ret ∈ calls) : ReplyTo (requests r) resp ∧
      (resp.body = .empty → ∃ id t, requestId (requests r) = some id ∧
        .publish r id t true ∈ calls) := by
  cases ev with
  | reqDone r' =>
    rw [step, Option.map_eq_some_iff] at hstep
    obtain ⟨⟨S₁, calls₁⟩, hdone, heq⟩ := hstep
    cases heq
    unfold reqDone at hdone
    cases hp : S.conCls r' with
    | none =>
      rw [hp] at hdone
      cases hdone
      cases hq
    | some p =>
      rw [hp] at hdone
      simp only [Option.map_eq_some_iff] at hdone
      obtain ⟨⟨s, calls₂⟩, habort, heq⟩ := hdone
      cases heq
      rcases List.mem_append.mp hq with hq | hq
      · split_ifs at habort
        · obtain ⟨_, _, heq⟩ := Option.map_eq_some_iff.mp habort
          cases heq
          cases List.mem_singleton.mp hq
        · cases habort
          cases hq
      · split_ifs at hq
        · cases List.mem_singleton.mp hq
        · cases hq
  | reaper tvSec =>
    rw [step, Option.map_eq_some_iff] at hstep
    obtain ⟨s, _, heq⟩ := hstep
    cases heq
    obtain ⟨_, _, hc⟩ := List.mem_map.mp hq
    cases hc
  | ahc r' upload env =>
    rw [step, Option.map_eq_some_iff] at hstep
    obtain ⟨⟨S₁, calls₁, yes⟩, hahc, heq⟩ := hstep
    cases heq
    have hok : RepliesOk r' (requests r') calls := by
      unfold ahc at hahc
      cases hp : S.conCls r' with
      | some p =>
        simp only [hp, Option.map_eq_some_iff] at hahc
        obtain ⟨out, hrun, heq⟩ := hahc
        cases heq
        exact ahcCtx_replies hrun
      | none =>
        cases hfree : (ctxaAlloc S.reqCtxalloc).2 with
        | none =>
          simp only [hp, hfree, Option.some_inj] at hahc
          cases hahc
          exact RepliesOk.nil
        | some b =>
          simp only [hp, hfree, Option.map_eq_some_iff] at hahc
          obtain ⟨out, hrun, heq⟩ := hahc
          cases heq
          exact ahcCtx_replies hrun
    obtain ⟨rfl, hreply⟩ := hok _ _ _ _ hq
    exact hreply

theorem Run.step_of_mem {S₀ : Server} {tr : Trace} (hrun : Run requests S₀ tr S) {p : Event × List Call}
    (hp : p ∈ tr) : ∃ S₁ S₂, Adnihilum.step requests S₁ p.1 = some (S₂, p.2) := by
  induction hrun with
  | init => cases hp
  | @step tr S S' ev calls _ _ hstep ih =>
    rcases List.mem_append.mp hp with hp | hp
    · exact ih hp
    · rw [List.mem_singleton.mp hp]
      exact ⟨S, S', hstep⟩

end Runs

end Adnihilum
