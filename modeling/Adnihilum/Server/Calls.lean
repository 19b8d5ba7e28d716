import Adnihilum.Server.Refine

/-!
# What a call of the handler can do

* `AhcCalls`: the calls one run of the handler can make, by branch.
* **`ahcHandle_calls`**: these are all.
* `step_ahc`: the calls of a step of the server.
* `AhcCalls.queue`: which replies there are.
-/

namespace Adnihilum

open FlatMemory

/-- A reply with a text. -/
def textResponse (code : ℕ) (text : String) : Response :=
  ⟨code, .text text, some "text/plain; charset=utf-8", .other⟩

/-- The reply to `GET /blob/*`. -/
def blobResponse (blob : Blk) : Response :=
  if blob.size = 0 then textResponse 404 "Not Found"
  else ⟨200, .blob blob, some "application/octet-stream", .apiBlob⟩

/-- The reply to a complete upload. -/
def publishResponse (ret : Bool) : Response :=
  if ret then ⟨200, .empty, none, .apiBlob⟩
  else textResponse 500 "Internal error, cannot publish the blob"

/-- `send_response` tries to queue the reply, unless it cannot make it. -/
def sendCalls (env : Env) (r pending : ℕ) (resp : Response) : List Call :=
  if env.createOk then [.queue r pending resp env.queueOk] else []

/-- A reply that carries no block and does not report a failed `storage_blob_publish`. -/
def Response.Plain (resp : Response) : Prop :=
  (∀ b, resp.body ≠ .blob b) ∧ resp.body ≠ .text "Internal error, cannot publish the blob"

/-- **What the handler can do in one call**: nothing, reply, hand out a block, receive a chunk, or
end an upload. -/
inductive AhcCalls (env : Env) (r : ℕ) (rq : Request) (s : Storage) (upload : List UInt8) :
    List Call → Prop
  | quiet : AhcCalls env r rq s upload []
  | reply {resp : Response} (hup : upload = []) (hplain : resp.Plain) :
      AhcCalls env r rq s upload (sendCalls env r upload.length resp)
  | get {id : HtableKey} {s' : Storage} {blob : Blk} (hmethod : rq.method = "GET".toList)
      (hid : requestId rq = some id) (hget : storageBlobGet s id = some (s', blob)) :
      AhcCalls env r rq s upload
        (.get r id blob :: sendCalls env r upload.length (blobResponse blob))
  | chunk {calls : List Call} (hmethod : rq.method = "POST".toList) (hup : upload ≠ [])
      (hcalls : ∀ c ∈ calls, (∃ id size ret, c = .create r id size ret) ∨
        ∃ dst bytes, c = .write r dst bytes) : AhcCalls env r rq s upload calls
  | commit {id : HtableKey} {t : ℕ} {ret : Bool} (hmethod : rq.method = "POST".toList)
      (hup : upload = []) (hret : (storageBlobPublish s id t).2 = ret) :
      AhcCalls env r rq s upload
        (.publish r id t ret :: sendCalls env r upload.length (publishResponse ret))

section Calls

variable {env : Env} {r : ℕ} {rq : Request} {s : Storage} {c : ReqCtx} {upload : List UInt8}
  {out : AhcOut}

@[simp] theorem sendResponse_calls (pending : ℕ) (calls : List Call) (resp : Response) :
    (sendResponse env r pending s c calls resp).calls = calls ++ sendCalls env r pending resp := by
  unfold sendResponse sendCalls drop
  split_ifs <;> simp

@[simp] theorem sendText_calls (pending : ℕ) (calls : List Call) (code : ℕ) (text : String) :
    (sendText env r pending s c calls code text).calls =
      calls ++ sendCalls env r pending (textResponse code text) := sendResponse_calls _ _ _

theorem plain_text {code : ℕ} {text : String}
    (h : text ≠ "Internal error, cannot publish the blob") : (textResponse code text).Plain :=
  ⟨fun _ hb => (by cases hb), fun he => h (Body.text.inj he)⟩

theorem plain_of_body {resp : Response} (hblob : ∀ b, resp.body ≠ .blob b)
    (htext : ∀ t, resp.body ≠ .text t) : resp.Plain := ⟨hblob, htext _⟩

theorem ahcNotFound_calls :
    AhcCalls env r rq s upload (ahcNotFound env r s c upload).calls := by
  unfold ahcNotFound
  split_ifs with hup
  · exact .quiet
  · rw [sendText_calls]
    exact .reply (not_not.mp hup) (plain_text (by decide))

theorem ahcOther_calls : AhcCalls env r rq s upload (ahcOther env r rq s c upload).calls := by
  unfold ahcOther
  by_cases hup : upload ≠ []
  · rw [if_pos hup]
    exact .quiet
  · rw [if_neg hup]
    replace hup := not_not.mp hup
    cases if rq.method = "GET".toList then assetFind rq.url else none with
    | some i =>
      simp only [sendResponse_calls]
      exact .reply hup (plain_of_body (fun b hb => (by cases hb)) fun t ht => (by cases ht))
    | none =>
      simp only
      split_ifs
      · rw [sendResponse_calls]
        exact .reply hup (plain_of_body (fun b hb => (by cases hb)) fun t ht => (by cases ht))
      · rw [sendText_calls]
        exact .reply hup (plain_text (by decide))
      · exact ahcNotFound_calls

theorem ahcGet_calls {id : HtableKey} (hmethod : rq.method = "GET".toList)
    (hid : requestId rq = some id) (h : ahcGet env r s c upload id = some out) :
    AhcCalls env r rq s upload out.calls := by
  rw [ahcGet, Option.map_eq_some_iff] at h
  obtain ⟨⟨s', blob⟩, hget, rfl⟩ := h
  have : AhcCalls env r rq s upload
      (.get r id blob :: sendCalls env r upload.length (blobResponse blob)) := .get hmethod hid hget
  simp only
  split_ifs with hsize
  · rw [sendText_calls]
    rwa [blobResponse, if_pos hsize] at this
  · rw [sendResponse_calls]
    rwa [blobResponse, if_neg hsize] at this

theorem ahcPostEnd_calls (hmethod : rq.method = "POST".toList) :
    AhcCalls env r rq s [] (ahcPostEnd env r s c 0).calls := by
  have htext : ∀ code text, text ≠ "Internal error, cannot publish the blob" →
      AhcCalls env r rq s [] (sendText env r 0 s c [] code text).calls := fun code text h => by
    rw [sendText_calls]
    exact .reply rfl (plain_text h)
  unfold ahcPostEnd
  split_ifs with hdef hbad
  · refine htext _ _ ?_
    cases hd : c.deferredError with
    | noError => exact absurd hd hdef
    | oom | dup => decide
  · exact htext _ _ (by decide)
  · have := @AhcCalls.commit env r rq s [] c.id ((monotonicNowS env.tvSec + blobTtlS) % 2 ^ 32) _
      hmethod rfl rfl
    cases hret : (storageBlobPublish s c.id ((monotonicNowS env.tvSec + blobTtlS) % 2 ^ 32)).2 with
    | true =>
      rw [hret] at this
      simp only [hret, if_true, sendResponse_calls]
      exact this
    | false =>
      rw [hret] at this
      simp only [hret, Bool.false_eq_true, if_false, sendText_calls]
      exact this

theorem ahcCopy_calls {calls : List Call} {P : Call → Prop} (hcalls : ∀ c ∈ calls, P c)
    (hwrite : ∀ dst bytes, P (.write r dst bytes)) :
    ∀ c' ∈ (ahcCopy r s c calls upload).calls, P c' := by
  unfold ahcCopy drop
  split_ifs
  · exact hcalls
  · intro c' hc'
    rcases List.mem_append.mp hc' with hc' | hc'
    · exact hcalls c' hc'
    · rw [List.mem_singleton.mp hc']
      exact hwrite _ _

theorem ahcPostChunk_calls (hmethod : rq.method = "POST".toList) (hup : upload ≠ [])
    (h : ahcPostChunk r rq s c upload = some out) : AhcCalls env r rq s upload out.calls := by
  unfold ahcPostChunk at h
  split_ifs at h
  · cases h
    exact .quiet
  · cases hexp : ahcExpected rq c with
    | none =>
      rw [hexp] at h
      cases h
      exact .quiet
    | some c₁ =>
      rw [hexp] at h
      simp only at h
      split_ifs at h
      · cases h
        exact .quiet
      · rw [Option.map_eq_some_iff] at h
        obtain ⟨⟨s', blk⟩, _, rfl⟩ := h
        refine .chunk hmethod hup ?_
        simp only
        split_ifs
        · intro c' hc'
          rw [List.mem_singleton.mp hc']
          exact Or.inl ⟨_, _, _, rfl⟩
        · refine ahcCopy_calls (fun c' hc' => ?_) fun dst bytes => Or.inr ⟨dst, bytes, rfl⟩
          rw [List.mem_singleton.mp hc']
          exact Or.inl ⟨_, _, _, rfl⟩
      · cases h
        exact .chunk hmethod hup (ahcCopy_calls (by simp) fun dst bytes => Or.inr ⟨dst, bytes, rfl⟩)

theorem ahcPost_calls {id : HtableKey} (hmethod : rq.method = "POST".toList)
    (h : ahcPost env r rq s c upload id = some out) : AhcCalls env r rq s upload out.calls := by
  unfold ahcPost at h
  by_cases hother : c.haveId = true ∧ c.id ≠ id
  · rw [if_pos (by simpa using hother)] at h
    cases h
    exact .quiet
  rw [if_neg (by simpa using hother)] at h
  by_cases hup : upload ≠ []
  · simp only [if_pos hup] at h
    exact ahcPostChunk_calls hmethod hup h
  · obtain rfl : upload = [] := not_not.mp hup
    simp only [if_neg hup] at h
    cases h
    exact ahcPostEnd_calls hmethod

/-- **What the handler does**, on every path. -/
theorem ahcHandle_calls (h : ahcHandle env r rq s c upload = some out) :
    AhcCalls env r rq s upload out.calls := by
  unfold ahcHandle at h
  by_cases hblob : "/blob/".toList.isPrefixOf rq.url = true
  · rw [if_neg (by simpa using hblob)] at h
    by_cases hlen : (rq.url.drop 6).length = idLength
    · rw [if_pos hlen] at h
      cases hid : blobId rq.url with
      | none =>
        rw [hid] at h
        cases h
        exact .quiet
      | some id =>
        rw [hid] at h
        simp only at h
        split_ifs at h with hget hpost
        · exact ahcGet_calls hget (by rw [requestId, if_pos ⟨hblob, hlen⟩, hid]) h
        · exact ahcPost_calls hpost h
        · cases h
          exact ahcNotFound_calls
    · rw [if_neg hlen] at h
      cases h
      exact ahcNotFound_calls
  · rw [if_pos (by simpa using hblob)] at h
    cases h
    exact ahcOther_calls

theorem ahcHandle_get {id : HtableKey} (hid : requestId rq = some id)
    (hmethod : rq.method = "GET".toList) :
    ahcHandle env r rq s c upload = ahcGet env r s c upload id := by
  unfold requestId at hid
  split_ifs at hid with hpath
  rw [ahcHandle, if_neg (by simpa using hpath.1), if_pos hpath.2, hid]
  simp only [if_pos hmethod]

theorem ahcHandle_post {id : HtableKey} (hid : requestId rq = some id)
    (hmethod : rq.method = "POST".toList) :
    ahcHandle env r rq s c upload = ahcPost env r rq s c upload id := by
  unfold requestId at hid
  split_ifs at hid with hpath
  rw [ahcHandle, if_neg (by simpa using hpath.1), if_pos hpath.2, hid]
  simp only [if_pos hmethod, if_neg (show rq.method ≠ "GET".toList by rw [hmethod]; decide)]

theorem ahcCtx_of_rateChecked (hrate : c.rateChecked = true) :
    ahcCtx env r rq false s c upload = ahcHandle env r rq s c upload := by
  unfold ahcCtx
  simp only [hrate, not_true_eq_false, false_and, if_false, Bool.false_eq_true]
  congr 1
  rw [← hrate]

theorem ahcCtx_first_calls (h : ahcCtx env r rq true s c [] = some out) :
    out.calls = [] ∨ ∃ resp : Response, resp.Plain ∧ out.calls = sendCalls env r 0 resp := by
  unfold ahcCtx at h
  simp only [if_true] at h
  split_ifs at h
  · cases h
    exact Or.inr ⟨_, plain_text (by decide), sendText_calls _ _ _ _⟩
  · cases h
    exact Or.inl rfl

theorem mem_sendCalls {c : Call} {pending : ℕ} {resp : Response} :
    c ∈ sendCalls env r pending resp ↔ env.createOk = true ∧ c = .queue r pending resp env.queueOk := by
  unfold sendCalls
  split_ifs with h <;> simp [h]

theorem moves_sendCalls {w w' : World} {pending : ℕ} {resp : Response}
    (h : Moves w (sendCalls env r pending resp) w') : w' = w := by
  unfold sendCalls at h
  split_ifs at h
  · obtain ⟨w₁, hm, rfl⟩ := h
    cases hm
    rfl
  · exact h

/-- Only a `GET` hands out a block, and it does nothing else but reply. -/
theorem AhcCalls.get_mem {calls : List Call} (h : AhcCalls env r rq s upload calls) {r' : ℕ}
    {id : HtableKey} {blob : Blk} (hg : .get r' id blob ∈ calls) :
    rq.method = "GET".toList ∧ requestId rq = some id ∧ r' = r ∧
      calls = .get r id blob :: sendCalls env r upload.length (blobResponse blob) := by
  cases h with
  | quiet => cases hg
  | reply => cases (mem_sendCalls.mp hg).2
  | get hmethod hid =>
    rcases List.mem_cons.mp hg with heq | hg
    · cases heq
      exact ⟨hmethod, hid, rfl, rfl⟩
    · cases (mem_sendCalls.mp hg).2
  | chunk _ _ hcalls => rcases hcalls _ hg with ⟨_, _, _, h⟩ | ⟨_, _, h⟩ <;> cases h
  | commit =>
    rcases List.mem_cons.mp hg with heq | hg
    · cases heq
    · cases (mem_sendCalls.mp hg).2

/-- A reply never goes out while upload data is pending, except the reply to `GET /blob/*`. -/
theorem AhcCalls.queue {calls : List Call} (h : AhcCalls env r rq s upload calls) {r' pending : ℕ}
    {resp : Response} {ret : Bool} (hq : .queue r' pending resp ret ∈ calls) :
    pending = upload.length ∧ env.createOk = true ∧ ret = env.queueOk ∧
      (resp.Plain ∧ upload = [] ∨
        (∃ id blob, calls = .get r id blob :: sendCalls env r upload.length (blobResponse blob) ∧
          requestId rq = some id ∧ rq.method = "GET".toList ∧ resp = blobResponse blob) ∨
        ∃ id t ret', .publish r id t ret' ∈ calls ∧ upload = [] ∧ resp = publishResponse ret') := by
  have hsend : ∀ {resp₀ : Response}, .queue r' pending resp ret ∈ sendCalls env r upload.length resp₀ →
      env.createOk = true ∧ pending = upload.length ∧ resp = resp₀ ∧ ret = env.queueOk := by
    intro resp₀ hq
    obtain ⟨hok, hc⟩ := mem_sendCalls.mp hq
    rw [Call.queue.injEq] at hc
    exact ⟨hok, hc.2⟩
  cases h with
  | quiet => cases hq
  | reply hup hplain =>
    obtain ⟨hok, hp, rfl, hret⟩ := hsend hq
    exact ⟨hp, hok, hret, Or.inl ⟨hplain, hup⟩⟩
  | get hmethod hid hget =>
    obtain ⟨hok, hp, hresp, hret⟩ := hsend ((List.mem_cons.mp hq).resolve_left (by simp))
    exact ⟨hp, hok, hret, Or.inr (Or.inl ⟨_, _, rfl, hid, hmethod, hresp⟩)⟩
  | chunk hmethod hup hcalls =>
    rcases hcalls _ hq with ⟨_, _, _, h⟩ | ⟨_, _, h⟩ <;> cases h
  | commit hmethod hup hret =>
    obtain ⟨hok, hp, hresp, hr⟩ := hsend ((List.mem_cons.mp hq).resolve_left (by simp))
    exact ⟨hp, hok, hr, Or.inr (Or.inr ⟨_, _, _, List.mem_cons_self, hup, hresp⟩)⟩

end Calls

section Steps

variable {requests : ℕ → Request} {memory : ℕ} {tr : Trace} {S S' : Server} {w : World}
  {calls : List Call} {r : ℕ} {env : Env} {upload : List UInt8}

theorem step_ahc (h : ServerRep requests memory tr S w) (hr : S.phase r = .receiving)
    (hstep : step requests S (.ahc r upload env) = some (S', calls)) :
    ∃ c out, S.ctx r = some c ∧ ahcHandle env r (requests r) S.storage c upload = some out ∧
      calls = out.calls ∧ S'.phase =
        Function.update S.phase r (nextPhase (S.phase r) upload out.calls out.yes) := by
  cases hp : S.conCls r with
  | none => exact absurd hr ((h.request r).dead (by rw [Server.ctx, hp]; rfl)).2.2
  | some p =>
    have hc : S.ctx r = some (ctxaRead S.reqCtxalloc p) := by rw [Server.ctx, hp]; rfl
    have hrate := ((h.request r).live _ hc).rate
    rw [step, ahc, hp, Option.map_eq_some_iff] at hstep
    obtain ⟨⟨S₁, calls₁, yes⟩, hahc, heq⟩ := hstep
    simp only [Option.map_eq_some_iff] at hahc
    obtain ⟨out, hrun, hout⟩ := hahc
    rw [ahcCtx_of_rateChecked hrate] at hrun
    cases hout
    cases heq
    exact ⟨_, out, hc, hrun, rfl, rfl⟩

theorem step_ahc_first (h : ServerRep requests memory tr S w) (hr : S.phase r = .fresh)
    (hstep : step requests S (.ahc r [] env) = some (S', calls)) :
    calls = [] ∨ ∃ resp : Response, resp.Plain ∧ calls = sendCalls env r 0 resp := by
  have hctx := ((h.request r).fresh hr).1
  have hp : S.conCls r = none := by
    rw [Server.ctx, Option.map_eq_none_iff] at hctx
    exact hctx
  rw [step, ahc, hp, Option.map_eq_some_iff] at hstep
  obtain ⟨⟨S₁, calls₁, yes⟩, hahc, heq⟩ := hstep
  cases hfree : (ctxaAlloc S.reqCtxalloc).2 with
  | none =>
    simp only [hfree, Option.some_inj] at hahc
    cases hahc
    cases heq
    exact Or.inl rfl
  | some b =>
    simp only [hfree, Option.map_eq_some_iff] at hahc
    obtain ⟨out, hrun, hout⟩ := hahc
    cases hout
    cases heq
    exact ahcCtx_first_calls hrun

/-- **What a call of the handler does in a reachable state.** -/
theorem step_ahc_calls (h : ServerRep requests memory tr S w) (hen : Enabled S (.ahc r upload env))
    (hstep : step requests S (.ahc r upload env) = some (S', calls)) :
    AhcCalls env r (requests r) S.storage upload calls := by
  rcases hen with ⟨hfresh, rfl⟩ | hr
  · rcases step_ahc_first h hfresh hstep with rfl | ⟨resp, hplain, rfl⟩
    · exact .quiet
    · exact .reply rfl hplain
  · obtain ⟨c, out, _, hrun, rfl, _⟩ := step_ahc h hr hstep
    exact ahcHandle_calls hrun

theorem Event.Does.of_queue {ev : Event} {pending : ℕ} {resp : Response} {ret : Bool}
    (h : ev.Does (.queue r pending resp ret)) : ∃ upload env, ev = .ahc r upload env := by
  cases ev with
  | ahc r' upload env =>
    obtain rfl : r = r' := Option.some_inj.mp h.1
    exact ⟨upload, env, rfl⟩
  | reqDone => cases h.2
  | reaper => cases h

end Steps

end Adnihilum
