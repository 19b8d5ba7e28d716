import Adnihilum.Server.Calls

/-!
# An upload and its delivery

Runs that go through: the runs of the other modules are not empty.

* `first_call`, `upload_starts`, `commit_of_complete`: the calls of an upload in one chunk.
* **`upload_then_fetch`**: a secret is uploaded and fetched, whatever upload data the `GET` brings.
-/

namespace Adnihilum

open FlatMemory Custody

section Steps

variable {requests : ℕ → Request} {mallocated : ℕ} {tr : Trace} {S S' : Server} {w : World}
  {calls : List Call} {ev : Event} {r : ℕ} {env : Env} {id : HtableKey} {n : ℕ}
  {body upload : List UInt8}

theorem first_call (h : Reached requests mallocated tr S w) (hr : S.phase r = .fresh)
    (hroom : ∃ b < S.reqCtxalloc.capacity, ∀ r', S.conCls r' ≠ some b) (hallow : env.allow = true) :
    ∃ S' b, step requests S (.ahc r [] env) = some (S', []) ∧
      S'.ctx r = some { ReqCtx.zero with rateChecked := true } ∧
      S'.conCls = Function.update S.conCls r (some b) ∧
      S'.reqCtxalloc.capacity = S.reqCtxalloc.capacity ∧
      S'.phase = Function.update S.phase r .receiving := by
  have hctx := ((h.rep.request r).fresh hr).1
  have hp : S.conCls r = none := by
    rw [Server.ctx, Option.map_eq_none_iff] at hctx
    exact hctx
  rcases ctxaAlloc_rep h.rep.pool hp with ⟨_, _, hfull⟩ | ⟨b, hb, _, hzero, _, _⟩
  · obtain ⟨b, hlt, hb⟩ := hroom
    obtain ⟨r', hr'⟩ := hfull b hlt
    exact absurd hr' (hb r')
  · have hout : ahcCtx env r (requests r) true S.storage ReqCtx.zero [] =
        some ⟨S.storage, { ReqCtx.zero with rateChecked := true }, [], true⟩ := by
      simp [ahcCtx, hallow]
    have hcap : (ctxaAlloc S.reqCtxalloc).1.capacity = S.reqCtxalloc.capacity := by
      unfold ctxaAlloc
      cases S.reqCtxalloc.freeList <;> rfl
    refine ⟨_, b, by rw [step, ahc, hp]; simp only [hb, hzero, hout, Option.map_some]; rfl, ?_, rfl,
      hcap, ?_⟩
    · simp [Server.ctx, ctxaRead_write]
    · simp [hr, nextPhase]

theorem ahcPostChunk_create {rq : Request} {s s' : Storage} {c c₁ : ReqCtx} {blk : Blk}
    (hdef : c.deferredError = .noError) (hexp : ahcExpected rq c = some c₁)
    (h0 : c₁.postBody.size = 0) (htaken : storageBlobIsAlreadyTaken s c₁.id = false)
    (hcreate : storageBlobCreate s c₁.id c₁.expected = some (s', blk)) (hblk : blk.size ≠ 0)
    (hfit : c₁.read + body.length ≤ c₁.expected) :
    ∃ out, ahcPostChunk r rq s c body = some out ∧ out.yes = true ∧
      out.calls = [.create r c₁.id c₁.expected blk, .write r (blk.data + c₁.read) body] := by
  refine ⟨_, by rw [ahcPostChunk, if_neg (not_not.mpr hdef), hexp]; simp only [if_pos h0, htaken,
    Bool.false_eq_true, if_false, hcreate, Option.map_some, if_neg hblk]; rfl, ?_⟩
  rw [ahcCopy, if_neg (by simpa using hfit)]
  exact ⟨rfl, rfl⟩

/-- **`storage_blob_publish` always succeeds.** -/
theorem publish_succeeds (hA : Arena (serverArena mallocated))
    (h : Reached requests mallocated tr S w) (hen : Enabled S ev)
    (hstep : step requests S ev = some (S', calls)) {id : HtableKey} {t : ℕ} {ret : Bool}
    (hpub : .publish r id t ret ∈ calls) : ret = true := by
  obtain ⟨w', hm, _⟩ := h.step hA hen hstep
  obtain ⟨w₁, w₂, hmove⟩ := hm.mem hpub
  cases hmove
  rfl

/-- **A complete upload is committed** by the call that ends it, for an hour. -/
theorem commit_of_complete (h : Reached requests mallocated tr S w) {env : Env}
    (hr : S.phase r = .receiving) (hstep : step requests S (.ahc r [] env) = some (S', calls))
    {c : ReqCtx} (hc : S.ctx r = some c) (hsize : c.postBody.size ≠ 0)
    (hlen : contentLength (requests r) = some (received r tr).length) :
    ∃ ret, calls = .publish r c.id ((monotonicNowS env.tvSec + blobTtlS) % 2 ^ 32) ret ::
      sendCalls env r 0 (publishResponse ret) := by
  obtain ⟨c', out, hc', hrun, rfl, _⟩ := step_ahc h.rep hr hstep
  obtain rfl : c = c' := Option.some_inj.mp (hc.symm.trans hc')
  obtain ⟨u, hu, _⟩ := h.postBody hc hsize
  have hlive := (h.rep.request r).live c hc
  obtain ⟨hpost, hid, hexp, hread, hdef, hhave, hup⟩ := hlive.post u hu
  have hbody := (hlive.open_ hr).2.2.2 u hu
  have hfull : u.body.length = u.blk.size := by
    rw [hbody]
    exact Option.some_inj.mp (hlen.symm.trans hup.size)
  rw [ahcHandle_post hup.id hup.post, ahcPost, if_neg (by simp [hid]), if_pos hhave,
    if_neg (by simp), Option.some_inj] at hrun
  rw [← hrun, ahcPostEnd, if_neg (not_not.mpr hdef), if_neg (by
    rw [hread, hexp, hfull]
    simp [hsize])]
  simp only
  split_ifs with hret
  · rw [sendResponse_calls, hret]
    exact ⟨true, rfl⟩
  · rw [sendText_calls, eq_false_of_ne_true hret]
    exact ⟨false, rfl⟩

/-- **A call for `GET /blob/<id>`** asks the store, whatever the upload data. -/
theorem get_calls (h : Reached requests mallocated tr S w) (hr : S.phase r = .receiving)
    (hstep : step requests S (.ahc r upload env) = some (S', calls))
    (hmethod : (requests r).method = "GET".toList) (hid : requestId (requests r) = some id) :
    ∃ blob, calls = .get r id blob :: sendCalls env r upload.length (blobResponse blob) := by
  obtain ⟨c, out, _, hrun, rfl, _⟩ := step_ahc h.rep hr hstep
  rw [ahcHandle_get hid hmethod, ahcGet, Option.map_eq_some_iff] at hrun
  obtain ⟨⟨s', blob⟩, _, rfl⟩ := hrun
  refine ⟨blob, ?_⟩
  unfold blobResponse
  simp only
  split_ifs
  · rw [sendText_calls]
    rfl
  · rw [sendResponse_calls]
    rfl

theorem receiving_of_get (h : Reached requests mallocated tr S w) (hen : Enabled S (.ahc r upload env))
    (hstep : step requests S (.ahc r upload env) = some (S', calls)) {r' : ℕ} {blob : Blk}
    (hget : .get r' id blob ∈ calls) : S.phase r = .receiving := by
  refine hen.resolve_left ?_
  rintro ⟨hfresh, rfl⟩
  rcases step_ahc_first h.rep hfresh hstep with rfl | ⟨resp, -, rfl⟩
  · cases hget
  · cases (mem_sendCalls.mp hget).2

theorem get_takes (hA : Arena (serverArena mallocated)) (h : Reached requests mallocated tr S w)
    (hen : Enabled S ev) (hstep : step requests S ev = some (S', calls)) {blob : Blk} {pending : ℕ}
    {resp : Response} (hcalls : calls = .get r id blob :: sendCalls env r pending resp) {blk : Blk}
    {t : ℕ} (hentry : S.storage.HasEntry id blk t) (ht : t ≠ validUntilNotPublished) :
    blob = blk ∧ blob.size ≠ 0 ∧ ∀ blk' t', ¬ S'.storage.HasEntry id blk' t' := by
  obtain ⟨w', hm, _, h'⟩ := h.step hA hen hstep
  rw [h.rep.storage.hasEntry_iff] at hentry
  rw [hcalls] at hm
  obtain ⟨w₁, hget, hrest⟩ := hm
  obtain rfl := moves_sendCalls hrest
  rcases hget.get_inv with ⟨_, hno, _⟩ | ⟨e, he, _, hblk, herase⟩
  · exact absurd ht (hno _ hentry)
  · obtain rfl : e = ⟨blk, t⟩ := Option.some_inj.mp (he.symm.trans hentry)
    refine ⟨hblk.symm, ?_, fun blk' t' hentry' => ?_⟩
    · rw [← hblk]
      exact (h.inv.owned.entry_ok id _ he).1.size_ne_zero
    · rw [h'.rep.storage.hasEntry_iff, herase, Finmap.lookup_erase] at hentry'
      cases hentry'

theorem ahcPost_chunk {rq : Request} {s : Storage} {c : ReqCtx} (hid : c.haveId = true → c.id = id)
    (hbody : body ≠ []) : ahcPost env r rq s c body id =
      ahcPostChunk r rq s { c with id := id, haveId := true } body := by
  unfold ahcPost
  rw [if_neg fun hc => hc.2 (hid hc.1)]
  simp only [if_pos hbody]
  split_ifs with hhave
  · rw [show c = { c with id := id, haveId := true } by rw [← hid hhave, ← hhave]]
  · rfl

/-- **An upload starts** when its id is free and its bucket has a free item. -/
theorem upload_starts (h : Reached requests mallocated tr S w)
    (hr : S.phase r = .receiving) {c : ReqCtx} (hc : S.ctx r = some c) (hup : w.uploads r = none)
    (hdef : c.deferredError = .noError) (hmethod : (requests r).method = "POST".toList)
    (hid : requestId (requests r) = some id) (hlen : contentLength (requests r) = some n)
    (hmin : blobSizeMin ≤ n) (hmax : n ≤ blobSizeMax) (hnull : id ≠ HtableKey.null)
    (habs : w.vault.entries.lookup id = none) (hcard : w.vault.entries.keys.card ≠ 2 ^ 18)
    (hfree : w.vault.free (bindex n) ≠ []) (hbody : body ≠ []) (hfit : body.length ≤ n) (env : Env) :
    ∃ S' blk, step requests S (.ahc r body env) =
        some (S', [.create r id n blk, .write r blk.data body]) ∧ blk.size = n ∧
      S'.phase = Function.update S.phase r .receiving := by
  obtain ⟨S', calls, _, hstep, _⟩ := ahc_rep h.rep h.inv hr body env
  obtain ⟨c', out, hc', hrun, hcalls, hphase⟩ := step_ahc h.rep hr hstep
  obtain rfl : c = c' := Option.some_inj.mp (hc.symm.trans hc')
  have hlive := (h.rep.request r).live c hc
  have hread := ((hlive.open_ hr).2.2.1 hup).1
  have hpost := hlive.idle hup
  have hn : n ≠ 0 := by
    unfold blobSizeMin at hmin
    omega
  rw [ahcHandle_post hid hmethod,
    ahcPost_chunk (fun hhave => Option.some_inj.mp ((hlive.haveId hhave).symm.trans hid)) hbody] at hrun
  have hexp : ahcExpected (requests r) { c with id := id, haveId := true } =
      some { c with id := id, haveId := true, expected := n } := by
    unfold ahcExpected
    by_cases h0 : c.expected = 0
    · obtain ⟨str, hstr, hval⟩ := Option.map_eq_some_iff.mp hlen
      have hmax' : n ≠ ulongMax := by
        unfold ulongMax
        rw [blobSizeMax_eq] at hmax
        omega
      have hrange : ¬ (blobSizeMax < n ∨ n < blobSizeMin) := by omega
      simp only [if_pos h0, hstr, hval, if_neg hmax', if_neg hrange]
    · rw [if_neg h0, ← Option.some_inj.mp (((hlive.expected h0).1.symm.trans hlen))]
  obtain ⟨a, l, hcons⟩ := List.exists_cons_of_ne_nil hfree
  obtain ⟨s', hcreate, _⟩ := storageBlobCreate_some h.rep.storage hmin hmax habs hnull hcard hcons
  have hsize : ({ c with id := id, haveId := true, expected := n } : ReqCtx).postBody.size = 0 := by
    rw [hpost]
    rfl
  have htaken : storageBlobIsAlreadyTaken S.storage id = false := by
    rw [h.rep.storage.isAlreadyTaken, habs]
    rfl
  have hfit' : c.read + body.length ≤ n := by
    rw [hread]
    omega
  have hdef' : ({ c with id := id, haveId := true } : ReqCtx).deferredError = .noError := hdef
  obtain ⟨out', hout', hyes, hcalls'⟩ :=
    ahcPostChunk_create (r := r) hdef' hexp hsize htaken hcreate hn hfit'
  obtain rfl : out' = out := Option.some_inj.mp (hout'.symm.trans hrun)
  refine ⟨S', ⟨a, n⟩, ?_, rfl, ?_⟩
  · rw [hstep, hcalls, hcalls']
    simp [hread]
  · rw [hphase, nextPhase_eq_receiving.mpr ⟨hyes, by simp [hcalls', Call.queued], Or.inr hbody⟩]

theorem requestId_ne_null {rq : Request} (h : requestId rq = some id) : id ≠ HtableKey.null := by
  unfold requestId at h
  split_ifs at h
  obtain ⟨bytes, _, hkey⟩ := Option.bind_eq_some_iff.mp h
  simp only at hkey
  split_ifs at hkey with hnull
  rw [← Option.some_inj.mp hkey]
  exact hnull

/-- **A secret is uploaded and fetched.** `POST` request `p` and `GET` request `g` for the same id
meet at the fresh server; the entry is taken whatever upload data the `GET` brings. -/
theorem upload_then_fetch (hA : Arena (serverArena mallocated)) {p g : ℕ} (hpg : p ≠ g)
    {extra : List UInt8} {env envBody env' : Env} (hp : (requests p).method = "POST".toList)
    (hidp : requestId (requests p) = some id)
    (hlen : contentLength (requests p) = some body.length) (hmin : blobSizeMin ≤ body.length)
    (hmax : body.length ≤ blobSizeMax) (hg : (requests g).method = "GET".toList)
    (hidg : requestId (requests g) = some id) (hallow : env.allow = true)
    (hclock : (monotonicNowS env.tvSec + blobTtlS) % 2 ^ 32 ≠ validUntilNotPublished) :
    ∃ S blk, blk.size = body.length ∧ (∀ blk' t, ¬ S.storage.HasEntry id blk' t) ∧
      Run requests (serverInit mallocated)
      [(.ahc g [] env, []), (.ahc p [] env, []),
        (.ahc p body envBody, [.create p id body.length blk, .write p blk.data body]),
        (.ahc p [] env, .publish p id ((monotonicNowS env.tvSec + blobTtlS) % 2 ^ 32) true ::
          sendCalls env p 0 (publishResponse true)),
        (.ahc g extra env', .get g id blk :: sendCalls env' g extra.length (blobResponse blk))] S := by
  have hn : body.length ≠ 0 := by
    unfold blobSizeMin at hmin
    omega
  have hbody : body ≠ [] := fun hnil => hn (by rw [hnil]; rfl)
  have h₀ : Reached requests mallocated [] (serverInit mallocated) (World.init mallocated) :=
    Reached.init hA
  -- both requests get a context
  obtain ⟨S₁, b, hstep₁, _, hcon₁, hcap₁, hphase₁⟩ := first_call (r := g) h₀ rfl
    ⟨0, show 0 < requestsMax by decide, fun r' hr' => (by cases hr')⟩ hallow
  have hen₁ : Enabled (serverInit mallocated) (.ahc g [] env) := Or.inl ⟨rfl, rfl⟩
  obtain ⟨_, rfl, _, h₁⟩ := h₀.step hA hen₁ hstep₁
  have hroom : ∃ b' < S₁.reqCtxalloc.capacity, ∀ r', S₁.conCls r' ≠ some b' := by
    refine ⟨if b = 0 then 1 else 0, ?_, fun r' hr' => ?_⟩
    · rw [hcap₁, show (serverInit mallocated).reqCtxalloc.capacity = 8192 from rfl]
      split_ifs <;> omega
    · rw [hcon₁] at hr'
      by_cases hrg : r' = g
      · rw [hrg, Function.update_self, Option.some_inj] at hr'
        split_ifs at hr' <;> omega
      · rw [Function.update_of_ne hrg] at hr'
        cases hr'
  have hfresh₁ : S₁.phase p = .fresh := by
    rw [hphase₁, Function.update_of_ne hpg]
    rfl
  obtain ⟨S₂, _, hstep₂, hctx₂, _, _, hphase₂⟩ := first_call (r := p) h₁ hfresh₁ hroom hallow
  have hen₂ : Enabled S₁ (.ahc p [] env) := Or.inl ⟨hfresh₁, rfl⟩
  obtain ⟨_, rfl, _, h₂⟩ := h₁.step hA hen₂ hstep₂
  -- the body arrives
  have hr₂ : S₂.phase p = .receiving := by rw [hphase₂, Function.update_self]
  have hfree : (World.init mallocated).vault.free (bindex body.length) ≠ [] := by
    have hpos := bbucketCapacity_pos (bindex body.length)
    exact List.ne_nil_of_mem (mem_initialFree.mpr ⟨0, hpos, rfl⟩)
  obtain ⟨S₃, blk, hstep₃, hblk, hphase₃⟩ := upload_starts h₂ hr₂ hctx₂ rfl rfl hp hidp hlen hmin hmax
    (requestId_ne_null hidp) (Finmap.lookup_empty _) (by simp [World.init, Vault.init]) hfree hbody
    le_rfl envBody
  have hen₃ : Enabled S₂ (.ahc p body envBody) := Or.inr hr₂
  obtain ⟨w₃, ⟨wa, hcreate, _, hwrite, rfl⟩, _, h₃⟩ := h₂.step hA hen₃ hstep₃
  have hup₃ : w₃.uploads p = some ⟨id, blk, body⟩ := by
    have hua := hcreate.create_inv (by rw [hblk]; exact hn)
    obtain ⟨u, hu, hu'⟩ := hwrite.write_inv
    obtain rfl := Option.some_inj.mp (hu.symm.trans hua)
    exact hu'
  -- the upload is committed
  have hr₃ : S₃.phase p = .receiving := by rw [hphase₃, Function.update_self]
  obtain ⟨c₃, hctx₃⟩ : ∃ c, S₃.ctx p = some c := by
    refine Option.ne_none_iff_exists'.mp fun hnone => ?_
    have := ((h₃.rep.request p).dead hnone).1
    rw [hup₃] at this
    cases this
  obtain ⟨hpost₃, hid₃, _⟩ := ((h₃.rep.request p).live c₃ hctx₃).post _ hup₃
  obtain ⟨S₄, calls₄, _, hstep₄, _⟩ := ahc_rep h₃.rep h₃.inv hr₃ [] env
  have hen₄ : Enabled S₃ (.ahc p [] env) := Or.inr hr₃
  obtain ⟨ret, rfl⟩ := commit_of_complete h₃ hr₃ hstep₄ hctx₃ (by rw [hpost₃, hblk]; exact hn)
    (by rw [hlen]; simp [received, hpg.symm])
  obtain rfl := publish_succeeds hA h₃ hen₄ hstep₄ List.mem_cons_self
  rw [show c₃.id = id from hid₃] at hstep₄
  obtain ⟨w₄, ⟨wb, hpublish, hsend⟩, _, h₄⟩ := h₃.step hA hen₄ hstep₄
  obtain rfl := moves_sendCalls hsend
  obtain ⟨_, _, _, _, hvault₄⟩ := hpublish.publish_inv
  have hentry₄ : S₄.storage.HasEntry id blk ((monotonicNowS env.tvSec + blobTtlS) % 2 ^ 32) := by
    rw [h₄.rep.storage.hasEntry_iff, hvault₄, Vault.lookup_publish, if_pos rfl,
      h₃.inv.upload p _ hup₃]
    rfl
  -- and fetched
  have hr₄ : S₄.phase g = .receiving := by
    obtain ⟨_, _, _, _, _, hphase₄⟩ := step_ahc h₃.rep hr₃ hstep₄
    rw [hphase₄, Function.update_of_ne hpg.symm, hphase₃, Function.update_of_ne hpg.symm, hphase₂,
      Function.update_of_ne hpg.symm, hphase₁, Function.update_self]
  obtain ⟨S₅, calls₅, _, hstep₅, _⟩ := ahc_rep h₄.rep h₄.inv hr₄ extra env'
  have hen₅ : Enabled S₄ (.ahc g extra env') := Or.inr hr₄
  obtain ⟨blob, rfl⟩ := get_calls h₄ hr₄ hstep₅ hg hidg
  obtain ⟨rfl, _, hgone⟩ := get_takes hA h₄ hen₅ hstep₅ rfl hentry₄ hclock
  exact ⟨S₅, blob, hblk, hgone,
    ((((Run.init.step hen₁ hstep₁).step hen₂ hstep₂).step hen₃ hstep₃).step hen₄
    hstep₄).step hen₅ hstep₅⟩

end Steps

/-! ## Two requests -/

/-- A path with an id. -/
def blobUrl : List Char := "/blob/00000000000000000000000000000001".toList

/-- A `POST` of 46 bytes and `GET`s of the same id. -/
def postAndGet (r : ℕ) : Request :=
  if r = 0 then ⟨blobUrl, "POST".toList, some "46".toList, none⟩
  else ⟨blobUrl, "GET".toList, none, none⟩

/-- The id in `blobUrl`. -/
def blobKey : HtableKey := ⟨0, 0x0100000000000000⟩

/-- Everything goes well, right after the start of the clock. -/
def goodEnv : Env := ⟨true, true, true, true, 0⟩

/-- A reply is refused. -/
def refusingEnv : Env := { goodEnv with queueOk := false }

/-- What is uploaded. -/
def secretBytes : List UInt8 := List.replicate 46 7

/-- What happens to the two requests. -/
def postAndGetTrace (blk : Blk) (extra : List UInt8) (env : Env) : Trace :=
  [(.ahc 1 [] goodEnv, []), (.ahc 0 [] goodEnv, []),
    (.ahc 0 secretBytes refusingEnv, [.create 0 blobKey 46 blk, .write 0 blk.data secretBytes]),
    (.ahc 0 [] goodEnv, .publish 0 blobKey 3600 true :: sendCalls goodEnv 0 0 (publishResponse true)),
    (.ahc 1 extra env, .get 1 blobKey blk :: sendCalls env 1 extra.length (blobResponse blk))]

theorem arena_4096 : Arena (serverArena 4096) := ⟨by decide, by decide⟩

theorem postAndGet_run (extra : List UInt8) (env : Env) : ∃ S blk, blk.size = 46 ∧
    (∀ blk' t, ¬ S.storage.HasEntry blobKey blk' t) ∧
      Run postAndGet (serverInit 4096) (postAndGetTrace blk extra env) S := by
  have hidp : requestId (postAndGet 0) = some blobKey := by decide
  have hlen : contentLength (postAndGet 0) = some secretBytes.length := by decide
  have hidg : requestId (postAndGet 1) = some blobKey := by decide
  have hallow : goodEnv.allow = true := rfl
  exact upload_then_fetch arena_4096 (by decide) rfl hidp hlen (by decide) (by decide) rfl hidg hallow
    (by decide)

end Adnihilum
