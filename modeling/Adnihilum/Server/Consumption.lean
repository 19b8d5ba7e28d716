import Adnihilum.Server.Isolation

/-!
# How published secrets are consumed

`storage_blob_get` removes an entry before the reply is known to be accepted, and the `GET` branch
does not look at pending upload data, as the other branches do.

* `Served`: no reply while upload data is pending, and published entries leave by delivery or
  expiry.
* `BodylessGet`: no call for `GET /blob/<id>` comes with upload data.
* **`served_iff`**: in every run the first is the case exactly when the second is.
-/

namespace Adnihilum

open FlatMemory Custody

/-- What libmicrohttpd answers: a response can always be made, and none is queued while upload data
is pending. -/
def Event.MhdAnswers : Event → Prop
  | .ahc _ upload env => env.createOk = true ∧ (upload ≠ [] → env.queueOk = false)
  | .reqDone _ | .reaper _ => True

/-- No call with pending upload data tries to queue a response, and a published entry leaves the
store only when it has expired, or with a reply that carries it and was queued. -/
structure Served (requests : ℕ → Request) (S : Server) (ev : Event) (calls : List Call) (S' : Server) :
    Prop where
  quiet : ∀ r upload env, ev = .ahc r upload env → upload ≠ [] →
    ∀ r' pending resp ret, .queue r' pending resp ret ∉ calls
  kept : ∀ id blk t, S.storage.HasEntry id blk t → t ≠ validUntilNotPublished →
    ¬ S'.storage.HasEntry id blk t →
      (∃ tvSec, ev = .reaper tvSec ∧ t < monotonicNowS tvSec) ∨
      ∃ r upload env, ev = .ahc r upload env ∧ (requests r).method = "GET".toList ∧
        requestId (requests r) = some id ∧
        .queue r upload.length ⟨200, .blob blk, some "application/octet-stream", .apiBlob⟩ true ∈ calls

/-- A call for `GET /blob/<id>` comes without upload data, and libmicrohttpd takes the reply if the
id is published. -/
def BodylessGet (requests : ℕ → Request) (S : Server) (ev : Event) : Prop :=
  ∀ r upload env id, ev = .ahc r upload env → S.phase r = .receiving →
    (requests r).method = "GET".toList → requestId (requests r) = some id →
    upload = [] ∧ ((∃ blk t, S.storage.HasEntry id blk t ∧ t ≠ validUntilNotPublished) →
      env.queueOk = true)

section Steps

variable {requests : ℕ → Request} {mallocated : ℕ} {tr : Trace} {S S' : Server} {w : World}
  {calls : List Call} {ev : Event} {r : ℕ} {id : HtableKey} {upload : List UInt8} {env : Env}

theorem bodylessGet_of_served (hA : Arena (serverArena mallocated))
    (h : Reached requests mallocated tr S w) (hen : Enabled S ev) (hmhd : ev.MhdAnswers)
    (hstep : step requests S ev = some (S', calls)) (hserved : Served requests S ev calls S') :
    BodylessGet requests S ev := by
  rintro r upload env id rfl hr hmethod hid
  obtain ⟨blob, hcalls⟩ := get_calls h hr hstep hmethod hid
  have hqueue : .queue r upload.length (blobResponse blob) env.queueOk ∈ calls := by
    rw [hcalls]
    exact List.mem_cons_of_mem _ (mem_sendCalls.mpr ⟨hmhd.1, rfl⟩)
  refine ⟨not_not.mp fun hup => hserved.quiet r upload env rfl hup r _ _ _ hqueue, ?_⟩
  rintro ⟨blk, t, hentry, ht⟩
  obtain ⟨rfl, _, hgone⟩ := get_takes hA h hen hstep hcalls hentry ht
  rcases hserved.kept id blob t hentry ht (hgone _ _) with
    ⟨_, hev, _⟩ | ⟨r', upload', env', hev, _, _, hq⟩
  · cases hev
  · cases hev
    rw [hcalls] at hq
    rcases List.mem_cons.mp hq with hq | hq
    · cases hq
    · have := (mem_sendCalls.mp hq).2
      rw [Call.queue.injEq] at this
      exact this.2.2.2.symm

theorem reap_expired (hA : Arena (serverArena mallocated)) (h : Reached requests mallocated tr S w)
    (hen : Enabled S ev) (hstep : step requests S ev = some (S', calls)) (hreap : .reap id ∈ calls)
    {blk : Blk} {t : ℕ} (hentry : S.storage.HasEntry id blk t) :
    ∃ tvSec, ev = .reaper tvSec ∧ t < monotonicNowS tvSec := by
  obtain ⟨w', _, hd, _⟩ := h.step hA hen hstep
  cases ev with
  | ahc => cases (hd _ hreap).1
  | reqDone => cases (hd _ hreap).1
  | reaper tvSec =>
    refine ⟨tvSec, rfl, ?_⟩
    rw [step, Option.map_eq_some_iff] at hstep
    obtain ⟨s, _, heq⟩ := hstep
    cases heq
    rw [(idsInvalid_reaperGather h.rep.storage _).1, List.mem_map] at hreap
    obtain ⟨id', hid', heq⟩ := hreap
    cases heq
    obtain ⟨e, he, hlt⟩ := (mem_expiredIds h.rep.storage (monotonicNowS_le tvSec)).mp hid'
    rw [h.rep.storage.hasEntry_iff, he, Option.some_inj] at hentry
    rw [hentry] at hlt
    exact hlt

theorem served_of_bodylessGet (hA : Arena (serverArena mallocated))
    (h : Reached requests mallocated tr S w) (hen : Enabled S ev) (hmhd : ev.MhdAnswers)
    (hstep : step requests S ev = some (S', calls)) (hget : BodylessGet requests S ev) :
    Served requests S ev calls S' := by
  have hreceiving : ∀ {r upload env}, ev = .ahc r upload env → ∀ {r' id blob},
      .get r' id blob ∈ calls → S.phase r = .receiving := by
    rintro r upload env rfl r' id blob hg
    rcases hen with ⟨hfresh, rfl⟩ | hr
    · rcases step_ahc_first h.rep hfresh hstep with rfl | ⟨resp, _, rfl⟩
      · cases hg
      · cases (mem_sendCalls.mp hg).2
    · exact hr
  refine ⟨?_, fun id blk t hentry ht hgone => ?_⟩
  · rintro r upload env rfl hup r' pending resp ret hq
    obtain ⟨_, _, _, hplain | ⟨id, blob, hcalls, hid, hmethod, _⟩ | ⟨_, _, _, _, hnil, _⟩⟩ :=
      (step_ahc_calls h.rep hen hstep).queue hq
    · exact hup hplain.2
    · have hr := hreceiving rfl (hcalls ▸ List.mem_cons_self)
      exact hup (hget r upload env id rfl hr hmethod hid).1
    · exact hup hnil
  · by_contra hno
    push Not at hno
    obtain ⟨hreaper, hqueued⟩ := hno
    obtain ⟨w', hm, hd, h'⟩ := h.step hA hen hstep
    have he := h.rep.storage.hasEntry_iff.mp hentry
    -- no call takes the entry, so it stays
    obtain ⟨_, he', _⟩ := hm.spares h.inv he (fun c hc r hr => trivial)
      (fun r u _ hu => h.inv.ne_published hu he ht) fun _ c hc => by
        refine ⟨?_, ?_⟩
        · rintro r blob rfl
          by_contra hblob
          cases ev with
          | ahc r₀ upload env =>
            obtain ⟨hmethod, hid, rfl, hcalls⟩ := (step_ahc_calls h.rep hen hstep).get_mem hc
            obtain ⟨rfl, hok⟩ := hget r upload env id rfl (hreceiving rfl hc) hmethod hid
            obtain ⟨rfl, _, _⟩ := get_takes hA h hen hstep hcalls hentry ht
            refine hqueued r [] env rfl hmethod hid ?_
            rw [hcalls]
            refine List.mem_cons_of_mem _ (mem_sendCalls.mpr ⟨hmhd.1, ?_⟩)
            rw [hok ⟨_, t, hentry, ht⟩, blobResponse, if_neg hblob]
          | reqDone => cases (hd _ hc).2
          | reaper => cases hd _ hc
        · rintro rfl
          obtain ⟨tvSec, hev, hlt⟩ := reap_expired hA h hen hstep hc hentry
          exact absurd hlt (Nat.not_lt.mpr (hreaper tvSec hev))
    exact hgone (h'.rep.storage.hasEntry_iff.mpr he')

/-- **Published secrets are consumed by delivery or expiry exactly when no `GET` brings a body.** In
every run in which libmicrohttpd can always make a response and queues none while upload data is
pending, all steps are served if and only if all calls for `GET /blob/<id>` come without upload data
and have their reply taken if the id is published. -/
theorem served_iff {mallocated : ℕ} (hA : Arena (serverArena mallocated)) {tr : Trace} {S : Server}
    (hrun : Run requests (serverInit mallocated) tr S) (hmhd : ∀ p ∈ tr, p.1.MhdAnswers) :
    EveryStep requests (Served requests) (serverInit mallocated) tr ↔
      EveryStep requests (fun S ev _ _ => BodylessGet requests S ev) (serverInit mallocated) tr :=
  Run.everyStep_congr hA
    (fun _ _ _ _ _ _ h hen hF hstep => ⟨bodylessGet_of_served hA h hen hF hstep,
      served_of_bodylessGet hA h hen hF hstep⟩) (Reached.init hA) hrun hmhd

end Steps

/-- A `GET` without a body: all steps are served. -/
theorem served_iff_postAndGet : ∃ (tr : Trace) (S : Server),
    Run postAndGet (serverInit 4096) tr S ∧ tr.length = 5 ∧
    EveryStep postAndGet (Served postAndGet) (serverInit 4096) tr := by
  obtain ⟨S, blk, _, _, hrun⟩ := postAndGet_run [] goodEnv
  refine ⟨_, S, hrun, rfl, (served_iff arena_4096 hrun ?_).mpr ?_⟩
  · simp [postAndGetTrace, Event.MhdAnswers, goodEnv, refusingEnv]
  · refine EveryStep.of_forall _ fun p hp S _ r upload env id hev _ hmethod _ => ?_
    have hpost : (postAndGet 0).method ≠ "GET".toList := by decide
    simp only [postAndGetTrace, List.mem_cons, List.not_mem_nil, or_false] at hp
    rcases hp with rfl | rfl | rfl | rfl | rfl <;> cases hev
    · exact ⟨rfl, fun _ => rfl⟩
    · exact absurd hmethod hpost
    · exact absurd hmethod hpost
    · exact absurd hmethod hpost
    · exact ⟨rfl, fun _ => rfl⟩

/-- **A `GET` with a body loses the secret.** One byte of upload data comes with the `GET`: the
handler takes the entry out of the store and tries to queue the reply, which is refused. -/
theorem get_with_body_loses_secret : ∃ (S : Server) (blk : Blk), blk.size = 46 ∧
    Run postAndGet (serverInit 4096) (postAndGetTrace blk [120] refusingEnv) S ∧
    (∀ p ∈ postAndGetTrace blk [120] refusingEnv, p.1.MhdAnswers) ∧
    ¬ EveryStep postAndGet (Served postAndGet) (serverInit 4096)
      (postAndGetTrace blk [120] refusingEnv) ∧
    ∀ blk' t, ¬ S.storage.HasEntry blobKey blk' t := by
  obtain ⟨S, blk, hblk, hgone, hrun⟩ := postAndGet_run [120] refusingEnv
  refine ⟨S, blk, hblk, hrun, ?_, fun hall => ?_, hgone⟩
  · simp [postAndGetTrace, Event.MhdAnswers, goodEnv, refusingEnv]
  · -- the last step queues a reply while one byte is pending
    obtain ⟨S₁, _, h₁, hrun⟩ := hrun.head
    obtain ⟨S₂, _, h₂, hrun⟩ := hrun.head
    obtain ⟨S₃, _, h₃, hrun⟩ := hrun.head
    obtain ⟨S₄, _, h₄, hrun⟩ := hrun.head
    obtain ⟨S₅, _, h₅, _⟩ := hrun.head
    have hserved := ((((hall S₁ h₁).2 S₂ h₂).2 S₃ h₃).2 S₄ h₄).2 S₅ h₅
    refine hserved.1.quiet 1 [120] refusingEnv rfl (by decide) 1 1 (blobResponse blk) false ?_
    exact List.mem_cons_of_mem _ (mem_sendCalls.mpr ⟨rfl, rfl⟩)

end Adnihilum
