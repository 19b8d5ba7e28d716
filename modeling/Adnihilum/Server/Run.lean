import Adnihilum.Server.Ahc
import Adnihilum.Storage.Reaper

/-!
# Runs of the server

The server is one thread: calls of the handler, calls of `req_done` and reaper ticks follow each
other in any order that libmicrohttpd allows. For every request it calls `ahc` first without data,
then once per chunk of the body, then once with size zero; it stops after `MHD_NO` or a queued
response, and calls `req_done` once after the reply is sent or the connection is dropped.

* `ahc`, `reqDone`: the two callbacks on the whole server.
* `Event`, `Enabled`, `step`: one step; `Run requests S₀ tr S`: a run with the trace of its events
  and of what they did; `EveryStep`: a property of all its steps.
-/

namespace Adnihilum

open FlatMemory

/-- How far libmicrohttpd is with a request. -/
inductive Phase where
  | fresh
  | receiving
  | answered
  | done
  deriving DecidableEq

/-- The state of the server: the store, the pool of contexts, and what libmicrohttpd keeps for each
request, the pointer `*con_cls` and its progress. -/
structure Server where
  storage : Storage
  reqCtxalloc : Ctxalloc
  conCls : ℕ → Option ℕ
  phase : ℕ → Phase

/-- The server as `main` starts it. -/
def serverInit (mallocated : ℕ) : Server where
  storage := storageInit mallocated storageBlobsMax
  reqCtxalloc := ctxaInit requestsMax
  conCls _ := none
  phase _ := .fresh

/-- `ahc` for request `r`: find or make its context, run the handler on it. -/
def ahc (env : Env) (r : ℕ) (rq : Request) (S : Server) (upload : List UInt8) :
    Option (Server × List Call × Bool) :=
  match S.conCls r with
  | some p =>
    (ahcCtx env r rq false S.storage (ctxaRead S.reqCtxalloc p) upload).map fun out =>
      ({ S with storage := out.storage, reqCtxalloc := ctxaWrite S.reqCtxalloc p out.ctx },
        out.calls, out.yes)
  | none =>
    let a := ctxaAlloc S.reqCtxalloc
    match a.2 with
    | none => some ({ S with reqCtxalloc := a.1 }, [], false)
    | some p =>
      (ahcCtx env r rq true S.storage (ctxaRead a.1 p) upload).map fun out =>
        ({ S with
          storage := out.storage
          reqCtxalloc := ctxaWrite a.1 p out.ctx
          conCls := Function.update S.conCls r (some p) }, out.calls, out.yes)

/-- `req_done` for request `r`. -/
def reqDone (r : ℕ) (S : Server) : Option (Server × List Call) :=
  match S.conCls r with
  | none => some (S, [])
  | some p =>
    let ctx := ctxaRead S.reqCtxalloc p
    let aborted :=
      if ctx.postBody.size ≠ 0 then
        (storageBlobAbort S.storage ctx.id).map fun s => (s, [Call.abort r ctx.id])
      else some (S.storage, [])
    aborted.map fun (s, calls) =>
      let freed :=
        if ctx.blobSend.size ≠ 0 then (storageBlobFree s ctx.blobSend, [Call.free r ctx.blobSend])
        else (s, [])
      ({ S with
        storage := freed.1
        reqCtxalloc :=
          ctxaFree (ctxaWrite S.reqCtxalloc p { ctx with id := HtableKey.null }) p
        conCls := Function.update S.conCls r none }, calls ++ freed.2)

/-- What can happen: a call of the handler with a piece of the body, the end of a request, a tick of
the reaper. -/
inductive Event where
  | ahc (r : ℕ) (upload : List UInt8) (env : Env)
  | reqDone (r : ℕ)
  | reaper (tvSec : ℕ)

/-- What libmicrohttpd does. -/
def Enabled (S : Server) : Event → Prop
  | .ahc r upload _ => (S.phase r = .fresh ∧ upload = []) ∨ S.phase r = .receiving
  | .reqDone r => S.phase r = .receiving ∨ S.phase r = .answered
  | .reaper _ => True

/-- How libmicrohttpd goes on after a call: with the body after the first call and after a chunk,
unless the handler refused or queued a response. -/
def nextPhase (phase : Phase) (upload : List UInt8) (calls : List Call) (yes : Bool) : Phase :=
  if yes ∧ ¬ calls.any Call.queued ∧ (phase = .fresh ∨ upload ≠ []) then .receiving else .answered

/-- One step of the server, with what it did. -/
def step (requests : ℕ → Request) (S : Server) : Event → Option (Server × List Call)
  | .ahc r upload env =>
    (ahc env r (requests r) S upload).map fun (S', calls, yes) =>
      ({ S' with phase :=
          Function.update S'.phase r (nextPhase (S.phase r) upload calls yes) }, calls)
  | .reqDone r =>
    (reqDone r S).map fun (S', calls) =>
      ({ S' with phase := Function.update S'.phase r .done }, calls)
  | .reaper tvSec =>
    (storageReaper S.storage (monotonicNowS tvSec)).map fun s =>
      ({ S with storage := s },
        (idsInvalid (reaperGather S.storage (monotonicNowS tvSec))).map Call.reap)

/-- The trace of a run: its events, each with what it did. -/
abbrev Trace := List (Event × List Call)

/-- The runs from `S₀`. -/
inductive Run (requests : ℕ → Request) (S₀ : Server) : Trace → Server → Prop
  | init : Run requests S₀ [] S₀
  | step {tr : Trace} {S S' : Server} {ev : Event} {calls : List Call} :
      Run requests S₀ tr S → Enabled S ev → step requests S ev = some (S', calls) →
        Run requests S₀ (tr ++ [(ev, calls)]) S'

/-- Every step of the run with trace `tr` from `S` has the property `P`. -/
def EveryStep (requests : ℕ → Request) (P : Server → Event → List Call → Server → Prop) :
    Server → Trace → Prop
  | _, [] => True
  | S, (ev, calls) :: tr =>
    ∀ S', step requests S ev = some (S', calls) → P S ev calls S' ∧ EveryStep requests P S' tr

theorem EveryStep.of_forall {requests : ℕ → Request}
    {P : Server → Event → List Call → Server → Prop} : ∀ (tr : Trace) {S : Server},
    (∀ p ∈ tr, ∀ S S', P S p.1 p.2 S') → EveryStep requests P S tr
  | [], _, _ => trivial
  | p :: tr, S, h => fun S' _ => ⟨h p List.mem_cons_self S S',
      EveryStep.of_forall tr fun p hp => h p (List.mem_cons_of_mem _ hp)⟩

/-- Everything a run did to the store and to the connections. -/
def callsOf (tr : Trace) : List Call := tr.flatMap Prod.snd

/-- The body of request `q` as far as it was handed to the handler. -/
def received (q : ℕ) (tr : Trace) : List UInt8 :=
  tr.flatMap fun p =>
    match p.1 with
    | .ahc r upload _ => if r = q then upload else []
    | _ => []

theorem callsOf_append (tr : Trace) (ev : Event) (calls : List Call) :
    callsOf (tr ++ [(ev, calls)]) = callsOf tr ++ calls := by simp [callsOf]

theorem received_append (q : ℕ) (tr : Trace) (ev : Event) (calls : List Call) :
    received q (tr ++ [(ev, calls)]) = received q tr ++
      match ev with
      | .ahc r upload _ => if r = q then upload else []
      | _ => [] := by simp [received]

theorem Run.split {requests : ℕ → Request} {S₀ S : Server} {tr₂ : Trace} :
    ∀ {tr₁ : Trace}, Run requests S₀ (tr₁ ++ tr₂) S →
      ∃ S₁, Run requests S₀ tr₁ S₁ ∧ Run requests S₁ tr₂ S := by
  induction tr₂ using List.reverseRecOn generalizing S with
  | nil => exact fun {tr₁} h => ⟨S, by rwa [List.append_nil] at h, .init⟩
  | append_singleton tr₂ p ih =>
    intro tr₁ h
    rw [← List.append_assoc] at h
    generalize htr : tr₁ ++ tr₂ ++ [p] = tr at h
    cases h with
    | init => simp at htr
    | step hrun hen hstep =>
      obtain ⟨htr, hp⟩ := List.append_inj' htr rfl
      rw [List.singleton_inj] at hp
      subst htr hp
      obtain ⟨S₁, h1, h2⟩ := ih hrun
      exact ⟨S₁, h1, .step h2 hen hstep⟩

theorem Run.eq_of_nil {requests : ℕ → Request} {S₀ S : Server} (h : Run requests S₀ [] S) :
    S = S₀ := by
  generalize htr : ([] : Trace) = tr at h
  cases h with
  | init => rfl
  | step => simp at htr

theorem Run.head {requests : ℕ → Request} {S₀ S : Server} {ev : Event} {calls : List Call}
    {tr : Trace} (h : Run requests S₀ ((ev, calls) :: tr) S) :
    ∃ S₁, Enabled S₀ ev ∧ Adnihilum.step requests S₀ ev = some (S₁, calls) ∧
      Run requests S₁ tr S := by
  have h' : Run requests S₀ ([(ev, calls)] ++ tr) S := h
  obtain ⟨S₁, hone, hrest⟩ := h'.split
  refine ⟨S₁, ?_⟩
  generalize htr : [(ev, calls)] = tr₁ at hone
  cases hone with
  | init => cases htr
  | step hrun hen hstep =>
    rw [← List.nil_append [(ev, calls)]] at htr
    obtain ⟨hnil, hp⟩ := List.append_inj' htr rfl
    subst hnil
    cases hp
    obtain rfl := hrun.eq_of_nil
    exact ⟨hen, hstep, hrest⟩

end Adnihilum
