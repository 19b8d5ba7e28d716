import Adnihilum.Server.Handler
import Adnihilum.Server.Ledger
import Adnihilum.Server.Run

/-!
# The server refines the world

* `RequestRep`: progress, context, upload, delivery and committed upload of one request agree.
* `ServerRep requests memory tr S w`: after the trace `tr` the server `S` represents the world `w`.
* `ahc_rep`, `reqDone_rep`, `reaper_rep`: one step; the first two always end.
* **`step_rep`**, **`Run.reached`**: every run of the server is a run of moves.
-/

namespace Adnihilum

open FlatMemory Custody

/-- The context of a request, while it has one. -/
def Server.ctx (S : Server) (r : ℕ) : Option ReqCtx := (S.conCls r).map (ctxaRead S.reqCtxalloc)

/-- What libmicrohttpd and the context say about one request. -/
structure RequestRep (rq : Request) (phase : Phase) (got : List UInt8) (ctx : Option ReqCtx)
    (up : Option Upload) (out : Option Blk) (com : Option Upload) : Prop where
  live : ∀ c, ctx = some c → CtxRep rq (phase = .receiving) got c up out com
  dead : ctx = none → up = none ∧ out = none ∧ phase ≠ .receiving
  fresh : phase = .fresh → ctx = none ∧ com = none ∧ got = []
  done : phase = .done → ctx = none
  committed : ∀ u, com = some u → u.body = got ∧ u.body.length = u.blk.size ∧ Uploads rq u ∧
    phase ≠ .receiving ∧ phase ≠ .fresh

/-- **After the trace `tr` the server represents the world.** -/
structure ServerRep (requests : ℕ → Request) (memory : ℕ) (tr : Trace) (S : Server) (w : World) :
    Prop where
  storage : StorageRep noIds 18 memory S.storage w.vault
  pool : PoolRep S.reqCtxalloc S.conCls
  request : ∀ r, RequestRep (requests r) (S.phase r) (received r tr) (S.ctx r) (w.uploads r)
    (w.vault.out r) (w.committed r)

/-- What an event can do: the handler and `req_done` act for their request, the reaper reaps. -/
def Event.Does : Event → Call → Prop
  | .ahc r _ _, c => c.HandlerOf r
  | .reqDone r, c => c.actor = some r ∧ c.byHandler = false
  | .reaper _, c => c.actor = none

/-- The request an event belongs to. -/
def Event.actor : Event → Option ℕ
  | .ahc r _ _ | .reqDone r => some r
  | .reaper _ => none

section Server

variable {requests : ℕ → Request} {memory : ℕ} {tr : Trace} {S S' : Server} {w w' : World}
  {calls : List Call} {ev : Event}

theorem CtxRep.imp {rq : Request} {P Q : Prop} {got : List UInt8} {c : ReqCtx}
    {up com : Option Upload} {out : Option Blk} (h : CtxRep rq P got c up out com) (hPQ : Q → P) :
    CtxRep rq Q got c up out com :=
  ⟨h.idle, h.post, h.send, h.haveId, h.expected, h.rate, fun hq => h.open_ (hPQ hq)⟩

theorem nextPhase_eq_receiving {phase : Phase} {upload : List UInt8} {yes : Bool} :
    nextPhase phase upload calls yes = .receiving ↔
      yes = true ∧ calls.any Call.queued = false ∧ (phase = .fresh ∨ upload ≠ []) := by
  unfold nextPhase
  split_ifs with h
  · simpa using h
  · simpa using h

theorem nextPhase_ne (phase : Phase) (upload : List UInt8) (calls : List Call) (yes : Bool) :
    nextPhase phase upload calls yes ≠ .fresh ∧ nextPhase phase upload calls yes ≠ .done := by
  unfold nextPhase
  split_ifs <;> simp

theorem RequestRep.other (h : ServerRep requests memory tr S w) {r : ℕ} (hev : ev.actor ≠ some r)
    (hphase : S'.phase r = S.phase r) (hctx : S'.ctx r = S.ctx r)
    (hw : w'.uploads r = w.uploads r ∧ w'.committed r = w.committed r ∧
      w'.vault.out r = w.vault.out r) :
    RequestRep (requests r) (S'.phase r) (received r (tr ++ [(ev, calls)])) (S'.ctx r)
      (w'.uploads r) (w'.vault.out r) (w'.committed r) := by
  have hgot : received r (tr ++ [(ev, calls)]) = received r tr := by
    rw [received_append]
    cases ev with
    | ahc r' upload env =>
      have hne : r' ≠ r := fun e => hev (by rw [e]; rfl)
      simp [hne]
    | reqDone | reaper => simp
  rw [hgot, hphase, hctx, hw.1, hw.2.1, hw.2.2]
  exact h.request r

/-! ## Calls of the handler -/

theorem ctx_write (hpool : PoolRep S.reqCtxalloc S.conCls) {r p : ℕ} (hp : S.conCls r = some p)
    (s : Storage) (c : ReqCtx) (phase : ℕ → Phase) (r' : ℕ) :
    ({ S with storage := s, reqCtxalloc := ctxaWrite S.reqCtxalloc p c, phase := phase } :
      Server).ctx r' =
      if r' = r then some c else S.ctx r' := by
  unfold Server.ctx
  split_ifs with hr
  · subst hr
    simp only [hp, Option.map_some, ctxaRead_write, if_true]
  · cases hp' : S.conCls r' with
    | none => rfl
    | some p' =>
      have hne : p' ≠ p := fun e => hr (hpool.inj r' r p (e ▸ hp') hp)
      simp [ctxaRead_write, hne]

/-- **A call of the handler** in the middle of a request. -/
theorem ahc_rep (h : ServerRep requests memory tr S w) (hi : w.Inv memory) {r : ℕ}
    (hr : S.phase r = .receiving) (upload : List UInt8) (env : Env) :
    ∃ S' calls w', step requests S (.ahc r upload env) = some (S', calls) ∧ Moves w calls w' ∧
      (∀ c ∈ calls, c.HandlerOf r) ∧
      ServerRep requests memory (tr ++ [(.ahc r upload env, calls)]) S' w' := by
  have hreq := h.request r
  cases hp : S.conCls r with
  | none => exact absurd hr (hreq.dead (by rw [Server.ctx, hp]; rfl)).2.2
  | some p =>
    have hlive := hreq.live (ctxaRead S.reqCtxalloc p) (by rw [Server.ctx, hp]; rfl)
    obtain ⟨out, w', hrun, hd⟩ := ahcCtx_spec hi h.storage (hlive.imp fun _ => hr) env upload
    have hgot : received r (tr ++ [(Event.ahc r upload env, out.calls)]) =
        received r tr ++ upload := by
      rw [received_append]
      simp
    refine ⟨_, _, w', by rw [step, ahc, hp]; simp only [hrun, Option.map_some]; rfl, hd.moves,
      hd.does, ?_⟩
    have hphase : ∀ r', Function.update S.phase r
        (nextPhase (S.phase r) upload out.calls out.yes) r' =
          if r' = r then nextPhase (S.phase r) upload out.calls out.yes else S.phase r' := by
      intro r'
      split_ifs with hne
      · rw [hne, Function.update_self]
      · exact Function.update_of_ne hne _ _
    refine ⟨hd.storage, ctxaWrite_rep h.pool hp out.ctx, fun r' => ?_⟩
    by_cases hne : r' = r
    · subst hne
      rw [hgot, ctx_write h.pool hp, if_pos rfl]
      simp only [hphase, if_true]
      have hgoes : nextPhase (S.phase r') upload out.calls out.yes = .receiving →
          out.GoesOn upload := by
        rw [nextPhase_eq_receiving, hr]
        simp [AhcOut.GoesOn]
      obtain ⟨hnf, hnd⟩ := nextPhase_ne (S.phase r') upload out.calls out.yes
      refine ⟨fun c hc => ?_, fun hc => (by cases hc), fun hf => absurd hf hnf,
        fun hf => absurd hf hnd, fun u hu => ?_⟩
      · cases hc
        exact hd.ctx.imp hgoes
      · obtain ⟨h1, h2, h3⟩ := hd.committed u hu
        refine ⟨h1, h2, h3, fun hrec => ?_, hnf⟩
        rw [(hd.ctx.open_ (hgoes hrec)).2.1] at hu
        cases hu
    · refine RequestRep.other h (fun e => hne (Option.some_inj.mp e).symm) ?_ ?_
        (hd.moves.frame fun c hc e => hne (Option.some_inj.mp ((hd.does c hc).1.symm.trans e)).symm)
      · simp only [hphase, if_neg hne]
      · rw [ctx_write h.pool hp, if_neg hne]

/-- **The first call** finds or makes a context, and does nothing to the world. -/
theorem ahc_first_rep (h : ServerRep requests memory tr S w) {r : ℕ} (hr : S.phase r = .fresh)
    (env : Env) : ∃ S' calls, step requests S (.ahc r [] env) = some (S', calls) ∧
      Moves w calls w ∧ (∀ c ∈ calls, c.HandlerOf r) ∧
      ServerRep requests memory (tr ++ [(.ahc r [] env, calls)]) S' w := by
  have hreq := h.request r
  obtain ⟨hctx, hcom, hgot⟩ := hreq.fresh hr
  obtain ⟨hup, hout, _⟩ := hreq.dead hctx
  have hp : S.conCls r = none := by
    rw [Server.ctx, Option.map_eq_none_iff] at hctx
    exact hctx
  have hgot' : ∀ calls, received r (tr ++ [(Event.ahc r [] env, calls)]) = [] := by
    intro calls
    rw [received_append, hgot]
    simp
  have hphase : ∀ calls yes r', r' ≠ r →
      Function.update S.phase r (nextPhase (S.phase r) [] calls yes) r' = S.phase r' :=
    fun calls yes r' hne => Function.update_of_ne hne _ _
  rcases ctxaAlloc_rep h.pool hp with ⟨hfail, hsame, _⟩ | ⟨b, hb, hunused, hzero, hother, hpool⟩
  · -- no context left: the connection is dropped
    have hstep : step requests S (.ahc r [] env) = some ({ S with
        phase := Function.update S.phase r (nextPhase (S.phase r) [] [] false) }, []) := by
      rw [step, ahc, hp]
      simp only [hfail, hsame, Option.map_some]
    refine ⟨_, [], hstep, rfl, by simp, h.storage, h.pool, fun r' => ?_⟩
    by_cases hne : r' = r
    · subst hne
      obtain ⟨hnf, hnd⟩ := nextPhase_ne (S.phase r') [] [] false
      rw [hgot', hup, hout, hcom]
      simp only [Function.update_self]
      refine ⟨fun c hc => ?_, fun _ => ⟨rfl, rfl, ?_⟩, fun hf => absurd hf hnf,
        fun hf => absurd hf hnd, fun u hu => (by cases hu)⟩
      · have : S.ctx r' = some c := hc
        rw [hctx] at this
        cases this
      · simp [nextPhase_eq_receiving]
    · exact RequestRep.other h (fun e => hne (Option.some_inj.mp e).symm) (hphase _ _ r' hne) rfl
        ⟨rfl, rfl, rfl⟩
  · obtain ⟨out, hrun, hst, hc, hcalls⟩ := ahcCtx_first env r (requests r) S.storage
    have hmoves : Moves w out.calls w := by
      rcases hcalls with hcalls | ⟨resp, hcalls, _⟩ <;> rw [hcalls]
      · rfl
      · exact Moves.single .queue
    have hdoes : ∀ c ∈ out.calls, c.HandlerOf r := by
      rcases hcalls with hcalls | ⟨resp, hcalls, _⟩ <;> rw [hcalls] <;>
        simp [Call.HandlerOf, Call.actor, Call.byHandler]
    have hS₁ : ∀ r', r' ≠ r → ({ S with
        reqCtxalloc := (ctxaAlloc S.reqCtxalloc).1
        conCls := Function.update S.conCls r (some b) } : Server).ctx r' = S.ctx r' := by
      intro r' hne
      unfold Server.ctx
      simp only [Function.update_of_ne hne]
      cases hp' : S.conCls r' with
      | none => rfl
      | some p' => simp only [Option.map_some, hother p' fun e => hunused r' (e ▸ hp')]
    have hself : Function.update S.conCls r (some b) r = some b := Function.update_self _ _ _
    have hwrite := ctx_write (S := { S with
      reqCtxalloc := (ctxaAlloc S.reqCtxalloc).1
      conCls := Function.update S.conCls r (some b) }) hpool hself
    refine ⟨_, out.calls, by rw [step, ahc, hp]; simp only [hb, hzero, hrun, Option.map_some]; rfl,
      hmoves, hdoes, ?_, ctxaWrite_rep hpool hself _, fun r' => ?_⟩
    · rw [hst]
      exact h.storage
    · by_cases hne : r' = r
      · subst hne
        obtain ⟨hnf, hnd⟩ := nextPhase_ne (S.phase r') [] out.calls out.yes
        rw [hgot', hup, hout, hcom, hwrite, if_pos rfl]
        simp only [Function.update_self]
        refine ⟨fun c hc' => ?_, fun hc' => (by cases hc'), fun hf => absurd hf hnf,
          fun hf => absurd hf hnd, fun u hu => (by cases hu)⟩
        rw [hc] at hc'
        cases hc'
        exact ⟨fun _ => rfl, fun u hu => (by cases hu), rfl, fun hh => (by cases hh),
          fun he => absurd rfl he, rfl, fun _ => ⟨rfl, rfl, fun _ => ⟨rfl, fun _ => rfl⟩,
            fun u hu => (by cases hu)⟩⟩
      · refine RequestRep.other h (fun e => hne (Option.some_inj.mp e).symm) (hphase _ _ r' hne) ?_
          ⟨rfl, rfl, rfl⟩
        rw [hwrite, if_neg hne, hS₁ r' hne]

/-! ## The end of a request -/

theorem reqDone_abort (hA : Arena memory) (h : ServerRep requests memory tr S w)
    (hi : w.Inv memory) {r : ℕ} {c : ReqCtx} (hc : S.ctx r = some c) :
    ∃ s₁ calls₁ w₁, (if c.postBody.size ≠ 0 then
        (storageBlobAbort S.storage c.id).map fun s => (s, [Call.abort r c.id])
      else some (S.storage, [])) = some (s₁, calls₁) ∧ Moves w calls₁ w₁ ∧
      (∀ c ∈ calls₁, c.actor = some r ∧ c.byHandler = false) ∧ StorageRep noIds 18 memory s₁ w₁.vault ∧
      w₁.uploads r = none ∧ w₁.vault.out r = w.vault.out r ∧ w₁.committed r = w.committed r := by
  have hlive := (h.request r).live c hc
  cases hup : w.uploads r with
  | none =>
    rw [hlive.idle hup]
    exact ⟨S.storage, [], w, by simp [Blk.zero], rfl, by simp, h.storage, hup, rfl, rfl⟩
  | some u =>
    obtain ⟨hpost, hid, _⟩ := hlive.post u hup
    have hsize := hi.blk_size_ne_zero hup
    obtain ⟨s', hrun, hrep⟩ := storageBlobAbort_rep h.storage hA (by norm_num) hi.owned u.id
    refine ⟨s', [.abort r u.id], _, ?_, Moves.single (Move.abort hup),
      by simp [Call.actor, Call.byHandler], hrep,
      Function.update_self _ _ _, congrFun (Vault.abort_out _ _) r, rfl⟩
    rw [hpost, hid, if_pos hsize, hrun]
    rfl

theorem reqDone_free (hA : Arena memory) {s : Storage} (hs : StorageRep noIds 18 memory s w.vault)
    (hi : w.Inv memory) {r : ℕ} {c : ReqCtx} (hc : c.blobSend = (w.vault.out r).getD Blk.zero) :
    ∃ w', Moves w (if c.blobSend.size ≠ 0 then (storageBlobFree s c.blobSend, [Call.free r c.blobSend])
        else (s, [])).2 w' ∧
      (∀ c' ∈ (if c.blobSend.size ≠ 0 then
        (storageBlobFree s c.blobSend, [Call.free r c.blobSend]) else (s, [])).2,
        c'.actor = some r ∧ c'.byHandler = false) ∧
      StorageRep noIds 18 memory (if c.blobSend.size ≠ 0 then
        (storageBlobFree s c.blobSend, [Call.free r c.blobSend]) else (s, [])).1 w'.vault ∧
      w'.uploads r = w.uploads r ∧ w'.vault.out r = none ∧ w'.committed r = w.committed r := by
  cases hout : w.vault.out r with
  | none =>
    rw [hc, hout, Option.getD_none, if_neg (by simp [Blk.zero])]
    exact ⟨w, rfl, by simp, hs, rfl, hout, rfl⟩
  | some b =>
    have hb := hi.owned.out_ok r b hout
    rw [hc, hout, Option.getD_some, if_pos hb.size_ne_zero]
    have hs' : StorageRep noIds 18 memory s
        { w.vault with out := Function.update w.vault.out r none } := hs.congr rfl rfl rfl
    have hrep := storageBlobFree_rep hs' hA hb (hi.owned.out_not_free hout)
    refine ⟨_, Moves.single (Move.free hout), by simp [Call.actor, Call.byHandler], ?_, rfl, ?_, rfl⟩
    · simp only [Vault.release, hout]
      exact hrep
    · simp only [Vault.release, hout]
      exact Function.update_self _ _ _

/-- **`req_done`** ends the request: nothing of it stays. -/
theorem reqDone_rep (hA : Arena memory) (h : ServerRep requests memory tr S w) (hi : w.Inv memory)
    {r : ℕ} (hr : S.phase r = .receiving ∨ S.phase r = .answered) :
    ∃ S' calls w', step requests S (.reqDone r) = some (S', calls) ∧ Moves w calls w' ∧
      (∀ c ∈ calls, c.actor = some r ∧ c.byHandler = false) ∧
      ServerRep requests memory (tr ++ [(.reqDone r, calls)]) S' w' := by
  have hgot : ∀ calls, received r (tr ++ [(Event.reqDone r, calls)]) = received r tr := by
    intro calls
    rw [received_append]
    simp
  have hreq := h.request r
  have hnf : S.phase r ≠ .fresh := fun e => by rw [e] at hr; simp at hr
  have hcommitted : ∀ {com : Option Upload}, com = w.committed r → ∀ u, com = some u →
      u.body = received r tr ∧ u.body.length = u.blk.size ∧ Uploads (requests r) u ∧
        Phase.done ≠ .receiving ∧ Phase.done ≠ .fresh := by
    rintro com rfl u hu
    obtain ⟨h1, h2, h3, _⟩ := hreq.committed u hu
    exact ⟨h1, h2, h3, by simp, by simp⟩
  cases hp : S.conCls r with
  | none =>
    have hstep : step requests S (.reqDone r) =
        some ({ S with phase := Function.update S.phase r .done }, []) := by
      rw [step, reqDone, hp]
      rfl
    refine ⟨_, [], w, hstep, rfl, by simp, h.storage, h.pool, fun r' => ?_⟩
    by_cases hne : r' = r
    · subst hne
      have hctx : S.ctx r' = none := by rw [Server.ctx, hp]; rfl
      obtain ⟨hup, hout, _⟩ := hreq.dead hctx
      rw [hgot, hup, hout]
      simp only [Function.update_self]
      exact ⟨fun c hc => absurd ((show S.ctx r' = some c from hc).symm.trans hctx) (by simp),
        fun _ => ⟨rfl, rfl, by simp⟩, fun hf => (by cases hf), fun _ => hctx, hcommitted rfl⟩
    · exact RequestRep.other h (fun e => hne (Option.some_inj.mp e).symm)
        (Function.update_of_ne hne _ _) rfl ⟨rfl, rfl, rfl⟩
  | some p =>
    have hctx : S.ctx r = some (ctxaRead S.reqCtxalloc p) := by rw [Server.ctx, hp]; rfl
    obtain ⟨s₁, calls₁, w₁, hrun, hm₁, ha₁, hs₁, hup₁, hout₁, hcom₁⟩ := reqDone_abort hA h hi hctx
    have hsend : (ctxaRead S.reqCtxalloc p).blobSend = (w₁.vault.out r).getD Blk.zero := by
      rw [hout₁]
      exact (hreq.live _ hctx).send
    obtain ⟨w', hm₂, ha₂, hs₂, hup₂, hout₂, hcom₂⟩ :=
      reqDone_free hA hs₁ (World.Inv.moves hm₁ hi) hsend
    have hpool₁ := ctxaWrite_rep h.pool hp { ctxaRead S.reqCtxalloc p with id := HtableKey.null }
    obtain ⟨hpool, hreads⟩ := ctxaFree_rep hpool₁ hp
    have hmoves := hm₁.append hm₂
    have hdoes : ∀ c ∈ calls₁ ++ _, c.actor = some r ∧ c.byHandler = false := fun c hc =>
      (List.mem_append.mp hc).elim (ha₁ c) (ha₂ c)
    refine ⟨_, _, w', by rw [step, reqDone, hp]; simp only [hrun, Option.map_some]; rfl, hmoves,
      hdoes, hs₂, hpool, fun r' => ?_⟩
    by_cases hne : r' = r
    · subst hne
      rw [hgot]
      simp only [Function.update_self]
      have hnone : ∀ {S₂ : Server}, S₂.conCls r' = none → S₂.ctx r' = none := fun h => by
        rw [Server.ctx, h]
        rfl
      rw [hnone (Function.update_self _ _ _), hup₂, hup₁, hout₂]
      exact ⟨fun c hc => (by cases hc), fun _ => ⟨rfl, rfl, by simp⟩, fun hf => (by cases hf),
        fun _ => rfl, hcommitted (hcom₂.trans hcom₁)⟩
    · refine RequestRep.other h (fun e => hne (Option.some_inj.mp e).symm)
        (Function.update_of_ne hne _ _) ?_
        (hmoves.frame fun c hc e => hne (Option.some_inj.mp ((hdoes c hc).1.symm.trans e)).symm)
      unfold Server.ctx
      simp only [Function.update_of_ne hne]
      cases hp' : S.conCls r' with
      | none => rfl
      | some p' =>
        have hpp : p' ≠ p := fun e => hne (h.pool.inj r' r p (e ▸ hp') hp)
        simp [hreads p' hpp, ctxaRead_write, hpp]

/-! ## The reaper -/

theorem moves_reap (ids : List HtableKey) : ∀ {w : World}, ids.Nodup →
    (∀ id ∈ ids, w.vault.Available id) →
      Moves w (ids.map Call.reap) { w with vault := ids.foldl Vault.abort w.vault } := by
  induction ids with
  | nil => exact fun _ _ => rfl
  | cons id ids ih =>
    intro w hnd hav
    rw [List.nodup_cons] at hnd
    obtain ⟨e, he, hpub⟩ := hav id List.mem_cons_self
    refine ⟨_, Move.reap he hpub, ih hnd.2 fun id' hid' => ?_⟩
    exact (Vault.available_abort _ id id').mpr
      ⟨hav id' (List.mem_cons_of_mem _ hid'), fun e => hnd.1 (e ▸ hid')⟩

theorem monotonicNowS_le (tvSec : ℕ) : monotonicNowS tvSec ≤ validUntilEmpty := by
  have : monotonicNowS tvSec < 2 ^ 32 := Nat.mod_lt _ (by norm_num)
  unfold validUntilEmpty
  omega

/-- **A tick of the reaper** that meets no unpublished entry with an expired time. -/
theorem reaper_rep (hA : Arena memory) (h : ServerRep requests memory tr S w) (hi : w.Inv memory)
    {tvSec : ℕ} (hav : ∀ id ∈ expiredIds S.storage (monotonicNowS tvSec), w.vault.Available id) :
    ∃ S' w', step requests S (.reaper tvSec) =
        some (S', (expiredIds S.storage (monotonicNowS tvSec)).map Call.reap) ∧
      Moves w ((expiredIds S.storage (monotonicNowS tvSec)).map Call.reap) w' ∧
      ServerRep requests memory
        (tr ++ [(.reaper tvSec, (expiredIds S.storage (monotonicNowS tvSec)).map Call.reap)])
        S' w' := by
  have hnow := monotonicNowS_le tvSec
  obtain ⟨s', hrun, hrep⟩ := storageReaper_rep h.storage hA (by norm_num) hi.owned hnow hav
  have hm := moves_reap _ (nodup_expiredIds h.storage hnow) hav
  obtain ⟨hids, _⟩ := idsInvalid_reaperGather h.storage (monotonicNowS tvSec)
  have hstep : step requests S (.reaper tvSec) = some ({ S with storage := s' },
      (expiredIds S.storage (monotonicNowS tvSec)).map Call.reap) := by
    rw [step, hrun, hids]
    rfl
  refine ⟨_, _, hstep, hm, hrep, h.pool, fun r => ?_⟩
  exact RequestRep.other h (by simp [Event.actor]) rfl rfl
    (hm.frame fun c hc => by
      obtain ⟨id, _, rfl⟩ := List.mem_map.mp hc
      simp [Call.actor])

/-! ## Steps -/

/-- **One step of the server** is a sequence of moves by the request of its event. -/
theorem step_rep (hA : Arena memory) (h : ServerRep requests memory tr S w) (hi : w.Inv memory)
    (hen : Enabled S ev) (hstep : step requests S ev = some (S', calls)) :
    ∃ w', Moves w calls w' ∧ (∀ c ∈ calls, ev.Does c) ∧
      ServerRep requests memory (tr ++ [(ev, calls)]) S' w' := by
  cases ev with
  | ahc r upload env =>
    rcases hen with ⟨hfresh, rfl⟩ | hr
    · obtain ⟨S₁, calls₁, hrun, hm, ha, hrep⟩ := ahc_first_rep h hfresh env
      obtain ⟨rfl, rfl⟩ := Prod.mk.inj (Option.some_inj.mp (hstep.symm.trans hrun))
      exact ⟨w, hm, ha, hrep⟩
    · obtain ⟨S₁, calls₁, w', hrun, hm, ha, hrep⟩ := ahc_rep h hi hr upload env
      obtain ⟨rfl, rfl⟩ := Prod.mk.inj (Option.some_inj.mp (hstep.symm.trans hrun))
      exact ⟨w', hm, ha, hrep⟩
  | reqDone r =>
    obtain ⟨S₁, calls₁, w', hrun, hm, ha, hrep⟩ := reqDone_rep hA h hi hen
    obtain ⟨rfl, rfl⟩ := Prod.mk.inj (Option.some_inj.mp (hstep.symm.trans hrun))
    exact ⟨w', hm, ha, hrep⟩
  | reaper tvSec =>
    have hav : ∀ id ∈ expiredIds S.storage (monotonicNowS tvSec), w.vault.Available id := by
      rw [step, Option.map_eq_some_iff] at hstep
      obtain ⟨s', hs', _⟩ := hstep
      exact storageReaper_inv h.storage hA (by norm_num) hi.owned hs'
    obtain ⟨S₁, w', hrun, hm, hrep⟩ := reaper_rep hA h hi hav
    obtain ⟨rfl, rfl⟩ := Prod.mk.inj (Option.some_inj.mp (hstep.symm.trans hrun))
    refine ⟨w', hm, fun c hc => ?_, hrep⟩
    obtain ⟨id, _, rfl⟩ := List.mem_map.mp hc
    rfl

/-- **Every step ends**, a reaper tick at a time that is not the last two of the clock included. -/
theorem step_total (hA : Arena memory) (h : ServerRep requests memory tr S w) (hi : w.Inv memory)
    (hen : Enabled S ev)
    (hclock : ∀ tvSec, ev = .reaper tvSec → monotonicNowS tvSec ≤ validUntilNotPublished) :
    ∃ S' calls, step requests S ev = some (S', calls) := by
  cases ev with
  | ahc r upload env =>
    rcases hen with ⟨hfresh, rfl⟩ | hr
    · obtain ⟨S', calls, hrun, _⟩ := ahc_first_rep h hfresh env
      exact ⟨S', calls, hrun⟩
    · obtain ⟨S', calls, _, hrun, _⟩ := ahc_rep h hi hr upload env
      exact ⟨S', calls, hrun⟩
  | reqDone r =>
    obtain ⟨S', calls, _, hrun, _⟩ := reqDone_rep hA h hi hen
    exact ⟨S', calls, hrun⟩
  | reaper tvSec =>
    have hav : ∀ id ∈ expiredIds S.storage (monotonicNowS tvSec), w.vault.Available id := by
      intro id hid
      obtain ⟨e, he, hlt⟩ := (mem_expiredIds h.storage (monotonicNowS_le tvSec)).mp hid
      have := hclock tvSec rfl
      exact ⟨e, he, fun hun => by omega⟩
    obtain ⟨S', _, hrun, _⟩ := reaper_rep hA h hi hav
    exact ⟨S', _, hrun⟩

end Server

/-! ## Runs -/

/-- The world before the first request. -/
def World.init (mallocated : ℕ) : World :=
  ⟨Vault.init ℕ mallocated storageBlobsMax, fun _ => none, fun _ => none⟩

/-- The address of the allocator's memory. -/
def serverArena (mallocated : ℕ) : ℕ := arenaStart mallocated storageBlobsMax

/-- **What holds after every run**: the server represents a world that satisfies the invariant and
fits the ledger of the run. -/
structure Reached (requests : ℕ → Request) (mallocated : ℕ) (tr : Trace) (S : Server) (w : World) :
    Prop where
  rep : ServerRep requests (serverArena mallocated) tr S w
  inv : w.Inv (serverArena mallocated)
  traced : Traced w (Ledger.of (callsOf tr))
  commits : ∀ q u, w.committed q = some u → ∃ t, Call.publish q u.id t true ∈ callsOf tr

section Runs

variable {requests : ℕ → Request} {mallocated : ℕ} {tr tr₂ : Trace} {S S' : Server} {w : World}
  {calls : List Call} {ev : Event}

theorem Reached.init (hA : Arena (serverArena mallocated)) :
    Reached requests mallocated [] (serverInit mallocated) (World.init mallocated) where
  rep := by
    refine ⟨?_, ctxaInit_rep (by decide), fun r => ?_⟩
    · have hinit : StorageRep noIds 18 (serverArena mallocated) (storageInit mallocated (2 ^ 18))
          (Vault.init ℕ mallocated (2 ^ 18)) := storageInit_rep hA
      exact hinit
    · exact ⟨fun c hc => (by cases hc), fun _ => ⟨rfl, rfl, by simp [serverInit]⟩,
        fun _ => ⟨rfl, rfl, rfl⟩, fun _ => rfl, fun u hu => (by cases hu)⟩
  inv := by
    exact ⟨Vault.init_owned, Vault.init_clean, fun r u hu => (by cases hu),
      fun r u hu => (by cases hu), fun r r' u u' hu => (by cases hu), fun r u hu => (by cases hu)⟩
  traced := by
    have hnone : ∀ id e, (World.init mallocated).vault.entries.lookup id ≠ some e := by
      intro id e he
      rw [World.init, Vault.init, Finmap.lookup_empty] at he
      cases he
    exact ⟨fun id e he => absurd he (hnone id e), fun id q hq => (by cases hq),
      fun q => Nat.zero_le _, fun q _ => ⟨rfl, rfl⟩, fun id e he => absurd he (hnone id e),
      fun id hg => (by cases hg)⟩
  commits q u hq := by cases hq

theorem Reached.step (hA : Arena (serverArena mallocated)) (h : Reached requests mallocated tr S w)
    (hen : Enabled S ev) (hstep : Adnihilum.step requests S ev = some (S', calls)) :
    ∃ w', Moves w calls w' ∧ (∀ c ∈ calls, ev.Does c) ∧
      Reached requests mallocated (tr ++ [(ev, calls)]) S' w' := by
  obtain ⟨w', hm, hd, hrep⟩ := step_rep hA h.rep h.inv hen hstep
  refine ⟨w', hm, hd, hrep, World.Inv.moves hm h.inv, ?_, fun q u hq => ?_⟩
  · rw [callsOf_append, Ledger.of_append]
    exact h.traced.moves h.inv hm
  · rw [callsOf_append]
    rcases hm.commits hq with hq | ⟨t, ht⟩
    · obtain ⟨t, ht⟩ := h.commits q u hq
      exact ⟨t, List.mem_append_left _ ht⟩
    · exact ⟨t, List.mem_append_right _ ht⟩

theorem Reached.postBody (h : Reached requests mallocated tr S w) {r : ℕ} {c : ReqCtx}
    (hc : S.ctx r = some c) (hsize : c.postBody.size ≠ 0) :
    ∃ u, w.uploads r = some u ∧ c.postBody = u.blk ∧ c.id = u.id ∧
      S.storage.HasEntry c.id c.postBody validUntilNotPublished := by
  have hlive := (h.rep.request r).live c hc
  cases hup : w.uploads r with
  | none => exact absurd (by rw [hlive.idle hup]; rfl) hsize
  | some u =>
    obtain ⟨hpost, hid, _⟩ := hlive.post u hup
    refine ⟨u, rfl, hpost, hid, ?_⟩
    rw [h.rep.storage.hasEntry_iff, hpost, hid]
    exact h.inv.upload r u hup

/-- **Every run reaches a world.** -/
theorem Run.reached (hA : Arena (serverArena mallocated))
    (hrun : Run requests (serverInit mallocated) tr S) : ∃ w, Reached requests mallocated tr S w := by
  induction hrun with
  | init => exact ⟨_, Reached.init hA⟩
  | step _ hen hstep ih =>
    obtain ⟨w, hw⟩ := ih
    obtain ⟨w', _, _, hw'⟩ := hw.step hA hen hstep
    exact ⟨w', hw'⟩

/-- **Properties of the steps of a run** that agree in every reachable state agree for the run. -/
theorem Run.everyStep_congr (hA : Arena (serverArena mallocated))
    {P Q : Server → Event → List Call → Server → Prop} {F : Event → Prop}
    (hPQ : ∀ tr S w ev calls S', Reached requests mallocated tr S w → Enabled S ev → F ev →
      Adnihilum.step requests S ev = some (S', calls) → (P S ev calls S' ↔ Q S ev calls S')) :
    ∀ {tr S S' w}, Reached requests mallocated tr S w → Run requests S tr₂ S' →
      (∀ p ∈ tr₂, F p.1) → (EveryStep requests P S tr₂ ↔ EveryStep requests Q S tr₂) := by
  induction tr₂ with
  | nil => exact fun _ _ _ => Iff.rfl
  | cons p tr₂ ih =>
    intro tr S S' w h hrun hF
    obtain ⟨S₁, hen, hstep, hrest⟩ := hrun.head
    obtain ⟨w₁, _, _, h₁⟩ := h.step hA hen hstep
    have hhead := hPQ tr S w p.1 p.2 S₁ h hen (hF p List.mem_cons_self) hstep
    have htail := ih h₁ hrest fun p hp => hF p (List.mem_cons_of_mem _ hp)
    have hdet : ∀ {R : Server → Event → List Call → Server → Prop},
        EveryStep requests R S (p :: tr₂) ↔ R S p.1 p.2 S₁ ∧ EveryStep requests R S₁ tr₂ := by
      refine ⟨fun hall => hall S₁ hstep, fun hall S₂ hstep₂ => ?_⟩
      obtain rfl : S₁ = S₂ := congrArg Prod.fst (Option.some_inj.mp (hstep.symm.trans hstep₂))
      exact hall
    rw [hdet, hdet, hhead, htail]

end Runs

end Adnihilum
