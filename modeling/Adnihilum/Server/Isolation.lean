import Adnihilum.Server.Ownership

/-!
# Uploads do not interfere

* `Call.Spares id`: the call does not make, publish, hand out or remove the entry of `id`.
* `Moves.spares`: whose calls spare an entry, and that the entry and its bytes stay.
* `upload_spared`, `post_spares`: running uploads, and `POST`s that meet entries of
  other requests.
* **`uploads_isolated`**.
-/

namespace Adnihilum

open FlatMemory Custody

/-- The call does not make, publish, hand out or remove the entry of `id`. -/
def Call.Spares (id : HtableKey) : Call → Prop
  | .create _ id' _ ret | .get _ id' ret => ret.size ≠ 0 → id' ≠ id
  | .publish _ id' _ ret => ret = true → id' ≠ id
  | .abort _ id' | .reap id' => id' ≠ id
  | .write _ _ _ | .free _ _ | .queue _ _ _ _ => True

section Moves

variable {memory : ℕ} {id : HtableKey} {e : Entry}

theorem Move.spares {w w' : World} {c : Call} (h : Move w c w')
    (he : w.vault.entries.lookup id = some e)
    (hown : ∀ r u, c.actor = some r → w.uploads r = some u → u.id ≠ id)
    (hleave : e.Published → (∀ r blk, c = .get r id blk → blk.size = 0) ∧ c ≠ .reap id) :
    c.Spares id := by
  cases h with
  | createFail | getFail => exact fun h0 => absurd rfl h0
  | create hup hcom habs =>
    rintro _ rfl
    rw [habs] at he
    cases he
  | publish hup => exact fun _ => hown _ _ rfl hup
  | get he' hpub hout =>
    rintro h0 rfl
    obtain rfl : _ = e := Option.some_inj.mp (he'.symm.trans he)
    exact h0 ((hleave hpub).1 _ _ rfl)
  | abort hup => exact hown _ _ rfl hup
  | reap he' hpub =>
    rintro rfl
    obtain rfl : _ = e := Option.some_inj.mp (he'.symm.trans he)
    exact (hleave hpub).2 rfl
  | write | free | queue => trivial

theorem Move.lookup_of_spares {w w' : World} {c : Call} (h : Move w c w') (hi : w.Inv memory)
    (hc : c.Spares id) :
    w'.vault.entries.lookup id = w.vault.entries.lookup id := by
  cases h with
  | createFail | getFail | write | queue => rfl
  | create hup hcom habs hmin hmax hcreate hblk =>
    obtain ⟨_, _, _, _, hlook⟩ := Vault.create_some hcreate hblk
    simp only [hlook, if_neg (hc hblk).symm]
  | publish hup => simp only [Vault.lookup_publish, if_neg (hc rfl).symm]
  | @get r id' e' he hpub hout =>
    have hne := hc (hi.owned.entry_ok id' e' he).1.size_ne_zero
    rw [Vault.get_some _ he hpub]
    exact Finmap.lookup_erase_ne hne.symm
  | abort hup => simp only [Vault.lookup_abort, if_neg hc.symm]
  | free => simp only [Vault.release_entries]
  | reap => simp only [Vault.lookup_abort, if_neg hc.symm]

theorem Move.own_ne {w w' : World} {c : Call} (h : Move w c w')
    (he : w.vault.entries.lookup id = some e) {A : ℕ → Prop}
    (hown : ∀ r u, A r → w.uploads r = some u → u.id ≠ id) {r : ℕ} {u' : Upload} (hr : A r)
    (hu' : w'.uploads r = some u') : u'.id ≠ id := by
  rcases h.upload_back hu' with ⟨u, hu, hid, _⟩ | ⟨_, _, _, habs⟩
  · rw [← hid]
    exact hown r u hr hu
  · rintro rfl
    rw [habs] at he
    cases he

/-- **Calls of other requests spare an entry**, unless it is fetched or reaped: it stays, with its
bytes. -/
theorem Moves.spares {calls : List Call} {A : ℕ → Prop} : ∀ {w w' : World}, Moves w calls w' →
    w.Inv memory → w.vault.entries.lookup id = some e → (∀ c ∈ calls, ∀ r, c.actor = some r → A r) →
    (∀ r u, A r → w.uploads r = some u → u.id ≠ id) →
    (e.Published → ∀ c ∈ calls, (∀ r blk, c = .get r id blk → blk.size = 0) ∧ c ≠ .reap id) →
    (∀ c ∈ calls, c.Spares id) ∧ w'.vault.entries.lookup id = some e ∧
      w'.vault.mem.load e.blk.data e.blk.size = w.vault.mem.load e.blk.data e.blk.size := by
  induction calls with
  | nil =>
    rintro w w' rfl _ he _ _ _
    exact ⟨by simp, he, rfl⟩
  | cons c calls ih =>
    rintro w w' ⟨w₁, hm, hrest⟩ hi he hA hown hleave
    have hc : c.Spares id := hm.spares he
      (fun r u hr hu => hown r u (hA c List.mem_cons_self r hr) hu)
      fun hpub => hleave hpub c List.mem_cons_self
    have he₁ := (hm.lookup_of_spares hi hc).trans he
    have hload := hm.load hi (Or.inl ⟨id, e, he, rfl⟩) (Or.inl ⟨id, e, he₁, rfl⟩)
      (fun r dst bytes u hw hu hblk => by
        refine hown r u (hA c List.mem_cons_self r (by rw [hw]; rfl)) hu ?_
        exact hi.owned.stored_inj (hi.upload r u hu) he (congrArg Blk.data hblk)) le_rfl
    obtain ⟨h1, h2, h3⟩ := ih hrest (hi.move hm) he₁
      (fun c hc => hA c (List.mem_cons_of_mem _ hc)) (fun r u hr hu => hm.own_ne he hown hr hu)
      fun hpub c hc => hleave hpub c (List.mem_cons_of_mem _ hc)
    refine ⟨fun c' hc' => ?_, h2, h3.trans hload⟩
    rcases List.mem_cons.mp hc' with rfl | hc'
    · exact hc
    · exact h1 c' hc'

end Moves

section Steps

variable {requests : ℕ → Request} {mallocated : ℕ} {tr : Trace} {S S' : Server} {w : World}
  {calls : List Call} {ev : Event} {r : ℕ}

theorem Event.Does.actor_eq {c : Call} (h : ev.Does c) : c.actor = ev.actor := by
  cases ev with
  | ahc | reqDone => exact h.1
  | reaper => exact h

theorem CtxRep.eq_of_upload {rq : Request} {receiving : Prop} {got : List UInt8} {c : ReqCtx}
    {u : Upload} {out : Option Blk} {com : Option Upload}
    (h : CtxRep rq receiving got c (some u) out com) : c =
      ⟨u.blk, out.getD Blk.zero, u.blk.size, u.body.length, u.id, true, .noError, true⟩ := by
  obtain ⟨h1, h2, h3, h4, h5, h6, _⟩ := h.post u rfl
  have h7 := h.send
  have h8 := h.rate
  cases c
  simp_all

/-- **While it runs an upload is spared** by every event of the others: its context, its entry and
its bytes stay, and no call returns, removes, publishes or makes an entry for its id. -/
theorem upload_spared (hA : Arena (serverArena mallocated))
    (h : Reached requests mallocated tr S w) (hen : Enabled S ev)
    (hstep : step requests S ev = some (S', calls)) (hr : ev.actor ≠ some r) {c : ReqCtx}
    (hc : S.ctx r = some c) (hsize : c.postBody.size ≠ 0) :
    S'.ctx r = some c ∧ S'.storage.HasEntry c.id c.postBody validUntilNotPublished ∧
      S'.storage.mem.load c.postBody.data c.postBody.size =
        S.storage.mem.load c.postBody.data c.postBody.size ∧
      ∀ call ∈ calls, call.Spares c.id := by
  obtain ⟨u, hu, hpost, hid, _⟩ := h.postBody hc hsize
  obtain ⟨w', hm, hd, h'⟩ := h.step hA hen hstep
  have hactor : ∀ call ∈ calls, call.actor = ev.actor := fun call hcall => (hd call hcall).actor_eq
  obtain ⟨hup, hcom, hout⟩ := hm.frame fun call hcall ha => hr ((hactor call hcall).symm.trans ha)
  have hu' := hup.trans hu
  obtain ⟨hspares, hentry, hload⟩ := hm.spares h.inv (h.inv.upload r u hu)
    (fun call hcall r' hr' => show ev.actor = some r' from (hactor call hcall).symm.trans hr')
    (fun r' u' hr' hu₂ hid' => hr (by rw [hr', h.inv.distinct r' r u' u hu₂ hu hid']))
    fun hpub => absurd rfl hpub
  have hreq := (h.rep.request r).live c hc
  rw [hu] at hreq
  cases hc' : S'.ctx r with
  | none =>
    have := ((h'.rep.request r).dead hc').1
    rw [hu'] at this
    cases this
  | some c' =>
    have hreq' := (h'.rep.request r).live c' hc'
    rw [hu', hout] at hreq'
    refine ⟨by rw [hreq.eq_of_upload, hreq'.eq_of_upload], ?_, ?_, ?_⟩
    · rw [hid, hpost, h'.rep.storage.hasEntry_iff]
      exact hentry
    · rw [hpost, h'.rep.storage.mem, h.rep.storage.mem]
      exact hload
    · rw [hid]
      exact hspares

/-- **A `POST` spares the entries of the others**: every event of it keeps every entry that is not
its own running upload, with its bytes. -/
theorem post_spares (hA : Arena (serverArena mallocated))
    (h : Reached requests mallocated tr S w) (hen : Enabled S ev)
    (hstep : step requests S ev = some (S', calls)) (hr : ev.actor = some r)
    (hmethod : (requests r).method = "POST".toList) {id : HtableKey} {blk : Blk} {t : ℕ}
    (hentry : S.storage.HasEntry id blk t)
    (hown : ∀ c, S.ctx r = some c → c.postBody.size ≠ 0 → c.id ≠ id) :
    S'.storage.HasEntry id blk t ∧
      S'.storage.mem.load blk.data blk.size = S.storage.mem.load blk.data blk.size := by
  obtain ⟨w', hm, hd, h'⟩ := h.step hA hen hstep
  rw [h.rep.storage.hasEntry_iff] at hentry
  have hget : ∀ call ∈ calls, (∀ r blk, call ≠ .get r id blk) ∧ call ≠ .reap id := by
    intro call hcall
    have hdoes := hd call hcall
    refine ⟨?_, ?_⟩
    · rintro r' blk rfl
      cases ev with
      | ahc r₀ upload env =>
        obtain rfl : r₀ = r := Option.some_inj.mp hr
        have hget := ((step_ahc_calls h.rep hen hstep).get_mem hcall).1
        rw [hmethod] at hget
        exact absurd hget (by decide)
      | reqDone => cases hdoes.2
      | reaper => cases hr
    · rintro rfl
      have := hdoes.actor_eq
      rw [hr] at this
      cases this
  have hown' : ∀ r' u, r' = r → w.uploads r' = some u → u.id ≠ id := by
    rintro r' u rfl hu
    cases hc : S.ctx r' with
    | none =>
      have := ((h.rep.request r').dead hc).1
      rw [hu] at this
      cases this
    | some c =>
      obtain ⟨hpost, hid, _⟩ := ((h.rep.request r').live c hc).post u hu
      rw [← hid]
      refine hown c hc ?_
      rw [hpost]
      exact h.inv.blk_size_ne_zero hu
  have hactor : ∀ call ∈ calls, ∀ r', call.actor = some r' → r' = r := by
    intro call hcall r' hr'
    rw [(hd call hcall).actor_eq, hr] at hr'
    exact (Option.some_inj.mp hr').symm
  obtain ⟨_, hentry', hload⟩ := hm.spares h.inv hentry hactor hown' fun _ call hcall =>
    ⟨fun r' blk' hc => absurd hc ((hget call hcall).1 r' blk'), (hget call hcall).2⟩
  refine ⟨h'.rep.storage.hasEntry_iff.mpr hentry', ?_⟩
  rw [h'.rep.storage.mem, h.rep.storage.mem]
  exact hload

/-- The reply to a failed `storage_blob_publish` is never queued. -/
theorem publish_reply (hA : Arena (serverArena mallocated))
    (h : Reached requests mallocated tr S w) (hen : Enabled S ev)
    (hstep : step requests S ev = some (S', calls)) {pending : ℕ} {resp : Response} {ret : Bool}
    (hq : .queue r pending resp ret ∈ calls) :
    resp.body ≠ .text "Internal error, cannot publish the blob" := by
  obtain ⟨w', hm, hd, _⟩ := h.step hA hen hstep
  obtain ⟨upload, env, rfl⟩ := (hd _ hq).of_queue
  obtain ⟨_, _, _, hplain | ⟨id, blob, _, _, _, rfl⟩ | ⟨id, t, ret', hpub, _, rfl⟩⟩ :=
    (step_ahc_calls h.rep hen hstep).queue hq
  · exact hplain.1.2
  · unfold blobResponse textResponse
    split_ifs <;> simp
  · rw [publish_succeeds hA h hen hstep hpub]
    simp [publishResponse]

/-- Every entry was made by an upload to its id that is still running or was committed. -/
theorem Reached.entry_maker (h : Reached requests mallocated tr S w) {id : HtableKey} {blk : Blk}
    {t : ℕ} (hentry : S.storage.HasEntry id blk t) :
    ∃ q, (Ledger.of (callsOf tr)).maker id = some q ∧ (requests q).method = "POST".toList ∧
      requestId (requests q) = some id ∧
      (S.phase q = .done → ∃ t, .publish q id t true ∈ callsOf tr) := by
  rw [h.rep.storage.hasEntry_iff] at hentry
  obtain ⟨q, hq, hauthor⟩ := h.traced.maker id _ hentry
  refine ⟨q, hq, ?_⟩
  have hreq := h.rep.request q
  rcases hauthor with ⟨u, hu, rfl⟩ | ⟨u, hu, rfl⟩
  · cases hc : S.ctx q with
    | none =>
      rw [(hreq.dead hc).1] at hu
      cases hu
    | some c =>
      obtain ⟨_, _, _, _, _, _, hup⟩ := (hreq.live c hc).post u hu
      refine ⟨hup.post, hup.id, fun hdone => ?_⟩
      rw [hreq.done hdone] at hc
      cases hc
  · obtain ⟨_, _, hup, _⟩ := hreq.committed u hu
    exact ⟨hup.post, hup.id, fun _ => h.commits q u hu⟩

theorem step_reqDone_calls (hstep : step requests S (.reqDone r) = some (S', calls)) {c : ReqCtx}
    (hc : S.ctx r = some c) : calls = (if c.postBody.size ≠ 0 then [.abort r c.id] else []) ++
      if c.blobSend.size ≠ 0 then [.free r c.blobSend] else [] := by
  cases hp : S.conCls r with
  | none =>
    rw [Server.ctx, hp] at hc
    cases hc
  | some p =>
    have hread : ctxaRead S.reqCtxalloc p = c := by
      rw [Server.ctx, hp] at hc
      exact Option.some_inj.mp hc
    rw [step, reqDone, hp, Option.map_eq_some_iff] at hstep
    obtain ⟨⟨S₁, calls₁⟩, hdone, heq⟩ := hstep
    rw [Option.map_eq_some_iff] at hdone
    obtain ⟨⟨s, calls₂⟩, habort, hfreed⟩ := hdone
    rw [hread] at habort hfreed
    cases heq
    cases hfreed
    congr 1
    · split_ifs at habort ⊢ with h0
      · rw [Option.map_eq_some_iff] at habort
        obtain ⟨_, _, heq⟩ := habort
        cases heq
        rfl
      · cases habort
        rfl
    · split_ifs <;> rfl

/-- **After `req_done`** the context is gone, and of an upload that was running neither its entry
nor its block is left. -/
theorem reqDone_leaves_nothing (hA : Arena (serverArena mallocated))
    (h : Reached requests mallocated tr S w) (hen : Enabled S (.reqDone r))
    (hstep : step requests S (.reqDone r) = some (S', calls)) :
    S'.ctx r = none ∧ ∀ c, S.ctx r = some c → c.postBody.size ≠ 0 →
      (∀ blk t, ¬ S'.storage.HasEntry c.id blk t) ∧
        S'.Keeps (bindex c.postBody.size) .freeList c.postBody.data := by
  obtain ⟨w', hm, _, h'⟩ := h.step hA hen hstep
  have hphase : S'.phase r = .done := by
    rw [step, Option.map_eq_some_iff] at hstep
    obtain ⟨⟨S₁, calls₁⟩, _, heq⟩ := hstep
    cases heq
    exact Function.update_self _ _ _
  refine ⟨(h'.rep.request r).done hphase, fun c hc hsize => ?_⟩
  obtain ⟨u, hu, hpost, hid, _⟩ := h.postBody hc hsize
  have hentry := h.inv.upload r u hu
  have hok := (h.inv.owned.entry_ok _ _ hentry).1
  rw [step_reqDone_calls hstep hc, if_pos hsize] at hm
  obtain ⟨w₁, habort, hfree⟩ := hm
  obtain ⟨u', hu', -, hv⟩ := habort.abort_inv
  obtain rfl : u = u' := Option.some_inj.mp (hu.symm.trans hu')
  rw [hid, hpost]
  have hgone : w₁.vault.entries.lookup u.id = none := by rw [hv, Vault.lookup_abort, if_pos rfl]
  have hheld : w₁.vault.Holds .free u.blk.data := by
    rw [hv, Vault.abort, hentry]
    exact (push_lands hok.bindex_lt _ _).mpr (Or.inr ⟨rfl, rfl⟩)
  obtain ⟨hgone', hheld'⟩ : w'.vault.entries.lookup u.id = none ∧
      w'.vault.Holds .free u.blk.data := by
    split_ifs at hfree
    · obtain ⟨w₂, hmove, rfl⟩ := hfree
      obtain ⟨hout, hv'⟩ := hmove.free_inv
      rw [hv', Vault.release_entries, Vault.release, hout]
      refine ⟨hgone, (push_lands ?_ _ _).mpr (Or.inl hheld)⟩
      exact ((habort.owned h.inv.owned).out_ok r _ hout).bindex_lt
    · obtain rfl := hfree
      exact ⟨hgone, hheld⟩
  refine ⟨fun blk t hentry' => ?_, ?_⟩
  · rw [h'.rep.storage.hasEntry_iff, hgone'] at hentry'
    cases hentry'
  · rw [h'.keeps_freeList hok.bindex_lt]
    exact (h'.inv.owned.mem_free_iff hok.bindex_lt hok.item).mp hheld'

end Steps

/-- **Uploads do not interfere.** In every reachable state, whatever happens next:

* an event of another request or of the reaper spares a running upload, its entry and its bytes;
* `storage_blob_publish` succeeds whenever it is called, it is called when a complete upload ends,
  and the reply that it failed is never sent;
* an event of a `POST` keeps every entry but its own running upload;
* every entry was made by a `POST` to its id, and when that request is done it was committed;
* `req_done` leaves neither the entry nor the block of an upload that was not committed. -/
theorem uploads_isolated {requests : ℕ → Request} {mallocated : ℕ} {tr : Trace} {S : Server}
    (hA : Arena (serverArena mallocated)) (hrun : Run requests (serverInit mallocated) tr S) :
    (∀ ev calls S', Enabled S ev → step requests S ev = some (S', calls) →
      (∀ r c, S.ctx r = some c → c.postBody.size ≠ 0 → ev.actor ≠ some r →
        S'.ctx r = some c ∧ S'.storage.HasEntry c.id c.postBody validUntilNotPublished ∧
          S'.storage.mem.load c.postBody.data c.postBody.size =
            S.storage.mem.load c.postBody.data c.postBody.size ∧
          ∀ call ∈ calls, call.Spares c.id) ∧
      (∀ r id t ret, .publish r id t ret ∈ calls → ret = true) ∧
      (∀ r env c, ev = .ahc r [] env → S.phase r = .receiving → S.ctx r = some c →
        c.postBody.size ≠ 0 → contentLength (requests r) = some (received r tr).length →
        ∃ t, .publish r c.id t true ∈ calls) ∧
      (∀ r pending resp ret, .queue r pending resp ret ∈ calls →
        resp.body ≠ .text "Internal error, cannot publish the blob") ∧
      (∀ r, ev.actor = some r → (requests r).method = "POST".toList →
        ∀ id blk t, S.storage.HasEntry id blk t →
          (∀ c, S.ctx r = some c → c.postBody.size ≠ 0 → c.id ≠ id) →
          S'.storage.HasEntry id blk t ∧
            S'.storage.mem.load blk.data blk.size = S.storage.mem.load blk.data blk.size) ∧
      ∀ r, ev = .reqDone r → S'.ctx r = none ∧ ∀ c, S.ctx r = some c → c.postBody.size ≠ 0 →
        (∀ blk t, ¬ S'.storage.HasEntry c.id blk t) ∧
          S'.Keeps (bindex c.postBody.size) .freeList c.postBody.data) ∧
    ∀ id blk t, S.storage.HasEntry id blk t →
      ∃ q, (Ledger.of (callsOf tr)).maker id = some q ∧ (requests q).method = "POST".toList ∧
        requestId (requests q) = some id ∧
        (S.phase q = .done → ∃ t', .publish q id t' true ∈ callsOf tr) := by
  obtain ⟨w, h⟩ := hrun.reached hA
  refine ⟨fun ev calls S' hen hstep => ⟨fun r c hc hsize hr => upload_spared hA h hen hstep hr hc hsize,
    fun r id t ret => publish_succeeds hA h hen hstep, ?_, ?_,
    fun r hr hmethod id blk t => post_spares hA h hen hstep hr hmethod, ?_⟩,
    fun id blk t => h.entry_maker⟩
  · rintro r env c rfl hr hc hsize hlen
    obtain ⟨ret, hcalls⟩ := commit_of_complete h hr hstep hc hsize hlen
    have hpub := hcalls ▸ List.mem_cons_self
    obtain rfl := publish_succeeds hA h hen hstep hpub
    exact ⟨_, hpub⟩
  · intro r pending resp ret hq
    exact publish_reply hA h hen hstep hq
  · rintro r rfl
    exact reqDone_leaves_nothing hA h hen hstep

/-- In the middle of an upload a `GET` of its id comes in between: it gets nothing, and the upload, its
entry and its bytes stay. -/
theorem uploads_isolated_postAndGet : ∃ (tr : Trace) (S S' : Server) (c : ReqCtx) (blob : Blk)
    (reply : List Call),
    Run postAndGet (serverInit 4096) tr S ∧ S.ctx 0 = some c ∧ c.postBody.size = 46 ∧
      step postAndGet S (.ahc 1 [] goodEnv) = some (S', .get 1 blobKey blob :: reply) ∧
      blob.size = 0 ∧ S'.ctx 0 = some c ∧
      S'.storage.HasEntry blobKey c.postBody validUntilNotPublished ∧
      S'.storage.mem.load c.postBody.data c.postBody.size =
        S.storage.mem.load c.postBody.data c.postBody.size := by
  obtain ⟨_, blk, hblk, _, hrun⟩ := postAndGet_run [] goodEnv
  obtain ⟨S, hup, hrest⟩ := @Run.split _ _ _ ((postAndGetTrace blk [] goodEnv).drop 3)
    ((postAndGetTrace blk [] goodEnv).take 3) hrun
  obtain ⟨w, h⟩ := hup.reached arena_4096
  -- the upload is running
  obtain ⟨S₁, hen, hstep, hlast⟩ := hrest.head
  obtain ⟨_, ⟨_, hpublish, _⟩, _, h₁⟩ := h.step arena_4096 hen hstep
  obtain ⟨-, u, hu, hid, -⟩ := hpublish.publish_inv
  have hr : S.phase 0 = .receiving := hen.resolve_left fun hfresh => by
    have hctx := ((h.rep.request 0).fresh hfresh.1).1
    rw [((h.rep.request 0).dead hctx).1] at hu
    cases hu
  obtain ⟨c, _, hc, _, _, hphase⟩ := step_ahc h.rep hr hstep
  obtain ⟨hpost, hcid, -, -, -, -, hupload⟩ := ((h.rep.request 0).live c hc).post u hu
  have hsize : c.postBody.size = 46 := by
    rw [hpost]
    exact Option.some_inj.mp (hupload.size.symm.trans (by decide))
  -- the other request is under way
  have hr' : S.phase 1 = .receiving := by
    obtain ⟨_, hen', hget, -⟩ := hlast.head
    have hnow := receiving_of_get h₁ hen' hget List.mem_cons_self
    rwa [hphase, Function.update_of_ne one_ne_zero] at hnow
  obtain ⟨S', calls, _, hstep', -⟩ := ahc_rep h.rep h.inv hr' [] goodEnv
  obtain ⟨blob, rfl⟩ := get_calls h hr' hstep' rfl
    (show requestId (postAndGet 1) = some blobKey by decide)
  obtain ⟨hspared, -⟩ := uploads_isolated arena_4096 hup
  obtain ⟨hkept, -⟩ := hspared (.ahc 1 [] goodEnv) _ S' (Or.inr hr') hstep'
  obtain ⟨hctx, hentry, hload, hspares⟩ := hkept 0 c hc (by rw [hsize]; decide) (by simp [Event.actor])
  have hkey : c.id = blobKey := by rw [hcid, hid]
  rw [hkey] at hentry hspares
  refine ⟨_, S, S', c, blob, _, hup, hc, hsize, hstep', ?_, hctx, hentry, hload⟩
  exact not_not.mp fun hne => hspares _ List.mem_cons_self hne rfl

end Adnihilum
