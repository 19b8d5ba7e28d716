import Adnihilum.Server.Progress

/-!
# One-time delivery

* `Move.keep_out`, `Run.keep_out`: a block that was handed out keeps its bytes until `req_done`.
* **`one_time_delivery`**: what a `GET` hands out are the bytes of the last upload committed to its
  id, and no upload is handed out twice.
-/

namespace Adnihilum

open FlatMemory Custody

section Moves

variable {memory r : ℕ} {b : Blk}

theorem Move.keep_out {w w' : World} {c : Call} (h : Move w c w') (hi : w.Inv memory)
    (hout : w.vault.out r = some b) (hc : c.actor ≠ some r ∨ c.byHandler = true) :
    w'.vault.out r = some b ∧
      w'.vault.mem.load b.data b.size = w.vault.mem.load b.data b.size := by
  have hout' : w'.vault.out r = some b := by
    by_cases ha : c.actor = some r
    · have hb := hc.resolve_left (not_not.mpr ha)
      cases h with
      | createFail | write | getFail | queue => exact hout
      | create hup hcom habs hmin hmax hcreate hblk =>
        obtain ⟨_, _, _, hv, _⟩ := Vault.create_some hcreate hblk
        exact (congrFun hv r).trans hout
      | publish => exact (congrFun (Vault.publish_out _ _ _) r).trans hout
      | get he hpub hnone =>
        obtain rfl : _ = r := Option.some_inj.mp ha
        rw [hnone] at hout
        cases hout
      | abort | free | reap => cases hb
    · exact (h.frame ha).2.2.trans hout
  refine ⟨hout', h.load hi (Or.inr ⟨r, hout⟩) (Or.inr ⟨r, hout'⟩) (fun r' dst bytes u _ hu hb => ?_)
    le_rfl⟩
  exact hi.owned.stored_ne_out (hi.upload r' u hu) hout (congrArg Blk.data hb)

theorem Moves.keep_out {calls : List Call} : ∀ {w w' : World}, Moves w calls w' → w.Inv memory →
    w.vault.out r = some b → (∀ c ∈ calls, c.actor ≠ some r ∨ c.byHandler = true) →
      w'.vault.out r = some b ∧
        w'.vault.mem.load b.data b.size = w.vault.mem.load b.data b.size := by
  induction calls with
  | nil =>
    rintro w w' rfl _ hout _
    exact ⟨hout, rfl⟩
  | cons c calls ih =>
    rintro w w' ⟨w₁, hm, hrest⟩ hi hout hc
    obtain ⟨h1, h2⟩ := hm.keep_out hi hout (hc c List.mem_cons_self)
    obtain ⟨h3, h4⟩ := ih hrest (hi.move hm) h1 fun c hc' => hc c (List.mem_cons_of_mem _ hc')
    exact ⟨h3, h4.trans h2⟩

theorem Moves.committed_mono {calls : List Call} {q : ℕ} {u : Upload} : ∀ {w w' : World},
    Moves w calls w' → w.Inv memory → w.committed q = some u → w'.committed q = some u := by
  induction calls with
  | nil =>
    rintro w w' rfl _ hq
    exact hq
  | cons c calls ih =>
    rintro w w' ⟨w₁, hm, hrest⟩ hi hq
    exact ih hrest (hi.move hm) (hm.committed_mono hi hq)

end Moves

section Runs

variable {requests : ℕ → Request} {mallocated : ℕ} {tr tr₂ : Trace} {S S' : Server} {w : World}

/-- **Until `req_done` a block that was handed out keeps its bytes**, whatever the other requests
and the reaper do. -/
theorem Run.keep_out (hA : Arena (serverArena mallocated)) (h : Reached requests mallocated tr S w)
    {r : ℕ} {b : Blk} (hout : w.vault.out r = some b) (hrun : Run requests S tr₂ S')
    (hdone : ∀ p ∈ tr₂, p.1 ≠ .reqDone r) :
    ∃ w', Reached requests mallocated (tr ++ tr₂) S' w' ∧
      w'.vault.mem.load b.data b.size = w.vault.mem.load b.data b.size ∧ w'.vault.out r = some b ∧
      ∀ q u, w.committed q = some u → w'.committed q = some u := by
  induction hrun with
  | init => exact ⟨w, by rwa [List.append_nil], rfl, hout, fun _ _ hq => hq⟩
  | @step tr₂ S₁ S' ev calls _ hen hstep ih =>
    obtain ⟨w₁, h₁, hload₁, hout₁, hcom₁⟩ := ih fun p hp => hdone p (List.mem_append_left _ hp)
    obtain ⟨w', hm, hd, h'⟩ := h₁.step hA hen hstep
    have hev : ev ≠ .reqDone r := hdone (ev, calls) (by simp)
    have hc : ∀ c ∈ calls, c.actor ≠ some r ∨ c.byHandler = true := by
      intro c hc
      have := hd c hc
      cases ev with
      | ahc r' upload env => exact Or.inr this.2
      | reqDone r' =>
        refine Or.inl fun ha => hev ?_
        rw [Option.some_inj.mp (this.1.symm.trans ha)]
      | reaper tvSec =>
        refine Or.inl fun ha => ?_
        cases this.symm.trans ha
    obtain ⟨hout', hload'⟩ := hm.keep_out h₁.inv hout₁ hc
    refine ⟨w', by rwa [← List.append_assoc], hload'.trans hload₁, hout', fun q u hq => ?_⟩
    exact hm.committed_mono h₁.inv (hcom₁ q u hq)

theorem get_asked (hA : Arena (serverArena mallocated)) (h : Reached requests mallocated tr S w)
    {ev : Event} {calls : List Call} (hen : Enabled S ev)
    (hstep : step requests S ev = some (S', calls)) {r : ℕ} {id : HtableKey} {blk : Blk}
    (hget : .get r id blk ∈ calls) :
    (requests r).method = "GET".toList ∧ requestId (requests r) = some id := by
  obtain ⟨_, _, hd, _⟩ := h.step hA hen hstep
  have hdoes := hd _ hget
  cases ev with
  | reqDone => cases hdoes.2
  | reaper => cases hdoes
  | ahc r' upload env =>
    obtain rfl : r = r' := Option.some_inj.mp hdoes.1
    obtain ⟨hmethod, hid, -, -⟩ := (step_ahc_calls h.rep hen hstep).get_mem hget
    exact ⟨hmethod, hid⟩

/-- **What a `GET` got.** From there to `req_done` the block of request `r` holds what was received
from the last request that had committed an upload to the id that `r` asks for. -/
theorem Run.delivered (hA : Arena (serverArena mallocated)) {pre mid : Trace} {ev : Event}
    {before after : List Call} {r : ℕ} {id : HtableKey} {blk : Blk}
    (hrun : Run requests (serverInit mallocated)
      (pre ++ (ev, before ++ .get r id blk :: after) :: mid) S)
    (hblk : blk.size ≠ 0) (hmid : ∀ p ∈ mid, p.1 ≠ .reqDone r) :
    ((requests r).method = "GET".toList ∧ requestId (requests r) = some id) ∧
    ∃ q, (Ledger.of (callsOf pre ++ before)).lastCommit id = some q ∧
      (Ledger.of (callsOf pre ++ before)).handedOut q = 0 ∧
      (Ledger.of (callsOf pre ++ before)).reaped q = 0 ∧
      (requests q).method = "POST".toList ∧ requestId (requests q) = some id ∧
      contentLength (requests q) = some blk.size ∧
      S.storage.mem.load blk.data blk.size =
        received q (pre ++ (ev, before ++ .get r id blk :: after) :: mid) := by
  obtain ⟨S₁, hpre, hrest⟩ := hrun.split
  obtain ⟨w₁, h₁⟩ := hpre.reached hA
  obtain ⟨S₂, hen, hstep, hafter⟩ := hrest.head
  obtain ⟨w₂, hm, hd, h₂⟩ := h₁.step hA hen hstep
  refine ⟨get_asked hA h₁ hen hstep (List.mem_append_right _ List.mem_cons_self), ?_⟩
  -- the world just before and just after the `get`
  obtain ⟨wa, hma, hmb⟩ := hm.split
  obtain ⟨wb, hget, hmc⟩ := hmb
  have hia := World.Inv.moves hma h₁.inv
  have hta : Traced wa (Ledger.of (callsOf pre ++ before)) := by
    rw [Ledger.of_append]
    exact h₁.traced.moves h₁.inv hma
  cases hget with
  | getFail => exact absurd rfl hblk
  | @get _ _ e he hpub hout =>
    obtain ⟨q, u, hlast, hcom, hlen, hload, hhanded, hreaped⟩ := hta.published id e he hpub
    have hgot := Vault.get_some (fun _ => r) he hpub
    have hib := hia.move (.get he hpub hout)
    have hhandler : ∀ c ∈ after, c.actor ≠ some r ∨ c.byHandler = true := by
      intro c hc
      have hget := hd (.get r id e.blk) (by simp)
      have hc' := hd c (by simp [hc])
      cases ev with
      | ahc => exact Or.inr hc'.2
      | reqDone => cases hget.2
      | reaper => cases hget
    obtain ⟨hout₂, hload₂⟩ := hmc.keep_out hib (by rw [hgot]; exact Function.update_self _ _ _)
      hhandler
    obtain ⟨w, hw, hload', _, hcom'⟩ := Run.keep_out hA h₂ hout₂ hafter hmid
    have hq := hcom' q u (hmc.committed_mono hib hcom)
    rw [List.append_assoc, List.singleton_append] at hw
    obtain ⟨hbody, hsize, hup, _⟩ := (hw.rep.request q).committed u hq
    obtain ⟨u', hu', hid⟩ := hta.committed id q hlast
    obtain rfl : u = u' := Option.some_inj.mp (hcom.symm.trans hu')
    refine ⟨q, hlast, hhanded, hreaped, hup.post, by rw [hup.id, hid], ?_, ?_⟩
    · rw [hup.size, ← hsize, hlen]
    · rw [hw.rep.storage.mem, hload', hload₂, Vault.get_mem, hload, hbody]

/-- **One-time delivery.** No committed upload is handed out twice. A request `r` that gets a block is
a `GET` of the id of the block, and from there to its `req_done` the block holds what was received
from the last request that committed an upload to this id, a `POST` to it whose `Content-Length` is
the size of the block, and this upload was neither handed out nor reaped before. -/
theorem one_time_delivery (hA : Arena (serverArena mallocated))
    (hrun : Run requests (serverInit mallocated) tr S) :
    (∀ q, (Ledger.of (callsOf tr)).handedOut q ≤ 1) ∧
    ∀ (pre mid : Trace) (ev : Event) (before after : List Call) (r : ℕ) (id : HtableKey) (blk : Blk),
      tr = pre ++ (ev, before ++ .get r id blk :: after) :: mid → blk.size ≠ 0 →
      (∀ p ∈ mid, p.1 ≠ .reqDone r) →
      ((requests r).method = "GET".toList ∧ requestId (requests r) = some id) ∧
      ∃ q, (Ledger.of (callsOf pre ++ before)).lastCommit id = some q ∧
        (Ledger.of (callsOf pre ++ before)).handedOut q = 0 ∧
        (Ledger.of (callsOf pre ++ before)).reaped q = 0 ∧
        (requests q).method = "POST".toList ∧ requestId (requests q) = some id ∧
        contentLength (requests q) = some blk.size ∧
        S.storage.mem.load blk.data blk.size = received q tr := by
  refine ⟨fun q => ?_, fun pre mid ev before after r id blk htr hblk hmid => ?_⟩
  · obtain ⟨w, hw⟩ := hrun.reached hA
    exact le_trans (Nat.le_add_right _ _) (hw.traced.atMostOnce q)
  · subst htr
    exact hrun.delivered hA hblk hmid

end Runs

/-- A `POST` and the `GET` after it: the `GET` is handed the bytes that the `POST` brought. -/
theorem one_time_delivery_postAndGet : ∃ (pre : Trace) (after : List Call) (S : Server) (blk : Blk),
    Run postAndGet (serverInit 4096) (pre ++ [(.ahc 1 [] goodEnv, .get 1 blobKey blk :: after)]) S ∧
      blk.size = 46 ∧
      (∀ q, (Ledger.of (callsOf (pre ++ [(.ahc 1 [] goodEnv, .get 1 blobKey blk :: after)]))).handedOut q
        ≤ 1) ∧
      (postAndGet 1).method = "GET".toList ∧ requestId (postAndGet 1) = some blobKey ∧
      (Ledger.of (callsOf pre)).lastCommit blobKey = some 0 ∧
      S.storage.mem.load blk.data blk.size = secretBytes := by
  obtain ⟨S, blk, hblk, _, hrun⟩ := postAndGet_run [] goodEnv
  obtain ⟨hone, hget⟩ := one_time_delivery arena_4096 hrun
  obtain ⟨⟨hmethod, hid⟩, q, hlast, _, _, _, _, _, hload⟩ := hget
    ((postAndGetTrace blk [] goodEnv).take 4) [] (.ahc 1 [] goodEnv) [] _ 1 blobKey blk rfl
    (by rw [hblk]; norm_num) (by simp)
  have hq : some 0 = some q := by
    rw [← hlast]
    simp [postAndGetTrace, callsOf, Ledger.of, Ledger.next, sendCalls, goodEnv, hblk]
  obtain rfl : 0 = q := Option.some_inj.mp hq
  have hbody : received 0 (postAndGetTrace blk [] goodEnv) = secretBytes := by
    simp [postAndGetTrace, received]
  refine ⟨(postAndGetTrace blk [] goodEnv).take 4, _, S, blk, hrun, hblk, hone, hmethod, hid, ?_,
    hload.trans hbody⟩
  rwa [List.append_nil] at hlast

end Adnihilum
