import Adnihilum.Server.Delivery
import Adnihilum.Server.Ownership

/-!
# No residue

What is left in memory and in the tables of the secrets that are gone.

* **`no_residue`**: free items, the ends of live items, ids, and the bytes of a reply.
-/

namespace Adnihilum

open FlatMemory

section Reached

variable {requests : ℕ → Request} {mallocated : ℕ} {tr : Trace} {S : Server}

/-- **No residue.** In every reachable state a free item is zero behind its link, a live item is
zero behind its block, no slot holds the id of an entry that is gone, and no id is left from the
reaper. So the block of a reply holds, until `req_done`, what was received from the last request
that committed an upload to the id asked for, from the first byte of the block to its last. -/
theorem no_residue (hA : Arena (serverArena mallocated))
    (hrun : Run requests (serverInit mallocated) tr S) :
    (∀ i < bucketsCount, ∀ a, S.Keeps i .freeList a → ∀ d, 8 ≤ d → d < bbucketItemSizeMax i →
      S.storage.mem (a + d) = 0) ∧
    (∀ j < S.storage.htableSize, S.storage.table.blobIds j ≠ HtableKey.null →
      Blank S.storage.mem (S.storage.table.blobData j)) ∧
    (∀ r c, S.ctx r = some c → c.blobSend.size ≠ 0 → Blank S.storage.mem c.blobSend) ∧
    (∀ r c, S.ctx r = some c → c.postBody.size ≠ 0 → Blank S.storage.mem c.postBody) ∧
    (∀ id, id ≠ HtableKey.null → (Ledger.of (callsOf tr)).gone id = true →
      ∀ j < S.storage.htableSize, S.storage.table.blobIds j ≠ id) ∧
    (∀ j, S.storage.blobIdsInvalid j = HtableKey.null) ∧
    ∀ (pre mid : Trace) (ev : Event) (calls : List Call) (r pending : ℕ) (resp : Response)
      (blk : Blk) (ret : Bool), tr = pre ++ (ev, calls) :: mid →
      .queue r pending resp ret ∈ calls → resp.body = .blob blk →
      (∀ p ∈ mid, p.1 ≠ .reqDone r) →
      ∃ id q, requestId (requests r) = some id ∧
        (Ledger.of (callsOf pre)).lastCommit id = some q ∧
        (requests q).method = "POST".toList ∧ requestId (requests q) = some id ∧
        S.storage.mem.load blk.data blk.size = received q tr := by
  obtain ⟨w, h⟩ := hrun.reached hA
  have hsize := h.htableSize
  have hmem := h.rep.storage.mem
  refine ⟨fun i hi a ha => ?_, fun j hj hid => ?_, fun r c hc hc0 => ?_, fun r c hc hc0 => ?_,
    fun id hid hgone j hj hj' => ?_, fun j => ?_, ?_⟩
  · rw [hmem]
    exact h.inv.clean.free i hi a ((h.keeps_freeList hi).mp ha)
  · rw [hmem]
    exact h.inv.clean.entry _ _ (h.rep.storage.slot j (hsize ▸ hj) hid)
  · rw [hmem]
    exact h.inv.clean.out r _ ((h.rep.blobSend_iff h.inv.owned).mp ⟨c, hc, hc0, rfl⟩)
  · rw [hmem]
    obtain ⟨u, hu, hpost, _⟩ := h.postBody hc hc0
    rw [hpost]
    exact h.inv.clean.entry _ _ (h.inv.upload r u hu)
  · have hslot := h.rep.storage.slot j (hsize ▸ hj) (hj' ▸ hid)
    rw [hj', h.traced.gone id hgone] at hslot
    cases hslot
  · have hinv := congrArg Prod.fst h.rep.storage.invalid
    exact congrFun hinv j
  · rintro pre mid ev calls r pending resp blk ret rfl hq hbody hmid
    obtain ⟨S₁, hpre, hrest⟩ := hrun.split
    obtain ⟨w₁, h₁⟩ := hpre.reached hA
    obtain ⟨S₂, hen, hstep, _⟩ := hrest.head
    obtain ⟨w₂, _, hd, _⟩ := h₁.step hA hen hstep
    obtain ⟨upload, env, rfl⟩ := (hd _ hq).of_queue
    have hcalls := step_ahc_calls h₁.rep hen hstep
    obtain ⟨_, _, _, hplain | ⟨id, blob, rfl, hid, _, rfl⟩ | ⟨id, t, ret', _, _, rfl⟩⟩ :=
      hcalls.queue hq
    · exact absurd hbody (hplain.1.1 blk)
    · have hblob : blob.size ≠ 0 ∧ blob = blk := by
        unfold blobResponse at hbody
        split_ifs at hbody with h0
        · cases hbody
        · exact ⟨h0, Body.blob.inj hbody⟩
      obtain ⟨hne, rfl⟩ := hblob
      have hget : Run requests (serverInit mallocated) (pre ++ (.ahc r upload env,
          [] ++ .get r id blob :: sendCalls env r upload.length (blobResponse blob)) :: mid) S := hrun
      obtain ⟨-, q, hlast, _, _, hmethod, hqid, _, hload⟩ := hget.delivered hA hne hmid
      rw [List.append_nil] at hlast
      exact ⟨id, q, hid, hlast, hmethod, hqid, hload⟩
    · cases ret' with
      | true | false => cases hbody

end Reached

/-- After an upload and its delivery the id is gone from the table. -/
theorem no_residue_postAndGet : ∃ (tr : Trace) (S : Server),
    Run postAndGet (serverInit 4096) tr S ∧ tr.length = 5 ∧
    ∀ j < S.storage.htableSize, S.storage.table.blobIds j ≠ blobKey := by
  obtain ⟨S, blk, hblk, _, hrun⟩ := postAndGet_run [] goodEnv
  have hgone : (Ledger.of (callsOf (postAndGetTrace blk [] goodEnv))).gone blobKey = true := by
    simp [postAndGetTrace, callsOf, Ledger.of, Ledger.next, sendCalls, goodEnv, hblk]
  exact ⟨_, S, hrun, rfl, (no_residue arena_4096 hrun).2.2.2.2.1 blobKey (by decide) hgone⟩

end Adnihilum
