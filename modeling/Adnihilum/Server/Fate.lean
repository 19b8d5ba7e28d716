import Adnihilum.Server.Lifetime
import Adnihilum.Server.Replies

/-!
# What becomes of an acknowledged upload

`one_time_delivery` says that no upload is handed out twice. None is lost either.

* `Settled`: an upload that was committed and neither handed out nor reaped is in its entry, with its
  bytes, and no other upload runs on its id; `Settled.move`.
* **`acknowledged_fate`**: in every run an upload that was acknowledged is still stored, or was handed
  out once, or was reaped once, and only one of these.
-/

namespace Adnihilum

open FlatMemory Custody

section Moves

variable {memory : ℕ} {w w' : World} {c : Call} {l : Ledger} {stamp : HtableKey → Option ℕ}

/-- **Committed uploads that did not leave are in the store**, under the time they were committed
with, and nothing is uploaded to their id. -/
def Settled (w : World) (l : Ledger) (stamp : HtableKey → Option ℕ) : Prop :=
  ∀ q u, w.committed q = some u → l.handedOut q = 0 → l.reaped q = 0 →
    l.lastCommit u.id = some q ∧
    (∃ t, w.vault.entries.lookup u.id = some ⟨u.blk, t⟩ ∧ stamp u.id = some t) ∧
    u.body.length = u.blk.size ∧ w.vault.mem.load u.blk.data u.blk.size = u.body ∧
    ∀ r u', w.uploads r = some u' → u'.id ≠ u.id

namespace Settled

theorem still (hs : Settled w l stamp) (h : Move w c w') (hi : w.Inv memory) {l' : Ledger}
    (hentry : ∀ id e, (∀ r u', w.uploads r = some u' → u'.id ≠ id) →
      w.vault.entries.lookup id = some e → w'.vault.entries.lookup id = some e)
    (hcom : w'.committed = w.committed) (hlast : l'.lastCommit = l.lastCommit)
    (hhanded : l'.handedOut = l.handedOut) (hreaped : l'.reaped = l.reaped)
    (hruns : ∀ id e, (∀ r u', w.uploads r = some u' → u'.id ≠ id) →
      w.vault.entries.lookup id = some e → ∀ r u', w'.uploads r = some u' → u'.id ≠ id) :
    Settled w' l' stamp := by
  intro q u hq h1 h2
  rw [hcom] at hq
  rw [hhanded] at h1
  rw [hreaped] at h2
  obtain ⟨hl, ⟨t, ht, hst⟩, hlen, hload, hrun⟩ := hs q u hq h1 h2
  have ht' := hentry u.id _ hrun ht
  refine ⟨by rw [hlast, hl], ⟨t, ht', hst⟩, hlen, ?_, hruns u.id _ hrun ht⟩
  rw [h.load hi (Or.inl ⟨_, _, ht, rfl⟩) (Or.inl ⟨_, _, ht', rfl⟩) (fun r dst bytes u' _ hu hblk => ?_)
    le_rfl, hload]
  exact hrun r u' hu (hi.owned.stored_inj (hi.upload r u' hu) ht (congrArg Blk.data hblk))

theorem leave (hs : Settled w l stamp) (h : Move w c w') (hi : w.Inv memory) {l' : Ledger}
    {id : HtableKey} (hlookup : ∀ id', w'.vault.entries.lookup id' =
      if id' = id then none else w.vault.entries.lookup id')
    (hcom : w'.committed = w.committed) (hups : w'.uploads = w.uploads)
    (hlast : l'.lastCommit = l.lastCommit)
    (hother : ∀ q, l.lastCommit id ≠ some q →
      l'.handedOut q = l.handedOut q ∧ l'.reaped q = l.reaped q)
    (hmono : ∀ q, l.handedOut q ≤ l'.handedOut q ∧ l.reaped q ≤ l'.reaped q)
    (hcount : ∀ q, l.lastCommit id = some q → l'.handedOut q ≠ 0 ∨ l'.reaped q ≠ 0) :
    Settled w' l' stamp := by
  intro q u hq h1 h2
  rw [hcom] at hq
  have h3 : l.handedOut q = 0 := by have := (hmono q).1; omega
  have h4 : l.reaped q = 0 := by have := (hmono q).2; omega
  obtain ⟨hl, ⟨t, ht, hst⟩, hlen, hload, hrun⟩ := hs q u hq h3 h4
  have hid : u.id ≠ id := by
    rintro rfl
    exact (hcount q hl).elim (fun h => h h1) fun h => h h2
  have ht' : w'.vault.entries.lookup u.id = some ⟨u.blk, t⟩ := by rw [hlookup, if_neg hid, ht]
  refine ⟨by rw [hlast, hl], ⟨t, ht', hst⟩, hlen, ?_, by rwa [hups]⟩
  rw [h.load hi (Or.inl ⟨_, _, ht, rfl⟩) (Or.inl ⟨_, _, ht', rfl⟩) (fun r dst bytes u' _ hu hblk => ?_)
    le_rfl, hload]
  exact hrun r u' hu (hi.owned.stored_inj (hi.upload r u' hu) ht (congrArg Blk.data hblk))

theorem publish (hs : Settled w l stamp) (hi : w.Inv memory) {r t : ℕ} {u₀ : Upload}
    (hup : w.uploads r = some u₀) (hfull : u₀.body.length = u₀.blk.size) :
    Settled
      { vault := (w.vault.publish u₀.id t).1
        uploads := Function.update w.uploads r none
        committed := Function.update w.committed r (some u₀) }
      { l with lastCommit := Function.update l.lastCommit u₀.id (some r) }
      (Function.update stamp u₀.id (some t)) := by
  intro q u hq h1 h2
  rcases of_update_eq_some hq with ⟨rfl, hnew⟩ | ⟨-, hold⟩
  · obtain rfl := Option.some_inj.mp hnew
    refine ⟨Function.update_self _ _ _, ⟨t, ?_, Function.update_self _ _ _⟩, hfull, ?_, fun r' u' hu' => ?_⟩
    · simp only [Vault.lookup_publish, if_true, hi.upload q u₀ hup, Option.map_some]
    · rw [Vault.publish_mem, ← hfull]
      exact (hi.body q u₀ hup).2
    · obtain ⟨hr, hold⟩ := of_update_none_eq_some hu'
      exact fun hid => hr (hi.distinct r' q u' u₀ hold hup hid)
  · obtain ⟨hl, ⟨t', ht, hst⟩, hlen, hload, hrun⟩ := hs q u hold h1 h2
    have hid : u.id ≠ u₀.id := fun hid => hrun r u₀ hup hid.symm
    refine ⟨(Function.update_of_ne hid _ _).trans hl, ⟨t', ?_, (Function.update_of_ne hid _ _).trans hst⟩,
      hlen, by rw [Vault.publish_mem, hload], fun r' u' hu' => ?_⟩
    · simp only [Vault.lookup_publish, if_neg hid, ht]
    · exact hrun r' u' (of_update_none_eq_some hu').2

/-- **Every move keeps committed uploads.** -/
theorem move (hs : Settled w l stamp) (h : Move w c w') (hi : w.Inv memory) :
    Settled w' (l.next c) (stampNext stamp c) := by
  cases h with
  | createFail | getFail | queue => exact hs
  | @create r size id v blk hup hcom habs hmin hmax hcreate hblk =>
    have hm := Move.create hup hcom habs hmin hmax hcreate hblk
    obtain ⟨_, _, _, _, hlook⟩ := Vault.create_some hcreate hblk
    have hne : ∀ id' e, w.vault.entries.lookup id' = some e → id' ≠ id := by
      rintro _ e he rfl
      rw [habs] at he
      cases he
    rw [Ledger.next, if_neg hblk]
    refine hs.still hm hi (fun id' e _ he => ?_) rfl rfl rfl rfl fun id' e hrun he r' u' hu' => ?_
    · rw [hlook, if_neg (hne id' e he), he]
    · rcases of_update_eq_some hu' with ⟨-, hnew⟩ | ⟨-, hold⟩
      · obtain rfl := Option.some_inj.mp hnew
        exact (hne id' e he).symm
      · exact hrun r' u' hold
  | @write r u bytes hup hfit =>
    refine hs.still (Move.write hup hfit) hi (fun id e _ he => he) rfl rfl rfl rfl
      fun id e hrun he r' u' hu' => ?_
    rcases of_update_eq_some hu' with ⟨-, hnew⟩ | ⟨-, hold⟩
    · obtain rfl := Option.some_inj.mp hnew
      exact hrun r u hup
    · exact hrun r' u' hold
  | publish hup hfull => exact hs.publish hi hup hfull
  | @get r id e he hpub hout =>
    have hm := Move.get he hpub hout
    rw [Ledger.next, if_neg (hi.owned.entry_ok id e he).1.size_ne_zero]
    refine hs.leave hm hi (fun id' => ?_) rfl rfl rfl (fun q hq => ⟨Ledger.count_of_ne hq, rfl⟩)
      (fun q => ⟨Ledger.le_count, le_rfl⟩) fun q hq => Or.inl ?_
    · rw [Vault.get_some _ he hpub]
      change (w.vault.entries.erase id).lookup id' = _
      split_ifs with hid
      · rw [hid, Finmap.lookup_erase]
      · rw [Finmap.lookup_erase_ne hid]
    · simp only [hq, Ledger.count_self, ne_eq, Nat.add_one_ne_zero, not_false_eq_true]
  | @abort r u₀ hup =>
    refine hs.still (Move.abort hup) hi (fun id e hrun he => ?_) rfl rfl rfl rfl
      fun id e hrun he r' u' hu' => hrun r' u' (of_update_none_eq_some hu').2
    simp only [Vault.lookup_abort, if_neg (hrun r u₀ hup).symm, he]
  | free hout =>
    exact hs.still (Move.free hout) hi (fun id e _ he => by simpa using he) rfl rfl rfl rfl
      fun id e hrun _ => hrun
  | @reap id e he hpub =>
    refine hs.leave (Move.reap he hpub) hi (fun id' => by rw [← Vault.lookup_abort]) rfl rfl rfl
      (fun q hq => ⟨rfl, Ledger.count_of_ne hq⟩) (fun q => ⟨le_rfl, Ledger.le_count⟩)
      fun q hq => Or.inr ?_
    simp only [Ledger.next, hq, Ledger.count_self, ne_eq, Nat.add_one_ne_zero, not_false_eq_true]

theorem moves {calls : List Call} : ∀ {w w' : World} {l : Ledger} {stamp : HtableKey → Option ℕ},
    Settled w l stamp → w.Inv memory → Moves w calls w' →
      Settled w' (calls.foldl Ledger.next l) (calls.foldl stampNext stamp) := by
  induction calls with
  | nil =>
    rintro w w' l stamp hs _ rfl
    exact hs
  | cons c calls ih =>
    rintro w w' l stamp hs hi ⟨w₁, hm, hrest⟩
    exact ih (hs.move hm hi) (hi.move hm) hrest

end Settled

end Moves

section Runs

variable {requests : ℕ → Request} {mallocated : ℕ} {tr : Trace} {S : Server} {memory : ℕ}
  {w w' : World} {calls : List Call}

theorem Moves.committed_of_publish (h : Moves w calls w') (hi : w.Inv memory) {r t : ℕ}
    {id : HtableKey} {ret : Bool} (hpub : .publish r id t ret ∈ calls) :
    ∃ u, w'.committed r = some u ∧ u.id = id := by
  obtain ⟨before, after, rfl⟩ := List.append_of_mem hpub
  obtain ⟨w₁, h₁, w₂, hm, h₂⟩ := h.split
  have hi₁ := World.Inv.moves h₁ hi
  have hi₂ := hi₁.move hm
  cases hm with
  | @publish _ _ u hup =>
    exact ⟨u, h₂.committed_mono hi₂ (Function.update_self _ _ _), rfl⟩

/-- The last commit to an id and the time of the last commit are one call's. -/
theorem publish_mem_of_lastCommit {id : HtableKey} {q t : ℕ} {calls : List Call}
    (hq : (Ledger.of calls).lastCommit id = some q) (ht : stampOf calls id = some t) :
    .publish q id t true ∈ calls := by
  induction calls using List.reverseRecOn with
  | nil => cases hq
  | append_singleton calls c ih =>
    rw [Ledger.of_append] at hq
    rw [stampOf_append] at ht
    by_cases hc : c.commits id = true
    · cases c with
      | publish r id' t' ret =>
        simp only [Call.commits, Bool.and_eq_true, beq_iff_eq] at hc
        obtain ⟨rfl, rfl⟩ := hc
        simp only [List.foldl_cons, List.foldl_nil, Ledger.next, stampNext, if_true,
          Function.update_self, Option.some_inj] at hq ht
        rw [hq, ht]
        exact List.mem_append_right _ (List.mem_singleton_self _)
      | create | write | get | abort | free | reap | queue => cases hc
    · have hnone : [c].any (Call.commits id) = false := by simpa using hc
      rw [Ledger.lastCommit_of_no_commit hnone] at hq
      have hstamp : [c].foldl stampNext (stampOf calls) id = stampOf calls id := by
        rw [foldl_stampNext (t := 0) fun r t' hmem => ?_, hnone, if_neg Bool.false_ne_true]
        rw [← List.mem_singleton.mp hmem] at hc
        simp [Call.commits] at hc
      rw [hstamp] at ht
      exact List.mem_append_left _ (ih hq ht)

/-- **Every run keeps committed uploads**, and what was published is committed. -/
theorem Run.settled (hA : Arena (serverArena mallocated))
    (hrun : Run requests (serverInit mallocated) tr S) : ∃ w, Reached requests mallocated tr S w ∧
      Settled w (Ledger.of (callsOf tr)) (stampOf (callsOf tr)) ∧
      ∀ r id t, .publish r id t true ∈ callsOf tr → ∃ u, w.committed r = some u ∧ u.id = id := by
  induction hrun with
  | init =>
    refine ⟨_, Reached.init hA, ?_, fun r id t h => (by cases h)⟩
    exact fun q u hq => (by cases hq)
  | step _ hen hstep ih =>
    obtain ⟨w, hw, hs, hcom⟩ := ih
    obtain ⟨w', hm, _, hw'⟩ := hw.step hA hen hstep
    refine ⟨w', hw', ?_, fun r id t hpub => ?_⟩
    · rw [callsOf_append, Ledger.of_append, stampOf_append]
      exact hs.moves hw.inv hm
    · rw [callsOf_append] at hpub
      rcases List.mem_append.mp hpub with hpub | hpub
      · obtain ⟨u, hu, hid⟩ := hcom r id t hpub
        exact ⟨u, hm.committed_mono hw.inv hu, hid⟩
      · exact hm.committed_of_publish hw.inv hpub

/-- **The fate of an acknowledged upload.** When the reply to a `POST` was queued, the `POST` named an
id and brought as many bytes as its `Content-Length` said; and from then on, after every run, either
its upload was handed out once, or it was reaped once, or it is still in the store under the time it
was published with, its block holding what was received, and only one of these. -/
theorem acknowledged_fate (hA : Arena (serverArena mallocated))
    (hrun : Run requests (serverInit mallocated) tr S) {r pending : ℕ} {ret : Bool}
    (hack : .queue r pending ⟨200, .empty, none, .apiBlob⟩ ret ∈ callsOf tr) :
    ∃ id, requestId (requests r) = some id ∧ (requests r).method = "POST".toList ∧
      contentLength (requests r) = some (received r tr).length ∧
      let l := Ledger.of (callsOf tr)
      (l.handedOut r = 1 ∧ l.reaped r = 0) ∨ (l.handedOut r = 0 ∧ l.reaped r = 1) ∨
        (l.handedOut r = 0 ∧ l.reaped r = 0 ∧ l.lastCommit id = some r ∧
          ∃ blk t, .publish r id t true ∈ callsOf tr ∧ S.storage.HasEntry id blk t ∧
            blk.size = (received r tr).length ∧
            S.storage.mem.load blk.data blk.size = received r tr) := by
  obtain ⟨w, hw, hs, hcom⟩ := hrun.settled hA
  obtain ⟨p, hp, hq⟩ := List.mem_flatMap.mp hack
  obtain ⟨S₁, S₂, hstep⟩ := hrun.step_of_mem hp
  obtain ⟨id, t, hid, hpub⟩ := (step_replies hstep hq).2 rfl
  obtain ⟨u, hu, rfl⟩ := hcom r id t (List.mem_flatMap.mpr ⟨p, hp, hpub⟩)
  obtain ⟨hbody, hsize, hup, _⟩ := (hw.rep.request r).committed u hu
  refine ⟨u.id, hid, hup.post, by rw [hup.size, ← hsize, hbody], ?_⟩
  have honce := hw.traced.atMostOnce r
  intro l
  change l.handedOut r + l.reaped r ≤ 1 at honce
  by_cases h1 : l.handedOut r = 0
  · by_cases h2 : l.reaped r = 0
    · obtain ⟨hl, ⟨t', ht', hst⟩, _, hload, _⟩ := hs r u hu h1 h2
      refine Or.inr (Or.inr ⟨h1, h2, hl, u.blk, t', publish_mem_of_lastCommit hl hst, ?_, ?_, ?_⟩)
      · rw [hw.rep.storage.hasEntry_iff, ht']
      · rw [← hsize, hbody]
      · rw [hw.rep.storage.mem, hload, hbody]
    · exact Or.inr (Or.inl ⟨h1, by omega⟩)
  · exact Or.inl ⟨by omega, by omega⟩

end Runs

/-- A secret that was uploaded and fetched was handed out. -/
theorem acknowledged_fate_postAndGet : ∃ (tr : Trace) (S : Server),
    Run postAndGet (serverInit 4096) tr S ∧ (Ledger.of (callsOf tr)).handedOut 0 = 1 := by
  obtain ⟨S, blk, hblk, _, hrun⟩ := postAndGet_run [] goodEnv
  have hack : .queue 0 0 ⟨200, .empty, none, .apiBlob⟩ true ∈
      callsOf (postAndGetTrace blk [] goodEnv) := by
    simp [postAndGetTrace, callsOf, sendCalls, goodEnv, publishResponse]
  obtain ⟨id, _, _, _, hfate⟩ := acknowledged_fate arena_4096 hrun hack
  have hhanded : (Ledger.of (callsOf (postAndGetTrace blk [] goodEnv))).handedOut 0 = 1 := by
    simp [postAndGetTrace, callsOf, Ledger.of, Ledger.next, Ledger.start, Ledger.count, sendCalls,
      goodEnv, hblk]
  rcases hfate with ⟨h, _⟩ | ⟨h, _⟩ | ⟨h, _⟩
  · exact ⟨_, S, hrun, h⟩
  · rw [hhanded] at h
    cases h
  · rw [hhanded] at h
    cases h

end Adnihilum
