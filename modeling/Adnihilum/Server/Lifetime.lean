import Adnihilum.Server.Delivery

/-!
# How long a secret lives

The handler publishes an upload for `BLOB_TTL_S` from the reading of the clock; `storage_blob_get`
does not look at the time, and the reaper comes by now and then.

* `Clocked`: the clock goes forward in the run and is far from its last reading.
* `Stamped`: the time in a published entry is the one its upload was committed with, and an upload
  that was neither handed out nor reaped is still there; `Stamped.move`.
* `Aged`: the same in readings of the clock; `Aged.step`, `Run.aged`.
* **`kept_for_ttl`**: an upload that nobody fetched is there, with its bytes, for the whole hour.
* **`fetched_before_tick`**: what is fetched had time left at every tick of the reaper before.
-/

namespace Adnihilum

open FlatMemory Custody

/-! ## The clock of a run -/

/-- What the clock shows at an event; `req_done` does not look. -/
def Event.now : Event → Option ℕ
  | .ahc _ _ env => some (monotonicNowS env.tvSec)
  | .reqDone _ => none
  | .reaper tvSec => some (monotonicNowS tvSec)

/-- The readings of the clock. -/
def readings (tr : Trace) : List ℕ := tr.filterMap fun p => p.1.now

/-- The clock is monotonic, and no time `BLOB_TTL_S` ahead of it is one of the two marks. -/
structure Clocked (tr : Trace) : Prop where
  mono : (readings tr).Pairwise (· ≤ ·)
  below : ∀ t ∈ readings tr, t + blobTtlS < validUntilNotPublished

/-- The call commits an upload to `id`. -/
def Call.commits (id : HtableKey) : Call → Bool
  | .publish _ id' _ ret => ret && id' == id
  | _ => false

/-- When the last upload to `id` was committed. -/
def committedAt (id : HtableKey) (tr : Trace) : Option ℕ :=
  tr.foldl (fun o p => if p.2.any (Call.commits id) then p.1.now else o) none

/-- The time the last upload to an id was committed with. -/
def stampNext (stamp : HtableKey → Option ℕ) : Call → HtableKey → Option ℕ
  | .publish _ id t ret => if ret then Function.update stamp id (some t) else stamp
  | _ => stamp

/-- The times of a list of calls. -/
def stampOf (calls : List Call) : HtableKey → Option ℕ := calls.foldl stampNext fun _ => none

theorem readings_append (tr : Trace) (ev : Event) (calls : List Call) :
    readings (tr ++ [(ev, calls)]) = readings tr ++ ev.now.toList := by
  unfold readings
  rw [List.filterMap_append]
  cases h : ev.now <;> simp [h]

theorem committedAt_append (id : HtableKey) (tr : Trace) (ev : Event) (calls : List Call) :
    committedAt id (tr ++ [(ev, calls)]) =
      if calls.any (Call.commits id) then ev.now else committedAt id tr := by
  simp [committedAt]

theorem stampOf_append (calls calls' : List Call) :
    stampOf (calls ++ calls') = calls'.foldl stampNext (stampOf calls) := List.foldl_append

theorem Clocked.init {tr : Trace} {ev : Event} {calls : List Call}
    (h : Clocked (tr ++ [(ev, calls)])) : Clocked tr ∧
      ∀ now, ev.now = some now → now + blobTtlS < validUntilNotPublished ∧
        ∀ t ∈ readings tr, t ≤ now := by
  obtain ⟨hmono, hbelow⟩ := h
  rw [readings_append] at hmono hbelow
  rw [List.pairwise_append] at hmono
  refine ⟨⟨hmono.1, fun t ht => hbelow t (List.mem_append_left _ ht)⟩, fun now hnow => ?_⟩
  rw [hnow] at hmono hbelow
  exact ⟨hbelow now (by simp), fun t ht => hmono.2.2 t ht now (by simp)⟩

theorem Clocked.initial {tr₂ : Trace} : ∀ {tr₁ : Trace}, Clocked (tr₁ ++ tr₂) → Clocked tr₁ := by
  induction tr₂ using List.reverseRecOn with
  | nil => exact fun {tr₁} h => by rwa [List.append_nil] at h
  | append_singleton tr₂ p ih =>
    intro tr₁ h
    rw [← List.append_assoc] at h
    exact ih h.init.1

/-! ## Moves -/

section Moves

variable {memory : ℕ} {w w' : World} {c : Call} {l : Ledger} {stamp : HtableKey → Option ℕ}

/-- **The times of the entries.** A published entry carries the time its upload was committed with;
an upload that was neither handed out nor reaped is in its entry, published unless it was committed
with the time that marks running uploads. -/
structure Stamped (w : World) (l : Ledger) (stamp : HtableKey → Option ℕ) : Prop where
  until_ : ∀ id e, w.vault.entries.lookup id = some e → e.Published → stamp id = some e.validUntil
  kept : ∀ id q, l.lastCommit id = some q → l.handedOut q = 0 → l.reaped q = 0 →
    stamp id ≠ some validUntilNotPublished → w.vault.Available id

namespace Stamped

theorem hidden (hs : Stamped w l stamp) {l' : Ledger} {id : HtableKey}
    (hlookup : ∀ id', id' ≠ id → w'.vault.entries.lookup id' = w.vault.entries.lookup id')
    (hbefore : ¬ w.vault.Available id) (hafter : ¬ w'.vault.Available id)
    (hlast : l'.lastCommit = l.lastCommit) (hhanded : l'.handedOut = l.handedOut)
    (hreaped : l'.reaped = l.reaped) : Stamped w' l' stamp where
  until_ id' e he hpub := by
    have hid : id' ≠ id := fun hid => hafter (hid ▸ ⟨e, he, hpub⟩)
    exact hs.until_ id' e (by rw [← hlookup id' hid, he]) hpub
  kept id' q h1 h2 h3 h4 := by
    rw [hlast] at h1
    rw [hhanded] at h2
    rw [hreaped] at h3
    have hav := hs.kept id' q h1 h2 h3 h4
    have hid : id' ≠ id := fun hid => hbefore (hid ▸ hav)
    obtain ⟨e, he, hpub⟩ := hav
    exact ⟨e, by rw [hlookup id' hid, he], hpub⟩

theorem leave (hs : Stamped w l stamp) (ht : Traced w l) {l' : Ledger} {id : HtableKey}
    (hlookup : ∀ id', w'.vault.entries.lookup id' =
      if id' = id then none else w.vault.entries.lookup id')
    (hlast : l'.lastCommit = l.lastCommit)
    (hother : ∀ q, l.lastCommit id ≠ some q →
      l'.handedOut q = l.handedOut q ∧ l'.reaped q = l.reaped q)
    (hcount : ∀ q, l.lastCommit id = some q → l'.handedOut q ≠ 0 ∨ l'.reaped q ≠ 0) :
    Stamped w' l' stamp where
  until_ id' e he hpub := by
    rw [hlookup] at he
    split_ifs at he with hid
    exact hs.until_ id' e he hpub
  kept id' q h1 h2 h3 h4 := by
    rw [hlast] at h1
    have hid : id' ≠ id := by
      rintro rfl
      exact (hcount q h1).elim (fun h => h h2) fun h => h h3
    obtain ⟨hh, hr⟩ := hother q fun hq => hid (ht.lastCommit_inj h1 hq)
    obtain ⟨e, he, hpub⟩ := hs.kept id' q h1 (hh ▸ h2) (hr ▸ h3) h4
    exact ⟨e, by rw [hlookup, if_neg hid, he], hpub⟩

theorem commit (hs : Stamped w l stamp) {r t : ℕ} {u : Upload}
    (hlookup : ∀ id, w'.vault.entries.lookup id =
      if id = u.id then some ⟨u.blk, t⟩ else w.vault.entries.lookup id) :
    Stamped w' { l with lastCommit := Function.update l.lastCommit u.id (some r) }
      (Function.update stamp u.id (some t)) where
  until_ id e he hpub := by
    rw [hlookup] at he
    split_ifs at he with hid
    · subst hid
      cases he
      exact Function.update_self _ _ _
    · rw [Function.update_of_ne hid]
      exact hs.until_ id e he hpub
  kept id q h1 h2 h3 h4 := by
    by_cases hid : id = u.id
    · subst hid
      rw [Function.update_self] at h4
      exact ⟨⟨u.blk, t⟩, by rw [hlookup, if_pos rfl], fun e => h4 (by rw [← e])⟩
    · simp only [Function.update_of_ne hid] at h1 h4
      obtain ⟨e, he, hpub⟩ := hs.kept id q h1 h2 h3 h4
      exact ⟨e, by rw [hlookup, if_neg hid, he], hpub⟩

/-- **Every move keeps the times.** -/
theorem move (hs : Stamped w l stamp) (ht : Traced w l) (h : Move w c w') (hi : w.Inv memory) :
    Stamped w' (l.next c) (stampNext stamp c) := by
  have hrunning : ∀ {r u}, w.uploads r = some u → ¬ w.vault.Available u.id := fun hup ⟨e, he, hpub⟩ =>
    hi.ne_published hup he hpub rfl
  have hstill : w'.vault.entries = w.vault.entries → Stamped w' l stamp := fun he =>
    ⟨fun id e => by rw [he]; exact hs.until_ id e,
      fun id q => by rw [Vault.Available, he]; exact hs.kept id q⟩
  cases h with
  | createFail | getFail | queue | write => exact hstill rfl
  | free => exact hstill (by simp)
  | @create r size id v blk hup hcom habs hmin hmax hcreate hblk =>
    obtain ⟨_, _, _, _, hlook⟩ := Vault.create_some hcreate hblk
    rw [Ledger.next, if_neg hblk]
    refine hs.hidden (fun id' hid => by rw [hlook, if_neg hid]) ?_ ?_ rfl rfl rfl
    · rintro ⟨e, he, _⟩
      rw [habs] at he
      cases he
    · rintro ⟨e, he, hpub⟩
      rw [hlook, if_pos rfl] at he
      cases he
      exact hpub rfl
  | @publish r t u hup hfull =>
    refine hs.commit fun id => ?_
    rw [Vault.lookup_publish, hi.upload r u hup, Option.map_some]
  | @get r id e he hpub hout =>
    have hsize := (hi.owned.entry_ok id e he).1.size_ne_zero
    rw [Ledger.next, if_neg hsize]
    refine hs.leave ht (fun id' => ?_) rfl (fun q hq => ⟨Ledger.count_of_ne hq, rfl⟩)
      fun q hq => Or.inl ?_
    · rw [Vault.get_some _ he hpub]
      change (w.vault.entries.erase id).lookup id' = _
      split_ifs with hid
      · rw [hid, Finmap.lookup_erase]
      · rw [Finmap.lookup_erase_ne hid]
    · simp only [hq, Ledger.count_self, ne_eq, Nat.add_one_ne_zero, not_false_eq_true]
  | @abort r u hup =>
    refine hs.hidden (fun id' hid => ?_) (hrunning hup) ?_ rfl rfl rfl
    · rw [Vault.lookup_abort, if_neg hid]
    · rintro ⟨e, he, _⟩
      rw [Vault.lookup_abort, if_pos rfl] at he
      cases he
  | @reap id e he hpub =>
    refine hs.leave ht (fun id' => by rw [← Vault.lookup_abort]) rfl
      (fun q hq => ⟨rfl, Ledger.count_of_ne hq⟩) fun q hq => Or.inr ?_
    simp only [Ledger.next, hq, Ledger.count_self, ne_eq, Nat.add_one_ne_zero, not_false_eq_true]

theorem moves {calls : List Call} : ∀ {w w' : World} {l : Ledger} {stamp : HtableKey → Option ℕ},
    Stamped w l stamp → Traced w l → w.Inv memory → Moves w calls w' →
      Stamped w' (calls.foldl Ledger.next l) (calls.foldl stampNext stamp) := by
  induction calls with
  | nil =>
    rintro w w' l stamp hs _ _ rfl
    exact hs
  | cons c calls ih =>
    rintro w w' l stamp hs ht hi ⟨w₁, hm, hrest⟩
    exact ih (hs.move ht hm hi) (ht.move hm hi) (hi.move hm) hrest

end Stamped

theorem Move.published_back (h : Move w c w') {id : HtableKey} {e : Entry}
    (he : w'.vault.entries.lookup id = some e) (hpub : e.Published) :
    w.vault.entries.lookup id = some e ∨ ∃ r, c = .publish r id e.validUntil true := by
  cases h with
  | createFail | getFail | queue | write => exact Or.inl he
  | free => exact Or.inl (by simpa using he)
  | @create r size id' v blk hup hcom habs hmin hmax hcreate hblk =>
    obtain ⟨_, _, _, _, hlook⟩ := Vault.create_some hcreate hblk
    rw [hlook] at he
    split_ifs at he with hid
    · cases he
      exact absurd rfl hpub
    · exact Or.inl he
  | @publish r t u hup hfull =>
    simp only [Vault.lookup_publish] at he
    split_ifs at he with hid
    · obtain ⟨e₀, _, rfl⟩ := Option.map_eq_some_iff.mp he
      exact Or.inr ⟨r, by rw [hid]⟩
    · exact Or.inl he
  | @get r id' e' he' hpub' hout =>
    rw [Vault.get_some _ he' hpub'] at he
    change (w.vault.entries.erase id').lookup id = _ at he
    have hid : id ≠ id' := by
      rintro rfl
      rw [Finmap.lookup_erase] at he
      cases he
    rw [Finmap.lookup_erase_ne hid] at he
    exact Or.inl he
  | abort | reap =>
    simp only [Vault.lookup_abort] at he
    split_ifs at he
    exact Or.inl he

theorem Moves.published_back {calls : List Call} : ∀ {w w' : World}, Moves w calls w' →
    ∀ {id : HtableKey} {e : Entry}, w'.vault.entries.lookup id = some e → e.Published →
      w.vault.entries.lookup id = some e ∨ ∃ r, .publish r id e.validUntil true ∈ calls := by
  induction calls with
  | nil =>
    rintro w w' rfl id e he _
    exact Or.inl he
  | cons c calls ih =>
    rintro w w' ⟨w₁, hm, hrest⟩ id e he hpub
    rcases ih hrest he hpub with he | ⟨r, hr⟩
    · exact (hm.published_back he hpub).imp_right fun ⟨r, hr⟩ => ⟨r, hr ▸ List.mem_cons_self⟩
    · exact Or.inr ⟨r, List.mem_cons_of_mem _ hr⟩

theorem moves_reap_gone (ids : List HtableKey) : ∀ {w w' : World}, Moves w (ids.map .reap) w' →
    ∀ {id : HtableKey} {e : Entry}, w'.vault.entries.lookup id = some e →
      w.vault.entries.lookup id = some e ∧ id ∉ ids := by
  induction ids with
  | nil =>
    rintro w w' rfl id e he
    exact ⟨he, List.not_mem_nil⟩
  | cons id₀ ids ih =>
    rintro w w' ⟨w₁, hm, hrest⟩ id e he
    obtain ⟨he₁, hid⟩ := ih hrest he
    cases hm with
    | reap he₀ hpub =>
      simp only [Vault.lookup_abort] at he₁
      split_ifs at he₁ with hid₀
      exact ⟨he₁, by rw [List.mem_cons, not_or]; exact ⟨hid₀, hid⟩⟩

theorem Moves.uncommitted {calls : List Call} (h : Moves w calls w') (hi : w.Inv memory) {q t : ℕ}
    {id : HtableKey} {ret : Bool} (hpub : .publish q id t ret ∈ calls) : w.committed q = none := by
  obtain ⟨before, after, rfl⟩ := List.append_of_mem hpub
  obtain ⟨w₁, h₁, w₂, hm, _⟩ := h.split
  by_contra hne
  obtain ⟨u, hu⟩ := Option.ne_none_iff_exists'.mp hne
  cases hm with
  | publish hup =>
    have := (World.Inv.moves h₁ hi).once _ _ hup
    rw [h₁.committed_mono hi hu] at this
    cases this

end Moves

/-! ## Ledgers and reaping -/

namespace Ledger

theorem le_count {f : ℕ → ℕ} {o : Option ℕ} {q : ℕ} : f q ≤ count f o q := by
  by_cases h : o = some q
  · rw [h, count_self]
    exact Nat.le_succ _
  · rw [count_of_ne h]

theorem reaped_of_no_reap {calls : List Call} (h : ∀ id, .reap id ∉ calls) :
    ∀ l : Ledger, (calls.foldl next l).reaped = l.reaped := by
  induction calls with
  | nil => exact fun l => rfl
  | cons c calls ih =>
    intro l
    rw [List.foldl_cons, ih fun id hid => h id (List.mem_cons_of_mem _ hid)]
    cases c with
    | reap id => exact absurd List.mem_cons_self (h id)
    | create | publish | get =>
      simp only [next]
      split_ifs <;> rfl
    | write | abort | free | queue => rfl

theorem lastCommit_of_no_commit {calls : List Call} {id : HtableKey}
    (h : calls.any (Call.commits id) = false) :
    ∀ l : Ledger, (calls.foldl next l).lastCommit id = l.lastCommit id := by
  induction calls with
  | nil => exact fun l => rfl
  | cons c calls ih =>
    intro l
    rw [List.any_cons, Bool.or_eq_false_iff] at h
    rw [List.foldl_cons, ih h.2]
    cases c with
    | publish r id' t ret =>
      simp only [next]
      split_ifs with hret
      · have hid : id ≠ id' := by
          rintro rfl
          simp [Call.commits, hret] at h
        exact Function.update_of_ne hid _ _
      · rfl
    | create | get =>
      simp only [next]
      split_ifs <;> rfl
    | write | abort | free | queue | reap => rfl

theorem lastCommit_of_commit {calls : List Call} {id : HtableKey} {q : ℕ}
    (h : calls.any (Call.commits id) = true) : ∀ l : Ledger,
      (calls.foldl next l).lastCommit id = some q → ∃ t, .publish q id t true ∈ calls := by
  induction calls with
  | nil => cases h
  | cons c calls ih =>
    intro l hq
    by_cases hrest : calls.any (Call.commits id) = true
    · exact (ih hrest _ hq).imp fun t ht => List.mem_cons_of_mem _ ht
    · rw [List.foldl_cons, lastCommit_of_no_commit (eq_false_of_ne_true hrest)] at hq
      rw [List.any_cons, eq_false_of_ne_true hrest, Bool.or_false] at h
      cases c with
      | publish r id' t ret =>
        simp only [Call.commits, Bool.and_eq_true, beq_iff_eq] at h
        obtain ⟨rfl, rfl⟩ := h
        simp only [next, if_true, Function.update_self, Option.some_inj] at hq
        exact ⟨t, hq ▸ List.mem_cons_self⟩
      | create | write | get | abort | free | reap | queue => cases h

theorem reaped_of_reap (ids : List HtableKey) : ∀ l : Ledger,
    ((ids.map .reap).foldl next l).lastCommit = l.lastCommit ∧
      ∀ q, (∀ id ∈ ids, l.lastCommit id ≠ some q) →
        ((ids.map .reap).foldl next l).reaped q = l.reaped q := by
  induction ids with
  | nil => exact fun l => ⟨rfl, fun _ _ => rfl⟩
  | cons id ids ih =>
    intro l
    obtain ⟨hlast, hreaped⟩ := ih (l.next (.reap id))
    refine ⟨hlast, fun q hq => ?_⟩
    rw [List.map_cons, List.foldl_cons, hreaped q fun id' hid' => hq id' (List.mem_cons_of_mem _ hid')]
    exact count_of_ne (hq id List.mem_cons_self)

end Ledger

theorem foldl_stampNext {calls : List Call} {id : HtableKey} {t : ℕ}
    (h : ∀ r t', .publish r id t' true ∈ calls → t' = t) : ∀ stamp : HtableKey → Option ℕ,
      calls.foldl stampNext stamp id =
        if calls.any (Call.commits id) then some t else stamp id := by
  induction calls with
  | nil => exact fun stamp => rfl
  | cons c calls ih =>
    intro stamp
    rw [List.foldl_cons, ih fun r t' ht => h r t' (List.mem_cons_of_mem _ ht), List.any_cons]
    by_cases hrest : calls.any (Call.commits id) = true
    · rw [hrest, Bool.or_true, if_pos rfl, if_pos rfl]
    · rw [eq_false_of_ne_true hrest, Bool.or_false, if_neg Bool.false_ne_true]
      cases c with
      | publish r id' t' ret =>
        by_cases hid : ret = true ∧ id' = id
        · obtain ⟨rfl, rfl⟩ := hid
          simp [stampNext, Call.commits, h r t' List.mem_cons_self]
        · have hcom : Call.commits id (.publish r id' t' ret) = false := by
            simpa [Call.commits] using hid
          rw [hcom, if_neg Bool.false_ne_true, stampNext]
          split_ifs with hret
          · exact Function.update_of_ne (fun e => hid ⟨hret, e.symm⟩) _ _
          · rfl
      | create | write | get | abort | free | reap | queue => rfl

/-! ## Steps -/

section Steps

variable {requests : ℕ → Request} {mallocated : ℕ} {tr : Trace} {S S' : Server} {w w' : World}
  {calls : List Call} {ev : Event} {env : Env} {r : ℕ} {rq : Request} {s : Storage} {c : ReqCtx}
  {upload : List UInt8} {out : AhcOut}

theorem publish_notMem_sendCalls {pending r' t : ℕ} {resp : Response} {id : HtableKey} {ret : Bool} :
    .publish r' id t ret ∉ sendCalls env r pending resp := fun h => by
  cases (mem_sendCalls.mp h).2

theorem publish_notMem_ahcNotFound {r' t : ℕ} {id : HtableKey} {ret : Bool} :
    .publish r' id t ret ∉ (ahcNotFound env r s c upload).calls := by
  unfold ahcNotFound drop
  split_ifs
  · exact List.not_mem_nil
  · rw [sendText_calls, List.nil_append]
    exact publish_notMem_sendCalls

theorem publish_notMem_ahcOther {r' t : ℕ} {id : HtableKey} {ret : Bool} :
    .publish r' id t ret ∉ (ahcOther env r rq s c upload).calls := by
  unfold ahcOther drop
  by_cases hup : upload ≠ []
  · rw [if_pos hup]
    exact List.not_mem_nil
  · rw [if_neg hup]
    cases if rq.method = "GET".toList then assetFind rq.url else none with
    | some i =>
      simp only [sendResponse_calls, List.nil_append]
      exact publish_notMem_sendCalls
    | none =>
      simp only
      split_ifs
      · rw [sendResponse_calls, List.nil_append]
        exact publish_notMem_sendCalls
      · rw [sendText_calls, List.nil_append]
        exact publish_notMem_sendCalls
      · exact publish_notMem_ahcNotFound

theorem ahcGet_publish {id' : HtableKey} (h : ahcGet env r s c upload id' = some out) {r' t : ℕ}
    {id : HtableKey} {ret : Bool} : .publish r' id t ret ∉ out.calls := by
  rw [ahcGet, Option.map_eq_some_iff] at h
  obtain ⟨⟨s', blob⟩, _, rfl⟩ := h
  simp only
  split_ifs
  · rw [sendText_calls, List.mem_append, not_or]
    exact ⟨by simp, publish_notMem_sendCalls⟩
  · rw [sendResponse_calls, List.mem_append, not_or]
    exact ⟨by simp, publish_notMem_sendCalls⟩

theorem ahcPostChunk_publish (hmethod : rq.method = "POST".toList) (hup : upload ≠ [])
    (h : ahcPostChunk r rq s c upload = some out) {r' t : ℕ} {id : HtableKey} {ret : Bool} :
    .publish r' id t ret ∉ out.calls := by
  intro hpub
  have hcalls := @ahcPostChunk_calls goodEnv r rq s c upload out hmethod hup h
  generalize out.calls = calls at hpub hcalls
  cases hcalls with
  | quiet => cases hpub
  | reply hnil | commit _ hnil => exact hup hnil
  | get hget =>
    rw [hmethod] at hget
    exact absurd hget (by decide)
  | chunk _ _ hchunk => rcases hchunk _ hpub with ⟨_, _, _, h⟩ | ⟨_, _, h⟩ <;> cases h

theorem ahcPostEnd_publish {pending r' t : ℕ} {id : HtableKey} {ret : Bool}
    (hpub : .publish r' id t ret ∈ (ahcPostEnd env r s c pending).calls) :
    t = (monotonicNowS env.tvSec + blobTtlS) % 2 ^ 32 := by
  unfold ahcPostEnd at hpub
  split_ifs at hpub with hdef hbad
  · rw [sendText_calls, List.nil_append] at hpub
    exact absurd hpub publish_notMem_sendCalls
  · rw [sendText_calls, List.nil_append] at hpub
    exact absurd hpub publish_notMem_sendCalls
  · have hmem : ∀ {calls : List Call} {ret' : Bool} {id' : HtableKey} {t' : ℕ} {resp : Response},
        calls = [.publish r id' t' ret'] → .publish r' id t ret ∈ calls ++ sendCalls env r pending resp →
          t = t' := by
      rintro _ ret' id' t' resp rfl hmem
      rcases List.mem_append.mp hmem with hmem | hmem
      · exact ((Call.publish.injEq _ _ _ _ _ _ _ _).mp (List.mem_singleton.mp hmem)).2.2.1
      · exact absurd hmem publish_notMem_sendCalls
    simp only at hpub
    split_ifs at hpub
    · rw [sendResponse_calls] at hpub
      exact hmem rfl hpub
    · rw [sendText_calls] at hpub
      exact hmem rfl hpub

theorem ahcPost_publish (hmethod : rq.method = "POST".toList) {id' : HtableKey}
    (h : ahcPost env r rq s c upload id' = some out) {r' t : ℕ} {id : HtableKey} {ret : Bool}
    (hpub : .publish r' id t ret ∈ out.calls) : t = (monotonicNowS env.tvSec + blobTtlS) % 2 ^ 32 := by
  unfold ahcPost at h
  by_cases hother : c.haveId = true ∧ c.id ≠ id'
  · rw [if_pos (by simpa using hother)] at h
    cases h
    cases hpub
  · rw [if_neg (by simpa using hother)] at h
    by_cases hup : upload ≠ []
    · simp only [if_pos hup] at h
      exact absurd hpub (ahcPostChunk_publish hmethod hup h)
    · simp only [if_neg hup] at h
      cases h
      exact ahcPostEnd_publish hpub

theorem ahcHandle_publish (h : ahcHandle env r rq s c upload = some out) {r' t : ℕ} {id : HtableKey}
    {ret : Bool} (hpub : .publish r' id t ret ∈ out.calls) :
    t = (monotonicNowS env.tvSec + blobTtlS) % 2 ^ 32 := by
  unfold ahcHandle at h
  by_cases hblob : "/blob/".toList.isPrefixOf rq.url = true
  · rw [if_neg (by simpa using hblob)] at h
    by_cases hlen : (rq.url.drop 6).length = idLength
    · rw [if_pos hlen] at h
      cases hid : blobId rq.url with
      | none =>
        rw [hid] at h
        cases h
        cases hpub
      | some id' =>
        rw [hid] at h
        simp only at h
        split_ifs at h with hget hpost
        · exact absurd hpub (ahcGet_publish h)
        · exact ahcPost_publish hpost h hpub
        · cases h
          exact absurd hpub publish_notMem_ahcNotFound
    · rw [if_neg hlen] at h
      cases h
      exact absurd hpub publish_notMem_ahcNotFound
  · rw [if_pos (by simpa using hblob)] at h
    cases h
    exact absurd hpub publish_notMem_ahcOther

/-- **Uploads are published for `BLOB_TTL_S`** from the reading of the clock, by the handler. -/
theorem step_publish (hA : Arena (serverArena mallocated)) (h : Reached requests mallocated tr S w)
    (hen : Enabled S ev) (hstep : step requests S ev = some (S', calls)) {r' t : ℕ} {id : HtableKey}
    {ret : Bool} (hpub : .publish r' id t ret ∈ calls) :
    ∃ now, ev.now = some now ∧ t = (now + blobTtlS) % 2 ^ 32 := by
  obtain ⟨_, _, hd, _⟩ := h.step hA hen hstep
  cases ev with
  | reqDone => cases (hd _ hpub).2
  | reaper => cases hd _ hpub
  | ahc r upload env =>
    refine ⟨_, rfl, ?_⟩
    rcases hen with ⟨hfresh, rfl⟩ | hr
    · rcases step_ahc_first h.rep hfresh hstep with rfl | ⟨resp, _, rfl⟩
      · cases hpub
      · exact absurd hpub publish_notMem_sendCalls
    · obtain ⟨c, out, _, hrun, rfl, _⟩ := step_ahc h.rep hr hstep
      exact ahcHandle_publish hrun hpub

theorem step_reaper (h : Reached requests mallocated tr S w) {tvSec : ℕ}
    (hstep : step requests S (.reaper tvSec) = some (S', calls)) :
    calls = (expiredIds S.storage (monotonicNowS tvSec)).map .reap := by
  rw [step, Option.map_eq_some_iff] at hstep
  obtain ⟨s, _, heq⟩ := hstep
  cases heq
  rw [(idsInvalid_reaperGather h.rep.storage _).1]

theorem step_no_reap (hA : Arena (serverArena mallocated)) (h : Reached requests mallocated tr S w)
    (hen : Enabled S ev) (hstep : step requests S ev = some (S', calls))
    (hev : ∀ tvSec, ev ≠ .reaper tvSec) (id : HtableKey) : .reap id ∉ calls := by
  intro hreap
  obtain ⟨_, _, hd, _⟩ := h.step hA hen hstep
  cases ev with
  | ahc => cases (hd _ hreap).1
  | reqDone => cases (hd _ hreap).1
  | reaper tvSec => exact hev tvSec rfl

/-- **The times of a run**, in readings of its clock: the stamp of an id is `BLOB_TTL_S` after its
last commit, what is published had time left at every tick so far, and what was reaped had not. -/
structure Aged (tr : Trace) (w : World) : Prop where
  stamped : Stamped w (Ledger.of (callsOf tr)) (stampOf (callsOf tr))
  stamp : ∀ id, stampOf (callsOf tr) id = (committedAt id tr).map (· + blobTtlS)
  seen : ∀ id tc, committedAt id tr = some tc → tc ∈ readings tr
  tick : ∀ id e, w.vault.entries.lookup id = some e → e.Published →
    ∀ tvSec calls, (.reaper tvSec, calls) ∈ tr → monotonicNowS tvSec ≤ e.validUntil
  late : ∀ id q tc, (Ledger.of (callsOf tr)).lastCommit id = some q → committedAt id tr = some tc →
    (Ledger.of (callsOf tr)).reaped q ≠ 0 → ∃ t ∈ readings tr, tc + blobTtlS < t

theorem Aged.init (mallocated : ℕ) : Aged [] (World.init mallocated) := by
  have hnone : ∀ id e, (World.init mallocated).vault.entries.lookup id ≠ some e := by
    intro id e he
    rw [World.init, Vault.init, Finmap.lookup_empty] at he
    cases he
  exact ⟨⟨fun id e he => absurd he (hnone id e), fun id q hq => (by cases hq)⟩, fun id => rfl,
    fun id tc h => (by cases h), fun id e he => absurd he (hnone id e),
    fun id q tc h => (by cases h)⟩

/-- Below the marks the stamp does not wrap round. -/
theorem Clocked.stamp_eq {now : ℕ} (h : now + blobTtlS < validUntilNotPublished) :
    (now + blobTtlS) % 2 ^ 32 = now + blobTtlS := by
  unfold validUntilNotPublished validUntilEmpty at h
  omega

/-- **One step of the server keeps the times.** -/
theorem Aged.step (hA : Arena (serverArena mallocated)) (h : Reached requests mallocated tr S w)
    (ha : Aged tr w) (hclock : Clocked (tr ++ [(ev, calls)])) (hen : Enabled S ev)
    (hstep : Adnihilum.step requests S ev = some (S', calls)) :
    ∃ w', Reached requests mallocated (tr ++ [(ev, calls)]) S' w' ∧
      Aged (tr ++ [(ev, calls)]) w' := by
  obtain ⟨w', hm, hd, h'⟩ := h.step hA hen hstep
  obtain ⟨hclock₀, hnow⟩ := hclock.init
  have hpubs : ∀ {r id t ret}, .publish r id t ret ∈ calls →
      ∃ now, ev.now = some now ∧ t = now + blobTtlS ∧ ∀ t ∈ readings tr, t ≤ now := by
    intro r id t ret hpub
    obtain ⟨now, hev, ht⟩ := step_publish hA h hen hstep hpub
    rw [Clocked.stamp_eq (hnow now hev).1] at ht
    exact ⟨now, hev, ht, (hnow now hev).2⟩
  have hcommits : ∀ {id}, calls.any (Call.commits id) = true → ∃ r t, .publish r id t true ∈ calls := by
    intro id hany
    obtain ⟨c, hc, hcom⟩ := List.any_eq_true.mp hany
    cases c with
    | publish r id' t ret =>
      simp only [Call.commits, Bool.and_eq_true, beq_iff_eq] at hcom
      obtain ⟨rfl, rfl⟩ := hcom
      exact ⟨r, t, hc⟩
    | create | write | get | abort | free | reap | queue => cases hcom
  refine ⟨w', h', ?_, fun id => ?_, fun id tc htc => ?_, fun id e he hpub tvSec calls' hmem => ?_,
    fun id q tc hq htc hreaped => ?_⟩
  · rw [callsOf_append, Ledger.of_append, stampOf_append]
    exact ha.stamped.moves h.traced h.inv hm
  · rw [callsOf_append, stampOf_append, committedAt_append,
      foldl_stampNext (t := ev.now.getD 0 + blobTtlS) fun r t hpub => ?_]
    · split_ifs with hany
      · obtain ⟨r, t, hpub⟩ := hcommits hany
        obtain ⟨now, hev, _⟩ := hpubs hpub
        rw [hev]
        rfl
      · exact ha.stamp id
    · obtain ⟨now, hev, rfl, _⟩ := hpubs hpub
      rw [hev]
      rfl
  · rw [committedAt_append] at htc
    rw [readings_append]
    split_ifs at htc
    · rw [htc]
      exact List.mem_append_right _ (List.mem_singleton_self tc)
    · exact List.mem_append_left _ (ha.seen id tc htc)
  · have hmem' := List.mem_append.mp hmem
    rcases hm.published_back he hpub with hold | ⟨r, hr⟩
    · rcases hmem' with hmem' | hmem'
      · exact ha.tick id e hold hpub tvSec calls' hmem'
      · -- this tick: what has expired is gone
        obtain ⟨rfl, rfl⟩ := Prod.mk.inj (List.mem_singleton.mp hmem')
        obtain rfl := step_reaper h hstep
        have hkept := (moves_reap_gone _ hm he).2
        rw [mem_expiredIds h.rep.storage (monotonicNowS_le tvSec)] at hkept
        exact not_lt.mp fun hlt => hkept ⟨e, hold, hlt⟩
    · obtain ⟨now, hev, hu, hle⟩ := hpubs hr
      have htick : monotonicNowS tvSec ∈ readings tr := by
        rcases hmem' with hmem' | hmem'
        · exact List.mem_filterMap.mpr ⟨_, hmem', rfl⟩
        · obtain ⟨rfl, rfl⟩ := Prod.mk.inj (List.mem_singleton.mp hmem')
          obtain rfl := step_reaper h hstep
          obtain ⟨_, _, hc⟩ := List.mem_map.mp hr
          cases hc
      rw [hu]
      exact (hle _ htick).trans (Nat.le_add_right _ _)
  · rw [callsOf_append, Ledger.of_append] at hq hreaped
    rw [committedAt_append] at htc
    rw [readings_append]
    by_cases hany : calls.any (Call.commits id) = true
    · -- a new commit: its request had committed nothing, so nothing of it was reaped
      obtain ⟨t, hpub⟩ := Ledger.lastCommit_of_commit hany _ hq
      have hnoreap := step_no_reap hA h hen hstep fun tvSec hev => by
        subst hev
        obtain rfl := step_reaper h hstep
        obtain ⟨_, _, hc⟩ := List.mem_map.mp hpub
        cases hc
      rw [Ledger.reaped_of_no_reap hnoreap] at hreaped
      exact absurd (h.traced.uncommitted q (hm.uncommitted h.inv hpub)).2 hreaped
    · rw [if_neg hany] at htc
      rw [Ledger.lastCommit_of_no_commit (eq_false_of_ne_true hany)] at hq
      by_cases hold : (Ledger.of (callsOf tr)).reaped q = 0
      · -- reaped by this step, a tick
        have hev : ∃ tvSec, ev = .reaper tvSec := by
          by_contra hev
          push Not at hev
          rw [Ledger.reaped_of_no_reap (step_no_reap hA h hen hstep hev)] at hreaped
          exact hreaped hold
        obtain ⟨tvSec, rfl⟩ := hev
        obtain rfl := step_reaper h hstep
        refine ⟨monotonicNowS tvSec, List.mem_append_right _ (List.mem_singleton_self _), ?_⟩
        have hid : id ∈ expiredIds S.storage (monotonicNowS tvSec) := by
          by_contra hid
          refine hreaped (((Ledger.reaped_of_reap _ _).2 q fun id' hid' hq' => hid ?_).trans hold)
          rwa [h.traced.lastCommit_inj hq hq']
        obtain ⟨e, he, hlt⟩ := (mem_expiredIds h.rep.storage (monotonicNowS_le tvSec)).mp hid
        have hbelow := (hnow _ rfl).1
        have hstamp := ha.stamped.until_ id e he fun hun => by
          rw [hun] at hlt
          omega
        rw [ha.stamp, htc, Option.map_some, Option.some_inj] at hstamp
        rw [hstamp]
        exact hlt
      · obtain ⟨t, ht, hlt⟩ := ha.late id q tc hq htc hold
        exact ⟨t, List.mem_append_left _ ht, hlt⟩

/-- **Every clocked run keeps the times.** -/
theorem Run.aged (hA : Arena (serverArena mallocated)) (hrun : Run requests (serverInit mallocated) tr S)
    (hclock : Clocked tr) : ∃ w, Reached requests mallocated tr S w ∧ Aged tr w := by
  induction hrun with
  | init => exact ⟨_, Reached.init hA, Aged.init mallocated⟩
  | step _ hen hstep ih =>
    obtain ⟨w, hw, ha⟩ := ih hclock.init.1
    exact ha.step hA hw hclock hen hstep

/-- **A secret is kept for its hour.** When the clock goes forward and shows no more than
`BLOB_TTL_S` after the last commit to `id`, and that upload was not handed out, then `id` is in the
store until `BLOB_TTL_S` after its commit, and its block holds what its request sent. -/
theorem kept_for_ttl (hA : Arena (serverArena mallocated))
    (hrun : Run requests (serverInit mallocated) tr S) (hclock : Clocked tr) {id : HtableKey} {q tc : ℕ}
    (hq : (Ledger.of (callsOf tr)).lastCommit id = some q) (htc : committedAt id tr = some tc)
    (hhanded : (Ledger.of (callsOf tr)).handedOut q = 0)
    (hnow : ∀ t ∈ readings tr, t ≤ tc + blobTtlS) :
    ∃ blk, S.storage.HasEntry id blk (tc + blobTtlS) ∧
      contentLength (requests q) = some blk.size ∧
      S.storage.mem.load blk.data blk.size = received q tr := by
  obtain ⟨w, hw, ha⟩ := hrun.aged hA hclock
  have hreaped : (Ledger.of (callsOf tr)).reaped q = 0 := by
    by_contra hne
    obtain ⟨t, ht, hlt⟩ := ha.late id q tc hq htc hne
    exact absurd (hnow t ht) (by omega)
  have hstamp : stampOf (callsOf tr) id = some (tc + blobTtlS) := by
    rw [ha.stamp, htc]
    rfl
  have hbelow := hclock.below tc (ha.seen id tc htc)
  obtain ⟨e, he, hpub⟩ := ha.stamped.kept id q hq hhanded hreaped fun heq => by
    rw [hstamp, Option.some_inj] at heq
    omega
  have hu := ha.stamped.until_ id e he hpub
  rw [hstamp, Option.some_inj] at hu
  obtain ⟨q', u, hq', hcom, hlen, hload, _⟩ := hw.traced.published id e he hpub
  obtain rfl : q = q' := Option.some_inj.mp (hq.symm.trans hq')
  obtain ⟨hbody, hsize, hup, _⟩ := (hw.rep.request q).committed u hcom
  refine ⟨e.blk, ?_, ?_, ?_⟩
  · rw [hw.rep.storage.hasEntry_iff, he, hu]
  · rw [hup.size, ← hsize, hlen]
  · rw [hw.rep.storage.mem, hload, hbody]

/-- **What is fetched had time left at every tick before.** When the clock goes forward and a `GET`
gets a block, then the upload it gets was committed at some `tc`, and no tick of the reaper so far
came later than `BLOB_TTL_S` after that. -/
theorem fetched_before_tick (hA : Arena (serverArena mallocated)) {pre post : Trace}
    (hrun : Run requests (serverInit mallocated) (pre ++ (ev, calls) :: post) S)
    (hclock : Clocked (pre ++ (ev, calls) :: post)) {id : HtableKey} {blk : Blk}
    (hget : .get r id blk ∈ calls) (hblk : blk.size ≠ 0) :
    ∃ tc now, committedAt id pre = some tc ∧ ev.now = some now ∧ tc ≤ now ∧
      ∀ tvSec calls', (.reaper tvSec, calls') ∈ pre → monotonicNowS tvSec ≤ tc + blobTtlS := by
  obtain ⟨S₁, hpre, hrest⟩ := hrun.split
  obtain ⟨w₁, h₁, ha⟩ := hpre.aged hA hclock.initial
  obtain ⟨S₂, hen, hstep, _⟩ := hrest.head
  obtain ⟨w₂, hm, hd, _⟩ := h₁.step hA hen hstep
  -- the `get` is the first call of its event
  cases ev with
  | reqDone => cases (hd _ hget).2
  | reaper => cases hd _ hget
  | ahc r' upload env =>
    obtain ⟨_, _, _, hcalls⟩ := (step_ahc_calls h₁.rep hen hstep).get_mem hget
    rw [hcalls] at hm
    obtain ⟨w₃, hmove, _⟩ := hm
    cases hmove with
    | getFail => exact absurd rfl hblk
    | @get _ _ e he hpub hout =>
      have hu := ha.stamped.until_ id e he hpub
      rw [ha.stamp, Option.map_eq_some_iff] at hu
      obtain ⟨tc, htc, hsum⟩ := hu
      have hlast : Clocked (pre ++ [(.ahc r' upload env, calls)]) := by
        refine @Clocked.initial post _ ?_
        rwa [List.append_assoc]
      refine ⟨tc, monotonicNowS env.tvSec, htc, rfl, (hlast.init.2 _ rfl).2 tc (ha.seen id tc htc),
        fun tvSec calls' hmem => ?_⟩
      rw [hsum]
      exact ha.tick id e he hpub tvSec calls' hmem

end Steps

/-! ## A tick of the reaper between -/

/-- An upload, and a tick of the reaper a quarter of an hour later. -/
def postAndTick (blk : Blk) : Trace := (postAndGetTrace blk [] goodEnv).take 4 ++ [(.reaper 900, [])]

theorem committedAt_upload (id : HtableKey) (blk : Blk) :
    committedAt id ((postAndGetTrace blk [] goodEnv).take 4) = if blobKey = id then some 0 else none := by
  simp [postAndGetTrace, committedAt, Call.commits, sendCalls, goodEnv, Event.now, monotonicNowS]

/-- The tick finds nothing to reap. -/
theorem postAndTick_run : ∃ S blk, blk.size = 46 ∧ S.phase 1 = .receiving ∧
    Run postAndGet (serverInit 4096) (postAndTick blk) S := by
  obtain ⟨_, blk, hblk, _, hrun⟩ := postAndGet_run [] goodEnv
  obtain ⟨S, hup, hrest⟩ := @Run.split _ _ _ ((postAndGetTrace blk [] goodEnv).drop 4)
    ((postAndGetTrace blk [] goodEnv).take 4) hrun
  have hread : readings ((postAndGetTrace blk [] goodEnv).take 4) = [0, 0, 0, 0] := by
    simp [postAndGetTrace, readings, Event.now, goodEnv, refusingEnv, monotonicNowS]
  obtain ⟨w, h, ha⟩ := hup.aged arena_4096 ⟨by rw [hread]; decide, by rw [hread]; decide⟩
  obtain ⟨_, hen, hget, -⟩ := hrest.head
  have hphase := receiving_of_get h hen hget List.mem_cons_self
  have htick : Enabled S (.reaper 900) := trivial
  obtain ⟨S', calls, hstep⟩ := step_total arena_4096 h.rep h.inv htick fun tvSec hev => by
    cases hev
    decide
  -- what is published was committed just now
  have hnone : expiredIds S.storage (monotonicNowS 900) = [] := by
    rw [List.eq_nil_iff_forall_not_mem]
    intro id hid
    obtain ⟨e, he, hlt⟩ := (mem_expiredIds h.rep.storage (by decide)).mp hid
    have hpub : e.Published := fun hun => by
      rw [hun] at hlt
      exact absurd hlt (by decide)
    have hstamp := ha.stamped.until_ id e he hpub
    rw [ha.stamp, committedAt_upload] at hstamp
    split_ifs at hstamp
    · rw [← Option.some_inj.mp hstamp] at hlt
      exact absurd hlt (by decide)
    · cases hstamp
  have hcalls := step_reaper h hstep
  rw [hnone, List.map_nil] at hcalls
  subst hcalls
  refine ⟨S', blk, hblk, ?_, hup.step htick hstep⟩
  rw [step, Option.map_eq_some_iff] at hstep
  obtain ⟨s, -, heq⟩ := hstep
  rw [← (Prod.mk.inj heq).1]
  exact hphase

theorem readings_postAndTick (blk : Blk) : readings (postAndTick blk) = [0, 0, 0, 0, 900] := by
  simp [postAndTick, postAndGetTrace, readings, Event.now, goodEnv, refusingEnv, monotonicNowS]

theorem ledger_postAndTick {blk : Blk} (hblk : blk.size = 46) :
    (Ledger.of (callsOf (postAndTick blk))).lastCommit blobKey = some 0 ∧
      (Ledger.of (callsOf (postAndTick blk))).handedOut 0 = 0 ∧
      (Ledger.of (callsOf (postAndTick blk))).reaped 0 = 0 := by
  simp [postAndTick, postAndGetTrace, callsOf, Ledger.of, Ledger.next, Ledger.start, sendCalls,
    goodEnv, hblk]

/-- After the tick the secret is still there. -/
theorem kept_for_ttl_postAndGet : ∃ (S : Server) (blk blk' : Blk),
    Run postAndGet (serverInit 4096) (postAndTick blk) S ∧ S.phase 1 = .receiving ∧
      S.storage.HasEntry blobKey blk' 3600 ∧ blk'.size = 46 ∧
      S.storage.mem.load blk'.data blk'.size = received 0 (postAndTick blk) := by
  obtain ⟨S, blk, hblk, hphase, hrun⟩ := postAndTick_run
  have hread := readings_postAndTick blk
  obtain ⟨hlast, hhanded, hreaped⟩ := ledger_postAndTick hblk
  have hcommitted : committedAt blobKey (postAndTick blk) = some 0 := by
    rw [postAndTick, committedAt_append, committedAt_upload]
    rfl
  obtain ⟨blk', hentry, hlen, hload⟩ := kept_for_ttl arena_4096 hrun
    ⟨by rw [hread]; decide, by rw [hread]; decide⟩ hlast hcommitted hhanded (by rw [hread]; decide)
  have hsize : contentLength (postAndGet 0) = some 46 := by decide
  exact ⟨S, blk, blk', hrun, hphase, hentry, Option.some_inj.mp (hlen.symm.trans hsize), hload⟩

/-- The `GET` comes half an hour after the upload. -/
def lateEnv : Env := { goodEnv with tvSec := 1800 }

/-- What the `GET` after the tick is handed was committed, and the tick came in its hour. -/
theorem fetched_before_tick_postAndGet : ∃ (S : Server) (blk blob : Blk) (reply : List Call) (tc : ℕ),
    Run postAndGet (serverInit 4096)
      (postAndTick blk ++ [(.ahc 1 [] lateEnv, .get 1 blobKey blob :: reply)]) S ∧ blob.size ≠ 0 ∧
      committedAt blobKey (postAndTick blk) = some tc ∧ tc ≤ 1800 ∧
      monotonicNowS 900 ≤ tc + blobTtlS := by
  obtain ⟨S, blk, hblk, hphase, hrun⟩ := postAndTick_run
  have hread := readings_postAndTick blk
  obtain ⟨w, h, ha⟩ := hrun.aged arena_4096 ⟨by rw [hread]; decide, by rw [hread]; decide⟩
  -- the entry that the tick has left
  have hstamp : stampOf (callsOf (postAndTick blk)) blobKey = some 3600 := by
    rw [ha.stamp, postAndTick, committedAt_append, committedAt_upload]
    rfl
  obtain ⟨hlast, hhanded, hreaped⟩ := ledger_postAndTick hblk
  obtain ⟨e, he, hpub⟩ := ha.stamped.kept blobKey 0 hlast hhanded hreaped
    (by rw [hstamp]; decide)
  have hentry : S.storage.HasEntry blobKey e.blk e.validUntil := h.rep.storage.hasEntry_iff.mpr he
  -- the `GET`
  have hen : Enabled S (.ahc 1 [] lateEnv) := Or.inr hphase
  obtain ⟨S', calls, _, hstep, -⟩ := ahc_rep h.rep h.inv hphase [] lateEnv
  obtain ⟨blob, rfl⟩ := get_calls h hphase hstep rfl
    (show requestId (postAndGet 1) = some blobKey by decide)
  obtain ⟨-, hblob, -⟩ := get_takes arena_4096 h hen hstep rfl hentry hpub
  have hrun' := hrun.step hen hstep
  have hclock : Clocked (postAndTick blk ++ [(.ahc 1 [] lateEnv,
      .get 1 blobKey blob :: sendCalls lateEnv 1 0 (blobResponse blob))]) := by
    have hlate : readings (postAndTick blk ++ [(.ahc 1 [] lateEnv,
        .get 1 blobKey blob :: sendCalls lateEnv 1 0 (blobResponse blob))]) =
          [0, 0, 0, 0, 900, 1800] := by
      rw [readings_append, hread]
      rfl
    exact ⟨by rw [hlate]; decide, by rw [hlate]; decide⟩
  obtain ⟨tc, now, htc, hnow, hle, htick⟩ := fetched_before_tick arena_4096 hrun' hclock
    List.mem_cons_self hblob
  obtain rfl : 1800 = now := Option.some_inj.mp hnow
  exact ⟨S', blk, blob, _, tc, hrun', hblob, htc, hle, htick 900 [] (by simp [postAndTick])⟩

end Adnihilum
