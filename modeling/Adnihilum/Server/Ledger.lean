import Adnihilum.Server.World

/-!
# Where the uploads went

* `Ledger`: read off the calls of a run: the last upload committed to each id, who made its entry,
  how often an upload was handed out or reaped, and which ids are gone.
* `Traced w l`: the ledger fits the world. A published entry holds the last upload committed to its
  id, which was neither handed out nor reaped; an entry belongs to a running or a committed upload.
* **`Traced.move`**: every move keeps this.
-/

namespace Adnihilum

open FlatMemory Custody

/-- Read off the calls: the last upload committed to an id, and the last that made an entry for it,
by its request; the number of times an upload was handed out, and reaped; the ids that were taken,
aborted or reaped and not created since. -/
structure Ledger where
  lastCommit : HtableKey → Option ℕ
  maker : HtableKey → Option ℕ
  handedOut : ℕ → ℕ
  reaped : ℕ → ℕ
  gone : HtableKey → Bool

namespace Ledger

/-- Before the first call. -/
def start : Ledger := ⟨fun _ => none, fun _ => none, fun _ => 0, fun _ => 0, fun _ => false⟩

/-- One more for the upload, if there is one. -/
def count (f : ℕ → ℕ) : Option ℕ → ℕ → ℕ
  | none => f
  | some q => Function.update f q (f q + 1)

/-- What a call adds. -/
def next (l : Ledger) : Call → Ledger
  | .create r id _ ret =>
    if ret.size = 0 then l
    else { l with
      maker := Function.update l.maker id (some r)
      gone := Function.update l.gone id false }
  | .publish r id _ ret =>
    if ret then { l with lastCommit := Function.update l.lastCommit id (some r) } else l
  | .get _ id ret =>
    if ret.size = 0 then l
    else { l with
      handedOut := count l.handedOut (l.lastCommit id)
      gone := Function.update l.gone id true }
  | .abort _ id => { l with gone := Function.update l.gone id true }
  | .reap id => { l with
      reaped := count l.reaped (l.lastCommit id)
      gone := Function.update l.gone id true }
  | .write _ _ _ | .free _ _ | .queue _ _ _ _ => l

/-- The ledger of a list of calls. -/
def of (calls : List Call) : Ledger := calls.foldl next start

theorem of_append (calls calls' : List Call) : of (calls ++ calls') = calls'.foldl next (of calls) :=
  List.foldl_append

theorem count_of_ne {f : ℕ → ℕ} {o : Option ℕ} {q : ℕ} (h : o ≠ some q) : count f o q = f q := by
  cases o with
  | none => rfl
  | some q' => exact Function.update_of_ne (fun e => h (by rw [e])) _ _

theorem count_self {f : ℕ → ℕ} {q : ℕ} : count f (some q) q = f q + 1 := Function.update_self _ _ _

end Ledger

/-- The request uploads to the id, or has committed an upload to it. -/
def World.Author (w : World) (q : ℕ) (id : HtableKey) : Prop :=
  (∃ u, w.uploads q = some u ∧ u.id = id) ∨ ∃ u, w.committed q = some u ∧ u.id = id

/-- **The ledger fits the world.** -/
structure Traced (w : World) (l : Ledger) : Prop where
  published : ∀ id e, w.vault.entries.lookup id = some e → e.Published →
    ∃ q u, l.lastCommit id = some q ∧ w.committed q = some u ∧ u.body.length = e.blk.size ∧
      w.vault.mem.load e.blk.data e.blk.size = u.body ∧ l.handedOut q = 0 ∧ l.reaped q = 0
  committed : ∀ id q, l.lastCommit id = some q → ∃ u, w.committed q = some u ∧ u.id = id
  atMostOnce : ∀ q, l.handedOut q + l.reaped q ≤ 1
  uncommitted : ∀ q, w.committed q = none → l.handedOut q = 0 ∧ l.reaped q = 0
  maker : ∀ id e, w.vault.entries.lookup id = some e → ∃ q, l.maker id = some q ∧ w.Author q id
  gone : ∀ id, l.gone id = true → w.vault.entries.lookup id = none

section Moves

variable {memory : ℕ} {w w' : World} {c : Call} {l : Ledger}

theorem Move.committed_mono (h : Move w c w') (hi : w.Inv memory) {q : ℕ} {u : Upload}
    (hq : w.committed q = some u) : w'.committed q = some u := by
  cases h with
  | createFail | create | write | getFail | get | abort | free | reap | queue => exact hq
  | @publish r t u₀ hup hfull =>
    have hne : q ≠ r := by
      rintro rfl
      rw [hi.once q u₀ hup] at hq
      cases hq
    exact (Function.update_of_ne hne _ _).trans hq

theorem Move.commits (h : Move w c w') {q : ℕ} {u : Upload} (hq : w'.committed q = some u) :
    w.committed q = some u ∨ ∃ t, c = .publish q u.id t true := by
  cases h with
  | createFail | create | write | getFail | get | abort | free | reap | queue => exact Or.inl hq
  | @publish r t u₀ hup hfull =>
    rcases of_update_eq_some hq with ⟨rfl, hnew⟩ | ⟨-, hold⟩
    · obtain rfl := Option.some_inj.mp hnew
      exact Or.inr ⟨t, rfl⟩
    · exact Or.inl hold

theorem Moves.commits {calls : List Call} : ∀ {w w' : World}, Moves w calls w' → ∀ {q : ℕ} {u : Upload},
    w'.committed q = some u → w.committed q = some u ∨ ∃ t, .publish q u.id t true ∈ calls := by
  induction calls with
  | nil =>
    rintro w w' rfl q u hq
    exact Or.inl hq
  | cons c calls ih =>
    rintro w w' ⟨w₁, hm, hrest⟩ q u hq
    rcases ih hrest hq with hq | ⟨t, ht⟩
    · exact (hm.commits hq).imp_right fun ⟨t, ht⟩ => ⟨t, ht ▸ List.mem_cons_self⟩
    · exact Or.inr ⟨t, List.mem_cons_of_mem _ ht⟩

theorem Move.author (h : Move w c w') (hi : w.Inv memory) {q : ℕ} {id : HtableKey} {e : Entry}
    (hq : w.Author q id) (he' : w'.vault.entries.lookup id = some e) : w'.Author q id := by
  rcases hq with ⟨u, hu, rfl⟩ | ⟨u, hu, hid⟩
  · cases h with
    | createFail | getFail | get | free | reap | queue => exact Or.inl ⟨u, hu, rfl⟩
    | @create r size id v blk hup hcom habs hmin hmax hcreate hblk =>
      have hne : q ≠ r := by
        rintro rfl
        rw [hup] at hu
        cases hu
      exact Or.inl ⟨u, (Function.update_of_ne hne _ _).trans hu, rfl⟩
    | @write r u₀ bytes hup hfit =>
      by_cases hr : q = r
      · subst hr
        obtain rfl : u = u₀ := Option.some_inj.mp (hu.symm.trans hup)
        exact Or.inl ⟨_, Function.update_self _ _ _, rfl⟩
      · exact Or.inl ⟨u, (Function.update_of_ne hr _ _).trans hu, rfl⟩
    | @publish r t u₀ hup hfull =>
      by_cases hr : q = r
      · subst hr
        obtain rfl : u = u₀ := Option.some_inj.mp (hu.symm.trans hup)
        exact Or.inr ⟨u, Function.update_self _ _ _, rfl⟩
      · exact Or.inl ⟨u, (Function.update_of_ne hr _ _).trans hu, rfl⟩
    | @abort r u₀ hup =>
      have hne : q ≠ r := by
        rintro rfl
        obtain rfl : u = u₀ := Option.some_inj.mp (hu.symm.trans hup)
        simp only [Vault.lookup_abort, if_true] at he'
        cases he'
      exact Or.inl ⟨u, (Function.update_of_ne hne _ _).trans hu, rfl⟩
  · exact Or.inr ⟨u, h.committed_mono hi hu, hid⟩

namespace Traced

theorem lastCommit_inj (ht : Traced w l) {id id' : HtableKey} {q : ℕ}
    (h : l.lastCommit id = some q) (h' : l.lastCommit id' = some q) : id = id' := by
  obtain ⟨u, hu, hid⟩ := ht.committed id q h
  obtain ⟨u', hu', hid'⟩ := ht.committed id' q h'
  obtain rfl : u = u' := Option.some_inj.mp (hu.symm.trans hu')
  exact hid.symm.trans hid'

theorem keep (ht : Traced w l) (h : Move w c w') (hi : w.Inv memory) {l' : Ledger} {id : HtableKey}
    {e : Entry} (he : w.vault.entries.lookup id = some e)
    (he' : w'.vault.entries.lookup id = some e) (hpub : e.Published)
    (hlast : l'.lastCommit id = l.lastCommit id)
    (hcount : ∀ q, l.lastCommit id = some q →
      l'.handedOut q = l.handedOut q ∧ l'.reaped q = l.reaped q) :
    ∃ q u, l'.lastCommit id = some q ∧ w'.committed q = some u ∧ u.body.length = e.blk.size ∧
      w'.vault.mem.load e.blk.data e.blk.size = u.body ∧ l'.handedOut q = 0 ∧ l'.reaped q = 0 := by
  obtain ⟨q, u, h1, h2, h3, h4, h5, h6⟩ := ht.published id e he hpub
  obtain ⟨h7, h8⟩ := hcount q h1
  have hload := h.load hi (Or.inl ⟨id, e, he, rfl⟩) (Or.inl ⟨id, e, he', rfl⟩)
    (fun r dst bytes u hc hu hblk => hi.ne_published hu he hpub
      (hi.owned.stored_inj (hi.upload r u hu) he (congrArg Blk.data hblk))) le_rfl
  exact ⟨q, u, by rw [hlast, h1], h.committed_mono hi h2, h3, by rw [hload, h4], by rw [h7, h5],
    by rw [h8, h6]⟩

theorem still (ht : Traced w l) (h : Move w c w') (hi : w.Inv memory)
    (hentries : w'.vault.entries = w.vault.entries) (hcom : w'.committed = w.committed) :
    Traced w' l where
  published id e he hpub :=
    ht.keep h hi (by rwa [hentries] at he) he hpub rfl fun _ _ => ⟨rfl, rfl⟩
  committed id q hq := by rw [hcom]; exact ht.committed id q hq
  atMostOnce := ht.atMostOnce
  uncommitted q hq := ht.uncommitted q (by rwa [hcom] at hq)
  maker id e he := by
    obtain ⟨q, hq, hauthor⟩ := ht.maker id e (by rwa [hentries] at he)
    exact ⟨q, hq, h.author hi hauthor he⟩
  gone id hg := by rw [hentries]; exact ht.gone id hg

theorem leave (ht : Traced w l) (h : Move w c w') (hi : w.Inv memory) {l' : Ledger}
    {id : HtableKey} (hlookup : ∀ id', w'.vault.entries.lookup id' =
      if id' = id then none else w.vault.entries.lookup id')
    (hcom : w'.committed = w.committed) (hlast : l'.lastCommit = l.lastCommit)
    (hmaker : l'.maker = l.maker) (hgone : l'.gone = Function.update l.gone id true)
    (hcount : ∀ q, l.lastCommit id ≠ some q →
      l'.handedOut q = l.handedOut q ∧ l'.reaped q = l.reaped q)
    (honce : ∀ q, l.lastCommit id = some q → l'.handedOut q + l'.reaped q ≤ 1) : Traced w' l' where
  published id' e he hpub := by
    rw [hlookup] at he
    split_ifs at he with hid
    refine ht.keep h hi he (by rw [hlookup, if_neg hid, he]) hpub (by rw [hlast]) fun q hq => ?_
    exact hcount q fun hq' => hid (ht.lastCommit_inj hq hq')
  committed id' q hq := by
    rw [hlast] at hq
    rw [hcom]
    exact ht.committed id' q hq
  atMostOnce q := by
    by_cases hq : l.lastCommit id = some q
    · exact honce q hq
    · obtain ⟨h1, h2⟩ := hcount q hq
      rw [h1, h2]
      exact ht.atMostOnce q
  uncommitted q hq := by
    rw [hcom] at hq
    obtain ⟨h1, h2⟩ := hcount q fun hl => by
      obtain ⟨u, hu, _⟩ := ht.committed id q hl
      rw [hq] at hu
      cases hu
    rw [h1, h2]
    exact ht.uncommitted q hq
  maker id' e he := by
    have he' := he
    rw [hlookup] at he'
    split_ifs at he' with hid
    obtain ⟨q, hq, hauthor⟩ := ht.maker id' e he'
    exact ⟨q, by rw [hmaker, hq], h.author hi hauthor he⟩
  gone id' hg := by
    rw [hgone] at hg
    rw [hlookup]
    split_ifs with hid
    · rfl
    · rw [Function.update_of_ne hid] at hg
      exact ht.gone id' hg

theorem enter (ht : Traced w l) (h : Move w c w') (hi : w.Inv memory) {id : HtableKey} {e₀ : Entry}
    {r : ℕ} (hlookup : ∀ id', w'.vault.entries.lookup id' =
      if id' = id then some e₀ else w.vault.entries.lookup id')
    (hunpub : ¬ e₀.Published) (hauthor : w'.Author r id) (hcom : w'.committed = w.committed) :
    Traced w' { l with
      maker := Function.update l.maker id (some r)
      gone := Function.update l.gone id false } where
  published id' e he hpub := by
    have he' := he
    rw [hlookup] at he'
    split_ifs at he' with hid
    · cases he'
      exact absurd hpub hunpub
    · exact ht.keep h hi he' he hpub rfl fun _ _ => ⟨rfl, rfl⟩
  committed id' q hq := by rw [hcom]; exact ht.committed id' q hq
  atMostOnce := ht.atMostOnce
  uncommitted q hq := ht.uncommitted q (by rwa [hcom] at hq)
  maker id' e he := by
    have he' := he
    rw [hlookup] at he'
    split_ifs at he' with hid
    · subst hid
      exact ⟨r, Function.update_self _ _ _, hauthor⟩
    · obtain ⟨q, hq, hauthor'⟩ := ht.maker id' e he'
      exact ⟨q, (Function.update_of_ne hid _ _).trans hq, h.author hi hauthor' he⟩
  gone id' hg := by
    have hid : id' ≠ id := by
      rintro rfl
      simp only [Function.update_self] at hg
      cases hg
    simp only [Function.update_of_ne hid] at hg
    rw [hlookup, if_neg hid]
    exact ht.gone id' hg

theorem commit (ht : Traced w l) (h : Move w c w') (hi : w.Inv memory) {r : ℕ} {u : Upload}
    {e₀ e₁ : Entry} (hentry : w.vault.entries.lookup u.id = some e₀)
    (hlookup : ∀ id, w'.vault.entries.lookup id =
      if id = u.id then some e₁ else w.vault.entries.lookup id)
    (hlength : u.body.length = e₁.blk.size)
    (hload : w'.vault.mem.load e₁.blk.data e₁.blk.size = u.body)
    (hold : w.committed r = none) (hnew : w'.committed r = some u) :
    Traced w' { l with lastCommit := Function.update l.lastCommit u.id (some r) } where
  published id e he hpub := by
    have he' := he
    rw [hlookup] at he'
    split_ifs at he' with hid
    · subst hid
      cases he'
      obtain ⟨hr1, hr2⟩ := ht.uncommitted r hold
      exact ⟨r, u, Function.update_self _ _ _, hnew, hlength, hload, hr1, hr2⟩
    · exact ht.keep h hi he' he hpub (Function.update_of_ne hid _ _) fun _ _ => ⟨rfl, rfl⟩
  committed id q hq := by
    rcases of_update_eq_some hq with ⟨rfl, hr⟩ | ⟨-, hq⟩
    · obtain rfl := Option.some_inj.mp hr
      exact ⟨u, hnew, rfl⟩
    · obtain ⟨u', hu', hid'⟩ := ht.committed id q hq
      exact ⟨u', h.committed_mono hi hu', hid'⟩
  atMostOnce := ht.atMostOnce
  uncommitted q hq := by
    refine ht.uncommitted q ?_
    by_contra hne
    obtain ⟨u', hu'⟩ := Option.ne_none_iff_exists'.mp hne
    rw [h.committed_mono hi hu'] at hq
    cases hq
  maker id e he := by
    have he' := he
    rw [hlookup] at he'
    -- there was an entry before, that of `u` or this one
    have hbefore : ∃ e', w.vault.entries.lookup id = some e' := by
      split_ifs at he' with hid
      · exact ⟨e₀, hid ▸ hentry⟩
      · exact ⟨e, he'⟩
    obtain ⟨e', he'⟩ := hbefore
    obtain ⟨q, hq, hauthor⟩ := ht.maker id e' he'
    exact ⟨q, hq, h.author hi hauthor he⟩
  gone id hg := by
    have hid : id ≠ u.id := by
      rintro rfl
      rw [ht.gone _ hg] at hentry
      cases hentry
    rw [hlookup, if_neg hid]
    exact ht.gone id hg

/-- **Every move keeps the ledger true.** -/
theorem move (ht : Traced w l) (h : Move w c w') (hi : w.Inv memory) : Traced w' (l.next c) := by
  cases h with
  | createFail => exact ht
  | queue => exact ht
  | getFail => exact ht
  | @create r size id v blk hup hcom habs hmin hmax hcreate hblk =>
    have hm := Move.create hup hcom habs hmin hmax hcreate hblk
    obtain ⟨_, _, _, _, hlook⟩ := Vault.create_some hcreate hblk
    rw [Ledger.next, if_neg hblk]
    exact ht.enter hm hi hlook (fun hpub => hpub rfl)
      (Or.inl ⟨_, Function.update_self _ _ _, rfl⟩) rfl
  | write hup hfit => exact ht.still (Move.write hup hfit) hi rfl rfl
  | @publish r t u hup hfull =>
    have hm := Move.publish (t := t) hup hfull
    have hload : (w.vault.publish u.id t).1.mem.load u.blk.data u.blk.size = u.body := by
      rw [Vault.publish_mem, ← hfull]
      exact (hi.body r u hup).2
    have hlook : ∀ id, (w.vault.publish u.id t).1.entries.lookup id =
        if id = u.id then some ⟨u.blk, t⟩ else w.vault.entries.lookup id := fun id => by
      rw [Vault.lookup_publish, hi.upload r u hup, Option.map_some]
    exact ht.commit hm hi (hi.upload r u hup) hlook hfull hload (hi.once r u hup)
      (Function.update_self _ _ _)
  | @get r id e he hpub hout =>
    have hm := Move.get he hpub hout
    have hsize := (hi.owned.entry_ok id e he).1.size_ne_zero
    obtain ⟨q, u, hq, _, _, _, h5, h6⟩ := ht.published id e he hpub
    rw [Ledger.next, if_neg hsize]
    refine ht.leave hm hi (fun id' => ?_) rfl rfl rfl rfl
      (fun q' hq' => ⟨Ledger.count_of_ne hq', rfl⟩) fun q' hq' => ?_
    · rw [Vault.get_some _ he hpub]
      change (w.vault.entries.erase id).lookup id' = _
      split_ifs with hid
      · rw [hid, Finmap.lookup_erase]
      · rw [Finmap.lookup_erase_ne hid]
    · obtain rfl : q = q' := Option.some_inj.mp (hq.symm.trans hq')
      change Ledger.count l.handedOut (l.lastCommit id) q + l.reaped q ≤ 1
      rw [hq, Ledger.count_self, h5, h6]
  | @abort r u hup =>
    have hm := Move.abort hup
    refine ht.leave hm hi (fun id' => by rw [← Vault.lookup_abort]) rfl rfl rfl rfl
      (fun _ _ => ⟨rfl, rfl⟩) fun q _ => ht.atMostOnce q
  | free hout => exact ht.still (Move.free hout) hi (by simp) rfl
  | @reap id e he hpub =>
    have hm := Move.reap he hpub
    obtain ⟨q, u, hq, _, _, _, h5, h6⟩ := ht.published id e he hpub
    refine ht.leave hm hi (fun id' => by rw [← Vault.lookup_abort]) rfl rfl rfl rfl
      (fun q' hq' => ⟨rfl, Ledger.count_of_ne hq'⟩) fun q' hq' => ?_
    obtain rfl : q = q' := Option.some_inj.mp (hq.symm.trans hq')
    change l.handedOut q + Ledger.count l.reaped (l.lastCommit id) q ≤ 1
    rw [hq, Ledger.count_self, h5, h6]

theorem moves {calls : List Call} : ∀ {w w' : World} {l : Ledger}, Traced w l → w.Inv memory →
    Moves w calls w' → Traced w' (calls.foldl Ledger.next l) := by
  induction calls with
  | nil =>
    rintro w w' l ht _ rfl
    exact ht
  | cons c calls ih =>
    rintro w w' l ht hi ⟨w₁, hm, hrest⟩
    exact ih (ht.move hm hi) (hi.move hm) hrest

end Traced

end Moves

end Adnihilum
