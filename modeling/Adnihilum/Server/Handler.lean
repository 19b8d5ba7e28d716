import Adnihilum.Server.World

/-!
# The handler moves the world

* `CtxRep`: what a request context says about the upload and the delivery of its request.
* `Handled`: what a call of the handler leaves behind: moves of the world by its own request, a
  store that represents the new world, and a context that does so too.
* **`ahcHandle_spec`**, by branches: `ahcOther_spec`, `ahcGet_spec`, `ahcPostChunk_spec`,
  `ahcPostEnd_spec`.
-/

namespace Adnihilum

open FlatMemory Custody

/-- The id in the path of a request. -/
def requestId (rq : Request) : Option HtableKey :=
  if "/blob/".toList.isPrefixOf rq.url ∧ (rq.url.drop 6).length = idLength then blobId rq.url
  else none

/-- The `Content-Length` of a request, as `ahc` reads it. -/
def contentLength (rq : Request) : Option ℕ := rq.contentLength.map strtoul

/-- The request is an upload of `u`. -/
structure Uploads (rq : Request) (u : Upload) : Prop where
  post : rq.method = "POST".toList
  id : requestId rq = some u.id
  size : contentLength rq = some u.blk.size

/-- What context `c` says about the running upload, the delivery and the committed upload of its
request. While more of the body may come, `got` is what came. -/
structure CtxRep (rq : Request) (receiving : Prop) (got : List UInt8) (c : ReqCtx)
    (up : Option Upload) (out : Option Blk) (com : Option Upload) : Prop where
  idle : up = none → c.postBody = Blk.zero
  post : ∀ u, up = some u → c.postBody = u.blk ∧ c.id = u.id ∧ c.expected = u.blk.size ∧
    c.read = u.body.length ∧ c.deferredError = .noError ∧ c.haveId = true ∧ Uploads rq u
  send : c.blobSend = out.getD Blk.zero
  haveId : c.haveId = true → requestId rq = some c.id
  expected : c.expected ≠ 0 → contentLength rq = some c.expected ∧ blobSizeMin ≤ c.expected ∧
    c.expected ≤ blobSizeMax
  rate : c.rateChecked = true
  open_ : receiving → out = none ∧ com = none ∧
    (up = none → c.read = 0 ∧ (c.deferredError = .noError → got = [])) ∧
    ∀ u, up = some u → u.body = got

/-- The request goes on after the call. -/
def AhcOut.GoesOn (out : AhcOut) (upload : List UInt8) : Prop :=
  out.yes = true ∧ out.calls.any Call.queued = false ∧ upload ≠ []

/-- What a call of the handler leaves behind. -/
structure Handled (memory r : ℕ) (rq : Request) (got upload : List UInt8) (w : World) (out : AhcOut)
    (w' : World) : Prop where
  moves : Moves w out.calls w'
  does : ∀ c ∈ out.calls, c.HandlerOf r
  storage : StorageRep noIds 18 memory out.storage w'.vault
  ctx : CtxRep rq (out.GoesOn upload) (got ++ upload) out.ctx (w'.uploads r) (w'.vault.out r)
    (w'.committed r)
  committed : ∀ u, w'.committed r = some u →
    u.body = got ++ upload ∧ u.body.length = u.blk.size ∧ Uploads rq u

theorem storageBlobsMax_eq : storageBlobsMax = 2 ^ 18 := by decide

theorem CtxRep.close {rq : Request} {receiving : Prop} {got got' : List UInt8} {c : ReqCtx}
    {up com : Option Upload} {out : Option Blk} (h : CtxRep rq receiving got c up out com) :
    CtxRep rq False got' c up out com :=
  ⟨h.idle, h.post, h.send, h.haveId, h.expected, h.rate, False.elim⟩

section Handler

variable {memory r : ℕ} {env : Env} {rq : Request} {s : Storage} {c : ReqCtx} {got upload : List UInt8}
  {w w' : World} {calls : List Call} {pending : ℕ} {resp : Response}

/-! ## Replies -/

theorem sendResponse_handled (hm : Moves w calls w') (ha : ∀ c ∈ calls, c.HandlerOf r)
    (hs : StorageRep noIds 18 memory s w'.vault)
    (hc : CtxRep rq False (got ++ upload) c (w'.uploads r) (w'.vault.out r) (w'.committed r))
    (hcom : ∀ u, w'.committed r = some u →
      u.body = got ++ upload ∧ u.body.length = u.blk.size ∧ Uploads rq u) :
    Handled memory r rq got upload w (sendResponse env r pending s c calls resp) w' := by
  unfold sendResponse
  split_ifs with hcreate
  · refine ⟨hm.append (Moves.single .queue), fun c hc' => ?_, hs, ⟨hc.idle, hc.post, hc.send,
      hc.haveId, hc.expected, hc.rate, fun ⟨hyes, hq, _⟩ => ?_⟩, hcom⟩
    · rcases List.mem_append.mp hc' with hc' | hc'
      · exact ha c hc'
      · rw [List.mem_singleton.mp hc']
        exact ⟨rfl, rfl⟩
    · -- either the response was queued, or the call returns `MHD_NO`
      rw [List.any_append] at hq
      simp only [List.any_cons, List.any_nil, Call.queued, Bool.or_false, Bool.or_eq_false_iff] at hq
      exact absurd hyes (by rw [hq.2]; simp)
  · exact ⟨hm, ha, hs, ⟨hc.idle, hc.post, hc.send, hc.haveId, hc.expected, hc.rate,
      fun ⟨hyes, _, _⟩ => Bool.noConfusion hyes⟩, hcom⟩

theorem drop_handled (hm : Moves w calls w') (ha : ∀ c ∈ calls, c.HandlerOf r)
    (hs : StorageRep noIds 18 memory s w'.vault)
    (hc : CtxRep rq False (got ++ upload) c (w'.uploads r) (w'.vault.out r) (w'.committed r))
    (hcom : ∀ u, w'.committed r = some u →
      u.body = got ++ upload ∧ u.body.length = u.blk.size ∧ Uploads rq u) :
    Handled memory r rq got upload w (drop s c calls) w' :=
  ⟨hm, ha, hs, ⟨hc.idle, hc.post, hc.send, hc.haveId, hc.expected, hc.rate,
    fun ⟨hyes, _, _⟩ => Bool.noConfusion hyes⟩, hcom⟩

/-! ## The branches -/

section Branches

variable (hA : Arena memory) (hi : w.Inv memory) (hs : StorageRep noIds 18 memory s w.vault)
  (hc : CtxRep rq True got c (w.uploads r) (w.vault.out r) (w.committed r))

include hc in
theorem CtxRep.com_none {P : Upload → Prop} (u : Upload) (hu : w.committed r = some u) : P u := by
  rw [(hc.open_ trivial).2.1] at hu
  cases hu

include hi hc in
theorem CtxRep.no_upload (hsize : c.postBody.size = 0) : w.uploads r = none := by
  by_contra h
  obtain ⟨u, hu⟩ := Option.ne_none_iff_exists'.mp h
  rw [(hc.post u hu).1] at hsize
  exact hi.blk_size_ne_zero hu hsize

include hs hc in
theorem ahcNotFound_spec :
    Handled memory r rq got upload w (ahcNotFound env r s c upload) w := by
  unfold ahcNotFound
  split_ifs
  · exact drop_handled rfl (by simp) hs hc.close hc.com_none
  · exact sendResponse_handled rfl (by simp) hs hc.close hc.com_none

include hs hc in
theorem ahcOther_spec : Handled memory r rq got upload w (ahcOther env r rq s c upload) w := by
  have hsend : ∀ resp, Handled memory r rq got upload w
      (sendResponse env r upload.length s c [] resp) w := fun resp =>
    sendResponse_handled rfl (by simp) hs hc.close hc.com_none
  unfold ahcOther
  by_cases hup : upload ≠ []
  · rw [if_pos hup]
    exact drop_handled rfl (by simp) hs hc.close hc.com_none
  · rw [if_neg hup]
    cases if rq.method = "GET".toList then assetFind rq.url else none with
    | some i => exact hsend _
    | none =>
      simp only
      split_ifs
      · exact hsend _
      · exact hsend _
      · exact ahcNotFound_spec hs hc

include hi hs hc in
theorem ahcGet_spec (id : HtableKey) : ∃ out w', ahcGet env r s c upload id = some out ∧
    Handled memory r rq got upload w out w' := by
  by_cases hav : w.vault.Available id
  · obtain ⟨e, he, hpub⟩ := hav
    have hget := Vault.get_some (fun _ => r) he hpub
    obtain ⟨s', hrun, hrep⟩ := storageBlobGet_some hs (by norm_num) he hpub
      (w.vault.get (fun _ => r) id).1 (by rw [hget]) (by rw [hget]) (by rw [hget])
    have hsize := (hi.owned.entry_ok id e he).1.size_ne_zero
    have hm := Move.get he hpub (hc.open_ trivial).1
    refine ⟨_, { w with vault := (w.vault.get (fun _ => r) id).1 }, by rw [ahcGet, hrun]; rfl, ?_⟩
    simp only [if_neg hsize]
    refine sendResponse_handled (Moves.single hm)
      (Call.handlerOf_single ⟨rfl, rfl⟩) hrep ?_ hc.com_none
    refine ⟨hc.idle, hc.post, ?_, hc.haveId, hc.expected, hc.rate, False.elim⟩
    rw [hget]
    simp
  · have hno : w.Unavailable id := fun e he hp => hav ⟨e, he, hp⟩
    refine ⟨_, w, by rw [ahcGet, storageBlobGet_none hs hno]; rfl, ?_⟩
    simp only [show Blk.zero.size = 0 from rfl, if_true]
    exact sendResponse_handled (Moves.single (.getFail hno))
      (Call.handlerOf_single ⟨rfl, rfl⟩) hs hc.close
      hc.com_none

include hi hs hc in
theorem ahcPostEnd_spec (env : Env) (pending : ℕ) :
    ∃ w', Handled memory r rq got [] w (ahcPostEnd env r s c pending) w' := by
  have hstay : ∀ resp, Handled memory r rq got [] w (sendResponse env r pending s c [] resp) w :=
    fun resp => sendResponse_handled rfl (by simp) hs hc.close hc.com_none
  unfold ahcPostEnd
  split_ifs with hdef hbad
  · exact ⟨w, hstay _⟩
  · exact ⟨w, hstay _⟩
  push Not at hbad
  obtain ⟨hsize, hread⟩ := hbad
  cases hup : w.uploads r with
  | none => exact absurd (congrArg Blk.size (hc.idle hup)) hsize
  | some u =>
    obtain ⟨_, hid, hexp, hrd, _, _, hu⟩ := hc.post u hup
    have hfull : u.body.length = u.blk.size := by rw [← hrd, hread, hexp]
    have hm := Move.publish (t := (monotonicNowS env.tvSec + blobTtlS) % 2 ^ 32) hup hfull
    obtain ⟨hret, hrep⟩ := storageBlobPublish_rep hs c.id
      ((monotonicNowS env.tvSec + blobTtlS) % 2 ^ 32)
    have htrue : (w.vault.publish c.id ((monotonicNowS env.tvSec + blobTtlS) % 2 ^ 32)).2 = true := by
      rw [Vault.publish, hid, hi.upload r u hup]
    rw [htrue] at hret
    simp only [hret, if_true]
    rw [hid] at hrep ⊢
    refine ⟨_, sendResponse_handled (Moves.single hm)
      (Call.handlerOf_single ⟨rfl, rfl⟩) hrep ?_ ?_⟩
    · refine ⟨fun _ => rfl, fun u' hu' => ?_, ?_, ?_, hc.expected, hc.rate, False.elim⟩
      · simp at hu'
      · simpa using hc.send
      · rw [← hid]
        exact hc.haveId
    · intro u' hu'
      obtain rfl : u = u' := by simpa using hu'
      exact ⟨by rw [(hc.open_ trivial).2.2.2 u hup, List.append_nil], hfull, hu⟩

/-! ## Receiving a chunk -/

include hi hs hc in
theorem ahcCopy_spec (upload : List UInt8) {w₀ : World} {u : Upload} (hm : Moves w₀ calls w)
    (ha : ∀ c ∈ calls, c.HandlerOf r) (hup : w.uploads r = some u) :
    ∃ w', Handled memory r rq got upload w₀ (ahcCopy r s c calls upload) w' := by
  obtain ⟨hpost, hid, hexp, hrd, hdef, hhave, hu⟩ := hc.post u hup
  obtain ⟨hout, hcom, _, hbody⟩ := hc.open_ trivial
  unfold ahcCopy
  split_ifs with hover
  · exact ⟨w, drop_handled hm ha hs hc.close hc.com_none⟩
  · have hfit : u.body.length + upload.length ≤ u.blk.size := by
      rw [← hrd, ← hexp]
      omega
    rw [hpost, hrd]
    refine ⟨_, hm.append (Moves.single (Move.write hup hfit)), fun c hc' => ?_,
      storeInBlock_rep hs hi.owned (hi.upload r u hup) hfit, ?_, hc.com_none⟩
    · rcases List.mem_append.mp hc' with hc' | hc'
      · exact ha c hc'
      · rw [List.mem_singleton.mp hc']
        exact ⟨rfl, rfl⟩
    · refine ⟨fun h => ?_, fun u' hu' => ?_, hc.send, hc.haveId, hc.expected, hc.rate,
        fun _ => ⟨hout, hcom, fun h => ?_, fun u' hu' => ?_⟩⟩
      · simp at h
      · obtain rfl : { u with body := u.body ++ upload } = u' := by simpa using hu'
        exact ⟨rfl, hid, hexp, by simp, hdef, hhave, ⟨hu.post, hu.id, hu.size⟩⟩
      · simp at h
      · obtain rfl : { u with body := u.body ++ upload } = u' := by simpa using hu'
        simp [hbody u hup]

include hi hc in
theorem ahcExpected_spec {c₁ : ReqCtx} (hexp : ahcExpected rq c = some c₁) :
    CtxRep rq True got c₁ (w.uploads r) (w.vault.out r) (w.committed r) ∧ c₁.expected ≠ 0 ∧
      c₁.haveId = c.haveId ∧ c₁.deferredError = c.deferredError := by
  unfold ahcExpected at hexp
  split_ifs at hexp with h0
  · cases hlen : rq.contentLength with
    | none =>
      rw [hlen] at hexp
      cases hexp
    | some str =>
      rw [hlen] at hexp
      simp only at hexp
      split_ifs at hexp with hmax hrange
      push Not at hrange
      cases hexp
      have hsize : contentLength rq = some (strtoul str) := by rw [contentLength, hlen]; rfl
      have hne : strtoul str ≠ 0 := by
        have := hrange.2
        unfold blobSizeMin at this
        omega
      refine ⟨⟨hc.idle, fun u hu => ?_, hc.send, hc.haveId, fun _ => ⟨hsize, hrange.2, hrange.1⟩,
        hc.rate, hc.open_⟩, hne, rfl, rfl⟩
      -- with a running upload the size is known
      obtain ⟨_, _, hblk, _⟩ := hc.post u hu
      exact absurd (hblk.symm.trans h0) (hi.blk_size_ne_zero hu)
  · cases hexp
    exact ⟨hc, h0, rfl, rfl⟩

include hi hs hc in
theorem ahcPostChunk_spec (hhave : c.haveId = true) (hmethod : rq.method = "POST".toList) :
    ∃ out w', ahcPostChunk r rq s c upload = some out ∧
      Handled memory r rq got upload w out w' := by
  unfold ahcPostChunk
  split_ifs with hdef
  · -- the chunk is skipped
    refine ⟨_, w, rfl, rfl, by simp, hs, ?_, hc.com_none⟩
    obtain ⟨hout, hcom, hread, _⟩ := hc.open_ trivial
    have hnone : ∀ u, w.uploads r ≠ some u := fun u hu => hdef (hc.post u hu).2.2.2.2.1
    exact ⟨hc.idle, hc.post, hc.send, hc.haveId, hc.expected, hc.rate, fun _ => ⟨hout, hcom,
      fun hup => ⟨(hread hup).1, fun h => absurd h hdef⟩, fun u hu => absurd hu (hnone u)⟩⟩
  · push Not at hdef
    cases hexp : ahcExpected rq c with
    | none => exact ⟨_, w, rfl, drop_handled rfl (by simp) hs hc.close hc.com_none⟩
    | some c₁ =>
      obtain ⟨hc₁, hne, hhave₁, hdef₁⟩ := ahcExpected_spec hi hc hexp
      rw [hhave] at hhave₁
      rw [hdef] at hdef₁
      simp only
      split_ifs with hsize htaken
      · -- the id is taken
        obtain ⟨hout, hcom, hread, _⟩ := hc₁.open_ trivial
        have hnone : ∀ u, w.uploads r ≠ some u := fun u hu => by
          rw [hc₁.no_upload hi hsize] at hu
          cases hu
        exact ⟨_, w, rfl, rfl, by simp, hs, ⟨hc₁.idle, fun u hu => absurd hu (hnone u), hc₁.send,
          hc₁.haveId, hc₁.expected, hc₁.rate, fun _ => ⟨hout, hcom, fun hup => ⟨(hread hup).1, by simp⟩,
            fun u hu => absurd hu (hnone u)⟩⟩, hc.com_none⟩
      · -- a new entry
        obtain ⟨hout, hcom, hread, _⟩ := hc₁.open_ trivial
        have hup := hc₁.no_upload hi hsize
        obtain ⟨hread0, hgot⟩ := hread hup
        have habs : w.vault.entries.lookup c₁.id = none := by
          rw [hs.isAlreadyTaken, Option.isSome_iff_ne_none] at htaken
          exact not_not.mp htaken
        obtain ⟨hlen, hmin, hmax⟩ := hc₁.expected hne
        obtain ⟨s', hrun, hrep⟩ := storageBlobCreate_rep hs hmin hmax habs
        rw [← storageBlobsMax_eq] at hrun hrep
        rw [hrun, Option.map_some]
        by_cases hzero : (w.vault.create storageBlobsMax c₁.id c₁.expected).2.size = 0
        · -- no block
          have hfail := Vault.create_none hne hzero
          rw [hfail] at hrep ⊢
          refine ⟨_, w, rfl, ?_⟩
          simp only
          rw [if_pos (show Blk.zero.size = 0 from rfl)]
          exact ⟨Moves.single .createFail, Call.handlerOf_single ⟨rfl, rfl⟩,
            hrep, ⟨fun _ => rfl, fun u hu => absurd (hup.symm.trans hu) (by simp),
            hc₁.send, hc₁.haveId, hc₁.expected, hc₁.rate,
            fun _ => ⟨hout, hcom, fun _ => ⟨hread0, by simp⟩,
              fun u hu => absurd (hup.symm.trans hu) (by simp)⟩⟩, hc.com_none⟩
        · rcases hcr : w.vault.create storageBlobsMax c₁.id c₁.expected with ⟨v, blk⟩
          rw [hcr] at hzero hrep
          simp only at hzero hrep ⊢
          rw [if_neg hzero]
          obtain ⟨hblk, _, _, hvout, _⟩ := Vault.create_some hcr hzero
          have hm := Move.create hup hcom habs hmin hmax hcr hzero
          set w₁ : World := { w with
            vault := v
            uploads := Function.update w.uploads r (some ⟨c₁.id, blk, []⟩) } with hw₁
          have hup₁ : w₁.uploads r = some ⟨c₁.id, blk, []⟩ := Function.update_self _ _ _
          have hc₂ : CtxRep rq True got { c₁ with postBody := blk } (w₁.uploads r)
              (w₁.vault.out r) (w₁.committed r) := by
            have hout₁ : w₁.vault.out r = w.vault.out r := congrFun hvout r
            rw [hup₁, hout₁]
            refine ⟨fun h => (by cases h), fun u hu => ?_, hc₁.send, hc₁.haveId, hc₁.expected, hc₁.rate,
              fun _ => ⟨hout, hcom, fun h => (by cases h), fun u hu => ?_⟩⟩
            · cases hu
              exact ⟨rfl, rfl, hblk.symm, hread0, hdef₁, hhave₁,
                ⟨hmethod, hc₁.haveId hhave₁, by rw [hlen, hblk]⟩⟩
            · cases hu
              exact (hgot hdef₁).symm
          obtain ⟨w', hw'⟩ := ahcCopy_spec (hi.move hm) hrep hc₂ upload
            (Moves.single hm) (Call.handlerOf_single ⟨rfl, rfl⟩) hup₁
          exact ⟨_, w', rfl, hw'⟩
      · -- a running upload
        have hup : ∃ u, w.uploads r = some u := by
          refine Option.ne_none_iff_exists'.mp fun h => hsize ?_
          rw [hc₁.idle h]
          rfl
        obtain ⟨u, hu⟩ := hup
        obtain ⟨w', hw'⟩ := ahcCopy_spec hi hs hc₁ upload (show Moves w [] w from rfl)
          (by simp) hu
        exact ⟨_, w', rfl, hw'⟩

/-! ## The whole handler -/

include hi hs hc in
theorem ahcPost_spec {id : HtableKey} (hid : requestId rq = some id)
    (hmethod : rq.method = "POST".toList) : ∃ out w', ahcPost env r rq s c upload id = some out ∧
      Handled memory r rq got upload w out w' := by
  unfold ahcPost
  by_cases hother : c.haveId = true ∧ c.id ≠ id
  · rw [if_pos (by simpa using hother)]
    exact ⟨_, w, rfl, drop_handled rfl (by simp) hs hc.close hc.com_none⟩
  rw [if_neg (by simpa using hother)]
  -- the context with its id
  have hc' : CtxRep rq True got (if c.haveId = true then c else { c with id := id, haveId := true })
      (w.uploads r) (w.vault.out r) (w.committed r) := by
    split_ifs with hhave
    · exact hc
    · refine ⟨hc.idle, fun u hu => absurd (hc.post u hu).2.2.2.2.2.1 hhave, hc.send,
        fun _ => hid, hc.expected, hc.rate, hc.open_⟩
  have hhave' : (if c.haveId = true then c else { c with id := id, haveId := true }).haveId = true := by
    split_ifs with hhave
    · exact hhave
    · rfl
  by_cases hup : upload ≠ []
  · simp only [if_pos hup]
    exact ahcPostChunk_spec hi hs hc' hhave' hmethod
  · obtain rfl : upload = [] := not_not.mp hup
    simp only [if_neg hup]
    obtain ⟨w', hw'⟩ := ahcPostEnd_spec hi hs hc' env 0
    exact ⟨_, w', rfl, hw'⟩

include hi hs hc in
/-- **A call of the handler moves the world.** -/
theorem ahcHandle_spec : ∃ out w', ahcHandle env r rq s c upload = some out ∧
    Handled memory r rq got upload w out w' := by
  unfold ahcHandle
  by_cases hblob : "/blob/".toList.isPrefixOf rq.url = true
  · rw [if_neg (by simpa using hblob)]
    by_cases hlen : (rq.url.drop 6).length = idLength
    · rw [if_pos hlen]
      cases hid : blobId rq.url with
      | none => exact ⟨_, w, rfl, drop_handled rfl (by simp) hs hc.close hc.com_none⟩
      | some id =>
        have hreq : requestId rq = some id := by rw [requestId, if_pos ⟨hblob, hlen⟩, hid]
        simp only
        split_ifs with hget hpost
        · exact ahcGet_spec hi hs hc id
        · exact ahcPost_spec hi hs hc hreq hpost
        · exact ⟨_, w, rfl, ahcNotFound_spec hs hc⟩
    · rw [if_neg hlen]
      exact ⟨_, w, rfl, ahcNotFound_spec hs hc⟩
  · rw [if_pos (by simpa using hblob)]
    exact ⟨_, w, rfl, ahcOther_spec hs hc⟩

include hi hs hc in
theorem ahcCtx_spec (env : Env) (upload : List UInt8) :
    ∃ out w', ahcCtx env r rq false s c upload = some out ∧
    Handled memory r rq got upload w out w' := by
  have hc' : CtxRep rq True got { c with rateChecked := true } (w.uploads r) (w.vault.out r)
      (w.committed r) :=
    ⟨hc.idle, hc.post, hc.send, hc.haveId, hc.expected, rfl, hc.open_⟩
  unfold ahcCtx
  simp only [Bool.false_eq_true, if_false]
  split_ifs
  · exact ⟨_, w, rfl, sendResponse_handled rfl (by simp) hs hc'.close hc'.com_none⟩
  · exact ahcHandle_spec hi hs hc'

end Branches

theorem ahcCtx_first (env : Env) (r : ℕ) (rq : Request) (s : Storage) :
    ∃ out, ahcCtx env r rq true s ReqCtx.zero [] = some out ∧ out.storage = s ∧
    out.ctx = { ReqCtx.zero with rateChecked := true } ∧
    (out.calls = [] ∨ ∃ resp, out.calls = [.queue r 0 resp env.queueOk] ∧ out.yes = env.queueOk) := by
  unfold ahcCtx
  simp only [if_true]
  split_ifs
  · refine ⟨_, rfl, ?_⟩
    unfold sendText sendResponse
    split_ifs
    · exact ⟨rfl, rfl, Or.inr ⟨_, rfl, rfl⟩⟩
    · exact ⟨rfl, rfl, Or.inl rfl⟩
  · exact ⟨_, rfl, rfl, rfl, Or.inl rfl⟩

end Handler

end Adnihilum
