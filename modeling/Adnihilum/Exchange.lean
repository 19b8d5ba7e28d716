import Adnihilum.Client.Authentic
import Adnihilum.Server.BlobId
import Adnihilum.Server.Delivery

/-!
# From the sender to the receiver, through the server

The pages and the server together. The sender posts a blob and passes the link on; others use the
server at the same time, also with the same id, and the reaper runs.

* `sealedBlob_inj`: a blob has one content under one password.
* **`exchange`**: the receiver who is handed a block gets the bytes that were sent, or nothing, and
  gets them exactly if the block is from the sender's upload.
-/

namespace Adnihilum

open FlatMemory Custody Client

section Blobs

variable {c : WebCrypto} {payload shown key nonce nonce' salt salt' : List UInt8}
  {passwordValue usedPassword id : List Char}

theorem tagBytes_inj (h : tagBytes usedPassword = tagBytes passwordValue) :
    usedPassword = [] ↔ passwordValue = [] := by
  unfold tagBytes at h
  by_cases h₁ : usedPassword = [] <;> by_cases h₂ : passwordValue = [] <;> simp_all [blobTypeText,
    blobTypePassword]

/-- **A blob has one content** under a password or none. -/
theorem sealedBlob_inj (hc : c.Lawful) (hnonce : nonce.length = nonceSize)
    (hnonce' : nonce'.length = nonceSize) (hsalt : salt.length = saltSize)
    (hsalt' : salt'.length = saltSize) (hused : usedPassword = [] ∨ usedPassword = passwordValue)
    (h : sealedBlob c id shown usedPassword key nonce' salt' =
      sealedBlob c id payload passwordValue key nonce salt) : shown = payload := by
  unfold sealedBlob at h
  obtain ⟨hhead, hcipher⟩ := List.append_inj h (by
    rw [List.length_append, List.length_append, hnonce, hnonce', hsalt, hsalt'])
  obtain ⟨rfl, rfl⟩ := List.append_inj hhead (hnonce'.trans hnonce.symm)
  have hplain := congrArg (c.decrypt key nonce' (idAad id)) hcipher
  rw [hc.decrypt_encrypt, hc.decrypt_encrypt, Except.ok.injEq] at hplain
  have hlen : ∀ pw : List Char, (tagBytes pw).length = 2 := fun pw => by
    unfold tagBytes
    split_ifs <;> rfl
  obtain ⟨htag, hwrap⟩ := List.append_inj hplain ((hlen _).trans (hlen _).symm)
  have hiff := tagBytes_inj htag
  have hsame : usedPassword = passwordValue := by
    rcases hused with hnil | hsame
    · rw [hnil, hiff.mp hnil]
    · exact hsame
  subst hsame
  unfold wrapPayload at hwrap
  split_ifs at hwrap
  · exact hwrap
  · have hpayload := congrArg (c.decrypt (derivePasswordKey c usedPassword salt') nonce' (idAad id)) hwrap
    rwa [hc.decrypt_encrypt, hc.decrypt_encrypt, Except.ok.injEq] at hpayload

end Blobs

theorem requestId_congr {rq rq' : Request} (h : rq.url = rq'.url) : requestId rq = requestId rq' := by
  unfold requestId
  rw [h]

/-- The path of the secret with this key and this salt. -/
def secretPath (c : WebCrypto) (key salt : List UInt8) : List Char :=
  "/blob/".toList ++ bytesToHex (deriveIdFromKeyAndSalt c key salt)

section Exchange

variable {requests : ℕ → Request} {mallocated : ℕ} {S : Server} {pre mid : Trace} {ev : Event}
  {before after : List Call} {p g : ℕ} {id : HtableKey} {blk : Blk} {w w' : Web}
  {payload key nonce salt : List UInt8} {passwordValue hash origin : List Char} {post : Post}
  {info : LinkInfo} {fetch : List Char → Except JsError Client.Response} {res : Client.Response}

/-- **The exchange of a secret.** The sending page makes a blob and posts it as request `p`; request
`g` of the receiving page, which has the link, is handed a block. Nobody else uploads, to this id, a
blob made with the key of the link. Then the receiver gets the bytes of the payload exactly if the
last upload committed to the id is the sender's, and nothing otherwise, whatever else happens at the
server. -/
theorem exchange (hA : Arena (serverArena mallocated))
    (hrun : Run requests (serverInit mallocated)
      (pre ++ (ev, before ++ .get g id blk :: after) :: mid) S)
    (hblk : blk.size ≠ 0) (hmid : ∀ p ∈ mid, p.1 ≠ .reqDone g)
    (hlawful : w.crypto.Lawful) (hauth : w.crypto.Authentic) (hcrypto : w'.crypto = w.crypto)
    (hsend : sendSecret w payload passwordValue key nonce salt = .ok (.post post))
    (hnonce : nonce.length = nonceSize) (hsalt : salt.length = saltSize)
    (hspells : Spells w' hash info (deriveIdFromKeyAndSalt w.crypto key salt) key)
    (hcanonical : info.id = base64UrlEncode (deriveIdFromKeyAndSalt w.crypto key salt))
    (hp : (requests p).url = secretPath w.crypto key salt)
    (hlen : contentLength (requests p) = some post.blob.length)
    (hbody : received p (pre ++ (ev, before ++ .get g id blk :: after) :: mid) <+: post.blob)
    (hg : (requests g).url = secretPath w.crypto key salt)
    (hothers : ∀ q, q ≠ p → requestId (requests q) = requestId (requests p) →
      ∀ shown pw n s, n.length = nonceSize → s.length = saltSize →
        received q (pre ++ (ev, before ++ .get g id blk :: after) :: mid) ≠
          secretBlob w.crypto shown pw key n s)
    (horigin : getOrigin w' = .ok origin)
    (hfetch : fetch (normalizeOrigin origin ++ secretPath w.crypto key salt) = .ok res)
    (hok : res.ok = true) (hres : res.body = S.storage.mem.load blk.data blk.size)
    (shown : List UInt8) :
    displayed w' fetch hash passwordValue = some shown ↔
      shown = payload ∧ (Ledger.of (callsOf pre ++ before)).lastCommit id = some p := by
  obtain ⟨⟨-, hidg⟩, q, hlast, -, -, -, hidq, hlenq, hload⟩ := hrun.delivered hA hblk hmid
  rw [secretPath, ← List.append_assoc] at hfetch
  -- both pages ask for one id
  have hidp : requestId (requests q) = requestId (requests p) := by
    rw [hidq, ← hidg]
    exact requestId_congr (hg.trans hp.symm)
  -- the sender's upload is the blob
  have hblob := sendSecret_post hsend
  have hown : q = p → S.storage.mem.load blk.data blk.size = post.blob := by
    rintro rfl
    rw [hload]
    refine hbody.eq_of_length ?_
    rw [← hload, Mem.length_load]
    exact Option.some_inj.mp (hlenq.symm.trans hlen)
  have hsealed : ∀ m pw n s, deriveIdFromKeyAndSalt w.crypto key s =
      deriveIdFromKeyAndSalt w.crypto key salt → sealedBlob w'.crypto info.id m pw key n s =
        secretBlob w.crypto m pw key n s := by
    intro m pw n s hid
    rw [hcrypto, hcanonical, ← hid, sealedBlob_encode]
  rw [displayed_iff (hcrypto ▸ hlawful) (hcrypto ▸ hauth) hspells horigin]
  constructor
  · rintro ⟨res', n, s, used, hfetch', -, hn, hs, hid, hused, hshown⟩
    obtain rfl : res = res' := Except.ok.inj (hfetch.symm.trans hfetch')
    rw [hcrypto] at hid
    rw [hres] at hshown
    have hq : q = p := by
      by_contra hne
      refine hothers q hne hidp shown used n s hn hs ?_
      rw [← hload, hshown, hsealed _ _ _ _ hid]
    refine ⟨?_, hq ▸ hlast⟩
    rw [hown hq, hblob, ← hsealed payload passwordValue nonce salt rfl] at hshown
    exact sealedBlob_inj (hcrypto ▸ hlawful) hnonce hn hsalt hs hused hshown.symm
  · rintro ⟨rfl, hlast'⟩
    have hq : q = p := Option.some_inj.mp (hlast.symm.trans hlast')
    refine ⟨res, nonce, salt, passwordValue, hfetch, hok, hnonce, hsalt, by rw [hcrypto], Or.inr rfl, ?_⟩
    rw [hres, hown hq, hblob, hsealed _ _ _ _ rfl]

end Exchange

/-! ## The demo secret on its way -/

/-- The demo secret is posted and asked for. -/
def demoRequests (r : ℕ) : Request :=
  if r = 0 then ⟨secretPath plainCrypto demoKey demoSalt, "POST".toList, some "64".toList, none⟩
  else ⟨secretPath plainCrypto demoKey demoSalt, "GET".toList, none, none⟩

/-- What is posted for the text `hi` under the password `pw`. -/
def demoBlob : List UInt8 := (demoResponse "pw".toList).body

theorem demo_sends : ∃ post, sendSecret demoWeb [104, 105] "pw".toList demoKey demoNonce demoSalt =
    .ok (.post post) ∧ post.blob = demoBlob := by
  rw [sendSecret_eq demoWeb_origin (List.cons_ne_nil _ _)]
  simp only
  rw [length_secretBlob _ _ _ plainCrypto_lawful rfl rfl, if_neg (by decide)]
  exact ⟨_, rfl, rfl⟩

theorem length_demoBlob : demoBlob.length = 64 :=
  length_secretBlob (w := demoWeb) _ _ _ plainCrypto_lawful rfl rfl

/-- The bytes of the text arrive in the end. -/
theorem exchange_demo : ∃ (tr : Trace) (S : Server) (blk : Blk),
    Run demoRequests (serverInit 4096) tr S ∧
      displayed demoWeb (fun _ => .ok ⟨200, [], S.storage.mem.load blk.data blk.size⟩) demoHash
        "pw".toList = some [104, 105] := by
  obtain ⟨post, hsend, hpost⟩ := demo_sends
  have hidp : requestId (demoRequests 0) = some (keyOfBytes demoId) := by decide +kernel
  have hidg : requestId (demoRequests 1) = some (keyOfBytes demoId) := by decide +kernel
  have hlen : contentLength (demoRequests 0) = some demoBlob.length := by
    rw [length_demoBlob]
    decide
  obtain ⟨S, blk, hblk, -, hrun⟩ := @upload_then_fetch demoRequests 4096 (keyOfBytes demoId) demoBlob
    arena_4096 0 1 zero_ne_one [] goodEnv goodEnv goodEnv rfl hidp hlen
    (by rw [length_demoBlob]; decide) (by rw [length_demoBlob]; decide) rfl hidg rfl (by decide)
  have hrun' : Run demoRequests (serverInit 4096)
      ([(.ahc 1 [] goodEnv, []), (.ahc 0 [] goodEnv, []),
        (.ahc 0 demoBlob goodEnv,
          [.create 0 (keyOfBytes demoId) demoBlob.length blk, .write 0 blk.data demoBlob]),
        (.ahc 0 [] goodEnv, .publish 0 (keyOfBytes demoId)
          ((monotonicNowS goodEnv.tvSec + blobTtlS) % 2 ^ 32) true ::
            sendCalls goodEnv 0 0 (publishResponse true))] ++
        (.ahc 1 [] goodEnv, [] ++ .get 1 (keyOfBytes demoId) blk ::
          sendCalls goodEnv 1 0 (blobResponse blk)) :: []) S := hrun
  have hsize : blk.size ≠ 0 := by
    rw [hblk, length_demoBlob]
    decide
  refine ⟨_, S, blk, hrun', ?_⟩
  refine (exchange arena_4096 hrun' hsize (by simp) plainCrypto_lawful plainCrypto_authentic rfl hsend rfl
    rfl demo_spells rfl rfl (by rw [hpost]; exact hlen) ?_ rfl ?_ demoWeb_origin rfl rfl rfl _).mpr
    ⟨rfl, ?_⟩
  · rw [hpost]
    simp [received, sendCalls]
  · intro q hq _ shown pw n s hn hs heq
    have hlength := congrArg List.length heq
    rw [length_secretBlob (w := demoWeb) _ _ _ plainCrypto_lawful hn hs] at hlength
    simp [received, Ne.symm hq] at hlength
    omega
  · simp [callsOf, Ledger.of, Ledger.next, sendCalls, goodEnv, hsize]

end Adnihilum
