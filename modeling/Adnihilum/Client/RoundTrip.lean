import Adnihilum.Client.Receive
import Adnihilum.Storage.Vault

/-!
# From the sending page to the receiving page

What `sendSecret` posts and links to, `tryToReceiveSecret` opens.

* `sendSecret_eq`: the post of an upload that is not too large.
* `tryToReceiveSecret_of_parts`: what the receiving page makes of a blob that was cut and opened.
* **`send_receive_round_trip`**: sizes, link, blob and password layer agree on both sides.
-/

namespace Adnihilum.Client

variable {w w' : Web} {payload keyBytes nonce salt idBytes : List UInt8}
  {passwordValue origin : List Char}

/-- The payload, under the password when there is one. -/
def wrapPayload (c : WebCrypto) (passwordValue : List Char) (salt nonce aad payload : List UInt8) :
    List UInt8 :=
  if passwordValue = [] then payload
  else c.encrypt (derivePasswordKey c passwordValue salt) nonce aad payload

/-- The type tag, by whether there is a password. -/
def tagBytes (passwordValue : List Char) : List UInt8 :=
  if passwordValue = [] then blobTypeText else blobTypePassword

/-- The blob of `sendSecret`. -/
def secretBlob (c : WebCrypto) (payload : List UInt8) (passwordValue : List Char)
    (keyBytes nonce salt : List UInt8) : List UInt8 :=
  let aad := idAad (base64UrlEncode (deriveIdFromKeyAndSalt c keyBytes salt))
  nonce ++ salt ++ c.encrypt keyBytes nonce aad
    (tagBytes passwordValue ++ wrapPayload c passwordValue salt nonce aad payload)

theorem sendSecret_eq (horigin : getOrigin w = .ok origin) (hpayload : payload ≠ []) :
    sendSecret w payload passwordValue keyBytes nonce salt =
      let idBytes := deriveIdFromKeyAndSalt w.crypto keyBytes salt
      let blob := secretBlob w.crypto payload passwordValue keyBytes nonce salt
      if sharedBlobSizeMax - 100 < blob.length then .ok .tooLarge
      else .ok (.post ⟨normalizeOrigin origin ++ "/blob/".toList ++ bytesToHex idBytes, blob, origin,
        idBytes, keyBytes⟩) := by
  have hwrap : secretBlob w.crypto payload passwordValue keyBytes nonce salt =
      nonce ++ salt ++ w.crypto.encrypt keyBytes nonce
        (idAad (base64UrlEncode (deriveIdFromKeyAndSalt w.crypto keyBytes salt)))
        ((if (!passwordValue.isEmpty) = true then blobTypePassword else blobTypeText) ++
          if (!passwordValue.isEmpty) = true then
            w.crypto.encrypt (derivePasswordKey w.crypto passwordValue salt) nonce
              (idAad (base64UrlEncode (deriveIdFromKeyAndSalt w.crypto keyBytes salt))) payload
          else payload) := by
    cases passwordValue <;> rfl
  simp only [sendSecret, horigin, hwrap, if_neg hpayload, bind, Except.bind]
  split_ifs <;> rfl

variable (payload keyBytes passwordValue) in
theorem length_secretBlob (hc : w.crypto.Lawful) (hnonce : nonce.length = nonceSize)
    (hsalt : salt.length = saltSize) :
    (secretBlob w.crypto payload passwordValue keyBytes nonce salt).length =
      46 + payload.length + if passwordValue = [] then 0 else 16 := by
  have htag : (tagBytes passwordValue).length = 2 := by
    unfold tagBytes
    split_ifs <;> rfl
  rw [secretBlob]
  simp only [List.length_append, hc.length_encrypt, htag, hnonce, hsalt, wrapPayload, nonceSize,
    saltSize]
  split_ifs
  · omega
  · rw [hc.length_encrypt]
    omega

theorem blobParts_append {ciphertext : List UInt8} (hnonce : nonce.length = nonceSize)
    (hsalt : salt.length = saltSize) (hlen : blobTypeSize < ciphertext.length) :
    blobParts (nonce ++ salt ++ ciphertext) = .ok ⟨nonce, salt, ciphertext⟩ := by
  have htake : (nonce ++ salt ++ ciphertext).take nonceSize = nonce := by
    rw [List.append_assoc, List.take_left' hnonce]
  have hdrop : (nonce ++ salt ++ ciphertext).drop nonceSize = salt ++ ciphertext := by
    rw [List.append_assoc, List.drop_left' hnonce]
  have hrest : (nonce ++ salt ++ ciphertext).drop (nonceSize + saltSize) = ciphertext :=
    List.drop_left' (by rw [List.length_append, hnonce, hsalt])
  rw [blobParts, if_neg, htake, hdrop, hrest, List.take_left' hsalt]
  simp only [List.length_append, hnonce, hsalt]
  omega

theorem setLink_encode (hkey : keyBytes.length = keySize) (hid : idBytes.length = idSize)
    (horigin : origin ≠ []) :
    setLink origin (base64UrlEncode idBytes) (base64UrlEncode keyBytes) =
      some (normalizeOrigin origin ++ "/receive#".toList ++ base64UrlEncode idBytes ++ ['/'] ++
        base64UrlEncode keyBytes) :=
  setLink_of_decode horigin (base64UrlDecode_encode _) hid (base64UrlDecode_encode _) hkey

theorem receiveTarget_of_decode {info : LinkInfo} (horigin : getOrigin w = .ok origin)
    (hkey : base64UrlDecode info.bK = .ok keyBytes) (hkeylen : keyBytes.length = keySize)
    (hid : base64UrlDecode info.id = .ok idBytes) (hidlen : idBytes.length = idSize) :
    receiveTarget w info =
      .ok ⟨info.id, keyBytes, idBytes,
        normalizeOrigin origin ++ "/blob/".toList ++ bytesToHex idBytes⟩ := by
  simp only [receiveTarget, horigin, hkey, hid, hkeylen, hidlen, bind, Except.bind]
  rfl

theorem tryToReceiveSecret_of_parts {info : LinkInfo} {hash : List Char} {res : Response}
    {fetch : List Char → Except JsError Response} {b : BlobParts}
    (hhash : parseLocationHash w hash = some info) (horigin : getOrigin w = .ok origin)
    (hkey : base64UrlDecode info.bK = .ok keyBytes) (hkeylen : keyBytes.length = keySize)
    (hid : base64UrlDecode info.id = .ok idBytes) (hidlen : idBytes.length = idSize)
    (hfetch : fetch (normalizeOrigin origin ++ "/blob/".toList ++ bytesToHex idBytes) = .ok res)
    (hok : res.ok = true) (hparts : blobParts res.body = .ok b) :
    tryToReceiveSecret w fetch hash = some (do
      checkId ⟨info.id, keyBytes, idBytes,
        normalizeOrigin origin ++ "/blob/".toList ++ bytesToHex idBytes⟩
        (deriveIdFromKeyAndSalt w.crypto keyBytes b.salt)
      let plaintextBytes ← w.crypto.decrypt keyBytes b.nonce (idAad info.id) b.ciphertext
      openPayload info.id b plaintextBytes) := by
  rw [tryToReceiveSecret, hhash, Option.map_some]
  simp only [receiveTarget_of_decode horigin hkey hkeylen hid hidlen, hfetch, hok, hparts, bind,
    Except.bind, Bool.not_true, Bool.false_eq_true, if_false]

theorem checkId_of_eq {t : Target} (h : t.idBytes = idBytes) : checkId t idBytes = .ok () := by
  rw [checkId, h, if_pos]
  simp [equal16B]

theorem openPayload_tagBytes (id : List Char) (b : BlobParts) :
    openPayload id b (tagBytes passwordValue ++ payload) =
      .ok (if passwordValue = [] then .text payload else .pending ⟨id, b.nonce, b.salt, payload⟩) := by
  unfold tagBytes
  split_ifs <;> rfl

theorem tryToReceiveSecret_secretBlob (hw : w.Lawful) (horigin : getOrigin w = .ok origin)
    (hkey : keyBytes.length = keySize) (hnonce : nonce.length = nonceSize)
    (hsalt : salt.length = saltSize) {hash : List Char} {fetch : List Char → Except JsError Response}
    {res : Response}
    (hid : idBytes = deriveIdFromKeyAndSalt w.crypto keyBytes salt)
    (hhash : parseLocationHash w hash = some ⟨base64UrlEncode idBytes, base64UrlEncode keyBytes⟩)
    (hfetch : fetch (normalizeOrigin origin ++ "/blob/".toList ++ bytesToHex idBytes) = .ok res)
    (hok : res.ok = true)
    (hbody : res.body = secretBlob w.crypto payload passwordValue keyBytes nonce salt) :
    tryToReceiveSecret w fetch hash = some (.ok
      (let inner := wrapPayload w.crypto passwordValue salt nonce (idAad (base64UrlEncode idBytes))
        payload
      if passwordValue = [] then .text inner
      else .pending ⟨base64UrlEncode idBytes, nonce, salt, inner⟩)) := by
  have hlen : idBytes.length = idSize := by
    rw [hid]
    exact hw.crypto.length_deriveBits _ _ _ _
  have hparts : blobParts res.body = .ok ⟨nonce, salt, w.crypto.encrypt keyBytes nonce
      (idAad (base64UrlEncode idBytes)) (tagBytes passwordValue ++ wrapPayload w.crypto passwordValue
        salt nonce (idAad (base64UrlEncode idBytes)) payload)⟩ := by
    rw [hbody, hid]
    apply blobParts_append hnonce hsalt
    rw [hw.crypto.length_encrypt, blobTypeSize]
    omega
  rw [tryToReceiveSecret_of_parts hhash horigin (base64UrlDecode_encode _) hkey
    (base64UrlDecode_encode _) hlen hfetch hok hparts]
  simp only [← hid, checkId_of_eq, hw.crypto.decrypt_encrypt, openPayload_tagBytes, bind, Except.bind]

/-- **A secret survives the way from page to page.** Unless `sendSecret` finds it too large, the
blob has a size that the server accepts, a link is made, and the receiving page that fetches this
blob under this link has the payload: at once without a password, with the same password otherwise.
-/
theorem send_receive_round_trip (hw : w.Lawful) (hw' : w'.Lawful) (hcrypto : w'.crypto = w.crypto)
    (horigin : getOrigin w = .ok origin) (horigin' : getOrigin w' = .ok origin)
    (hpayload : payload ≠ []) (hkey : keyBytes.length = keySize) (hnonce : nonce.length = nonceSize)
    (hsalt : salt.length = saltSize)
    (hsend : sendSecret w payload passwordValue keyBytes nonce salt ≠ .ok .tooLarge) :
    ∃ post link, sendSecret w payload passwordValue keyBytes nonce salt = .ok (.post post) ∧
      blobSizeMin ≤ post.blob.length ∧ post.blob.length ≤ blobSizeMax ∧
      (∀ res, res.ok = true → sendSecretAnswered w post res = .ok (some link)) ∧
      ∀ fetch res, fetch post.url = .ok res → res.ok = true → res.body = post.blob →
        (passwordValue = [] →
          tryToReceiveSecret w' fetch (locationHash link) = some (.ok (.text payload))) ∧
        (passwordValue ≠ [] → ∃ pending,
          tryToReceiveSecret w' fetch (locationHash link) = some (.ok (.pending pending)) ∧
          decryptPending w' pending passwordValue = .ok payload) := by
  have hsize := length_secretBlob payload keyBytes passwordValue hw.crypto hnonce hsalt
  have hpos := List.length_pos_of_ne_nil hpayload
  have hlen : (deriveIdFromKeyAndSalt w.crypto keyBytes salt).length = idSize :=
    hw.crypto.length_deriveBits _ _ _ _
  obtain ⟨hne, hsharp⟩ := getOrigin_ok hw horigin
  rw [sendSecret_eq horigin hpayload] at hsend ⊢
  simp only at hsend ⊢
  by_cases hlarge : sharedBlobSizeMax - 100 <
    (secretBlob w.crypto payload passwordValue keyBytes nonce salt).length
  · rw [if_pos hlarge] at hsend
    exact absurd rfl hsend
  rw [if_neg hlarge]
  refine ⟨_, normalizeOrigin origin ++ "/receive#".toList ++
    base64UrlEncode (deriveIdFromKeyAndSalt w.crypto keyBytes salt) ++ ['/'] ++
      base64UrlEncode keyBytes, rfl, ?_, ?_, ?_, ?_⟩
  · show blobSizeMin ≤ (secretBlob w.crypto payload passwordValue keyBytes nonce salt).length
    rw [hsize, blobSizeMin]
    omega
  · show (secretBlob w.crypto payload passwordValue keyBytes nonce salt).length ≤ blobSizeMax
    have : sharedBlobSizeMax ≤ blobSizeMax := by decide
    omega
  · intro res hok
    rw [sendSecretAnswered, hok]
    exact congrArg Except.ok (setLink_encode hkey hlen hne)
  · intro fetch res hfetch hok hbody
    have hhash := parseLocationHash_link hw' hsharp (fun c => isIdChar_of_mem_encode)
      (by rw [length_base64UrlEncode, hlen]; decide) (fun c => isIdChar_of_mem_encode)
      (List.ne_nil_of_length_pos (by rw [length_base64UrlEncode, hkey]; decide))
    have hreceive := tryToReceiveSecret_secretBlob hw' horigin' hkey hnonce hsalt
      (by rw [hcrypto]) hhash hfetch hok (hbody.trans (by rw [hcrypto]))
    refine ⟨?_, ?_⟩
    · rintro rfl
      exact hreceive
    · intro hpassword
      rw [hreceive]
      simp only [if_neg hpassword]
      refine ⟨_, rfl, ?_⟩
      rw [decryptPending, wrapPayload, if_neg hpassword]
      exact hw'.crypto.decrypt_encrypt _ _ _ _

/-! ## A browser to try it on -/

/-- Sixteen bytes that depend on all the arguments of `encrypt`. -/
def plainTag (key iv aad m : List UInt8) : List UInt8 :=
  let h := (key ++ iv ++ aad ++ m).foldl (fun h b => 257 * h + b.toNat + 1) 0
  (List.range 16).map fun i => .ofNat (h / 256 ^ i)

/-- A cryptography that authenticates without hiding anything. -/
def plainCrypto : WebCrypto where
  deriveBits key salt info n := (List.range (n / 8)).map fun i => (key ++ salt ++ info).getD i 0
  deriveKey password salt _ := password ++ salt
  encrypt key iv aad m := m ++ plainTag key iv aad m
  decrypt key iv aad c :=
    let m := c.take (c.length - 16)
    if c.drop (c.length - 16) = plainTag key iv aad m then .ok m
    else .error ⟨"OperationError".toList, []⟩

/-- A page at `https://a`. -/
def demoWeb : Web where
  crypto := plainCrypto
  protocol := "https:".toList
  origin := "https://a".toList
  newUrl s :=
    if s = "https://a".toList then
      some ⟨"https:".toList, [], [], ['a'], ['/'], [], [], "https://a".toList⟩
    else none
  decode bytes := bytes.map fun b => Char.ofNat b.toNat
  i18n key := key.toList

theorem length_plainTag (key iv aad m : List UInt8) : (plainTag key iv aad m).length = 16 := by
  rw [plainTag, List.length_map, List.length_range]

theorem plainCrypto_lawful : plainCrypto.Lawful where
  length_deriveBits key salt info n := by
    show ((List.range (n * 8 / 8)).map fun i => (key ++ salt ++ info).getD i 0).length = n
    rw [List.length_map, List.length_range, Nat.mul_div_cancel _ (by decide)]
  length_encrypt key iv aad m := by
    show (m ++ plainTag key iv aad m).length = _
    rw [List.length_append, length_plainTag]
  decrypt_encrypt key iv aad m := by
    have hlen : (m ++ plainTag key iv aad m).length - 16 = m.length := by
      rw [List.length_append, length_plainTag, Nat.add_sub_cancel]
    simp only [plainCrypto, hlen, List.take_left, List.drop_left, if_true]

theorem demoWeb_lawful : demoWeb.Lawful where
  crypto := plainCrypto_lawful
  newUrl_fragment s := by
    have hne : '#' :: s ≠ "https://a".toList := fun h =>
      absurd (List.cons.inj h).1 (by decide)
    simp only [demoWeb, if_neg hne]
  origin_ne_nil s u h := by
    simp only [demoWeb, Option.ite_none_right_eq_some, Option.some.injEq] at h
    rw [← h.2]
    decide
  origin_fragment s u h := by
    simp only [demoWeb, Option.ite_none_right_eq_some, Option.some.injEq] at h
    rw [← h.2]
    decide

theorem demoWeb_origin : getOrigin demoWeb = .ok "https://a".toList := rfl

def demoKey : List UInt8 := List.replicate 32 7
def demoNonce : List UInt8 := List.replicate 12 8
def demoSalt : List UInt8 := List.replicate 16 9

def demoId : List UInt8 := deriveIdFromKeyAndSalt plainCrypto demoKey demoSalt

/-- The fragment of the link to the demo secret. -/
def demoHash : List Char :=
  locationHash (normalizeOrigin "https://a".toList ++ "/receive#".toList ++ base64UrlEncode demoId ++
    ['/'] ++ base64UrlEncode demoKey)

/-- The answer with the text `hi`. -/
def demoResponse (passwordValue : List Char) : Response :=
  ⟨200, [], secretBlob plainCrypto [104, 105] passwordValue demoKey demoNonce demoSalt⟩

/-- The secret `hi` as it is kept under a password. -/
def demoPending (passwordValue : List Char) : Pending :=
  ⟨base64UrlEncode demoId, demoNonce, demoSalt, wrapPayload plainCrypto passwordValue demoSalt
    demoNonce (idAad (base64UrlEncode demoId)) [104, 105]⟩

theorem demo_receive (passwordValue : List Char) :
    tryToReceiveSecret demoWeb (fun _ => .ok (demoResponse passwordValue)) demoHash =
      some (.ok (if passwordValue = [] then .text [104, 105]
        else .pending (demoPending passwordValue))) := by
  have hlen : demoId.length = idSize := plainCrypto_lawful.length_deriveBits _ _ _ _
  have hhash : parseLocationHash demoWeb demoHash =
      some ⟨base64UrlEncode demoId, base64UrlEncode demoKey⟩ :=
    parseLocationHash_link demoWeb_lawful (getOrigin_ok demoWeb_lawful demoWeb_origin).2
      (fun c => isIdChar_of_mem_encode) (by rw [length_base64UrlEncode, hlen]; decide)
      (fun c => isIdChar_of_mem_encode) (show base64UrlEncode demoKey ≠ [] from
        List.ne_nil_of_length_pos (by rw [length_base64UrlEncode]; decide))
  rw [tryToReceiveSecret_secretBlob demoWeb_lawful demoWeb_origin rfl rfl rfl rfl hhash rfl rfl rfl]
  unfold wrapPayload
  split_ifs with hpassword
  · rfl
  · simp only [demoPending, wrapPayload, if_neg hpassword]
    rfl

/-- The text `hi` under the password `pw`. -/
theorem send_receive_round_trip_demo :
    ∃ post link, sendSecret demoWeb [104, 105] "pw".toList demoKey demoNonce demoSalt =
        .ok (.post post) ∧
      ∃ pending, tryToReceiveSecret demoWeb (fun _ => .ok ⟨200, [], post.blob⟩) (locationHash link) =
          some (.ok (.pending pending)) ∧
        decryptPending demoWeb pending "pw".toList = .ok [104, 105] := by
  have hsmall : sendSecret demoWeb [104, 105] "pw".toList demoKey demoNonce demoSalt ≠
      .ok .tooLarge := by
    rw [sendSecret_eq demoWeb_origin (List.cons_ne_nil _ _)]
    simp only
    rw [length_secretBlob _ _ _ plainCrypto_lawful rfl rfl, if_neg (by decide)]
    exact fun h => by cases h
  obtain ⟨post, link, hpost, -, -, -, hreceive⟩ := send_receive_round_trip demoWeb_lawful
    demoWeb_lawful rfl demoWeb_origin demoWeb_origin (List.cons_ne_nil _ _) rfl rfl rfl hsmall
  exact ⟨post, link, hpost, (hreceive _ _ rfl rfl rfl).2 (by decide)⟩

end Adnihilum.Client
