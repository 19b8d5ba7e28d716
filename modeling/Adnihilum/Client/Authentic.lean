import Adnihilum.Client.Link

/-!
# What the receiving page shows

The receiving page does not trust the server. Whatever it is answered, it gives bytes to the text
decoder only if the answer is a blob that is sealed under the key of the link, with the id as the
link spells it in the additional data. `sendSecret` spells the id as `base64UrlEncode` writes it.

* `WebCrypto.Authentic`: AES-GCM decrypts only what it encrypted.
* `sealedBlob`: a blob for an id as a link spells it; `displayed`: the bytes that are decoded and
  shown in the end.
* `tryToReceiveSecret_ok_iff`: which answers are opened.
* **`displayed_iff`**: which answers are shown, and what of them.
-/

namespace Adnihilum.Client

/-- AES-GCM: `decrypt` gives only what was encrypted under the same key, iv and additional data. -/
def WebCrypto.Authentic (c : WebCrypto) : Prop :=
  ∀ key iv aad ciphertext m, c.decrypt key iv aad ciphertext = .ok m →
    ciphertext = c.encrypt key iv aad m

/-- A blob with the spelling `id` in the additional data. With the one that `base64UrlEncode` writes it
is the blob of `sendSecret`. -/
def sealedBlob (c : WebCrypto) (id : List Char) (payload : List UInt8) (passwordValue : List Char)
    (keyBytes nonce salt : List UInt8) : List UInt8 :=
  nonce ++ salt ++ c.encrypt keyBytes nonce (idAad id)
    (tagBytes passwordValue ++ wrapPayload c passwordValue salt nonce (idAad id) payload)

theorem sealedBlob_encode (c : WebCrypto) (payload keyBytes nonce salt : List UInt8)
    (passwordValue : List Char) :
    sealedBlob c (base64UrlEncode (deriveIdFromKeyAndSalt c keyBytes salt)) payload passwordValue
      keyBytes nonce salt = secretBlob c payload passwordValue keyBytes nonce salt := rfl

/-- The bytes that the page gives to the text decoder in the end: the payload, or what the password
opens; the page asks for a password that is not empty. -/
def displayed (w : Web) (fetch : List Char → Except JsError Response) (hash passwordValue : List Char) :
    Option (List UInt8) :=
  match tryToReceiveSecret w fetch hash with
  | some (.ok (.text payload)) => some payload
  | some (.ok (.pending p)) =>
    if passwordValue = [] then none else (decryptPending w p passwordValue).toOption
  | _ => none

section Receive

variable {w : Web} {fetch : List Char → Except JsError Response} {hash origin : List Char}
  {info : LinkInfo} {idBytes keyBytes : List UInt8}

theorem blobParts_ok {buf : List UInt8} {b : BlobParts} (h : blobParts buf = .ok b) :
    buf = b.nonce ++ b.salt ++ b.ciphertext ∧ b.nonce.length = nonceSize ∧
      b.salt.length = saltSize := by
  unfold blobParts at h
  split_ifs at h with hlen
  obtain rfl := Except.ok.inj h
  simp only [nonceSize, saltSize, blobTypeSize] at hlen ⊢
  refine ⟨?_, ?_, ?_⟩
  · rw [← List.drop_drop, List.append_assoc, List.take_append_drop, List.take_append_drop]
  · rw [List.length_take]
    omega
  · rw [List.length_take, List.length_drop]
    omega

theorem checkId_ok_iff {t : Target} {derived : List UInt8} (hlen : t.idBytes.length = idSize)
    (hderived : derived.length = idSize) : checkId t derived = .ok () ↔ derived = t.idBytes := by
  constructor
  · intro h
    by_contra hne
    obtain ⟨message, herror⟩ := checkId_of_ne hlen hderived hne
    rw [herror] at h
    cases h
  · exact fun h => checkId_of_eq h.symm

theorem tag_eq {b0 b1 : UInt8} {v : ℕ} (h : b0.toNat <<< 8 ||| b1.toNat = v) :
    b0 = .ofNat (v / 256) ∧ b1 = .ofNat (v % 256) := by
  have h0 := b0.toNat_lt
  have h1 := b1.toNat_lt
  rw [← Nat.shiftLeft_add_eq_or_of_lt (by omega), Nat.shiftLeft_eq] at h
  constructor
  · rw [show v / 256 = b0.toNat by omega, UInt8.ofNat_toNat]
  · rw [show v % 256 = b1.toNat by omega, UInt8.ofNat_toNat]

/-- What a decrypted payload is opened to, by its type tag. -/
theorem openPayload_ok_iff {id : List Char} {b : BlobParts} {plaintextBytes : List UInt8} {o : Opened} :
    openPayload id b plaintextBytes = .ok o ↔
      (∃ payload, plaintextBytes = blobTypeText ++ payload ∧ o = .text payload) ∨
      ∃ ciphertext, plaintextBytes = blobTypePassword ++ ciphertext ∧
        o = .pending ⟨id, b.nonce, b.salt, ciphertext⟩ := by
  constructor
  · intro h
    match plaintextBytes, h with
    | b0 :: b1 :: payloadBytes, h =>
      unfold openPayload at h
      simp only at h
      split_ifs at h with hpassword htext
      · obtain ⟨rfl, rfl⟩ := tag_eq hpassword
        exact Or.inr ⟨payloadBytes, rfl, (Except.ok.inj h).symm⟩
      · obtain ⟨rfl, rfl⟩ := tag_eq htext
        exact Or.inl ⟨payloadBytes, rfl, (Except.ok.inj h).symm⟩
  · rintro (⟨payload, rfl, rfl⟩ | ⟨ciphertext, rfl, rfl⟩) <;> rfl

/-- **Which answers are opened**: those that are cut into a nonce, a salt from which the id follows,
and an encrypted payload with a type tag. -/
theorem tryToReceiveSecret_ok_iff (hlawful : w.crypto.Lawful) (hauth : w.crypto.Authentic)
    (h : Spells w hash info idBytes keyBytes) (horigin : getOrigin w = .ok origin) {o : Opened} :
    tryToReceiveSecret w fetch hash = some (.ok o) ↔
      ∃ res nonce salt plaintextBytes,
        fetch (normalizeOrigin origin ++ "/blob/".toList ++ bytesToHex idBytes) = .ok res ∧
        res.ok = true ∧ nonce.length = nonceSize ∧ salt.length = saltSize ∧
        deriveIdFromKeyAndSalt w.crypto keyBytes salt = idBytes ∧
        res.body = nonce ++ salt ++ w.crypto.encrypt keyBytes nonce (idAad info.id) plaintextBytes ∧
        openPayload info.id ⟨nonce, salt, []⟩ plaintextBytes = .ok o := by
  have hderived : ∀ salt, (deriveIdFromKeyAndSalt w.crypto keyBytes salt).length = idSize :=
    fun salt => hlawful.length_deriveBits _ _ _ _
  have hopen : ∀ {b b' : BlobParts} {m}, b.nonce = b'.nonce → b.salt = b'.salt →
      (openPayload info.id b m = .ok o ↔ openPayload info.id b' m = .ok o) := fun hn hs => by
    rw [openPayload_ok_iff, openPayload_ok_iff, hn, hs]
  constructor
  · intro hok
    rw [tryToReceiveSecret, h.parse, Option.map_some, Option.some_inj] at hok
    simp only [receiveTarget_of_decode horigin h.key h.keylen h.id h.idlen, bind, Except.bind] at hok
    generalize normalizeOrigin origin ++ "/blob/".toList ++ bytesToHex idBytes = url at hok ⊢
    cases hfetch : fetch url with
    | error err => simp [hfetch] at hok
    | ok res =>
      cases hres : res.ok with
      | false => simp [hfetch, hres, throw, throwThe, MonadExceptOf.throw] at hok
      | true =>
        cases hparts : blobParts res.body with
        | error err => simp [hfetch, hres, hparts] at hok
        | ok b =>
          simp only [hfetch, hres, hparts, Bool.not_true, Bool.false_eq_true, if_false] at hok
          cases hcheck : checkId ⟨info.id, keyBytes, idBytes, url⟩
              (deriveIdFromKeyAndSalt w.crypto keyBytes b.salt) with
          | error err => simp [hcheck] at hok
          | ok _ =>
            cases hdecrypt : w.crypto.decrypt keyBytes b.nonce (idAad info.id) b.ciphertext with
            | error err => simp [hcheck, hdecrypt] at hok
            | ok plaintextBytes =>
              simp only [hcheck, hdecrypt] at hok
              obtain ⟨hbody, hnonce, hsalt⟩ := blobParts_ok hparts
              rw [hauth _ _ _ _ _ hdecrypt] at hbody
              exact ⟨res, b.nonce, b.salt, plaintextBytes, rfl, hres, hnonce, hsalt,
                (checkId_ok_iff h.idlen (hderived _)).mp hcheck, hbody, (hopen rfl rfl).mp hok⟩
  · rintro ⟨res, nonce, salt, plaintextBytes, hfetch, hres, hnonce, hsalt, hid, hbody, hok⟩
    have hlen : blobTypeSize < (w.crypto.encrypt keyBytes nonce (idAad info.id) plaintextBytes).length := by
      rw [hlawful.length_encrypt, blobTypeSize]
      omega
    have hparts := blobParts_append hnonce hsalt hlen
    rw [tryToReceiveSecret_of_parts h.parse horigin h.key h.keylen h.id h.idlen hfetch hres
      (by rw [hbody, hparts])]
    simp only [hid, checkId_of_eq, hlawful.decrypt_encrypt, bind, Except.bind]
    rw [Option.some_inj]
    exact (hopen rfl rfl).mpr hok

/-- **What the page shows is authentic.** With a link that spells an id and a key, the page decodes
`payload`, with or without a password, exactly if the server answers with a blob of `payload` that is
sealed with this key, with the id as the link spells it, and with this password or none. -/
theorem displayed_iff (hlawful : w.crypto.Lawful) (hauth : w.crypto.Authentic)
    (h : Spells w hash info idBytes keyBytes) (horigin : getOrigin w = .ok origin)
    {payload : List UInt8} {passwordValue : List Char} :
    displayed w fetch hash passwordValue = some payload ↔
      ∃ res nonce salt usedPassword,
        fetch (normalizeOrigin origin ++ "/blob/".toList ++ bytesToHex idBytes) = .ok res ∧
        res.ok = true ∧ nonce.length = nonceSize ∧ salt.length = saltSize ∧
        deriveIdFromKeyAndSalt w.crypto keyBytes salt = idBytes ∧
        (usedPassword = [] ∨ usedPassword = passwordValue) ∧
        res.body = sealedBlob w.crypto info.id payload usedPassword keyBytes nonce salt := by
  have hopened := fun o => @tryToReceiveSecret_ok_iff w fetch hash origin info idBytes keyBytes hlawful
    hauth h horigin o
  constructor
  · intro hshown
    unfold displayed at hshown
    split at hshown
    · -- a text
      next shown hreceive =>
      obtain rfl := Option.some_inj.mp hshown
      obtain ⟨res, nonce, salt, m, hfetch, hres, hnonce, hsalt, hid, hbody, hok⟩ :=
        (hopened _).mp hreceive
      rcases openPayload_ok_iff.mp hok with ⟨payload, rfl, ho⟩ | ⟨_, _, ho⟩
      · obtain rfl := Opened.text.inj ho
        exact ⟨res, nonce, salt, [], hfetch, hres, hnonce, hsalt, hid, Or.inl rfl, hbody⟩
      · cases ho
    · -- a secret under a password
      next p hreceive =>
      split_ifs at hshown with hempty
      obtain ⟨res, nonce, salt, m, hfetch, hres, hnonce, hsalt, hid, hbody, hok⟩ :=
        (hopened _).mp hreceive
      rcases openPayload_ok_iff.mp hok with ⟨_, _, ho⟩ | ⟨ciphertext, rfl, ho⟩
      · cases ho
      · obtain rfl := Opened.pending.inj ho
        cases hdecrypt : decryptPending w ⟨info.id, nonce, salt, ciphertext⟩ passwordValue with
        | error err =>
          rw [hdecrypt] at hshown
          cases hshown
        | ok shown =>
          rw [hdecrypt] at hshown
          obtain rfl := Option.some_inj.mp hshown
          have hct : ciphertext = _ := hauth _ _ _ _ _ hdecrypt
          rw [hct] at hbody
          refine ⟨res, nonce, salt, passwordValue, hfetch, hres, hnonce, hsalt, hid, Or.inr rfl, ?_⟩
          rw [hbody, sealedBlob, tagBytes, wrapPayload, if_neg hempty, if_neg hempty]
    · cases hshown
  · rintro ⟨res, nonce, salt, usedPassword, hfetch, hres, hnonce, hsalt, hid, hused, hbody⟩
    unfold displayed
    by_cases hempty : usedPassword = []
    · subst hempty
      rw [(hopened (.text payload)).mpr ⟨res, nonce, salt, _, hfetch, hres, hnonce, hsalt, hid, hbody,
        rfl⟩]
    · obtain rfl := hused.resolve_left hempty
      rw [(hopened (.pending ⟨info.id, nonce, salt, wrapPayload w.crypto usedPassword salt nonce
        (idAad info.id) payload⟩)).mpr ⟨res, nonce, salt, _, hfetch, hres, hnonce, hsalt, hid, hbody, ?_⟩]
      · simp only [if_neg hempty, decryptPending, wrapPayload, hlawful.decrypt_encrypt]
        rfl
      · rw [tagBytes, if_neg hempty]
        rfl

end Receive

/-! ## The demo secret -/

theorem plainCrypto_authentic : plainCrypto.Authentic := by
  intro key iv aad ciphertext m h
  simp only [plainCrypto] at h ⊢
  split_ifs at h with htag
  obtain rfl := Except.ok.inj h
  rw [← htag, List.take_append_drop]

theorem demo_spells : Spells demoWeb demoHash ⟨base64UrlEncode demoId, base64UrlEncode demoKey⟩ demoId
    demoKey where
  parse := by
    have hlen : demoId.length = idSize := plainCrypto_lawful.length_deriveBits _ _ _ _
    exact parseLocationHash_link demoWeb_lawful (getOrigin_ok demoWeb_lawful demoWeb_origin).2
      (fun c => isIdChar_of_mem_encode) (by rw [length_base64UrlEncode, hlen]; decide)
      (fun c => isIdChar_of_mem_encode) (show base64UrlEncode demoKey ≠ [] from
        List.ne_nil_of_length_pos (by rw [length_base64UrlEncode]; decide))
  id := base64UrlDecode_encode _
  idlen := plainCrypto_lawful.length_deriveBits _ _ _ _
  key := base64UrlDecode_encode _
  keylen := rfl

/-- The text `hi` under the password `pw`. -/
theorem displayed_iff_demo :
    displayed demoWeb (fun _ => .ok (demoResponse "pw".toList)) demoHash "pw".toList =
      some [104, 105] :=
  (displayed_iff plainCrypto_lawful plainCrypto_authentic demo_spells demoWeb_origin).mpr
    ⟨_, demoNonce, demoSalt, "pw".toList, rfl, rfl, rfl, rfl, rfl, Or.inr rfl, rfl⟩

end Adnihilum.Client
