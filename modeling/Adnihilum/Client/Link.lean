import Adnihilum.Client.RoundTrip

/-!
# Links and their spellings

Several texts decode to the same id, and several to the same key: the bits that the last character
of a text has left over are ignored. The receiving page goes on with the decoded bytes, except for
the additional data of the decryption, for which it takes the id as the link spells it.

* `linkFragment`: what `setLink` puts behind the `#`; **`link_round_trip`**: it is read back.
* `outcome`: what the user gets from an attempt.
* `outcome_of_spelling`: the outcome of an attempt with a blob of `sendSecret`, for every spelling.
* **`spellings_alike_iff`**: exactly when two spellings have the same outcome.
-/

namespace Adnihilum.Client

/-! ## The link is read back -/

/-- What `setLink` puts behind the `#`. -/
def linkFragment (idBytes keyBytes : List UInt8) : List Char :=
  base64UrlEncode idBytes ++ '/' :: base64UrlEncode keyBytes

/-- **A link is read back**: of an id and a key, however they are spelled, `setLink` makes a link,
and what `parseLocationHash` finds in its fragment is the canonical text of the same id and the same
key, so that both sides have the same additional data. What `base64UrlEncode` writes,
`base64UrlDecode` reads. -/
theorem link_round_trip {w : Web} {origin idText keyText : List Char}
    {idBytes keyBytes : List UInt8} (horigin : origin ≠ [])
    (hid : base64UrlDecode idText = .ok idBytes) (hidlen : idBytes.length = idSize)
    (hkey : base64UrlDecode keyText = .ok keyBytes) (hkeylen : keyBytes.length = keySize)
    (hurl : w.newUrl ('#' :: linkFragment idBytes keyBytes) = none) :
    setLink origin idText keyText =
      some (normalizeOrigin origin ++ "/receive#".toList ++ linkFragment idBytes keyBytes) ∧
    (∃ info, parseLocationHash w ('#' :: linkFragment idBytes keyBytes) = some info ∧
      base64UrlDecode info.id = .ok idBytes ∧ base64UrlDecode info.bK = .ok keyBytes ∧
      info.id = base64UrlEncode idBytes ∧ info.bK = base64UrlEncode keyBytes ∧
      idAad info.id = idAad (base64UrlEncode idBytes)) ∧
    ∀ bytes, base64UrlDecode (base64UrlEncode bytes) = .ok bytes := by
  refine ⟨?_, ⟨⟨base64UrlEncode idBytes, base64UrlEncode keyBytes⟩, ?_,
    base64UrlDecode_encode _, base64UrlDecode_encode _, rfl, rfl, rfl⟩, base64UrlDecode_encode⟩
  · rw [setLink_of_decode horigin hid hidlen hkey hkeylen, linkFragment]
    simp only [List.append_assoc, List.singleton_append]
  · refine parseLocationHash_fragment hurl (fun c => isIdChar_of_mem_encode) ?_
      (fun c => isIdChar_of_mem_encode) (List.ne_nil_of_length_pos ?_)
    · rw [length_base64UrlEncode, hidlen]
      decide
    · rw [length_base64UrlEncode, hkeylen]
      decide

/-- The link to an id that ends in `_`. -/
theorem link_round_trip_demo :
    ∃ info, parseLocationHash demoWeb
        ('#' :: linkFragment (List.replicate 15 7 ++ [0xff]) (List.replicate 32 9)) = some info ∧
      base64UrlDecode info.id = .ok (List.replicate 15 7 ++ [0xff]) := by
  obtain ⟨-, ⟨info, hparse, hid, -⟩, -⟩ := link_round_trip (w := demoWeb)
    (List.cons_ne_nil 'a' []) (base64UrlDecode_encode (List.replicate 15 7 ++ [0xff])) rfl
    (base64UrlDecode_encode (List.replicate 32 9)) rfl (demoWeb_lawful.newUrl_fragment _)
  exact ⟨info, hparse, hid⟩

/-! ## Two spellings of a link -/

/-- The fragment is accepted and spells this id and this key. -/
structure Spells (w : Web) (hash : List Char) (info : LinkInfo) (idBytes keyBytes : List UInt8) :
    Prop where
  parse : parseLocationHash w hash = some info
  id : base64UrlDecode info.id = .ok idBytes
  idlen : idBytes.length = idSize
  key : base64UrlDecode info.bK = .ok keyBytes
  keylen : keyBytes.length = keySize

/-- The server answers the request for this id with this blob. -/
def Serves (w : Web) (fetch : List Char → Except JsError Response) (idBytes blob : List UInt8) :
    Prop :=
  ∀ origin, getOrigin w = .ok origin → ∃ res, res.ok = true ∧ res.body = blob ∧
    fetch (normalizeOrigin origin ++ "/blob/".toList ++ bytesToHex idBytes) = .ok res

/-- What the user gets from an attempt: what was opened, or the error by its name and the text that
the page shows for it. -/
def outcome (w : Web) : Except JsError Opened → Opened ⊕ (List Char × List Char)
  | .ok o => .inl o
  | .error err => .inr (err.name, friendlyReceiveError w err)

/-- AES-GCM: what was encrypted under this key, iv and additional data opens under them only; every
other key and every other additional data make `decrypt` fail with `err`. -/
def WebCrypto.Seals (c : WebCrypto) (err : JsError) (key iv aad : List UInt8) : Prop :=
  ∀ m key' aad', key' ≠ key ∨ aad' ≠ aad →
    c.decrypt key' iv aad' (c.encrypt key iv aad m) = .error err

theorem encode_injective : Function.Injective encode := by
  intro s t h
  have hbytes : s.utf8Encode = t.utf8Encode := congrArg List.toByteArray h
  have hdecode := congrArg ByteArray.utf8Decode? hbytes
  rw [List.utf8Decode?_utf8Encode, List.utf8Decode?_utf8Encode, Option.some_inj] at hdecode
  exact congrArg Array.toList hdecode

theorem idAad_injective : Function.Injective idAad := fun _ _ h =>
  List.append_cancel_left (encode_injective h)

section Attempts

variable {w w₀ : Web} {payload key nonce salt keyBytes idBytes : List UInt8} {origin : List Char}
  {passwordValue : List Char} {post : Post} {err : JsError} {info : LinkInfo} {hash : List Char}
  {fetch : List Char → Except JsError Response}

theorem sendSecret_post
    (hsend : sendSecret w payload passwordValue key nonce salt = .ok (.post post)) :
    post.blob = secretBlob w.crypto payload passwordValue key nonce salt := by
  cases horigin : getOrigin w with
  | error err => simp [sendSecret, horigin, bind, Except.bind] at hsend
  | ok origin =>
    by_cases hpayload : payload = []
    · simp [sendSecret, horigin, hpayload, bind, Except.bind, pure, Except.pure] at hsend
    · rw [sendSecret_eq horigin hpayload] at hsend
      simp only at hsend
      split_ifs at hsend
      · cases hsend
      · rw [← Sent.post.inj (Except.ok.inj hsend)]

/-- What is opened by the link of a blob. -/
def openedSecret (c : WebCrypto) (payload : List UInt8) (passwordValue : List Char)
    (key nonce salt : List UInt8) : Opened :=
  let id := base64UrlEncode (deriveIdFromKeyAndSalt c key salt)
  let inner := wrapPayload c passwordValue salt nonce (idAad id) payload
  if passwordValue = [] then .text inner else .pending ⟨id, nonce, salt, inner⟩

theorem checkId_of_ne {t : Target} {derived : List UInt8} (hlen : t.idBytes.length = idSize)
    (hderived : derived.length = idSize) (hne : derived ≠ t.idBytes) :
    ∃ message, checkId t derived = .error ⟨"IdMismatchError".toList, message⟩ := by
  refine ⟨_, if_neg fun h => hne ?_⟩
  have htake : derived.take 16 = t.idBytes.take 16 := beq_iff_eq.mp h
  have hall : derived.length ≤ 16 := hderived.le
  have hall' : t.idBytes.length ≤ 16 := hlen.le
  rwa [List.take_of_length_le hall, List.take_of_length_le hall'] at htake

theorem outcome_idMismatch (message : List Char) :
    outcome w (.error ⟨"IdMismatchError".toList, message⟩) =
      .inr ("IdMismatchError".toList, w.i18n "broken_link") := by
  have hfriendly : friendlyReceiveError w ⟨"IdMismatchError".toList, message⟩ =
      w.i18n "broken_link" := by
    unfold friendlyReceiveError
    exact if_pos rfl
  rw [outcome, hfriendly]

/-- **The outcome of an attempt** with a blob of `sendSecret`, by what the fragment spells. -/
theorem outcome_of_spelling (hlawful : w.crypto.Lawful) (hnonce : nonce.length = nonceSize)
    (hsalt : salt.length = saltSize)
    (hseals : w.crypto.Seals err key nonce
      (idAad (base64UrlEncode (deriveIdFromKeyAndSalt w.crypto key salt))))
    (h : Spells w hash info idBytes keyBytes) (horigin : getOrigin w = .ok origin)
    (hserves : Serves w fetch idBytes (secretBlob w.crypto payload passwordValue key nonce salt)) :
    (tryToReceiveSecret w fetch hash).map (outcome w) = some
      (if deriveIdFromKeyAndSalt w.crypto keyBytes salt ≠ idBytes then
        .inr ("IdMismatchError".toList, w.i18n "broken_link")
      else if keyBytes = key ∧ info.id = base64UrlEncode idBytes then
        .inl (openedSecret w.crypto payload passwordValue key nonce salt)
      else .inr (err.name, friendlyReceiveError w err)) := by
  obtain ⟨res, hok, hbody, hfetch⟩ := hserves origin horigin
  have hlen : ∀ aad m, blobTypeSize < (w.crypto.encrypt key nonce aad m).length := by
    intro aad m
    rw [hlawful.length_encrypt, blobTypeSize]
    omega
  have hparts := blobParts_append hnonce hsalt
    (hlen (idAad (base64UrlEncode (deriveIdFromKeyAndSalt w.crypto key salt)))
      (tagBytes passwordValue ++ wrapPayload w.crypto passwordValue salt nonce
        (idAad (base64UrlEncode (deriveIdFromKeyAndSalt w.crypto key salt))) payload))
  rw [tryToReceiveSecret_of_parts h.parse horigin h.key h.keylen h.id h.idlen hfetch hok
    (by rw [hbody]; exact hparts), Option.map_some]
  refine congrArg some ?_
  by_cases hderive : deriveIdFromKeyAndSalt w.crypto keyBytes salt = idBytes
  · rw [if_neg (not_not.mpr hderive)]
    simp only [hderive, checkId_of_eq, bind, Except.bind]
    split_ifs with hown
    · -- the link of this blob
      obtain ⟨rfl, hid⟩ := hown
      rw [hderive, hid, hlawful.decrypt_encrypt]
      simp only [openPayload_tagBytes, outcome, openedSecret, hderive]
    · rw [hseals]
      · rfl
      · by_contra hsame
        push Not at hsame
        obtain ⟨rfl, haad⟩ := hsame
        rw [hderive] at haad
        exact hown ⟨rfl, idAad_injective haad⟩
  · rw [if_pos hderive]
    have hlen : (deriveIdFromKeyAndSalt w.crypto keyBytes salt).length = idSize :=
      hlawful.length_deriveBits _ _ _ _
    obtain ⟨message, hcheck⟩ := checkId_of_ne (t := ⟨info.id, keyBytes, idBytes,
      normalizeOrigin origin ++ "/blob/".toList ++ bytesToHex idBytes⟩) h.idlen hlen hderive
    simp only [hcheck, bind, Except.bind, outcome_idMismatch]

theorem outcome_of_no_origin {e : JsError} (h : Spells w hash info idBytes keyBytes)
    (horigin : getOrigin w = .error e) :
    (tryToReceiveSecret w fetch hash).map (outcome w) = some (outcome w (.error e)) := by
  rw [tryToReceiveSecret, h.parse]
  simp only [Option.map_some, receiveTarget, horigin, bind, Except.bind]

/-- **Two spellings of a link behave alike** exactly if both id parts are the text that
`base64UrlEncode` writes or neither is, unless the blob is that of another link or the page has no
usable origin: then both attempts fail in the same way. -/
theorem spellings_alike_iff {hash₁ hash₂ : List Char} {info₁ info₂ : LinkInfo}
    (hcrypto : w.crypto = w₀.crypto) (hlawful : w.crypto.Lawful) (hnonce : nonce.length = nonceSize)
    (hsalt : salt.length = saltSize)
    (hsend : sendSecret w₀ payload passwordValue key nonce salt = .ok (.post post))
    (hseals : w.crypto.Seals err key nonce
      (idAad (base64UrlEncode (deriveIdFromKeyAndSalt w.crypto key salt))))
    (h₁ : Spells w hash₁ info₁ idBytes keyBytes) (h₂ : Spells w hash₂ info₂ idBytes keyBytes)
    (hserves : Serves w fetch idBytes post.blob) :
    (tryToReceiveSecret w fetch hash₁).map (outcome w) =
        (tryToReceiveSecret w fetch hash₂).map (outcome w) ↔
      (info₁.id = base64UrlEncode idBytes ↔ info₂.id = base64UrlEncode idBytes) ∨
        keyBytes ≠ key ∨ deriveIdFromKeyAndSalt w.crypto keyBytes salt ≠ idBytes ∨
        ∃ e, getOrigin w = .error e := by
  rw [sendSecret_post hsend, ← hcrypto] at hserves
  cases horigin : getOrigin w with
  | error e =>
    rw [outcome_of_no_origin h₁ horigin, outcome_of_no_origin h₂ horigin]
    exact iff_of_true rfl (.inr (.inr (.inr ⟨e, rfl⟩)))
  | ok origin =>
    rw [outcome_of_spelling hlawful hnonce hsalt hseals h₁ horigin hserves,
      outcome_of_spelling hlawful hnonce hsalt hseals h₂ horigin hserves, Option.some_inj]
    by_cases hderive : deriveIdFromKeyAndSalt w.crypto keyBytes salt = idBytes
    · rw [if_neg (not_not.mpr hderive), if_neg (not_not.mpr hderive)]
      obtain rfl | hkey := eq_or_ne keyBytes key
      · by_cases hid₁ : info₁.id = base64UrlEncode idBytes <;>
          by_cases hid₂ : info₂.id = base64UrlEncode idBytes <;>
          simp [hderive, hid₁, hid₂]
      · simp [hkey]
    · simp [hderive]

end Attempts

/-! ## A secret to spell -/

/-- The additional data of the demo secret. -/
def demoAad : List UInt8 := idAad (base64UrlEncode demoId)

/-- The demo secret has a tag that no other key and no other additional data have. -/
def sealTag (key aad : List UInt8) : List UInt8 :=
  List.replicate 16 (if key = demoKey ∧ aad = demoAad then 0 else 1)

/-- A cryptography that seals the demo secret. -/
def sealCrypto : WebCrypto :=
  { plainCrypto with
    encrypt := fun key _ aad m => m ++ sealTag key aad
    decrypt := fun key _ aad c =>
      if c.drop (c.length - 16) = sealTag key aad then .ok (c.take (c.length - 16))
      else .error ⟨"OperationError".toList, []⟩ }

theorem sealCrypto_drop (m key aad : List UInt8) :
    (m ++ sealTag key aad).length - 16 = m.length := by
  rw [List.length_append, sealTag, List.length_replicate, Nat.add_sub_cancel]

theorem sealCrypto_lawful : sealCrypto.Lawful where
  length_deriveBits := plainCrypto_lawful.length_deriveBits
  length_encrypt key iv aad m := by
    show (m ++ sealTag key aad).length = _
    rw [List.length_append, sealTag, List.length_replicate]
  decrypt_encrypt key iv aad m := by
    simp only [sealCrypto, sealCrypto_drop, List.take_left, List.drop_left, if_true]

theorem sealCrypto_seals (iv : List UInt8) :
    sealCrypto.Seals ⟨"OperationError".toList, []⟩ demoKey iv demoAad := by
  intro m key aad hother
  have hne : sealTag demoKey demoAad ≠ sealTag key aad := by
    have hnot : ¬ (key = demoKey ∧ aad = demoAad) := fun h => hother.elim (· h.1) (· h.2)
    rw [sealTag, if_pos ⟨rfl, rfl⟩, sealTag, if_neg hnot]
    decide
  simp only [sealCrypto, sealCrypto_drop, List.drop_left, if_neg hne]

/-- The page at `https://a`, with that cryptography. -/
def sealWeb : Web := { demoWeb with crypto := sealCrypto }

theorem sealWeb_origin : getOrigin sealWeb = .ok "https://a".toList := rfl

/-- A fragment with the id spelled to end in `c`, and the key in `d`. -/
def spelledHash (c d : Char) : List Char :=
  '#' :: ((base64UrlEncode demoId).dropLast ++ c :: '/' ::
    (base64UrlEncode demoKey).dropLast ++ [d])

def spelledInfo (c d : Char) : LinkInfo :=
  ⟨(base64UrlEncode demoId).dropLast ++ [c], (base64UrlEncode demoKey).dropLast ++ [d]⟩

/-- What the sending page posts for the text `hi`. -/
def sealPost : Post :=
  ⟨"https://a/blob/".toList ++ bytesToHex demoId,
    secretBlob sealCrypto [104, 105] [] demoKey demoNonce demoSalt, "https://a".toList, demoId,
    demoKey⟩

def sealFetch : List Char → Except JsError Response := fun _ => .ok ⟨200, [], sealPost.blob⟩

theorem sealWeb_sends :
    sendSecret sealWeb [104, 105] [] demoKey demoNonce demoSalt = .ok (.post sealPost) := by
  rw [sendSecret_eq sealWeb_origin (List.cons_ne_nil _ _)]
  simp only
  rw [length_secretBlob _ _ _ sealCrypto_lawful rfl rfl, if_neg (by decide)]
  rfl

theorem sealWeb_serves : Serves sealWeb sealFetch demoId sealPost.blob :=
  fun _ _ => ⟨_, rfl, rfl, rfl⟩

theorem spells_wc : Spells sealWeb (spelledHash 'w' 'c') (spelledInfo 'w' 'c') demoId demoKey :=
  ⟨by decide +kernel, by rfl, by decide, by rfl, by decide⟩

theorem spells_wd : Spells sealWeb (spelledHash 'w' 'd') (spelledInfo 'w' 'd') demoId demoKey :=
  ⟨by decide +kernel, by rfl, by decide, by rfl, by decide⟩

theorem spells_xc : Spells sealWeb (spelledHash 'x' 'c') (spelledInfo 'x' 'c') demoId demoKey :=
  ⟨by decide +kernel, by rfl, by decide, by rfl, by decide⟩

/-- With the key spelled in another way the secret is opened all the same. -/
theorem spellings_alike_iff_demo :
    (tryToReceiveSecret sealWeb sealFetch (spelledHash 'w' 'c')).map (outcome sealWeb) =
      (tryToReceiveSecret sealWeb sealFetch (spelledHash 'w' 'd')).map (outcome sealWeb) :=
  (spellings_alike_iff rfl sealCrypto_lawful rfl rfl sealWeb_sends (sealCrypto_seals _) spells_wc
    spells_wd sealWeb_serves).mpr (.inl Iff.rfl)

theorem sealWeb_derives : deriveIdFromKeyAndSalt sealWeb.crypto demoKey demoSalt = demoId := rfl

theorem sealWeb_seals : sealWeb.crypto.Seals ⟨"OperationError".toList, []⟩ demoKey demoNonce
    (idAad (base64UrlEncode (deriveIdFromKeyAndSalt sealWeb.crypto demoKey demoSalt))) :=
  sealCrypto_seals _

theorem sealWeb_outcome {hash : List Char} {info : LinkInfo}
    (h : Spells sealWeb hash info demoId demoKey) :
    (tryToReceiveSecret sealWeb sealFetch hash).map (outcome sealWeb) = some
      (if info.id = base64UrlEncode demoId then .inl (.text [104, 105])
      else .inr ("OperationError".toList, "open_secret_failed".toList)) := by
  have hfriendly : friendlyReceiveError sealWeb ⟨"OperationError".toList, []⟩ =
      "open_secret_failed".toList := by decide +kernel
  rw [outcome_of_spelling sealCrypto_lawful rfl rfl sealWeb_seals h sealWeb_origin sealWeb_serves,
    if_neg (not_not.mpr sealWeb_derives), hfriendly]
  by_cases hid : info.id = base64UrlEncode demoId
  · rw [if_pos hid, if_pos ⟨rfl, hid⟩]
    rfl
  · rw [if_neg hid, if_neg fun h => hid h.2]

/-- With the id spelled in another way the blob is fetched, and the secret is lost. -/
theorem other_spelling_fails :
    sealCrypto.Lawful ∧ sealCrypto.Seals ⟨"OperationError".toList, []⟩ demoKey demoNonce demoAad ∧
    sendSecret sealWeb [104, 105] [] demoKey demoNonce demoSalt = .ok (.post sealPost) ∧
    Spells sealWeb (spelledHash 'w' 'c') (spelledInfo 'w' 'c') demoId demoKey ∧
    Spells sealWeb (spelledHash 'x' 'c') (spelledInfo 'x' 'c') demoId demoKey ∧
    Serves sealWeb sealFetch demoId sealPost.blob ∧
    (tryToReceiveSecret sealWeb sealFetch (spelledHash 'w' 'c')).map (outcome sealWeb) =
      some (.inl (.text [104, 105])) ∧
    (tryToReceiveSecret sealWeb sealFetch (spelledHash 'x' 'c')).map (outcome sealWeb) ≠
      (tryToReceiveSecret sealWeb sealFetch (spelledHash 'w' 'c')).map (outcome sealWeb) := by
  have hcanonical : (spelledInfo 'w' 'c').id = base64UrlEncode demoId := by decide +kernel
  have hother : (spelledInfo 'x' 'c').id ≠ base64UrlEncode demoId := by decide +kernel
  refine ⟨sealCrypto_lawful, sealCrypto_seals _, sealWeb_sends, spells_wc, spells_xc,
    sealWeb_serves, ?_, ?_⟩
  · rw [sealWeb_outcome spells_wc, if_pos hcanonical]
  · rw [sealWeb_outcome spells_xc, sealWeb_outcome spells_wc, if_pos hcanonical, if_neg hother]
    exact fun h => by cases h

end Adnihilum.Client
