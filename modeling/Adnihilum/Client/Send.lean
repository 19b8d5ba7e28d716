import Adnihilum.Client.Shared

/-!
# `client-send.js`

`sendSecret` up to its `POST`, and from the answer on.
-/

namespace Adnihilum.Client

/-- What `sendSecret` posts, and what it keeps to make the link. -/
structure Post where
  url : List Char
  blob : List UInt8
  origin : List Char
  idBytes : List UInt8
  keyBytes : List UInt8
  deriving DecidableEq

/-- How far `sendSecret` comes. -/
inductive Sent where
  | nothingToSend
  | tooLarge
  | post (p : Post)
  deriving DecidableEq

/-- `'id=' + id`, encoded. -/
def idAad (id : List Char) : List UInt8 := encode ("id=".toList ++ id)

/-- `sendSecret` up to the `fetch`, for the bytes of the text and the random key, nonce and salt. -/
def sendSecret (w : Web) (payload : List UInt8) (passwordValue : List Char)
    (keyBytes nonce salt : List UInt8) : Except JsError Sent := do
  let origin ← getOrigin w
  if payload = [] then return .nothingToSend
  let hasPassword := !passwordValue.isEmpty
  let idBytes := deriveIdFromKeyAndSalt w.crypto keyBytes salt
  let aad := idAad (base64UrlEncode idBytes)
  let payload :=
    if hasPassword then
      w.crypto.encrypt (derivePasswordKey w.crypto passwordValue salt) nonce aad payload
    else payload
  let tagBytes := if hasPassword then blobTypePassword else blobTypeText
  let taggedPayload := tagBytes ++ payload
  let ciphertext := w.crypto.encrypt keyBytes nonce aad taggedPayload
  let blob := nonce ++ salt ++ ciphertext
  if sharedBlobSizeMax - 100 < blob.length then return .tooLarge
  let url := normalizeOrigin origin ++ "/blob/".toList ++ bytesToHex idBytes
  return .post ⟨url, blob, origin, idBytes, keyBytes⟩

/-- `sendSecret` after the answer `res`: the link, if `setLink` makes one. -/
def sendSecretAnswered (w : Web) (p : Post) (res : Response) : Except JsError (Option (List Char)) :=
  if !res.ok then .error (httpError "POST" p.url res (w.decode res.body))
  else .ok (setLink p.origin (base64UrlEncode p.idBytes) (base64UrlEncode p.keyBytes))

end Adnihilum.Client
