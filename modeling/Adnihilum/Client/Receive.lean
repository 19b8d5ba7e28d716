import Adnihilum.Client.Send

/-!
# `client-receive.js`

The stages of `tryToReceiveSecret` between its suspension points, the whole of it when nothing comes
in between, and the decryption of a pending secret.
-/

namespace Adnihilum.Client

/-- `state.pendingSecret`. -/
structure Pending where
  id : List Char
  nonce : List UInt8
  salt : List UInt8
  ciphertext : List UInt8
  deriving DecidableEq

/-- What `tryToReceiveSecret` obtains: a text to display, or a secret under a password. -/
inductive Opened where
  | text (payload : List UInt8)
  | pending (p : Pending)
  deriving DecidableEq

/-- What the link asks for. -/
structure Target where
  id : List Char
  keyBytes : List UInt8
  idBytes : List UInt8
  url : List Char

/-- A blob cut up. -/
structure BlobParts where
  nonce : List UInt8
  salt : List UInt8
  ciphertext : List UInt8

/-- Up to the `fetch`. -/
def receiveTarget (w : Web) (info : LinkInfo) : Except JsError Target := do
  let origin ← getOrigin w
  let keyBytes ← base64UrlDecode info.bK
  if keyBytes.length ≠ keySize then throw (error "Key length mismatch")
  let idBytes ← base64UrlDecode info.id
  if idBytes.length ≠ idSize then throw (error "ID length mismatch")
  return ⟨info.id, keyBytes, idBytes,
    normalizeOrigin origin ++ "/blob/".toList ++ bytesToHex idBytes⟩

/-- The body is cut into nonce, salt and ciphertext. -/
def blobParts (buf : List UInt8) : Except JsError BlobParts :=
  if buf.length ≤ nonceSize + saltSize + blobTypeSize then .error (error "Blob is too small")
  else .ok ⟨buf.take nonceSize, (buf.drop nonceSize).take saltSize, buf.drop (nonceSize + saltSize)⟩

/-- The id that follows from the key and the salt is the one asked for. -/
def checkId (t : Target) (derivedIdBytes : List UInt8) : Except JsError Unit :=
  if equal16B derivedIdBytes t.idBytes then .ok ()
  else .error ⟨"IdMismatchError".toList, "ID mismatch: derived ID' (".toList ++
    base64UrlEncode derivedIdBytes ++ ") !== provided ID (".toList ++ t.id ++ ").".toList⟩

/-- The decrypted payload by its type tag. -/
def openPayload (id : List Char) (b : BlobParts) (plaintextBytes : List UInt8) :
    Except JsError Opened :=
  match plaintextBytes with
  | b0 :: b1 :: payloadBytes =>
    let blobTypeTagValue := b0.toNat <<< 8 ||| b1.toNat
    if blobTypeTagValue = blobTypePasswordValue then
      .ok (.pending ⟨id, b.nonce, b.salt, payloadBytes⟩)
    else if blobTypeTagValue = blobTypeTextValue then .ok (.text payloadBytes)
    else .error (error "Unsupported blob type")
  | _ => .error (error "Decrypted payload missing type tag")

/-- `/s/i.test(message)`. -/
def mentions (s : String) (message : List Char) : Bool :=
  (message.map Char.toLower).tails.any fun t => (s.toList.map Char.toLower).isPrefixOf t

/-- `/GET .* (404|410)\b/i.test(message)`. -/
def mentionsGone (message : List Char) : Bool :=
  (message.map Char.toLower).tails.any fun t => "get ".toList.isPrefixOf t &&
    -- a dot matches no line terminator
    ((t.drop 4).takeWhile fun c => c.toNat ∉ [10, 13, 0x2028, 0x2029]).tails.any fun u =>
      (" 404".toList.isPrefixOf u || " 410".toList.isPrefixOf u) &&
        (u.drop 4).head?.all fun c => !(c.isAlphanum || c = '_')

def friendlyReceiveError (w : Web) (err : JsError) : List Char :=
  let message := if err.message ≠ [] then err.message else err.name
  if err.name = "IdMismatchError".toList then w.i18n "broken_link"
  else if mentions "Invalid base64 data" message || mentions "Key length mismatch" message ||
      mentions "ID length mismatch" message then w.i18n "broken_link"
  else if mentionsGone message then w.i18n "secret_unavailable"
  else if mentions "Blob is too small" message || mentions "Unsupported blob type" message ||
      mentions "Decrypted payload missing type tag" message then w.i18n "secret_damaged"
  else if mentions "Failed to prepare password protected payload" message then
    w.i18n "secret_prepare_failed"
  else w.i18n "open_secret_failed"

/-- `tryToReceiveSecret`, when nothing comes in between; `none` without a usable link. -/
def tryToReceiveSecret (w : Web) (fetch : List Char → Except JsError Response) (hash : List Char) :
    Option (Except JsError Opened) :=
  (parseLocationHash w hash).map fun info => do
    let t ← receiveTarget w info
    let res ← fetch t.url
    if !res.ok then throw (httpError "GET" t.url res (w.decode res.body))
    let b ← blobParts res.body
    checkId t (deriveIdFromKeyAndSalt w.crypto t.keyBytes b.salt)
    let plaintextBytes ← w.crypto.decrypt t.keyBytes b.nonce (idAad t.id) b.ciphertext
    openPayload t.id b plaintextBytes

/-- What `decryptPendingSecretWithPassword` obtains, when nothing comes in between. -/
def decryptPending (w : Web) (pending : Pending) (passwordValue : List Char) :
    Except JsError (List UInt8) :=
  w.crypto.decrypt (derivePasswordKey w.crypto passwordValue pending.salt) pending.nonce
    (idAad pending.id) pending.ciphertext

end Adnihilum.Client
