import Adnihilum.Server.CtxAlloc
import Adnihilum.Storage.Refine

/-!
# `server.c`: the request handler

`ahc` is the handler libmicrohttpd calls for every piece of a request, `reqDone` the callback at its
end. C strings are lists of characters without the terminating zero.

* What the handler asks of the world comes with the call: `Env`.
* What it does to the store and to the connection is written down: `Call`.
* `ahcHandle` is the handler behind the rate limiter, one definition for each branch.

The build is the default one: loose assets, debouncing on, no statistics.
-/

namespace Adnihilum

open FlatMemory

/-! ## Requests and replies -/

/-- `BLOB_TTL_S`. -/
def blobTtlS : ℕ := 60 * 60

/-- `STORAGE_BLOBS_MAX`. -/
def storageBlobsMax : ℕ := 2 * 131072

/-- `REQUESTS_MAX`. -/
def requestsMax : ℕ := 1024 * 8

/-- `ID_LENGTH`. -/
def idLength : ℕ := 32

/-- What libmicrohttpd knows of a request. -/
structure Request where
  url : List Char
  method : List Char
  contentLength : Option (List Char)
  origin : Option (List Char)

/-- `enum HEADER_PROFILE`. -/
inductive HeaderProfile where
  | htmlViewer
  | staticAsset
  | other
  | apiBlob
  deriving DecidableEq

/-- The body of a reply: the file of an asset, a text, the JSON of `/status`, a block of the store,
or nothing. -/
inductive Body where
  | asset (i : ℕ)
  | text (s : String)
  | status (blobsInUse : ℕ)
  | blob (b : Blk)
  | empty
  deriving DecidableEq

/-- A reply as `send_response` builds it. -/
structure Response where
  code : ℕ
  body : Body
  contentType : Option String
  headerProfile : HeaderProfile
  deriving DecidableEq

/-- The headers `send_response` adds. -/
def responseHeaders (rq : Request) (resp : Response) : List (String × String) :=
  [("X-Content-Type-Options", "nosniff")] ++
  (resp.contentType.map fun t => ("Content-Type", t)).toList ++
  [("Strict-Transport-Security", "max-age=31536000")] ++
  match resp.headerProfile with
  | .htmlViewer =>
    [("Referrer-Policy", "no-referrer"), ("X-Frame-Options", "DENY"),
      ("Content-Security-Policy", "default-src 'self'; script-src 'self'; style-src 'self'; " ++
        "img-src 'self' data:; connect-src 'self'; object-src 'none'; base-uri 'none'; " ++
        "frame-ancestors 'none'; form-action 'self'"),
      ("Cross-Origin-Opener-Policy", "same-origin"), ("Cross-Origin-Resource-Policy", "same-site")]
  | .staticAsset =>
    [("Referrer-Policy", "no-referrer"), ("X-Frame-Options", "DENY"),
      ("Cross-Origin-Opener-Policy", "same-origin")]
  | .other | .apiBlob =>
    [("Cache-Control", "no-store"), ("Referrer-Policy", "no-referrer")] ++
    (if rq.origin = some "null".toList then
      [("Access-Control-Allow-Origin", "null"), ("Vary", "Origin")] else []) ++
    [("Cross-Origin-Resource-Policy", "same-origin")]

/-- What the world answers during one call of the handler: the debouncer, the two functions of
libmicrohttpd that can fail, whether `snprintf` fits, and the clock. -/
structure Env where
  allow : Bool
  createOk : Bool
  queueOk : Bool
  statusFits : Bool
  tvSec : ℕ

/-- What a call did to the store and to the connection of request `r`. -/
inductive Call where
  | create (r : ℕ) (id : HtableKey) (size : ℕ) (ret : Blk)
  | write (r : ℕ) (dst : ℕ) (bytes : List UInt8)
  | publish (r : ℕ) (id : HtableKey) (validUntil : ℕ) (ret : Bool)
  | get (r : ℕ) (id : HtableKey) (ret : Blk)
  | abort (r : ℕ) (id : HtableKey)
  | free (r : ℕ) (block : Blk)
  | reap (id : HtableKey)
  | queue (r : ℕ) (pending : ℕ) (resp : Response) (ret : Bool)

/-- A response was queued. -/
def Call.queued : Call → Bool
  | .queue _ _ _ ret => ret
  | _ => false

/-- The result of a call: the store, the context, what was done, and `MHD_YES` or `MHD_NO`. -/
structure AhcOut where
  storage : Storage
  ctx : ReqCtx
  calls : List Call
  yes : Bool

/-! ## Paths and numbers -/

/-- `asset_paths`. -/
def assetPaths : List (List Char) :=
  ["/".toList, "/simple".toList, "/receive".toList, "/client.css".toList, "/client-simple.css".toList,
    "/client-shared.js".toList, "/client-send.js".toList, "/client-receive.js".toList,
    "/client.js".toList, "/qrcode.js".toList, "/adnihilum128.png".toList, "/og-image.png".toList]

/-- `assets[..].content_type`. -/
def assetContentType (i : ℕ) : String :=
  if i < 3 then "text/html; charset=utf-8"
  else if i < 5 then "text/css; charset=utf-8"
  else if i < 10 then "application/javascript; charset=utf-8"
  else "image/png"

/-- `asset_find`; every path is shorter than the bound of the comparison. -/
def assetFind (url : List Char) : Option ℕ := assetPaths.findIdx? fun p => url == p

/-- `HEXVAL`. -/
def hexval (c : Char) : ℕ :=
  if '0' ≤ c ∧ c ≤ '9' then c.toNat - '0'.toNat
  else if 'A' ≤ c ∧ c ≤ 'F' then c.toNat - 'A'.toNat + 10
  else if 'a' ≤ c ∧ c ≤ 'f' then c.toNat - 'a'.toNat + 10
  else 0x80

/-- The loop of `id_hex_to_bytes`, with `n` bytes left. -/
def idHexToBytesLoop : ℕ → List Char → Option (List UInt8)
  | 0, _ => some []
  | n + 1, s =>
    let a := hexval (s.getD 0 (Char.ofNat 0))
    let b := hexval (s.getD 1 (Char.ofNat 0))
    if (a ||| b) &&& 0x80 ≠ 0 then none
    else (idHexToBytesLoop n (s.drop 2)).map fun out => UInt8.ofNat ((a <<< 4) ||| b) :: out

/-- `id_hex_to_bytes`. -/
def idHexToBytes (s : List Char) : Option (List UInt8) := idHexToBytesLoop (idLength / 2) s

/-- The two little-endian halves of the 16 bytes of an id. -/
def keyOfBytes (bytes : List UInt8) : HtableKey :=
  ⟨UInt64.ofNat (bytesWord (bytes.take 8)), UInt64.ofNat (bytesWord (bytes.drop 8))⟩

/-- `ULONG_MAX`. -/
def ulongMax : ℕ := 2 ^ 64 - 1

/-- `isspace`. -/
def isspace (c : Char) : Bool := c == ' ' || (9 ≤ c.toNat && c.toNat ≤ 13)

/-- `strtoul` in base 10: blanks, a sign, digits; saturating. -/
def strtoul (s : List Char) : ℕ :=
  let s := s.dropWhile isspace
  let negative := s.head? == some '-'
  let s := if s.head? == some '-' || s.head? == some '+' then s.drop 1 else s
  let v := (s.takeWhile Char.isDigit).foldl (fun v c => 10 * v + (c.toNat - '0'.toNat)) 0
  if ulongMax < v then ulongMax else if negative then subU64 0 v else v

/-! ## Replies -/

/-- `AHC_RETURN(MHD_NO)`: drop the connection. -/
def drop (s : Storage) (ctx : ReqCtx) (calls : List Call) : AhcOut := ⟨s, ctx, calls, false⟩

/-- `send_response`, while `pending` bytes of upload data are waiting. -/
def sendResponse (env : Env) (r pending : ℕ) (s : Storage) (ctx : ReqCtx) (calls : List Call)
    (resp : Response) : AhcOut :=
  if env.createOk then ⟨s, ctx, calls ++ [.queue r pending resp env.queueOk], env.queueOk⟩
  else drop s ctx calls

/-- `send_text`. -/
def sendText (env : Env) (r pending : ℕ) (s : Storage) (ctx : ReqCtx) (calls : List Call)
    (code : ℕ) (text : String) : AhcOut :=
  sendResponse env r pending s ctx calls
    ⟨code, .text text, some "text/plain; charset=utf-8", .other⟩

/-- `deferred_error_responses`. -/
def deferredErrorResponses : DeferredErrorCode → ℕ × String
  | .noError => (0, "")
  | .oom => (500, "OOM!")
  | .dup => (400, "Duplicate!")

/-! ## The handler -/

section Handler

variable (env : Env) (r : ℕ) (rq : Request)

/-- The end of the handler: nothing matched. -/
def ahcNotFound (s : Storage) (ctx : ReqCtx) (upload : List UInt8) : AhcOut :=
  if upload ≠ [] then drop s ctx [] else sendText env r upload.length s ctx [] 404 "Not Found"

/-- Paths other than `/blob/*`. -/
def ahcOther (s : Storage) (ctx : ReqCtx) (upload : List UInt8) : AhcOut :=
  if upload ≠ [] then drop s ctx []
  else
    match if rq.method = "GET".toList then assetFind rq.url else none with
    | some i =>
      sendResponse env r upload.length s ctx [] ⟨200, .asset i, some (assetContentType i),
        if rq.url = "/".toList then .htmlViewer else .staticAsset⟩
    | none =>
      if rq.url = "/status".toList then
        let blobsInUse := ((List.range bucketsCount).map (storageStatus s).inUse).foldl (· + ·) 0
        if env.statusFits then
          sendResponse env r upload.length s ctx []
            ⟨200, .status blobsInUse, some "application/json; charset=utf-8", .other⟩
        else sendText env r upload.length s ctx [] 500 "Status error"
      else ahcNotFound env r s ctx upload

/-- `GET /blob/*`. -/
def ahcGet (s : Storage) (ctx : ReqCtx) (upload : List UInt8) (id : HtableKey) : Option AhcOut :=
  (storageBlobGet s id).map fun p =>
    let s := p.1
    let blob := p.2
    if blob.size = 0 then
      sendText env r upload.length s ctx [.get r id blob] 404 "Not Found"
    else
      sendResponse env r upload.length s { ctx with blobSend := blob } [.get r id blob]
        ⟨200, .blob blob, some "application/octet-stream", .apiBlob⟩

/-- The size of the blob from its header: `none` drops the connection. -/
def ahcExpected (ctx : ReqCtx) : Option ReqCtx :=
  if ctx.expected = 0 then
    match rq.contentLength with
    | none => none
    | some str =>
      let contentLength := strtoul str
      if contentLength = ulongMax then none
      else if blobSizeMax < contentLength ∨ contentLength < blobSizeMin then none
      else some { ctx with expected := contentLength }
  else some ctx

/-- Copy a chunk behind what was read before. -/
def ahcCopy (s : Storage) (ctx : ReqCtx) (calls : List Call) (upload : List UInt8) : AhcOut :=
  if ctx.expected < ctx.read + upload.length then drop s ctx calls
  else
    ⟨{ s with mem := s.mem.store (ctx.postBody.data + ctx.read) upload },
      { ctx with read := ctx.read + upload.length },
      calls ++ [.write r (ctx.postBody.data + ctx.read) upload], true⟩

/-- `POST /blob/*` with something to read. -/
def ahcPostChunk (s : Storage) (ctx : ReqCtx) (upload : List UInt8) : Option AhcOut :=
  if ctx.deferredError ≠ .noError then some ⟨s, ctx, [], true⟩
  else
    match ahcExpected rq ctx with
    | none => some (drop s ctx [])
    | some ctx =>
      if ctx.postBody.size = 0 then
        if storageBlobIsAlreadyTaken s ctx.id then
          some ⟨s, { ctx with deferredError := .dup }, [], true⟩
        else
          (storageBlobCreate s ctx.id ctx.expected).map fun p =>
            let s := p.1
            let ctx := { ctx with postBody := p.2 }
            let calls := [Call.create r ctx.id ctx.expected p.2]
            if ctx.postBody.size = 0 then ⟨s, { ctx with deferredError := .oom }, calls, true⟩
            else ahcCopy r s ctx calls upload
      else some (ahcCopy r s ctx [] upload)

/-- `POST /blob/*` with nothing left to read. -/
def ahcPostEnd (s : Storage) (ctx : ReqCtx) (pending : ℕ) : AhcOut :=
  if ctx.deferredError ≠ .noError then
    sendText env r pending s ctx [] (deferredErrorResponses ctx.deferredError).1
      (deferredErrorResponses ctx.deferredError).2
  else if ctx.postBody.size = 0 ∨ ctx.read ≠ ctx.expected then
    sendText env r pending s ctx [] 400 "Bad blob"
  else
    let validUntil := (monotonicNowS env.tvSec + blobTtlS) % 2 ^ 32
    let p := storageBlobPublish s ctx.id validUntil
    let calls := [Call.publish r ctx.id validUntil p.2]
    if p.2 then
      sendResponse env r pending p.1 { ctx with postBody := Blk.zero } calls
        ⟨200, .empty, none, .apiBlob⟩
    else sendText env r pending p.1 ctx calls 500 "Internal error, cannot publish the blob"

/-- `POST /blob/*`. -/
def ahcPost (s : Storage) (ctx : ReqCtx) (upload : List UInt8) (id : HtableKey) : Option AhcOut :=
  if ctx.haveId ∧ ctx.id ≠ id then some (drop s ctx [])
  else
    let ctx := if ctx.haveId then ctx else { ctx with id := id, haveId := true }
    if upload ≠ [] then ahcPostChunk r rq s ctx upload
    else some (ahcPostEnd env r s ctx upload.length)

/-- The id a `/blob/*` path names. -/
def blobId (url : List Char) : Option HtableKey :=
  (idHexToBytes (url.drop 6)).bind fun bytes =>
    let id := keyOfBytes bytes
    if id = HtableKey.null then none else some id

/-- The handler behind the rate limiter, from `is_path_blob` on. -/
def ahcHandle (s : Storage) (ctx : ReqCtx) (upload : List UInt8) : Option AhcOut :=
  if ¬ "/blob/".toList.isPrefixOf rq.url then some (ahcOther env r rq s ctx upload)
  else if (rq.url.drop 6).length = idLength then
    match blobId rq.url with
    | none => some (drop s ctx [])
    | some id =>
      if rq.method = "GET".toList then ahcGet env r s ctx upload id
      else if rq.method = "POST".toList then ahcPost env r rq s ctx upload id
      else some (ahcNotFound env r s ctx upload)
  else some (ahcNotFound env r s ctx upload)

/-- The handler on a context: rate limiter first, and nothing more in the first call. -/
def ahcCtx (newCtx : Bool) (s : Storage) (ctx : ReqCtx) (upload : List UInt8) : Option AhcOut :=
  let shouldLimit := ¬ (rq.method = "GET".toList ∧ (assetFind rq.url).isSome)
  let limited := ¬ ctx.rateChecked ∧ shouldLimit ∧ ¬ env.allow
  let ctx := { ctx with rateChecked := true }
  if limited then some (sendText env r upload.length s ctx [] 429 "Too Many Requests")
  else if newCtx then some ⟨s, ctx, [], true⟩
  else ahcHandle env r rq s ctx upload

end Handler

end Adnihilum
