import Adnihilum.Lib.Base64
import Mathlib.Data.Nat.Basic

/-!
# `client-shared.js`

The part of the web client that sending and receiving share. Strings are lists of characters, byte
arrays are lists of bytes; an exception is an `Except` value.

* `WebCrypto`, `Web`: what the browser offers, and **`WebCrypto.Lawful`**, what the client relies
  on.
* `base64UrlEncode`, `base64UrlDecode`, `bytesToHex`, `normalizeOrigin`, `getOrigin`.
* `setLink` and `parseLocationHash`: the link made and read back, **`parseLocationHash_link`**,
  `setLink_of_decode`.
-/

namespace Adnihilum.Client

/-- An `Error` with its name and its message. -/
structure JsError where
  name : List Char
  message : List Char
  deriving DecidableEq

/-- `new Error(message)`. -/
def error (message : String) : JsError := ⟨"Error".toList, message.toList⟩

def keySize : ℕ := 32
def nonceSize : ℕ := 12
def saltSize : ℕ := 16
def idSize : ℕ := 16
def blobTypeSize : ℕ := 2
def blobTypeText : List UInt8 := [0x13, 0x37]
def blobTypePassword : List UInt8 := [0x73, 0x37]
def blobTypeTextValue : ℕ := 0x1337
def blobTypePasswordValue : ℕ := 0x7337
/-- `shared.BLOB_SIZE_MAX`. -/
def sharedBlobSizeMax : ℕ := 128 * 1024
def pbkdf2Iterations : ℕ := 800000

/-- `encoder.encode`. -/
def encode (s : List Char) : List UInt8 := s.flatMap String.utf8EncodeChar

def hkdfInfoId : List UInt8 := encode "blob-id".toList

/-! ## The browser -/

/-- The calls of `crypto.subtle`, on raw key bytes. -/
structure WebCrypto where
  /-- HKDF: `deriveBits` with a key, a salt and an info, for a number of bits. -/
  deriveBits : List UInt8 → List UInt8 → List UInt8 → ℕ → List UInt8
  /-- PBKDF2: `deriveKey` with a password, a salt and an iteration count. -/
  deriveKey : List UInt8 → List UInt8 → ℕ → List UInt8
  /-- AES-GCM: `encrypt` with a key, an iv, additional data and a message. -/
  encrypt : List UInt8 → List UInt8 → List UInt8 → List UInt8 → List UInt8
  /-- AES-GCM: `decrypt` with a key, an iv, additional data and a ciphertext. -/
  decrypt : List UInt8 → List UInt8 → List UInt8 → List UInt8 → Except JsError (List UInt8)

/-- What the client relies on. -/
structure WebCrypto.Lawful (c : WebCrypto) : Prop where
  length_deriveBits : ∀ key salt info n, (c.deriveBits key salt info (n * 8)).length = n
  length_encrypt : ∀ key iv aad m, (c.encrypt key iv aad m).length = m.length + 16
  decrypt_encrypt : ∀ key iv aad m, c.decrypt key iv aad (c.encrypt key iv aad m) = .ok m

/-- The fields of a `URL` that the client reads. -/
structure Url where
  protocol : List Char
  username : List Char
  password : List Char
  hostname : List Char
  pathname : List Char
  search : List Char
  hash : List Char
  origin : List Char

/-- What a page of the client sees of the browser. -/
structure Web where
  crypto : WebCrypto
  /-- `window.location.protocol`. -/
  protocol : List Char
  /-- `window.location.origin`. -/
  origin : List Char
  /-- `new URL(s)`, which may throw. -/
  newUrl : List Char → Option Url
  /-- `decoder.decode`. -/
  decode : List UInt8 → List Char
  /-- The translations of the page. -/
  i18n : String → List Char

/-- A string without a scheme, such as a fragment, is no URL; an origin is not empty and has no
fragment. -/
structure Web.Lawful (w : Web) : Prop where
  crypto : w.crypto.Lawful
  newUrl_fragment : ∀ s, w.newUrl ('#' :: s) = none
  origin_ne_nil : ∀ s u, w.newUrl s = some u → u.origin ≠ []
  origin_fragment : ∀ s u, w.newUrl s = some u → '#' ∉ u.origin

/-- The answer to a `fetch`. -/
structure Response where
  status : ℕ
  statusText : List Char
  body : List UInt8

/-- `res.ok`. -/
def Response.ok (res : Response) : Bool := 200 ≤ res.status && res.status < 300

/-- The error for an answer that is not `ok`, with the text of its body. -/
def httpError (method : String) (url : List Char) (res : Response) (responseText : List Char) :
    JsError :=
  ⟨"Error".toList, method.toList ++ ' ' :: url ++ ' ' :: (toString res.status).toList ++
    ": ".toList ++ if responseText ≠ [] then responseText else res.statusText⟩

/-! ## Codecs -/

/-- `s.replace(/a/g, b)` for single characters. -/
def replaceAll (a b : Char) (s : List Char) : List Char := s.map fun c => if c = a then b else c

def base64UrlEncode (bytes : List UInt8) : List Char :=
  (replaceAll '/' '_' (replaceAll '+' '-' (Base64.btoa bytes))).rdropWhile (· = '=')

def base64UrlDecode (str : List Char) : Except JsError (List UInt8) :=
  let normalized := replaceAll '_' '/' (replaceAll '-' '+' str)
  let pad := normalized.length % 4
  let padded := normalized ++ if pad ≠ 0 then "====".toList.drop pad else []
  match Base64.atob padded with
  | some out => .ok out
  | none => .error (error "Invalid base64 data")

/-- The digit of a number below 16, as `toString(16)` writes it. -/
def hexDigit (v : ℕ) : Char := "0123456789abcdef".toList.getD v '0'

def bytesToHex (bytes : List UInt8) : List Char :=
  bytes.flatMap fun b => [hexDigit (b.toNat / 16), hexDigit (b.toNat % 16)]

/-- `equal16B`, on two arrays of at least 16 bytes. -/
def equal16B (a b : List UInt8) : Bool := a.take 16 == b.take 16

def normalizeOrigin (origin : List Char) : List Char := origin.rdropWhile (· = '/')

def getOrigin (w : Web) : Except JsError (List Char) :=
  let raw :=
    if w.protocol = "file:".toList then "https://adnihilum.net".toList
    else if w.origin ≠ [] ∧ w.origin ≠ "null".toList then w.origin
    else []
  match w.newUrl raw with
  | none => .error (error "Invalid service origin URL")
  | some parsed =>
    if parsed.username ≠ [] ∨ parsed.password ≠ [] then
      .error (error "Origin must not include credentials")
    else if (parsed.pathname ≠ [] ∧ parsed.pathname ≠ ['/']) ∨ parsed.search ≠ [] ∨
        parsed.hash ≠ [] then
      .error (error "Origin must not include path, query, or fragment")
    else
      let isLocal := parsed.hostname = "localhost".toList ∨ parsed.hostname = "127.0.0.1".toList
      if parsed.protocol ≠ "https:".toList ∧ ¬ isLocal then
        .error (error "Service origin must use https://")
      else .ok parsed.origin

/-! ## Keys -/

def deriveIdFromKeyAndSalt (c : WebCrypto) (keyBytes saltBytes : List UInt8) : List UInt8 :=
  c.deriveBits keyBytes saltBytes hkdfInfoId (idSize * 8)

def derivePasswordKey (c : WebCrypto) (password : List Char) (saltBytes : List UInt8) :
    List UInt8 :=
  c.deriveKey (encode password) saltBytes pbkdf2Iterations

/-! ## Links -/

/-- `setLink`: the link it stores in `state.link`, `none` when it resets it. -/
def setLink (origin id bK : List Char) : Option (List Char) :=
  if origin = [] ∨ id = [] ∨ bK = [] then none
  else
    match base64UrlDecode bK, base64UrlDecode id with
    | .ok keyBytes, .ok idBytes =>
      if keyBytes.length ≠ keySize ∨ idBytes.length ≠ idSize then none
      else some (normalizeOrigin origin ++ "/receive#".toList ++ base64UrlEncode idBytes ++ ['/'] ++
        base64UrlEncode keyBytes)
    | _, _ => none

/-- `window.location.hash` of a page that was opened with a link of `setLink`. -/
def locationHash (link : List Char) : List Char := link.dropWhile (· ≠ '#')

/-- The white space of `String.prototype.trim`. -/
def isJsSpace (c : Char) : Bool :=
  c.toNat ∈ [9, 10, 11, 12, 13, 32, 0xA0, 0x1680, 0x2028, 0x2029, 0x202F, 0x205F, 0x3000, 0xFEFF] ||
    (0x2000 ≤ c.toNat && c.toNat ≤ 0x200A)

def trim (s : List Char) : List Char := (s.dropWhile isJsSpace).rdropWhile isJsSpace

/-- The characters of `ID_REGEX`. -/
def isIdChar (c : Char) : Bool := c.isAlphanum || c = '_' || c = '-'

/-- `ID_REGEX.test`. -/
def idRegexTest (s : List Char) : Bool := s.all isIdChar && 16 ≤ s.length

/-- What a link says: the id and the key, as text. -/
structure LinkInfo where
  id : List Char
  bK : List Char
  deriving DecidableEq

def parseLocationHash (w : Web) (input : List Char) : Option LinkInfo :=
  if input = [] then none
  else
    let raw := trim input
    let raw := match w.newUrl raw with
      | some maybeUrl => maybeUrl.hash
      | none => raw
    let raw := if raw.head? = some '#' then raw.tail else raw
    let raw := if '#' ∈ raw then (raw.dropWhile (· ≠ '#')).tail else raw
    let raw := raw.dropWhile (· = '/')
    match raw.splitOn '/' with
    | [idPart, keyPart] =>
      let idPart := trim idPart
      let keyPart := trim keyPart
      if idPart = [] ∨ keyPart = [] ∨ ¬ idRegexTest idPart then none else some ⟨idPart, keyPart⟩
    | _ => none

/-! ## The codec is lossless -/

theorem rdropWhile_append_replicate {l : List Char} {c : Char} (h : c ∉ l) (k : ℕ) :
    (l ++ List.replicate k c).rdropWhile (· = c) = l := by
  rw [List.rdropWhile, List.reverse_append, List.reverse_replicate,
    List.dropWhile_append_of_pos fun x hx => by simpa using List.eq_of_mem_replicate hx]
  have : l.reverse.dropWhile (· = c) = l.reverse := by
    rw [List.dropWhile_eq_self_iff]
    intro hl hc
    have hmem := List.getElem_mem hl
    rw [of_decide_eq_true hc] at hmem
    exact h (List.mem_reverse.mp hmem)
  rw [this, List.reverse_reverse]

/-- A character of the alphabet of `btoa`, as `base64UrlEncode` writes it. -/
def urlChar (c : Char) : Char :=
  let c := if c = '+' then '-' else c
  if c = '/' then '_' else c

theorem urlChar_mem {c : Char} (h : c ∈ Base64.alphabet) :
    isIdChar (urlChar c) = true ∧ urlChar c ≠ '=' ∧
      (let d := if urlChar c = '-' then '+' else urlChar c; if d = '_' then '/' else d) = c := by
  have hall : (Base64.alphabet.all fun c => decide (isIdChar (urlChar c) = true ∧ urlChar c ≠ '=' ∧
      (let d := if urlChar c = '-' then '+' else urlChar c; if d = '_' then '/' else d) = c)) =
        true := by
    decide +kernel
  exact of_decide_eq_true (List.all_eq_true.mp hall c h)

theorem toChar_mem_of_sextet {bs : List UInt8} {c : Char}
    (h : c ∈ (Base64.sextets bs).map Base64.toChar) : c ∈ Base64.alphabet := by
  obtain ⟨v, hv, rfl⟩ := List.mem_map.mp h
  exact Base64.toChar_mem (Base64.sextets_lt hv)

theorem base64UrlEncode_eq (bs : List UInt8) :
    base64UrlEncode bs = ((Base64.sextets bs).map Base64.toChar).map urlChar := by
  have hrepl : replaceAll '/' '_' (replaceAll '+' '-' (Base64.btoa bs)) =
      ((Base64.sextets bs).map Base64.toChar).map urlChar ++
        List.replicate ((3 - bs.length % 3) % 3) '=' := by
    rw [replaceAll, replaceAll, List.map_map, Base64.btoa, List.map_append, List.map_replicate]
    rfl
  rw [base64UrlEncode, hrepl, rdropWhile_append_replicate]
  intro h
  obtain ⟨c, hc, hpad⟩ := List.mem_map.mp h
  exact (urlChar_mem (toChar_mem_of_sextet hc)).2.1 hpad

theorem isIdChar_of_mem_encode {bs : List UInt8} {c : Char} (h : c ∈ base64UrlEncode bs) :
    isIdChar c = true := by
  rw [base64UrlEncode_eq] at h
  obtain ⟨d, hd, rfl⟩ := List.mem_map.mp h
  exact (urlChar_mem (toChar_mem_of_sextet hd)).1

theorem length_base64UrlEncode (bs : List UInt8) :
    (base64UrlEncode bs).length = (4 * bs.length + 2) / 3 := by
  rw [base64UrlEncode_eq, List.length_map, List.length_map, Base64.length_sextets]

/-- **What `base64UrlEncode` writes, `base64UrlDecode` reads.** -/
theorem base64UrlDecode_encode (bs : List UInt8) :
    base64UrlDecode (base64UrlEncode bs) = .ok bs := by
  have hback : replaceAll '_' '/' (replaceAll '-' '+' (base64UrlEncode bs)) =
      (Base64.sextets bs).map Base64.toChar := by
    rw [base64UrlEncode_eq, replaceAll, replaceAll, List.map_map, List.map_map]
    conv_rhs => rw [← List.map_id ((Base64.sextets bs).map Base64.toChar)]
    exact List.map_congr_left fun c hc => (urlChar_mem (toChar_mem_of_sextet hc)).2.2
  have hlen : ((Base64.sextets bs).map Base64.toChar).length = (Base64.sextets bs).length :=
    List.length_map _
  have hpad : (if (Base64.sextets bs).length % 4 ≠ 0 then
      "====".toList.drop ((Base64.sextets bs).length % 4) else []) =
        List.replicate ((4 - (Base64.sextets bs).length % 4) % 4) '=' := by
    have : (Base64.sextets bs).length % 4 < 4 := Nat.mod_lt _ (by omega)
    generalize (Base64.sextets bs).length % 4 = n at this
    interval_cases n <;> rfl
  simp only [base64UrlDecode, hback, hlen, hpad]
  rw [Base64.atob_of_sextets bs rfl]

/-! ## The link is read back -/

theorem toNat_of_isIdChar {c : Char} (h : isIdChar c = true) :
    c.toNat = 45 ∨ 48 ≤ c.toNat ∧ c.toNat ≤ 122 := by
  delta isIdChar Char.isAlphanum Char.isAlpha Char.isUpper Char.isLower Char.isDigit at h
  simp only [Bool.or_eq_true, Bool.and_eq_true, decide_eq_true_eq, ge_iff_le,
    UInt32.le_iff_toNat_le] at h
  rcases h with (((⟨h1, h2⟩ | ⟨h1, h2⟩) | ⟨h1, h2⟩) | rfl) | rfl
  · exact .inr ⟨le_trans (by decide) h1, le_trans h2 (by decide)⟩
  · exact .inr ⟨le_trans (by decide) h1, le_trans h2 (by decide)⟩
  · exact .inr ⟨le_trans (by decide) h1, le_trans h2 (by decide)⟩
  · exact .inr (by decide)
  · exact .inl (by decide)

theorem not_isJsSpace {c : Char} (h : isIdChar c = true ∨ c = '/' ∨ c = '#') :
    isJsSpace c = false := by
  have hrange : 33 ≤ c.toNat ∧ c.toNat ≤ 122 := by
    rcases h with h | rfl | rfl
    · have := toNat_of_isIdChar h
      omega
    · decide
    · decide
  have hlist : c.toNat ∉ [9, 10, 11, 12, 13, 32, 0xA0, 0x1680, 0x2028, 0x2029, 0x202F, 0x205F,
      0x3000, 0xFEFF] := by
    clear h
    simp only [List.mem_cons, List.not_mem_nil, or_false]
    omega
  rw [isJsSpace, decide_eq_false hlist, Bool.false_or, Bool.and_eq_false_iff]
  exact .inl (decide_eq_false (by omega))

theorem trim_eq_self {s : List Char} (h : ∀ c ∈ s, isJsSpace c = false) : trim s = s := by
  have hhead : s.dropWhile isJsSpace = s := by
    rw [List.dropWhile_eq_self_iff]
    intro hl
    rw [h _ (List.getElem_mem hl)]
    exact Bool.false_ne_true
  rw [trim, hhead, List.rdropWhile_eq_self_iff]
  intro hl
  rw [h _ (List.getLast_mem hl)]
  exact Bool.false_ne_true

theorem getOrigin_ok {w : Web} (hw : w.Lawful) {origin : List Char} (h : getOrigin w = .ok origin) :
    origin ≠ [] ∧ '#' ∉ origin := by
  unfold getOrigin at h
  simp only at h
  generalize hurl : w.newUrl _ = parsed at h
  cases parsed with
  | none => cases h
  | some u =>
    simp only at h
    split_ifs at h
    obtain rfl := Except.ok.inj h
    exact ⟨hw.origin_ne_nil _ u hurl, hw.origin_fragment _ u hurl⟩

theorem not_mem_of_isIdChar {s : List Char} (h : ∀ c ∈ s, isIdChar c = true) {a : Char}
    (ha : isIdChar a = false) : a ∉ s := fun hmem => by
  rw [h a hmem] at ha
  cases ha

theorem parseLocationHash_fragment {w : Web} {id bK : List Char}
    (hurl : w.newUrl ('#' :: (id ++ '/' :: bK)) = none) (hid : ∀ c ∈ id, isIdChar c = true)
    (hlen : 16 ≤ id.length) (hbK : ∀ c ∈ bK, isIdChar c = true) (hne : bK ≠ []) :
    parseLocationHash w ('#' :: (id ++ '/' :: bK)) = some ⟨id, bK⟩ := by
  have hspace : ∀ c ∈ '#' :: (id ++ '/' :: bK), isJsSpace c = false := by
    intro c hc
    apply not_isJsSpace
    simp only [List.mem_cons, List.mem_append] at hc
    rcases hc with hc | hc | hc | hc
    · exact .inr (.inr hc)
    · exact .inl (hid c hc)
    · exact .inr (.inl hc)
    · exact .inl (hbK c hc)
  have hsharp : '#' ∉ id ++ '/' :: bK := by
    simp [not_mem_of_isIdChar hid (a := '#') (by decide),
      not_mem_of_isIdChar hbK (a := '#') (by decide)]
  have hne' : id ≠ [] := List.ne_nil_of_length_pos (by omega)
  have hslash : (id ++ '/' :: bK).dropWhile (· = '/') = id ++ '/' :: bK := by
    obtain ⟨c, rest, rfl⟩ := List.exists_cons_of_ne_nil hne'
    rw [List.cons_append, List.dropWhile_cons_of_neg]
    have := hid c List.mem_cons_self
    rintro h
    rw [of_decide_eq_true h] at this
    cases this
  have hsplit : (id ++ '/' :: bK).splitOn '/' = [id, bK] := by
    rw [List.splitOn_append_cons_self_of_not_mem (not_mem_of_isIdChar hid (by decide)),
      List.splitOn_eq_singleton (not_mem_of_isIdChar hbK (by decide))]
  have hregex : idRegexTest id = true := by
    simp only [idRegexTest, Bool.and_eq_true, List.all_eq_true, decide_eq_true_eq]
    exact ⟨hid, hlen⟩
  rw [parseLocationHash, if_neg (List.cons_ne_nil _ _), trim_eq_self hspace]
  simp only [hurl, List.head?_cons, if_true, List.tail_cons, if_neg hsharp, hslash, hsplit]
  rw [trim_eq_self fun c hc => not_isJsSpace (.inl (hid c hc)),
    trim_eq_self fun c hc => not_isJsSpace (.inl (hbK c hc)), if_neg]
  rintro (h | h | h)
  · exact hne' h
  · exact hne h
  · exact h hregex

/-- **The receiving page reads the id and the key of a link.** -/
theorem parseLocationHash_link {w : Web} (hw : w.Lawful) {origin id bK : List Char}
    (horigin : '#' ∉ origin) (hid : ∀ c ∈ id, isIdChar c = true) (hlen : 16 ≤ id.length)
    (hbK : ∀ c ∈ bK, isIdChar c = true) (hne : bK ≠ []) :
    parseLocationHash w (locationHash
      (normalizeOrigin origin ++ "/receive#".toList ++ id ++ ['/'] ++ bK)) = some ⟨id, bK⟩ := by
  have hhash : locationHash (normalizeOrigin origin ++ "/receive#".toList ++ id ++ ['/'] ++ bK) =
      '#' :: (id ++ '/' :: bK) := by
    have hpre : ∀ c ∈ normalizeOrigin origin ++ "/receive".toList, (c ≠ '#' : Bool) = true := by
      intro c hc
      rcases List.mem_append.mp hc with hc | hc
      · exact decide_eq_true fun h => horigin (h ▸ (List.rdropWhile_prefix _ _).subset hc)
      · exact decide_eq_true fun h => absurd (h ▸ hc) (by decide)
    have : normalizeOrigin origin ++ "/receive#".toList ++ id ++ ['/'] ++ bK =
        (normalizeOrigin origin ++ "/receive".toList) ++ '#' :: (id ++ '/' :: bK) := by
      simp
    rw [locationHash, this, List.dropWhile_append_of_pos hpre,
      List.dropWhile_cons_of_neg (by decide)]
  rw [hhash]
  exact parseLocationHash_fragment (hw.newUrl_fragment _) hid hlen hbK hne

/-! ## The link is made -/

theorem setLink_of_decode {origin id bK : List Char} {idBytes keyBytes : List UInt8}
    (horigin : origin ≠ []) (hid : base64UrlDecode id = .ok idBytes) (hidlen : idBytes.length = idSize)
    (hbK : base64UrlDecode bK = .ok keyBytes) (hkeylen : keyBytes.length = keySize) :
    setLink origin id bK =
      some (normalizeOrigin origin ++ "/receive#".toList ++ base64UrlEncode idBytes ++ ['/'] ++
        base64UrlEncode keyBytes) := by
  -- nothing is spelled by the empty text
  have hne : ∀ {s : List Char} {bs : List UInt8}, base64UrlDecode s = .ok bs → bs.length ≠ 0 →
      s ≠ [] := by
    rintro s bs hs hlen rfl
    exact hlen (congrArg List.length (Except.ok.inj hs)).symm
  rw [setLink, if_neg]
  · simp only [hid, hbK]
    rw [if_neg (by simp [hidlen, hkeylen])]
  · rintro (h | h | h)
    · exact horigin h
    · exact hne hid (by rw [hidlen]; decide) h
    · exact hne hbK (by rw [hkeylen]; decide) h

end Adnihilum.Client
