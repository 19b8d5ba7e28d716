import Adnihilum.Client.Shared
import Adnihilum.Lib.Hex
import Adnihilum.Server.Handler

/-!
# Blob ids on the wire

The tail of a `/blob/*` path as the server has it: bytes in memory up to a zero. `HEXVAL` is a table
of signed numbers whose entries are taken as unsigned ones, with bit 7 for what is no digit.

* `hexvalTable`, `idHexToBytesAt`, `strnlen`, `ahcId`: the check of `ahc` on these bytes.
* `idHexToBytesAtLoop_eq`, `ascii_bytesToHex`: the server reads hexadecimal text, the client writes it.
* `requestId_eq`: the handler, whose paths are characters, has the id that these bytes name.
* **`blob_id_on_the_wire`**: what is accepted, and which tails name the same id.
-/

namespace Adnihilum

open FlatMemory

/-! ## The check -/

/-- The designated initializers of `HEXVAL`. -/
def hexvalInit : List (UInt8 × ℤ) :=
  [(0x30, 0), (0x31, 1), (0x32, 2), (0x33, 3), (0x34, 4), (0x35, 5), (0x36, 6), (0x37, 7),
    (0x38, 8), (0x39, 9), (0x41, 10), (0x42, 11), (0x43, 12), (0x44, 13), (0x45, 14), (0x46, 15),
    (0x61, 10), (0x62, 11), (0x63, 12), (0x64, 13), (0x65, 14), (0x66, 15)]

/-- `HEXVAL[c]`; the default is `(signed char)0x80`. -/
def hexvalTable (c : UInt8) : ℤ := (hexvalInit.lookup c).getD (-128)

/-- `(unsigned)HEXVAL[c]`. -/
def hexvalU (c : UInt8) : UInt32 := .ofInt (hexvalTable c)

/-- The loop of `id_hex_to_bytes` from `i` on, with `n` turns left. -/
def idHexToBytesAtLoop (s : ℕ → UInt8) : ℕ → ℕ → Option (List UInt8)
  | 0, _ => some []
  | n + 1, i =>
    let a := hexvalU (s i)
    let b := hexvalU (s (i + 1))
    if (a ||| b) &&& 0x80 ≠ 0 then none
    else (idHexToBytesAtLoop s n (i + 2)).map fun out => (a <<< 4 ||| b).toUInt8 :: out

/-- `id_hex_to_bytes` on bytes in memory. -/
def idHexToBytesAt (s : ℕ → UInt8) : Option (List UInt8) := idHexToBytesAtLoop s (idLength / 2) 0

/-- `strnlen`. -/
def strnlen (s : ℕ → UInt8) (maxlen : ℕ) : ℕ :=
  ((List.range maxlen).find? fun i => s i = 0).getD maxlen

/-- The check of `ahc` on what follows `/blob/`: the bytes of the id. -/
def ahcId (s : ℕ → UInt8) : Option (List UInt8) :=
  if idLength = strnlen s (1 + idLength) then idHexToBytesAt s else none

/-- The memory holds this string and a zero behind it. -/
structure HoldsString (s : ℕ → UInt8) (tail : List UInt8) : Prop where
  nonzero : 0 ∉ tail
  bytes : ∀ i, (h : i < tail.length) → s i = tail[i]
  zero : s tail.length = 0

/-! ## The server reads hexadecimal text -/

theorem or_and_eq_zero (x y z : UInt32) : (x ||| y) &&& z = 0 ↔ x &&& z = 0 ∧ y &&& z = 0 := by
  have hdistrib : (x ||| y) &&& z = x &&& z ||| y &&& z := by
    apply UInt32.toBitVec_inj.mp
    rw [UInt32.toBitVec_and, UInt32.toBitVec_or, UInt32.toBitVec_or, UInt32.toBitVec_and,
      UInt32.toBitVec_and, BitVec.and_or_distrib_right]
  rw [hdistrib, UInt32.or_eq_zero_iff]

/-- Bit 7 of an entry says that there is no digit. -/
theorem hexvalU_and_eq_zero (c : UInt8) : hexvalU c &&& 0x80 = 0 ↔ Hex.IsDigit c :=
  Hex.forall_byte (p := fun c => hexvalU c &&& 0x80 = 0 ↔ Hex.IsDigit c) (by decide +kernel) c

theorem hexvalU_of_isDigit {c : UInt8} : Hex.IsDigit c → hexvalU c = .ofNat (Hex.value c) :=
  Hex.forall_byte (p := fun c => Hex.IsDigit c → hexvalU c = .ofNat (Hex.value c))
    (by decide +kernel) c

theorem hex_byte {a b : ℕ} (ha : a < 16) (hb : b < 16) :
    (UInt32.ofNat a <<< 4 ||| UInt32.ofNat b).toUInt8 = .ofNat (16 * a + b) := by
  have hall : ∀ a < 16, ∀ b < 16,
      (UInt32.ofNat a <<< 4 ||| UInt32.ofNat b).toUInt8 = .ofNat (16 * a + b) := by decide +kernel
  exact hall a ha b hb

theorem idHexToBytesAtLoop_eq (s : ℕ → UInt8) (n i : ℕ) :
    idHexToBytesAtLoop s n i = Hex.decode ((List.range' i (2 * n)).map s) := by
  induction n generalizing i with
  | zero => rfl
  | succ n ih =>
    have hrange : List.range' i (2 * (n + 1)) = i :: (i + 1) :: List.range' (i + 2) (2 * n) := by
      rw [show 2 * (n + 1) = 2 * n + 1 + 1 by omega, List.range'_succ, List.range'_succ]
    rw [hrange, List.map_cons, List.map_cons, Hex.decode, idHexToBytesAtLoop]
    by_cases hdigits : Hex.IsDigit (s i) ∧ Hex.IsDigit (s (i + 1))
    · have hvalid : (hexvalU (s i) ||| hexvalU (s (i + 1))) &&& 0x80 = 0 := by
        rw [or_and_eq_zero, hexvalU_and_eq_zero, hexvalU_and_eq_zero]
        exact hdigits
      rw [if_pos hdigits, if_neg (not_not.mpr hvalid), ih, hexvalU_of_isDigit hdigits.1,
        hexvalU_of_isDigit hdigits.2, hex_byte (Hex.value_lt hdigits.1) (Hex.value_lt hdigits.2)]
    · rw [if_neg hdigits, if_pos]
      rwa [Ne, or_and_eq_zero, hexvalU_and_eq_zero, hexvalU_and_eq_zero]

namespace HoldsString

variable {s : ℕ → UInt8} {tail : List UInt8}

theorem map_range (h : HoldsString s tail) : (List.range' 0 tail.length).map s = tail := by
  apply List.ext_getElem
  · simp
  · intro i h1 h2
    rw [List.getElem_map, List.getElem_range']
    simpa using h.bytes i h2

theorem eq_zero_iff (h : HoldsString s tail) {i : ℕ} (hi : i ≤ tail.length) :
    s i = 0 ↔ i = tail.length := by
  constructor
  · intro hzero
    by_contra hne
    have hlt : i < tail.length := by omega
    rw [h.bytes i hlt] at hzero
    exact h.nonzero (hzero ▸ List.getElem_mem hlt)
  · rintro rfl
    exact h.zero

theorem strnlen_eq (h : HoldsString s tail) (maxlen : ℕ) :
    strnlen s maxlen = min tail.length maxlen := by
  rw [strnlen]
  cases hfind : (List.range maxlen).find? fun i => s i = 0 with
  | none =>
    rw [Option.getD_none]
    by_contra hne
    have hlt : tail.length < maxlen := by omega
    have := List.find?_eq_none.mp hfind tail.length (List.mem_range.mpr hlt)
    exact this (decide_eq_true h.zero)
  | some i =>
    rw [Option.getD_some]
    obtain ⟨hzero, hmem, hfirst⟩ := List.find?_range_eq_some.mp hfind
    have hmax := List.mem_range.mp hmem
    have hle : i ≤ tail.length := by
      by_contra hgt
      have hlater := hfirst tail.length (by omega)
      rw [h.zero] at hlater
      cases hlater
    have hi : i = tail.length := (h.eq_zero_iff hle).mp (of_decide_eq_true hzero)
    omega

/-- The length is checked before the digits, and a tail that passes it is read as a whole. -/
theorem ahcId_eq_some_iff (h : HoldsString s tail) {id : List UInt8} :
    ahcId s = some id ↔ tail.length = idLength ∧ Hex.decode tail = some id := by
  have hstrnlen : idLength = strnlen s (1 + idLength) ↔ tail.length = idLength := by
    rw [h.strnlen_eq]
    omega
  rw [ahcId, if_congr hstrnlen rfl rfl]
  split_ifs with hlen
  · have hturns : 2 * (idLength / 2) = tail.length := by
      rw [hlen]
      rfl
    rw [idHexToBytesAt, idHexToBytesAtLoop_eq, hturns, h.map_range, and_iff_right hlen]
  · simp [hlen]

end HoldsString

/-! ## The client writes it -/

/-- The bytes of a text of ASCII. -/
def ascii (text : List Char) : List UInt8 := text.map fun c => .ofNat c.toNat

theorem ascii_bytesToHex (id : List UInt8) : ascii (Client.bytesToHex id) = Hex.encode id := by
  have hdigit : ∀ v < 16, UInt8.ofNat (Client.hexDigit v).toNat = Hex.digit v := by decide
  rw [ascii, Client.bytesToHex, Hex.encode, List.map_flatMap]
  congr 1
  funext b
  have hb := b.toNat_lt
  rw [List.map_cons, List.map_cons, List.map_nil, hdigit _ (by omega), hdigit _ (by omega)]

/-! ## The handler's paths -/

/-- A text of bytes as the handler has it. -/
def chars (text : List UInt8) : List Char := text.map fun c => Char.ofNat c.toNat

theorem hexval_and_eq_zero (c : UInt8) :
    hexval (Char.ofNat c.toNat) &&& 0x80 = 0 ↔ Hex.IsDigit c :=
  Hex.forall_byte (p := fun c => hexval (Char.ofNat c.toNat) &&& 0x80 = 0 ↔ Hex.IsDigit c)
    (by decide +kernel) c

theorem hexval_of_isDigit {c : UInt8} :
    Hex.IsDigit c → hexval (Char.ofNat c.toNat) = Hex.value c :=
  Hex.forall_byte (p := fun c => Hex.IsDigit c → hexval (Char.ofNat c.toNat) = Hex.value c)
    (by decide +kernel) c

theorem shiftLeft_or {a b : ℕ} (ha : a < 16) (hb : b < 16) : a <<< 4 ||| b = 16 * a + b := by
  have hall : ∀ a < 16, ∀ b < 16, a <<< 4 ||| b = 16 * a + b := by decide +kernel
  exact hall a ha b hb

theorem idHexToBytesLoop_eq (n : ℕ) {text : List UInt8} (h : text.length = 2 * n) :
    idHexToBytesLoop n (chars text) = Hex.decode text := by
  induction n generalizing text with
  | zero =>
    obtain rfl := List.length_eq_zero_iff.mp h
    rfl
  | succ n ih =>
    obtain ⟨a, b, text, rfl⟩ : ∃ a b text', text = a :: b :: text' :=
      match text, h with
      | a :: b :: text', _ => ⟨a, b, text', rfl⟩
    have hlen : text.length = 2 * n := by
      rw [List.length_cons, List.length_cons] at h
      omega
    change (if (hexval (Char.ofNat a.toNat) ||| hexval (Char.ofNat b.toNat)) &&& 0x80 ≠ 0 then none
      else (idHexToBytesLoop n (chars text)).map fun out =>
        .ofNat (hexval (Char.ofNat a.toNat) <<< 4 ||| hexval (Char.ofNat b.toNat)) :: out) = _
    simp only [Hex.decode, ih hlen, Nat.and_or_distrib_right, ne_eq, Nat.or_eq_zero_iff,
      hexval_and_eq_zero, ite_not]
    split_ifs with hdigits
    · rw [hexval_of_isDigit hdigits.1, hexval_of_isDigit hdigits.2,
        shiftLeft_or (Hex.value_lt hdigits.1) (Hex.value_lt hdigits.2)]
    · rfl

/-- **The handler's id** is the one of the bytes in memory, unless it is null. -/
theorem requestId_eq {s : ℕ → UInt8} {tail : List UInt8} (h : HoldsString s tail) {rq : Request}
    (hurl : rq.url = "/blob/".toList ++ chars tail) :
    requestId rq = ((ahcId s).map keyOfBytes).filter fun id => id ≠ HtableKey.null := by
  have hdrop : rq.url.drop 6 = chars tail := by rw [hurl]; rfl
  have hlength : (rq.url.drop 6).length = tail.length := by rw [hdrop, chars, List.length_map]
  have hprefix : "/blob/".toList.isPrefixOf rq.url = true := by rw [hurl]; rfl
  rw [requestId, if_congr (and_iff_right hprefix) rfl rfl, hlength]
  split_ifs with hlen
  · have hahc : ahcId s = Hex.decode tail := by
      ext1 id
      rw [h.ahcId_eq_some_iff, and_iff_right hlen]
    have hloop : idHexToBytes (chars tail) = Hex.decode tail := idHexToBytesLoop_eq _ hlen
    rw [blobId, hdrop, hloop, hahc]
    cases hid : Hex.decode tail with
    | none => rfl
    | some bytes => by_cases hnull : keyOfBytes bytes = HtableKey.null <;> simp [hnull, Option.filter]
  · have hnone : ahcId s = none := by
      cases hid : ahcId s with
      | none => rfl
      | some id => exact absurd (h.ahcId_eq_some_iff.mp hid).1 hlen
    rw [hnone]
    rfl

/-! ## The law -/

theorem keyOfBytes_inj {bs bs' : List UInt8} (h : bs.length = 16) (h' : bs'.length = 16) :
    keyOfBytes bs = keyOfBytes bs' ↔ bs = bs' := by
  refine ⟨fun heq => ?_, fun heq => by rw [heq]⟩
  have hword : ∀ {a b : List UInt8}, a.length = 8 → b.length = 8 →
      UInt64.ofNat (bytesWord a) = UInt64.ofNat (bytesWord b) → a = b := by
    intro a b ha hb hab
    have hlta := bytesWord_lt a
    have hltb := bytesWord_lt b
    rw [ha] at hlta
    rw [hb] at hltb
    apply bytesWord_inj (ha.trans hb.symm)
    have := congrArg UInt64.toNat hab
    rwa [UInt64.toNat_ofNat', UInt64.toNat_ofNat', Nat.mod_eq_of_lt (by omega),
      Nat.mod_eq_of_lt (by omega)] at this
  obtain ⟨hl, hh⟩ := HtableKey.mk.inj heq
  rw [← List.take_append_drop 8 bs, ← List.take_append_drop 8 bs',
    hword (by simp [h]) (by simp [h']) hl, hword (by simp [h]) (by simp [h']) hh]

/-- **Blob ids on the wire**. The server accepts the tails of 32 digits, has the id that the client
wrote, and the same id for two tails exactly if they differ in case only. It is the id of the
request, if it is not null. -/
theorem blob_id_on_the_wire :
    (∀ s tail, HoldsString s tail →
      ((ahcId s).isSome ↔ tail.length = idLength ∧ ∀ c ∈ tail, Hex.IsDigit c)) ∧
    (∀ s id, id.length = 16 → HoldsString s (ascii (Client.bytesToHex id)) → ahcId s = some id) ∧
    (∀ s s' tail tail' id id', HoldsString s tail → HoldsString s' tail' → ahcId s = some id →
      ahcId s' = some id' →
      (keyOfBytes id = keyOfBytes id' ↔ tail.map Hex.lower = tail'.map Hex.lower)) ∧
    ∀ s tail (rq : Request), HoldsString s tail → rq.url = "/blob/".toList ++ chars tail →
      requestId rq = ((ahcId s).map keyOfBytes).filter fun id => id ≠ HtableKey.null := by
  refine ⟨fun s tail h => ?_, fun s id hid h => ?_, fun s s' tail tail' id id' h h' hs hs' => ?_,
    fun s tail rq h hurl => requestId_eq h hurl⟩
  · rw [Option.isSome_iff_exists]
    simp only [h.ahcId_eq_some_iff, exists_and_left, ← Option.isSome_iff_exists,
      Hex.isSome_decode_iff]
    refine and_congr_right fun hlen => and_iff_right ?_
    rw [hlen, idLength]
  · rw [h.ahcId_eq_some_iff, ascii_bytesToHex, Hex.length_encode, hid]
    exact ⟨rfl, Hex.decode_encode id⟩
  · obtain ⟨hlen, hdecode⟩ := h.ahcId_eq_some_iff.mp hs
    obtain ⟨hlen', hdecode'⟩ := h'.ahcId_eq_some_iff.mp hs'
    have hid := Hex.length_of_decode hdecode
    have hid' := Hex.length_of_decode hdecode'
    rw [hlen, idLength] at hid
    rw [hlen', idLength] at hid'
    rw [keyOfBytes_inj (by omega) (by omega), Hex.eq_iff_of_decode hdecode hdecode']

/-- Memory that holds a text at address 0. -/
def textAt (text : List UInt8) : ℕ → UInt8 := fun i => text.getD i 0

theorem holdsString_textAt (text : List UInt8) (h : 0 ∉ text) : HoldsString (textAt text) text where
  nonzero := h
  bytes i hi := by simp [textAt, hi]
  zero := by simp [textAt]

/-- The same id in either case, and what a request with the upper one names. -/
theorem blob_id_on_the_wire_demo :
    let id := List.replicate 16 0xAB
    let lower := ascii (List.replicate 16 ['a', 'b']).flatten
    let upper := ascii (List.replicate 16 ['A', 'B']).flatten
    (ahcId (textAt upper)).isSome ∧ ahcId (textAt lower) = some id ∧
      lower.map Hex.lower = upper.map Hex.lower ∧
      ∀ rq : Request, rq.url = "/blob/".toList ++ chars upper → requestId rq = some (keyOfBytes id) := by
  have hlower := holdsString_textAt (ascii (List.replicate 16 ['a', 'b']).flatten) (by decide)
  have hupper := holdsString_textAt (ascii (List.replicate 16 ['A', 'B']).flatten) (by decide)
  obtain ⟨haccept, hread, hsame, hnames⟩ := blob_id_on_the_wire
  have hid := hread _ (List.replicate 16 0xAB) rfl hlower
  have hid' : ahcId (textAt (ascii (List.replicate 16 ['A', 'B']).flatten)) =
      some (List.replicate 16 0xAB) := hupper.ahcId_eq_some_iff.mpr ⟨rfl, by decide +kernel⟩
  refine ⟨(haccept _ _ hupper).mpr ⟨rfl, by decide +kernel⟩, hid,
    (hsame _ _ _ _ _ _ hlower hupper hid hid').mp rfl, fun rq hurl => ?_⟩
  rw [hnames (textAt _) _ rq hupper hurl, hid']
  decide +kernel

end Adnihilum
