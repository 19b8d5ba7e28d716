import Mathlib
import Adnihilum.Qr.Codewords
import Adnihilum.Qr.Place

/-!
# A symbol is read back

* **`symbol_reads`**: whatever the text, the level, and the mask that is chosen, a reader gets the
  bytes of the text.
* **`symbol_blocks`**: the blocks that it finds are codewords of the correction.
* **`makeCode_succeeds_iff`**: of the texts of ASCII, which ones have a symbol.
-/

namespace Adnihilum.Qr

open Bits Interleave Horner

/-! ## The data on the square -/

/-- One bit of the codewords; there are only zeros after them. -/
def dataBit (data : List (Option ℕ)) (k : ℕ) : Bool :=
  if k / 8 < data.length then ((data.getD (k / 8) none).getD 0).testBit (7 - k % 8) else false

/-- What `mapData` puts on a module. -/
def maskedBit (data : List (Option ℕ)) (maskPattern : Fin 8) (k : ℕ) (p : ℕ × ℕ) : Bool :=
  if getMask maskPattern p.1 p.2 then !dataBit data k else dataBit data k

theorem foldl_placeBit (data : List (Option ℕ)) (maskPattern : Fin 8) (ps : List (ℕ × ℕ))
    (m : ℕ × ℕ → Option Bool) (k : ℕ) :
    (ps.foldl (placeBit data maskPattern) ⟨⟨m⟩, 7 - k % 8, k / 8⟩).modules.get =
      (Filling.fill (maskedBit data maskPattern) ps (m, k)).1 := by
  induction ps generalizing m k with
  | nil => rfl
  | cons p ps ih =>
    rw [List.foldl_cons]
    by_cases hp : m p = none
    · have hbit : (if 7 - k % 8 = 0 then 7 else 7 - k % 8 - 1) = 7 - (k + 1) % 8 := by
        split_ifs <;> omega
      have hbyte : (if 7 - k % 8 = 0 then k / 8 + 1 else k / 8) = (k + 1) / 8 := by
        split_ifs <;> omega
      have hstep : placeBit data maskPattern ⟨⟨m⟩, 7 - k % 8, k / 8⟩ p =
          ⟨⟨Function.update m p (some (maskedBit data maskPattern k p))⟩, 7 - (k + 1) % 8,
            (k + 1) / 8⟩ := by
        rw [← hbit, ← hbyte]
        exact if_pos hp
      rw [hstep, ih, Filling.fill_cons_free _ ps k hp]
    · have hstep : placeBit data maskPattern ⟨⟨m⟩, 7 - k % 8, k / 8⟩ p = ⟨⟨m⟩, 7 - k % 8, k / 8⟩ :=
        if_neg hp
      rw [hstep, ih, Filling.fill_cons_taken _ ps k hp]

theorem get_mapData (n : ℕ) (data : List (Option ℕ)) (maskPattern : Fin 8) (m : Modules) :
    (mapData n data maskPattern m).get =
      (Filling.fill (maskedBit data maskPattern) (path n) (m.get, 0)).1 :=
  foldl_placeBit data maskPattern (path n) m.get 0

section Made

variable {v : ℕ} (hv : Version v) {level : QRErrorCorrectLevel} {data : List (Option ℕ)}
  {maskPattern : Fin 8}

include hv

/-- **A data module shows its bit, masked.** -/
theorem dark_dataPlaces {i : ℕ} {p : ℕ × ℕ} (h : (dataPlaces v)[i]? = some p) :
    (makeImpl v level data false maskPattern).dark p = maskedBit data maskPattern i p := by
  have hfree := Filling.fill_reads (maskedBit data maskPattern) (nodup_path hv)
    (patterns v level false maskPattern).get 0 (by rw [free_path hv]; exact h)
  rw [Nat.zero_add] at hfree
  have hget : (makeImpl v level data false maskPattern).modules.get p =
      some (maskedBit data maskPattern i p) :=
    (congrFun (get_mapData _ data maskPattern _) p).trans hfree
  rw [QRCodeModel.dark, hget]
  cases maskedBit data maskPattern i p <;> rfl

/-- **A format module shows its bit.** -/
theorem dark_formatPlace {i : ℕ} (hi : i < 15) :
    (makeImpl v level data false maskPattern).dark (formatPlace (v * 4 + 17) i) =
      (getBCHTypeInfo (level.code <<< 3 ||| maskPattern)).testBit i := by
  have hget : (makeImpl v level data false maskPattern).modules.get (formatPlace (v * 4 + 17) i) =
      some ((getBCHTypeInfo (level.code <<< 3 ||| maskPattern)).testBit i) :=
    (congrFun (get_mapData _ data maskPattern _) _).trans
      (Filling.fill_of_some _ (get_patterns_format hv hi))
  rw [QRCodeModel.dark, hget]
  cases (getBCHTypeInfo (level.code <<< 3 ||| maskPattern)).testBit i <;> rfl

end Made

/-! ## The format -/

theorem bchTypeInfo_reads : ∀ level : QRErrorCorrectLevel, ∀ maskPattern : Fin 8,
    getBCHTypeInfo (level.code <<< 3 ||| maskPattern) < 2 ^ 15 ∧
      levelOf (((getBCHTypeInfo (level.code <<< 3 ||| maskPattern) ^^^ g15Mask) >>> 10) / 8) = level ∧
      maskOf ((getBCHTypeInfo (level.code <<< 3 ||| maskPattern) ^^^ g15Mask) >>> 10) = maskPattern := by
  intro level
  cases level <;> decide +kernel

theorem readFormat_eq {v : ℕ} (hv : Version v) (level : QRErrorCorrectLevel)
    (data : List (Option ℕ)) (maskPattern : Fin 8) :
    readFormat (v * 4 + 17) (makeImpl v level data false maskPattern).dark =
      (getBCHTypeInfo (level.code <<< 3 ||| maskPattern) ^^^ g15Mask) >>> 10 := by
  have hbits : ((List.range 15).map fun i =>
      (makeImpl v level data false maskPattern).dark (formatPlace (v * 4 + 17) (14 - i))) =
        toBits 15 (getBCHTypeInfo (level.code <<< 3 ||| maskPattern)) :=
    List.map_congr_left fun i hi => dark_formatPlace hv (by omega)
  rw [readFormat, hbits, ofBits_toBits, Nat.mod_eq_of_lt (bchTypeInfo_reads level maskPattern).1]

/-! ## The codewords -/

/-- The bytes that the codewords stand for. -/
def bytesFor (data : List (Option ℕ)) : List ℕ := data.map (·.getD 0)

theorem dataBit_eq (data : List (Option ℕ)) {k : ℕ} (hk : k < 8 * data.length) :
    ((bytesFor data).flatMap (toBits 8))[k]? = some (dataBit data k) := by
  have hlen : (bytesFor data).length = data.length := List.length_map _
  have hget : (bytesFor data).getD (k / 8) 0 = (data.getD (k / 8) none).getD 0 := by
    exact List.getD_map data none fun c => c.getD 0
  rw [getElem?_flatMap_toBits _ (by rwa [hlen]), dataBit, if_pos (by omega), hget]

theorem readCodewords_eq {v : ℕ} (hv : Version v) {level : QRErrorCorrectLevel}
    {data : List (Option ℕ)} {maskPattern : Fin 8} (hbytes : ∀ c ∈ data, c.getD 0 < 256)
    (hlen : 8 * data.length ≤ (dataPlaces v).length) :
    readCodewords v maskPattern (makeImpl v level data false maskPattern).dark data.length =
      bytesFor data := by
  have hbits : ((dataPlaces v).map fun p =>
      (makeImpl v level data false maskPattern).dark p ^^ getMask maskPattern p.1 p.2).take
        (8 * data.length) = (bytesFor data).flatMap (toBits 8) := by
    apply List.ext_getElem?
    intro k
    by_cases hk : k < 8 * data.length
    · have hget : (dataPlaces v)[k]? = some (dataPlaces v)[k] := List.getElem?_eq_getElem (by omega)
      rw [dataBit_eq data hk, List.getElem?_take_of_lt hk, List.getElem?_map, hget, Option.map_some,
        dark_dataPlaces hv hget, maskedBit]
      cases getMask maskPattern (dataPlaces v)[k].1 (dataPlaces v)[k].2 <;>
        cases dataBit data k <;> rfl
    · rw [List.getElem?_eq_none (by rw [List.length_take]; omega), List.getElem?_eq_none (by
        rw [length_flatMap_toBits, bytesFor, List.length_map]
        omega)]
  have hcount : (bytesFor data).length = data.length := List.length_map _
  have hread := bytesOf_flatMap (show ∀ b ∈ bytesFor data, b < 256 from fun b hb => by
    obtain ⟨c, hc, rfl⟩ := List.mem_map.mp hb
    exact hbytes c hc) (((dataPlaces v).map fun p =>
      (makeImpl v level data false maskPattern).dark p ^^ getMask maskPattern p.1 p.2).drop
        (8 * data.length))
  rw [← hbits, List.take_append_drop, hcount] at hread
  exact hread

/-- What `createData` makes of the bytes of a text that fits. -/
structure Made (v : ℕ) (level : QRErrorCorrectLevel) (text : List ℕ) (data : List (Option ℕ))
    (b : QRBitBuffer) (rest : List Bool) : Prop where
  holds : Holds b (textBits v text ++ rest)
  full : (textBits v text ++ rest).length = 8 * totalDataCount v level
  data : data = interleave (maxDcCount (blocks v level))
      ((dcdata b.buffer 0 (blocks v level)).map fun d => d.map some) ++
    interleave (maxEcCount (blocks v level)) (ecBlocks b.buffer (blocks v level))

theorem exists_made {v : ℕ} (hv : Version v) {level : QRErrorCorrectLevel} {text : List ℕ}
    (h : Fits v level text) :
    ∃ data b rest, createData v level text = .ok data ∧ Made v level text data b rest := by
  obtain ⟨b, rest, hcreate, hholds, hfull⟩ := createData_of_fits hv level text h
  have hbytes := createBytes_eq (fun c hc => ((blocks_of_version hv level).2 c hc).2.2.1) b
  exact ⟨_, b, rest, hcreate.trans hbytes, hholds, hfull, rfl⟩

theorem sum_dataCount_add {bs : List QRRSBlock} (h : ∀ c ∈ bs, c.dataCount ≤ c.totalCount) :
    (bs.map QRRSBlock.dataCount).sum + (bs.map fun c => c.totalCount - c.dataCount).sum =
      (bs.map QRRSBlock.totalCount).sum := by
  induction bs with
  | nil => rfl
  | cons c bs ih =>
    obtain ⟨hc, hbs⟩ := List.forall_mem_cons.mp h
    rw [List.map_cons, List.map_cons, List.map_cons, List.sum_cons, List.sum_cons, List.sum_cons,
      ← ih hbs]
    omega

theorem lengths_blocks {v : ℕ} (hv : Version v) (level : QRErrorCorrectLevel) (b : QRBitBuffer) :
    (∀ d ∈ dcdata b.buffer 0 (blocks v level), d.length ≤ maxDcCount (blocks v level)) ∧
      (∀ d ∈ (ecBlocks b.buffer (blocks v level)).map bytesFor,
        d.length ≤ maxEcCount (blocks v level)) ∧
      ((ecBlocks b.buffer (blocks v level)).map bytesFor).map List.length =
        (blocks v level).map fun b => b.totalCount - b.dataCount := by
  have hec := map_length_ecBlocks (fun c hc => ((blocks_of_version hv level).2 c hc).2.2.1) b
  have hec' : ((ecBlocks b.buffer (blocks v level)).map bytesFor).map List.length =
      (blocks v level).map fun b => b.totalCount - b.dataCount := by
    rw [← hec, List.map_map]
    exact List.map_congr_left fun d _ => List.length_map _
  refine ⟨fun d hd => ?_, fun d hd => ?_, hec'⟩
  · refine (le_foldl_max _ 0).2 _ ?_
    rw [← map_length_dcdata b.buffer 0]
    exact List.mem_map_of_mem hd
  · refine (le_foldl_max _ 0).2 _ ?_
    rw [← hec']
    exact List.mem_map_of_mem hd

namespace Made

variable {v : ℕ} (hv : Version v) {level : QRErrorCorrectLevel} {text : List ℕ}
  {data : List (Option ℕ)} {b : QRBitBuffer} {rest : List Bool} (h : Made v level text data b rest)

include h

theorem fits : Fits v level text := by
  have hfull := h.full
  rw [List.length_append, length_textBits] at hfull
  rw [Fits]
  omega

theorem bytesFor_eq : bytesFor data =
    interleave (maxDcCount (blocks v level)) (dcdata b.buffer 0 (blocks v level)) ++
      interleave (maxEcCount (blocks v level)) ((ecBlocks b.buffer (blocks v level)).map bytesFor) := by
  have hsome : ∀ d : List ℕ, (d.map some).map (fun c => c.getD 0) = d := fun d => by
    rw [List.map_map]
    exact List.map_id d
  rw [h.data, bytesFor, List.map_append, map_interleave, map_interleave, List.map_map]
  congr 2
  exact (List.map_congr_left fun d _ => hsome d).trans (List.map_id _)

theorem bytes : ∀ c ∈ data, c.getD 0 < 256 := by
  intro c hc
  rw [h.data] at hc
  rcases List.mem_append.mp hc with hc | hc
  · obtain ⟨col, hcol, hc⟩ := exists_mem_of_mem_interleave hc
    obtain ⟨d, hd, rfl⟩ := List.mem_map.mp hcol
    obtain ⟨x, hx, rfl⟩ := List.mem_map.mp hc
    exact byte_dcdata hd x hx
  · obtain ⟨col, hcol, hc⟩ := exists_mem_of_mem_interleave hc
    obtain ⟨p, hp, rfl⟩ := List.mem_map.mp hcol
    exact byte_ecWords (byte_dcdata (List.of_mem_zip hp).1) c hc

include hv

theorem length_data : data.length = ((blocks v level).map QRRSBlock.totalCount).sum := by
  obtain ⟨hdc, hec, hlen⟩ := lengths_blocks hv level b
  have hlen' : data.length = (bytesFor data).length := (List.length_map _).symm
  rw [hlen', h.bytesFor_eq, List.length_append, length_interleave_eq_sum hdc,
    length_interleave_eq_sum hec, hlen, map_length_dcdata]
  exact sum_dataCount_add fun c hc => ((blocks_of_version hv level).2 c hc).2.1

/-- **A reader finds the blocks.** -/
theorem readBlocks_eq (maskPattern : Fin 8) :
    readBlocks (v * 4 + 17) (makeImpl v level data false maskPattern).dark =
      (dcdata b.buffer 0 (blocks v level), (ecBlocks b.buffer (blocks v level)).map bytesFor) := by
  obtain ⟨hdc, hec, hlen⟩ := lengths_blocks hv level b
  obtain ⟨-, hlevel, hmask⟩ := bchTypeInfo_reads level maskPattern
  have hversion : (v * 4 + 17 - 17) / 4 = v := by omega
  have hwords : readCodewords v maskPattern (makeImpl v level data false maskPattern).dark
      data.length = bytesFor data := readCodewords_eq hv h.bytes (by
    rw [h.length_data hv]
    exact room_for_codewords hv level)
  have hdrop : (bytesFor data).drop ((blocks v level).map QRRSBlock.dataCount).sum =
      interleave (maxEcCount (blocks v level)) ((ecBlocks b.buffer (blocks v level)).map bytesFor) := by
    rw [h.bytesFor_eq, ← map_length_dcdata b.buffer 0, ← length_interleave_eq_sum hdc]
    exact List.drop_left
  have hfirst := deinterleave_interleave hdc (interleave (maxEcCount (blocks v level))
    ((ecBlocks b.buffer (blocks v level)).map bytesFor))
  have hsecond := deinterleave_interleave hec []
  rw [List.append_nil, hlen] at hsecond
  rw [map_length_dcdata, ← h.bytesFor_eq] at hfirst
  rw [readBlocks, readFormat_eq hv, hversion, hlevel, hmask, ← h.length_data hv, hwords,
    hdrop]
  exact Prod.ext hfirst hsecond

omit hv in
theorem flatMap_flatten :
    (dcdata b.buffer 0 (blocks v level)).flatten.flatMap (toBits 8) = textBits v text ++ rest := by
  obtain ⟨hsize, hbits⟩ := h.holds.flatMap_buffer h.full
  have hflat : (dcdata b.buffer 0 (blocks v level)).flatten =
      (b.buffer.drop 0).take ((blocks v level).map QRRSBlock.dataCount).sum :=
    flatten_dcdata (fun k => h.holds.bytes k) (by rw [hsize, Nat.zero_add, totalDataCount])
  rw [hflat, List.drop_zero, ← totalDataCount, ← hsize, List.take_length, hbits]

end Made

/-! ## The text -/

/-- The codewords of a version are fewer than its count of bytes can tell. -/
theorem totalDataCount_lt {v : ℕ} (hv : Version v) (level : QRErrorCorrectLevel) :
    totalDataCount v level < 2 ^ lengthBits v :=
  of_decide_eq_true (forall_version
    (p := fun v level => decide (totalDataCount v level < 2 ^ lengthBits v)) (by decide +kernel) hv level)

/-- **A reader finds the bytes of the text.** -/
theorem readBytes_eq {v : ℕ} (hv : Version v) {level : QRErrorCorrectLevel} {text data : List ℕ}
    {rest : List Bool} (hfits : Fits v level text) (htext : ∀ x ∈ text, x < 256)
    (hdata : data.flatMap (toBits 8) = textBits v text ++ rest) : readBytes v data = some text := by
  have hcount : text.length < 2 ^ lengthBits v := by
    have hlt := totalDataCount_lt hv level
    rw [Fits] at hfits
    omega
  have hmode : ofBits ((textBits v text ++ rest).take 4) = 4 := by
    rw [textBits, List.append_assoc, List.append_assoc, List.take_left' (length_toBits 4 4)]
    decide
  have hlength : ofBits (((textBits v text ++ rest).drop 4).take (lengthBits v)) = text.length := by
    rw [textBits, List.append_assoc, List.append_assoc, List.drop_left' (length_toBits 4 4),
      List.take_left' (length_toBits _ _), ofBits_toBits, Nat.mod_eq_of_lt hcount]
  have hbytes : (textBits v text ++ rest).drop (4 + lengthBits v) = text.flatMap (toBits 8) ++ rest := by
    rw [textBits, List.append_assoc]
    exact List.drop_left' (by rw [List.length_append, length_toBits, length_toBits])
  rw [readBytes, hdata, hlength, hbytes, bytesOf_flatMap htext]
  exact if_pos hmode

theorem or_and_lt {a m k : ℕ} (code : ℕ) (ha : a < 256) (hm : m >>> k < 256) :
    a ||| (code &&& m) >>> k < 256 := by
  refine Nat.or_lt_two_pow (n := 8) ha ?_
  rw [Nat.shiftRight_and_distrib]
  exact lt_of_le_of_lt Nat.and_le_right hm

theorem byteArray_lt (code : ℕ) : ∀ x ∈ byteArray code, x < 256 := by
  rw [byteArray]
  split_ifs with h1 h2 h3
  · simp only [List.mem_cons, List.not_mem_nil, or_false]
    rintro x (rfl | rfl | rfl | rfl)
    · exact or_and_lt code (by decide) (by decide)
    · exact or_and_lt code (by decide) (by decide)
    · exact or_and_lt code (by decide) (by decide)
    · exact or_and_lt (k := 0) code (by decide) (by decide)
  · simp only [List.mem_cons, List.not_mem_nil, or_false]
    rintro x (rfl | rfl | rfl)
    · exact or_and_lt code (by decide) (by decide)
    · exact or_and_lt code (by decide) (by decide)
    · exact or_and_lt (k := 0) code (by decide) (by decide)
  · simp only [List.mem_cons, List.not_mem_nil, or_false]
    rintro x (rfl | rfl)
    · exact or_and_lt code (by decide) (by decide)
    · exact or_and_lt (k := 0) code (by decide) (by decide)
  · intro x hx
    rw [List.mem_singleton.mp hx]
    omega

theorem parsedData_lt (sText : List Char) : ∀ x ∈ parsedData sText, x < 256 := by
  have hparsed : ∀ x ∈ (sText.flatMap utf16).flatMap byteArray, x < 256 := by
    intro x hx
    obtain ⟨code, -, hx⟩ := List.mem_flatMap.mp hx
    exact byteArray_lt code x hx
  rw [parsedData]
  split_ifs
  · simp only [List.mem_cons]
    rintro x (rfl | rfl | rfl | hx)
    · decide
    · decide
    · decide
    · exact hparsed x hx
  · exact hparsed

/-! ## The symbol -/

section Symbol

variable {getLostPoint : QRCodeModel → ℚ} {toNumber : List Char → Option ℕ} {sText : List Char}
  {level : QRErrorCorrectLevel} {s : QRCodeModel}

theorem makeCode_eq_ok (h : makeCode getLostPoint toNumber sText level = .ok s) :
    ∃ v data b rest maskPattern, getTypeNumber toNumber sText level = .ok v ∧
      Made v level (parsedData sText) data b rest ∧ s = makeImpl v level data false maskPattern := by
  rw [makeCode] at h
  cases hv : getTypeNumber toNumber sText level with
  | error e =>
    rw [hv] at h
    cases h
  | ok v =>
    rw [hv] at h
    have hversion := (getTypeNumber_eq_ok.mp hv).1
    by_cases hfits : Fits v level (parsedData sText)
    · obtain ⟨data, b, rest, hdata, hmade⟩ := exists_made hversion hfits
      change (createData v level (parsedData sText) >>= _) = _ at h
      rw [hdata] at h
      cases h
      exact ⟨v, data, b, rest, _, rfl, hmade, rfl⟩
    · obtain ⟨e, he⟩ := createData_of_not_fits hversion level (parsedData sText) hfits
      change (createData v level (parsedData sText) >>= _) = _ at h
      rw [he] at h
      cases h

/-- **A symbol is read back.** -/
theorem symbol_reads (h : makeCode getLostPoint toNumber sText level = .ok s) :
    readSymbol s.moduleCount s.dark = some (parsedData sText) := by
  obtain ⟨v, data, b, rest, maskPattern, hv, hmade, rfl⟩ := makeCode_eq_ok h
  have hversion := (getTypeNumber_eq_ok.mp hv).1
  have hcount : (v * 4 + 17 - 17) / 4 = v := by omega
  have hread := readBytes_eq hversion hmade.fits (parsedData_lt sText) hmade.flatMap_flatten
  rw [← hread, readSymbol]
  exact congr (congrArg readBytes hcount) (congrArg (fun p => p.1.flatten)
    (hmade.readBlocks_eq hversion maskPattern))

theorem syndrome_bytes {R : Type*} [CommRing R] {α : R} (hα : Root α) {dc : List ℕ}
    (hdc : ∀ x ∈ dc, x < 256) {ecCount : ℕ} (hec : ecCount ≤ 30) {i : ℕ}
    (hi : i < (bytesFor (ecWords dc ecCount)).length) :
    horner (α ^ i) ((dc ++ bytesFor (ecWords dc ecCount)).map (value α)) = 0 := by
  have hlen : (bytesFor (ecWords dc ecCount)).length = ecCount :=
    (List.length_map _).trans (length_ecWords hdc hec)
  have hvalues : (dc ++ bytesFor (ecWords dc ecCount)).map (value α) =
      (dc.map some ++ ecWords dc ecCount).map (coef α) := by
    rw [List.map_append, List.map_append, bytesFor, List.map_map, List.map_map]
    rfl
  rw [hvalues]
  exact syndrome_eq_zero hdc hec hα (by omega)

/-- **The blocks of a symbol are codewords**: at the first powers of a root, as many as a block has
codewords of correction, its value is 0. -/
theorem symbol_blocks (h : makeCode getLostPoint toNumber sText level = .ok s) {R : Type*}
    [CommRing R] {α : R} (hα : Root α) :
    (readBlocks s.moduleCount s.dark).1.map List.length =
        (blocks ((s.moduleCount - 17) / 4) level).map QRRSBlock.dataCount ∧
      (readBlocks s.moduleCount s.dark).2.map List.length =
        (blocks ((s.moduleCount - 17) / 4) level).map (fun b => b.totalCount - b.dataCount) ∧
      ∀ p ∈ (readBlocks s.moduleCount s.dark).1.zip (readBlocks s.moduleCount s.dark).2,
        ∀ i < p.2.length, horner (α ^ i) ((p.1 ++ p.2).map (value α)) = 0 := by
  obtain ⟨v, data, b, rest, maskPattern, hv, hmade, rfl⟩ := makeCode_eq_ok h
  have hversion := (getTypeNumber_eq_ok.mp hv).1
  have hcount : (v * 4 + 17 - 17) / 4 = v := by omega
  have hblocks : readBlocks (makeImpl v level data false maskPattern).moduleCount
      (makeImpl v level data false maskPattern).dark = _ := hmade.readBlocks_eq hversion maskPattern
  have hn : (makeImpl v level data false maskPattern).moduleCount = v * 4 + 17 := rfl
  rw [hblocks, hn, hcount]
  refine ⟨map_length_dcdata _ _ _, (lengths_blocks hversion level b).2.2, ?_⟩
  intro p hp i hi
  obtain ⟨k, hk, rfl⟩ := List.mem_iff_getElem.mp hp
  simp only [ecBlocks, List.getElem_zip, List.getElem_map] at hi ⊢
  exact syndrome_bytes hα (byte_dcdata (List.getElem_mem _))
    ((blocks_of_version hversion level).2 _ (List.getElem_mem _)).2.2.1 hi

/-- **A text has a symbol when it fits into the version that is chosen.** -/
theorem exists_makeCode_iff : (∃ s, makeCode getLostPoint toNumber sText level = .ok s) ↔
    ∃ v, getTypeNumber toNumber sText level = .ok v ∧ Fits v level (parsedData sText) := by
  constructor
  · rintro ⟨s, h⟩
    obtain ⟨v, data, b, rest, maskPattern, hv, hmade, -⟩ := makeCode_eq_ok h
    exact ⟨v, hv, hmade.fits⟩
  · rintro ⟨v, hv, hfits⟩
    obtain ⟨data, b, rest, hdata, -⟩ := exists_made (getTypeNumber_eq_ok.mp hv).1 hfits
    rw [makeCode, hv]
    change ∃ s, (createData v level (parsedData sText) >>= _) = .ok s
    rw [hdata]
    exact ⟨_, rfl⟩

end Symbol

/-! ## Texts of ASCII -/

section Ascii

variable {sText : List Char} (h : ∀ c ∈ sText, c.toNat < 128)

include h

theorem parsedData_ascii : parsedData sText = sText.map Char.toNat := by
  have hunits : sText.flatMap utf16 = sText.map Char.toNat := by
    rw [← List.flatMap_singleton' (sText.map Char.toNat), List.flatMap_map]
    exact List.flatMap_congr fun c hc => if_pos (by have := h c hc; omega)
  have hbytes : (sText.map Char.toNat).flatMap byteArray = sText.map Char.toNat := by
    conv_rhs => rw [← List.flatMap_singleton' (sText.map Char.toNat)]
    refine List.flatMap_congr fun code hcode => ?_
    obtain ⟨c, hc, rfl⟩ := List.mem_map.mp hcode
    have hlt := h c hc
    rw [byteArray, if_neg (by omega), if_neg (by omega), if_neg (by omega)]
  rw [parsedData, hunits, hbytes]
  exact if_neg fun hne => hne rfl

theorem utf8Length_ascii (toNumber : List Char → Option ℕ) :
    sText.length ≤ getUTF8Length toNumber sText ∧ getUTF8Length toNumber sText ≤ sText.length + 3 := by
  have hsize : sText.map Char.utf8Size = sText.map fun _ => 1 :=
    List.map_congr_left fun c hc => Char.utf8Size_eq_one_iff.mpr (by
      rw [UInt32.le_iff_toNat_le]
      exact Nat.le_of_lt_succ (h c hc))
  have hsum : (sText.map Char.utf8Size).sum = sText.length := by
    rw [hsize, List.map_const', List.sum_replicate, smul_eq_mul, mul_one]
  rw [getUTF8Length, hsum]
  split_ifs <;> omega

end Ascii

theorem limit_mono {u v : ℕ} (hu : 1 ≤ u) (huv : u ≤ v) (hv : v ≤ 40) (level : QRErrorCorrectLevel) :
    limit u level ≤ limit v level := by
  have hstep : ∀ w, 1 ≤ w → w < 40 → limit w level ≤ limit (w + 1) level := fun w h1 h40 =>
    of_decide_eq_true ((Bool.or_eq_true_iff.mp (forall_version
      (p := fun v level => decide (v = 40) || decide (limit v level ≤ limit (v + 1) level))
      (by decide +kernel) ⟨h1, h40.le⟩ level)).resolve_left (by
        rw [decide_eq_true_iff]
        omega))
  induction v, huv using Nat.le_induction with
  | base => exact le_rfl
  | succ v huv ih => exact (ih (by omega)).trans (hstep v (by omega) (by omega))

/-- A text of ASCII within the last limit has a symbol, if its version is not the one that the table
of blocks is short of. -/
theorem exists_makeCode {getLostPoint : QRCodeModel → ℚ} {toNumber : List Char → Option ℕ}
    {sText : List Char} {level : QRErrorCorrectLevel} (h : ∀ c ∈ sText, c.toNat < 128)
    (hle : getUTF8Length toNumber sText ≤ limit 40 level)
    (hnot : ¬ (level = .H ∧ 194 < getUTF8Length toNumber sText ∧
      getUTF8Length toNumber sText ≤ 220)) :
    ∃ s, makeCode getLostPoint toNumber sText level = .ok s := by
  obtain ⟨-, h14, h15⟩ := limit_missed
  obtain ⟨hlow, -⟩ := utf8Length_ascii h toNumber
  have hex : ∃ v, 1 ≤ v ∧ getUTF8Length toNumber sText ≤ limit v level := ⟨40, by decide, hle⟩
  obtain ⟨h1, hlim⟩ := Nat.find_spec hex
  have h40 : Nat.find hex ≤ 40 := Nat.find_min' hex ⟨by decide, hle⟩
  have hbefore : ∀ u, 1 ≤ u → u < Nat.find hex → limit u level < getUTF8Length toNumber sText :=
    fun u hu hlt => Nat.lt_of_not_le fun hle => Nat.find_min hex hlt ⟨hu, hle⟩
  have hne : ¬ (Nat.find hex = 15 ∧ level = .H) := by
    rintro ⟨hfind, rfl⟩
    have hlt := hbefore 14 (by decide) (by omega)
    rw [hfind] at hlim
    exact hnot ⟨rfl, by omega, by omega⟩
  have hfits := (limit_fits ⟨h1, h40⟩ level hne).1
  refine exists_makeCode_iff.mpr
    ⟨Nat.find hex, getTypeNumber_eq_ok.mpr ⟨⟨h1, h40⟩, hlim, hbefore⟩, ?_⟩
  rw [Fits, parsedData_ascii h, List.length_map]
  omega

/-- **Which texts of ASCII have a symbol**: those within the last limit, but at the level `H` none
whose length falls to version 15. -/
theorem makeCode_succeeds_iff {getLostPoint : QRCodeModel → ℚ} {toNumber : List Char → Option ℕ}
    {sText : List Char} {level : QRErrorCorrectLevel} (h : ∀ c ∈ sText, c.toNat < 128) :
    (∃ s, makeCode getLostPoint toNumber sText level = .ok s) ↔
      getUTF8Length toNumber sText ≤ limit 40 level ∧
        ¬ (level = .H ∧ 194 < getUTF8Length toNumber sText ∧
          getUTF8Length toNumber sText ≤ 220) := by
  refine ⟨fun hex => ?_, fun ⟨hle, hnot⟩ => exists_makeCode h hle hnot⟩
  obtain ⟨v, hv, hfits⟩ := exists_makeCode_iff.mp hex
  obtain ⟨hmissed, h14, h15⟩ := limit_missed
  obtain ⟨-, hhigh⟩ := utf8Length_ascii h toNumber
  obtain ⟨⟨h1, h40⟩, hle, hbefore⟩ := getTypeNumber_eq_ok.mp hv
  refine ⟨hle.trans (limit_mono h1 h40 le_rfl level), ?_⟩
  rintro ⟨rfl, hlt, hgt⟩
  have hv15 : v = 15 := by
    rcases Nat.lt_trichotomy v 15 with hlt15 | rfl | hgt15
    · have := limit_mono h1 (show v ≤ 14 by omega) (by decide) .H
      omega
    · rfl
    · have := hbefore 15 (by decide) hgt15
      omega
  subst hv15
  rw [Fits, parsedData_ascii h, List.length_map] at hfits
  omega

/-! ## A link -/

/-- A text that has a symbol. -/
def demoLink : List Char :=
  ['h', 't', 't', 'p', 's', ':', '/', '/', 'a', '.', 'i', 'o', '/', '#', 'b']

theorem ascii_demoLink : ∀ c ∈ demoLink, c.toNat < 128 := by simp [demoLink]

theorem exists_demoSymbol : ∃ s, makeCode (fun _ => 0) (fun _ => none) demoLink .H = .ok s :=
  exists_makeCode ascii_demoLink (by decide +kernel) (by decide +kernel)

/-- The link is read back. -/
theorem symbol_reads_demo : ∃ s, makeCode (fun _ => 0) (fun _ => none) demoLink .H = .ok s ∧
    readSymbol s.moduleCount s.dark = some (demoLink.map Char.toNat) := by
  obtain ⟨s, hs⟩ := exists_demoSymbol
  exact ⟨s, hs, (symbol_reads hs).trans (congrArg some (parsedData_ascii ascii_demoLink))⟩

/-- The polynomial of the table of exponents, over two elements. -/
noncomputable def fieldPolynomial : Polynomial (ZMod 2) :=
  Polynomial.X ^ 8 + Polynomial.X ^ 4 + Polynomial.X ^ 3 + Polynomial.X ^ 2 + 1

theorem root_fieldPolynomial : Root (AdjoinRoot.root fieldPolynomial) := by
  have htwo : (2 : AdjoinRoot fieldPolynomial) = 0 := by
    have hmap := map_ofNat (AdjoinRoot.of fieldPolynomial) 2
    rw [← hmap, show (OfNat.ofNat 2 : ZMod 2) = 0 from rfl, map_zero]
  have hroot : Polynomial.eval₂ (AdjoinRoot.of fieldPolynomial) (AdjoinRoot.root fieldPolynomial)
      (Polynomial.X ^ 8 + Polynomial.X ^ 4 + Polynomial.X ^ 3 + Polynomial.X ^ 2 + 1) = 0 :=
    AdjoinRoot.eval₂_root fieldPolynomial
  simp only [Polynomial.eval₂_add, Polynomial.eval₂_pow, Polynomial.eval₂_X, Polynomial.eval₂_one]
    at hroot
  refine ⟨htwo, ?_⟩
  linear_combination hroot - (AdjoinRoot.root fieldPolynomial ^ 4 +
    AdjoinRoot.root fieldPolynomial ^ 3 + AdjoinRoot.root fieldPolynomial ^ 2 + 1) * htwo

/-- Its blocks are codewords over that ring. -/
theorem symbol_blocks_demo : ∃ s, makeCode (fun _ => 0) (fun _ => none) demoLink .H = .ok s ∧
    ∀ p ∈ (readBlocks s.moduleCount s.dark).1.zip (readBlocks s.moduleCount s.dark).2,
      ∀ i < p.2.length,
        horner (AdjoinRoot.root fieldPolynomial ^ i)
          ((p.1 ++ p.2).map (value (AdjoinRoot.root fieldPolynomial))) = 0 := by
  obtain ⟨s, hs⟩ := exists_demoSymbol
  exact ⟨s, hs, (symbol_blocks hs root_fieldPolynomial).2.2⟩

/-- A short link has a symbol at the level `H`, and one of two hundred characters has none. -/
theorem makeCode_succeeds_iff_demo :
    (∃ s, makeCode (fun _ => 0) (fun _ => none) demoLink .H = .ok s) ∧
      ¬ ∃ s, makeCode (fun _ => 0) (fun _ => none) (List.replicate 200 'a') .H = .ok s := by
  refine ⟨(makeCode_succeeds_iff ascii_demoLink).mpr (by decide +kernel), fun hex => ?_⟩
  have hascii : ∀ c ∈ List.replicate 200 'a', c.toNat < 128 := fun c hc => by
    rw [List.eq_of_mem_replicate hc]
    decide
  exact ((makeCode_succeeds_iff hascii).mp hex).2 (by decide +kernel)

end Adnihilum.Qr
