import Adnihilum.Lib.Bits
import Adnihilum.Lib.Interleave
import Adnihilum.Qr.Blocks
import Adnihilum.Qr.Polynomial

/-!
# From a text to codewords

* `parsedData`: the bytes of a text; `QRBitBuffer`: bits collected into bytes.
* `createData`, `createBytes`: the codewords of a text, with those of correction, interleaved.
* `Holds`: the bits that a buffer has; **`createData_of_fits`**: what the codewords are made of.
-/

namespace Adnihilum.Qr

open Bits Interleave

/-! ## Bytes of a text -/

/-- The code units of a character. -/
def utf16 (c : Char) : List ℕ :=
  if c.toNat < 0x10000 then [c.toNat]
  else [0xD800 + (c.toNat - 0x10000) / 0x400, 0xDC00 + (c.toNat - 0x10000) % 0x400]

/-- The bytes of one code unit. -/
def byteArray (code : ℕ) : List ℕ :=
  if 0x10000 < code then
    [0xF0 ||| (code &&& 0x1C0000) >>> 18, 0x80 ||| (code &&& 0x3F000) >>> 12,
      0x80 ||| (code &&& 0xFC0) >>> 6, 0x80 ||| code &&& 0x3F]
  else if 0x800 < code then
    [0xE0 ||| (code &&& 0xF000) >>> 12, 0x80 ||| (code &&& 0xFC0) >>> 6, 0x80 ||| code &&& 0x3F]
  else if 0x80 < code then [0xC0 ||| (code &&& 0x7C0) >>> 6, 0x80 ||| code &&& 0x3F]
  else [code]

/-- `QR8bitByte`: the bytes of a text, after three more ones where a code unit takes several. -/
def parsedData (sText : List Char) : List ℕ :=
  let data := sText.flatMap utf16
  let parsed := data.flatMap byteArray
  if parsed.length ≠ data.length then 239 :: 187 :: 191 :: parsed else parsed

/-! ## Bits -/

structure QRBitBuffer where
  buffer : List ℕ
  length : ℕ

namespace QRBitBuffer

def empty : QRBitBuffer := ⟨[], 0⟩

def putBit (b : QRBitBuffer) (bit : Bool) : QRBitBuffer :=
  let bufIndex := b.length / 8
  let buffer := if b.buffer.length ≤ bufIndex then b.buffer ++ [0] else b.buffer
  ⟨if bit then buffer.modify bufIndex (· ||| 0x80 >>> (b.length % 8)) else buffer, b.length + 1⟩

def put (b : QRBitBuffer) (num length : ℕ) : QRBitBuffer :=
  (List.range length).foldl (fun b i => b.putBit (num.testBit (length - i - 1))) b

/-- `data.write`. -/
def write (b : QRBitBuffer) (data : List ℕ) : QRBitBuffer := data.foldl (fun b byte => b.put byte 8) b

/-- `while (length % 8 != 0) putBit(false);`, in at most `f` rounds. -/
def align : ℕ → QRBitBuffer → QRBitBuffer
  | 0, b => b
  | f + 1, b => if b.length % 8 ≠ 0 then align f (b.putBit false) else b

/-- The loop that pads up to `total` bits, in at most `f` rounds. -/
def pad (total : ℕ) : ℕ → QRBitBuffer → QRBitBuffer
  | 0, b => b
  | f + 1, b =>
    if total ≤ b.length then b
    else
      let b := b.put 0xEC 8
      if total ≤ b.length then b else pad total f (b.put 0x11 8)

end QRBitBuffer

/-! ## Codewords -/

/-- `dcdata`: the codewords of the blocks, from a place of the buffer on. -/
def dcdata (buffer : List ℕ) : ℕ → List QRRSBlock → List (List ℕ)
  | _, [] => []
  | offset, b :: bs =>
    ((List.range b.dataCount).map fun i => 0xff &&& buffer.getD (i + offset) 0) ::
      dcdata buffer (offset + b.dataCount) bs

/-- One entry of `ecdata`: the remainder, aligned to the right. -/
def ecdata (dc : List ℕ) (ecCount : ℕ) : Except String (List (Option ℕ)) := do
  let rsPoly ← getErrorCorrectPolynomial ecCount
  let rawPoly := QRPolynomial.new (dc.map some) (rsPoly.getLength - 1)
  let modPoly ← rawPoly.mod rsPoly
  return (List.range (rsPoly.getLength - 1)).map fun i =>
    if rsPoly.getLength - 1 ≤ i + modPoly.getLength then
      modPoly.get (i + modPoly.getLength - (rsPoly.getLength - 1))
    else some 0

def createBytes (buffer : QRBitBuffer) (rsBlocks : List QRRSBlock) :
    Except String (List (Option ℕ)) := do
  let maxDcCount := (rsBlocks.map QRRSBlock.dataCount).foldl max 0
  let maxEcCount := (rsBlocks.map fun b => b.totalCount - b.dataCount).foldl max 0
  let dc := dcdata buffer.buffer 0 rsBlocks
  let ec ← (dc.zip rsBlocks).mapM fun p => ecdata p.1 (p.2.totalCount - p.2.dataCount)
  return interleave maxDcCount (dc.map fun d => d.map some) ++ interleave maxEcCount ec

/-- `createData` of one text. -/
def createData (typeNumber : ℕ) (level : QRErrorCorrectLevel) (data : List ℕ) :
    Except String (List (Option ℕ)) := do
  let rsBlocks ← getRSBlocks typeNumber level
  let lengthInBits ← getLengthInBits typeNumber
  let buffer := (((QRBitBuffer.empty.put 4 4).put data.length lengthInBits).write data)
  let total := (rsBlocks.map QRRSBlock.dataCount).sum * 8
  if total < buffer.length then
    throw ("code length overflow. (" ++ toString buffer.length ++ ">" ++ toString total ++ ")")
  let buffer := if buffer.length + 4 ≤ total then buffer.put 0 4 else buffer
  let buffer := buffer.align 8
  createBytes (buffer.pad total total) rsBlocks

/-! ## What a buffer holds -/

/-- The bits that have been put into a buffer. -/
structure Holds (b : QRBitBuffer) (bs : List Bool) : Prop where
  length : b.length = bs.length
  size : b.buffer.length = (bs.length + 7) / 8
  bits : ∀ k j, j < 8 → (b.buffer.getD k 0).testBit (7 - j) = bs.getD (8 * k + j) false
  bytes : ∀ k, b.buffer.getD k 0 < 256

theorem holds_empty : Holds .empty [] where
  length := rfl
  size := rfl
  bits k j _ := by
    rw [QRBitBuffer.empty, List.getD_nil, List.getD_nil, Nat.zero_testBit]
  bytes k := by
    rw [QRBitBuffer.empty, List.getD_nil]
    decide

theorem getD_concat {α : Type} (l : List α) (a d : α) (i : ℕ) :
    (l ++ [a]).getD i d = if i = l.length then a else l.getD i d := by
  rcases Nat.lt_trichotomy i l.length with h | rfl | h
  · rw [List.getD_append _ _ _ _ h, if_neg h.ne]
  · rw [List.getD_append_right _ _ _ _ le_rfl, Nat.sub_self, if_pos rfl, List.getD_cons_zero]
  · rw [List.getD_eq_default _ _ (by rw [List.length_append, List.length_singleton]; omega),
      if_neg h.ne', List.getD_eq_default _ _ h.le]

theorem getD_modify {α : Type} {l : List α} {f : α → α} {i : ℕ} (hi : i < l.length) (k : ℕ) (d : α) :
    (l.modify i f).getD k d = if k = i then f (l.getD k d) else l.getD k d := by
  rw [List.getD_eq_getElem?_getD]
  split_ifs with hk
  · rw [hk, List.getElem?_modify_eq, List.getElem?_eq_getElem hi, List.getD_eq_getElem _ _ hi]
    rfl
  · rw [List.getElem?_modify_ne _ _ (Ne.symm hk), ← List.getD_eq_getElem?_getD]

theorem testBit_mark {j r : ℕ} (hj : j < 8) (hr : r < 8) :
    (0x80 >>> r).testBit (7 - j) = decide (j = r) := by
  have hall : ∀ j < 8, ∀ r < 8, (0x80 >>> r).testBit (7 - j) = decide (j = r) := by decide
  exact hall j hj r hr

theorem getD_putBit {b : QRBitBuffer} (hsize : b.buffer.length = (b.length + 7) / 8) (bit : Bool)
    (k : ℕ) : (b.putBit bit).buffer.getD k 0 =
      if bit ∧ k = b.length / 8 then b.buffer.getD k 0 ||| 0x80 >>> (b.length % 8)
      else b.buffer.getD k 0 := by
  have hpush : ∀ i, (if b.buffer.length ≤ b.length / 8 then b.buffer ++ [0] else b.buffer).getD i 0 =
      b.buffer.getD i 0 := by
    intro i
    split_ifs with hle
    · rw [getD_concat]
      split_ifs with hi
      · rw [List.getD_eq_default _ _ hi.ge]
      · rfl
    · rfl
  cases bit with
  | false => exact (hpush k).trans (if_neg fun h => Bool.false_ne_true h.1).symm
  | true =>
    have hlt : b.length / 8 <
        (if b.buffer.length ≤ b.length / 8 then b.buffer ++ [0] else b.buffer).length := by
      split_ifs with hle
      · rw [List.length_append, List.length_singleton]
        omega
      · omega
    rw [QRBitBuffer.putBit, if_pos rfl, getD_modify hlt, hpush]
    exact if_congr (by rw [and_iff_right rfl]) rfl rfl

namespace Holds

theorem putBit {b : QRBitBuffer} {bs : List Bool} (h : Holds b bs) (bit : Bool) :
    Holds (b.putBit bit) (bs ++ [bit]) := by
  have hsize : b.buffer.length = (b.length + 7) / 8 := by rw [h.size, h.length]
  refine ⟨?_, ?_, fun k j hj => ?_, fun k => ?_⟩
  · rw [List.length_append, List.length_singleton, ← h.length]
    rfl
  · have hlen : (b.putBit bit).buffer.length =
        (if b.buffer.length ≤ b.length / 8 then b.buffer ++ [0] else b.buffer).length := by
      cases bit
      · rfl
      · exact List.length_modify ..
    rw [hlen, List.length_append, List.length_singleton, ← h.length]
    split_ifs
    · rw [List.length_append, List.length_singleton]
      omega
    · omega
  · rw [getD_putBit hsize, getD_concat, ← h.bits k j hj, ← h.length]
    by_cases hk : k = b.length / 8
    · by_cases hjr : j = b.length % 8
      · -- the bit that is put, where the buffer still has 0
        rw [if_pos (show 8 * k + j = b.length by omega)]
        have hzero : (b.buffer.getD k 0).testBit (7 - j) = false := by
          rw [h.bits k j hj, List.getD_eq_default _ _ (by rw [← h.length]; omega)]
        cases bit with
        | false => rw [if_neg fun hb => Bool.false_ne_true hb.1, hzero]
        | true =>
          rw [if_pos ⟨rfl, hk⟩, Nat.testBit_or, testBit_mark hj (Nat.mod_lt _ (by decide)),
            decide_eq_true hjr, Bool.or_true]
      · rw [if_neg (show 8 * k + j ≠ b.length by omega)]
        split_ifs
        · rw [Nat.testBit_or, testBit_mark hj (Nat.mod_lt _ (by decide)), decide_eq_false hjr,
            Bool.or_false]
        · rfl
    · rw [if_neg fun hb => hk hb.2, if_neg (by omega)]
  · rw [getD_putBit hsize]
    split_ifs
    · exact Nat.or_lt_two_pow (n := 8) (h.bytes k)
        (lt_of_le_of_lt (Nat.shiftRight_le _ _) (by decide))
    · exact h.bytes k

theorem foldl_putBit {b : QRBitBuffer} {bs : List Bool} (h : Holds b bs) (f : ℕ → Bool) (is : List ℕ) :
    Holds (is.foldl (fun b i => b.putBit (f i)) b) (bs ++ is.map f) := by
  induction is generalizing b bs with
  | nil => rwa [List.foldl_nil, List.map_nil, List.append_nil]
  | cons i is ih =>
    have hi := ih (h.putBit (f i))
    rwa [List.append_assoc] at hi

/-- **`put` appends the bits of a number.** -/
theorem put {b : QRBitBuffer} {bs : List Bool} (h : Holds b bs) (num length : ℕ) :
    Holds (b.put num length) (bs ++ toBits length num) := by
  have hbits : toBits length num =
      (List.range length).map fun i => num.testBit (length - i - 1) :=
    List.map_congr_left fun i _ => by rw [Nat.sub_right_comm]
  rw [hbits]
  exact h.foldl_putBit _ _

theorem write {b : QRBitBuffer} {bs : List Bool} (h : Holds b bs) (data : List ℕ) :
    Holds (b.write data) (bs ++ data.flatMap (toBits 8)) := by
  induction data generalizing b bs with
  | nil => rwa [List.flatMap_nil, List.append_nil]
  | cons d data ih =>
    have hi := ih (h.put d 8)
    rwa [List.append_assoc] at hi

theorem align {f : ℕ} {b : QRBitBuffer} {bs : List Bool} (h : Holds b bs)
    (hf : (8 - bs.length % 8) % 8 ≤ f) :
    ∃ rest, Holds (b.align f) (bs ++ rest) ∧ (bs ++ rest).length = (bs.length + 7) / 8 * 8 := by
  induction f generalizing b bs with
  | zero => exact ⟨[], by rwa [List.append_nil], by rw [List.append_nil]; omega⟩
  | succ f ih =>
    rw [QRBitBuffer.align, h.length]
    split_ifs with h8
    · have hlen : (bs ++ [false]).length = bs.length + 1 := List.length_append
      obtain ⟨rest, hrest, hlast⟩ := ih (h.putBit false) (by rw [hlen]; omega)
      rw [hlen, List.append_assoc] at hlast
      rw [List.append_assoc] at hrest
      exact ⟨_, hrest, by omega⟩
    · exact ⟨[], by rwa [List.append_nil], by rw [List.append_nil]; omega⟩

/-- **The padding fills the codewords.** -/
theorem pad {f : ℕ} {b : QRBitBuffer} {bs : List Bool} (h : Holds b bs) (total : ℕ)
    (h8 : bs.length % 8 = 0) (htotal : total % 8 = 0) (hle : bs.length ≤ total)
    (hf : total ≤ bs.length + 16 * f) :
    ∃ rest, Holds (b.pad total f) (bs ++ rest) ∧ (bs ++ rest).length = total := by
  induction f generalizing b bs with
  | zero => exact ⟨[], by rwa [List.append_nil], by rw [List.append_nil]; omega⟩
  | succ f ih =>
    have hlen : ∀ n, (toBits 8 n).length = 8 := length_toBits 8
    rw [QRBitBuffer.pad, h.length]
    dsimp only
    split_ifs with h1 h2
    · exact ⟨[], by rwa [List.append_nil], by rw [List.append_nil]; omega⟩
    · have hput := h.put 0xEC 8
      rw [hput.length, List.length_append, hlen] at h2
      exact ⟨_, hput, by rw [List.length_append, hlen]; omega⟩
    · have hput := h.put 0xEC 8
      rw [hput.length, List.length_append, hlen] at h2
      have hput2 := hput.put 0x11 8
      obtain ⟨rest, hrest, hlast⟩ := ih hput2
        (by rw [List.length_append, List.length_append, hlen, hlen]; omega)
        (by rw [List.length_append, List.length_append, hlen, hlen]; omega)
        (by rw [List.length_append, List.length_append, hlen, hlen]; omega)
      rw [List.append_assoc, List.append_assoc] at hrest hlast
      exact ⟨_, hrest, hlast⟩

theorem flatMap_buffer {b : QRBitBuffer} {bs : List Bool} (h : Holds b bs) {total : ℕ}
    (hlen : bs.length = 8 * total) :
    b.buffer.length = total ∧ b.buffer.flatMap (toBits 8) = bs := by
  have hsize : b.buffer.length = total := by rw [h.size, hlen]; omega
  refine ⟨hsize, List.ext_getElem? fun i => ?_⟩
  by_cases hi : i < 8 * total
  · rw [getElem?_flatMap_toBits _ (by rwa [hsize]), h.bits _ _ (Nat.mod_lt i (by decide)),
      Nat.div_add_mod, List.getD_eq_getElem?_getD, List.getElem?_eq_getElem (by rwa [hlen])]
    rfl
  · rw [List.getElem?_eq_none (by rw [length_flatMap_toBits, hsize]; omega),
      List.getElem?_eq_none (by omega)]

theorem fill {b : QRBitBuffer} {bs : List Bool} (h : Holds b bs) (total : ℕ)
    (hle : bs.length ≤ total * 8) :
    ∃ rest, Holds (((if b.length + 4 ≤ total * 8 then b.put 0 4 else b).align 8).pad
      (total * 8) (total * 8)) (bs ++ rest) ∧ (bs ++ rest).length = total * 8 := by
  obtain ⟨zeros, hzeros, hzlen⟩ : ∃ zeros,
      Holds (if b.length + 4 ≤ total * 8 then b.put 0 4 else b) (bs ++ zeros) ∧
        (bs ++ zeros).length ≤ total * 8 := by
    split_ifs with hfour
    · rw [h.length] at hfour
      refine ⟨_, h.put 0 4, ?_⟩
      rwa [List.length_append, length_toBits]
    · exact ⟨[], by rwa [List.append_nil], by rwa [List.append_nil]⟩
  obtain ⟨more, hmore, hmlen⟩ := hzeros.align (f := 8) (by omega)
  obtain ⟨rest, hrest, hrlen⟩ := hmore.pad (total * 8) (f := total * 8)
    (by omega) (by omega) (by omega) (by omega)
  rw [List.append_assoc, List.append_assoc] at hrest hrlen
  exact ⟨_, hrest, hrlen⟩

end Holds

/-! ## The bits of a text -/

/-- The mode, the number of bytes, and the bytes. -/
def textBits (v : ℕ) (data : List ℕ) : List Bool :=
  toBits 4 4 ++ toBits (lengthBits v) data.length ++ data.flatMap (toBits 8)

/-- The bits of a text fit into the data codewords. -/
def Fits (v : ℕ) (level : QRErrorCorrectLevel) (data : List ℕ) : Prop :=
  4 + lengthBits v + 8 * data.length ≤ 8 * totalDataCount v level

instance (v : ℕ) (level : QRErrorCorrectLevel) (data : List ℕ) : Decidable (Fits v level data) := by
  unfold Fits; infer_instance

theorem length_textBits (v : ℕ) (data : List ℕ) :
    (textBits v data).length = 4 + lengthBits v + 8 * data.length := by
  rw [textBits, List.length_append, List.length_append, length_toBits, length_toBits,
    length_flatMap_toBits]

section CreateData

variable {v : ℕ} (hv : Version v) (level : QRErrorCorrectLevel) (data : List ℕ)

include hv

/-- **A text that does not fit is refused.** -/
theorem createData_of_not_fits (h : ¬ Fits v level data) :
    ∃ e, createData v level data = .error e := by
  have hbuf := ((holds_empty.put 4 4).put data.length (lengthBits v)).write data
  rw [List.nil_append, ← textBits] at hbuf
  have hlt : ((blocks v level).map QRRSBlock.dataCount).sum * 8 <
      (((QRBitBuffer.empty.put 4 4).put data.length (lengthBits v)).write data).length := by
    rw [hbuf.length, length_textBits]
    rw [Fits, totalDataCount] at h
    omega
  rw [createData, (blocks_of_version hv level).1, getLengthInBits_of_version hv]
  exact ⟨_, if_pos hlt⟩

/-- **The bits of a text that fits fill the codewords**, with a padding after them. -/
theorem createData_of_fits (h : Fits v level data) :
    ∃ b rest, createData v level data = createBytes b (blocks v level) ∧
      Holds b (textBits v data ++ rest) ∧
      (textBits v data ++ rest).length = 8 * totalDataCount v level := by
  have hbuf := ((holds_empty.put 4 4).put data.length (lengthBits v)).write data
  rw [List.nil_append, ← textBits] at hbuf
  have hlen := length_textBits v data
  rw [Fits] at h
  obtain ⟨rest, hrest, hrlen⟩ := hbuf.fill (totalDataCount v level) (by omega)
  have hroom : ¬ ((blocks v level).map QRRSBlock.dataCount).sum * 8 <
      (((QRBitBuffer.empty.put 4 4).put data.length (lengthBits v)).write data).length := by
    rw [hbuf.length, ← totalDataCount]
    omega
  rw [createData, (blocks_of_version hv level).1, getLengthInBits_of_version hv]
  exact ⟨_, rest, if_neg hroom, hrest, by rw [hrlen, Nat.mul_comm]⟩

end CreateData

end Adnihilum.Qr
