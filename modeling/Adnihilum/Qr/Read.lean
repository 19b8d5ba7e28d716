import Adnihilum.Qr.Symbol

/-!
# Reading a symbol

A reader that sees only which modules are dark. It shares with the drawer the tables, the zigzag
(`path`), the masks (`getMask`) and where the format stands and how it is masked (`formatPlace`,
`g15Mask`). The patterns and the check bits of the format it passes over without a look.

* `isFunction`: the modules that carry no data.
* `readSymbol`: size, format, mask, blocks and bytes; `readBlocks`: all codewords of a symbol.
-/

namespace Adnihilum.Qr

open Bits Interleave

/-! ## Places -/

/-- A centre that falls into one of the three corners. -/
def inCorner (moduleCount : ℕ) (c : ℕ × ℕ) : Prop :=
  c = (6, 6) ∨ c = (6, moduleCount - 7) ∨ c = (moduleCount - 7, 6)

instance (moduleCount : ℕ) (c : ℕ × ℕ) : Decidable (inCorner moduleCount c) := by
  unfold inCorner; infer_instance

/-- Within two modules of a centre. -/
def Near (c p : ℕ × ℕ) : Prop :=
  p.1 ≤ c.1 + 2 ∧ c.1 ≤ p.1 + 2 ∧ p.2 ≤ c.2 + 2 ∧ c.2 ≤ p.2 + 2

instance (c p : ℕ × ℕ) : Decidable (Near c p) := by unfold Near; infer_instance

/-- The modules of the patterns: three corners with the format beside them, the two lines of the
timing, the small patterns, and the version. -/
def isFunction (v : ℕ) (p : ℕ × ℕ) : Prop :=
  let n := v * 4 + 17
  p.1 ≤ 8 ∧ p.2 ≤ 8 ∨ p.1 ≤ 8 ∧ n ≤ p.2 + 8 ∨ n ≤ p.1 + 8 ∧ p.2 ≤ 8 ∨ p.1 = 6 ∨ p.2 = 6 ∨
    7 ≤ v ∧ (p.1 < 6 ∧ n ≤ p.2 + 11 ∨ n ≤ p.1 + 11 ∧ p.2 < 6) ∨
    ∃ c ∈ centres v, ¬ inCorner n c ∧ Near c p

instance (v : ℕ) : DecidablePred (isFunction v) := fun p => by unfold isFunction; infer_instance

/-- The modules that carry data, in the order of the reader. -/
def dataPlaces (v : ℕ) : List (ℕ × ℕ) :=
  (path (v * 4 + 17)).filter fun p => decide (¬ isFunction v p)

/-! ## The reader -/

/-- The five bits of the format: the level and the mask. The ten check bits are dropped. -/
def readFormat (moduleCount : ℕ) (dark : ℕ × ℕ → Bool) : ℕ :=
  (ofBits ((List.range 15).map fun i => dark (formatPlace moduleCount (14 - i))) ^^^ g15Mask) >>> 10

def levelOf : ℕ → QRErrorCorrectLevel
  | 0 => .M
  | 1 => .L
  | 2 => .H
  | _ => .Q

theorem mod_eight_lt (n : ℕ) : n % 8 < 8 := Nat.mod_lt n (by decide)

/-- The mask that the format names. -/
def maskOf (format : ℕ) : Fin 8 := ⟨format % 8, mod_eight_lt format⟩

/-- The codewords of all blocks, without the mask. -/
def readCodewords (v : ℕ) (maskPattern : Fin 8) (dark : ℕ × ℕ → Bool) (count : ℕ) : List ℕ :=
  bytesOf ((dataPlaces v).map fun p => dark p ^^ getMask maskPattern p.1 p.2) count

/-- The data and the correction of every block. -/
def readBlocks (moduleCount : ℕ) (dark : ℕ × ℕ → Bool) : List (List ℕ) × List (List ℕ) :=
  let v := (moduleCount - 17) / 4
  let format := readFormat moduleCount dark
  let bs := blocks v (levelOf (format / 8))
  let words := readCodewords v (maskOf format) dark (bs.map QRRSBlock.totalCount).sum
  (deinterleave ((bs.map QRRSBlock.dataCount).foldl max 0) (bs.map QRRSBlock.dataCount) words,
    deinterleave ((bs.map fun b => b.totalCount - b.dataCount).foldl max 0)
      (bs.map fun b => b.totalCount - b.dataCount) (words.drop (bs.map QRRSBlock.dataCount).sum))

/-- The bytes of a text, after its mode and its length. -/
def readBytes (v : ℕ) (data : List ℕ) : Option (List ℕ) :=
  let bits := data.flatMap (toBits 8)
  if ofBits (bits.take 4) = 4 then
    some (bytesOf (bits.drop (4 + lengthBits v)) (ofBits ((bits.drop 4).take (lengthBits v))))
  else none

/-- The text of a symbol, from its size and its dark modules. -/
def readSymbol (moduleCount : ℕ) (dark : ℕ × ℕ → Bool) : Option (List ℕ) :=
  readBytes ((moduleCount - 17) / 4) (readBlocks moduleCount dark).1.flatten

/-- What a camera sees of a symbol. -/
def QRCodeModel.dark (s : QRCodeModel) (p : ℕ × ℕ) : Bool := s.modules.get p == some true

end Adnihilum.Qr
