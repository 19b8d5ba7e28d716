import Adnihilum.Lib.Filling
import Adnihilum.Qr.Data
import Mathlib.Data.Rat.Defs
import Mathlib.Algebra.Order.Ring.Unbundled.Rat

/-!
# From codewords to modules

* `Modules`: the square; `setupPositionProbePattern` to `setupTypeNumber`: the patterns on it.
* `path`, `mapData`: the codewords, bit by bit, on the modules that are left.
* `makeImpl`, `getBestMaskPattern`, `makeCode`: the whole symbol.
-/

namespace Adnihilum.Qr

open Horner

/-! ## Check bits -/

/-- `getBCHDigit`: the number of binary digits, in at most `f` rounds. -/
def bchDigit : ℕ → ℕ → ℕ
  | 0, _ => 0
  | f + 1, data => if data ≠ 0 then bchDigit f (data >>> 1) + 1 else 0

def getBCHDigit (data : ℕ) : ℕ := bchDigit data data

/-- `while (getBCHDigit(d) - getBCHDigit(g) >= 0) d ^= g << …;`, in at most `f` rounds. -/
def bchReduce (g : ℕ) : ℕ → ℕ → ℕ
  | 0, d => d
  | f + 1, d =>
    if getBCHDigit g ≤ getBCHDigit d then bchReduce g f (d ^^^ g <<< (getBCHDigit d - getBCHDigit g))
    else d

def g15 : ℕ := 1 <<< 10 ||| 1 <<< 8 ||| 1 <<< 5 ||| 1 <<< 4 ||| 1 <<< 2 ||| 1 <<< 1 ||| 1 <<< 0

def g18 : ℕ :=
  1 <<< 12 ||| 1 <<< 11 ||| 1 <<< 10 ||| 1 <<< 9 ||| 1 <<< 8 ||| 1 <<< 5 ||| 1 <<< 2 ||| 1 <<< 0

def g15Mask : ℕ := 1 <<< 14 ||| 1 <<< 12 ||| 1 <<< 10 ||| 1 <<< 4 ||| 1 <<< 1

/-- Every round removes the first digit, so there are no more rounds than digits. -/
def getBCHTypeInfo (data : ℕ) : ℕ :=
  (data <<< 10 ||| bchReduce g15 (getBCHDigit (data <<< 10)) (data <<< 10)) ^^^ g15Mask

def getBCHTypeNumber (data : ℕ) : ℕ :=
  data <<< 12 ||| bchReduce g18 (getBCHDigit (data <<< 12)) (data <<< 12)

/-! ## Patterns -/

/-- `this.modules`, by row and column; `none` stands for `null`. -/
structure Modules where
  get : ℕ × ℕ → Option Bool

namespace Modules

/-- All modules are `null`. -/
def empty : Modules := ⟨fun _ => none⟩

/-- One assignment. -/
def set (m : Modules) (p : ℕ × ℕ) (b : Bool) : Modules := ⟨Function.update m.get p (some b)⟩

/-- Assignments, one after the other. -/
def assign (m : Modules) (ws : List ((ℕ × ℕ) × Bool)) : Modules :=
  ws.foldl (fun m w => m.set w.1 w.2) m

/-- An assignment to a module that is `null`. -/
def setNull (m : Modules) (p : ℕ × ℕ) (b : Bool) : Modules :=
  if m.get p ≠ none then m else m.set p b

end Modules

/-- What `setupPositionProbePattern` assigns. `r` and `c` run from -1 to 7. -/
def probe (moduleCount row col : ℕ) : List ((ℕ × ℕ) × Bool) :=
  (pairs 9 9).filterMap fun l =>
    let r : ℤ := l.1 - 1
    let c : ℤ := l.2 - 1
    if row + r ≤ -1 ∨ moduleCount ≤ row + r ∨ col + c ≤ -1 ∨ moduleCount ≤ col + c then none
    else some (((row + r).toNat, (col + c).toNat),
      decide (0 ≤ r ∧ r ≤ 6 ∧ (c = 0 ∨ c = 6) ∨ 0 ≤ c ∧ c ≤ 6 ∧ (r = 0 ∨ r = 6) ∨
        2 ≤ r ∧ r ≤ 4 ∧ 2 ≤ c ∧ c ≤ 4))

def setupPositionProbePattern (moduleCount row col : ℕ) (m : Modules) : Modules :=
  m.assign (probe moduleCount row col)

/-- What `setupPositionAdjustPattern` assigns around one centre. `r` and `c` run from -2 to 2. -/
def adjust (centre : ℕ × ℕ) : List ((ℕ × ℕ) × Bool) :=
  (pairs 5 5).map fun l =>
    ((centre.1 + l.1 - 2, centre.2 + l.2 - 2),
      decide (l.1 = 0 ∨ l.1 = 4 ∨ l.2 = 0 ∨ l.2 = 4 ∨ l.1 = 2 ∧ l.2 = 2))

/-- The centres of the small patterns. -/
def centres (typeNumber : ℕ) : List (ℕ × ℕ) :=
  let pos := getPatternPosition typeNumber
  pos.flatMap fun row => pos.map fun col => (row, col)

def setupPositionAdjustPattern (typeNumber : ℕ) (m : Modules) : Modules :=
  (centres typeNumber).foldl (fun m c => if m.get c ≠ none then m else m.assign (adjust c)) m

def setupTimingPattern (moduleCount : ℕ) (m : Modules) : Modules :=
  let m := (List.range' 8 (moduleCount - 16)).foldl
    (fun m r => m.setNull (r, 6) (r % 2 == 0)) m
  (List.range' 8 (moduleCount - 16)).foldl
    (fun m c => m.setNull (6, c) (c % 2 == 0)) m

/-- The places of the version, for the 18 bits. -/
def setupTypeNumber (typeNumber moduleCount : ℕ) (test : Bool) (m : Modules) : Modules :=
  let bits := getBCHTypeNumber typeNumber
  let m := m.assign ((List.range 18).map fun i =>
    ((i / 3, i % 3 + moduleCount - 8 - 3), !test && bits.testBit i))
  m.assign ((List.range 18).map fun i =>
    ((i % 3 + moduleCount - 8 - 3, i / 3), !test && bits.testBit i))

/-- Where the bits of the format stand in the column 8. -/
def formatPlace (moduleCount i : ℕ) : ℕ × ℕ :=
  if i < 6 then (i, 8) else if i < 8 then (i + 1, 8) else (moduleCount - 15 + i, 8)

/-- Where they stand in the row 8. -/
def formatPlace' (moduleCount i : ℕ) : ℕ × ℕ :=
  if i < 8 then (8, moduleCount - i - 1) else if i < 9 then (8, 15 - i - 1 + 1) else (8, 15 - i - 1)

def setupTypeInfo (level : QRErrorCorrectLevel) (moduleCount : ℕ) (test : Bool) (maskPattern : Fin 8)
    (m : Modules) : Modules :=
  let bits := getBCHTypeInfo (level.code <<< 3 ||| maskPattern)
  let m := m.assign ((List.range 15).map fun i =>
    (formatPlace moduleCount i, !test && bits.testBit i))
  let m := m.assign ((List.range 15).map fun i =>
    (formatPlace' moduleCount i, !test && bits.testBit i))
  m.set (moduleCount - 8, 8) !test

/-! ## Data -/

def getMask (maskPattern : Fin 8) (i j : ℕ) : Bool :=
  match maskPattern with
  | 0 => (i + j) % 2 == 0
  | 1 => i % 2 == 0
  | 2 => j % 3 == 0
  | 3 => (i + j) % 3 == 0
  | 4 => (i / 2 + j / 3) % 2 == 0
  | 5 => i * j % 2 + i * j % 3 == 0
  | 6 => (i * j % 2 + i * j % 3) % 2 == 0
  | 7 => (i * j % 3 + (i + j) % 2) % 2 == 0

/-- The modules that `mapData` visits: two columns at a time, up and down in turn. In at most `f`
rounds, the column 6 is left out. -/
def strips (moduleCount : ℕ) : ℕ → ℕ → Bool → List (ℕ × ℕ)
  | 0, _, _ => []
  | f + 1, col, up =>
    if col = 0 then []
    else
      let col := if col = 6 then 5 else col
      let rows := if up then (List.range moduleCount).reverse else List.range moduleCount
      (rows.flatMap fun row => [(row, col), (row, col - 1)]) ++ strips moduleCount f (col - 2) !up

def path (moduleCount : ℕ) : List (ℕ × ℕ) := strips moduleCount moduleCount (moduleCount - 1) true

/-- The variables of `mapData`. -/
structure Placing where
  modules : Modules
  bitIndex : ℕ
  byteIndex : ℕ

/-- The body of the loops of `mapData`. -/
def placeBit (data : List (Option ℕ)) (maskPattern : Fin 8) (s : Placing) (p : ℕ × ℕ) : Placing :=
  if s.modules.get p = none then
    let dark := if s.byteIndex < data.length then
      ((data.getD s.byteIndex none).getD 0).testBit s.bitIndex else false
    let dark := if getMask maskPattern p.1 p.2 then !dark else dark
    ⟨s.modules.set p dark, if s.bitIndex = 0 then 7 else s.bitIndex - 1,
      if s.bitIndex = 0 then s.byteIndex + 1 else s.byteIndex⟩
  else s

def mapData (moduleCount : ℕ) (data : List (Option ℕ)) (maskPattern : Fin 8) (m : Modules) : Modules :=
  ((path moduleCount).foldl (placeBit data maskPattern) ⟨m, 7, 0⟩).modules

/-! ## The symbol -/

structure QRCodeModel where
  moduleCount : ℕ
  modules : Modules

/-- What stands on the square before the data. -/
def patterns (typeNumber : ℕ) (level : QRErrorCorrectLevel) (test : Bool) (maskPattern : Fin 8) :
    Modules :=
  let moduleCount := typeNumber * 4 + 17
  let m := setupPositionProbePattern moduleCount 0 0 .empty
  let m := setupPositionProbePattern moduleCount (moduleCount - 7) 0 m
  let m := setupPositionProbePattern moduleCount 0 (moduleCount - 7) m
  let m := setupPositionAdjustPattern typeNumber m
  let m := setupTimingPattern moduleCount m
  let m := setupTypeInfo level moduleCount test maskPattern m
  if 7 ≤ typeNumber then setupTypeNumber typeNumber moduleCount test m else m

def makeImpl (typeNumber : ℕ) (level : QRErrorCorrectLevel) (data : List (Option ℕ)) (test : Bool)
    (maskPattern : Fin 8) : QRCodeModel :=
  let moduleCount := typeNumber * 4 + 17
  ⟨moduleCount, mapData moduleCount data maskPattern (patterns typeNumber level test maskPattern)⟩

/-- The mask whose trial loses the fewest points; `getLostPoint` counts them. -/
def getBestMaskPattern (getLostPoint : QRCodeModel → ℚ) (trial : Fin 8 → QRCodeModel) : Fin 8 :=
  ((List.finRange 8).foldl (fun (best : ℚ × Fin 8) i =>
    let lostPoint := getLostPoint (trial i)
    if i = 0 ∨ lostPoint < best.1 then (lostPoint, i) else best) (0, 0)).2

/-- `makeCode`: the data are made once, for the first trial. -/
def makeCode (getLostPoint : QRCodeModel → ℚ) (toNumber : List Char → Option ℕ) (sText : List Char)
    (correctLevel : QRErrorCorrectLevel) : Except String QRCodeModel := do
  let typeNumber ← getTypeNumber toNumber sText correctLevel
  let data ← createData typeNumber correctLevel (parsedData sText)
  let pattern := getBestMaskPattern getLostPoint (makeImpl typeNumber correctLevel data true)
  return makeImpl typeNumber correctLevel data false pattern

end Adnihilum.Qr
