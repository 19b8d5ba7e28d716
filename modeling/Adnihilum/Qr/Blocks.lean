import Mathlib.Tactic

/-!
# Versions of the code

The tables that give, for each of the 40 sizes and the four levels of correction, how the codewords
are split into blocks, how long a text may be, and where the small patterns stand.

* `getRSBlocks`, `getTypeNumber`, `getLengthInBits`, `getPatternPosition`.
* `Version`: a size that the tables have; **`blocks_of_version`**, **`limit_fits`**,
  **`limit_missed`**: what the tables agree about, and the one entry where they do not.
-/

namespace Adnihilum.Qr

/-! ## Levels and blocks -/

inductive QRErrorCorrectLevel where
  | L
  | M
  | Q
  | H
  deriving DecidableEq

namespace QRErrorCorrectLevel

/-- The number of a level, which the symbol shows. -/
def code : QRErrorCorrectLevel → ℕ
  | L => 1
  | M => 0
  | Q => 3
  | H => 2

/-- Its column in the tables. -/
def column : QRErrorCorrectLevel → ℕ
  | L => 0
  | M => 1
  | Q => 2
  | H => 3

end QRErrorCorrectLevel

structure QRRSBlock where
  totalCount : ℕ
  dataCount : ℕ
  deriving DecidableEq

/-- `QRRSBlock.RS_blk_tABLE`: runs of a count, a total and a number of data codewords. -/
def rsBlockTable : List (List ℕ) :=
  [[1, 26, 19], [1, 26, 16], [1, 26, 13], [1, 26, 9], [1, 44, 34], [1, 44, 28], [1, 44, 22],
   [1, 44, 16], [1, 70, 55], [1, 70, 44], [2, 35, 17], [2, 35, 13], [1, 100, 80], [2, 50, 32],
   [2, 50, 24], [4, 25, 9], [1, 134, 108], [2, 67, 43], [2, 33, 15, 2, 34, 16],
   [2, 33, 11, 2, 34, 12], [2, 86, 68], [4, 43, 27], [4, 43, 19], [4, 43, 15], [2, 98, 78],
   [4, 49, 31], [2, 32, 14, 4, 33, 15], [4, 39, 13, 1, 40, 14], [2, 121, 97],
   [2, 60, 38, 2, 61, 39], [4, 40, 18, 2, 41, 19], [4, 40, 14, 2, 41, 15], [2, 146, 116],
   [3, 58, 36, 2, 59, 37], [4, 36, 16, 4, 37, 17], [4, 36, 12, 4, 37, 13], [2, 86, 68, 2, 87, 69],
   [4, 69, 43, 1, 70, 44], [6, 43, 19, 2, 44, 20], [6, 43, 15, 2, 44, 16], [4, 101, 81],
   [1, 80, 50, 4, 81, 51], [4, 50, 22, 4, 51, 23], [3, 36, 12, 8, 37, 13],
   [2, 116, 92, 2, 117, 93], [6, 58, 36, 2, 59, 37], [4, 46, 20, 6, 47, 21],
   [7, 42, 14, 4, 43, 15], [4, 133, 107], [8, 59, 37, 1, 60, 38], [8, 44, 20, 4, 45, 21],
   [12, 33, 11, 4, 34, 12], [3, 145, 115, 1, 146, 116], [4, 64, 40, 5, 65, 41],
   [11, 36, 16, 5, 37, 17], [11, 36, 12, 5, 37, 13], [5, 109, 87, 1, 110, 88],
   [5, 65, 41, 5, 66, 42], [5, 54, 24, 7, 55, 25], [11, 36, 12], [5, 122, 98, 1, 123, 99],
   [7, 73, 45, 3, 74, 46], [15, 43, 19, 2, 44, 20], [3, 45, 15, 13, 46, 16],
   [1, 135, 107, 5, 136, 108], [10, 74, 46, 1, 75, 47], [1, 50, 22, 15, 51, 23],
   [2, 42, 14, 17, 43, 15], [5, 150, 120, 1, 151, 121], [9, 69, 43, 4, 70, 44],
   [17, 50, 22, 1, 51, 23], [2, 42, 14, 19, 43, 15], [3, 141, 113, 4, 142, 114],
   [3, 70, 44, 11, 71, 45], [17, 47, 21, 4, 48, 22], [9, 39, 13, 16, 40, 14],
   [3, 135, 107, 5, 136, 108], [3, 67, 41, 13, 68, 42], [15, 54, 24, 5, 55, 25],
   [15, 43, 15, 10, 44, 16], [4, 144, 116, 4, 145, 117], [17, 68, 42], [17, 50, 22, 6, 51, 23],
   [19, 46, 16, 6, 47, 17], [2, 139, 111, 7, 140, 112], [17, 74, 46], [7, 54, 24, 16, 55, 25],
   [34, 37, 13], [4, 151, 121, 5, 152, 122], [4, 75, 47, 14, 76, 48], [11, 54, 24, 14, 55, 25],
   [16, 45, 15, 14, 46, 16], [6, 147, 117, 4, 148, 118], [6, 73, 45, 14, 74, 46],
   [11, 54, 24, 16, 55, 25], [30, 46, 16, 2, 47, 17], [8, 132, 106, 4, 133, 107],
   [8, 75, 47, 13, 76, 48], [7, 54, 24, 22, 55, 25], [22, 45, 15, 13, 46, 16],
   [10, 142, 114, 2, 143, 115], [19, 74, 46, 4, 75, 47], [28, 50, 22, 6, 51, 23],
   [33, 46, 16, 4, 47, 17], [8, 152, 122, 4, 153, 123], [22, 73, 45, 3, 74, 46],
   [8, 53, 23, 26, 54, 24], [12, 45, 15, 28, 46, 16], [3, 147, 117, 10, 148, 118],
   [3, 73, 45, 23, 74, 46], [4, 54, 24, 31, 55, 25], [11, 45, 15, 31, 46, 16],
   [7, 146, 116, 7, 147, 117], [21, 73, 45, 7, 74, 46], [1, 53, 23, 37, 54, 24],
   [19, 45, 15, 26, 46, 16], [5, 145, 115, 10, 146, 116], [19, 75, 47, 10, 76, 48],
   [15, 54, 24, 25, 55, 25], [23, 45, 15, 25, 46, 16], [13, 145, 115, 3, 146, 116],
   [2, 74, 46, 29, 75, 47], [42, 54, 24, 1, 55, 25], [23, 45, 15, 28, 46, 16], [17, 145, 115],
   [10, 74, 46, 23, 75, 47], [10, 54, 24, 35, 55, 25], [19, 45, 15, 35, 46, 16],
   [17, 145, 115, 1, 146, 116], [14, 74, 46, 21, 75, 47], [29, 54, 24, 19, 55, 25],
   [11, 45, 15, 46, 46, 16], [13, 145, 115, 6, 146, 116], [14, 74, 46, 23, 75, 47],
   [44, 54, 24, 7, 55, 25], [59, 46, 16, 1, 47, 17], [12, 151, 121, 7, 152, 122],
   [12, 75, 47, 26, 76, 48], [39, 54, 24, 14, 55, 25], [22, 45, 15, 41, 46, 16],
   [6, 151, 121, 14, 152, 122], [6, 75, 47, 34, 76, 48], [46, 54, 24, 10, 55, 25],
   [2, 45, 15, 64, 46, 16], [17, 152, 122, 4, 153, 123], [29, 74, 46, 14, 75, 47],
   [49, 54, 24, 10, 55, 25], [24, 45, 15, 46, 46, 16], [4, 152, 122, 18, 153, 123],
   [13, 74, 46, 32, 75, 47], [48, 54, 24, 14, 55, 25], [42, 45, 15, 32, 46, 16],
   [20, 147, 117, 4, 148, 118], [40, 75, 47, 7, 76, 48], [43, 54, 24, 22, 55, 25],
   [10, 45, 15, 67, 46, 16], [19, 148, 118, 6, 149, 119], [18, 75, 47, 31, 76, 48],
   [34, 54, 24, 34, 55, 25], [20, 45, 15, 61, 46, 16]]

def getRsBlockTable (typeNumber : ℕ) (level : QRErrorCorrectLevel) : Option (List ℕ) :=
  if typeNumber = 0 then none else rsBlockTable[(typeNumber - 1) * 4 + level.column]?

def getRSBlocks (typeNumber : ℕ) (level : QRErrorCorrectLevel) : Except String (List QRRSBlock) :=
  match getRsBlockTable typeNumber level with
  | none => .error ("bad rs block @ typeNumber:" ++ toString typeNumber ++ "/errorCorrectLevel:" ++
      toString level.code)
  | some rsBlock => .ok ((List.range (rsBlock.length / 3)).flatMap fun i =>
      List.replicate (rsBlock.getD (i * 3) 0)
        ⟨rsBlock.getD (i * 3 + 1) 0, rsBlock.getD (i * 3 + 2) 0⟩)

/-! ## Lengths of texts -/

/-- `QRCodeLimitLength`: for each level, how many bytes a version holds. -/
def limitLength : List (List ℕ) :=
  [[17, 14, 11, 7], [32, 26, 20, 14], [53, 42, 32, 24], [78, 62, 46, 34], [106, 84, 60, 44],
   [134, 106, 74, 58], [154, 122, 86, 64], [192, 152, 108, 84], [230, 180, 130, 98],
   [271, 213, 151, 119], [321, 251, 177, 137], [367, 287, 203, 155], [425, 331, 241, 177],
   [458, 362, 258, 194], [520, 412, 292, 220], [586, 450, 322, 250], [644, 504, 364, 280],
   [718, 560, 394, 310], [792, 624, 442, 338], [858, 666, 482, 382], [929, 711, 509, 403],
   [1003, 779, 565, 439], [1091, 857, 611, 461], [1171, 911, 661, 511], [1273, 997, 715, 535],
   [1367, 1059, 751, 593], [1465, 1125, 805, 625], [1528, 1190, 868, 658], [1628, 1264, 908, 698],
   [1732, 1370, 982, 742], [1840, 1452, 1030, 790], [1952, 1538, 1112, 842],
   [2068, 1628, 1168, 898], [2188, 1722, 1228, 958], [2303, 1809, 1283, 983],
   [2431, 1911, 1351, 1051], [2563, 1989, 1423, 1093], [2699, 2099, 1499, 1139],
   [2809, 2213, 1579, 1219], [2953, 2331, 1663, 1273]]

/-- The bits of the count of bytes, in the mode of bytes. -/
def getLengthInBits (type : ℕ) : Except String ℕ :=
  if 1 ≤ type ∧ type < 10 then .ok 8
  else if type < 27 then .ok 16
  else if type < 41 then .ok 16
  else .error ("type:" ++ toString type)

/-- `_getUTF8Length`: three more bytes, unless the text spells the number of its own bytes.
`toNumber` is what the comparison makes of a text. -/
def getUTF8Length (toNumber : List Char → Option ℕ) (sText : List Char) : ℕ :=
  let length := (sText.map Char.utf8Size).sum
  length + if toNumber sText = some length then 0 else 3

/-- The loop of `_getTypeNumber`. Past the last version it reads an entry that is not there. -/
def findType (length column : ℕ) : List (List ℕ) → ℕ → Except String ℕ
  | [], _ => .error "TypeError"
  | limits :: rest, nType =>
    if length ≤ limits.getD column 0 then .ok nType else findType length column rest (nType + 1)

def getTypeNumber (toNumber : List Char → Option ℕ) (sText : List Char)
    (level : QRErrorCorrectLevel) : Except String ℕ := do
  let nType ← findType (getUTF8Length toNumber sText) level.column limitLength 1
  if limitLength.length < nType then throw "Too long data"
  return nType

/-! ## Positions -/

/-- `QRUtil.PATTERN_POSITION_TABLE`. -/
def patternPositionTable : List (List ℕ) :=
  [[], [6, 18], [6, 22], [6, 26], [6, 30], [6, 34], [6, 22, 38], [6, 24, 42], [6, 26, 46],
   [6, 28, 50], [6, 30, 54], [6, 32, 58], [6, 34, 62], [6, 26, 46, 66], [6, 26, 48, 70],
   [6, 26, 50, 74], [6, 30, 54, 78], [6, 30, 56, 82], [6, 30, 58, 86], [6, 34, 62, 90],
   [6, 28, 50, 72, 94], [6, 26, 50, 74, 98], [6, 30, 54, 78, 102], [6, 28, 54, 80, 106],
   [6, 32, 58, 84, 110], [6, 30, 58, 86, 114], [6, 34, 62, 90, 118], [6, 26, 50, 74, 98, 122],
   [6, 30, 54, 78, 102, 126], [6, 26, 52, 78, 104, 130], [6, 30, 56, 82, 108, 134],
   [6, 34, 60, 86, 112, 138], [6, 30, 58, 86, 114, 142], [6, 34, 62, 90, 118, 146],
   [6, 30, 54, 78, 102, 126, 150], [6, 24, 50, 76, 102, 128, 154], [6, 28, 54, 80, 106, 132, 158],
   [6, 32, 58, 84, 110, 136, 162], [6, 26, 54, 82, 110, 138, 166], [6, 30, 58, 86, 114, 142, 170]]

def getPatternPosition (typeNumber : ℕ) : List ℕ := patternPositionTable.getD (typeNumber - 1) []

/-! ## What the tables say -/

/-- A size that the tables have. -/
def Version (v : ℕ) : Prop := 1 ≤ v ∧ v ≤ 40

theorem forall_version {p : ℕ → QRErrorCorrectLevel → Bool}
    (h : ((List.range 40).all fun i => p (i + 1) .L && p (i + 1) .M && p (i + 1) .Q && p (i + 1) .H) =
      true) {v : ℕ} (hv : Version v) (level : QRErrorCorrectLevel) : p v level = true := by
  obtain ⟨h1, h40⟩ := hv
  have hp := List.all_eq_true.mp h (v - 1) (List.mem_range.mpr (by omega))
  rw [Nat.sub_add_cancel h1] at hp
  simp only [Bool.and_eq_true] at hp
  obtain ⟨⟨⟨hL, hM⟩, hQ⟩, hH⟩ := hp
  cases level
  · exact hL
  · exact hM
  · exact hQ
  · exact hH

/-- The blocks of a version. -/
def blocks (v : ℕ) (level : QRErrorCorrectLevel) : List QRRSBlock :=
  (getRSBlocks v level).toOption.getD []

/-- The data codewords of a version. -/
def totalDataCount (v : ℕ) (level : QRErrorCorrectLevel) : ℕ :=
  ((blocks v level).map QRRSBlock.dataCount).sum

/-- **Every version has blocks**, with at most 30 codewords of correction in at most 255. -/
theorem blocks_of_version {v : ℕ} (hv : Version v) (level : QRErrorCorrectLevel) :
    getRSBlocks v level = .ok (blocks v level) ∧ ∀ b ∈ blocks v level,
      0 < b.dataCount ∧ b.dataCount ≤ b.totalCount ∧ b.totalCount - b.dataCount ≤ 30 ∧
        b.totalCount ≤ 255 := by
  have hcheck := forall_version (p := fun v level => (getRSBlocks v level).toOption.isSome &&
    (blocks v level).all fun b => decide (0 < b.dataCount ∧ b.dataCount ≤ b.totalCount ∧
      b.totalCount - b.dataCount ≤ 30 ∧ b.totalCount ≤ 255)) (by decide +kernel) hv level
  obtain ⟨hsome, hall⟩ := Bool.and_eq_true_iff.mp hcheck
  refine ⟨?_, fun b hb => of_decide_eq_true (List.all_eq_true.mp hall b hb)⟩
  rw [blocks]
  cases hb : getRSBlocks v level with
  | error e =>
    rw [hb] at hsome
    cases hsome
  | ok bs => rfl

/-- The bits of the count of bytes in a version. -/
def lengthBits (v : ℕ) : ℕ := if v < 10 then 8 else 16

theorem getLengthInBits_of_version {v : ℕ} (hv : Version v) : getLengthInBits v = .ok (lengthBits v) := by
  obtain ⟨h1, h40⟩ := hv
  rw [getLengthInBits, lengthBits]
  split_ifs <;> first | rfl | omega

/-- How many bytes a version may hold. -/
def limit (v : ℕ) (level : QRErrorCorrectLevel) : ℕ := (limitLength.getD (v - 1) []).getD level.column 0

/-- **A text within the limit fits into the codewords**, but for version 15 at the level `H`. -/
theorem limit_fits {v : ℕ} (hv : Version v) (level : QRErrorCorrectLevel)
    (hne : ¬ (v = 15 ∧ level = .H)) :
    4 + lengthBits v + 8 * limit v level ≤ 8 * totalDataCount v level ∧
      limit v level < 2 ^ lengthBits v := by
  have hcheck := forall_version (p := fun v level => decide (v = 15 ∧ level = .H) ||
    decide (4 + lengthBits v + 8 * limit v level ≤ 8 * totalDataCount v level ∧
      limit v level < 2 ^ lengthBits v)) (by decide +kernel) hv level
  rcases Bool.or_eq_true_iff.mp hcheck with h | h
  · exact absurd (of_decide_eq_true h) hne
  · exact of_decide_eq_true h

/-- **Version 15 at the level `H` holds less than version 14**: its row has one run of blocks where
the limit counts two. -/
theorem limit_missed : 8 * totalDataCount 15 .H + 8 * 3 < 4 + lengthBits 15 + 8 * limit 14 .H ∧
    limit 14 .H = 194 ∧ limit 15 .H = 220 := by
  decide +kernel

theorem findType_eq_ok {length column : ℕ} {ls : List (List ℕ)} {n t : ℕ} :
    findType length column ls n = .ok t ↔
      ∃ i < ls.length, t = n + i ∧ length ≤ (ls.getD i []).getD column 0 ∧
        ∀ j < i, (ls.getD j []).getD column 0 < length := by
  induction ls generalizing n with
  | nil => exact ⟨fun h => (nomatch h), fun ⟨i, hi, _⟩ => absurd hi (Nat.not_lt_zero i)⟩
  | cons limits rest ih =>
    rw [findType]
    split_ifs with hle
    · constructor
      · intro h
        cases h
        exact ⟨0, Nat.zero_lt_succ _, rfl, hle, fun j hj => absurd hj (Nat.not_lt_zero j)⟩
      · rintro ⟨i, hi, rfl, hlen, hbefore⟩
        cases i with
        | zero => rfl
        | succ i =>
          have h0 := hbefore 0 (Nat.zero_lt_succ i)
          rw [List.getD_cons_zero] at h0
          omega
    · rw [ih]
      constructor
      · rintro ⟨i, hi, rfl, hlen, hbefore⟩
        refine ⟨i + 1, Nat.succ_lt_succ hi, by omega, hlen, fun j hj => ?_⟩
        cases j with
        | zero => exact Nat.lt_of_not_le hle
        | succ j => exact hbefore j (Nat.lt_of_succ_lt_succ hj)
      · rintro ⟨i, hi, rfl, hlen, hbefore⟩
        cases i with
        | zero => exact absurd hlen hle
        | succ i =>
          exact ⟨i, Nat.lt_of_succ_lt_succ hi, by omega, hlen, fun j hj =>
            hbefore (j + 1) (Nat.succ_lt_succ hj)⟩

/-- **The version that is chosen is the first one whose limit suffices.** -/
theorem getTypeNumber_eq_ok {toNumber : List Char → Option ℕ} {sText : List Char}
    {level : QRErrorCorrectLevel} {v : ℕ} :
    getTypeNumber toNumber sText level = .ok v ↔
      Version v ∧ getUTF8Length toNumber sText ≤ limit v level ∧
        ∀ u, 1 ≤ u → u < v → limit u level < getUTF8Length toNumber sText := by
  have hlen : limitLength.length = 40 := rfl
  have hfind : getTypeNumber toNumber sText level = .ok v ↔
      findType (getUTF8Length toNumber sText) level.column limitLength 1 = .ok v := by
    rw [getTypeNumber]
    cases hf : findType (getUTF8Length toNumber sText) level.column limitLength 1 with
    | error e => exact ⟨fun h => (nomatch h), fun h => (nomatch h)⟩
    | ok t =>
      obtain ⟨i, hi, rfl, -⟩ := findType_eq_ok.mp hf
      have hle : ¬ limitLength.length < 1 + i := by omega
      exact Iff.of_eq (congrArg (· = Except.ok v) (if_neg hle))
  rw [hfind, findType_eq_ok]
  constructor
  · rintro ⟨i, hi, rfl, hle, hbefore⟩
    refine ⟨⟨by omega, by omega⟩, ?_, fun u hu hlt => hbefore (u - 1) (by omega)⟩
    rwa [limit, Nat.add_sub_cancel_left]
  · rintro ⟨⟨h1, h40⟩, hle, hbefore⟩
    refine ⟨v - 1, by omega, by omega, hle, fun j hj => ?_⟩
    have hj' := hbefore (j + 1) (by omega) (by omega)
    rwa [limit, Nat.add_sub_cancel] at hj'

end Adnihilum.Qr
