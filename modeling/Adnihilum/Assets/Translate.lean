import Adnihilum.Lib.Memory

/-!
# Translating the assets

At startup the server replaces keys such as `@lang@` in its files, for each language. A first pass
adds up the translated sizes, a second one writes the translated files into one buffer. Both go over
a file with a pointer and compare keys by `memcmp`; a file is kept as the memory from its first byte
on, with whatever lies behind it.

* `getTranslatedFileSize`, `translateFile`: the passes over one file, with the offsets they read.
* `translateAssets`: both passes over all languages and assets.
* `stops`: the offsets at which a pass examines a byte; **`getTranslatedFileSize_eq`**,
  **`translateFile_eq`**: the passes, stop by stop.
-/

namespace Adnihilum

open FlatMemory

/-- `TR_KEY_MARKER`, the character `@`. -/
def trKeyMarker : UInt8 := 0x40

/-- `TranslationEntry`. -/
structure TranslationEntry where
  key : List UInt8
  value : List UInt8
  deriving DecidableEq

/-- The letters of a key's name. -/
def isLetter (c : UInt8) : Bool := (0x41 ≤ c && c ≤ 0x5a) || (0x61 ≤ c && c ≤ 0x7a)

/-- The other characters of a key's name: digits and the underscore. -/
def isDigitOrUnderscore (c : UInt8) : Bool := (0x30 ≤ c && c ≤ 0x39) || c == 0x5f

/-- A key as `translations.py` makes it, from a name that matches `[A-Za-z][A-Za-z0-9_]*`. -/
def GeneratedKey (key : List UInt8) : Prop :=
  ∃ c cs, isLetter c = true ∧ (∀ c' ∈ cs, (isLetter c' || isDigitOrUnderscore c') = true) ∧
    key = trKeyMarker :: c :: cs ++ [trKeyMarker]

theorem generatedKey_letter {c : UInt8} (h : isLetter c = true) :
    GeneratedKey [trKeyMarker, c, trKeyMarker] := ⟨c, [], h, by simp, rfl⟩

/-- `0 == memcmp(ptr, key.data, key.size)`. -/
def keyMatches (data : Mem) (ptr : ℕ) (key : List UInt8) : Bool := data.load ptr key.length == key

/-- The entry at which the loop over the entries breaks. -/
def matchingEntry (data : Mem) (ptr : ℕ) (entries : List TranslationEntry) : Option TranslationEntry :=
  entries.find? fun entry => keyMatches data ptr entry.key

/-- The entries that the loop over the entries compares, up to the one at which it breaks. -/
def compared (data : Mem) (ptr : ℕ) : List TranslationEntry → List TranslationEntry
  | [] => []
  | entry :: entries =>
    entry :: if keyMatches data ptr entry.key then [] else compared data ptr entries

/-- The offsets that the comparisons read: `memcmp` takes the whole key. -/
def compareReads (data : Mem) (ptr : ℕ) (entries : List TranslationEntry) : List ℕ :=
  (compared data ptr entries).flatMap fun entry => List.range' ptr entry.key.length

/-- What `get_translated_file_size` returns and reads. -/
structure SizeResult where
  ret : ℤ
  reads : List ℕ

/-- What `translate_file` returns, reads and writes through `out_ptr`. -/
structure FileResult where
  ret : ℤ
  reads : List ℕ
  out : List UInt8

/-- The loop of `get_translated_file_size`. -/
def getTranslatedFileSizeLoop (data : Mem) (size : ℕ) (entries : List TranslationEntry) (ptr : ℕ)
    (ret : ℤ) (reads : List ℕ) : SizeResult :=
  if ptr < size then
    if data ptr = trKeyMarker then
      let reads := reads ++ ptr :: compareReads data ptr entries
      match matchingEntry data ptr entries with
      | some entry =>
        getTranslatedFileSizeLoop data size entries (ptr + entry.key.length + 1)
          (ret - entry.key.length + entry.value.length) reads
      | none => getTranslatedFileSizeLoop data size entries (ptr + 1) ret reads
    else getTranslatedFileSizeLoop data size entries (ptr + 1) ret (reads ++ [ptr])
  else ⟨ret, reads⟩
termination_by size - ptr

/-- `get_translated_file_size`. -/
def getTranslatedFileSize (data : Mem) (size : ℕ) (entries : List TranslationEntry) : SizeResult :=
  getTranslatedFileSizeLoop data size entries 0 size []

/-- The loop of `translate_file`. Behind a key, too, it copies the byte at `in_ptr`. -/
def translateFileLoop (data : Mem) (size : ℕ) (entries : List TranslationEntry) (inPtr : ℕ) (ret : ℤ)
    (reads : List ℕ) (out : List UInt8) : FileResult :=
  if inPtr < size then
    if data inPtr = trKeyMarker then
      let reads := reads ++ inPtr :: compareReads data inPtr entries
      match matchingEntry data inPtr entries with
      | some entry =>
        let ptr := inPtr + entry.key.length
        translateFileLoop data size entries (ptr + 1) (ret - entry.key.length + entry.value.length)
          (reads ++ [ptr]) (out ++ entry.value ++ [data ptr])
      | none =>
        translateFileLoop data size entries (inPtr + 1) ret (reads ++ [inPtr]) (out ++ [data inPtr])
    else
      translateFileLoop data size entries (inPtr + 1) ret (reads ++ [inPtr] ++ [inPtr])
        (out ++ [data inPtr])
  else ⟨ret, reads, out⟩
termination_by size - inPtr

/-- `translate_file`. -/
def translateFile (data : Mem) (size : ℕ) (entries : List TranslationEntry) : FileResult :=
  translateFileLoop data size entries 0 size [] []

/-! ## All assets -/

/-- `asset_t`, with the memory at its `data`. -/
structure Asset where
  data : Mem
  size : ℕ

/-- The first pass of `translate_assets`: the size of the buffer. Only the first language's assets
are touched. -/
def translatedAssetsMemorySize (translations : ℕ → List TranslationEntry) (assets : ℕ → ℕ → Asset)
    (langCount assetsCount : ℕ) : ℤ :=
  (List.range langCount).foldl (fun total i =>
    (List.range assetsCount).foldl (fun total j =>
      total + (getTranslatedFileSize (assets 0 j).data (assets 0 j).size (translations i)).ret) total) 0

/-- The second pass while it runs: `data_ptr` as an offset in the buffer, the buffer, and the offset
and size of the assets translated so far. -/
structure Placing where
  dataPtr : ℤ
  buffer : Mem
  data : ℕ × ℕ → ℤ
  size : ℕ × ℕ → ℤ

/-- One turn of the second pass. -/
def translateAsset (translations : ℕ → List TranslationEntry) (assets : ℕ → ℕ → Asset) (s : Placing)
    (ij : ℕ × ℕ) : Placing :=
  let asset := assets ij.1 ij.2
  let r := translateFile asset.data asset.size (translations ij.1)
  { dataPtr := s.dataPtr + r.ret
    buffer := s.buffer.store s.dataPtr.toNat r.out
    data := Function.update s.data ij s.dataPtr
    size := Function.update s.size ij r.ret }

/-- The second pass of `translate_assets`, on a fresh buffer. -/
def translateAssets (translations : ℕ → List TranslationEntry) (assets : ℕ → ℕ → Asset)
    (langCount assetsCount : ℕ) (buffer : Mem) : Placing :=
  (List.range langCount).foldl (fun s i =>
    (List.range assetsCount).foldl (fun s j => translateAsset translations assets s (i, j)) s)
    ⟨0, buffer, fun _ => 0, fun _ => 0⟩

/-! ## Stops -/

section Stops

variable (data : Mem) (size : ℕ) (keys : List (List UInt8)) (entries : List TranslationEntry)

/-- The key that is found at an offset. -/
def keyAt (p : ℕ) : Option (List UInt8) :=
  if data p = trKeyMarker then keys.find? (keyMatches data p) else none

/-- Where a pass goes from an offset: past a key and the byte behind it, or to the next byte. -/
def nextStop (p : ℕ) : ℕ :=
  match keyAt data keys p with
  | some key => p + key.length + 1
  | none => p + 1

theorem lt_nextStop (p : ℕ) : p < nextStop data keys p := by
  rw [nextStop]
  cases keyAt data keys p with
  | some key => exact Nat.lt_succ_of_le (Nat.le_add_right p key.length)
  | none => exact Nat.lt_succ_self p

/-- The offsets from `p` on at which a pass examines a byte. -/
def stops (p : ℕ) : List ℕ := if p < size then p :: stops (nextStop data keys p) else []
termination_by size - p
decreasing_by
  have := lt_nextStop data keys p
  omega

/-- The entry whose key is found at an offset. -/
def entryAt (p : ℕ) : Option TranslationEntry :=
  if data p = trKeyMarker then matchingEntry data p entries else none

/-- How much longer the file gets at a stop. -/
def gain (p : ℕ) : ℤ :=
  match entryAt data entries p with
  | some entry => entry.value.length - entry.key.length
  | none => 0

/-- What is written at a stop. -/
def emitted (p : ℕ) : List UInt8 :=
  match entryAt data entries p with
  | some entry => entry.value ++ [data (p + entry.key.length)]
  | none => [data p]

/-- What is read at a stop to find a key. -/
def scanReads (p : ℕ) : List ℕ :=
  p :: if data p = trKeyMarker then compareReads data p entries else []

variable {data size keys entries}

theorem keyAt_map (p : ℕ) :
    keyAt data (entries.map (·.key)) p = (entryAt data entries p).map (·.key) := by
  rw [keyAt, entryAt]
  split_ifs
  · rw [List.find?_map]
    rfl
  · rfl

theorem nextStop_map (p : ℕ) : nextStop data (entries.map (·.key)) p =
    match entryAt data entries p with
    | some entry => p + entry.key.length + 1
    | none => p + 1 := by
  rw [nextStop, keyAt_map]
  cases entryAt data entries p <;> rfl

theorem stops_of_lt {p : ℕ} (hp : p < size) :
    stops data size keys p = p :: stops data size keys (nextStop data keys p) := by
  rw [stops, if_pos hp]

theorem stops_of_le {p : ℕ} (hp : size ≤ p) : stops data size keys p = [] := by
  rw [stops, if_neg (not_lt.mpr hp)]

theorem lt_of_mem_stops {p q : ℕ} (hq : q ∈ stops data size keys p) : q < size := by
  induction p using stops.induct data size keys with
  | case1 p hp ih =>
    rw [stops_of_lt hp, List.mem_cons] at hq
    rcases hq with rfl | hq
    · exact hp
    · exact ih hq
  | case2 p hp =>
    rw [stops_of_le (not_lt.mp hp)] at hq
    cases hq

/-- **The first pass, stop by stop.** -/
theorem getTranslatedFileSizeLoop_eq (ptr : ℕ) (ret : ℤ) (reads : List ℕ) :
    getTranslatedFileSizeLoop data size entries ptr ret reads =
      ⟨ret + ((stops data size (entries.map (·.key)) ptr).map (gain data entries)).sum,
        reads ++ (stops data size (entries.map (·.key)) ptr).flatMap (scanReads data entries)⟩ := by
  induction ptr using stops.induct data size (entries.map (·.key)) generalizing ret reads with
  | case1 p hp ih =>
    rw [stops_of_lt hp, List.map_cons, List.sum_cons, List.flatMap_cons, ← List.append_assoc,
      ← add_assoc, getTranslatedFileSizeLoop, if_pos hp]
    rw [nextStop_map] at ih ⊢
    simp only [gain, scanReads, entryAt] at ih ⊢
    split_ifs at ih ⊢ with hmarker
    · cases hentry : matchingEntry data p entries with
      | some entry =>
        simp only [hentry] at ih ⊢
        rw [ih]
        congr 2
        ring
      | none =>
        simp only [hentry] at ih ⊢
        rw [ih, add_zero]
    · rw [ih, add_zero]
  | case2 p hp =>
    rw [stops_of_le (not_lt.mp hp), getTranslatedFileSizeLoop, if_neg hp]
    simp

/-- **The second pass, stop by stop.** The byte copied at a stop is the last one before the next
stop. -/
theorem translateFileLoop_eq (inPtr : ℕ) (ret : ℤ) (reads : List ℕ) (out : List UInt8) :
    translateFileLoop data size entries inPtr ret reads out =
      ⟨ret + ((stops data size (entries.map (·.key)) inPtr).map (gain data entries)).sum,
        reads ++ (stops data size (entries.map (·.key)) inPtr).flatMap fun p =>
          scanReads data entries p ++ [nextStop data (entries.map (·.key)) p - 1],
        out ++ (stops data size (entries.map (·.key)) inPtr).flatMap (emitted data entries)⟩ := by
  induction inPtr using stops.induct data size (entries.map (·.key)) generalizing ret reads out with
  | case1 p hp ih =>
    rw [stops_of_lt hp, List.map_cons, List.sum_cons, List.flatMap_cons, List.flatMap_cons,
      ← List.append_assoc, ← List.append_assoc, ← add_assoc, translateFileLoop, if_pos hp]
    rw [nextStop_map] at ih ⊢
    simp only [gain, scanReads, emitted, entryAt] at ih ⊢
    split_ifs at ih ⊢ with hmarker
    · cases hentry : matchingEntry data p entries with
      | some entry =>
        simp only [hentry, Nat.add_sub_cancel] at ih ⊢
        rw [ih]
        simp only [List.append_assoc]
        congr 1
        ring
      | none =>
        simp only [hentry, Nat.add_sub_cancel] at ih ⊢
        rw [ih, add_zero]
        simp only [List.append_assoc]
    · rw [ih, add_zero]
      simp only [Nat.add_sub_cancel, List.append_assoc]
  | case2 p hp =>
    rw [stops_of_le (not_lt.mp hp), translateFileLoop, if_neg hp]
    simp

theorem getTranslatedFileSize_eq (data : Mem) (size : ℕ) (entries : List TranslationEntry) :
    getTranslatedFileSize data size entries =
      ⟨size + ((stops data size (entries.map (·.key)) 0).map (gain data entries)).sum,
        (stops data size (entries.map (·.key)) 0).flatMap (scanReads data entries)⟩ :=
  getTranslatedFileSizeLoop_eq 0 size []

theorem translateFile_eq (data : Mem) (size : ℕ) (entries : List TranslationEntry) :
    translateFile data size entries =
      ⟨size + ((stops data size (entries.map (·.key)) 0).map (gain data entries)).sum,
        (stops data size (entries.map (·.key)) 0).flatMap fun p =>
          scanReads data entries p ++ [nextStop data (entries.map (·.key)) p - 1],
        (stops data size (entries.map (·.key)) 0).flatMap (emitted data entries)⟩ :=
  translateFileLoop_eq 0 size [] []

end Stops

end Adnihilum
