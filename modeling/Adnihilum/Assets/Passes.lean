import Adnihilum.Assets.Translate

/-!
# The two translation passes

`get_translated_file_size` and `translate_file` stop at the same offsets. They agree, and stay
inside the file, unless a comparison, or the byte copied behind a key, lies behind the end of the
file.

* `Fits`: no comparison and no copied byte does; **`fileAgrees_iff`**.
* `Slices`: where the second pass puts the files; `translateAsset_slices`.
* **`passes_agree_iff`**: both passes of `translate_assets`.
-/

namespace Adnihilum

open FlatMemory

/-! ## One file -/

section File

variable {data : Mem} {size : ℕ} {entries : List TranslationEntry}

/-- At every `@` where the passes stop, the keys compared there fit into the rest of the file, and
one that is found is not the end of the file. -/
def Fits (data : Mem) (size : ℕ) (entries : List TranslationEntry) : Prop :=
  ∀ p ∈ stops data size (entries.map (·.key)) 0, data p = trKeyMarker →
    (∀ entry ∈ compared data p entries, p + entry.key.length ≤ size) ∧
      ∀ entry ∈ matchingEntry data p entries, p + entry.key.length < size

/-- The passes over a file agree and stay inside it. -/
structure FileAgrees (data : Mem) (size : ℕ) (entries : List TranslationEntry) : Prop where
  ret : (translateFile data size entries).ret = (getTranslatedFileSize data size entries).ret
  written : ((translateFile data size entries).out.length : ℤ) =
    (getTranslatedFileSize data size entries).ret
  reads_size : ∀ r ∈ (getTranslatedFileSize data size entries).reads, r < size
  reads_file : ∀ r ∈ (translateFile data size entries).reads, r < size

theorem scanReads_lt_iff {p : ℕ} (hp : p < size) : (∀ r ∈ scanReads data entries p, r < size) ↔
    (data p = trKeyMarker → ∀ entry ∈ compared data p entries, p + entry.key.length ≤ size) := by
  rw [scanReads]
  split_ifs with hmarker
  · rw [List.forall_mem_cons, forall_prop_of_true hmarker, and_iff_right hp, compareReads]
    simp only [List.mem_flatMap, List.mem_range'_1]
    constructor
    · intro h entry hentry
      rcases Nat.eq_zero_or_pos entry.key.length with h0 | hpos
      · omega
      · have := h (p + entry.key.length - 1) ⟨entry, hentry, by omega, by omega⟩
        omega
    · rintro h r ⟨entry, hentry, h1, h2⟩
      have := h entry hentry
      omega
  · rw [List.forall_mem_singleton]
    exact iff_of_true hp fun hc => absurd hc hmarker

theorem nextStop_le_iff {p : ℕ} (hp : p < size) : nextStop data (entries.map (·.key)) p - 1 < size ↔
    (data p = trKeyMarker → ∀ entry ∈ matchingEntry data p entries, p + entry.key.length < size) := by
  rw [nextStop_map, entryAt]
  split_ifs with hmarker
  · rw [forall_prop_of_true hmarker]
    cases matchingEntry data p entries with
    | some entry => simp
    | none => simpa using hp
  · exact iff_of_true hp fun hc => absurd hc hmarker

/-- The reads of both passes are inside the file exactly if everything fits. -/
theorem reads_lt_iff : ((∀ r ∈ (getTranslatedFileSize data size entries).reads, r < size) ∧
    ∀ r ∈ (translateFile data size entries).reads, r < size) ↔ Fits data size entries := by
  rw [getTranslatedFileSize_eq, translateFile_eq]
  simp only [List.mem_flatMap, List.mem_append, List.mem_singleton]
  constructor
  · rintro ⟨-, h⟩ p hp hmarker
    have hlt := lt_of_mem_stops hp
    exact ⟨(scanReads_lt_iff hlt).mp (fun r hr => h r ⟨p, hp, .inl hr⟩) hmarker,
      (nextStop_le_iff hlt).mp (h _ ⟨p, hp, .inr rfl⟩) hmarker⟩
  · intro h
    have hscan : ∀ p ∈ stops data size (entries.map (·.key)) 0, ∀ r ∈ scanReads data entries p,
        r < size := fun p hp =>
      (scanReads_lt_iff (lt_of_mem_stops hp)).mpr fun hmarker => (h p hp hmarker).1
    refine ⟨fun r ⟨p, hp, hr⟩ => hscan p hp r hr, ?_⟩
    rintro r ⟨p, hp, hr | rfl⟩
    · exact hscan p hp r hr
    · exact (nextStop_le_iff (lt_of_mem_stops hp)).mpr fun hmarker => (h p hp hmarker).2

theorem length_emitted (p : ℕ) : ((emitted data entries p).length : ℤ) =
    gain data entries p + (nextStop data (entries.map (·.key)) p - p) := by
  rw [emitted, gain, nextStop_map]
  cases entryAt data entries p with
  | some entry =>
    simp only [List.length_append, List.length_singleton]
    push_cast
    ring
  | none =>
    simp only [List.length_singleton]
    push_cast
    ring

theorem length_flatMap_emitted {p : ℕ} (hp : p ≤ size)
    (hnext : ∀ q ∈ stops data size (entries.map (·.key)) p,
      nextStop data (entries.map (·.key)) q - 1 < size) :
    (((stops data size (entries.map (·.key)) p).flatMap (emitted data entries)).length : ℤ) =
      ((stops data size (entries.map (·.key)) p).map (gain data entries)).sum + (size - p) := by
  -- by induction on the stops, which cut the rest of the file into pieces
  induction p using stops.induct data size (entries.map (·.key)) with
  | case1 p hlt ih =>
    rw [stops_of_lt hlt] at hnext ⊢
    have hle := hnext p List.mem_cons_self
    have hadv := lt_nextStop data (entries.map (·.key)) p
    have hrest := ih (by omega) fun q hq => hnext q (List.mem_cons_of_mem _ hq)
    rw [List.flatMap_cons, List.map_cons, List.sum_cons, List.length_append, Nat.cast_add, hrest,
      length_emitted]
    ring
  | case2 p hge =>
    obtain rfl : p = size := by omega
    rw [stops_of_le le_rfl]
    simp

/-- **The passes over a file agree exactly if everything fits.** -/
theorem fileAgrees_iff : FileAgrees data size entries ↔ Fits data size entries := by
  constructor
  · exact fun h => reads_lt_iff.mp ⟨h.reads_size, h.reads_file⟩
  · intro h
    obtain ⟨hsize, hfile⟩ := reads_lt_iff.mpr h
    refine ⟨by rw [translateFile_eq, getTranslatedFileSize_eq], ?_, hsize, hfile⟩
    rw [translateFile_eq, getTranslatedFileSize_eq]
    simp only
    rw [length_flatMap_emitted (Nat.zero_le size) fun q hq =>
      (nextStop_le_iff (lt_of_mem_stops hq)).mpr fun hmarker => (h q hq hmarker).2]
    push_cast
    ring

end File

/-! ## All files -/

section Files

variable {translations : ℕ → List TranslationEntry} {files : ℕ → Asset}

/-- The language and the asset of every turn, in order. -/
def turns (langCount assetsCount : ℕ) : List (ℕ × ℕ) :=
  (List.range langCount).flatMap fun i => (List.range assetsCount).map fun j => (i, j)

theorem mem_turns {langCount assetsCount : ℕ} {ij : ℕ × ℕ} :
    ij ∈ turns langCount assetsCount ↔ ij.1 < langCount ∧ ij.2 < assetsCount := by
  obtain ⟨i, j⟩ := ij
  simp [turns]

theorem nodup_turns (langCount assetsCount : ℕ) : (turns langCount assetsCount).Nodup := by
  refine List.nodup_flatMap.mpr ⟨fun i _ => ?_, ?_⟩
  · exact List.nodup_range.map fun j j' h => (Prod.mk.inj h).2
  · refine List.nodup_range.pairwise_of_forall_ne fun i _ i' _ hne => ?_
    rintro ⟨a, b⟩ h h'
    obtain ⟨j, -, hj⟩ := List.mem_map.mp h
    obtain ⟨j', -, hj'⟩ := List.mem_map.mp h'
    exact hne ((Prod.mk.inj hj).1.trans (Prod.mk.inj hj').1.symm)

theorem foldl_turns {σ : Type} (f : σ → ℕ × ℕ → σ) (s : σ) (langCount assetsCount : ℕ) :
    (List.range langCount).foldl
      (fun s i => (List.range assetsCount).foldl (fun s j => f s (i, j)) s) s =
        (turns langCount assetsCount).foldl f s := by
  rw [turns, List.foldl_flatMap]
  simp only [List.foldl_map]

/-- What the second pass writes for a language and an asset. -/
def translated (translations : ℕ → List TranslationEntry) (files : ℕ → Asset) (ij : ℕ × ℕ) :
    List UInt8 :=
  (translateFile (files ij.2).data (files ij.2).size (translations ij.1)).out

/-- Every translated file lies in a slice of its own: the slices are inside what was written so far,
one behind the other, as long as the files, and hold their bytes. -/
structure Slices (translations : ℕ → List TranslationEntry) (files : ℕ → Asset) (ijs : List (ℕ × ℕ))
    (s : Placing) : Prop where
  inside : ∀ ij ∈ ijs, 0 ≤ s.data ij ∧ s.data ij + s.size ij ≤ s.dataPtr
  size : ∀ ij ∈ ijs, s.size ij = (translated translations files ij).length
  bytes : ∀ ij ∈ ijs, s.buffer.load (s.data ij).toNat (translated translations files ij).length =
    translated translations files ij
  apart : ijs.Pairwise fun ij ij' => s.data ij + s.size ij ≤ s.data ij'

theorem translateAsset_slices {ijs : List (ℕ × ℕ)} {s : Placing} {ij : ℕ × ℕ}
    (h : Slices translations files ijs s) (hptr : 0 ≤ s.dataPtr) (hnew : ij ∉ ijs)
    (hret : (translateFile (files ij.2).data (files ij.2).size (translations ij.1)).ret =
      (translated translations files ij).length) :
    Slices translations files (ijs ++ [ij])
      (translateAsset translations (fun _ => files) s ij) := by
  have hold : ∀ ij' ∈ ijs, ij' ≠ ij := fun ij' hmem heq => hnew (heq ▸ hmem)
  have hdata : ∀ ij' ∈ ijs,
      (translateAsset translations (fun _ => files) s ij).data ij' = s.data ij' :=
    fun ij' hmem => Function.update_of_ne (hold ij' hmem) _ _
  have hsize : ∀ ij' ∈ ijs,
      (translateAsset translations (fun _ => files) s ij).size ij' = s.size ij' :=
    fun ij' hmem => Function.update_of_ne (hold ij' hmem) _ _
  have hdata' : (translateAsset translations (fun _ => files) s ij).data ij = s.dataPtr :=
    Function.update_self _ _ _
  have hsize' : (translateAsset translations (fun _ => files) s ij).size ij =
      (translated translations files ij).length := (Function.update_self _ _ _).trans hret
  have hptr' : (translateAsset translations (fun _ => files) s ij).dataPtr =
      s.dataPtr + (translated translations files ij).length := congrArg (s.dataPtr + ·) hret
  have hbuffer : (translateAsset translations (fun _ => files) s ij).buffer =
      s.buffer.store s.dataPtr.toNat (translated translations files ij) := rfl
  refine ⟨?_, ?_, ?_, ?_⟩
  · intro ij' hmem
    rcases List.mem_append.mp hmem with hmem | hmem
    · have := h.inside ij' hmem
      rw [hdata ij' hmem, hsize ij' hmem, hptr']
      omega
    · rw [List.mem_singleton.mp hmem, hdata', hsize', hptr']
      omega
  · intro ij' hmem
    rcases List.mem_append.mp hmem with hmem | hmem
    · rw [hsize ij' hmem, h.size ij' hmem]
    · rw [List.mem_singleton.mp hmem, hsize']
  · intro ij' hmem
    rcases List.mem_append.mp hmem with hmem | hmem
    · -- the earlier files end before the new one starts
      have hin := h.inside ij' hmem
      rw [h.size ij' hmem] at hin
      rw [hdata ij' hmem, hbuffer]
      refine Eq.trans (Mem.load_congr fun d hd => ?_) (h.bytes ij' hmem)
      exact Mem.store_of_outside (by omega)
    · rw [List.mem_singleton.mp hmem, hdata', hbuffer]
      exact Mem.load_store_self _
  · rw [List.pairwise_append]
    refine ⟨h.apart.imp_of_mem fun hm hm' hle => ?_, List.pairwise_singleton _ _,
      fun ij' hmem x hx => ?_⟩
    · rw [hdata _ hm, hsize _ hm, hdata _ hm']
      exact hle
    · rw [List.mem_singleton.mp hx, hdata ij' hmem, hsize ij' hmem, hdata']
      exact (h.inside ij' hmem).2

theorem foldl_translateAsset {ijs : List (ℕ × ℕ)} (hnodup : ijs.Nodup)
    (hret : ∀ ij ∈ ijs, (translateFile (files ij.2).data (files ij.2).size (translations ij.1)).ret =
      (translated translations files ij).length) (buffer : Mem) :
    Slices translations files ijs
        (ijs.foldl (translateAsset translations fun _ => files) ⟨0, buffer, fun _ => 0, fun _ => 0⟩) ∧
      (ijs.foldl (translateAsset translations fun _ => files)
        ⟨0, buffer, fun _ => 0, fun _ => 0⟩).dataPtr =
          (ijs.map fun ij => ((translated translations files ij).length : ℤ)).sum := by
  induction ijs using List.reverseRecOn with
  | nil => exact ⟨⟨by simp, by simp, by simp, List.Pairwise.nil⟩, rfl⟩
  | append_singleton ijs ij ih =>
    obtain ⟨hleft, -, hdisj⟩ := List.nodup_append.mp hnodup
    obtain ⟨hslices, hptr⟩ := ih hleft fun ij' hmem => hret ij' (List.mem_append_left _ hmem)
    have hnew : ij ∉ ijs := fun hmem => hdisj ij hmem ij List.mem_cons_self rfl
    have hret' := hret ij (List.mem_append_right _ List.mem_cons_self)
    rw [List.foldl_append, List.foldl_cons, List.foldl_nil]
    refine ⟨translateAsset_slices hslices ?_ hnew hret', ?_⟩
    · rw [hptr]
      exact List.sum_nonneg fun n hn => by
        obtain ⟨ij', -, rfl⟩ := List.mem_map.mp hn
        exact Int.natCast_nonneg _
    · rw [List.map_append, List.sum_append, ← hptr]
      exact (congrArg (_ + ·) hret').trans (by simp)

/-- What `translate_assets` is to do: the passes over every file agree and stay inside it, every
translated file lies in a slice of its own, and the slices fill the buffer. -/
structure PassesAgree (translations : ℕ → List TranslationEntry) (files : ℕ → Asset)
    (langCount assetsCount : ℕ) (buffer : Mem) : Prop where
  file : ∀ i < langCount, ∀ j < assetsCount,
    FileAgrees (files j).data (files j).size (translations i)
  slices : Slices translations files (turns langCount assetsCount)
    (translateAssets translations (fun _ => files) langCount assetsCount buffer)
  allocation : (translateAssets translations (fun _ => files) langCount assetsCount buffer).dataPtr =
    translatedAssetsMemorySize translations (fun _ => files) langCount assetsCount

/-- **The passes of `translate_assets` agree exactly if everything fits**, for every number of
languages and assets; every language starts with the files of the first one. -/
theorem passes_agree_iff (translations : ℕ → List TranslationEntry) (files : ℕ → Asset)
    (langCount assetsCount : ℕ) (buffer : Mem) :
    PassesAgree translations files langCount assetsCount buffer ↔
      ∀ i < langCount, ∀ j < assetsCount, Fits (files j).data (files j).size (translations i) := by
  constructor
  · exact fun h i hi j hj => fileAgrees_iff.mp (h.file i hi j hj)
  · intro h
    have hfile : ∀ ij ∈ turns langCount assetsCount,
        FileAgrees (files ij.2).data (files ij.2).size (translations ij.1) := fun ij hmem =>
      fileAgrees_iff.mpr (h ij.1 (mem_turns.mp hmem).1 ij.2 (mem_turns.mp hmem).2)
    obtain ⟨hslices, hptr⟩ := foldl_translateAsset (nodup_turns langCount assetsCount)
      (fun ij hmem => (hfile ij hmem).ret.trans (hfile ij hmem).written.symm) buffer
    have hpass : translateAssets translations (fun _ => files) langCount assetsCount buffer =
        (turns langCount assetsCount).foldl (translateAsset translations fun _ => files)
          ⟨0, buffer, fun _ => 0, fun _ => 0⟩ := foldl_turns _ _ _ _
    have htotal : translatedAssetsMemorySize translations (fun _ => files) langCount assetsCount =
        (turns langCount assetsCount).foldl (fun total ij => total +
          (getTranslatedFileSize (files ij.2).data (files ij.2).size (translations ij.1)).ret) 0 :=
      foldl_turns (fun total ij => total +
        (getTranslatedFileSize (files ij.2).data (files ij.2).size (translations ij.1)).ret) 0 _ _
    refine ⟨fun i hi j hj => hfile (i, j) (mem_turns.mpr ⟨hi, hj⟩), hpass ▸ hslices, ?_⟩
    rw [hpass, hptr, htotal, ← List.foldl_map, ← List.sum_eq_foldl]
    exact congrArg List.sum (List.map_congr_left fun ij hmem => (hfile ij hmem).written)

/-- A file that ends with a key: one byte is read behind the file, and one more is written than
either pass counts. -/
theorem key_at_end_overruns : GeneratedKey [0x40, 0x61, 0x40] ∧
    ¬ FileAgrees (Mem.store (fun _ => 0) 0 [0x40, 0x61, 0x40]) 3 [⟨[0x40, 0x61, 0x40], [0x78]⟩] := by
  refine ⟨generatedKey_letter (by decide), fun h => ?_⟩
  have hout : (translateFile (Mem.store (fun _ => 0) 0 [0x40, 0x61, 0x40]) 3
      [⟨[0x40, 0x61, 0x40], [0x78]⟩]).out.length = 2 := by decide +kernel
  have hret : (getTranslatedFileSize (Mem.store (fun _ => 0) 0 [0x40, 0x61, 0x40]) 3
      [⟨[0x40, 0x61, 0x40], [0x78]⟩]).ret = 1 := by decide +kernel
  have hwritten := h.written
  rw [hout, hret] at hwritten
  exact absurd hwritten (by decide)

end Files

end Adnihilum
