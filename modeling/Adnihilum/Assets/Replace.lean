import Adnihilum.Assets.Translate
import Adnihilum.Lib.Replace

/-!
# What the translation replaces

`translate_file` is to replace every key of a file, from left to right. Behind a key it copies one
byte without looking at it, so a key that follows another one directly stays in the page; and a key
whose front part ends the file is completed by whatever lies behind it.

* `Occurs`: a key stands in the file; `replaceAll_rest_copy`, `replaceAll_rest_word`: what is to be
  written at an offset.
* `Clear`: nothing goes wrong at an offset; `flatMap_emitted_iff`, by induction on the stops.
* **`translateFile_replaces_iff`**; `adjacent_key_stays`.
-/

namespace Adnihilum

open FlatMemory Replacement

/-! ## Keys -/

theorem marker_ne_of_letter {c : UInt8} (h : (isLetter c || isDigitOrUnderscore c) = true) :
    trKeyMarker ≠ c := by
  rintro rfl
  exact absurd h (by decide)

theorem GeneratedKey.delimited {key : List UInt8} (h : GeneratedKey key) :
    ∃ name, trKeyMarker ∉ name ∧ key = trKeyMarker :: name ++ [trKeyMarker] := by
  obtain ⟨c, cs, hc, hcs, rfl⟩ := h
  refine ⟨c :: cs, ?_, rfl⟩
  rw [List.mem_cons, not_or]
  exact ⟨marker_ne_of_letter (by rw [hc, Bool.true_or]),
    fun hmem => marker_ne_of_letter (hcs _ hmem) rfl⟩

theorem GeneratedKey.eq_cons {key : List UInt8} (h : GeneratedKey key) :
    ∃ rest, key = trKeyMarker :: rest := by
  obtain ⟨name, -, rfl⟩ := h.delimited
  exact ⟨_, rfl⟩

/-! ## Occurrences -/

variable {data : Mem} {size : ℕ} {keys : List (List UInt8)}

/-- A key stands in the file at an offset. -/
def Occurs (data : Mem) (size p : ℕ) (key : List UInt8) : Prop :=
  p + key.length ≤ size ∧ data.load p key.length = key

instance (p : ℕ) (key : List UInt8) : Decidable (Occurs data size p key) :=
  inferInstanceAs (Decidable (_ ∧ _))

theorem not_last_of_not_occurs (h : ∀ key ∈ keys, ¬ Occurs data size (size - key.length) key) :
    ∀ p, ∀ key ∈ keys, Occurs data size p key → p + key.length ≠ size := by
  intro p key hkey hoccurs heq
  obtain rfl : p = size - key.length := by omega
  exact h key hkey hoccurs

/-- The file from an offset on. -/
def rest (data : Mem) (size p : ℕ) : List UInt8 := data.load p (size - p)

theorem rest_of_lt {p : ℕ} (hp : p < size) : rest data size p = data p :: rest data size (p + 1) := by
  rw [rest, rest, show size - p = size - (p + 1) + 1 by omega, Mem.load_succ]

theorem rest_of_le {p : ℕ} (hp : size ≤ p) : rest data size p = [] := by
  rw [rest, Nat.sub_eq_zero_of_le hp]
  rfl

theorem prefix_rest_iff {p : ℕ} {key : List UInt8} (hp : p < size) :
    key <+: rest data size p ↔ Occurs data size p key := by
  rw [rest, Mem.prefix_load_iff, Occurs]
  exact and_congr_left fun _ => by omega

theorem Occurs.rest_eq {p : ℕ} {key : List UInt8} (h : Occurs data size p key) :
    rest data size p = key ++ rest data size (p + key.length) := by
  have hle := h.1
  rw [rest, rest, show size - p = key.length + (size - (p + key.length)) by omega, Mem.load_add, h.2]

theorem GeneratedKey.data_eq {p : ℕ} {key : List UInt8} (h : GeneratedKey key)
    (hmatch : data.load p key.length = key) : data p = trKeyMarker := by
  obtain ⟨tail, rfl⟩ := h.eq_cons
  rw [List.length_cons, Mem.load_succ] at hmatch
  exact (List.cons.inj hmatch).1

theorem keyMatches_iff {p : ℕ} {key : List UInt8} :
    keyMatches data p key = true ↔ data.load p key.length = key := beq_iff_eq

/-! ## One stop -/

/-- What the entries say as rules. -/
def rules (entries : List TranslationEntry) : List (List UInt8 × List UInt8) :=
  entries.map fun entry => (entry.key, entry.value)

/-- At an offset nothing goes wrong: a key found there ends inside the file, and no key follows it
directly. -/
def Clear (data : Mem) (size : ℕ) (keys : List (List UInt8)) (p : ℕ) : Prop :=
  ∀ key ∈ keyAt data keys p, p + key.length ≤ size ∧
    ∀ key' ∈ keys, ¬ Occurs data size (p + key.length) key'

instance (p : ℕ) : Decidable (Clear data size keys p) :=
  inferInstanceAs (Decidable (∀ key ∈ keyAt data keys p, _))

section Stop

variable {entries : List TranslationEntry}

/-- At most one key stands at an offset, in the file or across its end. -/
theorem matching_key_eq (hgen : ∀ key ∈ keys, GeneratedKey key) {p : ℕ} {key key' : List UInt8}
    (hkey : key ∈ keys) (hkey' : key' ∈ keys) (hmatch : data.load p key.length = key)
    (hmatch' : data.load p key'.length = key') : key = key' := by
  have hfree : PrefixFree keys := prefixFree_delimited fun key hmem => (hgen key hmem).delimited
  have hprefix : key <+: data.load p (max key.length key'.length) :=
    Mem.prefix_load_iff.mpr ⟨le_max_left _ _, hmatch⟩
  have hprefix' : key' <+: data.load p (max key.length key'.length) :=
    Mem.prefix_load_iff.mpr ⟨le_max_right _ _, hmatch'⟩
  exact hfree.eq hkey hkey' hprefix hprefix'

theorem keyAt_of_occurs (hgen : ∀ key ∈ keys, GeneratedKey key) {p : ℕ} {key : List UInt8}
    (hkey : key ∈ keys) (h : Occurs data size p key) : keyAt data keys p = some key := by
  rw [keyAt, if_pos ((hgen key hkey).data_eq h.2)]
  cases hfind : keys.find? (keyMatches data p) with
  | none => exact absurd (keyMatches_iff.mpr h.2) (List.find?_eq_none.mp hfind key hkey)
  | some key' =>
    have hmatch' := keyMatches_iff.mp (List.find?_some hfind)
    rw [matching_key_eq hgen (List.mem_of_find?_eq_some hfind) hkey hmatch' h.2]

theorem of_entryAt_eq_some {p : ℕ} {entry : TranslationEntry}
    (h : entryAt data entries p = some entry) :
    entry ∈ entries ∧ data.load p entry.key.length = entry.key := by
  rw [entryAt] at h
  split_ifs at h
  rw [matchingEntry] at h
  have hmatch := List.find?_some h
  exact ⟨List.mem_of_find?_eq_some h, keyMatches_iff.mp hmatch⟩

theorem replaceAll_rest_copy {p : ℕ} (hp : p < size)
    (h : ∀ key ∈ entries.map (·.key), ¬ Occurs data size p key) :
    replaceAll (rules entries) (rest data size p) =
      data p :: replaceAll (rules entries) (rest data size (p + 1)) := by
  rw [rest_of_lt hp]
  apply replaceAll_copy
  rw [← rest_of_lt hp]
  intro rule hrule hprefix
  obtain ⟨entry, hentry, rfl⟩ := List.mem_map.mp hrule
  exact h entry.key (List.mem_map_of_mem hentry) ((prefix_rest_iff hp).mp hprefix)

theorem replaceAll_rest_word (hgen : ∀ key ∈ entries.map (·.key), GeneratedKey key) {p : ℕ}
    {entry : TranslationEntry} (hp : p < size) (hentry : entryAt data entries p = some entry)
    (hfits : p + entry.key.length ≤ size) :
    replaceAll (rules entries) (rest data size p) =
      entry.value ++ replaceAll (rules entries) (rest data size (p + entry.key.length)) := by
  obtain ⟨hmem, hmatch⟩ := of_entryAt_eq_some hentry
  rw [entryAt] at hentry
  split_ifs at hentry
  have hrule : ruleAt (rules entries) (rest data size p) = some (entry.key, entry.value) := by
    have hcongr : entries.find? (fun entry => entry.key.isPrefixOf (rest data size p)) =
        matchingEntry data p entries := by
      refine List.find?_congr fun entry' hentry' => ?_
      rw [Bool.eq_iff_iff, List.isPrefixOf_iff_prefix, prefix_rest_iff hp, keyMatches_iff]
      refine ⟨And.right, fun hmatch' => ⟨?_, hmatch'⟩⟩
      rw [matching_key_eq hgen (List.mem_map_of_mem hentry') (List.mem_map_of_mem hmem) hmatch'
        hmatch]
      exact hfits
    rw [ruleAt, rules, List.find?_map]
    exact congrArg (Option.map fun entry => (entry.key, entry.value)) (hcongr.trans hentry)
  have hne : entry.key ≠ [] := by
    obtain ⟨tail, htail⟩ := (hgen entry.key (List.mem_map_of_mem hmem)).eq_cons
    rw [htail]
    exact List.cons_ne_nil _ _
  have hoccurs : Occurs data size p entry.key := ⟨hfits, hmatch⟩
  rw [hoccurs.rest_eq] at hrule ⊢
  exact replaceAll_word hrule hne

/-- **Where nothing goes wrong, a stop writes what the replacement writes** up to the next stop. -/
theorem emitted_of_clear (hgen : ∀ key ∈ entries.map (·.key), GeneratedKey key)
    (hlast : ∀ p, ∀ key ∈ entries.map (·.key), Occurs data size p key → p + key.length ≠ size) {p : ℕ}
    (hp : p < size) (h : Clear data size (entries.map (·.key)) p) :
    replaceAll (rules entries) (rest data size p) = emitted data entries p ++
      replaceAll (rules entries) (rest data size (nextStop data (entries.map (·.key)) p)) := by
  rw [emitted, nextStop_map]
  rw [Clear, keyAt_map] at h
  cases hentry : entryAt data entries p with
  | some entry =>
    obtain ⟨hmem, hmatch⟩ := of_entryAt_eq_some hentry
    obtain ⟨hfits, hnext⟩ := h entry.key (by rw [hentry]; rfl)
    -- a byte is left behind the key, and no key starts there
    have hlt : p + entry.key.length < size :=
      lt_of_le_of_ne hfits (hlast p entry.key (List.mem_map_of_mem hmem) ⟨hfits, hmatch⟩)
    simp only
    rw [replaceAll_rest_word hgen hp hentry hfits, replaceAll_rest_copy hlt hnext, List.append_assoc]
    rfl
  | none =>
    have hnone : ∀ key ∈ entries.map (·.key), ¬ Occurs data size p key := by
      intro key hkey hoccurs
      have := keyAt_of_occurs hgen hkey hoccurs
      rw [keyAt_map, hentry] at this
      cases this
    simp only
    rw [replaceAll_rest_copy hp hnone]
    rfl

/-- **Where something goes wrong, some values show it**: with one zero byte for every key, the first
or the second byte written differs. -/
theorem emitted_of_not_clear (hgen : ∀ key ∈ keys, GeneratedKey key) {p : ℕ} (hp : p < size)
    (h : ¬ Clear data size keys p) : ∃ entries : List TranslationEntry, entries.map (·.key) = keys ∧
      ∀ text, emitted data entries p ++ text ≠ replaceAll (rules entries) (rest data size p) := by
  have hmap : (keys.map fun key => TranslationEntry.mk key [0]).map (·.key) = keys := by
    rw [List.map_map]
    exact List.map_id keys
  refine ⟨keys.map fun key => ⟨key, [0]⟩, hmap, ?_⟩
  generalize hentries : (keys.map fun key => TranslationEntry.mk key [0]) = entries at hmap
  have hvalue : ∀ entry ∈ entries, entry.value = [0] := by
    rintro entry hentry
    rw [← hentries] at hentry
    obtain ⟨key, -, rfl⟩ := List.mem_map.mp hentry
    rfl
  subst hmap
  rw [Clear, keyAt_map] at h
  push Not at h
  obtain ⟨key, hkey, hbad⟩ := h
  obtain ⟨entry, hentry, rfl⟩ := Option.map_eq_some_iff.mp hkey
  obtain ⟨hmem, hmatch⟩ := of_entryAt_eq_some hentry
  have hdata := (hgen entry.key (List.mem_map_of_mem hmem)).data_eq hmatch
  intro text heq
  rw [emitted, hentry] at heq
  simp only [hvalue entry hmem, List.cons_append, List.nil_append] at heq
  rcases Nat.lt_or_ge size (p + entry.key.length) with hover | hfits
  · -- the key does not end in the file: its marker was to be copied
    have hnone : ∀ key ∈ entries.map (·.key), ¬ Occurs data size p key := by
      intro key hkey hoccurs
      have := hoccurs.1
      rw [matching_key_eq hgen hkey (List.mem_map_of_mem hmem) hoccurs.2 hmatch] at this
      omega
    rw [replaceAll_rest_copy hp hnone, hdata] at heq
    exact absurd (List.cons.inj heq).1 (by decide)
  · -- another key follows: its value was to be written, not its marker
    obtain ⟨key', hkey', hoccurs⟩ := hbad hfits
    have hlt : p + entry.key.length < size := by
      obtain ⟨tail, htail⟩ := (hgen key' hkey').eq_cons
      have := hoccurs.1
      rw [htail, List.length_cons] at this
      omega
    have hkeyAt := keyAt_of_occurs hgen hkey' hoccurs
    rw [keyAt_map] at hkeyAt
    obtain ⟨entry', hentry', rfl⟩ := Option.map_eq_some_iff.mp hkeyAt
    have hdata' := (hgen entry'.key hkey').data_eq hoccurs.2
    rw [replaceAll_rest_word hgen hp hentry hfits, replaceAll_rest_word hgen hlt hentry' hoccurs.1,
      hvalue entry hmem, hvalue entry' (of_entryAt_eq_some hentry').1, hdata'] at heq
    exact absurd (List.cons.inj (List.cons.inj heq).2).1 (by decide)

end Stop

/-! ## The whole file -/

theorem flatMap_emitted_iff (hgen : ∀ key ∈ keys, GeneratedKey key)
    (hlast : ∀ p, ∀ key ∈ keys, Occurs data size p key → p + key.length ≠ size) (p : ℕ) :
    (∀ entries : List TranslationEntry, entries.map (·.key) = keys →
      (stops data size keys p).flatMap (emitted data entries) =
        replaceAll (rules entries) (rest data size p)) ↔
      ∀ q ∈ stops data size keys p, Clear data size keys q := by
  induction p using stops.induct data size keys with
  | case1 p hp ih =>
    rw [stops_of_lt hp, List.forall_mem_cons, ← ih]
    constructor
    · intro h
      have hclear : Clear data size keys p := by
        by_contra hnot
        obtain ⟨entries, hmap, hne⟩ := emitted_of_not_clear hgen hp hnot
        have heq := h entries hmap
        rw [List.flatMap_cons] at heq
        exact hne _ heq
      refine ⟨hclear, fun entries hmap => ?_⟩
      subst hmap
      have := h entries rfl
      rw [emitted_of_clear hgen hlast hp hclear, List.flatMap_cons] at this
      exact List.append_cancel_left this
    · rintro ⟨hclear, h⟩ entries hmap
      subst hmap
      rw [emitted_of_clear hgen hlast hp hclear, List.flatMap_cons, h entries rfl]
  | case2 p hp =>
    rw [stops_of_le (not_lt.mp hp), rest_of_le (not_lt.mp hp)]
    refine iff_of_true (fun entries _ => ?_) (by simp)
    rw [List.flatMap_nil, replaceAll]

/-- **`translate_file` replaces every key, whatever the values, exactly if nothing goes wrong at a
stop**: no key it replaces is followed directly by another one, and none is completed behind the
file. -/
theorem translateFile_replaces_iff (data : Mem) (size : ℕ) (keys : List (List UInt8))
    (hgen : ∀ key ∈ keys, GeneratedKey key)
    (hlast : ∀ p, ∀ key ∈ keys, Occurs data size p key → p + key.length ≠ size) :
    (∀ entries : List TranslationEntry, entries.map (·.key) = keys →
      (translateFile data size entries).out = replaceAll (rules entries) (data.load 0 size)) ↔
      ∀ p ∈ stops data size keys 0, Clear data size keys p := by
  rw [← flatMap_emitted_iff hgen hlast 0]
  refine forall_congr' fun entries => forall_congr' fun hmap => ?_
  rw [translateFile_eq, hmap]
  rfl

/-- The page `@a@ @b@x`, with the values `1` and `2`: its keys do not follow each other directly. -/
theorem translateFile_replaces_iff_demo :
    (translateFile (Mem.store (fun _ => 0) 0 [0x40, 0x61, 0x40, 0x20, 0x40, 0x62, 0x40, 0x78]) 8
      [⟨[0x40, 0x61, 0x40], [0x31]⟩, ⟨[0x40, 0x62, 0x40], [0x32]⟩]).out =
        replaceAll (rules [⟨[0x40, 0x61, 0x40], [0x31]⟩, ⟨[0x40, 0x62, 0x40], [0x32]⟩])
          [0x40, 0x61, 0x40, 0x20, 0x40, 0x62, 0x40, 0x78] := by
  refine (translateFile_replaces_iff _ _ [[0x40, 0x61, 0x40], [0x40, 0x62, 0x40]] ?_ ?_).mpr ?_ _ rfl
  · intro key hkey
    rcases List.mem_pair.mp hkey with rfl | rfl
    · exact generatedKey_letter (by decide)
    · exact generatedKey_letter (by decide)
  · exact not_last_of_not_occurs (by decide +kernel)
  · decide +kernel

/-- The page `@a@@b@x`, with the values `1` and `2`: the second key stays, although `12x` is wanted.
-/
theorem adjacent_key_stays :
    (∀ key ∈ [[0x40, 0x61, 0x40], [0x40, 0x62, 0x40]], GeneratedKey key) ∧
    (∀ p, ∀ key ∈ [[0x40, 0x61, 0x40], [0x40, 0x62, 0x40]],
      Occurs (Mem.store (fun _ => 0) 0 [0x40, 0x61, 0x40, 0x40, 0x62, 0x40, 0x78]) 7 p key →
        p + key.length ≠ 7) ∧
    (translateFile (Mem.store (fun _ => 0) 0 [0x40, 0x61, 0x40, 0x40, 0x62, 0x40, 0x78]) 7
      [⟨[0x40, 0x61, 0x40], [0x31]⟩, ⟨[0x40, 0x62, 0x40], [0x32]⟩]).out ≠
        replaceAll (rules [⟨[0x40, 0x61, 0x40], [0x31]⟩, ⟨[0x40, 0x62, 0x40], [0x32]⟩])
          [0x40, 0x61, 0x40, 0x40, 0x62, 0x40, 0x78] := by
  refine ⟨?_, not_last_of_not_occurs (by decide +kernel), ?_⟩
  · intro key hkey
    rcases List.mem_pair.mp hkey with rfl | rfl
    · exact generatedKey_letter (by decide)
    · exact generatedKey_letter (by decide)
  · have hout : (translateFile (Mem.store (fun _ => 0) 0 [0x40, 0x61, 0x40, 0x40, 0x62, 0x40, 0x78]) 7
        [⟨[0x40, 0x61, 0x40], [0x31]⟩, ⟨[0x40, 0x62, 0x40], [0x32]⟩]).out =
          [0x31, 0x40, 0x62, 0x40, 0x78] := by decide +kernel
    have hwanted : replaceAll (rules [⟨[0x40, 0x61, 0x40], [0x31]⟩, ⟨[0x40, 0x62, 0x40], [0x32]⟩])
        [0x40, 0x61, 0x40, 0x40, 0x62, 0x40, 0x78] = [0x31, 0x32, 0x78] := by decide +kernel
    rw [hout, hwanted]
    decide

end Adnihilum
