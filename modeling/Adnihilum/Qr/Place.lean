import Adnihilum.Qr.Read

/-!
# Which modules carry data

* **`filled_patterns`**: the patterns fill the modules that the reader takes for theirs.
* `nodup_path`, `mem_path`: the path of the data visits every module once, but for one column.
* **`room_for_codewords`**: the data modules are enough for all codewords of a version.
-/

namespace Adnihilum.Qr

open Horner

/-! ## Assignments -/

namespace Modules

/-- The module is no longer `null`. -/
def Filled (m : Modules) (p : ℕ × ℕ) : Prop := m.get p ≠ none

theorem get_set (m : Modules) (p : ℕ × ℕ) (b : Bool) (q : ℕ × ℕ) :
    (m.set p b).get q = if q = p then some b else m.get q := Function.update_apply ..

theorem filled_set {m : Modules} {p : ℕ × ℕ} {b : Bool} {q : ℕ × ℕ} :
    (m.set p b).Filled q ↔ m.Filled q ∨ q = p := by
  rw [Filled, get_set, Filled]
  split_ifs with h
  · exact ⟨fun _ => .inr h, fun _ => Option.some_ne_none b⟩
  · exact ⟨.inl, fun hq => hq.resolve_right h⟩

theorem filled_assign {m : Modules} {ws : List ((ℕ × ℕ) × Bool)} {q : ℕ × ℕ} :
    (m.assign ws).Filled q ↔ m.Filled q ∨ q ∈ ws.map Prod.fst := by
  induction ws generalizing m with
  | nil => simp [assign]
  | cons w ws ih =>
    have hi := ih (m := m.set w.1 w.2)
    rw [filled_set] at hi
    rw [List.map_cons, List.mem_cons, ← or_assoc]
    exact hi

theorem filled_setNull {m : Modules} {p : ℕ × ℕ} {b : Bool} {q : ℕ × ℕ} :
    (m.setNull p b).Filled q ↔ m.Filled q ∨ q = p := by
  rw [setNull]
  split_ifs with h
  · exact ⟨.inl, fun hq => hq.elim id fun he => he ▸ h⟩
  · exact filled_set

theorem filled_setNulls (place : ℕ → ℕ × ℕ) {m : Modules} {value : ℕ → Bool} {is : List ℕ}
    {q : ℕ × ℕ} :
    (is.foldl (fun m i => m.setNull (place i) (value i)) m).Filled q ↔
      m.Filled q ∨ ∃ i ∈ is, q = place i := by
  induction is generalizing m with
  | nil => simp
  | cons i is ih =>
    rw [List.foldl_cons, ih, filled_setNull, or_assoc, List.exists_mem_cons_iff]

theorem get_assign_of_not_mem {m : Modules} {ws : List ((ℕ × ℕ) × Bool)} {q : ℕ × ℕ}
    (h : q ∉ ws.map Prod.fst) : (m.assign ws).get q = m.get q := by
  induction ws generalizing m with
  | nil => rfl
  | cons w ws ih =>
    rw [List.map_cons, List.mem_cons, not_or] at h
    have hi := ih (m := m.set w.1 w.2) h.2
    rw [get_set, if_neg h.1] at hi
    exact hi

theorem get_assign {m : Modules} {ws : List ((ℕ × ℕ) × Bool)} {q : ℕ × ℕ} {b : Bool}
    (hmem : q ∈ ws.map Prod.fst) (h : ∀ w ∈ ws, w.1 = q → w.2 = b) :
    (m.assign ws).get q = some b := by
  induction ws generalizing m with
  | nil => cases hmem
  | cons w ws ih =>
    obtain ⟨hw, hws⟩ := List.forall_mem_cons.mp h
    by_cases hq : q ∈ ws.map Prod.fst
    · exact ih hq hws
    · rw [List.map_cons, List.mem_cons, or_iff_left hq] at hmem
      have hlast := get_assign_of_not_mem (m := m.set w.1 w.2) hq
      rw [get_set, if_pos hmem] at hlast
      exact hlast.trans (congrArg some (hw hmem.symm))

end Modules

/-! ## The patterns, one by one -/

theorem mem_probe {n row col : ℕ} {q : ℕ × ℕ} :
    q ∈ (probe n row col).map Prod.fst ↔
      q.1 < n ∧ q.2 < n ∧ row ≤ q.1 + 1 ∧ q.1 ≤ row + 7 ∧ col ≤ q.2 + 1 ∧ q.2 ≤ col + 7 := by
  rw [probe, List.map_filterMap, List.mem_filterMap]
  constructor
  · rintro ⟨l, hl, hq⟩
    obtain ⟨hi, hj⟩ := mem_pairs.mp hl
    dsimp only at hq
    split_ifs at hq with h
    · cases hq
    · cases hq
      dsimp only
      omega
  · rintro ⟨h1, h2, h3, h4, h5, h6⟩
    refine ⟨(q.1 + 1 - row, q.2 + 1 - col), mem_pairs.mpr ⟨by dsimp only; omega, by dsimp only; omega⟩, ?_⟩
    dsimp only
    rw [if_neg (by omega)]
    exact congrArg some (Prod.ext (by dsimp only; omega) (by dsimp only; omega))

theorem mem_adjust {c q : ℕ × ℕ} (h1 : 2 ≤ c.1) (h2 : 2 ≤ c.2) :
    q ∈ (adjust c).map Prod.fst ↔ Near c q := by
  rw [adjust, List.map_map, List.mem_map, Near]
  constructor
  · rintro ⟨l, hl, rfl⟩
    obtain ⟨hi, hj⟩ := mem_pairs.mp hl
    dsimp only [Function.comp_apply]
    omega
  · rintro ⟨h3, h4, h5, h6⟩
    refine ⟨(q.1 + 2 - c.1, q.2 + 2 - c.2), mem_pairs.mpr ⟨by dsimp only; omega, by dsimp only; omega⟩, ?_⟩
    exact Prod.ext (by dsimp only [Function.comp_apply]; omega) (by dsimp only [Function.comp_apply]; omega)

/-- **The small patterns fill what is near their centres**, if no two of them touch. -/
theorem filled_adjusts {n : ℕ} {cs : List (ℕ × ℕ)} {m : Modules}
    (hlow : ∀ c ∈ cs, 2 ≤ c.1 ∧ 2 ≤ c.2) (hcorner : ∀ c ∈ cs, m.Filled c ↔ inCorner n c)
    (hfar : cs.Pairwise fun c d => ¬ Near c d) {q : ℕ × ℕ} :
    (cs.foldl (fun m c => if m.get c ≠ none then m else m.assign (adjust c)) m).Filled q ↔
      m.Filled q ∨ ∃ c ∈ cs, ¬ inCorner n c ∧ Near c q := by
  induction cs generalizing m with
  | nil => simp
  | cons c cs ih =>
    obtain ⟨hc, hcs⟩ := List.forall_mem_cons.mp hcorner
    obtain ⟨hlowc, hlows⟩ := List.forall_mem_cons.mp hlow
    obtain ⟨hfarc, hfars⟩ := List.pairwise_cons.mp hfar
    rw [List.foldl_cons, List.exists_mem_cons_iff]
    by_cases hfill : m.Filled c
    · have hstep : (if m.get c ≠ none then m else m.assign (adjust c)) = m := if_pos hfill
      rw [hstep, ih hlows hcs hfars]
      refine or_congr_right (or_iff_right ?_).symm
      rintro ⟨hnot, -⟩
      exact hnot (hc.mp hfill)
    · have hstep : (if m.get c ≠ none then m else m.assign (adjust c)) = m.assign (adjust c) :=
        if_neg hfill
      have hassign : ∀ p, (m.assign (adjust c)).Filled p ↔ m.Filled p ∨ Near c p := fun p =>
        Modules.filled_assign.trans (or_congr_right (mem_adjust hlowc.1 hlowc.2))
      have hcs' : ∀ d ∈ cs, (m.assign (adjust c)).Filled d ↔ inCorner n d := fun d hd =>
        ((hassign d).trans (or_iff_left (hfarc d hd))).trans (hcs d hd)
      have hnot : ¬ inCorner n c := fun h => hfill (hc.mpr h)
      rw [hstep, ih hlows hcs' hfars, hassign, or_assoc, and_iff_right hnot]

/-- What the tables say about the centres of a version. -/
structure CentresOk (v : ℕ) : Prop where
  bounds : ∀ c ∈ centres v, 6 ≤ c.1 ∧ 6 ≤ c.2 ∧ c.1 + 7 ≤ v * 4 + 17 ∧ c.2 + 7 ≤ v * 4 + 17
  apart : ∀ c ∈ centres v, ¬ inCorner (v * 4 + 17) c →
    ¬ (c.1 ≤ 7 ∧ c.2 ≤ 7) ∧ ¬ (c.1 ≤ 7 ∧ v * 4 + 17 ≤ c.2 + 8) ∧ ¬ (v * 4 + 17 ≤ c.1 + 8 ∧ c.2 ≤ 7)
  far : (centres v).Pairwise fun c d => ¬ Near c d

instance (v : ℕ) : Decidable (CentresOk v) :=
  decidable_of_iff (_ ∧ _ ∧ _) ⟨fun h => ⟨h.1, h.2.1, h.2.2⟩, fun h => ⟨h.1, h.2, h.3⟩⟩

theorem centresOk {v : ℕ} (hv : Version v) : CentresOk v := by
  have hall : ∀ i < 40, CentresOk (i + 1) := by decide +kernel
  obtain ⟨h1, h40⟩ := hv
  have hok := hall (v - 1) (by omega)
  rwa [Nat.sub_add_cancel h1] at hok

theorem filled_timing {n : ℕ} {m : Modules} {q : ℕ × ℕ} :
    (setupTimingPattern n m).Filled q ↔
      m.Filled q ∨ q.2 = 6 ∧ 8 ≤ q.1 ∧ q.1 + 8 < n ∨ q.1 = 6 ∧ 8 ≤ q.2 ∧ q.2 + 8 < n := by
  rw [setupTimingPattern, Modules.filled_setNulls fun c => (6, c),
    Modules.filled_setNulls fun r => (r, 6), or_assoc]
  refine or_congr_right (or_congr ⟨?_, fun h => ?_⟩ ⟨?_, fun h => ?_⟩)
  · rintro ⟨i, hi, rfl⟩
    rw [List.mem_range'_1] at hi
    dsimp only
    omega
  · exact ⟨q.1, List.mem_range'_1.mpr (by omega), Prod.ext rfl h.1⟩
  · rintro ⟨i, hi, rfl⟩
    rw [List.mem_range'_1] at hi
    dsimp only
    omega
  · exact ⟨q.2, List.mem_range'_1.mpr (by omega), Prod.ext h.1 rfl⟩

theorem map_fst_assignments (place : ℕ → ℕ × ℕ) {count : ℕ} {value : ℕ → Bool} {q : ℕ × ℕ} :
    q ∈ ((List.range count).map fun i => (place i, value i)).map Prod.fst ↔
      ∃ i < count, place i = q := by
  rw [List.map_map, List.mem_map]
  exact exists_congr fun i => and_congr_left fun _ => List.mem_range

theorem exists_formatPlace {n : ℕ} (hn : 21 ≤ n) {q : ℕ × ℕ} :
    (∃ i < 15, formatPlace n i = q) ↔
      q.2 = 8 ∧ (q.1 < 6 ∨ q.1 = 7 ∨ q.1 = 8 ∨ n ≤ q.1 + 7 ∧ q.1 < n) := by
  constructor
  · rintro ⟨i, hi, rfl⟩
    rw [formatPlace]
    split_ifs <;> dsimp only <;> omega
  · rintro ⟨h2, h1 | h1 | h1 | h1⟩
    · exact ⟨q.1, by omega, by rw [formatPlace, if_pos h1]; exact Prod.ext rfl h2.symm⟩
    · exact ⟨6, by omega, Prod.ext h1.symm h2.symm⟩
    · exact ⟨7, by omega, Prod.ext h1.symm h2.symm⟩
    · refine ⟨q.1 + 15 - n, by omega, ?_⟩
      rw [formatPlace, if_neg (by omega), if_neg (by omega)]
      exact Prod.ext (by dsimp only; omega) h2.symm

theorem exists_formatPlace' {n : ℕ} (hn : 21 ≤ n) {q : ℕ × ℕ} :
    (∃ i < 15, formatPlace' n i = q) ↔
      q.1 = 8 ∧ (q.2 < 6 ∨ q.2 = 7 ∨ n ≤ q.2 + 8 ∧ q.2 < n) := by
  constructor
  · rintro ⟨i, hi, rfl⟩
    rw [formatPlace']
    split_ifs <;> dsimp only <;> omega
  · rintro ⟨h1, h2 | h2 | h2⟩
    · refine ⟨14 - q.2, by omega, ?_⟩
      rw [formatPlace', if_neg (by omega), if_neg (by omega)]
      exact Prod.ext h1.symm (by dsimp only; omega)
    · exact ⟨8, by omega, Prod.ext h1.symm h2.symm⟩
    · refine ⟨n - 1 - q.2, by omega, ?_⟩
      rw [formatPlace', if_pos (by omega)]
      exact Prod.ext h1.symm (by dsimp only; omega)

theorem filled_typeInfo {level : QRErrorCorrectLevel} {n : ℕ} (hn : 21 ≤ n) {test : Bool}
    {maskPattern : Fin 8} {m : Modules} {q : ℕ × ℕ} :
    (setupTypeInfo level n test maskPattern m).Filled q ↔ m.Filled q ∨
      q.2 = 8 ∧ (q.1 < 6 ∨ q.1 = 7 ∨ q.1 = 8 ∨ n ≤ q.1 + 8 ∧ q.1 < n) ∨
        q.1 = 8 ∧ (q.2 < 6 ∨ q.2 = 7 ∨ n ≤ q.2 + 8 ∧ q.2 < n) := by
  rw [setupTypeInfo, Modules.filled_set, Modules.filled_assign, Modules.filled_assign,
    map_fst_assignments, map_fst_assignments, exists_formatPlace hn, exists_formatPlace' hn,
    Prod.ext_iff]
  dsimp only
  constructor
  · rintro (((h | h) | h) | h)
    · exact .inl h
    · exact .inr (.inl (by omega))
    · exact .inr (.inr h)
    · exact .inr (.inl (by omega))
  · rintro (h | h | h)
    · exact .inl (.inl (.inl h))
    · by_cases h8 : q.1 = n - 8
      · exact .inr ⟨h8, h.1⟩
      · exact .inl (.inl (.inr (by omega)))
    · exact .inl (.inr h)

theorem filled_typeNumber {v n : ℕ} (hn : 21 ≤ n) {test : Bool} {m : Modules} {q : ℕ × ℕ} :
    (setupTypeNumber v n test m).Filled q ↔ m.Filled q ∨
      q.1 < 6 ∧ n ≤ q.2 + 11 ∧ q.2 + 8 < n ∨ q.2 < 6 ∧ n ≤ q.1 + 11 ∧ q.1 + 8 < n := by
  rw [setupTypeNumber, Modules.filled_assign, Modules.filled_assign,
    map_fst_assignments fun i => (i / 3, i % 3 + n - 8 - 3),
    map_fst_assignments fun i => (i % 3 + n - 8 - 3, i / 3), or_assoc]
  refine or_congr_right (or_congr ⟨?_, fun h => ?_⟩ ⟨?_, fun h => ?_⟩)
  · rintro ⟨i, hi, rfl⟩
    dsimp only
    omega
  · exact ⟨q.1 * 3 + (q.2 + 11 - n), by omega,
      Prod.ext (by dsimp only; omega) (by dsimp only; omega)⟩
  · rintro ⟨i, hi, rfl⟩
    dsimp only
    omega
  · exact ⟨q.2 * 3 + (q.1 + 11 - n), by omega,
      Prod.ext (by dsimp only; omega) (by dsimp only; omega)⟩

theorem filled_probe {n row col : ℕ} {m : Modules} {q : ℕ × ℕ} :
    (setupPositionProbePattern n row col m).Filled q ↔ m.Filled q ∨
      q.1 < n ∧ q.2 < n ∧ row ≤ q.1 + 1 ∧ q.1 ≤ row + 7 ∧ col ≤ q.2 + 1 ∧ q.2 ≤ col + 7 :=
  Modules.filled_assign.trans (or_congr_right mem_probe)

theorem filled_probes {n : ℕ} (hn : 21 ≤ n) {q : ℕ × ℕ} :
    (setupPositionProbePattern n 0 (n - 7) (setupPositionProbePattern n (n - 7) 0
      (setupPositionProbePattern n 0 0 .empty))).Filled q ↔
        q.1 ≤ 7 ∧ q.2 ≤ 7 ∨ q.1 ≤ 7 ∧ n ≤ q.2 + 8 ∧ q.2 < n ∨ n ≤ q.1 + 8 ∧ q.1 < n ∧ q.2 ≤ 7 := by
  have hempty : ¬ Modules.empty.Filled q := fun h => h rfl
  rw [filled_probe, filled_probe, filled_probe, or_iff_right hempty]
  omega

/-- **The patterns fill the modules that the reader takes for theirs.** -/
theorem filled_patterns {v : ℕ} (hv : Version v) {level : QRErrorCorrectLevel} {test : Bool}
    {maskPattern : Fin 8} {q : ℕ × ℕ} :
    (patterns v level test maskPattern).Filled q ↔
      q.1 < v * 4 + 17 ∧ q.2 < v * 4 + 17 ∧ isFunction v q := by
  have hok := centresOk hv
  have hn : 21 ≤ v * 4 + 17 := by
    have := hv.1
    omega
  have hcorner : ∀ c ∈ centres v, (setupPositionProbePattern (v * 4 + 17) 0 (v * 4 + 17 - 7)
      (setupPositionProbePattern (v * 4 + 17) (v * 4 + 17 - 7) 0
        (setupPositionProbePattern (v * 4 + 17) 0 0 .empty))).Filled c ↔ inCorner (v * 4 + 17) c := by
    intro c hc
    have hbounds := hok.bounds c hc
    rw [filled_probes hn]
    refine ⟨fun h => not_not.mp fun hnot => ?_, fun h => ?_⟩
    · have hapart := hok.apart c hc hnot
      omega
    · rcases h with rfl | rfl | rfl <;> dsimp only <;> omega
  have hadjust := filled_adjusts (q := q) (fun c hc => by
    have hbounds := hok.bounds c hc
    omega) hcorner hok.far
  rw [filled_probes hn] at hadjust
  have hnear : (∃ c ∈ centres v, ¬ inCorner (v * 4 + 17) c ∧ Near c q) →
      q.1 < v * 4 + 17 ∧ q.2 < v * 4 + 17 := by
    rintro ⟨c, hc, -, h1, -, h2, -⟩
    have hbounds := hok.bounds c hc
    omega
  rw [isFunction]
  generalize (∃ c ∈ centres v, ¬ inCorner (v * 4 + 17) c ∧ Near c q) = A at hadjust hnear ⊢
  have h16 : (setupTypeInfo level (v * 4 + 17) test maskPattern (setupTimingPattern (v * 4 + 17)
      (setupPositionAdjustPattern v (setupPositionProbePattern (v * 4 + 17) 0 (v * 4 + 17 - 7)
        (setupPositionProbePattern (v * 4 + 17) (v * 4 + 17 - 7) 0
          (setupPositionProbePattern (v * 4 + 17) 0 0 .empty)))))).Filled q ↔ _ :=
    (filled_typeInfo hn).trans (or_congr_left (filled_timing.trans (or_congr_left hadjust)))
  rw [patterns]
  by_cases hA : A
  · -- a small pattern is never undone, and it lies on the square
    obtain ⟨h1, h2⟩ := hnear hA
    simp only [hA, or_true, true_or] at h16 ⊢
    refine iff_of_true ?_ ⟨h1, h2, trivial⟩
    split_ifs
    · exact (filled_typeNumber hn).mpr (.inl (h16.mpr trivial))
    · exact h16.mpr trivial
  · simp only [hA, or_false] at h16 ⊢
    split_ifs with h7
    · rw [filled_typeNumber hn, h16]
      omega
    · rw [h16]
      omega

theorem formatPlace_injective {n i j : ℕ} (hn : 21 ≤ n) (hi : i < 15) (hj : j < 15)
    (h : formatPlace n i = formatPlace n j) : i = j := by
  rw [formatPlace, formatPlace] at h
  split_ifs at h <;> rw [Prod.ext_iff] at h <;> dsimp only at h <;> omega

/-- **The bits of the format stand where the reader looks for them.** -/
theorem get_patterns_format {v : ℕ} (hv : Version v) {level : QRErrorCorrectLevel}
    {maskPattern : Fin 8} {i : ℕ} (hi : i < 15) :
    (patterns v level false maskPattern).get (formatPlace (v * 4 + 17) i) =
      some ((getBCHTypeInfo (level.code <<< 3 ||| maskPattern)).testBit i) := by
  have hn : 21 ≤ v * 4 + 17 := by
    have := hv.1
    omega
  have hplace := (exists_formatPlace hn).mp ⟨i, hi, rfl⟩
  have hinfo : ∀ m, (setupTypeInfo level (v * 4 + 17) false maskPattern m).get
      (formatPlace (v * 4 + 17) i) =
        some ((getBCHTypeInfo (level.code <<< 3 ||| maskPattern)).testBit i) := by
    intro m
    rw [setupTypeInfo, Modules.get_set, if_neg (by rw [Prod.ext_iff]; dsimp only; omega),
      Modules.get_assign_of_not_mem
        (by rw [map_fst_assignments, exists_formatPlace' hn]; omega)]
    refine Modules.get_assign ((map_fst_assignments _).mpr ⟨i, hi, rfl⟩) fun w hw he => ?_
    obtain ⟨j, hj, rfl⟩ := List.mem_map.mp hw
    rw [formatPlace_injective hn (List.mem_range.mp hj) hi he]
    rfl
  rw [patterns]
  split_ifs with h7
  · rw [setupTypeNumber, Modules.get_assign_of_not_mem, Modules.get_assign_of_not_mem, hinfo]
    · rw [map_fst_assignments fun i => (i / 3, i % 3 + (v * 4 + 17) - 8 - 3)]
      rintro ⟨j, hj, he⟩
      rw [← he] at hplace
      dsimp only at hplace
      omega
    · rw [map_fst_assignments fun i => (i % 3 + (v * 4 + 17) - 8 - 3, i / 3)]
      rintro ⟨j, hj, he⟩
      rw [← he] at hplace
      dsimp only at hplace
      omega
  · exact hinfo _

/-! ## The path of the data -/

/-- The two columns of one strip. -/
def strip (moduleCount col : ℕ) (up : Bool) : List (ℕ × ℕ) :=
  (if up then (List.range moduleCount).reverse else List.range moduleCount).flatMap
    fun row => [(row, col), (row, col - 1)]

theorem mem_strip {n col : ℕ} {up : Bool} {q : ℕ × ℕ} :
    q ∈ strip n col up ↔ q.1 < n ∧ (q.2 = col ∨ q.2 = col - 1) := by
  have hrows : ∀ row, row ∈ (if up then (List.range n).reverse else List.range n) ↔ row < n := by
    intro row
    split_ifs
    · rw [List.mem_reverse, List.mem_range]
    · exact List.mem_range
  rw [strip, List.mem_flatMap]
  constructor
  · rintro ⟨row, hrow, hq⟩
    rw [hrows] at hrow
    rcases List.mem_pair.mp hq with rfl | rfl
    · exact ⟨hrow, .inl rfl⟩
    · exact ⟨hrow, .inr rfl⟩
  · rintro ⟨h1, h2 | h2⟩
    · exact ⟨q.1, (hrows _).mpr h1, List.mem_pair.mpr (.inl (Prod.ext rfl h2))⟩
    · exact ⟨q.1, (hrows _).mpr h1, List.mem_pair.mpr (.inr (Prod.ext rfl h2))⟩

theorem nodup_strip {n col : ℕ} (hcol : 0 < col) (up : Bool) : (strip n col up).Nodup := by
  have hrows : (if up then (List.range n).reverse else List.range n).Nodup := by
    split_ifs
    · exact List.nodup_reverse.mpr List.nodup_range
    · exact List.nodup_range
  rw [strip, List.nodup_flatMap]
  refine ⟨fun row _ => ?_, hrows.imp fun {a b} hne => ?_⟩
  · rw [List.nodup_cons]
    refine ⟨?_, List.nodup_singleton _⟩
    rw [List.mem_singleton, Prod.ext_iff]
    dsimp only
    omega
  · rw [Function.onFun, List.disjoint_left]
    rintro q ha hb
    rcases List.mem_pair.mp ha with rfl | rfl <;>
      rcases List.mem_pair.mp hb with h | h <;> exact hne (congrArg Prod.fst h)

theorem strips_succ {n f col : ℕ} {up : Bool} (hcol : col ≠ 0) :
    strips n (f + 1) col up = strip n (if col = 6 then 5 else col) up ++
      strips n f ((if col = 6 then 5 else col) - 2) !up := if_neg hcol

/-- A column of the walk: an even one before the column 6, an odd one after it. -/
def IsStart (col : ℕ) : Prop := 6 ≤ col ∧ col % 2 = 0 ∨ col ≤ 5 ∧ (col % 2 = 1 ∨ col = 0)

theorem strips_spec {n f col : ℕ} {up : Bool} (hf : col ≤ f) (hcol : IsStart col) :
    (strips n f col up).Nodup ∧
      ∀ q, q ∈ strips n f col up ↔ q.1 < n ∧ q.2 ≤ col ∧ q.2 ≠ 6 ∧ 0 < col := by
  rw [IsStart] at hcol
  induction f generalizing col up with
  | zero => exact ⟨List.nodup_nil, fun q => ⟨fun h => (nomatch h), fun h => by omega⟩⟩
  | succ f ih =>
    by_cases h0 : col = 0
    · rw [strips, if_pos h0]
      exact ⟨List.nodup_nil, fun q => ⟨fun h => (nomatch h), fun h => by omega⟩⟩
    · rw [strips_succ h0]
      obtain ⟨c, hc⟩ : ∃ c, (if col = 6 then 5 else col) = c := ⟨_, rfl⟩
      have hcases : col = 6 ∧ c = 5 ∨ col ≠ 6 ∧ c = col := by
        rw [← hc]
        split_ifs <;> omega
      rw [hc]
      have hrest : (strips n f (c - 2) !up).Nodup ∧
          ∀ q, q ∈ strips n f (c - 2) !up ↔ q.1 < n ∧ q.2 ≤ c - 2 ∧ q.2 ≠ 6 ∧ 0 < c - 2 :=
        ih (by omega) (by omega)
      obtain ⟨hnodup, hmem⟩ := hrest
      refine ⟨List.nodup_append'.mpr ⟨nodup_strip (by omega) up, hnodup, ?_⟩, fun q => ?_⟩
      · rw [List.disjoint_left]
        intro q hq hq'
        rw [mem_strip] at hq
        rw [hmem] at hq'
        omega
      · rw [List.mem_append, mem_strip, hmem]
        omega

section Path

variable {v : ℕ} (hv : Version v)

include hv

theorem isStart_version : IsStart (v * 4 + 17 - 1) := by
  have := hv.1
  rw [IsStart]
  omega

theorem nodup_path : (path (v * 4 + 17)).Nodup :=
  (strips_spec (Nat.sub_le _ _) (isStart_version hv)).1

theorem mem_path {q : ℕ × ℕ} :
    q ∈ path (v * 4 + 17) ↔ q.1 < v * 4 + 17 ∧ q.2 < v * 4 + 17 ∧ q.2 ≠ 6 := by
  rw [path, (strips_spec (Nat.sub_le _ _) (isStart_version hv)).2]
  omega

/-- **The modules that are free are those that the reader takes for data.** -/
theorem free_path {level : QRErrorCorrectLevel} {test : Bool} {maskPattern : Fin 8} :
    Filling.free (path (v * 4 + 17)) (patterns v level test maskPattern).get = dataPlaces v := by
  refine List.filter_congr fun q hq => ?_
  obtain ⟨h1, h2, -⟩ := (mem_path hv).mp hq
  have hfill : (patterns v level test maskPattern).Filled q ↔
      q.1 < v * 4 + 17 ∧ q.2 < v * 4 + 17 ∧ isFunction v q := filled_patterns hv
  rw [and_iff_right h1, and_iff_right h2] at hfill
  rw [Bool.eq_iff_iff, decide_eq_true_iff, ← hfill, Modules.Filled, not_not, Option.isNone_iff_eq_none]

end Path

/-! ## Room -/

/-- How many modules off the timing lines a small pattern has. -/
def area (moduleCount : ℕ) (c : ℕ × ℕ) : ℕ :=
  if inCorner moduleCount c then 0 else if c.1 = 6 ∨ c.2 = 6 then 20 else 25

/-- The modules of a square. -/
def square (n : ℕ) : Finset (ℕ × ℕ) := Finset.range n ×ˢ Finset.range n

theorem card_side (a : ℕ) : ((Finset.Icc (a - 2) (a + 2)).erase 6).card ≤ 5 ∧
    (a = 6 → ((Finset.Icc (a - 2) (a + 2)).erase 6).card ≤ 4) := by
  refine ⟨Finset.card_erase_le.trans ?_, ?_⟩
  · rw [Nat.card_Icc]
    omega
  · rintro rfl
    decide

theorem card_near (n : ℕ) (c : ℕ × ℕ) :
    ((square n).filter fun q => ¬ inCorner n c ∧ Near c q ∧ q.1 ≠ 6 ∧ q.2 ≠ 6).card ≤ area n c := by
  have hsub : ((square n).filter fun q => ¬ inCorner n c ∧ Near c q ∧ q.1 ≠ 6 ∧ q.2 ≠ 6) ⊆
      (Finset.Icc (c.1 - 2) (c.1 + 2)).erase 6 ×ˢ (Finset.Icc (c.2 - 2) (c.2 + 2)).erase 6 := by
    intro q hq
    obtain ⟨-, -, ⟨h1, h2, h3, h4⟩, h5, h6⟩ := Finset.mem_filter.mp hq
    simp only [Finset.mem_product, Finset.mem_erase, Finset.mem_Icc]
    omega
  have hcard := Finset.card_le_card hsub
  rw [Finset.card_product] at hcard
  obtain ⟨hrow, hrow6⟩ := card_side c.1
  obtain ⟨hcol, hcol6⟩ := card_side c.2
  rw [area]
  split_ifs with hcorner h6
  · rw [Finset.filter_eq_empty_iff.mpr fun q _ h => h.1 hcorner, Finset.card_empty]
  · rcases h6 with h6 | h6
    · exact hcard.trans (Nat.mul_le_mul (hrow6 h6) hcol)
    · exact hcard.trans (Nat.mul_le_mul hrow (hcol6 h6))
  · exact hcard.trans (Nat.mul_le_mul hrow hcol)

theorem card_nears (n : ℕ) (cs : List (ℕ × ℕ)) :
    ((square n).filter fun q => ∃ c ∈ cs, ¬ inCorner n c ∧ Near c q ∧ q.1 ≠ 6 ∧ q.2 ≠ 6).card ≤
      (cs.map (area n)).sum := by
  induction cs with
  | nil => simp
  | cons c cs ih =>
    simp only [List.exists_mem_cons_iff, Finset.filter_or, List.map_cons, List.sum_cons]
    exact (Finset.card_union_le _ _).trans (Nat.add_le_add (card_near n c) ih)

/-- The modules of the patterns, counted with those that are in two of them. -/
def functionCount (v : ℕ) : ℕ :=
  225 + 2 * (v * 4) + (if 7 ≤ v then 36 else 0) + ((centres v).map (area (v * 4 + 17))).sum

/-- The corners, the timing lines and the version, as rectangles. -/
def rectangles (v n : ℕ) : List (Finset ℕ × Finset ℕ) :=
  [(Finset.range 9, Finset.range 9), (Finset.range 9, Finset.Ico (n - 8) n),
    (Finset.Ico (n - 8) n, Finset.range 9), ({6}, Finset.Ico 9 (n - 8)), (Finset.Ico 9 (n - 8), {6})] ++
    if 7 ≤ v then [(Finset.range 6, Finset.Ico (n - 11) (n - 8)),
      (Finset.Ico (n - 11) (n - 8), Finset.range 6)] else []

theorem card_rectangles (S : Finset (ℕ × ℕ)) (rs : List (Finset ℕ × Finset ℕ)) :
    (S.filter fun q => ∃ r ∈ rs, q.1 ∈ r.1 ∧ q.2 ∈ r.2).card ≤
      (rs.map fun r => r.1.card * r.2.card).sum := by
  induction rs with
  | nil => simp
  | cons r rs ih =>
    simp only [List.exists_mem_cons_iff, Finset.filter_or, List.map_cons, List.sum_cons]
    refine (Finset.card_union_le _ _).trans (Nat.add_le_add ?_ ih)
    rw [← Finset.card_product]
    exact Finset.card_le_card fun q hq => Finset.mem_product.mpr (Finset.mem_filter.mp hq).2

theorem mem_rectangles {v n : ℕ} {q : ℕ × ℕ} :
    (∃ r ∈ rectangles v n, q.1 ∈ r.1 ∧ q.2 ∈ r.2) ↔
      q.1 < 9 ∧ q.2 < 9 ∨ q.1 < 9 ∧ n - 8 ≤ q.2 ∧ q.2 < n ∨ n - 8 ≤ q.1 ∧ q.1 < n ∧ q.2 < 9 ∨
        q.1 = 6 ∧ 9 ≤ q.2 ∧ q.2 < n - 8 ∨ 9 ≤ q.1 ∧ q.1 < n - 8 ∧ q.2 = 6 ∨
        7 ≤ v ∧ (q.1 < 6 ∧ n - 11 ≤ q.2 ∧ q.2 < n - 8 ∨ n - 11 ≤ q.1 ∧ q.1 < n - 8 ∧ q.2 < 6) := by
  rw [rectangles]
  split_ifs with h7 <;> simp [h7, and_assoc]

/-- **The patterns do not take more modules than that.** -/
theorem card_isFunction_le {v : ℕ} (hv : Version v) :
    ((square (v * 4 + 17)).filter (isFunction v)).card ≤ functionCount v := by
  obtain ⟨n, hn⟩ : ∃ n, v * 4 + 17 = n := ⟨_, rfl⟩
  have h21 : 21 ≤ n := by
    have := hv.1
    omega
  have hsub : (square n).filter (isFunction v) ⊆
      ((square n).filter fun q => ∃ r ∈ rectangles v n, q.1 ∈ r.1 ∧ q.2 ∈ r.2) ∪
        (square n).filter fun q => ∃ c ∈ centres v, ¬ inCorner n c ∧ Near c q ∧ q.1 ≠ 6 ∧ q.2 ≠ 6 := by
    intro q hq
    obtain ⟨hsquare, hfun⟩ := Finset.mem_filter.mp hq
    obtain ⟨h1, h2⟩ := Finset.mem_product.mp hsquare
    rw [Finset.mem_range] at h1 h2
    rw [← Finset.filter_or, Finset.mem_filter]
    refine ⟨hsquare, ?_⟩
    rw [mem_rectangles]
    rw [isFunction, hn] at hfun
    by_cases h6 : q.1 = 6 ∨ q.2 = 6
    · exact .inl (by omega)
    · rcases hfun with h | h | h | h | h | h | ⟨c, hc, hcorner, hnear⟩
      · exact .inl (by omega)
      · exact .inl (by omega)
      · exact .inl (by omega)
      · exact .inl (by omega)
      · exact .inl (by omega)
      · exact .inl (by omega)
      · exact .inr ⟨c, hc, hcorner, hnear, fun he => h6 (.inl he), fun he => h6 (.inr he)⟩
  have hsum : ((rectangles v n).map fun r => r.1.card * r.2.card).sum =
      225 + 2 * (v * 4) + if 7 ≤ v then 36 else 0 := by
    rw [rectangles]
    split_ifs with h7 <;> simp <;> omega
  rw [hn, functionCount, ← hsum, hn]
  exact (Finset.card_le_card hsub).trans ((Finset.card_union_le _ _).trans
    (Nat.add_le_add (card_rectangles _ _) (card_nears n _)))

/-- **All codewords of a version have room** in its data modules. -/
theorem room_for_codewords {v : ℕ} (hv : Version v) (level : QRErrorCorrectLevel) :
    8 * ((blocks v level).map QRRSBlock.totalCount).sum ≤ (dataPlaces v).length := by
  have hcheck := of_decide_eq_true (forall_version (p := fun v level =>
    decide (8 * ((blocks v level).map QRRSBlock.totalCount).sum + functionCount v ≤
      (v * 4 + 17) * (v * 4 + 17))) (by decide +kernel) hv level)
  have hplaces : (dataPlaces v).toFinset =
      (square (v * 4 + 17)).filter fun q => ¬ isFunction v q := by
    ext q
    rw [List.mem_toFinset, dataPlaces, List.mem_filter, mem_path hv, decide_eq_true_iff,
      Finset.mem_filter, square, Finset.mem_product, Finset.mem_range, Finset.mem_range]
    refine ⟨fun ⟨⟨h1, h2, _⟩, h⟩ => ⟨⟨h1, h2⟩, h⟩, fun ⟨⟨h1, h2⟩, h⟩ => ⟨⟨h1, h2, ?_⟩, h⟩⟩
    -- the column 6 belongs to the timing
    intro h6
    exact h (.inr (.inr (.inr (.inr (.inl h6)))))
  have hlen := List.toFinset_card_of_nodup ((nodup_path hv).filter fun p => decide (¬ isFunction v p))
  have hsplit := Finset.card_filter_add_card_filter_not (s := square (v * 4 + 17)) (isFunction v)
  have hsquare : (square (v * 4 + 17)).card = (v * 4 + 17) * (v * 4 + 17) := by
    rw [square, Finset.card_product, Finset.card_range]
  have hle := card_isFunction_le hv
  rw [← dataPlaces, hplaces] at hlen
  omega

end Adnihilum.Qr
