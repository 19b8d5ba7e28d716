import Mathlib.Tactic

/-!
# Flat memory

Byte-addressed memory with 64-bit words, and singly linked lists threaded through it.

* `Mem.store`, `Mem.zero`, `Mem.load` and their frame lemmas; `Mem.load_store_append` adds a chunk
  behind what is already there, `Mem.load_store_inside` puts one over a part of it.
* `Mem.storeWord`, `Mem.loadWord`: little-endian words; `Mem.loadWord_storeWord`; `Mem.storeHalf`
  and `Mem.loadHalf` for 32 bits. `bytesWord_inj`: a word determines its bytes.
* `of_update_eq_some`, `of_update_none_eq_some`: a partial map of which one value was set.
* `Linked next p l`: following `next` from `p` visits exactly `l` and then ends; the list is
  determined by `p` (`Linked.unique`) and has no duplicates (`Linked.nodup`).
-/

namespace FlatMemory

/-! ## Bytes -/

/-- Byte-addressed memory. -/
abbrev Mem := ℕ → UInt8

namespace Mem

variable (m : Mem) (a : ℕ)

/-- Write the bytes `bs` from address `a` on. -/
def store (bs : List UInt8) : Mem := fun x =>
  if a ≤ x ∧ x < a + bs.length then bs.getD (x - a) 0 else m x

/-- Zero `n` bytes from address `a` on. -/
def zero (n : ℕ) : Mem := fun x => if a ≤ x ∧ x < a + n then 0 else m x

/-- Read `n` bytes from address `a` on. -/
def load (n : ℕ) : List UInt8 := (List.range n).map fun d => m (a + d)

variable {m a}

theorem store_of_outside {bs : List UInt8} {x : ℕ} (h : x < a ∨ a + bs.length ≤ x) :
    m.store a bs x = m x := if_neg (by omega)

theorem store_of_inside {bs : List UInt8} {d : ℕ} (h : d < bs.length) :
    m.store a bs (a + d) = bs[d] := by
  rw [store, if_pos (by omega), Nat.add_sub_cancel_left, List.getD_eq_getElem?_getD,
    List.getElem?_eq_getElem h, Option.getD_some]

theorem zero_of_outside {n x : ℕ} (h : x < a ∨ a + n ≤ x) : m.zero a n x = m x := if_neg (by omega)

theorem zero_of_inside {n x : ℕ} (h1 : a ≤ x) (h2 : x < a + n) : m.zero a n x = 0 := if_pos ⟨h1, h2⟩

@[simp] theorem length_load (n : ℕ) : (m.load a n).length = n := by simp [load]

theorem getElem_load {n d : ℕ} (h : d < (m.load a n).length) : (m.load a n)[d] = m (a + d) := by
  simp [load]

theorem load_congr {m' : Mem} {n : ℕ} (h : ∀ d < n, m (a + d) = m' (a + d)) :
    m.load a n = m'.load a n :=
  List.map_congr_left fun d hd => h d (List.mem_range.mp hd)

theorem load_add (r n : ℕ) : m.load a (r + n) = m.load a r ++ m.load (a + r) n := by
  simp only [load, List.range_add, List.map_append, List.map_map, Function.comp_def, Nat.add_assoc]

theorem load_succ (n : ℕ) : m.load a (n + 1) = m a :: m.load (a + 1) n := by
  rw [Nat.add_comm, load_add]
  rfl

theorem prefix_load_iff {bs : List UInt8} {n : ℕ} :
    bs <+: m.load a n ↔ bs.length ≤ n ∧ m.load a bs.length = bs := by
  constructor
  · intro h
    have hle : bs.length ≤ n := by simpa using h.length_le
    refine ⟨hle, ?_⟩
    rw [← Nat.add_sub_cancel' hle, load_add, List.prefix_iff_eq_take,
      List.take_left' (length_load _)] at h
    exact h.symm
  · rintro ⟨hle, h⟩
    rw [← Nat.add_sub_cancel' hle, load_add, h]
    exact List.prefix_append _ _

theorem load_store_append (r : ℕ) (bs : List UInt8) :
    (m.store (a + r) bs).load a (r + bs.length) = m.load a r ++ bs := by
  apply List.ext_getElem
  · simp
  · intro d h1 h2
    rw [getElem_load]
    rw [length_load] at h1
    rcases Nat.lt_or_ge d r with h | h
    · rw [List.getElem_append_left (by simpa using h), getElem_load, store_of_outside (by omega)]
    · obtain ⟨e, rfl⟩ : ∃ e, d = r + e := ⟨d - r, by omega⟩
      rw [List.getElem_append_right (by simp), ← Nat.add_assoc, store_of_inside (by omega)]
      simp

theorem load_store_self (bs : List UInt8) : (m.store a bs).load a bs.length = bs := by
  have := load_store_append (m := m) (a := a) 0 bs
  simpa [load] using this

theorem store_store_append (bs bs' : List UInt8) :
    (m.store a bs).store (a + bs.length) bs' = m.store a (bs ++ bs') := by
  funext x
  simp only [store, List.length_append, List.getD_eq_getElem?_getD]
  by_cases hx : a ≤ x ∧ x < a + bs.length
  · rw [if_neg (by omega), if_pos hx, if_pos (by omega), List.getElem?_append_left (by omega)]
  · by_cases hx' : a + bs.length ≤ x ∧ x < a + bs.length + bs'.length
    · rw [if_pos hx', if_pos (by omega), List.getElem?_append_right (by omega), Nat.sub_sub]
    · rw [if_neg hx', if_neg hx, if_neg (by omega)]

theorem store_store_self {bs bs' : List UInt8} (h : bs.length = bs'.length) :
    (m.store a bs).store a bs' = m.store a bs' := by
  funext x
  simp only [store, h]
  split_ifs <;> rfl

end Mem

/-! ## Words -/

/-- The eight little-endian bytes of a 64-bit word. -/
def wordBytes (v : ℕ) : List UInt8 := (List.range 8).map fun d => UInt8.ofNat (v / 256 ^ d % 256)

/-- The word with the given little-endian bytes. -/
def bytesWord (bs : List UInt8) : ℕ := bs.foldr (fun b v => b.toNat + 256 * v) 0

@[simp] theorem length_wordBytes (v : ℕ) : (wordBytes v).length = 8 := by simp [wordBytes]

theorem bytesWord_wordBytes {v : ℕ} (h : v < 2 ^ 64) : bytesWord (wordBytes v) = v := by
  simp only [bytesWord, wordBytes, List.range, List.range.loop, List.map_cons, List.map_nil,
    List.foldr_cons, List.foldr_nil, UInt8.toNat_ofNat']
  norm_num
  omega

theorem bytesWord_lt (bs : List UInt8) : bytesWord bs < 256 ^ bs.length := by
  induction bs with
  | nil => exact Nat.one_pos
  | cons b bs ih =>
    have hb := b.toNat_lt
    change b.toNat + 256 * bytesWord bs < 256 ^ (bs.length + 1)
    rw [pow_succ]
    omega

theorem bytesWord_inj {bs bs' : List UInt8} (hlen : bs.length = bs'.length)
    (h : bytesWord bs = bytesWord bs') : bs = bs' := by
  induction bs generalizing bs' with
  | nil => exact (List.length_eq_zero_iff.mp hlen.symm).symm
  | cons b bs ih =>
    cases bs' with
    | nil => cases hlen
    | cons b' bs' =>
      have hb := b.toNat_lt
      have hb' := b'.toNat_lt
      change b.toNat + 256 * bytesWord bs = b'.toNat + 256 * bytesWord bs' at h
      rw [UInt8.toNat_inj.mp (show b.toNat = b'.toNat by omega),
        ih (Nat.succ.inj hlen) (show bytesWord bs = bytesWord bs' by omega)]

namespace Mem

variable {m : Mem} {a : ℕ}

/-- Store a 64-bit word. -/
def storeWord (m : Mem) (a v : ℕ) : Mem := m.store a (wordBytes v)

/-- Load a 64-bit word. -/
def loadWord (m : Mem) (a : ℕ) : ℕ := bytesWord (m.load a 8)

theorem storeWord_of_outside {v x : ℕ} (h : x < a ∨ a + 8 ≤ x) : m.storeWord a v x = m x :=
  store_of_outside (by simpa using h)

theorem loadWord_storeWord {v : ℕ} (h : v < 2 ^ 64) : (m.storeWord a v).loadWord a = v := by
  rw [loadWord, storeWord]
  have := load_store_self (m := m) (a := a) (wordBytes v)
  rw [length_wordBytes] at this
  rw [this, bytesWord_wordBytes h]

theorem loadWord_congr {m' : Mem} (h : ∀ d < 8, m (a + d) = m' (a + d)) :
    m.loadWord a = m'.loadWord a := by rw [loadWord, load_congr h, loadWord]

theorem loadWord_lt : m.loadWord a < 2 ^ 64 := by
  have hlt := bytesWord_lt (m.load a 8)
  rw [length_load] at hlt
  exact hlt.trans_eq (by norm_num)

theorem loadWord_of_zero (h : ∀ d < 8, m (a + d) = 0) : m.loadWord a = 0 := by
  have hload : m.load a 8 = (List.range 8).map fun _ => 0 :=
    List.map_congr_left fun d hd => h d (List.mem_range.mp hd)
  rw [loadWord, hload]
  rfl

/-- Store a 32-bit word. -/
def storeHalf (m : Mem) (a v : ℕ) : Mem := m.store a ((wordBytes v).take 4)

/-- Load a 32-bit word. -/
def loadHalf (m : Mem) (a : ℕ) : ℕ := bytesWord (m.load a 4)

theorem length_halfBytes (v : ℕ) : ((wordBytes v).take 4).length = 4 := by simp

theorem storeHalf_of_outside {v x : ℕ} (h : x < a ∨ a + 4 ≤ x) : m.storeHalf a v x = m x :=
  store_of_outside (by rwa [length_halfBytes])

theorem loadHalf_storeHalf {v : ℕ} (h : v < 2 ^ 32) : (m.storeHalf a v).loadHalf a = v := by
  have hload := load_store_self (m := m) (a := a) ((wordBytes v).take 4)
  rw [length_halfBytes] at hload
  rw [loadHalf, storeHalf, hload]
  simp only [bytesWord, wordBytes, List.range, List.range.loop, List.map_cons, List.map_nil,
    List.take_succ_cons, List.take_zero, List.foldr_cons, List.foldr_nil, UInt8.toNat_ofNat']
  norm_num
  omega

theorem loadHalf_congr {m' : Mem} (h : ∀ d < 4, m (a + d) = m' (a + d)) :
    m.loadHalf a = m'.loadHalf a := by rw [loadHalf, load_congr h, loadHalf]

section Apart

variable {v b n : ℕ}

theorem loadWord_storeWord_of_apart (h : b + 8 ≤ a ∨ a + 8 ≤ b) :
    (m.storeWord a v).loadWord b = m.loadWord b :=
  loadWord_congr fun _ _ => storeWord_of_outside (by omega)

theorem loadWord_storeHalf_of_apart (h : b + 8 ≤ a ∨ a + 4 ≤ b) :
    (m.storeHalf a v).loadWord b = m.loadWord b :=
  loadWord_congr fun _ _ => storeHalf_of_outside (by omega)

theorem loadWord_zero_of_apart (h : b + 8 ≤ a ∨ a + n ≤ b) :
    (m.zero a n).loadWord b = m.loadWord b :=
  loadWord_congr fun _ _ => zero_of_outside (by omega)

theorem loadHalf_storeWord_of_apart (h : b + 4 ≤ a ∨ a + 8 ≤ b) :
    (m.storeWord a v).loadHalf b = m.loadHalf b :=
  loadHalf_congr fun _ _ => storeWord_of_outside (by omega)

theorem loadHalf_storeHalf_of_apart (h : b + 4 ≤ a ∨ a + 4 ≤ b) :
    (m.storeHalf a v).loadHalf b = m.loadHalf b :=
  loadHalf_congr fun _ _ => storeHalf_of_outside (by omega)

theorem loadHalf_zero_of_apart (h : b + 4 ≤ a ∨ a + n ≤ b) :
    (m.zero a n).loadHalf b = m.loadHalf b :=
  loadHalf_congr fun _ _ => zero_of_outside (by omega)

end Apart

end Mem

/-! ## Partial maps -/

section Update

variable {α β : Type*} [DecidableEq α] {f : α → Option β} {a x : α} {o : Option β} {b : β}

theorem of_update_eq_some (h : Function.update f a o x = some b) :
    x = a ∧ o = some b ∨ x ≠ a ∧ f x = some b := by
  by_cases hx : x = a
  · rw [hx, Function.update_self] at h
    exact Or.inl ⟨hx, h⟩
  · rw [Function.update_of_ne hx] at h
    exact Or.inr ⟨hx, h⟩

theorem of_update_none_eq_some (h : Function.update f a none x = some b) : x ≠ a ∧ f x = some b := by
  rcases of_update_eq_some h with ⟨-, hnone⟩ | hold
  · cases hnone
  · exact hold

end Update

/-! ## Linked lists -/

/-- A pointer that may be null. -/
def asPtr (p : ℕ) : Option ℕ := if p = 0 then none else some p

@[simp] theorem asPtr_zero : asPtr 0 = none := rfl

theorem asPtr_of_ne {p : ℕ} (h : p ≠ 0) : asPtr p = some p := if_neg h

theorem asPtr_eq_some {p a : ℕ} : asPtr p = some a ↔ p = a ∧ a ≠ 0 := by
  unfold asPtr
  split_ifs with h
  · simp only [false_iff, not_and, not_not]
    rintro rfl
    exact h
  · simp only [Option.some_inj]
    exact ⟨fun e => ⟨e, e ▸ h⟩, fun e => e.1⟩

section Linked

variable {α : Type*}

/-- Following `next` from `p` visits exactly the nodes of `l` and then ends. -/
def Linked (next : α → Option α) : Option α → List α → Prop
  | p, [] => p = none
  | p, a :: l => p = some a ∧ Linked next (next a) l

variable {next next' : α → Option α}

theorem Linked.congr {l : List α} {p : Option α} (h : Linked next p l)
    (hn : ∀ a ∈ l, next' a = next a) : Linked next' p l := by
  induction l generalizing p with
  | nil => exact h
  | cons a l ih =>
    obtain ⟨h1, h2⟩ := h
    refine ⟨h1, ?_⟩
    rw [hn a List.mem_cons_self]
    exact ih h2 fun b hb => hn b (List.mem_cons_of_mem _ hb)

/-- A node whose link is the old head becomes the new head. -/
theorem Linked.push {l : List α} {p : Option α} {a : α} (h : Linked next p l)
    (ha : next' a = p) (hn : ∀ b ∈ l, next' b = next b) : Linked next' (some a) (a :: l) :=
  ⟨rfl, by rw [ha]; exact h.congr hn⟩

theorem Linked.unique {l l' : List α} {p : Option α} (h : Linked next p l)
    (h' : Linked next p l') : l = l' := by
  induction l generalizing p l' with
  | nil =>
    cases l' with
    | nil => rfl
    | cons b l' => exact absurd (h.symm.trans h'.1) (Option.some_ne_none b).symm
  | cons a l ih =>
    cases l' with
    | nil => exact absurd (h'.symm.trans h.1) (Option.some_ne_none a).symm
    | cons b l' =>
      obtain rfl : a = b := Option.some_inj.mp (h.1.symm.trans h'.1)
      rw [ih h.2 h'.2]

theorem Linked.suffix {l₁ l₂ : List α} {a : α} {p : Option α} (h : Linked next p (l₁ ++ a :: l₂)) :
    Linked next (next a) l₂ := by
  induction l₁ generalizing p with
  | nil => exact h.2
  | cons b l₁ ih => exact ih h.2

/-- **A linked list that ends visits no node twice.** -/
theorem Linked.nodup {l : List α} {p : Option α} (h : Linked next p l) : l.Nodup := by
  induction l generalizing p with
  | nil => exact List.nodup_nil
  | cons a l ih =>
    refine List.nodup_cons.mpr ⟨fun ha => ?_, ih h.2⟩
    obtain ⟨l₁, l₂, rfl⟩ := List.append_of_mem ha
    have := congrArg List.length (h.2.unique h.2.suffix)
    simp at this
    omega

end Linked

end FlatMemory
