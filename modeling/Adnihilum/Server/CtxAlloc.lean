import Adnihilum.Lib.Memory
import Adnihilum.Types

/-!
# `ctxalloc.h`: the pool of request contexts

A pointer into the pool is the index of a block. A block is either on the free list, and then it is
a link, or it is a request context.

* `ctxaInit`, `ctxaAlloc`, `ctxaFree`: the functions of the header.
* `PoolRep`: the free list and the contexts in use share the pool between them.
* `ctxaInit_rep`, **`ctxaAlloc_rep`**, **`ctxaFree_rep`**.
-/

namespace Adnihilum

open FlatMemory

/-- `enum DEFERRED_ERROR_CODE`. -/
inductive DeferredErrorCode where
  | noError
  | oom
  | dup
  deriving DecidableEq

/-- `req_ctx_t`. -/
structure ReqCtx where
  postBody : Blk
  blobSend : Blk
  expected : ℕ
  read : ℕ
  id : HtableKey
  haveId : Bool
  deferredError : DeferredErrorCode
  rateChecked : Bool
  deriving DecidableEq

/-- A context of zero bytes. -/
def ReqCtx.zero : ReqCtx := ⟨Blk.zero, Blk.zero, 0, 0, HtableKey.null, false, .noError, false⟩

/-- `ctxalloc_block_t`. -/
inductive CtxallocBlock where
  | next (p : Option ℕ)
  | reqCtx (c : ReqCtx)

/-- `block->next`. -/
def CtxallocBlock.link : CtxallocBlock → Option ℕ
  | next p => p
  | reqCtx _ => none

/-- `ctxalloc_t`, with the pool in front of it. -/
structure Ctxalloc where
  freeList : Option ℕ
  capacity : ℕ
  available : ℕ
  pool : ℕ → CtxallocBlock

/-- `ctxa_init` on memory for `count` blocks. -/
def ctxaInit (count : ℕ) : Ctxalloc where
  freeList := some 0
  capacity := count
  available := count
  pool i := .next (if i < count - 1 then some (i + 1) else none)

/-- `ctxa_alloc`. -/
def ctxaAlloc (a : Ctxalloc) : Ctxalloc × Option ℕ :=
  match a.freeList with
  | none => (a, none)
  | some block =>
    ({ a with
      freeList := (a.pool block).link
      available := a.available - 1
      pool := Function.update a.pool block (.reqCtx ReqCtx.zero) }, some block)

/-- `ctxa_free`. -/
def ctxaFree (a : Ctxalloc) (block : ℕ) : Ctxalloc :=
  { a with
    pool := Function.update a.pool block (.next a.freeList)
    freeList := some block
    available := a.available + 1 }

/-- `*ctx` for a pointer into the pool. -/
def ctxaRead (a : Ctxalloc) (block : ℕ) : ReqCtx :=
  match a.pool block with
  | .reqCtx c => c
  | .next _ => ReqCtx.zero

/-- Write `*ctx`. -/
def ctxaWrite (a : Ctxalloc) (block : ℕ) (c : ReqCtx) : Ctxalloc :=
  { a with pool := Function.update a.pool block (.reqCtx c) }

/-- Every block of the pool is either on the free list or the context of one request, where
`conCls r` is the pointer kept for request `r`. -/
structure PoolRep (a : Ctxalloc) (conCls : ℕ → Option ℕ) : Prop where
  free : ∃ l, Linked (fun b => (a.pool b).link) a.freeList l ∧ a.available = l.length ∧
    ∀ b, b ∈ l ↔ b < a.capacity ∧ ∀ r, conCls r ≠ some b
  live : ∀ r b, conCls r = some b → b < a.capacity ∧ ∃ c, a.pool b = .reqCtx c
  inj : ∀ r r' b, conCls r = some b → conCls r' = some b → r = r'

section Pool

variable {a : Ctxalloc} {conCls : ℕ → Option ℕ}

theorem ctxaRead_write (b b' : ℕ) (c : ReqCtx) :
    ctxaRead (ctxaWrite a b c) b' = if b' = b then c else ctxaRead a b' := by
  unfold ctxaRead ctxaWrite
  by_cases h : b' = b
  · subst h
    simp
  · simp [h]

theorem ctxaWrite_rep (h : PoolRep a conCls) {r b : ℕ} (hr : conCls r = some b) (c : ReqCtx) :
    PoolRep (ctxaWrite a b c) conCls where
  free := by
    obtain ⟨l, hl, hn, hmem⟩ := h.free
    refine ⟨l, hl.congr fun b' hb' => ?_, hn, hmem⟩
    have hne : b' ≠ b := fun e => ((hmem b').mp hb').2 r (e ▸ hr)
    simp [ctxaWrite, hne]
  live r' b' hr' := by
    refine ⟨(h.live r' b' hr').1, ?_⟩
    by_cases hb : b' = b
    · subst hb
      exact ⟨c, Function.update_self _ _ _⟩
    · obtain ⟨c', hc'⟩ := (h.live r' b' hr').2
      exact ⟨c', (Function.update_of_ne hb _ _).trans hc'⟩
  inj := h.inj

theorem unused_update_iff {r b b' : ℕ} (hr : conCls r = none) :
    (∀ r', Function.update conCls r (some b) r' ≠ some b') ↔
      b' ≠ b ∧ ∀ r', conCls r' ≠ some b' := by
  constructor
  · intro h
    refine ⟨?_, fun r' e => ?_⟩
    · rintro rfl
      exact h r (Function.update_self _ _ _)
    · have hne : r' ≠ r := by
        rintro rfl
        rw [hr] at e
        cases e
      exact h r' ((Function.update_of_ne hne _ _).trans e)
  · rintro ⟨hne, h⟩ r' e
    rcases of_update_eq_some e with ⟨-, hnew⟩ | ⟨-, hold⟩
    · exact hne (Option.some_inj.mp hnew).symm
    · exact h r' hold

/-- **`ctxa_alloc` fails only when every block is in use**; otherwise it gives the request a zeroed
context of its own. -/
theorem ctxaAlloc_rep (h : PoolRep a conCls) {r : ℕ} (hr : conCls r = none) :
    ((ctxaAlloc a).2 = none ∧ (ctxaAlloc a).1 = a ∧ ∀ b < a.capacity, ∃ r, conCls r = some b) ∨
      ∃ b, (ctxaAlloc a).2 = some b ∧ (∀ r, conCls r ≠ some b) ∧
        ctxaRead (ctxaAlloc a).1 b = ReqCtx.zero ∧
        (∀ b', b' ≠ b → ctxaRead (ctxaAlloc a).1 b' = ctxaRead a b') ∧
        PoolRep (ctxaAlloc a).1 (Function.update conCls r (some b)) := by
  obtain ⟨l, hl, hn, hmem⟩ := h.free
  cases l with
  | nil =>
    left
    have hnone : a.freeList = none := hl
    refine ⟨by simp [ctxaAlloc, hnone], by simp [ctxaAlloc, hnone], fun b hb => ?_⟩
    by_contra hno
    push Not at hno
    exact List.not_mem_nil ((hmem b).mpr ⟨hb, hno⟩)
  | cons b l =>
    right
    obtain ⟨hhead, htail⟩ := hl
    obtain ⟨hcap, hunused⟩ := (hmem b).mp List.mem_cons_self
    have hcons : Linked (fun b => (a.pool b).link) a.freeList (b :: l) := ⟨hhead, htail⟩
    have hnd := hcons.nodup
    rw [List.nodup_cons] at hnd
    have halloc : ctxaAlloc a = ({ a with
        freeList := (a.pool b).link
        available := a.available - 1
        pool := Function.update a.pool b (.reqCtx ReqCtx.zero) }, some b) := by
      rw [ctxaAlloc, hhead]
    rw [halloc]
    refine ⟨b, rfl, hunused, by simp [ctxaRead], fun b' hb' => by simp [ctxaRead, hb'], ?_, ?_, ?_⟩
    · refine ⟨l, htail.congr fun b' hb' => ?_, ?_, fun b' => ?_⟩
      · have hne : b' ≠ b := fun e => hnd.1 (e ▸ hb')
        simp [hne]
      · simp only [hn, List.length_cons, Nat.add_sub_cancel]
      · have hold := hmem b'
        rw [List.mem_cons] at hold
        rw [unused_update_iff hr]
        by_cases hb : b' = b
        · exact iff_of_false (hb ▸ hnd.1) fun hm => hm.2.1 hb
        · rw [or_iff_right hb] at hold
          rw [hold]
          exact and_congr_right fun _ => (and_iff_right hb).symm
    · intro r' b' hr'
      rcases of_update_eq_some hr' with ⟨-, hnew⟩ | ⟨-, hold⟩
      · obtain rfl := Option.some_inj.mp hnew
        exact ⟨hcap, ReqCtx.zero, Function.update_self _ _ _⟩
      · have hne : b' ≠ b := fun e => hunused r' (e ▸ hold)
        obtain ⟨h1, c, h2⟩ := h.live r' b' hold
        exact ⟨h1, c, (Function.update_of_ne hne _ _).trans h2⟩
    · intro r₁ r₂ b' h1 h2
      rcases of_update_eq_some h1 with ⟨e1, hnew1⟩ | ⟨-, hold1⟩
      · rcases of_update_eq_some h2 with ⟨e2, -⟩ | ⟨-, hold2⟩
        · exact e1.trans e2.symm
        · exact absurd (hold2.trans hnew1.symm) (hunused r₂)
      · rcases of_update_eq_some h2 with ⟨-, hnew2⟩ | ⟨-, hold2⟩
        · exact absurd (hold1.trans hnew2.symm) (hunused r₁)
        · exact h.inj r₁ r₂ b' hold1 hold2

/-- **`ctxa_free` puts the context of a request back.** -/
theorem ctxaFree_rep (h : PoolRep a conCls) {r b : ℕ} (hr : conCls r = some b) :
    PoolRep (ctxaFree a b) (Function.update conCls r none) ∧
      ∀ b', b' ≠ b → ctxaRead (ctxaFree a b) b' = ctxaRead a b' := by
  obtain ⟨l, hl, hn, hmem⟩ := h.free
  have hbl : b ∉ l := fun hm => ((hmem b).mp hm).2 r hr
  have hstay : ∀ r' b', Function.update conCls r none r' = some b' →
      conCls r' = some b' ∧ b' ≠ b := by
    intro r' b' hr'
    obtain ⟨he, hold⟩ := of_update_none_eq_some hr'
    exact ⟨hold, fun e => he (h.inj r' r b (e ▸ hold) hr)⟩
  refine ⟨⟨⟨b :: l, ?_, ?_, fun b' => ?_⟩, ?_, ?_⟩, fun b' hb' => by simp [ctxaRead, ctxaFree, hb']⟩
  · refine hl.push (by simp [ctxaFree, CtxallocBlock.link]) fun b' hb' => ?_
    have hne : b' ≠ b := fun e => hbl (e ▸ hb')
    simp [ctxaFree, hne]
  · simp [ctxaFree, hn]
  · rw [List.mem_cons, hmem b']
    change _ ↔ b' < a.capacity ∧ _
    by_cases hb : b' = b
    · subst hb
      simp only [true_or, true_iff]
      exact ⟨(h.live r b' hr).1, fun r' hr' => (hstay r' b' hr').2 rfl⟩
    · rw [or_iff_right hb]
      refine and_congr_right fun _ => ⟨fun hu r' hr' => hu r' (hstay r' b' hr').1, fun hu r' hr' => ?_⟩
      refine hu r' ?_
      rw [Function.update_of_ne ?_, hr']
      rintro rfl
      rw [hr, Option.some_inj] at hr'
      exact hb hr'.symm
  · intro r' b' hr'
    obtain ⟨h1, h2⟩ := hstay r' b' hr'
    obtain ⟨h3, c, h4⟩ := h.live r' b' h1
    exact ⟨h3, c, (Function.update_of_ne h2 _ _).trans h4⟩
  · intro r₁ r₂ b' h1 h2
    exact h.inj r₁ r₂ b' (hstay r₁ b' h1).1 (hstay r₂ b' h2).1

/-- **After `ctxa_init` every block is free.** -/
theorem ctxaInit_rep {count : ℕ} (hc : 1 ≤ count) : PoolRep (ctxaInit count) fun _ => none where
  free := by
    have hchain : ∀ d i, i + d = count → 0 < d →
        Linked (fun b => ((ctxaInit count).pool b).link) (some i) (List.range' i d) := by
      intro d
      induction d with
      | zero => omega
      | succ d ih =>
        intro i hi _
        refine ⟨rfl, ?_⟩
        change Linked _ (if i < count - 1 then some (i + 1) else none) _
        cases d with
        | zero =>
          rw [if_neg (by omega)]
          rfl
        | succ d =>
          rw [if_pos (by omega)]
          exact ih (i + 1) (by omega) (by omega)
    refine ⟨List.range' 0 count, hchain count 0 (by omega) (by omega), by simp [ctxaInit], fun b => ?_⟩
    simp [ctxaInit]
  live r b hr := by cases hr
  inj r r' b hr := by cases hr

end Pool

end Adnihilum
