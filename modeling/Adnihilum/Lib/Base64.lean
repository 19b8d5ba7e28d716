import Mathlib.Data.List.Basic
import Mathlib.Data.List.DropRight
import Mathlib.Tactic.IntervalCases

/-!
# Base64

The encoding of bytes as text that a browser offers as `btoa`, and the decoder it offers as `atob`.

* `sextets`, `octets`: bytes cut into groups of six bits and back; `octets_sextets`.
* `btoa`, `atob`: with the alphabet, the padding and the forgiving reading of white space.
* **`atob_of_sextets`**: the decoder reads every correctly padded text back.
-/

namespace Base64

/-- The alphabet, `A` to `/`. -/
def alphabet : List Char := "ABCDEFGHIJKLMNOPQRSTUVWXYZabcdefghijklmnopqrstuvwxyz0123456789+/".toList

/-- The character of a group of six bits. -/
def toChar (v : ℕ) : Char := alphabet.getD v 'A'

/-- The group of six bits of a character. -/
def ofChar (c : Char) : Option ℕ := if c ∈ alphabet then some (alphabet.idxOf c) else none

/-! ## Groups of six bits -/

/-- The bytes as groups of six bits, the last one filled up with zeros. -/
def sextets : List UInt8 → List ℕ
  | [] => []
  | [a] => [a.toNat / 4, a.toNat % 4 * 16]
  | [a, b] => [a.toNat / 4, a.toNat % 4 * 16 + b.toNat / 16, b.toNat % 16 * 4]
  | a :: b :: c :: rest =>
    a.toNat / 4 :: (a.toNat % 4 * 16 + b.toNat / 16) :: (b.toNat % 16 * 4 + c.toNat / 64) ::
      c.toNat % 64 :: sextets rest

/-- The bytes of groups of six bits; what is left over after the last whole byte is dropped. -/
def octets : List ℕ → Option (List UInt8)
  | [] => some []
  | [_] => none
  | [x, y] => some [.ofNat (x * 4 + y / 16)]
  | [x, y, z] => some [.ofNat (x * 4 + y / 16), .ofNat (y % 16 * 16 + z / 4)]
  | x :: y :: z :: w :: rest =>
    (octets rest).map fun bs =>
      .ofNat (x * 4 + y / 16) :: .ofNat (y % 16 * 16 + z / 4) :: .ofNat (z % 4 * 64 + w) :: bs

theorem octets_sextets (bs : List UInt8) : octets (sextets bs) = some bs := by
  have back {n : ℕ} {a : UInt8} (h : n = a.toNat) : UInt8.ofNat n = a := by
    rw [h]
    exact UInt8.ofNat_toNat
  induction bs using sextets.induct with
  | case1 => rfl
  | case2 a =>
    simp only [sextets, octets]
    rw [back (a := a) (by omega)]
  | case3 a b =>
    have hb := b.toNat_lt
    simp only [sextets, octets]
    rw [back (a := a) (by omega), back (a := b) (by omega)]
  | case4 a b c rest ih =>
    have hb := b.toNat_lt
    have hc := c.toNat_lt
    simp only [sextets, octets, ih, Option.map_some]
    rw [back (a := a) (by omega), back (a := b) (by omega), back (a := c) (by omega)]

theorem sextets_lt {bs : List UInt8} {v : ℕ} (h : v ∈ sextets bs) : v < 64 := by
  induction bs using sextets.induct with
  | case1 => cases h
  | case2 a =>
    have ha := a.toNat_lt
    simp only [sextets, List.mem_cons, List.not_mem_nil, or_false] at h
    omega
  | case3 a b =>
    have ha := a.toNat_lt
    have hb := b.toNat_lt
    simp only [sextets, List.mem_cons, List.not_mem_nil, or_false] at h
    omega
  | case4 a b c rest ih =>
    have ha := a.toNat_lt
    have hb := b.toNat_lt
    have hc := c.toNat_lt
    simp only [sextets, List.mem_cons] at h
    rcases h with h | h | h | h | h
    · omega
    · omega
    · omega
    · omega
    · exact ih h

theorem length_sextets (bs : List UInt8) : (sextets bs).length = (4 * bs.length + 2) / 3 := by
  induction bs using sextets.induct with
  | case1 => rfl
  | case2 a => simp [sextets]
  | case3 a b => simp [sextets]
  | case4 a b c rest ih =>
    simp only [sextets, List.length_cons, ih]
    omega

/-! ## Characters -/

theorem length_alphabet : alphabet.length = 64 := by decide

theorem nodup_alphabet : alphabet.Nodup := by decide +kernel

theorem toChar_eq {v : ℕ} (h : v < alphabet.length) : toChar v = alphabet[v] := by
  rw [toChar, List.getD_eq_getElem?_getD, List.getElem?_eq_getElem h, Option.getD_some]

theorem toChar_mem {v : ℕ} (h : v < 64) : toChar v ∈ alphabet := by
  rw [← length_alphabet] at h
  rw [toChar_eq h]
  exact List.getElem_mem h

theorem ofChar_toChar {v : ℕ} (h : v < 64) : ofChar (toChar v) = some v := by
  rw [ofChar, if_pos (toChar_mem h)]
  rw [← length_alphabet] at h
  rw [toChar_eq h, nodup_alphabet.idxOf_getElem]

theorem mapM_ofChar {vs : List ℕ} (h : ∀ v ∈ vs, v < 64) :
    (vs.map toChar).mapM ofChar = some vs := by
  induction vs with
  | nil => rfl
  | cons v vs ih =>
    rw [List.map_cons, List.mapM_cons, ofChar_toChar (h v List.mem_cons_self),
      ih fun v hv => h v (List.mem_cons_of_mem _ hv)]
    rfl

/-! ## Text -/

/-- `btoa`, on the bytes of a binary string. -/
def btoa (bs : List UInt8) : List Char :=
  (sextets bs).map toChar ++ List.replicate ((3 - bs.length % 3) % 3) '='

/-- The white space that `atob` skips. -/
def isSpace (c : Char) : Bool := c ∈ ['\t', '\n', '\x0c', '\r', ' ']

/-- Up to two padding characters at the end are dropped. -/
def unpad (data : List Char) : List Char :=
  match data.reverse with
  | '=' :: '=' :: rest => rest.reverse
  | '=' :: rest => rest.reverse
  | _ => data

/-- `atob`: white space is dropped, then the padding where the length allows for it. -/
def atob (s : List Char) : Option (List UInt8) :=
  let data := s.filter fun c => !isSpace c
  ((if data.length % 4 = 0 then unpad data else data).mapM ofChar).bind octets

theorem unpad_append {l : List Char} (h : '=' ∉ l) {k : ℕ} (hk : k ≤ 2) :
    unpad (l ++ List.replicate k '=') = l := by
  have hhead : ∀ rest, l.reverse ≠ '=' :: rest := fun rest hrev =>
    h (List.mem_reverse.mp (hrev ▸ List.mem_cons_self))
  have hrev : (l ++ List.replicate k '=').reverse = List.replicate k '=' ++ l.reverse := by
    rw [List.reverse_append, List.reverse_replicate]
  rw [unpad, hrev]
  interval_cases k
  · rw [List.replicate_zero, List.append_nil, List.nil_append]
    split
    · exact absurd ‹_› (hhead _)
    · exact absurd ‹_› (hhead _)
    · rfl
  · simp only [List.replicate_one, List.singleton_append, List.reverse_reverse]
  · simp only [List.replicate_succ, List.replicate_zero, List.cons_append, List.nil_append,
      List.reverse_reverse]

theorem not_isSpace_of_mem {c : Char} (h : c ∈ alphabet ∨ c = '=') : isSpace c = false := by
  have hall : ('=' :: alphabet).all (fun c => !isSpace c) = true := by decide +kernel
  have hmem : c ∈ '=' :: alphabet := List.mem_cons.mpr h.symm
  exact Bool.not_inj (List.all_eq_true.mp hall c hmem)

theorem pad_not_mem : '=' ∉ alphabet := by decide

/-- **`atob` reads every padded text back**: the groups of six bits as characters, filled up to a
multiple of four. -/
theorem atob_of_sextets (bs : List UInt8) {k : ℕ} (hk : k = (4 - (sextets bs).length % 4) % 4) :
    atob ((sextets bs).map toChar ++ List.replicate k '=') = some bs := by
  have hlt : ∀ v ∈ sextets bs, v < 64 := fun v => sextets_lt
  have hmem : ∀ c ∈ (sextets bs).map toChar, c ∈ alphabet := by
    intro c hc
    obtain ⟨v, hv, rfl⟩ := List.mem_map.mp hc
    exact toChar_mem (hlt v hv)
  have hspace : ((sextets bs).map toChar ++ List.replicate k '=').filter (fun c => !isSpace c) =
      (sextets bs).map toChar ++ List.replicate k '=' := by
    rw [List.filter_eq_self]
    intro c hc
    rw [not_isSpace_of_mem, Bool.not_false]
    exact (List.mem_append.mp hc).imp (hmem c) List.eq_of_mem_replicate
  -- four characters carry three bytes, so a character never stands alone
  have hk2 : k ≤ 2 := by
    have := length_sextets bs
    omega
  have hlen : ((sextets bs).map toChar ++ List.replicate k '=').length % 4 = 0 := by
    rw [List.length_append, List.length_map, List.length_replicate]
    omega
  rw [atob, hspace]
  simp only [hlen, if_true]
  rw [unpad_append (fun h => pad_not_mem (hmem _ h)) hk2, mapM_ofChar hlt]
  exact octets_sextets bs

end Base64
