import Mathlib.Data.List.Basic

/-!
# Hexadecimal text

Bytes as pairs of hexadecimal digits, in bytes of ASCII. A writer has lower case, a reader takes
either.

* `IsDigit`, `value`, `digit`, `lower`: digits and their values.
* `encode`, `decode`: `isSome_decode_iff`, **`decode_encode`**, **`encode_of_decode`**: what is read
  is written again in lower case, hence `eq_iff_of_decode`.
-/

namespace Hex

/-! ## Digits -/

/-- A digit of either case. -/
def IsDigit (c : UInt8) : Prop := 48 ≤ c ∧ c ≤ 57 ∨ 65 ≤ c ∧ c ≤ 70 ∨ 97 ≤ c ∧ c ≤ 102

instance : DecidablePred IsDigit := fun c =>
  inferInstanceAs (Decidable (48 ≤ c ∧ c ≤ 57 ∨ 65 ≤ c ∧ c ≤ 70 ∨ 97 ≤ c ∧ c ≤ 102))

/-- The value of a digit. -/
def value (c : UInt8) : ℕ :=
  if c ≤ 57 then c.toNat - 48 else if c ≤ 70 then c.toNat - 55 else c.toNat - 87

/-- The digit of a value below 16, in lower case. -/
def digit (v : ℕ) : UInt8 := if v < 10 then .ofNat (48 + v) else .ofNat (87 + v)

/-- A letter in lower case. -/
def lower (c : UInt8) : UInt8 := if 65 ≤ c ∧ c ≤ 90 then c + 32 else c

theorem forall_byte {p : UInt8 → Prop} (h : ∀ n < 256, p (.ofNat n)) (c : UInt8) : p c := by
  have hc := h c.toNat c.toNat_lt
  rwa [UInt8.ofNat_toNat] at hc

theorem value_lt {c : UInt8} : IsDigit c → value c < 16 :=
  forall_byte (p := fun c => IsDigit c → value c < 16) (by decide +kernel) c

theorem digit_value {c : UInt8} : IsDigit c → digit (value c) = lower c :=
  forall_byte (p := fun c => IsDigit c → digit (value c) = lower c) (by decide +kernel) c

theorem isDigit_digit {v : ℕ} (h : v < 16) : IsDigit (digit v) := by
  revert v
  decide

theorem value_digit {v : ℕ} (h : v < 16) : value (digit v) = v := by
  revert v
  decide

/-! ## Texts -/

/-- The digits of bytes. -/
def encode (bs : List UInt8) : List UInt8 :=
  bs.flatMap fun b => [digit (b.toNat / 16), digit (b.toNat % 16)]

/-- The bytes of a text of digits. -/
def decode : List UInt8 → Option (List UInt8)
  | [] => some []
  | [_] => none
  | a :: b :: s =>
    if IsDigit a ∧ IsDigit b then (decode s).map fun bs => .ofNat (16 * value a + value b) :: bs
    else none

theorem isSome_decode_iff {s : List UInt8} :
    (decode s).isSome ↔ s.length % 2 = 0 ∧ ∀ c ∈ s, IsDigit c := by
  induction s using decode.induct with
  | case1 => simp [decode]
  | case2 c => simp [decode]
  | case3 a b s hdigits ih =>
    rw [decode, if_pos hdigits, Option.isSome_map, ih]
    simp only [List.length_cons, List.forall_mem_cons, hdigits.1, hdigits.2, true_and]
    rw [show s.length + 1 + 1 = s.length + 2 by omega, Nat.add_mod_right]
  | case4 a b s hdigits =>
    rw [decode, if_neg hdigits]
    simp only [Option.isSome_none, Bool.false_eq_true, List.forall_mem_cons, false_iff]
    exact fun h => hdigits ⟨h.2.1, h.2.2.1⟩

theorem decode_encode (bs : List UInt8) : decode (encode bs) = some bs := by
  induction bs with
  | nil => rfl
  | cons b bs ih =>
    have hb := b.toNat_lt
    have hhigh : b.toNat / 16 < 16 := by omega
    have hlow : b.toNat % 16 < 16 := by omega
    change decode (digit (b.toNat / 16) :: digit (b.toNat % 16) :: encode bs) = _
    rw [decode, if_pos ⟨isDigit_digit hhigh, isDigit_digit hlow⟩, ih, value_digit hhigh,
      value_digit hlow, Nat.div_add_mod, UInt8.ofNat_toNat]
    rfl

/-- **What was read is written again**, in lower case. -/
theorem encode_of_decode {s bs : List UInt8} (h : decode s = some bs) :
    encode bs = s.map lower := by
  induction s using decode.induct generalizing bs with
  | case1 =>
    obtain rfl := Option.some_inj.mp h
    rfl
  | case2 c => cases h
  | case3 a b s hdigits ih =>
    rw [decode, if_pos hdigits] at h
    obtain ⟨bs, hbs, rfl⟩ := Option.map_eq_some_iff.mp h
    have ha := value_lt hdigits.1
    have hb := value_lt hdigits.2
    have hbyte : (UInt8.ofNat (16 * value a + value b)).toNat = 16 * value a + value b := by
      rw [UInt8.toNat_ofNat', Nat.mod_eq_of_lt (by omega)]
    change digit _ :: digit _ :: encode bs = _
    rw [hbyte, show (16 * value a + value b) / 16 = value a by omega,
      show (16 * value a + value b) % 16 = value b by omega, digit_value hdigits.1,
      digit_value hdigits.2, ih hbs]
    rfl
  | case4 a b s hdigits =>
    rw [decode, if_neg hdigits] at h
    cases h

theorem encode_injective : Function.Injective encode := fun bs bs' h =>
  Option.some_inj.mp ((decode_encode bs).symm.trans ((congrArg decode h).trans (decode_encode bs')))

theorem eq_iff_of_decode {s s' bs bs' : List UInt8} (h : decode s = some bs)
    (h' : decode s' = some bs') : bs = bs' ↔ s.map lower = s'.map lower := by
  rw [← encode_of_decode h, ← encode_of_decode h', encode_injective.eq_iff]

theorem length_encode (bs : List UInt8) : (encode bs).length = 2 * bs.length := by
  rw [encode, List.length_flatMap]
  simp [Nat.mul_comm]

theorem length_of_decode {s bs : List UInt8} (h : decode s = some bs) :
    s.length = 2 * bs.length := by
  rw [← length_encode, encode_of_decode h, List.length_map]

end Hex
