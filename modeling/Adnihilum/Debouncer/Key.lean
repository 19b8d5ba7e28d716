import Adnihilum.Debouncer.Model
import Mathlib.Tactic

/-!
# The keys of the rate limiter

`deb_mix` is invertible, so only zero is mixed to zero. What `deb_ip_key` makes of an IPv6 address
before it is mixed folds two words into one, and the fold of a real address can be zero, the key of
an unknown client.

* `debMix_injective`, `debMix_unmix`, `debMix_eq_zero`; **`ipv4_keys_distinct`**.
* **`known_iff`**: exactly which peers have a key.
-/

namespace Adnihilum

/-! ## Mixing -/

theorem xorShift_involutive (x : UInt64) :
    (x ^^^ x >>> 33) ^^^ (x ^^^ x >>> 33) >>> 33 = x := by
  apply UInt64.toNat_inj.mp
  simp only [UInt64.toNat_xor, UInt64.toNat_shiftRight]
  have h33 : UInt64.toNat 33 % 64 = 33 := rfl
  rw [h33, Nat.shiftRight_xor_distrib, ← Nat.shiftRight_add]
  have hx : x.toNat >>> (33 + 33) = 0 := by
    rw [Nat.shiftRight_eq_div_pow]
    exact Nat.div_eq_of_lt (lt_trans x.toNat_lt (by norm_num))
  rw [hx, Nat.xor_zero, Nat.xor_assoc, Nat.xor_self, Nat.xor_zero]

theorem xorShift_injective : Function.Injective fun x : UInt64 => x ^^^ x >>> 33 := by
  intro x y h
  have h' : x ^^^ x >>> 33 = y ^^^ y >>> 33 := h
  rw [← xorShift_involutive x, h', xorShift_involutive]

theorem mul_injective {c c' : UInt64} (h : c * c' = 1) :
    Function.Injective fun x : UInt64 => x * c := by
  intro x y hxy
  have h' : x * c * c' = y * c * c' := congrArg (· * c') hxy
  rwa [UInt64.mul_assoc, UInt64.mul_assoc, h, UInt64.mul_one, UInt64.mul_one] at h'

theorem debMix_injective : Function.Injective debMix := by
  have h1 : Function.Injective fun x : UInt64 => x * 0xff51afd7ed558ccd :=
    mul_injective (by decide : (0xff51afd7ed558ccd * 0x4f74430c22a54005 : UInt64) = 1)
  have h2 : Function.Injective fun x : UInt64 => x * 0xc4ceb9fe1a85ec53 :=
    mul_injective (by decide : (0xc4ceb9fe1a85ec53 * 0x9cb4b2f8129337db : UInt64) = 1)
  exact xorShift_injective.comp (h2.comp (xorShift_injective.comp (h1.comp xorShift_injective)))

/-- `deb_mix` undone. -/
def debUnmix (x : UInt64) : UInt64 :=
  let x := x ^^^ x >>> 33
  let x := x * 0x9cb4b2f8129337db
  let x := x ^^^ x >>> 33
  let x := x * 0x4f74430c22a54005
  x ^^^ x >>> 33

theorem debMix_unmix (x : UInt64) : debMix (debUnmix x) = x := by
  have h1 : ∀ y : UInt64, y * 0x4f74430c22a54005 * 0xff51afd7ed558ccd = y := fun y => by
    rw [UInt64.mul_assoc, show (0x4f74430c22a54005 * 0xff51afd7ed558ccd : UInt64) = 1 by decide,
      UInt64.mul_one]
  have h2 : ∀ y : UInt64, y * 0x9cb4b2f8129337db * 0xc4ceb9fe1a85ec53 = y := fun y => by
    rw [UInt64.mul_assoc, show (0x9cb4b2f8129337db * 0xc4ceb9fe1a85ec53 : UInt64) = 1 by decide,
      UInt64.mul_one]
  simp only [debMix, debUnmix, xorShift_involutive, h1, h2]

theorem debMix_eq_zero {x : UInt64} : debMix x = 0 ↔ x = 0 := by
  constructor
  · exact fun h => debMix_injective (h.trans (by decide : (0 : UInt64) = debMix 0))
  · rintro rfl
    decide

/-! ## Addresses -/

/-- The all-zero address, or no IP address at all. -/
def SockAddr.Unspecified : SockAddr → Prop
  | .inet sAddr => ∀ i, sAddr i = 0
  | .inet6 s6Addr => ∀ i, s6Addr i = 0
  | .other => True

theorem firstWord_le : 0 + 8 ≤ 16 := by decide

theorem secondWord_le : 8 + 8 ≤ 16 := by decide

/-- The two words of an IPv6 address cancel: the first is the second shifted left by one. -/
def SockAddr.Folds : SockAddr → Prop
  | .inet6 s6Addr => memcpyU64 s6Addr 0 firstWord_le = memcpyU64 s6Addr 8 secondWord_le <<< 1
  | .inet _ | .other => False

theorem ntohl_lt (b : Fin 4 → UInt8) : ntohl b < 2 ^ 32 := by
  have h0 := (b 0).toNat_lt
  have h1 := (b 1).toNat_lt
  have h2 := (b 2).toNat_lt
  have h3 := (b 3).toNat_lt
  unfold ntohl
  omega

theorem ntohl_injective : Function.Injective ntohl := by
  intro a b h
  have ha := fun i => (a i).toNat_lt
  have hb := fun i => (b i).toNat_lt
  have hall : (a 0).toNat = (b 0).toNat ∧ (a 1).toNat = (b 1).toNat ∧ (a 2).toNat = (b 2).toNat ∧
      (a 3).toNat = (b 3).toNat := by
    have ha1 := ha 1
    have ha2 := ha 2
    have ha3 := ha 3
    have hb1 := hb 1
    have hb2 := hb 2
    have hb3 := hb 3
    unfold ntohl at h
    omega
  funext i
  apply UInt8.toNat_inj.mp
  fin_cases i
  · exact hall.1
  · exact hall.2.1
  · exact hall.2.2.1
  · exact hall.2.2.2

theorem debIpKey_inet_injective :
    Function.Injective fun sAddr => debIpKey (some (.inet sAddr)) := by
  intro a b h
  have hword := UInt64.toNat_inj.mpr (debMix_injective h)
  rw [UInt64.toNat_ofNat', UInt64.toNat_ofNat',
    Nat.mod_eq_of_lt (lt_trans (ntohl_lt a) (by norm_num)),
    Nat.mod_eq_of_lt (lt_trans (ntohl_lt b) (by norm_num))] at hword
  exact ntohl_injective hword

theorem debIpKey_inet {sAddr : Fin 4 → UInt8} (h : debIpKey (some (.inet sAddr)) = 0) (i : Fin 4) :
    sAddr i = 0 := by
  have hzero : debIpKey (some (.inet fun _ => 0)) = 0 := by decide
  rw [debIpKey_inet_injective (h.trans hzero.symm)]

/-- **IPv4 clients have keys of their own**: mixing is a bijection that keeps zero, different IPv4
addresses have different keys, and only `0.0.0.0` has the key of an unknown client. -/
theorem ipv4_keys_distinct :
    Function.Bijective debMix ∧ (∀ x, debMix x = 0 ↔ x = 0) ∧
    (Function.Injective fun sAddr => debIpKey (some (.inet sAddr))) ∧
    ∀ sAddr, debIpKey (some (.inet sAddr)) = 0 ↔ sAddr = fun _ => 0 := by
  refine ⟨⟨debMix_injective, fun x => ⟨debUnmix x, debMix_unmix x⟩⟩, fun x => debMix_eq_zero,
    debIpKey_inet_injective, fun sAddr => ⟨fun h => funext (debIpKey_inet h), ?_⟩⟩
  rintro rfl
  decide

theorem xor_eq_zero {a b : UInt64} : a ^^^ b = 0 ↔ a = b := UInt64.xor_eq_zero_iff

/-- **A peer with an address has a key, unless its address folds to zero.** -/
theorem known_iff (sa : SockAddr) :
    (¬ sa.Unspecified → debIpKey (some sa) ≠ 0) ↔ (sa.Unspecified ∨ ¬ sa.Folds) := by
  cases sa with
  | inet sAddr =>
    refine ⟨fun _ => .inr id, fun _ hne h => hne ?_⟩
    exact debIpKey_inet h
  | inet6 s6Addr =>
    have hkey : debIpKey (some (.inet6 s6Addr)) = 0 ↔ SockAddr.Folds (.inet6 s6Addr) :=
      debMix_eq_zero.trans xor_eq_zero
    rw [Ne, hkey]
    exact ⟨fun h => or_iff_not_imp_left.mpr h, fun h => or_iff_not_imp_left.mp h⟩
  | other => exact ⟨fun _ => .inl trivial, fun _ h => absurd trivial h⟩

/-- `::80` has no key, and is never rejected. -/
theorem unlimited_client :
    ¬ SockAddr.Unspecified (.inet6 fun i => if i = 15 then 0x80 else 0) ∧
      debIpKey (some (.inet6 fun i => if i = 15 then 0x80 else 0)) = 0 ∧
      ∀ d now, debouncerAllowAddrNow d (some (.inet6 fun i => if i = 15 then 0x80 else 0)) now =
        (d, true) := by
  have hkey : debIpKey (some (.inet6 fun i => if i = 15 then 0x80 else 0)) = 0 := by decide
  refine ⟨fun h => absurd (h 15) (by decide), hkey, fun d now => ?_⟩
  rw [debouncerAllowAddrNow, hkey, debouncerAllowKey, if_pos rfl]

end Adnihilum
