import Adnihilum.Lib.Memory

/-!
# `debouncer.h`

The rate limiter: a table of 1024 entries under keys that are made from peer addresses, searched by
linear probing. Entries are never removed; a full table gives up its entries in turn. Times are
32-bit milliseconds.
-/

namespace Adnihilum

/-- `DEB_WINDOW_MS`. -/
def debWindowMs : UInt32 := 150

/-- `DEB_CAP`. -/
def debCap : ℕ := 1024

/-- `deb_mask`. -/
def debMask : ℕ := debCap - 1

/-- `deb_entry_t`. -/
structure DebEntry where
  key : UInt64
  untilMs : UInt32
  deriving DecidableEq

/-- `deb_tbl` and `deb_sweep`. -/
structure Debouncer where
  tbl : ℕ → DebEntry
  sweep : UInt32

/-- The static table before the first call. -/
def debInit : Debouncer := ⟨fun _ => ⟨0, 0⟩, 0⟩

/-- `deb_mix`. -/
def debMix (x : UInt64) : UInt64 :=
  let x := x ^^^ x >>> 33
  let x := x * 0xff51afd7ed558ccd
  let x := x ^^^ x >>> 33
  let x := x * 0xc4ceb9fe1a85ec53
  x ^^^ x >>> 33

/-- `struct sockaddr`, with the bytes of the address as they stand in memory. -/
inductive SockAddr where
  | inet (sAddr : Fin 4 → UInt8)
  | inet6 (s6Addr : Fin 16 → UInt8)
  | other

/-- `ntohl` of four bytes in network order. -/
def ntohl (b : Fin 4 → UInt8) : ℕ :=
  ((b 0).toNat * 256 + (b 1).toNat) * 65536 + ((b 2).toNat * 256 + (b 3).toNat)

/-- `memcpy` of eight bytes to an `uint64_t` of a little-endian host. -/
def memcpyU64 (s6Addr : Fin 16 → UInt8) (offset : ℕ) (h : offset + 8 ≤ 16) : UInt64 :=
  .ofNat (FlatMemory.bytesWord (List.ofFn fun i : Fin 8 => s6Addr ⟨offset + i, by omega⟩))

/-- `deb_ip_key`; `none` is a null pointer. -/
def debIpKey : Option SockAddr → UInt64
  | none => 0
  | some (.inet sAddr) => debMix (.ofNat (ntohl sAddr))
  | some (.inet6 s6Addr) =>
    let a := memcpyU64 s6Addr 0 (by decide)
    let b := memcpyU64 s6Addr 8 (by decide)
    debMix (a ^^^ b <<< 1)
  | some .other => 0

/-- What the loop of `debouncer_allow_key` stops at. -/
inductive Probe where
  | found (s : ℕ)
  | free (s : ℕ)
  | full
  deriving DecidableEq

/-- The loop of `debouncer_allow_key`, with `m` turns left. -/
def debProbe (tbl : ℕ → DebEntry) (key : UInt64) (i : ℕ) : ℕ → ℕ → Probe
  | 0, _ => .full
  | m + 1, p =>
    let s := (i + p) &&& debMask
    if (tbl s).key = key then .found s
    else if (tbl s).key = 0 then .free s
    else debProbe tbl key i m (p + 1)

/-- The home slot of a key. -/
def debHome (key : UInt64) : ℕ := (key ^^^ key >>> 32).toUInt32.toNat &&& debMask

/-- `debouncer_allow_key`. -/
def debouncerAllowKey (d : Debouncer) (key : UInt64) (now : UInt32) : Debouncer × Bool :=
  if key = 0 then (d, true)
  else
    match debProbe d.tbl key (debHome key) debCap 0 with
    | .found s =>
      if 0 < ((d.tbl s).untilMs - now).toInt32 then (d, false)
      else ({ d with tbl := Function.update d.tbl s { d.tbl s with untilMs := now + debWindowMs } },
        true)
    | .free s => ({ d with tbl := Function.update d.tbl s ⟨key, now + debWindowMs⟩ }, true)
    | .full =>
      (⟨Function.update d.tbl (d.sweep.toNat &&& debMask) ⟨key, now + debWindowMs⟩, d.sweep + 1⟩, true)

/-- `debouncer_allow_addr_now`. -/
def debouncerAllowAddrNow (d : Debouncer) (sa : Option SockAddr) (now : UInt32) : Debouncer × Bool :=
  debouncerAllowKey d (debIpKey sa) now

end Adnihilum
