import Mathlib.Tactic.Common
import UBoot.Lib.Memory

/-!
# Words in memory

`include/compiler.h` and `byteorder.h`, on a machine that keeps a word with its low byte in front.
The machine that makes an image and the one that reads it are of this kind.  The bytes that
`uswap_32` masks out do not overlap, so that its `|` is a sum.
-/

namespace UBoot.LibGeneric

open UBoot.Lib

/-- An `ulong` of 32 bits, and a `uint32_t`. -/
def ulong (x : Nat) : Nat := x % 2 ^ 32

/-- `uswap_32` -/
def uswap32 (x : Nat) : Nat :=
  x / 2 ^ 24 % 2 ^ 8 + x / 2 ^ 16 % 2 ^ 8 * 2 ^ 8 + x / 2 ^ 8 % 2 ^ 8 * 2 ^ 16 +
    x % 2 ^ 8 * 2 ^ 24

/-- `cpu_to_uimage` -/
def cpuToUimage (x : Nat) : Nat := uswap32 x

/-- `uimage_to_cpu` -/
def uimageToCpu (x : Nat) : Nat := uswap32 x

/-- The four bytes of a `uint32_t`. -/
def store32 (x : Nat) : Bytes :=
  [x, x / 2 ^ 8, x / 2 ^ 16, x / 2 ^ 24].map UInt8.ofNat

/-- The `uint32_t` at an address. -/
def load32 (ram : Nat → UInt8) (addr : Nat) : Nat :=
  (ram (ulong addr)).toNat + (ram (ulong (addr + 1))).toNat * 2 ^ 8 +
    (ram (ulong (addr + 2))).toNat * 2 ^ 16 + (ram (ulong (addr + 3))).toNat * 2 ^ 24

theorem ulong_of_lt {x : Nat} (h : x < 2 ^ 32) : ulong x = x := Nat.mod_eq_of_lt h

theorem ulong_ulong_add (x y : Nat) : ulong (ulong x + y) = ulong (x + y) := by
  simp only [ulong, Nat.mod_add_mod]

theorem load32_congr {m m' : Nat → UInt8} {addr : Nat} (haddr : addr + 4 ≤ 2 ^ 32)
    (h : ∀ i, addr ≤ i → i < addr + 4 → m i = m' i) : load32 m addr = load32 m' addr := by
  rw [load32, load32, ulong_of_lt (by omega), ulong_of_lt (by omega), ulong_of_lt (by omega),
    ulong_of_lt (by omega), h _ (by omega) (by omega), h _ (by omega) (by omega),
    h _ (by omega) (by omega), h _ (by omega) (by omega)]

@[simp] theorem length_store32 (x : Nat) : (store32 x).length = 4 := rfl

theorem uswap32_lt (x : Nat) : uswap32 x < 2 ^ 32 := by
  simp only [uswap32]
  omega

theorem uswap32_digits {a b c d : Nat} (ha : a < 256) (hb : b < 256) (hc : c < 256)
    (hd : d < 256) : uswap32 (a + b * 2 ^ 8 + c * 2 ^ 16 + d * 2 ^ 24) =
      d + c * 2 ^ 8 + b * 2 ^ 16 + a * 2 ^ 24 := by
  simp only [uswap32]
  omega

/-- The order of the bytes turned twice. -/
theorem uswap32_uswap32 {x : Nat} (h : x < 2 ^ 32) : uswap32 (uswap32 x) = x := by
  have hx : x = x % 256 + x / 2 ^ 8 % 256 * 2 ^ 8 + x / 2 ^ 16 % 256 * 2 ^ 16 +
      x / 2 ^ 24 * 2 ^ 24 := by omega
  have hlow (y : Nat) : y % 256 < 256 := Nat.mod_lt _ (by decide)
  rw [hx, uswap32_digits (hlow _) (hlow _) (hlow _) (by omega),
    uswap32_digits (by omega) (hlow _) (hlow _) (hlow _)]

theorem uswap32_eq_zero {x : Nat} (h : x < 2 ^ 32) : uswap32 x = 0 ↔ x = 0 := by
  constructor
  · intro hzero
    rw [← uswap32_uswap32 h, hzero]
    rfl
  · intro hzero
    rw [hzero]
    rfl

theorem cpuToUimage_lt (x : Nat) : cpuToUimage x < 2 ^ 32 := by
  rw [cpuToUimage]
  exact uswap32_lt x

@[simp] theorem uimageToCpu_cpuToUimage {x : Nat} (h : x < 2 ^ 32) :
    uimageToCpu (cpuToUimage x) = x := by
  rw [uimageToCpu, cpuToUimage]
  exact uswap32_uswap32 h

theorem cpuToUimage_eq_zero {x : Nat} (h : x < 2 ^ 32) : cpuToUimage x = 0 ↔ x = 0 := by
  rw [cpuToUimage]
  exact uswap32_eq_zero h

/-- What has been stored is loaded. -/
theorem load32_eq {ram : Nat → UInt8} {addr x : Nat} (hx : x < 2 ^ 32)
    (h : ∀ k < 4, ram (ulong (addr + k)) = (store32 x).getD k 0) : load32 ram addr = x := by
  have h0 : ram (ulong addr) = UInt8.ofNat x := h 0 (by omega)
  have h1 : ram (ulong (addr + 1)) = UInt8.ofNat (x / 2 ^ 8) := h 1 (by omega)
  have h2 : ram (ulong (addr + 2)) = UInt8.ofNat (x / 2 ^ 16) := h 2 (by omega)
  have h3 : ram (ulong (addr + 3)) = UInt8.ofNat (x / 2 ^ 24) := h 3 (by omega)
  simp only [load32, h0, h1, h2, h3, UInt8.toNat_ofNat']
  omega

end UBoot.LibGeneric
