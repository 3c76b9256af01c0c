import UBoot.Common.Nvedit
import UBoot.Lib.TwoSlot

/-!
# What the environment drivers share

The stored form of an environment (`include/environment.h`), the checksum test, the
fields of `gd` that say where the environment is, and `set_default_env` of
`common/env_common.c`.
-/

namespace UBoot.Common

open UBoot.Lib

/-- What `gd->env_addr` points to. -/
inductive EnvAddr
  | unset
  | builtin
  | slot (s : Slot)
  deriving DecidableEq, Repr

/-- The fields of `gd` that belong to the environment. -/
structure Gd where
  envAddr : EnvAddr
  envValid : Nat
  deriving DecidableEq, Repr

/-- `gd` as the start code clears it. -/
def Gd.cleared : Gd := ⟨.unset, 0⟩

/-- The copy that `env_relocate` loads; `none` when it calls `set_default_env`. -/
def Gd.selected (gd : Gd) : Option Slot :=
  if gd.envValid = 0 then none
  else match gd.envAddr with
    | .slot s => some s
    | _ => none

/-- Does the checksum match? -/
def Env.crcOk (crc : Bytes → UInt32) (e : Env) : Bool := decide (crc e.data = e.crc)

theorem Env.crcOk_iff {crc : Bytes → UInt32} {e : Env} :
    e.crcOk crc = true ↔ e.crc = crc e.data := by
  rw [Env.crcOk, decide_eq_true_eq]
  exact eq_comm

/-! ## The stored form -/

/-- The four bytes of a `uint32_t`, the lowest first. -/
def bytesOfWord (x : UInt32) : Bytes :=
  [UInt8.ofNat x.toNat, UInt8.ofNat (x.toNat / 2 ^ 8), UInt8.ofNat (x.toNat / 2 ^ 16),
    UInt8.ofNat (x.toNat / 2 ^ 24)]

def wordOfBytes : Bytes → UInt32
  | [] => 0
  | c :: cs => UInt32.ofNat (c.toNat + 2 ^ 8 * (wordOfBytes cs).toNat)

theorem wordOfBytes_bytesOfWord (x : UInt32) : wordOfBytes (bytesOfWord x) = x := by
  rw [← UInt32.toNat_inj]
  have hx := x.toNat_lt
  simp only [bytesOfWord, wordOfBytes, UInt8.toNat_ofNat', UInt32.toNat_ofNat']
  simp only [UInt32.toNat_zero]
  omega

@[simp] theorem length_bytesOfWord (x : UInt32) : (bytesOfWord x).length = 4 := rfl

/-- `ENV_HEADER_SIZE` with the flag byte. -/
def envHeaderSize : Nat := 5

/-- The bytes of an `env_t`. -/
def Env.image (e : Env) : Bytes := bytesOfWord e.crc ++ e.flags :: e.data

/-- The `env_t` at the start of a buffer. -/
def Env.ofImage (buf : Bytes) : Env :=
  ⟨wordOfBytes (buf.take 4), buf.getD 4 0, buf.drop envHeaderSize⟩

@[simp] theorem Env.length_image (e : Env) : e.image.length = envHeaderSize + e.data.length := by
  simp only [Env.image, envHeaderSize, List.length_append, length_bytesOfWord, List.length_cons]
  omega

@[simp] theorem Env.ofImage_image (e : Env) : Env.ofImage e.image = e := by
  have hcrc : e.image.take 4 = bytesOfWord e.crc := rfl
  have hflags : e.image.getD 4 0 = e.flags := rfl
  have hdata : e.image.drop envHeaderSize = e.data := rfl
  rw [Env.ofImage, hcrc, hflags, hdata, wordOfBytes_bytesOfWord]

/-! ## The default environment -/

/-- What `set_default_env()` leaves in an area of `size` bytes; `none` when the default
environment is too large for it and nothing is changed.  `gd->env_valid` becomes 1. -/
def setDefaultEnv (crc : Bytes → UInt32) (defaultEnvironment : Bytes) (size : Nat) : Option Env :=
  if defaultEnvironment.length > size then none
  else
    let data := defaultEnvironment ++ List.replicate (size - defaultEnvironment.length) 0
    some ⟨crc data, 0xFF, data⟩

theorem length_setDefaultEnv {crc : Bytes → UInt32} {defaultEnvironment : Bytes} {size : Nat}
    {e : Env} (h : setDefaultEnv crc defaultEnvironment size = some e) : e.data.length = size := by
  rw [setDefaultEnv] at h
  split at h
  · cases h
  · cases h
    simp only [List.length_append, List.length_replicate]
    omega

end UBoot.Common
