import UBoot.Common.EnvFlash
import UBoot.Common.EnvNand
import UBoot.LibGeneric.Crc32

/-!
# The copy that `fw_env` takes for the active one

`env_init` of `tools/env/fw_env.c` reads both copies of the environment and decides
between them as U-Boot does, with flags that are on or off for two NOR devices and with a
serial number for two NAND devices.  The two programs share no code, and they differ for
two kinds of pairs, both with matching checksums:

* for the serial numbers 0 and 255 the tool tests `flag1 > flag0` before it tests for the
  wrap, and takes the second copy where U-Boot takes the first (`SerialsDiffer`);
* for flags that no test of the chain covers the tool takes the first copy, while
  `env_init` of `common/env_flash.c` falls through and the default environment is used
  (`FlagsDiffer`).
-/

namespace UBoot.Tools

open UBoot.Lib
open UBoot.LibGeneric
open UBoot.Common

/-- `mtd_type` -/
inductive MtdType
  | absent
  | norflash
  | nandflash
  | other
  deriving DecidableEq, Repr

/-- `enum flag_scheme`, without `FLAG_NONE`, which no environment with two copies keeps. -/
inductive FlagScheme
  | boolean
  | incremental
  deriving DecidableEq, Repr

/-- One of the two devices of the configuration, with the `ENVSIZE(i)` bytes that
`flash_io` reads from it. -/
structure FwDevice where
  mtdType : MtdType
  image : Bytes

/-- `getenvsize()` for two copies, with a `long` of four bytes. -/
def getenvsize (envSize : Nat) : Nat := envSize - 4 - 1

/-- `crc32(0, data, ENV_SIZE) == redundant->crc` -/
def FwDevice.crcOk (crc : Bytes → UInt32) (d : FwDevice) : Bool :=
  decide (crc ((Env.ofImage d.image).data.take (getenvsize d.image.length)) =
    (Env.ofImage d.image).crc)

/-- "Check flag scheme compatibility"; `none` for incompatible flash types. -/
def flagScheme (devices : Copies FwDevice) : Option FlagScheme :=
  if devices.second.mtdType = .norflash ∧ devices.first.mtdType = .norflash then some .boolean
  else if devices.second.mtdType = .nandflash ∧ devices.first.mtdType = .nandflash then
    some .incremental
  else none

/-- `dev_current` for two copies with matching checksums. -/
def fwCurrent (flag0 flag1 : UInt8) : FlagScheme → Slot
  | .boolean =>
    if flag0 = activeFlag ∧ flag1 = obsoleteFlag then .first
    else if flag0 = obsoleteFlag ∧ flag1 = activeFlag then .second
    else if flag0 = flag1 then .first
    else if flag0 = 0xFF then .first
    else if flag1 = 0xFF then .second
    else .first
  | .incremental =>
    if (flag0 = 255 ∧ flag1 = 0) ∨ flag1 > flag0 then .second
    else if (flag1 = 255 ∧ flag0 = 0) ∨ flag0 > flag1 then .first
    else .first

/-- `dev_current`, and whether the default environment was copied over the data. -/
structure FwEnv where
  devCurrent : Slot
  builtin : Bool
  deriving DecidableEq, Repr

/-- `env_init()` for a configuration with two devices; `none` when it returns -1. -/
def fwEnvInit (crc : Bytes → UInt32) (devices : Copies FwDevice) : Option FwEnv := do
  let scheme ← flagScheme devices
  let crc0Ok := devices.first.crcOk crc
  let crc1Ok := devices.second.crcOk crc
  if crc0Ok && !crc1Ok then return ⟨.first, false⟩
  else if !crc0Ok && crc1Ok then return ⟨.second, false⟩
  else if !crc0Ok && !crc1Ok then return ⟨.first, true⟩
  else
    let flag0 := (Env.ofImage devices.first.image).flags
    let flag1 := (Env.ofImage devices.second.image).flags
    return ⟨fwCurrent flag0 flag1 scheme, false⟩

/-- The copy whose environment is used. -/
def FwEnv.selected (e : FwEnv) : Option Slot := if e.builtin then none else some e.devCurrent

/-- The tool on two devices of one type. -/
def fwSelect (crc : Bytes → UInt32) (type : MtdType) (image₀ image₁ : Bytes) :
    Option (Option Slot) :=
  (fwEnvInit crc ⟨⟨type, image₀⟩, ⟨type, image₁⟩⟩).map FwEnv.selected

/-! ## The two differences -/

/-- Two valid copies with the serial numbers 0 and 255. -/
def SerialsDiffer (crc : Bytes → UInt32) (e₀ e₁ : Env) : Prop :=
  e₀.crcOk crc = true ∧ e₁.crcOk crc = true ∧ e₀.flags = 0 ∧ e₁.flags = 255

/-- Two valid copies with different flags, neither of them erased, and not one active and
one obsolete. -/
def FlagsDiffer (crc : Bytes → UInt32) (e₀ e₁ : Env) : Prop :=
  e₀.crcOk crc = true ∧ e₁.crcOk crc = true ∧ e₀.flags ≠ e₁.flags ∧
    e₀.flags ≠ 0xFF ∧ e₁.flags ≠ 0xFF ∧
    ¬ (e₀.flags = activeFlag ∧ e₁.flags = obsoleteFlag) ∧
    ¬ (e₀.flags = obsoleteFlag ∧ e₁.flags = activeFlag)

variable {crc : Bytes → UInt32}

/-- Both programs compute the checksum over the same bytes. -/
theorem FwDevice.crcOk_eq (d : FwDevice) : d.crcOk crc = (Env.ofImage d.image).crcOk crc := by
  have hall : (Env.ofImage d.image).data.take (getenvsize d.image.length) =
      (Env.ofImage d.image).data := by
    apply List.take_of_length_le
    rw [Env.ofImage, List.length_drop]
    exact le_refl _
  rw [FwDevice.crcOk, hall, Env.crcOk]

theorem fwCurrent_incremental_iff {f₀ f₁ : UInt8} :
    fwCurrent f₀ f₁ .incremental = slotOf (checkSerial f₀ f₁) ↔ ¬ (f₀ = 0 ∧ f₁ = 255) := by
  have hsecond : fwCurrent f₀ f₁ .incremental = .second ↔ (f₀ = 255 ∧ f₁ = 0) ∨ f₀ < f₁ := by
    rw [fwCurrent]
    split_ifs with h₁ h₂
    · exact iff_of_true rfl h₁
    · exact iff_of_false (by decide) h₁
    · exact iff_of_false (by decide) h₁
  have heq : ∀ s t : Slot, s = t ↔ (s = .second ↔ t = .second) := by
    intro s t
    cases s <;> cases t <;> simp
  rw [heq, hsecond, slotOf_checkSerial]
  simp only [UInt8.lt_iff_toNat_lt, ← UInt8.toNat_inj, UInt8.reduceToNat]
  omega

theorem fwSelect_nand_iff {image₀ image₁ : Bytes} :
    fwSelect crc .nandflash image₀ image₁ =
        some (nandSelect crc (Env.ofImage image₀) (Env.ofImage image₁)) ↔
      ¬ SerialsDiffer crc (Env.ofImage image₀) (Env.ofImage image₁) := by
  have hscheme : flagScheme ⟨⟨.nandflash, image₀⟩, ⟨.nandflash, image₁⟩⟩ = some .incremental := rfl
  rw [fwSelect, fwEnvInit, hscheme, FwDevice.crcOk_eq, FwDevice.crcOk_eq, nandSelect,
    envRelocateSpec, SerialsDiffer]
  cases (Env.ofImage image₀).crcOk crc <;> cases (Env.ofImage image₁).crcOk crc
  · simp [FwEnv.selected]
  · simp [FwEnv.selected, slotOf]
  · simp [FwEnv.selected, slotOf]
  · simp [FwEnv.selected, fwCurrent_incremental_iff]

theorem fwSelect_nor_iff {image₀ image₁ : Bytes} :
    fwSelect crc .norflash image₀ image₁ =
        some (envInitRedund crc (Env.ofImage image₀) (Env.ofImage image₁)).selected ↔
      ¬ FlagsDiffer crc (Env.ofImage image₀) (Env.ofImage image₁) := by
  have hscheme : flagScheme ⟨⟨.norflash, image₀⟩, ⟨.norflash, image₁⟩⟩ = some .boolean := rfl
  rw [fwSelect, fwEnvInit, hscheme, FwDevice.crcOk_eq, FwDevice.crcOk_eq, envInitRedund,
    FlagsDiffer]
  cases (Env.ofImage image₀).crcOk crc <;> cases (Env.ofImage image₁).crcOk crc
  · simp [FwEnv.selected, Gd.selected]
  · simp [FwEnv.selected, Gd.selected]
  · simp [FwEnv.selected, Gd.selected]
  · generalize (Env.ofImage image₀).flags = f₀
    generalize (Env.ofImage image₁).flags = f₁
    simp only [Option.bind_eq_bind, Option.bind_some, Bool.not_true, Bool.and_false, Bool.false_and,
      Bool.false_eq_true, if_false, fwCurrent, true_and]
    split_ifs with h₁ h₂ h₃ h₄ h₅
    · simp [FwEnv.selected, Gd.selected, h₁]
    · simp [FwEnv.selected, Gd.selected, h₂]
    · simp [FwEnv.selected, Gd.selected, h₃]
    · simp [FwEnv.selected, Gd.selected, h₄]
    · simp [FwEnv.selected, Gd.selected, h₅]
    · -- the chain of `env_init` ends without an answer
      refine iff_of_false (by simp [FwEnv.selected, Gd.selected, Gd.cleared]) (not_not.mpr ?_)
      exact ⟨h₃, h₄, h₅, h₁, h₂⟩

/-- **The tool and U-Boot agree** on the active copy, with serial numbers and with flags,
and on when to use the default environment, if and only if the pair is of neither kind. -/
theorem fwEnvInit_agrees_iff (crc : Bytes → UInt32) (image₀ image₁ : Bytes) :
    (fwSelect crc .nandflash image₀ image₁ =
          some (nandSelect crc (Env.ofImage image₀) (Env.ofImage image₁)) ∧
        fwSelect crc .norflash image₀ image₁ =
          some (envInitRedund crc (Env.ofImage image₀) (Env.ofImage image₁)).selected) ↔
      ¬ SerialsDiffer crc (Env.ofImage image₀) (Env.ofImage image₁) ∧
        ¬ FlagsDiffer crc (Env.ofImage image₀) (Env.ofImage image₁) := by
  rw [fwSelect_nand_iff, fwSelect_nor_iff]

/-- A valid copy with these flags. -/
def flagged (flags : UInt8) : Bytes :=
  (Env.mk (crc32 [97, 61, 49, 0, 0]) flags [97, 61, 49, 0, 0]).image

/-- **Where they differ**: the serial numbers 0 and 255, and the flags 2 and 3. -/
theorem fwEnvInit_differs :
    fwSelect crc32 .nandflash (flagged 0) (flagged 255) = some (some .second) ∧
      nandSelect crc32 (Env.ofImage (flagged 0)) (Env.ofImage (flagged 255)) = some .first ∧
      fwSelect crc32 .norflash (flagged 2) (flagged 3) = some (some .first) ∧
      (envInitRedund crc32 (Env.ofImage (flagged 2)) (Env.ofImage (flagged 3))).selected =
        none := by
  decide +kernel

end UBoot.Tools
