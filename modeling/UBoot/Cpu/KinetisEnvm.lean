import UBoot.Lib.Blocks
import UBoot.Lib.Run
import Mathlib.Logic.Function.Basic

/-!
# Writing to the embedded flash of the Kinetis

`cpu/arm_cortexm3/kinetis/envm.c`.  A sector is written by way of the acceleration RAM: what is
kept of it and what is new are put together there, then the sector is erased and programmed.  All
commands of the controller succeed, and a store behind the acceleration RAM is a fault.

* `envmWrite_replaces_iff`: a write replaces its range and nothing else, or is refused, unless the
  sum of offset and size wraps to an address in the flash, or to zero (which the sum of two zeros
  is as well) with the offset in the flash; and the address of a command has 24 bits.  Writes
  that are not of this kind never secure the chip.
-/

namespace UBoot.Cpu.Kinetis

open UBoot.Lib

/-- `CONFIG_ENVM_TYPE_K60` and `CONFIG_ENVM_TYPE_K70`. -/
inductive EnvmType where
  | k60
  | k70
  deriving DecidableEq, Repr

/-- `FLASH_PROG_ACCEL_SIZE` -/
def flashProgAccelSize : EnvmType → Nat
  | .k60 => 4 * 1024
  | .k70 => 16 * 1024

/-- `FLASH_SECTOR_SIZE` -/
def flashSectorSize : EnvmType → Nat
  | .k60 => 2 * 1024
  | .k70 => 4 * 1024

/-- `KINETIS_ENVM_SIZE_UNIT_BITS` -/
def kinetisEnvmSizeUnitBits : EnvmType → Nat
  | .k60 => 3
  | .k70 => 4

/-- `KINETIS_FLASH_FSEC_OFFSET` -/
def kinetisFlashFsecOffset : Nat := 0x40C

/-- A configuration: the type of the flash and `CONFIG_MEM_NVM_LEN`. -/
structure Board where
  type : EnvmType
  nvmLen : Nat
  dvd : flashSectorSize type ∣ nvmLen
  lt : nvmLen < 2 ^ 32

/-- `FLASH_SECTOR_SIZE` of the configuration. -/
abbrev Board.sectorSize (b : Board) : Nat := flashSectorSize b.type

/-- The flash and the acceleration RAM. -/
structure Mem where
  flash : Contents
  accel : Contents

/-- `FTFL_CMD_ERASE_SECTOR` and `FTFL_CMD_PROGRAM_SECTION`. -/
inductive FtflCmd where
  | eraseSector
  | programSection

/-- `kinetis_ftfl_command`, with the effect of the command on the flash.  FCCOB[3:1] takes three
bytes of the address and FCCOB[5:4] the upper half of `data0`. -/
def kinetisFtflCommand (b : Board) (command : FtflCmd) (flashAddr data0 : Nat) (m : Mem) :
    Int × Mem :=
  let addr := flashAddr % 2 ^ 24
  let units := data0 / 2 ^ 16 % 2 ^ 16
  match command with
  | .eraseSector =>
    (0, { m with flash := eraseAt m.flash (addr / b.sectorSize * b.sectorSize) b.sectorSize })
  | .programSection =>
    let data := readAt m.accel 0 (units * 2 ^ kinetisEnvmSizeUnitBits b.type)
    (0, { m with flash := programAt m.flash addr data })

/-- `kinetis_ftfl_erase_sector` -/
def kinetisFtflEraseSector (b : Board) (sect : Nat) (m : Mem) : Int × Mem :=
  kinetisFtflCommand b .eraseSector (sect * b.sectorSize % 2 ^ 32) 0 m

/-- `kinetis_ftfl_program_section` -/
def kinetisFtflProgramSection (b : Board) (destAddr size : Nat) (m : Mem) : Int × Mem :=
  kinetisFtflCommand b .programSection destAddr
    (size * 2 ^ (16 - kinetisEnvmSizeUnitBits b.type) % 2 ^ 32) m

/-- `memcpy_ramcode` to the acceleration RAM. -/
def memcpyRamcode (b : Board) : Contents → Nat → Contents → Nat → Nat → Exec Contents
  | accel, _, _, _, 0 => .ok accel
  | accel, dest, src, pos, count + 1 =>
    if dest < flashProgAccelSize b.type then
      memcpyRamcode b (Function.update accel dest (src pos)) (dest + 1) src (pos + 1) count
    else .error (.store dest)

/-- "Save the existing data before the requested region" -/
def saveBefore (b : Board) (sect sectOffset : Nat) (flash accel : Contents) : Exec Contents :=
  if 0 < sectOffset then memcpyRamcode b accel 0 flash (sect * b.sectorSize) sectOffset
  else .ok accel

/-- "Save the existing data after the requested region", with the end of the region. -/
def saveAfter (b : Board) (sect sectEnd : Nat) (flash accel : Contents) : Exec Contents :=
  if sectEnd < b.sectorSize then
    memcpyRamcode b accel sectEnd flash (sect * b.sectorSize + sectEnd) (b.sectorSize - sectEnd)
  else .ok accel

/-- `kinetis_flash_program_sector` -/
def kinetisFlashProgramSector (b : Board) (sect sectOffset : Nat) (src : Contents) (size : Nat)
    (m : Mem) : Exec (Int × Mem) :=
  if b.nvmLen / b.sectorSize ≤ sect then .ok (-22, m)
  else if b.sectorSize < (sectOffset + size) % 2 ^ 32 then .ok (-22, m)
  else do
    let accel ← saveBefore b sect sectOffset m.flash m.accel
    let accel ← saveAfter b sect ((sectOffset + size) % 2 ^ 32) m.flash accel
    let accel ← memcpyRamcode b accel sectOffset src 0 size
    let (rv, m) := kinetisFtflEraseSector b sect { m with accel := accel }
    if rv ≠ 0 then .ok (rv, m)
    else
      let (rv, m) := kinetisFtflProgramSection b (sect * b.sectorSize % 2 ^ 32) b.sectorSize m
      if rv ≠ 0 then .ok (rv, m) else .ok (0, m)

/-- `sect_offset` and `sect_len` in a turn of the loop of `kinetis_flash_program`. -/
def sectPart (b : Board) (destAddr size firstSect lastSect sect : Nat) : Nat × Nat :=
  if firstSect = lastSect then (destAddr - firstSect * b.sectorSize, size)
  else if sect = firstSect then
    (destAddr - firstSect * b.sectorSize,
      b.sectorSize - (destAddr - firstSect * b.sectorSize))
  else if sect = lastSect then
    (0, (destAddr + size + 2 ^ 32 - lastSect * b.sectorSize) % 2 ^ 32)
  else (0, b.sectorSize)

/-- The loop of `kinetis_flash_program`, with the sectors that are left. -/
def programSects (b : Board) (destAddr : Nat) (src : Contents) (size firstSect lastSect : Nat) :
    List Nat → Mem → Exec (Int × Mem)
  | [], m => .ok (0, m)
  | sect :: rest, m => do
    let (sectOffset, sectLen) := sectPart b destAddr size firstSect lastSect sect
    let start := (sect * b.sectorSize + sectOffset + 2 ^ 32 - destAddr) % 2 ^ 32
    let (rv, m) ←
      kinetisFlashProgramSector b sect sectOffset (fun i => src (start + i)) sectLen m
    if rv ≠ 0 then .ok (rv, m)
    else programSects b destAddr src size firstSect lastSect rest m

/-- `kinetis_flash_program` -/
def kinetisFlashProgram (b : Board) (destAddr : Nat) (src : Contents) (size : Nat) (m : Mem) :
    Exec (Int × Mem) :=
  let firstSect := destAddr / b.sectorSize
  let lastSect := (destAddr + size + 2 ^ 32 - 1) % 2 ^ 32 / b.sectorSize
  programSects b destAddr src size firstSect lastSect
    (List.range' firstSect (lastSect + 1 - firstSect)) m

/-- `envm_write` -/
def envmWrite (b : Board) (offset : Nat) (buf : Contents) (size : Nat) (m : Mem) :
    Exec (Nat × Mem) :=
  if b.nvmLen < (offset + size) % 2 ^ 32 then .ok (0, m)
  else if offset ≤ kinetisFlashFsecOffset ∧ kinetisFlashFsecOffset < (offset + size) % 2 ^ 32 ∧
      buf (kinetisFlashFsecOffset - offset) &&& 3 ≠ 2 then .ok (0, m)
  else do
    let (rv, m) ← kinetisFlashProgram b offset buf size m
    if rv < 0 then .ok (0, m) else .ok (size, m)

/-! ## A sector -/

section Sector

variable {b : Board} {src c accel : Contents} {m m' : Mem} {rv : Int}
  {sect sectOffset size dest pos count a k n : Nat}

theorem Board.sectorSize_cases (b : Board) : b.sectorSize = 2048 ∨ b.sectorSize = 4096 := by
  obtain ⟨type, -, -, -⟩ := b
  cases type with
  | k60 => exact Or.inl rfl
  | k70 => exact Or.inr rfl

/-- The data for a sector fits the acceleration RAM. -/
theorem sectorSize_le_accel : ∀ t, 2 * flashSectorSize t ≤ flashProgAccelSize t
  | .k60 => by decide
  | .k70 => by decide

theorem accelSize_lt : ∀ t, flashProgAccelSize t < 2 ^ 31
  | .k60 => by decide
  | .k70 => by decide

/-- The size of a sector in units fits its register. -/
theorem units_mul : ∀ t, flashSectorSize t * 2 ^ (16 - kinetisEnvmSizeUnitBits t) % 2 ^ 32 /
    2 ^ 16 % 2 ^ 16 * 2 ^ kinetisEnvmSizeUnitBits t = flashSectorSize t
  | .k60 => by decide
  | .k70 => by decide

theorem Board.sectorSize_pos (b : Board) : 0 < b.sectorSize := by
  rcases b.sectorSize_cases with h | h <;> omega

theorem Board.div_mul (b : Board) : b.nvmLen / b.sectorSize * b.sectorSize = b.nvmLen :=
  Nat.div_mul_cancel b.dvd

theorem memcpyRamcode_ok (h : dest + count ≤ flashProgAccelSize b.type) :
    ∃ accel', memcpyRamcode b accel dest src pos count = .ok accel' ∧
      ∀ i, accel' i =
        if dest ≤ i ∧ i < dest + count then src (pos + (i - dest)) else accel i := by
  induction count generalizing accel dest pos with
  | zero =>
    refine ⟨accel, rfl, ?_⟩
    intro i
    rw [if_neg (by omega)]
  | succ count ih =>
    obtain ⟨accel', heq, hvalue⟩ :=
      @ih (Function.update accel dest (src pos)) (dest + 1) (pos + 1) (by omega)
    refine ⟨accel', by rw [memcpyRamcode, if_pos (by omega), heq], ?_⟩
    intro i
    rw [hvalue i]
    rcases Nat.lt_trichotomy i dest with hi | rfl | hi
    · rw [if_neg (by omega), if_neg (by omega), Function.update_of_ne (by omega)]
    · rw [if_neg (by omega), if_pos (by omega), Function.update_self, Nat.sub_self, Nat.add_zero]
    · by_cases hend : i < dest + (count + 1)
      · have hpos : pos + 1 + (i - (dest + 1)) = pos + (i - dest) := by omega
        rw [if_pos (by omega), if_pos (by omega), hpos]
      · rw [if_neg (by omega), if_neg (by omega), Function.update_of_ne (by omega)]

/-- A copy that does not fit the acceleration RAM is a fault. -/
theorem memcpyRamcode_fault (hpos : 0 < count)
    (h : flashProgAccelSize b.type < dest + count) :
    ∃ fault, memcpyRamcode b accel dest src pos count = .error fault := by
  induction count generalizing accel dest pos with
  | zero => omega
  | succ count ih =>
    rw [memcpyRamcode]
    split
    · exact ih (by omega) (by omega)
    · exact ⟨_, rfl⟩

/-- The address that a command gets for a sector. -/
def commandAddr (b : Board) (sect : Nat) : Nat := sect * b.sectorSize % 2 ^ 24

theorem commandAddr_add_le : commandAddr b sect + b.sectorSize ≤ 2 ^ 24 := by
  unfold commandAddr
  rcases b.sectorSize_cases with h | h <;> rw [h] <;> omega

theorem commandAddr_of_le (h : sect * b.sectorSize + b.sectorSize ≤ 2 ^ 24) :
    commandAddr b sect = sect * b.sectorSize := by
  have := b.sectorSize_pos
  exact Nat.mod_eq_of_lt (by omega)

/-- The two commands of a sector store the acceleration RAM to it. -/
theorem erase_program (m : Mem) :
    kinetisFtflEraseSector b sect m =
      (0, { m with flash := eraseAt m.flash (commandAddr b sect) b.sectorSize }) ∧
    kinetisFtflProgramSection b (sect * b.sectorSize % 2 ^ 32) b.sectorSize
        { m with flash := eraseAt m.flash (commandAddr b sect) b.sectorSize } =
      (0, ⟨storeAt m.flash (commandAddr b sect) (readAt m.accel 0 b.sectorSize), m.accel⟩) := by
  have haddr : sect * b.sectorSize % 2 ^ 32 % 2 ^ 24 = commandAddr b sect := by
    rw [commandAddr, Nat.mod_mod_of_dvd _ (by decide)]
  have halign : commandAddr b sect / b.sectorSize * b.sectorSize = commandAddr b sect := by
    unfold commandAddr
    rcases b.sectorSize_cases with h | h <;> rw [h] <;> omega
  constructor
  · unfold kinetisFtflEraseSector kinetisFtflCommand
    dsimp only
    rw [haddr, halign]
  · unfold kinetisFtflProgramSection kinetisFtflCommand
    dsimp only
    rw [haddr, units_mul]
    have hstore := programAt_eraseAt m.flash (commandAddr b sect) (readAt m.accel 0 b.sectorSize)
    rw [length_readAt] at hstore
    rw [hstore]

/-- The flash after a part of a sector is written. -/
def rewritten (b : Board) (sect sectOffset : Nat) (src : Contents) (size : Nat) (c : Contents) :
    Contents := fun a =>
  if commandAddr b sect ≤ a ∧ a < commandAddr b sect + b.sectorSize then
    if sectOffset ≤ a - commandAddr b sect ∧ a - commandAddr b sect < sectOffset + size then
      src (a - commandAddr b sect - sectOffset)
    else c (sect * b.sectorSize + (a - commandAddr b sect))
  else c a

theorem saveBefore_ok (h : sectOffset ≤ b.sectorSize) :
    ∃ accel', saveBefore b sect sectOffset c accel = .ok accel' ∧
      ∀ i < sectOffset, accel' i = c (sect * b.sectorSize + i) := by
  have hsmall : 2 * b.sectorSize ≤ flashProgAccelSize b.type := sectorSize_le_accel b.type
  unfold saveBefore
  split
  · obtain ⟨accel', heq, hval⟩ :=
      @memcpyRamcode_ok b c accel 0 (sect * b.sectorSize) sectOffset (by omega)
    refine ⟨accel', heq, ?_⟩
    intro i hi
    rw [hval i, if_pos (by omega), Nat.sub_zero]
  · exact ⟨accel, rfl, fun i hi => by omega⟩

theorem saveAfter_ok {sectEnd : Nat} (h : sectEnd ≤ b.sectorSize) :
    ∃ accel', saveAfter b sect sectEnd c accel = .ok accel' ∧
      (∀ i < b.sectorSize, sectEnd ≤ i → accel' i = c (sect * b.sectorSize + i)) ∧
      ∀ i < sectEnd, accel' i = accel i := by
  have hsmall : 2 * b.sectorSize ≤ flashProgAccelSize b.type := sectorSize_le_accel b.type
  unfold saveAfter
  split
  · obtain ⟨accel', heq, hval⟩ := @memcpyRamcode_ok b c accel sectEnd
      (sect * b.sectorSize + sectEnd) (b.sectorSize - sectEnd) (by omega)
    refine ⟨accel', heq, ?_, ?_⟩
    · intro i hi hle
      have hpos : sect * b.sectorSize + sectEnd + (i - sectEnd) = sect * b.sectorSize + i := by
        omega
      rw [hval i, if_pos (by omega), hpos]
    · intro i hi
      rw [hval i, if_neg (by omega)]
  · exact ⟨accel, rfl, fun i hi hle => by omega, fun i hi => rfl⟩

theorem programSector_ok (hsect : sect < b.nvmLen / b.sectorSize)
    (hfit : sectOffset + size ≤ b.sectorSize) :
    ∃ accel', kinetisFlashProgramSector b sect sectOffset src size m =
      .ok (0, ⟨rewritten b sect sectOffset src size m.flash, accel'⟩) := by
  have hsmall : 2 * b.sectorSize ≤ flashProgAccelSize b.type := sectorSize_le_accel b.type
  have hlimit := accelSize_lt b.type
  have hmod : (sectOffset + size) % 2 ^ 32 = sectOffset + size := Nat.mod_eq_of_lt (by omega)
  unfold kinetisFlashProgramSector
  rw [if_neg (by omega), if_neg (by omega), hmod]
  obtain ⟨accel₁, heq₁, hval₁⟩ := @saveBefore_ok b m.flash m.accel sect sectOffset (by omega)
  obtain ⟨accel₂, heq₂, hval₂, hkept⟩ :=
    @saveAfter_ok b m.flash accel₁ sect (sectOffset + size) (by omega)
  have hval₂' : ∀ i < b.sectorSize, i < sectOffset ∨ sectOffset + size ≤ i →
      accel₂ i = m.flash (sect * b.sectorSize + i) := by
    intro i hi hout
    rcases hout with hfront | hbehind
    · rw [hkept i (by omega), hval₁ i hfront]
    · exact hval₂ i hi hbehind
  obtain ⟨accel₃, heq₃, hval₃⟩ := @memcpyRamcode_ok b src accel₂ sectOffset 0 size (by omega)
  -- The three copies make up the new contents of the sector.
  have hflash : storeAt m.flash (commandAddr b sect) (readAt accel₃ 0 b.sectorSize) =
      rewritten b sect sectOffset src size m.flash := by
    funext a
    rw [storeAt, length_readAt, rewritten]
    by_cases hin : InRange (commandAddr b sect) b.sectorSize a
    · rw [if_pos hin]
      unfold InRange at hin
      rw [if_pos (by omega), List.getD_eq_getElem?_getD, getElem?_readAt (by omega),
        Option.getD_some, Nat.zero_add, hval₃]
      split
      · rw [Nat.zero_add]
      · exact hval₂' _ (by omega) (by omega)
    · rw [if_neg hin]
      unfold InRange at hin
      rw [if_neg (by omega)]
  have hcmd := @erase_program b sect { m with accel := accel₃ }
  dsimp only at hcmd
  refine ⟨accel₃, ?_⟩
  rw [heq₁, ok_bind, heq₂, ok_bind, heq₃, ok_bind, hcmd.1]
  dsimp only
  rw [if_neg (by simp), hcmd.2, if_neg (by simp), hflash]

theorem programSector_refused (hsect : b.nvmLen / b.sectorSize ≤ sect) :
    kinetisFlashProgramSector b sect sectOffset src size m = .ok (-22, m) := by
  rw [kinetisFlashProgramSector, if_pos hsect]

/-- Nothing is stored at an address that a command cannot have. -/
theorem programSector_high
    (h : kinetisFlashProgramSector b sect sectOffset src size m = .ok (rv, m'))
    (ha : 2 ^ 24 ≤ a) : m'.flash a = m.flash a := by
  unfold kinetisFlashProgramSector at h
  split at h
  · cases h
    rfl
  · split at h
    · cases h
      rfl
    · obtain ⟨accel₁, -, h⟩ := bind_eq_ok.mp h
      obtain ⟨accel₂, -, h⟩ := bind_eq_ok.mp h
      obtain ⟨accel₃, -, h⟩ := bind_eq_ok.mp h
      have hcmd := @erase_program b sect { m with accel := accel₃ }
      dsimp only at hcmd
      rw [hcmd.1] at h
      dsimp only at h
      rw [if_neg (by simp), hcmd.2, if_neg (by simp)] at h
      cases h
      have := @commandAddr_add_le b sect
      dsimp only
      rw [storeAt, length_readAt, if_neg (by unfold InRange; omega)]

/-- Below 16 MiB the part of the sector is overwritten in its place. -/
theorem rewritten_low (hlow : sect * b.sectorSize + b.sectorSize ≤ 2 ^ 24)
    (hfit : sectOffset + size ≤ b.sectorSize) :
    rewritten b sect sectOffset src size c a =
      if sect * b.sectorSize + sectOffset ≤ a ∧ a < sect * b.sectorSize + sectOffset + size then
        src (a - (sect * b.sectorSize + sectOffset))
      else c a := by
  rw [rewritten, commandAddr_of_le hlow]
  split
  · split
    · rw [if_pos (by omega)]
      congr 1
      omega
    · rw [if_neg (by omega)]
      congr 1
      omega
  · rw [if_neg (by omega)]

end Sector

/-! ## The loop over the sectors -/

section Loop

variable {b : Board} {buf old : Contents} {m m' : Mem} {rv : Int}
  {offset size first last sect k n a : Nat}

/-- The flash with the first bytes of the data written. -/
def replaced (offset : Nat) (buf : Contents) (len : Nat) (old : Contents) : Contents := fun a =>
  if offset ≤ a ∧ a < offset + len then buf (a - offset) else old a

/-- How many bytes of the data lie in front of a sector. -/
def doneBefore (b : Board) (offset size k : Nat) : Nat := min size (k * b.sectorSize - offset)

/-- The first sector of the range and the last one. -/
def firstSect (b : Board) (offset : Nat) : Nat := offset / b.sectorSize

def lastSect (b : Board) (offset size : Nat) : Nat := (offset + size - 1) / b.sectorSize

theorem firstSect_bounds (b : Board) (offset : Nat) :
    firstSect b offset * b.sectorSize ≤ offset ∧
      offset < firstSect b offset * b.sectorSize + b.sectorSize :=
  ⟨Nat.div_mul_le_self _ _, Nat.lt_div_mul_add b.sectorSize_pos⟩

theorem lastSect_bounds (b : Board) (offset size : Nat) :
    lastSect b offset size * b.sectorSize ≤ offset + size - 1 ∧
      offset + size - 1 < lastSect b offset size * b.sectorSize + b.sectorSize :=
  ⟨Nat.div_mul_le_self _ _, Nat.lt_div_mul_add b.sectorSize_pos⟩

/-- Of two sectors the later one begins where the other one ends, or behind. -/
theorem sect_eq_or_behind {j : Nat} (b : Board) (h : j ≤ k) :
    j = k ∨ j * b.sectorSize + b.sectorSize ≤ k * b.sectorSize := by
  rcases Nat.eq_or_lt_of_le h with heq | hlt
  · exact .inl heq
  · refine .inr ?_
    rw [← Nat.succ_mul]
    exact Nat.mul_le_mul_right _ hlt

theorem doneBefore_of_le (h : k * b.sectorSize ≤ offset) : doneBefore b offset size k = 0 := by
  rw [doneBefore, Nat.sub_eq_zero_of_le h, Nat.min_zero]

theorem doneBefore_inside (h : k * b.sectorSize ≤ offset + size) :
    doneBefore b offset size k = k * b.sectorSize - offset :=
  Nat.min_eq_right (by omega)

theorem doneBefore_of_ge (h : offset + size ≤ k * b.sectorSize) :
    doneBefore b offset size k = size :=
  Nat.min_eq_left (by omega)

/-- The part of a sector begins where the part in front of it ends. -/
theorem sectPart_eq (hpos : 0 < offset + size) (hlt : offset + size < 2 ^ 32)
    (hfirst : firstSect b offset ≤ k) (hlast : k ≤ lastSect b offset size) :
    ∃ sectOffset sectLen, sectPart b offset size (firstSect b offset) (lastSect b offset size) k =
        (sectOffset, sectLen) ∧
      k * b.sectorSize + sectOffset = offset + doneBefore b offset size k ∧
      doneBefore b offset size k + sectLen = doneBefore b offset size (k + 1) ∧
      sectOffset + sectLen ≤ b.sectorSize := by
  obtain ⟨hf, hf'⟩ := firstSect_bounds b offset
  obtain ⟨hl, hl'⟩ := lastSect_bounds b offset size
  have hbehind := sect_eq_or_behind b hfirst
  have hbefore := sect_eq_or_behind b hlast
  have hnext : (k + 1) * b.sectorSize = k * b.sectorSize + b.sectorSize := Nat.succ_mul _ _
  unfold sectPart
  split
  · -- all in one sector
    rename_i hone
    rw [← hone] at hlast hl'
    have hk : k = firstSect b offset := Nat.le_antisymm hlast hfirst
    rw [← hk] at hf hf' hl' ⊢
    rw [doneBefore_of_le hf, doneBefore_of_ge (by omega)]
    refine ⟨_, _, rfl, ?_, Nat.zero_add _, ?_⟩ <;> omega
  rename_i hseveral
  split
  · rename_i hk
    have hin := hbefore.resolve_left fun h => hseveral (hk ▸ h)
    rw [← hk] at hf hf' ⊢
    rw [doneBefore_of_le hf, doneBefore_inside (by omega), hnext]
    refine ⟨_, _, rfl, ?_, ?_, ?_⟩ <;> omega
  rename_i hnotFirst
  have hbehind := hbehind.resolve_left (Ne.symm hnotFirst)
  split
  · rename_i hk
    rw [← hk] at hl hl' ⊢
    have hlen : (offset + size + 2 ^ 32 - k * b.sectorSize) % 2 ^ 32 =
        offset + size - k * b.sectorSize := by omega
    rw [doneBefore_inside (by omega), doneBefore_of_ge (by omega), hlen]
    refine ⟨_, _, rfl, ?_, ?_, ?_⟩ <;> omega
  · rename_i hnotLast
    have hbefore := hbefore.resolve_left hnotLast
    rw [doneBefore_inside (by omega), doneBefore_inside (by omega), hnext]
    refine ⟨_, _, rfl, ?_, ?_, ?_⟩ <;> omega

theorem sect_lt_of_le_lastSect (hpos : 0 < offset + size) (hfit : offset + size ≤ b.nvmLen)
    (hlast : k ≤ lastSect b offset size) : k < b.nvmLen / b.sectorSize := by
  have hmul := b.div_mul
  unfold lastSect at hlast
  generalize b.nvmLen / b.sectorSize = count at *
  rcases b.sectorSize_cases with h | h <;> rw [h] at hmul hlast <;> omega

theorem sect_low (hpos : 0 < offset + size) (hlow : offset + size ≤ 2 ^ 24)
    (hlast : k ≤ lastSect b offset size) : k * b.sectorSize + b.sectorSize ≤ 2 ^ 24 := by
  unfold lastSect at hlast
  rcases b.sectorSize_cases with h | h <;> rw [h] at hlast ⊢ <;> omega

theorem doneBefore_first : doneBefore b offset size (firstSect b offset) = 0 := by
  unfold doneBefore firstSect
  have := Nat.div_mul_le_self offset b.sectorSize
  omega

theorem doneBefore_behind (hpos : 0 < offset + size) :
    doneBefore b offset size (lastSect b offset size + 1) = size := by
  unfold doneBefore lastSect
  rcases b.sectorSize_cases with h | h <;> rw [h] <;> omega

/-- A turn of the loop adds the part of its sector to what is written. -/
theorem rewritten_replaced {done sectOffset sectLen : Nat} (hflash : m.flash = replaced offset buf
      done old) (hlow : k * b.sectorSize + b.sectorSize ≤ 2 ^ 24)
    (hstart : k * b.sectorSize + sectOffset = offset + done)
    (hpart : sectOffset + sectLen ≤ b.sectorSize) :
    rewritten b k sectOffset (fun i => buf (done + i)) sectLen m.flash =
      replaced offset buf (done + sectLen) old := by
  funext a
  rw [rewritten_low hlow hpart, hstart, hflash]
  unfold replaced
  split
  · rw [if_pos (by omega)]
    congr 1
    omega
  · split
    · rw [if_pos (by omega)]
    · rw [if_neg (by omega)]

/-- The loop over the sectors that are left writes the data that is left. -/
theorem programSects_ok (hpos : 0 < offset + size) (hfit : offset + size ≤ b.nvmLen)
    (hlow : offset + size ≤ 2 ^ 24) (hk : firstSect b offset ≤ k)
    (hn : k + n = lastSect b offset size + 1)
    (hm : m.flash = replaced offset buf (doneBefore b offset size k) old) :
    ∃ m', programSects b offset buf size (firstSect b offset) (lastSect b offset size)
        (List.range' k n) m = .ok (0, m') ∧ m'.flash = replaced offset buf size old := by
  induction n generalizing k m with
  | zero =>
    refine ⟨m, rfl, ?_⟩
    rw [hm, (by omega : k = lastSect b offset size + 1), doneBefore_behind hpos]
  | succ n ih =>
    have hlast : k ≤ lastSect b offset size := by omega
    have hlimit := b.lt
    obtain ⟨sectOffset, sectLen, hpart, hstart, hnext, hle⟩ :=
      sectPart_eq hpos (by omega) hk hlast
    have hsrc : (k * b.sectorSize + sectOffset + 2 ^ 32 - offset) % 2 ^ 32 =
        doneBefore b offset size k := by
      have hdone : doneBefore b offset size k ≤ size := Nat.min_le_left _ _
      omega
    obtain ⟨accel, hsector⟩ := @programSector_ok b
      (fun i => buf (doneBefore b offset size k + i)) m k sectOffset sectLen
      (sect_lt_of_le_lastSect hpos hfit hlast) hle
    rw [rewritten_replaced hm (sect_low hpos hlow hlast) hstart hle, hnext] at hsector
    obtain ⟨m', hrest, hflash⟩ :=
      @ih ⟨replaced offset buf (doneBefore b offset size (k + 1)) old, accel⟩ (k + 1) (by omega)
        (by omega) rfl
    refine ⟨m', ?_, hflash⟩
    rw [List.range'_succ, programSects, hpart]
    dsimp only
    rw [hsrc, hsector, ok_bind]
    dsimp only
    rw [if_neg (by simp), hrest]

/-- The loop stores nothing at an address that a command cannot have. -/
theorem programSects_high {sects : List Nat}
    (h : programSects b offset buf size first last sects m = .ok (rv, m')) (ha : 2 ^ 24 ≤ a) :
    m'.flash a = m.flash a := by
  induction sects generalizing m with
  | nil =>
    cases h
    rfl
  | cons sect rest ih =>
    obtain ⟨⟨rv₁, m₁⟩, hsector, h⟩ := bind_eq_ok.mp h
    have hkept := programSector_high hsector ha
    dsimp only at h
    split at h
    · cases h
      exact hkept
    · rw [ih h, hkept]

/-- A sector behind the flash ends the loop. -/
theorem programSects_refused {rest : List Nat} (hsect : b.nvmLen / b.sectorSize ≤ sect) :
    programSects b offset buf size first last (sect :: rest) m = .ok (-22, m) := by
  rw [programSects]
  dsimp only
  rw [programSector_refused hsect]
  rfl

end Loop

/-! ## The write -/

section Write

variable {b : Board} {buf : Contents} {m m' : Mem} {offset size : Nat}

/-- The data would set the bits SEC to something else than unsecure. -/
def Secures (offset : Nat) (buf : Contents) (size : Nat) : Prop :=
  offset ≤ kinetisFlashFsecOffset ∧ kinetisFlashFsecOffset < offset + size ∧
    buf (kinetisFlashFsecOffset - offset) &&& 3 ≠ 2

/-- What `envm_write` is for: a range in the flash is replaced by the data, unless that secures
the chip, and all else is refused. -/
def EnvmOk (b : Board) (offset size : Nat) : Prop :=
  ∀ buf m, ∃ ret m', envmWrite b offset buf size m = .ok (ret, m') ∧
    (offset + size ≤ b.nvmLen ∧ ¬ Secures offset buf size →
      ret = size ∧ ∀ a < b.nvmLen, m'.flash a = replaced offset buf size m.flash a) ∧
    (¬ (offset + size ≤ b.nvmLen ∧ ¬ Secures offset buf size) →
      ret = 0 ∧ ∀ a < b.nvmLen, m'.flash a = m.flash a)

/-- The sum of offset and size does not wrap to an address in the flash; it is zero only for an
offset behind the flash; and a range in the flash that is programmed ends below 16 MiB. -/
def RangeOk (b : Board) (offset size : Nat) : Prop :=
  ((offset + size) % 2 ^ 32 = 0 → b.nvmLen ≤ offset) ∧
    (2 ^ 32 ≤ offset + size → (offset + size) % 2 ^ 32 ≠ 0 →
      b.nvmLen < (offset + size) % 2 ^ 32) ∧
    (offset + size ≤ b.nvmLen → offset + size ≤ 2 ^ 24 ∨ size = 0 ∧ b.sectorSize ∣ offset)

/-- A write that passes the checks is that of `kinetis_flash_program`. -/
theorem envmWrite_checked (hrange : (offset + size) % 2 ^ 32 ≤ b.nvmLen)
    (hsec : ¬ (offset ≤ kinetisFlashFsecOffset ∧
      kinetisFlashFsecOffset < (offset + size) % 2 ^ 32 ∧
      buf (kinetisFlashFsecOffset - offset) &&& 3 ≠ 2)) :
    envmWrite b offset buf size m =
      (programSects b offset buf size (firstSect b offset)
        ((offset + size + 2 ^ 32 - 1) % 2 ^ 32 / b.sectorSize)
        (List.range' (firstSect b offset)
          ((offset + size + 2 ^ 32 - 1) % 2 ^ 32 / b.sectorSize + 1 - firstSect b offset)) m >>=
        fun r => if r.1 < 0 then .ok (0, r.2) else .ok (size, r.2)) := by
  rw [envmWrite, if_neg (by omega), if_neg hsec]
  rfl

theorem lastSect_eq (hpos : 0 < offset + size) (hlt : offset + size < 2 ^ 32) :
    (offset + size + 2 ^ 32 - 1) % 2 ^ 32 / b.sectorSize = lastSect b offset size := by
  have hmod : (offset + size + 2 ^ 32 - 1) % 2 ^ 32 = offset + size - 1 := by omega
  rw [hmod, lastSect]

theorem envmWrite_refused (h : b.nvmLen < (offset + size) % 2 ^ 32) :
    envmWrite b offset buf size m = .ok (0, m) := by
  rw [envmWrite, if_pos h]

theorem envmWrite_secures (hfit : offset + size ≤ b.nvmLen) (h : Secures offset buf size) :
    envmWrite b offset buf size m = .ok (0, m) := by
  have hlimit := b.lt
  unfold Secures at h
  rw [envmWrite, if_neg (by rw [Nat.mod_eq_of_lt (by omega)]; omega),
    if_pos (by rw [Nat.mod_eq_of_lt (by omega)]; exact h)]

/-- An empty sum lets the write begin behind the flash and end there. -/
theorem envmWrite_zero (hzero : (offset + size) % 2 ^ 32 = 0) (hlt : offset < 2 ^ 32)
    (hbehind : b.nvmLen ≤ offset) : envmWrite b offset buf size m = .ok (0, m) := by
  have hfirst : b.nvmLen / b.sectorSize ≤ firstSect b offset := Nat.div_le_div_right hbehind
  have hle : firstSect b offset ≤ (offset + size + 2 ^ 32 - 1) % 2 ^ 32 / b.sectorSize :=
    Nat.div_le_div_right (by omega)
  obtain ⟨n, hn⟩ : ∃ n, (offset + size + 2 ^ 32 - 1) % 2 ^ 32 / b.sectorSize + 1 -
      firstSect b offset = n + 1 :=
    ⟨(offset + size + 2 ^ 32 - 1) % 2 ^ 32 / b.sectorSize - firstSect b offset, by omega⟩
  rw [envmWrite_checked (by omega) (by omega), hn, List.range'_succ, programSects_refused hfirst]
  rfl

theorem envmWrite_replaces (hfit : offset + size ≤ b.nvmLen) (hsec : ¬ Secures offset buf size)
    (hpos : 0 < offset + size)
    (hlow : offset + size ≤ 2 ^ 24 ∨ size = 0 ∧ b.sectorSize ∣ offset) :
    ∃ m', envmWrite b offset buf size m = .ok (size, m') ∧
      m'.flash = replaced offset buf size m.flash := by
  have hlimit := b.lt
  have hmod : (offset + size) % 2 ^ 32 = offset + size := Nat.mod_eq_of_lt (by omega)
  rw [envmWrite_checked (by rw [hmod]; exact hfit) (by rw [hmod]; exact hsec),
    lastSect_eq hpos (by omega)]
  have hnone : replaced offset buf 0 m.flash = m.flash := by
    funext a
    rw [replaced, if_neg (by omega)]
  rcases hlow with hlow | ⟨rfl, haligned⟩
  · by_cases hempty : firstSect b offset ≤ lastSect b offset size
    · obtain ⟨m', hloop, hflash⟩ := @programSects_ok b buf m.flash m offset size
        (firstSect b offset) (lastSect b offset size + 1 - firstSect b offset) hpos hfit hlow
        le_rfl (by omega) (by rw [doneBefore_first, hnone])
      exact ⟨m', by rw [hloop]; rfl, hflash⟩
    · have hsize : size = 0 := by
        unfold firstSect lastSect at hempty
        rcases b.sectorSize_cases with h | h <;> rw [h] at hempty <;> omega
      subst hsize
      rw [(by omega : lastSect b offset 0 + 1 - firstSect b offset = 0), hnone]
      exact ⟨m, rfl, rfl⟩
  · have hempty : lastSect b offset 0 + 1 - firstSect b offset = 0 := by
      unfold firstSect lastSect
      rcases b.sectorSize_cases with h | h <;> rw [h] at haligned ⊢ <;> omega
    rw [hempty, hnone]
    exact ⟨m, rfl, rfl⟩

/-- What a write of an accepted kind does. -/
theorem envmWrite_spec (hoffset : offset < 2 ^ 32) (hsize : size < 2 ^ 32)
    (hok : RangeOk b offset size) :
    ∃ ret m', envmWrite b offset buf size m = .ok (ret, m') ∧
      (offset + size ≤ b.nvmLen ∧ ¬ Secures offset buf size →
        ret = size ∧ m'.flash = replaced offset buf size m.flash) ∧
      (¬ (offset + size ≤ b.nvmLen ∧ ¬ Secures offset buf size) →
        ret = 0 ∧ m'.flash = m.flash) := by
  obtain ⟨hzero, hwrap, hlow⟩ := hok
  have hlimit := b.lt
  by_cases hin : offset + size ≤ b.nvmLen
  · by_cases hsec : Secures offset buf size
    · exact ⟨0, m, envmWrite_secures hin hsec, fun h => absurd hsec h.2, fun _ => ⟨rfl, rfl⟩⟩
    · by_cases hpos : 0 < offset + size
      · obtain ⟨m', heq, hflash⟩ := @envmWrite_replaces b buf m offset size hin hsec hpos (hlow hin)
        exact ⟨size, m', heq, fun _ => ⟨rfl, hflash⟩, fun h => absurd ⟨hin, hsec⟩ h⟩
      · obtain ⟨rfl, rfl⟩ : offset = 0 ∧ size = 0 := by omega
        refine ⟨0, m, envmWrite_zero rfl (by omega) (hzero rfl), fun _ => ⟨rfl, ?_⟩,
          fun _ => ⟨rfl, rfl⟩⟩
        funext a
        rw [replaced, if_neg (by omega)]
  · have hrefused : envmWrite b offset buf size m = .ok (0, m) := by
      by_cases hcheck : b.nvmLen < (offset + size) % 2 ^ 32
      · exact envmWrite_refused hcheck
      · have hend : (offset + size) % 2 ^ 32 = 0 := by
          by_contra hne
          have := hwrap (by omega) hne
          omega
        exact envmWrite_zero hend hoffset (hzero hend)
    exact ⟨0, m, hrefused, fun h => absurd h.1 hin, fun _ => ⟨rfl, rfl⟩⟩

/-! ## The writes that go wrong -/

/-- The middle sectors take a constant buffer as they are. -/
theorem programSects_constant {v : UInt8} {rv : Int} {first last k n p : Nat} (hne : first < last)
    (hk : first < k) (hlast : b.nvmLen / b.sectorSize ≤ last)
    (h : programSects b offset (fun _ => v) size first last (List.range' k n) m = .ok (rv, m'))
    (hp : m.flash p = v) : m'.flash p = v := by
  induction n generalizing k m with
  | zero =>
    cases h
    exact hp
  | succ n ih =>
    rw [List.range'_succ] at h
    by_cases hsect : k < b.nvmLen / b.sectorSize
    · have hpart : sectPart b offset size first last k = (0, b.sectorSize) := by
        rw [sectPart, if_neg (by omega), if_neg (by omega), if_neg (by omega)]
      obtain ⟨accel, hsector⟩ :=
        @programSector_ok b (fun _ => v) m k 0 b.sectorSize hsect (by omega)
      rw [programSects, hpart] at h
      dsimp only at h
      rw [hsector, ok_bind] at h
      dsimp only at h
      rw [if_neg (by simp)] at h
      refine ih (by omega) h ?_
      show rewritten b k 0 (fun _ => v) b.sectorSize m.flash p = v
      unfold rewritten
      split
      · rw [if_pos (by omega)]
      · exact hp
    · rw [programSects_refused (by omega)] at h
      cases h
      exact hp

/-- With an empty sum the flash is overwritten from the offset on. -/
theorem envmWrite_zero_writes {v : UInt8} {ret : Nat} (hzero : (offset + size) % 2 ^ 32 = 0)
    (hin : offset < b.nvmLen)
    (h : envmWrite b offset (fun _ => v) size m = .ok (ret, m')) :
    ∃ a < b.nvmLen, m'.flash a = v := by
  have hlimit := b.lt
  have hmul := b.div_mul
  have hspos := b.sectorSize_pos
  have hdiv := Nat.div_add_mod offset b.sectorSize
  rw [Nat.mul_comm] at hdiv
  have hmod := Nat.mod_lt offset hspos
  have hfirst : firstSect b offset < b.nvmLen / b.sectorSize :=
    Nat.div_lt_div_of_lt_of_dvd b.dvd hin
  have hlast : b.nvmLen / b.sectorSize ≤ (offset + size + 2 ^ 32 - 1) % 2 ^ 32 / b.sectorSize :=
    Nat.div_le_div_right (by omega)
  rw [envmWrite_checked (by omega) (by omega)] at h
  generalize (offset + size + 2 ^ 32 - 1) % 2 ^ 32 / b.sectorSize = last at h hlast
  obtain ⟨⟨rv, m₁⟩, hloop, hret⟩ := bind_eq_ok.mp h
  have hm : m₁ = m' := by
    dsimp only at hret
    split at hret <;> cases hret <;> rfl
  subst hm
  refine ⟨commandAddr b (firstSect b offset) + offset % b.sectorSize, ?_, ?_⟩
  · have hle : commandAddr b (firstSect b offset) ≤ firstSect b offset * b.sectorSize :=
      Nat.mod_le _ _
    unfold firstSect at *
    omega
  · obtain ⟨n, hn⟩ : ∃ n, last + 1 - firstSect b offset = n + 1 :=
      ⟨last - firstSect b offset, by omega⟩
    have hpart : sectPart b offset size (firstSect b offset) last (firstSect b offset) =
        (offset % b.sectorSize, b.sectorSize - offset % b.sectorSize) := by
      have hoff : offset - firstSect b offset * b.sectorSize = offset % b.sectorSize := by
        unfold firstSect
        omega
      rw [sectPart, if_neg (by omega), if_pos rfl, hoff]
    obtain ⟨accel, hsector⟩ := @programSector_ok b (fun _ => v) m (firstSect b offset)
      (offset % b.sectorSize) (b.sectorSize - offset % b.sectorSize) hfirst (by omega)
    rw [hn, List.range'_succ, programSects, hpart] at hloop
    dsimp only at hloop
    rw [hsector, ok_bind] at hloop
    dsimp only at hloop
    rw [if_neg (by simp)] at hloop
    refine programSects_constant (by omega) (by omega) hlast hloop ?_
    show rewritten b _ _ (fun _ => v) _ m.flash _ = v
    rw [rewritten, if_pos (by omega), if_pos (by omega)]

/-- A sum that wraps into the flash is reported as written, or the copy of the data leaves the
acceleration RAM. -/
theorem envmWrite_wrapped (hoffset : offset < 2 ^ 32) (hwrap : 2 ^ 32 ≤ offset + size)
    (hsize : size < 2 ^ 32) (hne : (offset + size) % 2 ^ 32 ≠ 0)
    (hend : (offset + size) % 2 ^ 32 ≤ b.nvmLen) :
    envmWrite b offset buf size m = .ok (size, m) ∨
      ∃ fault, envmWrite b offset buf size m = .error fault := by
  have hlimit := b.lt
  obtain ⟨last, hpast⟩ : ∃ last, offset + size = 2 ^ 32 + last + 1 :=
    ⟨offset + size - 2 ^ 32 - 1, by omega⟩
  have hsum : (offset + size) % 2 ^ 32 = last + 1 := by omega
  have hlast : (offset + size + 2 ^ 32 - 1) % 2 ^ 32 = last := by omega
  rw [hsum] at hne hend
  have hsec : ¬ (offset ≤ kinetisFlashFsecOffset ∧
      kinetisFlashFsecOffset < (offset + size) % 2 ^ 32 ∧
      buf (kinetisFlashFsecOffset - offset) &&& 3 ≠ 2) := by
    rintro ⟨hlo, hhi, -⟩
    rw [hsum] at hhi
    omega
  rw [envmWrite_checked (by rw [hsum]; exact hend) hsec, hlast]
  have hle : last / b.sectorSize ≤ firstSect b offset :=
    Nat.div_le_div_right (by omega)
  rcases hle.lt_or_eq with hlt | heq
  · left
    have hnone : last / b.sectorSize + 1 - firstSect b offset = 0 := by
      omega
    rw [hnone]
    rfl
  · right
    rw [heq, (by omega : firstSect b offset + 1 - firstSect b offset = 0 + 1), List.range'_succ]
    have hsmall : 2 * b.sectorSize ≤ flashProgAccelSize b.type := sectorSize_le_accel b.type
    have haccel := accelSize_lt b.type
    have hfirst : firstSect b offset < b.nvmLen / b.sectorSize := by
      rw [← heq]
      exact (Nat.div_lt_div_of_lt_of_dvd b.dvd (by omega))
    have hpart : sectPart b offset size (firstSect b offset) (firstSect b offset)
        (firstSect b offset) = (offset - firstSect b offset * b.sectorSize, size) := by
      rw [sectPart, if_pos rfl]
    -- The end of the part, which is in the sector of the start.
    have hstart : offset - firstSect b offset * b.sectorSize ≤ b.sectorSize ∧
        (offset - firstSect b offset * b.sectorSize + size) % 2 ^ 32 ≤ b.sectorSize ∧
        2 ^ 32 - b.sectorSize ≤ size := by
      unfold firstSect at *
      rcases b.sectorSize_cases with h | h <;> rw [h] at heq ⊢ <;> omega
    rw [programSects, hpart]
    dsimp only
    generalize offset - firstSect b offset * b.sectorSize = sectOffset at hstart
    rw [kinetisFlashProgramSector, if_neg (by omega), if_neg (by omega)]
    obtain ⟨accel₁, heq₁, -⟩ :=
      @saveBefore_ok b m.flash m.accel (firstSect b offset) sectOffset hstart.1
    obtain ⟨accel₂, heq₂, -, -⟩ := @saveAfter_ok b m.flash accel₁ (firstSect b offset)
      ((sectOffset + size) % 2 ^ 32) hstart.2.1
    obtain ⟨fault, hfault⟩ := @memcpyRamcode_fault b (fun i => buf ((firstSect b offset *
      b.sectorSize + sectOffset + 2 ^ 32 - offset) % 2 ^ 32 + i)) accel₂ sectOffset 0 size
      (by omega) (by omega)
    refine ⟨fault, ?_⟩
    rw [heq₁, ok_bind, heq₂, ok_bind, hfault]
    rfl

/-- Nothing is stored at or behind 16 MiB. -/
theorem envmWrite_high {ret a : Nat} (h : envmWrite b offset buf size m = .ok (ret, m'))
    (ha : 2 ^ 24 ≤ a) : m'.flash a = m.flash a := by
  unfold envmWrite at h
  split at h
  · cases h
    rfl
  · split at h
    · cases h
      rfl
    · obtain ⟨⟨rv, m₁⟩, hloop, hret⟩ := bind_eq_ok.mp h
      have hkept := programSects_high hloop ha
      dsimp only at hret
      split at hret <;> cases hret <;> exact hkept

/-- A write of no byte rewrites its sector, at the address that the commands get. -/
theorem envmWrite_empty (hfit : offset ≤ b.nvmLen) (hodd : ¬ b.sectorSize ∣ offset) :
    ∃ m', envmWrite b offset buf 0 m = .ok (0, m') ∧
      m'.flash (commandAddr b (firstSect b offset)) =
        m.flash (firstSect b offset * b.sectorSize) := by
  have hlimit := b.lt
  have hspos := b.sectorSize_pos
  have hmod : (offset + 0) % 2 ^ 32 = offset := Nat.mod_eq_of_lt (by omega)
  have hpos : 0 < offset := by
    rcases Nat.eq_zero_or_pos offset with rfl | h
    · exact absurd (Nat.dvd_zero _) hodd
    · exact h
  have hin : offset < b.nvmLen := by
    rcases hfit.lt_or_eq with h | rfl
    · exact h
    · exact absurd b.dvd hodd
  have hsame : lastSect b offset 0 = firstSect b offset := by
    unfold lastSect firstSect
    rcases b.sectorSize_cases with h | h <;> rw [h] at hodd ⊢ <;> omega
  have hpart : sectPart b offset 0 (firstSect b offset) (firstSect b offset)
      (firstSect b offset) = (offset - firstSect b offset * b.sectorSize, 0) := by
    rw [sectPart, if_pos rfl]
  have hstart : offset - firstSect b offset * b.sectorSize + 0 ≤ b.sectorSize := by
    unfold firstSect
    rcases b.sectorSize_cases with h | h <;> rw [h] <;> omega
  obtain ⟨m', hsector, hflash⟩ : ∃ m', kinetisFlashProgramSector b (firstSect b offset)
      (offset - firstSect b offset * b.sectorSize) (fun i => buf ((firstSect b offset *
        b.sectorSize + (offset - firstSect b offset * b.sectorSize) + 2 ^ 32 - offset) % 2 ^ 32 +
        i)) 0 m = .ok (0, m') ∧ m'.flash (commandAddr b (firstSect b offset)) =
      m.flash (firstSect b offset * b.sectorSize) := by
    have hfirst : firstSect b offset < b.nvmLen / b.sectorSize :=
      Nat.div_lt_div_of_lt_of_dvd b.dvd hin
    obtain ⟨accel, hsector⟩ := programSector_ok hfirst hstart
    refine ⟨_, hsector, ?_⟩
    dsimp only
    rw [rewritten, if_pos (by omega), if_neg (by omega), Nat.sub_self, Nat.add_zero]
  refine ⟨m', ?_, hflash⟩
  rw [envmWrite_checked (by rw [hmod]; exact hfit) (by rw [hmod]; omega),
    @lastSect_eq b offset 0 (by omega) (by omega), hsame,
    (by omega : firstSect b offset + 1 - firstSect b offset = 0 + 1), List.range'_succ,
    programSects, hpart]
  dsimp only
  rw [hsector]
  rfl

theorem rangeOk_of_envmOk (hoffset : offset < 2 ^ 32) (hsize : size < 2 ^ 32)
    (hok : EnvmOk b offset size) : RangeOk b offset size := by
  have hlimit := b.lt
  refine ⟨?_, ?_, ?_⟩
  · intro hzero
    by_contra hin
    obtain ⟨ret, m', heq, hwritten, hrefused⟩ := hok (fun _ => 0xFE) ⟨fun _ => 0, fun _ => 0⟩
    obtain ⟨a, ha, hvalue⟩ := envmWrite_zero_writes hzero (by omega) heq
    have hkept : m'.flash a = 0 := by
      by_cases hfit : offset + size ≤ b.nvmLen ∧ ¬ Secures offset (fun _ => 0xFE) size
      · rw [(hwritten hfit).2 a ha, replaced, if_neg (by omega)]
      · exact (hrefused hfit).2 a ha
    rw [hvalue] at hkept
    exact absurd hkept (by decide)
  · intro hwrap hne
    by_contra hend
    obtain ⟨ret, m', heq, -, hrefused⟩ := hok (fun _ => 0) ⟨fun _ => 0, fun _ => 0⟩
    have hret := (hrefused fun h => by omega).1
    rcases @envmWrite_wrapped b (fun _ => 0) ⟨fun _ => 0, fun _ => 0⟩ offset size hoffset hwrap
      hsize hne (by omega) with hwrite | ⟨fault, hfault⟩
    · rw [hwrite] at heq
      cases heq
      omega
    · rw [hfault] at heq
      cases heq
  · intro hfit
    by_contra hcond
    by_cases hpos : size = 0
    · subst hpos
      have hodd : ¬ b.sectorSize ∣ offset := fun h => hcond (Or.inr ⟨rfl, h⟩)
      -- A flash whose upper part differs from the lower one.
      let m : Mem := ⟨fun a => if a < 2 ^ 24 then 0 else 0xFE, fun _ => 0⟩
      obtain ⟨m₁, heq₁, hvalue⟩ := @envmWrite_empty b (fun _ => 0) m offset hfit hodd
      obtain ⟨ret, m', heq, hwritten, -⟩ := hok (fun _ => 0) m
      rw [heq₁] at heq
      cases heq
      have haddr := @commandAddr_add_le b (firstSect b offset)
      have hspos := b.sectorSize_pos
      have hsec : ¬ Secures offset (fun _ => 0) 0 := fun h => by
        have hlo := h.1
        have hhi := h.2.1
        omega
      have hkept := (hwritten ⟨hfit, hsec⟩).2 (commandAddr b (firstSect b offset)) (by omega)
      have hhigh : ¬ firstSect b offset * b.sectorSize < 2 ^ 24 := by
        unfold firstSect
        rcases b.sectorSize_cases with h | h <;> rw [h] at hodd ⊢ <;> omega
      have hnew : m₁.flash (commandAddr b (firstSect b offset)) = 0xFE := by
        rw [hvalue]
        exact if_neg hhigh
      have hold : replaced offset (fun _ => 0) 0 m.flash (commandAddr b (firstSect b offset)) =
          0 := by
        rw [replaced, if_neg (by omega)]
        exact if_pos (by omega)
      rw [hnew, hold] at hkept
      exact absurd hkept (by decide)
    · obtain ⟨ret, m', heq, hwritten, -⟩ := hok (fun _ => 0xFE) ⟨fun _ => 0, fun _ => 0⟩
      have hkept := @envmWrite_high b (fun _ => 0xFE) _ m' offset size ret (offset + size - 1) heq
        (by omega)
      have hsec : ¬ Secures offset (fun _ => 0xFE) size := fun h =>
        h.2.2 (show (0xFE : UInt8) &&& 3 = 2 by decide)
      have hnew := (hwritten ⟨hfit, hsec⟩).2 (offset + size - 1) (by omega)
      rw [hkept, replaced, if_pos (by omega)] at hnew
      exact absurd (show (0 : UInt8) = 0xFE from hnew) (by decide)

/-- A call of `envm_write`. -/
structure Call where
  offset : Nat
  buf : Contents
  size : Nat
  offset_lt : offset < 2 ^ 32
  size_lt : size < 2 ^ 32

/-- A call that returns. -/
def Step (b : Board) (m : Mem) (c : Call) (m' : Mem) : Prop :=
  ∃ ret, envmWrite b c.offset c.buf c.size m = .ok (ret, m')

/-- The byte that is loaded into FSEC leaves the chip unsecure. -/
def Unsecure (m : Mem) : Prop := m.flash kinetisFlashFsecOffset &&& 3 = 2

theorem Step.unsecure {c : Call} (hm : Unsecure m) (hok : RangeOk b c.offset c.size)
    (hstep : Step b m c m') : Unsecure m' := by
  obtain ⟨ret, heq⟩ := hstep
  obtain ⟨ret', m₁, heq₁, hwritten, hrefused⟩ :=
    @envmWrite_spec b c.buf m c.offset c.size c.offset_lt c.size_lt hok
  rw [heq₁] at heq
  cases heq
  unfold Unsecure at *
  by_cases hfit : c.offset + c.size ≤ b.nvmLen ∧ ¬ Secures c.offset c.buf c.size
  · rw [(hwritten hfit).2, replaced]
    split
    · rename_i hin
      by_contra hbits
      exact hfit.2 ⟨hin.1, hin.2, hbits⟩
    · exact hm
  · rw [(hrefused hfit).2]
    exact hm

/-- `envm_write` does what it is for exactly for the ranges above, and calls with such ranges
never secure the chip. -/
theorem envmWrite_replaces_iff (b : Board) :
    (∀ offset size, offset < 2 ^ 32 → size < 2 ^ 32 →
      (EnvmOk b offset size ↔ RangeOk b offset size)) ∧
    ∀ m m' calls, Run (Step b) m calls m' →
      (∀ call ∈ calls, RangeOk b call.2.offset call.2.size) → Unsecure m → Unsecure m' := by
  constructor
  · intro offset size hoffset hsize
    constructor
    · exact rangeOk_of_envmOk hoffset hsize
    · intro hok buf m
      obtain ⟨ret, m', heq, hwritten, hrefused⟩ := @envmWrite_spec b buf m _ _ hoffset hsize hok
      refine ⟨ret, m', heq, fun h => ⟨(hwritten h).1, fun a _ => ?_⟩,
        fun h => ⟨(hrefused h).1, fun a _ => ?_⟩⟩
      · rw [(hwritten h).2]
      · rw [(hrefused h).2]
  · intro m m' calls hrun hok hm
    exact hrun.invariant Unsecure (fun _ c => RangeOk b c.offset c.size)
      (fun hs hc hstep => hstep.unsecure hs hc) hm hok

/-- The K60 with 512 KiB of flash. -/
def k60Board : Board := ⟨.k60, 512 * 1024, by decide, by decide⟩

theorem envmWrite_replaces_conf : RangeOk k60Board 0x400 16 ∧ EnvmOk k60Board 0x400 16 ∧
    ∃ calls m', calls ≠ [] ∧ Run (Step k60Board) ⟨fun _ => 0xFE, fun _ => 0⟩ calls m' ∧
      Unsecure m' := by
  have hok : RangeOk k60Board 0x400 16 := ⟨by decide, by decide, fun _ => Or.inl (by decide)⟩
  have hwrite : EnvmOk k60Board 0x400 16 :=
    ((envmWrite_replaces_iff k60Board).1 0x400 16 (by decide) (by decide)).mpr hok
  obtain ⟨ret, m', heq, -⟩ := hwrite (fun _ => 0xFE) ⟨fun _ => 0xFE, fun _ => 0⟩
  let call : Call := ⟨0x400, fun _ => 0xFE, 16, by decide, by decide⟩
  have hrun : Run (Step k60Board) ⟨fun _ => 0xFE, fun _ => 0⟩
      [(⟨fun _ => 0xFE, fun _ => 0⟩, call)] m' := Run.tail Run.refl ⟨ret, heq⟩
  refine ⟨hok, hwrite, _, m', List.cons_ne_nil _ _, hrun, ?_⟩
  refine (envmWrite_replaces_iff k60Board).2 _ _ _ hrun ?_ (by unfold Unsecure; decide)
  intro p hp
  rw [List.mem_singleton.mp hp]
  exact hok

/-- A write of no byte to the start of the flash overwrites all of it. -/
theorem envmWrite_not_replaces : ¬ EnvmOk k60Board 0 0 := by
  intro hok
  exact absurd ((rangeOk_of_envmOk (by decide) (by decide) hok).1 rfl) (by decide)

end Write

end UBoot.Cpu.Kinetis
