import UBoot.Lib.Blocks
import Mathlib.Data.Nat.ModEq

/-!
# Reading from an SD card

`drivers/mmc/stm32f10x_sdcard.c` and `drivers/mmc/stm32f10x_mmc.c`, as far as they decide what a
read of blocks delivers: the capacity and the block size from the CSD register, the check of the
arguments, the argument of the read command and the DMA transfer.

The card is an array of bytes.  Its commands take a byte address, or on a high capacity card the
number of a block of 512 bytes, and succeed where the range is on the card.  The DMA channel
moves as many words as its counter of 16 bits holds, and with a counter of 0 it does not come to
an end, for which the result is `none`.

* `mmcReadBlock_ok_iff`: the reads are right for cards below 4 GiB, of blocks of 512 bytes or
  from block 0 on, with less than 256 KiB in one transfer.
-/

namespace UBoot.Drivers

open UBoot.Lib

/-- `CardType`, for the cards that are looked at here. -/
inductive CardType where
  | stdCapacityV1
  | stdCapacityV2
  | highCapacity
  deriving DecidableEq, Repr

/-! ## The CSD register -/

/-- `CSD_Tab[i]`, of the register as a number of 128 bits. -/
def csdTab (csd i : Nat) : Nat := csd / 2 ^ (96 - 32 * i) % 2 ^ 32

/-- `tmp` for byte `k` of the register: `CSD_Tab[k / 4]` with the mask and the shift of its
byte. -/
def csdByte (csd k : Nat) : Nat := csdTab csd (k / 4) >>> (24 - 8 * (k % 4)) &&& 0xFF

/-- The fields of `SD_CardInfo` that are used. -/
structure SdCardInfo where
  cardCapacity : Nat
  cardBlockSize : Nat
  deriving DecidableEq, Repr

/-- `SD_csd.DeviceSize` of a standard card -/
def deviceSize (csd : Nat) : Nat :=
  (csdByte csd 6 &&& 0x03) <<< 10 ||| csdByte csd 7 <<< 2 ||| (csdByte csd 8 &&& 0xC0) >>> 6

/-- `SD_csd.DeviceSizeMul` -/
def deviceSizeMul (csd : Nat) : Nat :=
  (csdByte csd 9 &&& 0x03) <<< 1 ||| (csdByte csd 10 &&& 0x80) >>> 7

/-- `SD_csd.RdBlockLen` -/
def rdBlockLen (csd : Nat) : Nat := csdByte csd 5 &&& 0x0F

/-- `SD_csd.DeviceSize` of a high capacity card -/
def deviceSizeHc (csd : Nat) : Nat :=
  (csdByte csd 7 &&& 0x3F) <<< 16 ||| csdByte csd 8 <<< 8 ||| csdByte csd 9

/-- `SD_GetCardInfo` -/
def sdGetCardInfo (type : CardType) (csd : Nat) : SdCardInfo :=
  match type with
  | .highCapacity =>
    { cardCapacity := (deviceSizeHc csd + 1) * 512 * 1024 % 2 ^ 32
      cardBlockSize := 512 }
  | _ =>
    let capacity := (deviceSize csd + 1) % 2 ^ 32
    let capacity := capacity * (1 <<< (deviceSizeMul csd + 2)) % 2 ^ 32
    let blockSize := 1 <<< rdBlockLen csd
    { cardCapacity := capacity * blockSize % 2 ^ 32
      cardBlockSize := blockSize }

/-- The bits `hi` to `lo` of the register. -/
def csdField (csd hi lo : Nat) : Nat := csd / 2 ^ lo % 2 ^ (hi + 1 - lo)

/-- The capacity of a card, as the register says it: `C_SIZE`, `C_SIZE_MULT` and
`READ_BL_LEN`. -/
def capacity (type : CardType) (csd : Nat) : Nat :=
  match type with
  | .highCapacity => (csdField csd 69 48 + 1) * 512 * 1024
  | _ => (csdField csd 73 62 + 1) * 2 ^ (csdField csd 49 47 + 2) * 2 ^ csdField csd 83 80

section Csd

variable {csd k : Nat}

/-- Bits below a shifted number. -/
theorem or_low {a b n : Nat} (hb : b < 2 ^ n) : a * 2 ^ n ||| b = a * 2 ^ n + b := by
  rw [← Nat.shiftLeft_eq, Nat.shiftLeft_add_eq_or_of_lt hb]

theorem csdByte_eq (hk : k < 16) : csdByte csd k = csd / 2 ^ (120 - 8 * k) % 2 ^ 8 := by
  have hsum : 96 - 32 * (k / 4) + (24 - 8 * (k % 4)) = 120 - 8 * k := by omega
  have hwidth : 32 = 24 - 8 * (k % 4) + (8 + 8 * (k % 4)) := by omega
  have hword (x : Nat) : x % 2 ^ 32 / 2 ^ (24 - 8 * (k % 4)) % 2 ^ 8 =
      x / 2 ^ (24 - 8 * (k % 4)) % 2 ^ 8 := by
    conv_lhs => rw [hwidth]
    rw [pow_add, Nat.mod_mul_right_div_self]
    exact Nat.mod_mod_of_dvd _ (pow_dvd_pow 2 (by omega))
  rw [csdByte, show (0xFF : Nat) = 2 ^ 8 - 1 by rfl, Nat.and_two_pow_sub_one_eq_mod,
    Nat.shiftRight_eq_div_pow, csdTab, hword, Nat.div_div_eq_div_mul, ← pow_add, hsum]

theorem rdBlockLen_eq (csd : Nat) : rdBlockLen csd = csdField csd 83 80 := by
  rw [rdBlockLen, csdByte_eq (by decide), show (0x0F : Nat) = 2 ^ 4 - 1 by rfl,
    Nat.and_two_pow_sub_one_eq_mod, csdField]
  omega

/-- The parts of `C_SIZE` in its three bytes. -/
theorem deviceSize_eq (csd : Nat) : deviceSize csd = csdField csd 73 62 := by
  have hhigh : csdByte csd 6 &&& 0x03 = csd / 2 ^ 72 % 2 ^ 2 := by
    rw [csdByte_eq (by decide), show (0x03 : Nat) = 2 ^ 2 - 1 by rfl,
      Nat.and_two_pow_sub_one_eq_mod]
    omega
  have hlow : (csdByte csd 8 &&& 0xC0) >>> 6 = csd / 2 ^ 62 % 2 ^ 2 := by
    rw [Nat.shiftRight_and_distrib, csdByte_eq (by decide),
      show (0xC0 >>> 6 : Nat) = 2 ^ 2 - 1 by rfl, Nat.and_two_pow_sub_one_eq_mod,
      Nat.shiftRight_eq_div_pow]
    omega
  have hmid : csdByte csd 7 = csd / 2 ^ 64 % 2 ^ 8 := csdByte_eq (by decide)
  rw [deviceSize, hhigh, hlow, hmid, Nat.shiftLeft_eq, Nat.shiftLeft_eq, or_low (by omega)]
  have hsum : csd / 2 ^ 72 % 2 ^ 2 * 2 ^ 10 + csd / 2 ^ 64 % 2 ^ 8 * 2 ^ 2 =
      (csd / 2 ^ 72 % 2 ^ 2 * 2 ^ 8 + csd / 2 ^ 64 % 2 ^ 8) * 2 ^ 2 := by
    omega
  rw [hsum, or_low (by omega), csdField]
  omega

theorem deviceSizeMul_eq (csd : Nat) : deviceSizeMul csd = csdField csd 49 47 := by
  have hhigh : csdByte csd 9 &&& 0x03 = csd / 2 ^ 48 % 2 ^ 2 := by
    rw [csdByte_eq (by decide), show (0x03 : Nat) = 2 ^ 2 - 1 by rfl,
      Nat.and_two_pow_sub_one_eq_mod]
    omega
  have hlow : (csdByte csd 10 &&& 0x80) >>> 7 = csd / 2 ^ 47 % 2 ^ 1 := by
    rw [Nat.shiftRight_and_distrib, csdByte_eq (by decide),
      show (0x80 >>> 7 : Nat) = 2 ^ 1 - 1 by rfl, Nat.and_two_pow_sub_one_eq_mod,
      Nat.shiftRight_eq_div_pow]
    omega
  rw [deviceSizeMul, hhigh, hlow, Nat.shiftLeft_eq, or_low (by omega), csdField]
  omega

theorem deviceSizeHc_eq (csd : Nat) : deviceSizeHc csd = csdField csd 69 48 := by
  have hjoin (q : Nat) : (q / 2 ^ 16 % 2 ^ 6 * 2 ^ 8 + q / 2 ^ 8 % 2 ^ 8) * 2 ^ 8 + q % 2 ^ 8 =
      q % 2 ^ 22 := by
    omega
  have hsum (q : Nat) : q / 2 ^ 16 % 2 ^ 6 * 2 ^ 16 + q / 2 ^ 8 % 2 ^ 8 * 2 ^ 8 =
      (q / 2 ^ 16 % 2 ^ 6 * 2 ^ 8 + q / 2 ^ 8 % 2 ^ 8) * 2 ^ 8 := by
    omega
  have hhigh : csdByte csd 7 &&& 0x3F = csd / 2 ^ 48 / 2 ^ 16 % 2 ^ 6 := by
    rw [csdByte_eq (by decide), show (0x3F : Nat) = 2 ^ 6 - 1 by rfl,
      Nat.and_two_pow_sub_one_eq_mod]
    omega
  have hmid : csdByte csd 8 = csd / 2 ^ 48 / 2 ^ 8 % 2 ^ 8 := by
    rw [csdByte_eq (by decide)]
    omega
  have hlow : csdByte csd 9 = csd / 2 ^ 48 % 2 ^ 8 := csdByte_eq (by decide)
  have hfield : csdField csd 69 48 = csd / 2 ^ 48 % 2 ^ 22 := rfl
  rw [deviceSizeHc, hhigh, hmid, hlow, hfield, Nat.shiftLeft_eq, Nat.shiftLeft_eq,
    or_low (by omega), hsum, or_low (by omega), hjoin]

/-- The capacity is kept in 32 bits. -/
theorem sdGetCardInfo_capacity (type : CardType) (csd : Nat) :
    (sdGetCardInfo type csd).cardCapacity = capacity type csd % 2 ^ 32 := by
  have hstd : (deviceSize csd + 1) % 2 ^ 32 * (1 <<< (deviceSizeMul csd + 2)) % 2 ^ 32 *
      (1 <<< rdBlockLen csd) % 2 ^ 32 = (csdField csd 73 62 + 1) * 2 ^ (csdField csd 49 47 + 2) *
        2 ^ csdField csd 83 80 % 2 ^ 32 := by
    rw [Nat.mod_mul_mod, Nat.mul_assoc, Nat.mod_mul_mod, ← Nat.mul_assoc, deviceSize_eq,
      deviceSizeMul_eq, rdBlockLen_eq, Nat.shiftLeft_eq, Nat.shiftLeft_eq, Nat.one_mul, Nat.one_mul]
  cases type with
  | stdCapacityV1 => exact hstd
  | stdCapacityV2 => exact hstd
  | highCapacity => rw [sdGetCardInfo, deviceSizeHc_eq, capacity]

end Csd

/-! ## The driver -/

/-- The errors that a read can end with here. -/
inductive SdError where
  | ok
  | lockUnlockFailed
  | invalidParameter
  | addrOutOfRange
  deriving DecidableEq, Repr

/-- A card, with `SD_CARD_LOCKED` of its last response. -/
structure Card where
  type : CardType
  csd : Nat
  locked : Bool
  contents : Contents

/-- A read command: the address of the bytes that the card sends, if they are on it. -/
def Card.read (card : Card) (arg len : Nat) : Option Nat :=
  let pos := if card.type = .highCapacity then arg * 512 else arg
  if pos + len ≤ capacity card.type card.csd then some pos else none

/-- `DMA_RxConfiguration` and the wait for the end of the transfer. -/
def dmaRx (contents : Contents) (pos bufferSize : Nat) (buf : Contents) : Option Contents :=
  let counter := bufferSize / 4 % 2 ^ 16
  if counter = 0 then none else some (storeAt buf 0 (readAt contents pos (4 * counter)))

/-- `SD_MAX_DATA_LENGTH` -/
def sdMaxDataLength : Nat := 0x01FFFFFF

/-- What the two reads begin with: the checks, and the block size and the argument of the
command. -/
def sdPrepare (card : Card) (addr blockSize : Nat) : Except SdError (Nat × Nat) :=
  if card.locked then .error .lockUnlockFailed
  else
    let p := if card.type = .highCapacity then (512, addr / 512) else (blockSize, addr)
    if 0 < p.1 ∧ p.1 ≤ 2048 ∧ p.1 &&& (p.1 - 1) = 0 then .ok p else .error .invalidParameter

/-- `SD_ReadBlock` -/
def sdReadBlock (card : Card) (addr : Nat) (buf : Contents) (blockSize : Nat) :
    Option (SdError × Contents) :=
  match sdPrepare card addr blockSize with
  | .error e => some (e, buf)
  | .ok (blockSize, addr) =>
    match card.read addr blockSize with
    | none => some (.addrOutOfRange, buf)
    | some pos => (dmaRx card.contents pos blockSize buf).map (SdError.ok, ·)

/-- `SD_ReadMultiBlocks` -/
def sdReadMultiBlocks (card : Card) (addr : Nat) (buf : Contents)
    (blockSize numberOfBlocks : Nat) : Option (SdError × Contents) :=
  match sdPrepare card addr blockSize with
  | .error e => some (e, buf)
  | .ok (blockSize, addr) =>
    let length := numberOfBlocks * blockSize % 2 ^ 32
    if 1 < numberOfBlocks then
      if sdMaxDataLength < length then some (.invalidParameter, buf)
      else
        match card.read addr length with
        | none => some (.addrOutOfRange, buf)
        | some pos => (dmaRx card.contents pos length buf).map (SdError.ok, ·)
    else some (.ok, buf)

/-- The fields of `mmc_blkdev` that a read depends on. -/
structure BlkDev where
  lba : Nat
  blksz : Nat
  deriving DecidableEq, Repr

/-- `mmc_legacy_init`: what it publishes if `SD_Init`, `SD_SelectDeselect` and
`SD_EnableWideBusOperation` return `SD_OK`. -/
def mmcLegacyInit (sdInit select wideBus : Bool) (type : CardType) (csd : Nat) : Option BlkDev :=
  if sdInit && select && wideBus then
    let info := sdGetCardInfo type csd
    some ⟨info.cardCapacity / info.cardBlockSize, info.cardBlockSize⟩
  else none

/-- `mmc_read_block`: the return value and the buffer. -/
def mmcReadBlock (dev : BlkDev) (card : Card) (start blkcnt : Nat) (buf : Contents) :
    Option (Nat × Contents) :=
  let r :=
    if blkcnt = 1 then sdReadBlock card (start <<< 9 % 2 ^ 32) buf (dev.blksz % 2 ^ 16)
    else sdReadMultiBlocks card (start <<< 9 % 2 ^ 32) buf (dev.blksz % 2 ^ 16) blkcnt
  r.map fun (status, buf) => (if status = .ok then blkcnt else 0, buf)

/-! ## The published device -/

section Device

variable {type : CardType} {csd start blkcnt : Nat} {locked : Bool} {contents buf : Contents}

/-- The size of a block: `READ_BL_LEN`, or 512 bytes. -/
def blockLen (type : CardType) (csd : Nat) : Nat :=
  match type with
  | .highCapacity => 512
  | _ => 2 ^ csdField csd 83 80

/-- The number of blocks of a card. -/
def blockCount (type : CardType) (csd : Nat) : Nat :=
  match type with
  | .highCapacity => (csdField csd 69 48 + 1) * 1024
  | _ => (csdField csd 73 62 + 1) * 2 ^ (csdField csd 49 47 + 2)

theorem capacity_eq (type : CardType) (csd : Nat) :
    capacity type csd = blockCount type csd * blockLen type csd := by
  cases type with
  | stdCapacityV1 => rfl
  | stdCapacityV2 => rfl
  | highCapacity =>
    unfold capacity blockCount blockLen
    dsimp only
    omega

theorem sdGetCardInfo_blockSize (type : CardType) (csd : Nat) :
    (sdGetCardInfo type csd).cardBlockSize = blockLen type csd := by
  have hstd : 1 <<< rdBlockLen csd = 2 ^ csdField csd 83 80 := by
    rw [Nat.shiftLeft_eq, Nat.one_mul, rdBlockLen_eq]
  cases type with
  | stdCapacityV1 => exact hstd
  | stdCapacityV2 => exact hstd
  | highCapacity => rfl

theorem csdField_lt (csd hi lo : Nat) : csdField csd hi lo < 2 ^ (hi + 1 - lo) :=
  Nat.mod_lt _ (Nat.two_pow_pos _)

/-- The block size is a power of two of at most 32 KiB. -/
theorem blockLen_eq_pow (type : CardType) (csd : Nat) :
    ∃ k ≤ 15, blockLen type csd = 2 ^ k := by
  have hlen := csdField_lt csd 83 80
  cases type with
  | stdCapacityV1 => exact ⟨_, Nat.le_of_lt_succ hlen, rfl⟩
  | stdCapacityV2 => exact ⟨_, Nat.le_of_lt_succ hlen, rfl⟩
  | highCapacity => exact ⟨9, by decide, rfl⟩

/-- The byte address of a block below 4 GiB has 32 bits. -/
theorem blockCount_le (hfit : capacity type csd < 2 ^ 32) : blockCount type csd * 512 < 2 ^ 32 := by
  have hstd : (csdField csd 73 62 + 1) * 2 ^ (csdField csd 49 47 + 2) * 512 < 2 ^ 32 := by
    have hsize := csdField_lt csd 73 62
    have hmul := csdField_lt csd 49 47
    have hpow : 2 ^ (csdField csd 49 47 + 2) ≤ 2 ^ 9 :=
      Nat.pow_le_pow_right (by decide) (by omega)
    calc (csdField csd 73 62 + 1) * 2 ^ (csdField csd 49 47 + 2) * 512
        ≤ 2 ^ 12 * 2 ^ 9 * 512 := by gcongr; omega
      _ < 2 ^ 32 := by decide
  cases type with
  | stdCapacityV1 => exact hstd
  | stdCapacityV2 => exact hstd
  | highCapacity =>
    rw [capacity_eq] at hfit
    exact hfit

/-- The product of the published numbers is the capacity exactly for cards below 4 GiB. -/
theorem lba_mul_blksz {sdInit select wideBus : Bool} {dev : BlkDev}
    (h : mmcLegacyInit sdInit select wideBus type csd = some dev) :
    dev.blksz = blockLen type csd ∧
      (dev.lba * dev.blksz = capacity type csd ↔ capacity type csd < 2 ^ 32) ∧
      (capacity type csd < 2 ^ 32 → dev.lba = blockCount type csd) := by
  unfold mmcLegacyInit at h
  split at h
  · cases h
    dsimp only
    obtain ⟨k, -, hk⟩ := blockLen_eq_pow type csd
    have hpos : 0 < blockLen type csd := by
      rw [hk]
      exact Nat.two_pow_pos k
    rw [sdGetCardInfo_blockSize, sdGetCardInfo_capacity]
    refine ⟨rfl, ⟨?_, ?_⟩, ?_⟩
    · intro heq
      rw [← heq]
      exact (Nat.div_mul_le_self _ _).trans_lt (Nat.mod_lt _ (by decide))
    · intro hlt
      rw [Nat.mod_eq_of_lt hlt, capacity_eq, Nat.mul_div_cancel _ hpos]
    · intro hlt
      rw [Nat.mod_eq_of_lt hlt, capacity_eq, Nat.mul_div_cancel _ hpos]
  · cases h

end Device

/-! ## Reads -/

section Read

variable {type : CardType} {csd start blkcnt : Nat} {locked : Bool} {contents buf : Contents}
  {dev : BlkDev}

/-- The read is carried out: the driver does not refuse it, and the bytes that the command asks
for are on the card. -/
structure Accepted (type : CardType) (csd : Nat) (locked : Bool) (start blkcnt : Nat) : Prop where
  unlocked : locked = false
  blockLen_le : blockLen type csd ≤ 2048
  length_le : blkcnt = 1 ∨ blkcnt * blockLen type csd ≤ sdMaxDataLength
  on_card : start * 512 + blkcnt * blockLen type csd ≤ capacity type csd

instance : Decidable (Accepted type csd locked start blkcnt) :=
  decidable_of_iff (locked = false ∧ blockLen type csd ≤ 2048 ∧
      (blkcnt = 1 ∨ blkcnt * blockLen type csd ≤ sdMaxDataLength) ∧
      start * 512 + blkcnt * blockLen type csd ≤ capacity type csd)
    ⟨fun h => ⟨h.1, h.2.1, h.2.2.1, h.2.2.2⟩, fun h => ⟨h.1, h.2, h.3, h.4⟩⟩

/-- The command is for the byte address `start * 512`, whatever the block size. -/
theorem read_eq (card : Card) {n : Nat} :
    card.read (if card.type = .highCapacity then start * 512 / 512 else start * 512) n =
      if start * 512 + n ≤ capacity card.type card.csd then some (start * 512) else none := by
  unfold Card.read
  by_cases htype : card.type = .highCapacity
  · simp only [if_pos htype, Nat.mul_div_cancel _ (show 0 < 512 by decide)]
  · simp only [if_neg htype]

theorem sdPrepare_eq (card : Card) : sdPrepare card (start * 512) (blockLen card.type card.csd) =
    if card.locked then .error .lockUnlockFailed
    else if blockLen card.type card.csd ≤ 2048 then
      .ok (blockLen card.type card.csd,
        if card.type = .highCapacity then start * 512 / 512 else start * 512)
    else .error .invalidParameter := by
  have hpair : (if card.type = .highCapacity then (512, start * 512 / 512)
      else (blockLen card.type card.csd, start * 512)) = (blockLen card.type card.csd,
        if card.type = .highCapacity then start * 512 / 512 else start * 512) := by
    split
    · rename_i htype
      rw [htype]
      rfl
    · rfl
  obtain ⟨k, -, hk⟩ := blockLen_eq_pow card.type card.csd
  have hpos : 0 < blockLen card.type card.csd := by
    rw [hk]
    exact Nat.two_pow_pos k
  have hpow : blockLen card.type card.csd &&& (blockLen card.type card.csd - 1) = 0 := by
    rw [hk, Nat.and_two_pow_sub_one_eq_mod, Nat.mod_self]
  unfold sdPrepare
  rw [hpair]
  simp only [hpos, hpow, true_and, and_true]

/-- Both reads end in a transfer if they are accepted, and leave the buffer if not. -/
def ReadsTo (type : CardType) (csd : Nat) (locked : Bool) (contents : Contents)
    (start blkcnt : Nat) (buf : Contents) (r : Option (SdError × Contents)) : Prop :=
  (Accepted type csd locked start blkcnt → r =
      (dmaRx contents (start * 512) (blkcnt * blockLen type csd) buf).map (SdError.ok, ·)) ∧
    (¬ Accepted type csd locked start blkcnt → ∃ e ≠ SdError.ok, r = some (e, buf))

theorem sdReadBlock_spec : ReadsTo type csd locked contents start 1 buf
    (sdReadBlock ⟨type, csd, locked, contents⟩ (start * 512) buf (blockLen type csd)) := by
  have hprepare := @sdPrepare_eq start ⟨type, csd, locked, contents⟩
  have hread := @read_eq start ⟨type, csd, locked, contents⟩ (blockLen type csd)
  dsimp only at hprepare hread
  unfold sdReadBlock
  rw [hprepare]
  constructor
  · rintro ⟨rfl, hlen, -, hcard⟩
    rw [Nat.one_mul] at hcard ⊢
    rw [if_neg (by simp), if_pos hlen]
    dsimp only
    rw [hread, if_pos hcard]
  · intro hno
    cases locked with
    | true => exact ⟨_, by decide, rfl⟩
    | false =>
      rw [if_neg (by simp)]
      by_cases hlen : blockLen type csd ≤ 2048
      · have hcard : ¬ start * 512 + blockLen type csd ≤ capacity type csd := by
          intro hcard
          exact hno ⟨rfl, hlen, Or.inl rfl, by rw [Nat.one_mul]; exact hcard⟩
        rw [if_pos hlen]
        dsimp only
        rw [hread, if_neg hcard]
        exact ⟨_, by decide, rfl⟩
      · rw [if_neg hlen]
        exact ⟨_, by decide, rfl⟩

theorem sdReadMultiBlocks_spec (hmany : 1 < blkcnt)
    (hlength : blkcnt * blockLen type csd % 2 ^ 32 = blkcnt * blockLen type csd) :
    ReadsTo type csd locked contents start blkcnt buf
      (sdReadMultiBlocks ⟨type, csd, locked, contents⟩ (start * 512) buf (blockLen type csd)
        blkcnt) := by
  have hprepare := @sdPrepare_eq start ⟨type, csd, locked, contents⟩
  have hread := @read_eq start ⟨type, csd, locked, contents⟩ (blkcnt * blockLen type csd)
  dsimp only at hprepare hread
  unfold sdReadMultiBlocks
  rw [hprepare]
  constructor
  · rintro ⟨rfl, hlen, hmax, hcard⟩
    rw [if_neg (by simp), if_pos hlen]
    dsimp only
    rw [hlength, if_pos hmany, if_neg (by omega), hread, if_pos hcard]
  · intro hno
    cases locked with
    | true => exact ⟨_, by decide, rfl⟩
    | false =>
      rw [if_neg (by simp)]
      by_cases hlen : blockLen type csd ≤ 2048
      · rw [if_pos hlen]
        dsimp only
        rw [hlength, if_pos hmany]
        by_cases hmax : sdMaxDataLength < blkcnt * blockLen type csd
        · rw [if_pos hmax]
          exact ⟨_, by decide, rfl⟩
        · have hcard : ¬ start * 512 + blkcnt * blockLen type csd ≤ capacity type csd := by
            intro hcard
            exact hno ⟨rfl, hlen, Or.inr (not_lt.mp hmax), hcard⟩
          rw [if_neg hmax, hread, if_neg hcard]
          exact ⟨_, by decide, rfl⟩
      · rw [if_neg hlen]
        exact ⟨_, by decide, rfl⟩

/-- What a read of blocks of the card does. -/
theorem mmcReadBlock_eq (hfit : capacity type csd < 2 ^ 32) (hpos : 0 < blkcnt)
    (hrange : start + blkcnt ≤ blockCount type csd) (hblksz : dev.blksz = blockLen type csd) :
    mmcReadBlock dev ⟨type, csd, locked, contents⟩ start blkcnt buf =
      if Accepted type csd locked start blkcnt then
        (dmaRx contents (start * 512) (blkcnt * blockLen type csd) buf).map (blkcnt, ·)
      else some (0, buf) := by
  have haddr : start <<< 9 % 2 ^ 32 = start * 512 := by
    have hle : start * 512 ≤ blockCount type csd * 512 := Nat.mul_le_mul_right _ (by omega)
    rw [Nat.shiftLeft_eq, show 2 ^ 9 = 512 by rfl]
    exact Nat.mod_eq_of_lt (hle.trans_lt (blockCount_le hfit))
  obtain ⟨k, hk15, hk⟩ := blockLen_eq_pow type csd
  have hlen16 : blockLen type csd % 2 ^ 16 = blockLen type csd := by
    rw [hk]
    exact Nat.mod_eq_of_lt (Nat.pow_lt_pow_right (by decide) (by omega))
  have hlength : blkcnt * blockLen type csd % 2 ^ 32 = blkcnt * blockLen type csd := by
    apply Nat.mod_eq_of_lt
    calc blkcnt * blockLen type csd ≤ blockCount type csd * blockLen type csd :=
          Nat.mul_le_mul_right _ (by omega)
      _ < 2 ^ 32 := by rw [← capacity_eq]; exact hfit
  have hspec : ReadsTo type csd locked contents start blkcnt buf
      (if blkcnt = 1 then sdReadBlock ⟨type, csd, locked, contents⟩ (start * 512) buf
          (blockLen type csd)
        else sdReadMultiBlocks ⟨type, csd, locked, contents⟩ (start * 512) buf
          (blockLen type csd) blkcnt) := by
    by_cases hone : blkcnt = 1
    · subst hone
      exact sdReadBlock_spec
    · rw [if_neg hone]
      exact sdReadMultiBlocks_spec (by omega) hlength
  unfold mmcReadBlock
  dsimp only
  rw [haddr, hblksz, hlen16]
  by_cases hacc : Accepted type csd locked start blkcnt
  · rw [hspec.1 hacc, if_pos hacc]
    cases dmaRx contents (start * 512) (blkcnt * blockLen type csd) buf with
    | none => rfl
    | some buf' => rfl
  · obtain ⟨e, he, heq⟩ := hspec.2 hacc
    rw [heq, if_neg hacc]
    simp [he]

/-- What `mmc_read_block` is for: the published numbers give the capacity, and a read of blocks
of the card that returns their number has put their bytes into the buffer. -/
def SdReadOk (type : CardType) (csd : Nat) (dev : BlkDev) (locked : Bool) (start blkcnt : Nat) :
    Prop :=
  dev.lba * dev.blksz = capacity type csd ∧
    ∀ contents buf buf', start + blkcnt ≤ dev.lba →
      mmcReadBlock dev ⟨type, csd, locked, contents⟩ start blkcnt buf = some (blkcnt, buf') →
      buf' = storeAt buf 0 (readAt contents (start * dev.blksz) (blkcnt * dev.blksz))

/-- The transfer delivers what was asked for: the byte address is that of the block, and the
number of words fits the counter. -/
structure Delivers (len start blkcnt : Nat) : Prop where
  addr : len = 512 ∨ start = 0
  words : 4 ∣ blkcnt * len
  counter : blkcnt * len < 2 ^ 18

theorem dmaRx_eq_some {pos n : Nat} {buf' : Contents} : dmaRx contents pos n buf = some buf' ↔
    n / 4 % 2 ^ 16 ≠ 0 ∧ storeAt buf 0 (readAt contents pos (4 * (n / 4 % 2 ^ 16))) = buf' := by
  unfold dmaRx
  dsimp only
  split
  · rename_i hzero
    exact iff_of_false (by simp) (fun h => h.1 hzero)
  · rename_i hne
    rw [Option.some_inj, and_iff_right hne]

theorem storeAt_zero (data : Bytes) (i : Nat) :
    storeAt buf 0 data i = if i < data.length then data.getD i 0 else buf i := by
  simp [storeAt, InRange]

/-- Two transfers deliver the same from every card only if they are the same. -/
theorem transfer_inj {pos pos' m n : Nat} (hle : m ≤ n) (hpos : 0 < m)
    (h : ∀ contents buf, storeAt buf 0 (readAt contents pos m) =
      storeAt buf 0 (readAt contents pos' n)) : m = n ∧ pos = pos' := by
  constructor
  · by_contra hne
    -- The first byte behind the shorter transfer.
    have hbyte := congrFun (h (fun _ => 0) fun _ => 1) m
    rw [storeAt_zero, storeAt_zero, length_readAt, length_readAt, if_neg (by omega),
      if_pos (by omega), List.getD_eq_getElem?_getD, getElem?_readAt (by omega)] at hbyte
    exact absurd hbyte (by decide)
  · have hbyte := congrFun (h (fun a => if a = pos then 1 else 0) fun _ => 0) 0
    rw [storeAt_zero, storeAt_zero, length_readAt, length_readAt, if_pos hpos,
      if_pos (by omega), List.getD_eq_getElem?_getD, List.getD_eq_getElem?_getD,
      getElem?_readAt hpos, getElem?_readAt (by omega)] at hbyte
    by_contra hne
    rw [Option.getD_some, Option.getD_some, Nat.add_zero, Nat.add_zero, if_pos rfl,
      if_neg (fun heq => hne heq.symm)] at hbyte
    exact absurd hbyte (by decide)

theorem mmcReadBlock_ok_iff {sdInit select wideBus : Bool}
    (hinit : mmcLegacyInit sdInit select wideBus type csd = some dev) (hpos : 0 < blkcnt) :
    SdReadOk type csd dev locked start blkcnt ↔ capacity type csd < 2 ^ 32 ∧
      ((start + blkcnt) * blockLen type csd ≤ capacity type csd →
        Accepted type csd locked start blkcnt → blkcnt * blockLen type csd / 4 % 2 ^ 16 ≠ 0 →
        Delivers (blockLen type csd) start blkcnt) := by
  obtain ⟨hblksz, hcap, hlba⟩ := lba_mul_blksz hinit
  obtain ⟨k, -, hk⟩ := blockLen_eq_pow type csd
  have hlen : 0 < blockLen type csd := by
    rw [hk]
    exact Nat.two_pow_pos k
  have hrange : (start + blkcnt) * blockLen type csd ≤ capacity type csd ↔
      start + blkcnt ≤ blockCount type csd := by
    rw [capacity_eq]
    exact Nat.mul_le_mul_right_iff hlen
  unfold SdReadOk
  rw [hcap, hblksz]
  refine and_congr_right fun hfit => ?_
  rw [hlba hfit, hrange]
  constructor
  · intro hread hblocks hacc hcounter
    generalize hn : blkcnt * blockLen type csd = n at hread hcounter
    obtain ⟨hwords, haddr⟩ := @transfer_inj (start * 512) (start * blockLen type csd)
      (4 * (n / 4 % 2 ^ 16)) n (by omega) (by omega) <| by
        intro contents buf
        refine hread contents buf _ hblocks ?_
        rw [mmcReadBlock_eq hfit hpos hblocks hblksz, if_pos hacc, hn,
          dmaRx_eq_some.mpr ⟨hcounter, rfl⟩]
        rfl
    refine ⟨?_, by omega, by omega⟩
    rcases Nat.eq_zero_or_pos start with hzero | hstart
    · exact Or.inr hzero
    · exact Or.inl (Nat.eq_of_mul_eq_mul_left hstart haddr).symm
  · intro hdelivers contents buf buf' hblocks hresult
    rw [mmcReadBlock_eq hfit hpos hblocks hblksz] at hresult
    split at hresult
    · rename_i hacc
      obtain ⟨data, hdata, heq⟩ := Option.map_eq_some_iff.mp hresult
      cases heq
      obtain ⟨hcounter, hdata⟩ := dmaRx_eq_some.mp hdata
      obtain ⟨haddr, hwords, hsmall⟩ := hdelivers hblocks hacc hcounter
      have hall : 4 * (blkcnt * blockLen type csd / 4 % 2 ^ 16) = blkcnt * blockLen type csd := by
        omega
      have hstart : start * 512 = start * blockLen type csd := by
        rcases haddr with h512 | hzero
        · rw [h512]
        · rw [hzero, Nat.zero_mul, Nat.zero_mul]
      rw [← hdata, hall, hstart]
    · cases hresult
      omega

/-- The CSD register of a standard card of 1 MiB with blocks of 1 KiB: `READ_BL_LEN` 10,
`C_SIZE` 255 and `C_SIZE_MULT` 0. -/
def csdOneKib : Nat := 10 * 2 ^ 80 + 255 * 2 ^ 62

theorem mmcReadBlock_ok_firstBlocks :
    mmcLegacyInit true true true .stdCapacityV1 csdOneKib = some ⟨1024, 1024⟩ ∧ 0 < 8 ∧
    Accepted .stdCapacityV1 csdOneKib false 0 8 ∧
    SdReadOk .stdCapacityV1 csdOneKib ⟨1024, 1024⟩ false 0 8 := by
  have hinit : mmcLegacyInit true true true .stdCapacityV1 csdOneKib = some ⟨1024, 1024⟩ := by
    decide
  refine ⟨hinit, by decide, by decide, (mmcReadBlock_ok_iff hinit (by decide)).mpr
    ⟨by decide, fun _ _ _ => ?_⟩⟩
  have hlen : blockLen .stdCapacityV1 csdOneKib = 1024 := by decide
  rw [hlen]
  exact ⟨Or.inr rfl, by decide, by decide⟩

/-- Block 1 of this card is read from byte 512. -/
theorem mmcReadBlock_not_ok :
    mmcLegacyInit true true true .stdCapacityV1 csdOneKib = some ⟨1024, 1024⟩ ∧ 1 + 1 ≤ 1024 ∧
    ¬ SdReadOk .stdCapacityV1 csdOneKib ⟨1024, 1024⟩ false 1 1 := by
  have hinit : mmcLegacyInit true true true .stdCapacityV1 csdOneKib = some ⟨1024, 1024⟩ := by
    decide
  refine ⟨hinit, by decide, ?_⟩
  rintro ⟨-, hread⟩
  have hfit : capacity .stdCapacityV1 csdOneKib < 2 ^ 32 := by decide
  have hlen : blockLen .stdCapacityV1 csdOneKib = 1024 := by decide
  have hblocks : 1 + 1 ≤ blockCount .stdCapacityV1 csdOneKib := by decide
  have hacc : Accepted .stdCapacityV1 csdOneKib false 1 1 := by decide
  have hresult : mmcReadBlock ⟨1024, 1024⟩ ⟨.stdCapacityV1, csdOneKib, false,
      fun a => if a = 512 then 1 else 0⟩ 1 1 (fun _ => 0) =
        some (1, storeAt (fun _ => 0) 0 (readAt (fun a => if a = 512 then 1 else 0) 512 1024)) := by
    rw [mmcReadBlock_eq hfit (by decide) hblocks hlen.symm, if_pos hacc, hlen]
    rfl
  have hbyte := congrFun (hread _ _ _ (by decide) hresult) 0
  rw [storeAt_zero, storeAt_zero, length_readAt, length_readAt, if_pos (by decide),
    if_pos (by decide), List.getD_eq_getElem?_getD, List.getD_eq_getElem?_getD,
    getElem?_readAt (by decide), getElem?_readAt (by decide)] at hbyte
  exact absurd hbyte (by decide)

end Read

end UBoot.Drivers
