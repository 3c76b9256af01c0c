import UBoot.Drivers.SdCard

/-!
# Writing to an SD card

`mmc_write_block` of `drivers/mmc/stm32f10x_mmc.c` and `SD_WriteMultiBlocks` below it.  The write
takes the block number for the address, where the reads shift it by 9, and `SD_WriteMultiBlocks`
transfers nothing for a single block.

* `mmcWriteBlock_ok_iff`: what is written is read back, and nothing else is changed, only for more
  than one block from block 0 on, or if the card is locked and the write refused.
-/

namespace UBoot.Drivers

open UBoot.Lib

/-- `DMA_TxConfiguration` and the wait for the end of the transfer. -/
def dmaTx (contents : Contents) (pos bufferSize : Nat) (buf : Contents) : Option Contents :=
  let counter := bufferSize / 4 % 2 ^ 16
  if counter = 0 then none else some (storeAt contents pos (readAt buf 0 (4 * counter)))

/-- `SD_WriteMultiBlocks`: the error and the contents of the card.  `WRITE_MULT_BLOCK` is addressed
as the reads are. -/
def sdWriteMultiBlocks (card : Card) (addr : Nat) (buf : Contents)
    (blockSize numberOfBlocks : Nat) : Option (SdError × Contents) :=
  match sdPrepare card addr blockSize with
  | .error e => some (e, card.contents)
  | .ok (blockSize, addr) =>
    let length := numberOfBlocks * blockSize % 2 ^ 32
    if 1 < numberOfBlocks then
      if sdMaxDataLength < length then some (.invalidParameter, card.contents)
      else
        match card.read addr length with
        | none => some (.addrOutOfRange, card.contents)
        | some pos => (dmaTx card.contents pos length buf).map (SdError.ok, ·)
    else some (.ok, card.contents)

/-- `mmc_write_block`: the return value and the contents of the card. -/
def mmcWriteBlock (dev : BlkDev) (card : Card) (start blkcnt : Nat) (buf : Contents) :
    Option (Nat × Contents) :=
  (sdWriteMultiBlocks card start buf (dev.blksz % 2 ^ 16) blkcnt).map fun (status, contents) =>
    (if status = .ok then blkcnt else 0, contents)

section Write

variable {type : CardType} {csd start blkcnt : Nat} {locked : Bool} {contents buf : Contents}
  {dev : BlkDev}

/-- Where a write of block `start` goes to. -/
def writePos (type : CardType) (start : Nat) : Nat :=
  if type = .highCapacity then start / 512 * 512 else start

theorem writePos_le (type : CardType) (start : Nat) : writePos type start ≤ start := by
  unfold writePos
  split
  · exact Nat.div_mul_le_self start 512
  · exact le_rfl

theorem sdPrepare_write :
    sdPrepare ⟨type, csd, locked, contents⟩ start 512 =
      if locked then .error .lockUnlockFailed
      else .ok (512, if type = .highCapacity then start / 512 else start) := by
  have hsize : 0 < 512 ∧ 512 ≤ 2048 ∧ 512 &&& (512 - 1) = 0 := by decide
  unfold sdPrepare
  dsimp only
  by_cases htype : type = .highCapacity
  · rw [if_pos htype, if_pos htype]
    dsimp only
    rw [if_pos hsize]
  · rw [if_neg htype, if_neg htype]
    dsimp only
    rw [if_pos hsize]

/-- The range that a write goes to is on the card if the blocks are. -/
theorem read_writePos {n : Nat} (hcard : start * 512 + n ≤ capacity type csd) :
    Card.read ⟨type, csd, locked, contents⟩
      (if type = .highCapacity then start / 512 else start) n = some (writePos type start) := by
  have hle : writePos type start ≤ start * 512 :=
    (writePos_le type start).trans (Nat.le_mul_of_pos_right start (by decide))
  have hin : writePos type start + n ≤ capacity type csd :=
    (Nat.add_le_add_right hle n).trans hcard
  unfold writePos at hin ⊢
  unfold Card.read
  dsimp only
  by_cases htype : type = .highCapacity
  · simp only [if_pos htype] at hin ⊢
    rw [if_pos hin]
  · simp only [if_neg htype] at hin ⊢
    rw [if_pos hin]

/-- A transfer that fits the counter is not too long for the driver. -/
theorem length_le_max (hwords : 128 * blkcnt < 2 ^ 16) : blkcnt * 512 ≤ sdMaxDataLength := by
  unfold sdMaxDataLength
  omega

/-- What a write of blocks of the card does. -/
theorem mmcWriteBlock_eq (hblksz : dev.blksz = 512)
    (hpos : 0 < blkcnt) (hwords : 128 * blkcnt < 2 ^ 16)
    (hcard : start * 512 + blkcnt * 512 ≤ capacity type csd) :
    mmcWriteBlock dev ⟨type, csd, locked, contents⟩ start blkcnt buf =
      if locked then some (0, contents)
      else if 1 < blkcnt then
        some (blkcnt, storeAt contents (writePos type start) (readAt buf 0 (blkcnt * 512)))
      else some (blkcnt, contents) := by
  have hlength : blkcnt * 512 % 2 ^ 32 = blkcnt * 512 := Nat.mod_eq_of_lt (by omega)
  have hcounter : 4 * (blkcnt * 512 / 4 % 2 ^ 16) = blkcnt * 512 := by omega
  have hdma : dmaTx contents (writePos type start) (blkcnt * 512) buf =
      some (storeAt contents (writePos type start) (readAt buf 0 (blkcnt * 512))) := by
    unfold dmaTx
    dsimp only
    rw [if_neg (by omega), hcounter]
  unfold mmcWriteBlock sdWriteMultiBlocks
  rw [hblksz, Nat.mod_eq_of_lt (show 512 < 2 ^ 16 by decide), sdPrepare_write]
  cases locked with
  | true => rfl
  | false =>
    rw [if_neg (by simp)]
    dsimp only
    by_cases hmany : 1 < blkcnt
    · rw [hlength, if_pos hmany, if_neg (not_lt.mpr (length_le_max hwords)),
        read_writePos hcard,
        if_pos hmany]
      dsimp only
      rw [hdma]
      rfl
    · rw [if_neg hmany, if_neg hmany]
      rfl

/-- What `mmc_write_block` is for: after a write that returns the number of blocks, a read that
does so too delivers what was written, and all bytes outside of the blocks are what they were. -/
def SdWriteOk (type : CardType) (csd : Nat) (dev : BlkDev) (locked : Bool) (start blkcnt : Nat) :
    Prop :=
  ∀ contents buf contents',
    mmcWriteBlock dev ⟨type, csd, locked, contents⟩ start blkcnt buf = some (blkcnt, contents') →
    (∀ out out', mmcReadBlock dev ⟨type, csd, locked, contents'⟩ start blkcnt out =
        some (blkcnt, out') → readAt out' 0 (blkcnt * 512) = readAt buf 0 (blkcnt * 512)) ∧
      ∀ a, ¬ InRange (start * 512) (blkcnt * 512) a → contents' a = contents a

theorem mmcWriteBlock_ok_iff {sdInit select wideBus : Bool}
    (hinit : mmcLegacyInit sdInit select wideBus type csd = some dev)
    (h512 : blockLen type csd = 512) (hfit : capacity type csd < 2 ^ 32) (hpos : 0 < blkcnt)
    (hwords : 128 * blkcnt < 2 ^ 16) (hrange : start + blkcnt ≤ dev.lba) :
    SdWriteOk type csd dev locked start blkcnt ↔ locked = true ∨ start = 0 ∧ 1 < blkcnt := by
  obtain ⟨hblksz, -, hlba⟩ := lba_mul_blksz hinit
  rw [hlba hfit] at hrange
  have hcard : start * 512 + blkcnt * 512 ≤ capacity type csd := by
    rw [capacity_eq, h512, ← Nat.add_mul]
    exact Nat.mul_le_mul_right 512 hrange
  have hacc : Accepted type csd false start blkcnt := by
    refine ⟨rfl, by rw [h512]; decide, Or.inr ?_, by rw [h512]; exact hcard⟩
    rw [h512]
    exact length_le_max hwords
  -- A read of these blocks delivers them.
  have hread (contents out : Contents) :
      mmcReadBlock dev ⟨type, csd, false, contents⟩ start blkcnt out =
        some (blkcnt, storeAt out 0 (readAt contents (start * 512) (blkcnt * 512))) := by
    have hcounter : 4 * (blkcnt * 512 / 4 % 2 ^ 16) = blkcnt * 512 := by omega
    rw [mmcReadBlock_eq hfit hpos hrange hblksz, if_pos hacc, h512,
      dmaRx_eq_some.mpr ⟨by omega, rfl⟩, hcounter]
    rfl
  have hwrite (contents buf : Contents) :=
    @mmcWriteBlock_eq type csd start blkcnt locked contents buf dev (hblksz.trans h512) hpos
      hwords hcard
  constructor
  · intro hok
    by_contra hno
    obtain ⟨hunlocked, hno⟩ := not_or.mp hno
    have hlocked : locked = false := by simpa using hunlocked
    subst hlocked
    by_cases hmany : 1 < blkcnt
    · -- The first byte that is written lies before the blocks.
      have hstart : 0 < start := by omega
      obtain ⟨-, hframe⟩ := hok (fun _ => 0) (fun _ => 1) _ <| by
        rw [hwrite, if_neg (by simp), if_pos hmany]
      have hle := writePos_le type start
      have hbyte := hframe (writePos type start) (by rintro ⟨hlo, -⟩; omega)
      rw [storeAt, if_pos ⟨le_rfl, by rw [length_readAt]; omega⟩, Nat.sub_self,
        List.getD_eq_getElem?_getD, getElem?_readAt (by omega)] at hbyte
      exact absurd hbyte (by decide)
    · -- Nothing is written.
      obtain ⟨hdata, -⟩ := hok (fun _ => 0) (fun _ => 1) (fun _ => 0) <| by
        rw [hwrite, if_neg (by simp), if_neg hmany]
      have hback := hdata (fun _ => 0) _ (hread _ _)
      have hbyte := congrArg (fun l => l[0]?) hback
      rw [getElem?_readAt (by omega), getElem?_readAt (by omega), storeAt_zero, length_readAt,
        if_pos (by omega), List.getD_eq_getElem?_getD, getElem?_readAt (by omega)] at hbyte
      exact absurd hbyte (by decide)
  · intro hcond contents buf contents' hresult
    rw [hwrite] at hresult
    rcases hcond with rfl | ⟨rfl, hmany⟩
    · rw [if_pos rfl] at hresult
      cases hresult
      omega
    · cases locked with
      | true =>
        rw [if_pos rfl] at hresult
        cases hresult
        omega
      | false =>
        have hzero : writePos type 0 = 0 := Nat.le_zero.mp (writePos_le type 0)
        rw [if_neg (by simp), if_pos hmany, hzero] at hresult
        cases hresult
        have hlen : (readAt buf 0 (blkcnt * 512)).length = blkcnt * 512 := length_readAt ..
        refine ⟨?_, ?_⟩
        · intro out out' hout
          rw [hread] at hout
          cases hout
          have hsame := readAt_storeAt contents 0 (readAt buf 0 (blkcnt * 512))
          rw [hlen] at hsame
          rw [Nat.zero_mul, hsame]
          have hcopy := readAt_storeAt out 0 (readAt buf 0 (blkcnt * 512))
          rw [hlen] at hcopy
          exact hcopy
        · intro a ha
          rw [Nat.zero_mul] at ha
          rw [storeAt, hlen, if_neg ha]

/-- The CSD register of a standard card of 1 MiB with blocks of 512 bytes: `READ_BL_LEN` 9,
`C_SIZE` 511 and `C_SIZE_MULT` 0. -/
def csdHalfKib : Nat := 9 * 2 ^ 80 + 511 * 2 ^ 62

theorem mmcWriteBlock_ok_fromStart :
    mmcLegacyInit true true true .stdCapacityV1 csdHalfKib = some ⟨2048, 512⟩ ∧
    blockLen .stdCapacityV1 csdHalfKib = 512 ∧ capacity .stdCapacityV1 csdHalfKib < 2 ^ 32 ∧
    0 < 2 ∧ 128 * 2 < 2 ^ 16 ∧ 0 + 2 ≤ 2048 ∧
    SdWriteOk .stdCapacityV1 csdHalfKib ⟨2048, 512⟩ false 0 2 := by
  have hinit : mmcLegacyInit true true true .stdCapacityV1 csdHalfKib = some ⟨2048, 512⟩ := by
    decide
  have h512 : blockLen .stdCapacityV1 csdHalfKib = 512 := by decide
  have hfit : capacity .stdCapacityV1 csdHalfKib < 2 ^ 32 := by decide
  exact ⟨hinit, h512, hfit, by decide, by decide, by decide,
    (mmcWriteBlock_ok_iff hinit h512 hfit (by decide) (by decide) (by decide)).mpr
      (Or.inr ⟨rfl, by decide⟩)⟩

/-- Blocks 1 and 2 of this card are written from byte 1 on. -/
theorem mmcWriteBlock_not_ok :
    mmcLegacyInit true true true .stdCapacityV1 csdHalfKib = some ⟨2048, 512⟩ ∧
    blockLen .stdCapacityV1 csdHalfKib = 512 ∧ capacity .stdCapacityV1 csdHalfKib < 2 ^ 32 ∧
    128 * 2 < 2 ^ 16 ∧ 1 + 2 ≤ 2048 ∧
    ¬ SdWriteOk .stdCapacityV1 csdHalfKib ⟨2048, 512⟩ false 1 2 := by
  have hinit : mmcLegacyInit true true true .stdCapacityV1 csdHalfKib = some ⟨2048, 512⟩ := by
    decide
  have h512 : blockLen .stdCapacityV1 csdHalfKib = 512 := by decide
  have hfit : capacity .stdCapacityV1 csdHalfKib < 2 ^ 32 := by decide
  refine ⟨hinit, h512, hfit, by decide, by decide, ?_⟩
  intro hok
  have hwrite := @mmcWriteBlock_eq .stdCapacityV1 csdHalfKib 1 2 false (fun _ => 0) (fun _ => 1)
    ⟨2048, 512⟩ rfl (by decide) (by decide) (by decide)
  obtain ⟨-, hframe⟩ := hok _ _ _ hwrite
  have hbyte := hframe 1 (by decide)
  rw [storeAt, if_pos ⟨by decide, by rw [length_readAt]; decide⟩, List.getD_eq_getElem?_getD,
    getElem?_readAt (by decide)] at hbyte
  exact absurd hbyte (by decide)

end Write

end UBoot.Drivers
