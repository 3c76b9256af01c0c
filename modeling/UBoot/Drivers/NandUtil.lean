import UBoot.Lib.Blocks

/-!
# Writing to NAND flash past bad blocks

`nand_write_skip_bad` of `drivers/mtd/nand/nand_util.c`.  A first loop (`get_len_incl_bad`) finds
the length of the image with the bad blocks in between.  If that is the length of the image itself,
the image is written at once, and otherwise block by block, with a second look at each block.

`loff_t` is a number, `size_t` has 32 bits.  The mask `~(nand->erasesize - 1)` has 32 bits as well
and is extended with zeros, so that `blockStart` drops the upper half of an offset.
-/

namespace UBoot.Drivers

open UBoot.Lib

/-- The fields of `nand_info_t` that are read, and what the table of bad blocks says of the block at
an offset. -/
structure NandInfo where
  size : Nat
  writesize : Nat
  erasesize : Nat
  checkbad : Nat → Bool
  writesize_eq : ∃ p, writesize = 2 ^ p
  erasesize_eq : ∃ e, erasesize = 2 ^ e
  erasesize_lt : erasesize < 2 ^ 32
  writesize_le : writesize ≤ erasesize
  dvd_size : erasesize ∣ size

/-- `-EINVAL` -/
def einval : Int := -22

theorem einval_ne_zero : einval ≠ 0 := by decide

/-- What a call leaves behind: the return value, `*length` and the flash. -/
structure WriteResult where
  rval : Int
  length : Nat
  flash : Contents

variable (n : NandInfo)

/-- `nand_block_isbad` -/
def nandBlockIsbad (offs : Nat) : Int :=
  if n.size < offs then einval else if n.checkbad offs then 1 else 0

/-- `nand_write`, for a device that stores whatever lies inside of it. -/
def nandWrite (offset len : Nat) (buf : Bytes) (flash : Contents) : Int × Contents :=
  if n.size < offset + len then (einval, flash) else (0, storeAt flash offset (buf.take len))

theorem nandWrite_inside {n : NandInfo} {offset len : Nat} (h : offset + len ≤ n.size)
    (buf : Bytes) (flash : Contents) :
    nandWrite n offset len buf flash = (0, storeAt flash offset (buf.take len)) :=
  if_neg (Nat.not_lt.mpr h)

theorem nandWrite_outside {n : NandInfo} {offset len : Nat} (h : n.size < offset + len)
    (buf : Bytes) (flash : Contents) : nandWrite n offset len buf flash = (einval, flash) :=
  if_pos h

/-- `offset & ~(nand->erasesize - 1)` -/
def blockStart (offset : Nat) : Nat := offset % 2 ^ 32 / n.erasesize * n.erasesize

/-- The loop of `get_len_incl_bad`. -/
def lenInclLoop (length : Nat) : Nat → Nat → Nat → Nat → Nat
  | 0, _, _, lenInclBad => lenInclBad
  | rounds + 1, offset, lenExclBad, lenInclBad =>
    if lenExclBad < length then
      let blockLen := n.erasesize - offset % n.erasesize
      let lenExclBad :=
        if nandBlockIsbad n (blockStart n offset) = 0 then (lenExclBad + blockLen) % 2 ^ 32
        else lenExclBad
      let lenInclBad := (lenInclBad + blockLen) % 2 ^ 32
      let offset := offset + blockLen
      if n.size ≤ offset then lenInclBad
      else lenInclLoop length rounds offset lenExclBad lenInclBad
    else lenInclBad

/-- `get_len_incl_bad`.  Each round moves on by a byte at least, up to the end of the device, and
there is a round even behind it. -/
def getLenInclBad (offset length : Nat) : Nat :=
  lenInclLoop n length (n.size - offset + 1) offset 0 0

/-- The loop of `nand_write_skip_bad`; `none` if it has not come to an end within the rounds. -/
def writeLoop (length : Nat) : Nat → Nat → Nat → Bytes → Contents → Option WriteResult
  | 0, _, _, _, _ => none
  | rounds + 1, offset, leftToWrite, pBuffer, flash =>
    if leftToWrite = 0 then some ⟨0, length, flash⟩
    else
      let blockOffset := offset % n.erasesize
      if nandBlockIsbad n (blockStart n offset) ≠ 0 then
        writeLoop length rounds (offset + (n.erasesize - blockOffset)) leftToWrite pBuffer flash
      else
        let writeSize :=
          if leftToWrite < n.erasesize - blockOffset then leftToWrite
          else n.erasesize - blockOffset
        let (rval, flash) := nandWrite n offset writeSize pBuffer flash
        if rval ≠ 0 then some ⟨rval, length - leftToWrite, flash⟩
        else
          writeLoop length rounds (offset + writeSize) (leftToWrite - writeSize)
            (pBuffer.drop writeSize) flash

/-- `nand_write_skip_bad` -/
def nandWriteSkipBad (rounds offset length : Nat) (buffer : Bytes) (flash : Contents) :
    Option WriteResult :=
  if offset % n.writesize ≠ 0 ∨ length % n.writesize ≠ 0 then some ⟨einval, length, flash⟩
  else
    let lenInclBad := getLenInclBad n offset length
    if n.size < offset + lenInclBad then some ⟨einval, length, flash⟩
    else if lenInclBad = length then
      let (rval, flash) := nandWrite n offset length buffer flash
      some ⟨rval, length, flash⟩
    else writeLoop n length rounds offset length buffer flash

end UBoot.Drivers
