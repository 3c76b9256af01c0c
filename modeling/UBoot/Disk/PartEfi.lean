import UBoot.Disk.PartDos
import UBoot.LibGeneric.Crc32
import UBoot.Lib.Blocks

/-!
# GUID partition tables

The lookup of `disk/part_efi.c`.  `get_partition_info_efi` hands down `pgpt_pte`, which is `NULL`,
so the pointer to the entries is stored at the address 0 and loaded from there; `ZeroWord` says what
comes of that.  What lies behind the header on the stack, and what an area from `malloc` has in it
before the entries are read, is part of `GptEnv`.

An `ulong` and an address have 32 bits.
-/

namespace UBoot.Disk

open UBoot.Lib UBoot.LibGeneric

/-! ## The code -/

/-- `block_dev_desc_t`: the contents of the disk, and how many blocks a `block_read` from a block on
reports. -/
structure GptDev where
  lba : Nat
  disk : Contents
  blockRead : Nat → Nat → Nat

/-- The word at the address 0: one that keeps what is stored, one that does not (with the memory
that it points to, none for `NULL`), or none that can be stored to. -/
inductive ZeroWord
  | ram
  | rom (word : Option Contents)
  | fault

/-- What is around the code. -/
structure GptEnv where
  stack : Contents
  malloc : Nat → Bool
  heap : Contents
  zero : ZeroWord

/-- What a checksum is taken of: the header, the area for the entries, or other memory. -/
inductive GptBuffer
  | head
  | pte
  | other
  deriving DecidableEq

/-- Blocks that have been read, and bytes that a checksum has been taken of. -/
inductive GptStep
  | read (buf : GptBuffer) (start count : Nat)
  | crc (buf : GptBuffer) (len : Nat)
  deriving DecidableEq

inductive GptOutcome (α : Type)
  | value (a : α)
  | error
  | fault

/-- `le32_to_int` -/
def le32At (m : Contents) (pos : Nat) : Nat :=
  2 ^ 24 * (m (pos + 3)).toNat + 2 ^ 16 * (m (pos + 2)).toNat + 2 ^ 8 * (m (pos + 1)).toNat +
    (m pos).toNat

/-- `le64_to_int` -/
def le64At (m : Contents) (pos : Nat) : Nat := 2 ^ 32 * le32At m (pos + 4) + le32At m pos

/-- The fields of `gpt_header`. -/
def headerSize (head : Contents) : Nat := le32At head 12

def headerCrc32 (head : Contents) : Nat := le32At head 16

def myLba (head : Contents) : Nat := le64At head 24

def firstUsableLba (head : Contents) : Nat := le64At head 40

def lastUsableLba (head : Contents) : Nat := le64At head 48

def partitionEntryLba (head : Contents) : Nat := le64At head 72

def numPartitionEntries (head : Contents) : Nat := le32At head 80

def sizeofPartitionEntry (head : Contents) : Nat := le32At head 84

def partitionEntryArrayCrc32 (head : Contents) : Nat := le32At head 88

/-- `GPT_HEADER_SIGNATURE` -/
def gptHeaderSignature : Nat := 0x5452415020494645

/-- `efi_crc32` -/
def efiCrc32 (buf : Contents) (len : Nat) : Nat := (crc32 (readAt buf 0 len)).toNat

/-- The header with `header_crc32` cleared. -/
def clearCrc (head : Contents) : Contents := fun i => if 16 ≤ i ∧ i < 20 then 0 else head i

/-- `num_partition_entries * sizeof_partition_entry` -/
def entryCount (head : Contents) : Nat :=
  numPartitionEntries head * sizeofPartitionEntry head % 2 ^ 32

section Code

variable (dev : GptDev) (env : GptEnv)

/-- `gpt_head` and the stack behind it. -/
def headAt (lba : Nat) : Contents := fun i =>
  if i < 512 then dev.disk (512 * lba + i) else env.stack i

/-- `pte` and the heap behind it. -/
def pteAt (start count : Nat) : Contents := fun i =>
  if i < 512 * (count / 512) then dev.disk (512 * start + i) else env.heap i

/-- `alloc_read_gpt_entries`, with none for `NULL`. -/
def allocReadGptEntries (head : Contents) : List GptStep × Option Contents :=
  let count := entryCount head
  let start := partitionEntryLba head % 2 ^ 32
  if count = 0 ∨ env.malloc count = false then ([], none)
  else if dev.blockRead start (count / 512) ≠ count / 512 then ([], none)
  else ([.read .pte start (count / 512)], some (pteAt dev env start count))

/-- `*pgpt_pte = ...`, and what `*pgpt_pte` is afterwards. -/
def throughZero (pte : Option Contents) : GptOutcome (Option (GptBuffer × Contents)) :=
  match env.zero with
  | .ram => .value (pte.map fun m => (.pte, m))
  | .rom word => .value (word.map fun m => (.other, m))
  | .fault => .fault

/-- `is_gpt_valid`: the header and the entries, or error for 0. -/
def isGptValid (lba : Nat) : List GptStep × GptOutcome (Contents × Contents) :=
  if dev.blockRead lba 1 ≠ 1 then ([], .error)
  else
    let head := headAt dev env lba
    let log := [.read .head lba 1]
    if le64At head 0 ≠ gptHeaderSignature then (log, .error)
    else
      let log := log ++ [.crc .head (headerSize head)]
      if efiCrc32 (clearCrc head) (headerSize head) ≠ headerCrc32 head then (log, .error)
      else if myLba head ≠ lba then (log, .error)
      else if firstUsableLba head > dev.lba then (log, .error)
      else if lastUsableLba head > dev.lba then (log, .error)
      else
        let (reads, pte) := allocReadGptEntries dev env head
        let log := log ++ reads
        match throughZero env pte with
        | .error => (log, .error)
        | .fault => (log, .fault)
        | .value none => (log, .error)
        | .value (some (buf, ptes)) =>
          let log := log ++ [.crc buf (entryCount head)]
          if efiCrc32 ptes (entryCount head) ≠ partitionEntryArrayCrc32 head then (log, .error)
          else (log, .value (head, ptes))

/-- `info`, for the entry at an index of the array of `gpt_entry`. -/
def gptInfo (ptes : Contents) (part : Int) : DiskPartition :=
  let entry := 128 * (part - 1).toNat % 2 ^ 32
  let start := le64At ptes (entry + 32) % 2 ^ 32
  { start := start
    size := (le64At ptes (entry + 40) % 2 ^ 32 + 1 + 2 ^ 32 - start) % 2 ^ 32
    blksz := 512
    name := str "gpt" ++ str (toString part)
    type := str "U-Boot" }

/-- `get_partition_info_efi`, with error for -1. -/
def getPartitionInfoEfi (part : Int) : List GptStep × GptOutcome DiskPartition :=
  if part < 1 then ([], .error)
  else
    match isGptValid dev env 1 with
    | (log, .value (_, ptes)) => (log, .value (gptInfo ptes part))
    | (log, .error) => (log, .error)
    | (log, .fault) => (log, .fault)

end Code

end UBoot.Disk
