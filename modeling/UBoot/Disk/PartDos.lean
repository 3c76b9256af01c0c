import UBoot.LibGeneric.Vsprintf

/-!
# DOS partition tables

`disk/part_dos.c`.  An `int` has 32 bits, and an `ulong` too.  The two functions go down a chain of
tables as often as they have to, so they get a number of tables that they read at most.
-/

namespace UBoot.Disk

open UBoot.Lib UBoot.LibGeneric

/-- `dos_partition_t` -/
structure DosPartition where
  bootInd : UInt8
  sysInd : UInt8
  start4 : Nat
  size4 : Nat
  deriving DecidableEq

/-- The types of interfaces that give a partition a name of its own. -/
inductive IfType
  | ide
  | sata
  | atapi
  | scsi
  | usb
  | doc
  | other
  deriving DecidableEq

/-- `block_dev_desc_t`, with `block_read` of one block: none if it fails. -/
structure BlockDevDesc where
  ifType : IfType
  dev : Nat
  lba : Nat
  blockRead : Nat → Option Bytes

/-- `disk_partition_t` -/
structure DiskPartition where
  start : Nat
  size : Nat
  blksz : Nat
  name : Bytes
  type : Bytes
  deriving DecidableEq

/-- What `print_part_dos` prints in a line. -/
inductive PartLine
  | partition (num start size : Int) (sysInd : UInt8)
  | pbr (lba : Nat) (media : UInt8)
  | unreadable (sector : Int)
  | badSignature (first second : UInt8)
  deriving DecidableEq

/-- An `int`. -/
def toInt32 (x : Int) : Int := x.bmod (2 ^ 32)

/-- An `ulong`. -/
def toUlong (x : Int) : Nat := (x % 2 ^ 32).toNat

/-- `is_extended` -/
def isExtended (sysInd : UInt8) : Bool := sysInd == 0x5 || sysInd == 0xf || sysInd == 0x85

/-- The bytes of `start4` and `size4`. -/
def le32 (buffer : Bytes) (pos : Nat) : Nat :=
  (buffer.getD pos 0).toNat + 256 * (buffer.getD (pos + 1) 0).toNat +
    65536 * (buffer.getD (pos + 2) 0).toNat + 16777216 * (buffer.getD (pos + 3) 0).toNat

/-- The entry at `DOS_PART_TBL_OFFSET`, or one of those behind it. -/
def partitionAt (buffer : Bytes) (i : Nat) : DosPartition where
  bootInd := buffer.getD (0x1be + 16 * i) 0
  sysInd := buffer.getD (0x1be + 16 * i + 4) 0
  start4 := le32 buffer (0x1be + 16 * i + 8)
  size4 := le32 buffer (0x1be + 16 * i + 12)

/-- The partition table. -/
def table (buffer : Bytes) : List DosPartition := (List.range 4).map (partitionAt buffer)

/-- What `test_block_type` says. -/
inductive BlockType
  | none
  | pbr
  | mbr
  deriving DecidableEq

/-- `test_block_type` -/
def testBlockType (buffer : Bytes) : BlockType :=
  if buffer.getD 0x1fe 0 ≠ 0x55 ∨ buffer.getD 0x1ff 0 ≠ 0xaa then .none
  else if (buffer.drop 0x36).take 3 = str "FAT" then .pbr
  else .mbr

/-- A partition that is neither empty nor extended. -/
def DosPartition.isPart (p : DosPartition) : Bool := p.sysInd != 0 && !isExtended p.sysInd

/-- `print_one_part` -/
def printOnePart (p : DosPartition) (extPartSector partNum : Int) : PartLine :=
  .partition partNum (toInt32 (extPartSector + p.start4)) (toInt32 p.size4) p.sysInd

/-- The number behind an entry: "Reverse engr the fdisk part# assignment rule!" -/
def nextPartNum (p : DosPartition) (extPartSector partNum : Int) : Int :=
  if extPartSector = 0 ∨ p.isPart then partNum + 1 else partNum

/-- "Print all primary/logical partitions": the lines, and the number behind the entries. -/
def printTable (extPartSector : Int) : Int → List DosPartition → List PartLine × Int
  | partNum, [] => ([], partNum)
  | partNum, p :: ps =>
    let (lines, last) := printTable extPartSector (nextPartNum p extPartSector partNum) ps
    if p.sysInd ≠ 0 ∧ (extPartSector = 0 ∨ isExtended p.sysInd = false) then
      (printOnePart p extPartSector partNum :: lines, last)
    else (lines, last)

/-- `lba_start` of an extended partition. -/
def lbaStart (p : DosPartition) (relative : Int) : Int := toInt32 (p.start4 + relative)

/-- `print_partition_extended` -/
def printPartitionExtended (dev : BlockDevDesc) :
    Nat → Int → Int → Int → Option (List PartLine)
  | 0, _, _, _ => none
  | depth + 1, extPartSector, relative, partNum =>
    match dev.blockRead (toUlong extPartSector) with
    | none => some [.unreadable extPartSector]
    | some buffer =>
      match testBlockType buffer with
      | .none => some [.badSignature (buffer.getD 0x1fe 0) (buffer.getD 0x1ff 0)]
      | .pbr => some [.pbr dev.lba (buffer.getD 0x15 0)]
      | .mbr => do
        let (lines, partNum) := printTable extPartSector partNum (table buffer)
        let below ← ((table buffer).filter fun p => isExtended p.sysInd).mapM fun p =>
          printPartitionExtended dev depth (lbaStart p relative)
            (if extPartSector = 0 then lbaStart p relative else relative) partNum
        return lines ++ below.flatten

/-- `info->name` -/
def partName (dev : BlockDevDesc) (partNum : Int) : Bytes :=
  let kind :=
    match dev.ifType with
    | .ide | .sata | .atapi => str "hd"
    | .scsi => str "sd"
    | .usb => str "usbd"
    | .doc => str "docd"
    | .other => str "xx"
  kind ++ [UInt8.ofNat (97 + dev.dev)] ++ str (toString partNum)

/-- `info`, for an entry. -/
def partInfo (dev : BlockDevDesc) (p : DosPartition) (extPartSector partNum : Int) :
    DiskPartition where
  start := toUlong (toInt32 (extPartSector + p.start4))
  size := toUlong (toInt32 p.size4)
  blksz := 512
  name := partName dev partNum
  type := str "U-Boot"

/-- The search in one table: what it finds, or the number behind the entries. -/
def findPart (dev : BlockDevDesc) (extPartSector whichPart : Int) :
    Int → List DosPartition → DiskPartition ⊕ Int
  | partNum, [] => .inr partNum
  | partNum, p :: ps =>
    if p.bootInd &&& ~~~0x80 = 0 ∧ p.sysInd ≠ 0 ∧ partNum = whichPart ∧
        isExtended p.sysInd = false then
      .inl (partInfo dev p extPartSector partNum)
    else findPart dev extPartSector whichPart (nextPartNum p extPartSector partNum) ps

/-- `get_partition_info_extended`, with none in the result for -1. -/
def getPartitionInfoExtended (dev : BlockDevDesc) (whichPart : Int) :
    Nat → Int → Int → Int → Option (Option DiskPartition)
  | 0, _, _, _ => none
  | depth + 1, extPartSector, relative, partNum =>
    match dev.blockRead (toUlong extPartSector) with
    | none => some none
    | some buffer =>
      if buffer.getD 0x1fe 0 ≠ 0x55 ∨ buffer.getD 0x1ff 0 ≠ 0xaa then some none
      else
        match findPart dev extPartSector whichPart partNum (table buffer) with
        | .inl info => some (some info)
        | .inr partNum =>
          match (table buffer).find? fun p => isExtended p.sysInd with
          | none => some none
          | some p =>
            getPartitionInfoExtended dev whichPart depth (lbaStart p relative)
              (if extPartSector = 0 then lbaStart p relative else relative) partNum

/-- `print_part_dos`, without its heading. -/
def printPartDos (dev : BlockDevDesc) (depth : Nat) : Option (List PartLine) :=
  printPartitionExtended dev depth 0 0 1

/-- `get_partition_info_dos` -/
def getPartitionInfoDos (dev : BlockDevDesc) (part : Int) (depth : Nat) :
    Option (Option DiskPartition) :=
  getPartitionInfoExtended dev part depth 0 0 1

end UBoot.Disk
