import UBoot.Lib.Blocks

/-!
# FAT file systems: clusters

`fs/fat/fat.c`: the FAT with its buffer, clusters, and the contents of a file.  Numbers of sectors
and clusters have 32 bits.  The target is little-endian.  What a function puts into a buffer is its
result.
-/

namespace UBoot.Fs.Fat

open UBoot.Lib

/-- `SECTOR_SIZE` and `FS_BLOCK_SIZE` -/
def sectorSize : Nat := 512

/-- `FATBUFBLOCKS` -/
def fatBufBlocks : Nat := 6

/-- `FATBUFSIZE` -/
def fatBufSize : Nat := sectorSize * fatBufBlocks

/-- `part_offset`, and `block_read` of `cur_dev`: none if it fails. -/
structure BlockDev where
  partOffset : Nat
  blockRead : Nat → Nat → Option Bytes

/-- `fsdata`, with `fatbufnum` as an unsigned number, as it is compared. -/
structure FsData where
  fatbuf : Contents
  fatsize : Int
  fatlength : UInt16
  fatSect : UInt16
  rootdirSect : UInt16
  clustSize : UInt16
  dataBegin : Int16
  fatbufnum : Nat

/-- The size of a cluster in bytes. -/
def FsData.bytesPerClust (d : FsData) : Nat := d.clustSize.toNat * sectorSize

/-- `dir_entry` -/
structure DirEntry where
  name : Bytes
  ext : Bytes
  attr : UInt8
  starthi : UInt16
  start : UInt16
  size : UInt32

/-- `FAT2CPU16` of two bytes. -/
def le16 (buf : Contents) (pos : Nat) : Nat := (buf pos).toNat + 256 * (buf (pos + 1)).toNat

/-- `FAT2CPU32` of four bytes. -/
def le32 (buf : Contents) (pos : Nat) : Nat := le16 buf pos + 65536 * le16 buf (pos + 2)

/-- `START` -/
def startOf (d : FsData) (dent : DirEntry) : Nat :=
  (dent.start.toNat + if d.fatsize ≠ 32 then 0 else dent.starthi.toNat * 65536) % 2 ^ 32

/-- `CHECK_CLUST`: it is no cluster. -/
def checkClust (x : Nat) (fatsize : Int) : Bool :=
  decide (x ≤ 1) || decide ((if fatsize ≠ 32 then 0xfff0 else 0xffffff0) ≤ x)

/-- `disk_read` -/
def diskRead (dev : BlockDev) (startblock getsize : Nat) : Option Bytes :=
  dev.blockRead ((startblock + dev.partOffset) % 2 ^ 32) getsize

/-- `FAT32BUFSIZE`, `FAT16BUFSIZE` and `FAT12BUFSIZE`; none if the FAT size is unsupported. -/
def fatBufEntries (fatsize : Int) : Option Nat :=
  if fatsize = 32 then some (fatBufSize / 4)
  else if fatsize = 16 then some (fatBufSize / 2)
  else if fatsize = 12 then some (fatBufSize * 2 / 3)
  else none

/-- "Read a new block of FAT entries into the cache." -/
def readFatBlock (dev : BlockDev) (d : FsData) (bufnum : Nat) : Option FsData :=
  let fatlength := d.fatlength.toNat * sectorSize
  let startblock := (bufnum * fatBufBlocks + d.fatSect.toNat) % 2 ^ 32
  let getsize := if fatlength < fatBufSize / sectorSize then fatlength else fatBufSize / sectorSize
  (diskRead dev startblock getsize).map fun data =>
    { d with fatbuf := storeAt d.fatbuf 0 data, fatbufnum := bufnum }

/-- "Get the actual entry from the table" -/
def fatEntry (d : FsData) (offset : Nat) : Nat :=
  if d.fatsize = 32 then le32 d.fatbuf (4 * offset)
  else if d.fatsize = 16 then le16 d.fatbuf (2 * offset)
  else
    let off16 := offset * 3 / 4
    let val1 := le16 d.fatbuf (2 * off16)
    let val2 := le16 d.fatbuf (2 * (off16 + 1))
    match offset % 4 with
    | 0 => val1 % 4096
    | 1 => val2 % 256 * 16 + val1 / 4096
    | 2 => val2 % 16 * 256 + val1 / 256
    | _ => val1 / 16

/-- `get_fatent`, with what it leaves in the buffer. -/
def getFatent (dev : BlockDev) (d : FsData) (entry : Nat) : Nat × FsData :=
  match fatBufEntries d.fatsize with
  | none => (0, d)
  | some n =>
    let bufnum := entry / n
    let offset := entry - bufnum * n
    if bufnum = d.fatbufnum then (fatEntry d offset, d)
    else
      match readFatBlock dev d bufnum with
      | none => (0, d)
      | some d => (fatEntry d offset, d)

/-- The first sector of a cluster, as `get_cluster` computes it. -/
def startSect (d : FsData) (clustnum : Nat) : Nat :=
  if 0 < clustnum then ((d.dataBegin.toInt + clustnum * d.clustSize.toNat) % 2 ^ 32).toNat
  else d.rootdirSect.toNat

/-- `get_cluster`: the bytes that it puts into the buffer. -/
def getCluster (dev : BlockDev) (d : FsData) (clustnum size : Nat) : Option Bytes := do
  let data ← diskRead dev (startSect d clustnum) (size / sectorSize)
  if size % sectorSize = 0 then return data
  let tmpbuf ← diskRead dev (startSect d clustnum + size / sectorSize) 1
  return data ++ tmpbuf.take (size % sectorSize)

/-! ## `get_contents` -/

/-- What is read of a file. -/
structure FatRead where
  gotsize : Nat
  data : Bytes
  deriving DecidableEq

/-- The variables of `get_contents`, with what stands in front of `buffer`. -/
structure Reading where
  mydata : FsData
  curclust : Nat
  endclust : Nat
  actsize : Nat
  filesize : Nat
  gotsize : Nat
  out : Bytes

/-- What one round of a loop comes to: the end, with none for a fatal error, or the next round. -/
inductive Round (σ : Type)
  | done (result : Option FatRead)
  | more (s : σ)

/-- A loop, for so many rounds at most. -/
def rounds {σ : Type} (step : σ → Round σ) : Nat → σ → Option (Option FatRead)
  | 0, _ => none
  | n + 1, s =>
    match step s with
    | .done result => some result
    | .more s => rounds step n s

/-- From `getit` on. -/
def getit (dev : BlockDev) (s : Reading) : Round Reading :=
  match getCluster dev s.mydata s.curclust s.actsize with
  | none => .done none
  | some data =>
    let gotsize := (s.gotsize + s.actsize) % 2 ^ 32
    let (curclust, mydata) := getFatent dev s.mydata s.endclust
    if checkClust curclust mydata.fatsize then .done (some ⟨gotsize, s.out ++ data⟩)
    else
      .more
        { mydata := mydata
          curclust := curclust
          endclust := curclust
          actsize := mydata.bytesPerClust
          filesize := s.filesize - s.actsize
          gotsize := gotsize
          out := s.out ++ data }

/-- "actsize >= file size" -/
def getRest (dev : BlockDev) (s : Reading) : Option FatRead := do
  let actsize := s.actsize - s.mydata.bytesPerClust
  let clusters ← getCluster dev s.mydata s.curclust actsize
  let filesize := s.filesize - actsize
  let bytes ← getCluster dev s.mydata s.endclust filesize
  return ⟨(s.gotsize + actsize + filesize) % 2 ^ 32, s.out ++ clusters ++ bytes⟩

/-- One round of the search for consecutive clusters, with what comes behind its end. -/
def getContentsStep (dev : BlockDev) (s : Reading) : Round Reading :=
  if s.actsize < s.filesize then
    let (newclust, mydata) := getFatent dev s.mydata s.endclust
    if (newclust + 2 ^ 32 - 1) % 2 ^ 32 ≠ s.endclust then getit dev { s with mydata := mydata }
    else if checkClust newclust mydata.fatsize then .done (some ⟨s.gotsize, s.out⟩)
    else
      .more
        { s with
          mydata := mydata
          endclust := newclust
          actsize := (s.actsize + mydata.bytesPerClust) % 2 ^ 32 }
  else .done (getRest dev s)

/-- `filesize` of a file, with the limit. -/
def limitedSize (dent : DirEntry) (maxsize : Nat) : Nat :=
  if 0 < maxsize ∧ maxsize < dent.size.toNat then maxsize else dent.size.toNat

/-- `get_contents`, for so many rounds at most; none in the result for -1. -/
def getContents (dev : BlockDev) (d : FsData) (dent : DirEntry) (maxsize fuel : Nat) :
    Option (Option FatRead) :=
  rounds (getContentsStep dev) fuel
    { mydata := d
      curclust := startOf d dent
      endclust := startOf d dent
      actsize := d.bytesPerClust
      filesize := limitedSize dent maxsize
      gotsize := 0
      out := [] }

end UBoot.Fs.Fat
