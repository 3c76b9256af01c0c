import UBoot.LibGeneric.Byteorder
import UBoot.Lib.Blocks

/-!
# Reading files of ext2

`fs/ext2/ext2fs.c` and `dev.c`: `ext2fs_read_block` finds the block of a file, with two tables in
memory that all files share, and `ext2fs_read_file` copies a range of blocks.

The disk is that of the partition.  Each call of the driver's `block_read` either succeeds or fails,
and one that fails may have put some bytes in its buffer; `reads` has the answers in the order of
the calls, and `time` counts them.  Memory can always be allocated.  The buffer of the caller is
given from its start on.
-/

namespace UBoot.Fs.Ext2

open UBoot.Lib UBoot.LibGeneric

/-- An `int` of 32 bits. -/
def toInt (x : Nat) : Int := if ulong x < 2 ^ 31 then ulong x else (ulong x : Int) - 2 ^ 32

/-! ## The volume -/

/-- `struct ext2_sblock`, and the partition. -/
structure Volume where
  log2BlockSize : Nat
  totalBlocks : Nat
  /-- `part_info.size`, in sectors -/
  partSize : Nat
  disk : Contents

/-- `LOG2_EXT2_BLOCK_SIZE`: a block in sectors. -/
def Volume.log2Sectors (vol : Volume) : Nat := vol.log2BlockSize + 1

/-- `EXT2_BLOCK_SIZE`, which is `1 << (log2_block_size + 10)`. -/
def Volume.blksz (vol : Volume) : Nat := 2 ^ 10 * 2 ^ vol.log2BlockSize

/-- `blksz / 4`: the numbers in a table. -/
def Volume.perblock (vol : Volume) : Nat := vol.blksz / 4

/-- `struct ext2_inode` -/
structure Inode where
  size : Nat
  dirBlocks : Nat → Nat
  indirBlock : Nat
  doubleIndirBlock : Nat
  trippleIndirBlock : Nat

/-- `INDIRECT_BLOCKS` -/
def indirectBlocks : Nat := 12

/-! ## The device -/

/-- What one call of `block_read` does: it reads all sectors, or only puts some bytes in the
buffer. -/
inductive Outcome where
  | ok
  | failed (got : Bytes)
  deriving DecidableEq, Repr

/-- What is around the code. -/
structure Env where
  /-- the answer to each call of `block_read` -/
  reads : Nat → Outcome
  /-- what a buffer on the stack holds -/
  stack : Contents
  /-- what fresh memory holds -/
  heap : Contents

/-- `block_read`, to an address in a buffer. -/
def blockRead (vol : Volume) (env : Env) (time sector count : Nat) (buf : Contents) (addr : Nat) :
    Bool × Contents :=
  match env.reads time with
  | .ok => (true, storeAt buf addr (readAt vol.disk (sector * 512) (count * 512)))
  | .failed got => (false, storeAt buf addr (got.take (count * 512)))

/-- The result of a read, the buffer, and the time. -/
structure Transfer where
  ok : Bool
  buf : Contents
  time : Nat

/-- "read sector aligned part" of `ext2fs_devread` and what follows it, for an offset that is
aligned. -/
def devreadAligned (vol : Volume) (env : Env) (time sector len : Nat) (buf : Contents)
    (addr : Nat) : Transfer :=
  if len = 0 then ⟨true, buf, time⟩
  else
    let blockLen := len / 512 * 512
    if blockLen = 0 then
      -- the result of this read is not looked at
      let (_, p) := blockRead vol env time sector 1 env.stack 0
      ⟨true, storeAt buf addr (readAt p 0 len), time + 1⟩
    else
      match blockRead vol env time sector (blockLen / 512) buf addr with
      | (false, buf) => ⟨false, buf, time + 1⟩
      | (true, buf) =>
        if len - blockLen = 0 then ⟨true, buf, time + 1⟩
        else
          match blockRead vol env (time + 1) (sector + blockLen / 512) 1 env.stack 0 with
          | (false, _) => ⟨false, buf, time + 2⟩
          | (true, secBuf) =>
            ⟨true, storeAt buf (addr + blockLen) (readAt secBuf 0 (len - blockLen)), time + 2⟩

/-- `ext2fs_devread`.  The offset or the length is not 0. -/
def ext2fsDevread (vol : Volume) (env : Env) (time : Nat) (sector : Int) (byteOffset byteLen : Nat)
    (buf : Contents) (addr : Nat) : Transfer :=
  if sector < 0 ∨ vol.partSize ≤ sector.toNat + (byteOffset + byteLen - 1) / 512 then
    ⟨false, buf, time⟩
  else
    let sector := sector.toNat + byteOffset / 512
    let byteOffset := byteOffset % 512
    if byteOffset = 0 then devreadAligned vol env time sector byteLen buf addr
    else
      match blockRead vol env time sector 1 env.stack 0 with
      | (false, _) => ⟨false, buf, time + 1⟩
      | (true, secBuf) =>
        let n := min (512 - byteOffset) byteLen
        devreadAligned vol env (time + 1) (sector + 1) (byteLen - n)
          (storeAt buf addr (readAt secBuf byteOffset n)) (addr + n)

/-! ## The blocks of a file -/

/-- `indir1_block` or `indir2_block`, with its size and number; `-1` is the highest number. -/
structure Table where
  size : Nat
  blkno : Nat
  block : Contents

/-- The two tables, and the calls of `block_read` so far. -/
structure State where
  indir1 : Option Table
  indir2 : Option Table
  time : Nat

/-- A table that is there, and has the size of a block. -/
def allocTable (vol : Volume) (env : Env) (table : Option Table) : Table :=
  match table with
  | none => ⟨vol.blksz, 2 ^ 32 - 1, env.heap⟩
  | some table => if vol.blksz ≠ table.size then ⟨vol.blksz, 2 ^ 32 - 1, env.heap⟩ else table

/-- `x << log2_blksz` -/
def Volume.sectorOf (vol : Volume) (block : Nat) : Nat := ulong (block * 2 ^ vol.log2Sectors)

/-- The result of reading a table, the table, and the time. -/
structure Fetch where
  ok : Bool
  table : Table
  time : Nat

/-- The block of a table is read, unless its number is `cached`. -/
def fetchTable (vol : Volume) (env : Env) (time : Nat) (table : Table) (block cached : Nat) :
    Fetch :=
  if vol.sectorOf block ≠ cached then
    let r := ext2fsDevread vol env time (toInt (vol.sectorOf block)) 0 vol.blksz table.block 0
    if r.ok then ⟨true, ⟨table.size, vol.sectorOf block, r.buf⟩, r.time⟩
    else ⟨false, ⟨table.size, table.blkno, r.buf⟩, r.time⟩
  else ⟨true, table, time⟩

/-- An entry of a table. -/
def Table.entry (table : Table) (k : Nat) : Nat := load32 table.block (4 * k)

/-- `ext2fs_read_block` -/
def ext2fsReadBlock (vol : Volume) (env : Env) (inode : Inode) (fileblock : Nat) (st : State) :
    Int × State :=
  if fileblock < indirectBlocks then (toInt (inode.dirBlocks fileblock), st)
  else if fileblock < indirectBlocks + vol.perblock then
    let table := allocTable vol env st.indir1
    let r := fetchTable vol env st.time table inode.indirBlock table.blkno
    let st := ⟨some r.table, st.indir2, r.time⟩
    if r.ok then (toInt (r.table.entry (fileblock - indirectBlocks)), st) else (0, st)
  else if fileblock < indirectBlocks + vol.perblock * (vol.perblock + 1) then
    let rblock := fileblock - (indirectBlocks + vol.perblock)
    let table1 := allocTable vol env st.indir1
    let r1 := fetchTable vol env st.time table1 inode.doubleIndirBlock table1.blkno
    if r1.ok then
      let table2 := allocTable vol env st.indir2
      -- the number is compared with that of the first table
      let r2 := fetchTable vol env r1.time table2 (r1.table.entry (rblock / vol.perblock))
        r1.table.blkno
      let st := ⟨some r1.table, some r2.table, r2.time⟩
      if r2.ok then (toInt (r2.table.entry (rblock % vol.perblock)), st) else (-1, st)
    else (-1, ⟨some r1.table, st.indir2, r1.time⟩)
  else (-1, st)

/-! ## Reading a range -/

/-- A request to read `len` bytes from `pos` on.  The sum of the two is an `int`. -/
structure Request where
  inode : Inode
  pos : Nat
  len : Nat
  end_lt : pos + len < 2 ^ 31

/-- `blockcnt` -/
def Request.blockcnt (vol : Volume) (r : Request) : Nat :=
  (r.len + r.pos + vol.blksz - 1) / vol.blksz

/-- `skipfirst` -/
def Request.skipfirst (vol : Volume) (r : Request) (i : Nat) : Nat :=
  if i = r.pos / vol.blksz then r.pos % vol.blksz else 0

/-- `blockend`, with what is skipped taken off. -/
def Request.blockend (vol : Volume) (r : Request) (i : Nat) : Nat :=
  let blockend :=
    if i = r.blockcnt vol - 1 then
      if (r.len + r.pos) % vol.blksz = 0 then vol.blksz else (r.len + r.pos) % vol.blksz
    else vol.blksz
  blockend - r.skipfirst vol i

/-- The state of the loop, with the caller's memory and the place in it. -/
structure Loop where
  st : State
  mem : Contents
  buf : Nat

/-- A round of the loop that goes on, or after which the function returns −1. -/
structure Round where
  goesOn : Bool
  l : Loop

/-- One round of the loop of `ext2fs_read_file`. -/
def readStep (vol : Volume) (env : Env) (r : Request) (i : Nat) (l : Loop) : Round :=
  let m := ext2fsReadBlock vol env r.inode i l.st
  if m.1 < 0 then ⟨false, ⟨m.2, l.mem, l.buf⟩⟩
  else
    let sector := toInt (vol.sectorOf m.1.toNat)
    let n := vol.blksz - r.skipfirst vol i
    if sector ≠ 0 then
      let d := ext2fsDevread vol env m.2.time sector (r.skipfirst vol i) (r.blockend vol i) l.mem
        l.buf
      ⟨d.ok, ⟨{ m.2 with time := d.time }, d.buf, if d.ok then l.buf + n else l.buf⟩⟩
    else ⟨true, ⟨m.2, storeAt l.mem l.buf (List.replicate n 0), l.buf + n⟩⟩

/-- The loop over the blocks of a list. -/
def readLoop (vol : Volume) (env : Env) (r : Request) : List Nat → Loop → Round
  | [], l => ⟨true, l⟩
  | i :: is, l =>
    let s := readStep vol env r i l
    if s.goesOn then readLoop vol env r is s.l else s

/-- `if (len > filesize) len = filesize;` -/
def Request.clamp (r : Request) : Request :=
  { r with
    len := min r.len r.inode.size
    end_lt := Nat.lt_of_le_of_lt (Nat.add_le_add_left (Nat.min_le_left _ _) _) r.end_lt }

/-- The blocks that the loop runs over. -/
def Request.fileblocks (vol : Volume) (r : Request) : List Nat :=
  List.range' (r.pos / vol.blksz) (r.blockcnt vol - r.pos / vol.blksz)

/-- `ext2fs_read_file`: what it returns, the state, and the caller's memory. -/
def ext2fsReadFile (vol : Volume) (env : Env) (r : Request) (st : State) (mem : Contents) :
    Int × State × Contents :=
  let r := r.clamp
  let s := readLoop vol env r (r.fileblocks vol) ⟨st, mem, 0⟩
  (if s.goesOn then r.len else -1, s.l.st, s.l.mem)

/-- `ext2fs_close`, as far as the tables go. -/
def ext2fsClose (st : State) : State := { st with indir1 := none, indir2 := none }

end UBoot.Fs.Ext2
