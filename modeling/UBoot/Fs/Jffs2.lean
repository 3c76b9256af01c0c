import UBoot.LibGeneric.Byteorder

/-!
# The nodes of JFFS2

`fs/jffs2/jffs2_1pass.c`: how nodes are read from flash, the lists of nodes, and the two functions
that look through a list, `jffs2_1pass_find_inode` and `jffs2_1pass_read_inode`.

Flash and buffers are functions from addresses to bytes.  Reading a node from NAND fills the start
of a buffer and leaves the rest of it, and so does reading from NOR into a buffer; only without a
buffer a node in NOR is used where it lies.  Reads succeed.  The checksum is a parameter.

A list holds its nodes in order.  `listLast` is the position of a node in it; `listTail` is its last
node.  The memory of a new node is not cleared, so `datacrc` is what was there before.
-/

namespace UBoot.Fs.Jffs2

open UBoot.Lib UBoot.LibGeneric

/-- Flash, or a buffer from its start on. -/
abbrev Mem := Nat → UInt8

/-- The `uint16_t` at an address. -/
def load16 (m : Mem) (addr : Nat) : Nat := (m addr).toNat + (m (addr + 1)).toNat * 2 ^ 8

/-- The bytes of a range. -/
def bytesAt (m : Mem) (addr len : Nat) : Bytes := (List.range len).map fun i => m (addr + i)

/-- Flash from an offset on. -/
def view (flash : Mem) (off : Nat) : Mem := fun i => flash (ulong (off + i))

/-! ## Fields -/

/-- `JFFS2_MAGIC_BITMASK` -/
def jffs2MagicBitmask : Nat := 0x1985

/-- `sizeof(struct jffs2_unknown_node)` -/
def sizeofUnknownNode : Nat := 12

/-- `sizeof(struct jffs2_raw_dirent)` -/
def sizeofRawDirent : Nat := 40

/-- `sizeof(struct jffs2_raw_inode)` -/
def sizeofRawInode : Nat := 68

section Fields

variable (node : Mem)

def magic : Nat := load16 node 0
def nodetype : Nat := load16 node 2
def totlen : Nat := load32 node 4
def hdrCrc : Nat := load32 node 8

/-! The fields of `struct jffs2_raw_dirent`. -/

def direntPino : Nat := load32 node 12
def direntVersion : Nat := load32 node 16
def direntIno : Nat := load32 node 20
def direntNsize : Nat := (node 28).toNat
def direntNodeCrc : Nat := load32 node 32
def direntNameCrc : Nat := load32 node 36
def direntName : Mem := fun i => node (40 + i)

/-! The fields of `struct jffs2_raw_inode`. -/

def inodeIno : Nat := load32 node 12
def inodeVersion : Nat := load32 node 16
def inodeIsize : Nat := load32 node 28
def inodeOffset : Nat := load32 node 44
def inodeCsize : Nat := load32 node 48
def inodeDsize : Nat := load32 node 52
def inodeCompr : Nat := (node 56).toNat
def inodeDataCrc : Nat := load32 node 60
def inodeNodeCrc : Nat := load32 node 64

end Fields

/-! ## Reading -/

/-- `type` of `struct mtdids`. -/
inductive DevType where
  | nor
  | nand
  | onenand
  deriving DecidableEq, Repr

/-- The first bytes of a buffer replaced by those of flash. -/
def fill (flash : Mem) (off size : Nat) (buf : Mem) : Mem := fun i =>
  if i < size then view flash off i else buf i

/-- What `get_fl_mem` points to.  Without a buffer, NAND gets fresh memory. -/
def getFlMem (type : DevType) (flash : Mem) (off size : Nat) (extBuf : Option Mem) (heap : Mem) :
    Mem :=
  match extBuf, type with
  | some buf, _ => fill flash off size buf
  | none, .nor => view flash off
  | none, _ => fill flash off size heap

/-- What `get_node_mem` points to. -/
def getNodeMem (type : DevType) (flash : Mem) (off : Nat) (extBuf : Option Mem) (heap : Mem) :
    Mem :=
  let node := view flash off
  let size := if magic node = jffs2MagicBitmask then totlen node else sizeofUnknownNode
  getFlMem type flash off size extBuf heap

/-- What is behind `pL->readbuf` after a read. -/
def keepBuf (extBuf : Option Mem) (node : Mem) : Option Mem := extBuf.map fun _ => node

/-! ## Lists -/

/-- `struct b_node`; `CRC_UNKNOWN` is 0, `CRC_OK` 1 and `CRC_BAD` 2. -/
structure BNode where
  offset : Nat
  datacrc : Nat
  deriving DecidableEq, Repr

/-- `struct b_list` -/
structure BList where
  nodes : List BNode
  listLast : Option Nat
  deriving DecidableEq, Repr

/-- `list->listCompare` -/
abbrev Compare := BNode → BNode → Bool

/-- The position from which the loop of `insert_node` starts. -/
def insertStart (compare : Compare) (list : BList) (new : BNode) : Nat :=
  if list.nodes.getLast?.any (compare new) then list.nodes.length
  else
    match list.listLast with
    | some last => if list.nodes[last]?.any (compare new) then last + 1 else 0
    | none => 0

/-- The position of the new node: where the loop of `insert_node` stops. -/
def insertPos (compare : Compare) (list : BList) (new : BNode) : Nat :=
  let start := insertStart compare list new
  start + ((list.nodes.drop start).takeWhile (compare new)).length

/-- `insert_node`, with `CONFIG_SYS_JFFS2_SORT_FRAGMENTS` (`sort`) or without. -/
def insertNode (sort : Bool) (compare : Compare) (list : BList) (new : BNode) : BList :=
  if sort then
    let pos := insertPos compare list new
    if pos < list.nodes.length then
      ⟨list.nodes.take pos ++ new :: list.nodes.drop pos, if pos = 0 then none else some (pos - 1)⟩
    else ⟨list.nodes ++ [new], list.listLast⟩
  else ⟨list.nodes ++ [new], list.listLast⟩

/-- The list behind calls of `insert_node`. -/
def insertAll (sort : Bool) (compare : Compare) (news : List BNode) : BList :=
  news.foldl (insertNode sort compare) ⟨[], none⟩

/-- `compare_inodes` -/
def compareInodes (flash : Mem) : Compare := fun new old =>
  inodeVersion (view flash new.offset) > inodeVersion (view flash old.offset)

/-- `compare_dirents`.  Only the structures are copied and not the names behind them, so `strncmp`
compares what lies behind the two copies (`names`); and the mark of the old node is made in the
copy. -/
def compareDirents (flash : Mem) (names : BNode → BNode → Int) : Compare := fun new old =>
  let jNew := view flash new.offset
  let jOld := view flash old.offset
  if direntPino jNew ≠ direntPino jOld then direntPino jNew > direntPino jOld
  else if direntNsize jNew ≠ direntNsize jOld then direntNsize jNew > direntNsize jOld
  else if names new old ≠ 0 then names new old > 0
  else direntVersion jNew > direntVersion jOld

/-! ## Looking up a name -/

/-- `strncmp`, as the byte of its `signed char`. -/
def strncmp (cs ct : Mem) : Nat → UInt8
  | 0 => 0
  | count + 1 =>
    if cs 0 - ct 0 ≠ 0 then cs 0 - ct 0
    else if cs 0 = 0 then 0
    else strncmp (fun i => cs (i + 1)) (fun i => ct (i + 1)) count

/-- A string with its terminator. -/
def cstr (s : Bytes) : Mem := fun i => s.getD i 0

/-- The list, and the memory that nodes are read to. -/
structure Lists where
  type : DevType
  flash : Mem
  readbuf : Option Mem
  /-- what fresh memory for a node holds -/
  heap : Nat → Mem

/-- The loop of `jffs2_1pass_find_inode`, with `version` and `inode`. -/
def findLoop (pL : Lists) (name : Bytes) (pino : Nat) : List BNode → Nat → Nat → Nat
  | [], _, inode => inode
  | b :: dirs, version, inode =>
    let jDir := getNodeMem pL.type pL.flash b.offset pL.readbuf (pL.heap b.offset)
    let pL := { pL with readbuf := keepBuf pL.readbuf jDir }
    if pino = direntPino jDir ∧ name.length = direntNsize jDir ∧ direntIno jDir ≠ 0 ∧
        strncmp (direntName jDir) (cstr name) name.length = 0 then
      if direntVersion jDir < version then findLoop pL name pino dirs version inode
      else findLoop pL name pino dirs (direntVersion jDir) (direntIno jDir)
    else findLoop pL name pino dirs version inode

/-- `jffs2_1pass_find_inode` -/
def jffs21passFindInode (pL : Lists) (dirs : List BNode) (name : Bytes) (pino : Nat) : Nat :=
  findLoop pL name pino dirs 0 0

/-! ## Reading a file -/

/-- `JFFS2_COMPR_NONE` -/
def jffs2ComprNone : Nat := 0

/-- `JFFS2_COMPR_ZERO` -/
def jffs2ComprZero : Nat := 1

/-- The checksum, and the decompressors: what each of them writes for a node, if it is compiled
in. -/
structure Codecs where
  crc : Bytes → Nat
  decompress : Nat → Option (Mem → Bytes)

/-- `data_crc` -/
def dataCrc (codecs : Codecs) (node : Mem) : Bool :=
  inodeDataCrc node = codecs.crc (bytesAt node sizeofRawInode (inodeCsize node))

/-- The bytes that `switch (jNode->compr)` writes from `lDest` on. -/
def inodeData (codecs : Codecs) (node : Mem) : Option Bytes :=
  if inodeCompr node = jffs2ComprNone then some (bytesAt node sizeofRawInode (inodeDsize node))
  else if inodeCompr node = jffs2ComprZero then some (List.replicate (inodeDsize node) 0)
  else (codecs.decompress (inodeCompr node)).map fun f => f node

/-- A piece of data stored in the destination. -/
def putData (dest : Mem) (offset : Nat) (data : Bytes) : Mem := fun p =>
  if offset ≤ p ∧ p < offset + data.length then data.getD (p - offset) 0 else dest p

/-- "get actual file length from the newest node", with `latestVersion` and `totalSize`. -/
def sizeStep (inode : Nat) (s : Nat × Nat) (node : Mem) : Nat × Nat :=
  if inode = inodeIno node ∧ s.1 ≤ inodeVersion node then (inodeVersion node, inodeIsize node)
  else s

/-- The first loop of `jffs2_1pass_read_inode`, which is there with
`CONFIG_SYS_JFFS2_SORT_FRAGMENTS`. -/
def sizeLoop (pL : Lists) (inode : Nat) : List BNode → Nat × Nat → (Nat × Nat) × Lists
  | [], s => (s, pL)
  | b :: frags, s =>
    let jNode := getFlMem pL.type pL.flash b.offset sizeofRawInode pL.readbuf (pL.heap b.offset)
    let pL := { pL with readbuf := keepBuf pL.readbuf jNode }
    sizeLoop pL inode frags (sizeStep inode s jNode)

/-- A `u32` returned as an `int`, or as a `long` of 32 bits. -/
def intOf (n : Nat) : Int := if n < 2 ^ 31 then n else (n : Int) - 2 ^ 32

theorem intOf_nonneg {n : Nat} (hn : n < 2 ^ 32) : 0 ≤ intOf n ↔ n < 2 ^ 31 := by
  rw [intOf]
  split <;> omega

theorem intOf_eq_iff {n : Nat} : intOf n = n ↔ n < 2 ^ 31 := by
  rw [intOf]
  split <;> omega

/-- What `jffs2_1pass_read_inode` returns, the nodes with their marks, and the destination. -/
structure ReadResult where
  ret : Int
  frags : List BNode
  dest : Option Mem

/-- `b->datacrc` after the check. -/
def checkCrc (codecs : Codecs) (b : BNode) (node : Mem) : BNode :=
  if b.datacrc = 0 then { b with datacrc := if dataCrc codecs node then 1 else 2 } else b

/-- The second loop of `jffs2_1pass_read_inode`. -/
def readLoop (sort : Bool) (codecs : Codecs) (inode : Nat) : Lists → List BNode → Nat × Nat →
    Option Mem → ReadResult
  | _, [], s, dest => ⟨intOf s.2, [], dest⟩
  | pL, b :: frags, s, dest =>
    let jNode := getNodeMem pL.type pL.flash b.offset pL.readbuf (pL.heap b.offset)
    let pL := { pL with readbuf := keepBuf pL.readbuf jNode }
    let keep (b : BNode) (r : ReadResult) : ReadResult := { r with frags := b :: r.frags }
    if inode = inodeIno jNode then
      let s := if sort then s else sizeStep inode s jNode
      match dest with
      | none => keep b (readLoop sort codecs inode pL frags s none)
      | some mem =>
        if s.2 < inodeOffset jNode then keep b (readLoop sort codecs inode pL frags s dest)
        else
          let b := checkCrc codecs b jNode
          if b.datacrc = 2 then keep b (readLoop sort codecs inode pL frags s dest)
          else
            match inodeData codecs jNode with
            | none => ⟨-1, b :: frags, dest⟩
            | some data =>
              keep b (readLoop sort codecs inode pL frags s
                (some (putData mem (inodeOffset jNode) data)))
    else keep b (readLoop sort codecs inode pL frags s dest)

/-- `jffs2_1pass_read_inode` -/
def jffs21passReadInode (sort : Bool) (codecs : Codecs) (pL : Lists) (frags : List BNode)
    (inode : Nat) (dest : Option Mem) : ReadResult :=
  if sort then
    let (s, pL) := sizeLoop pL inode frags (0, 0)
    readLoop sort codecs inode pL frags s dest
  else readLoop sort codecs inode pL frags (0, 0) dest

end UBoot.Fs.Jffs2
