import UBoot.Fs.Jffs2
import UBoot.Lib.Loop

/-!
# The scan of a JFFS2 partition

`jffs2_1pass_build_lists` of `fs/jffs2/jffs2_1pass.c`, without `CONFIG_JFFS2_SUMMARY`.

The scan stands at one of four places: at the head of the loop over the sectors, in the loop over
the first words of a sector, at `scan_more`, or in the search behind `more_empty`.  One pass takes
it through the code there, to the next place.  It logs what is read from flash and what is looked at
in `buf`; bytes that the same pass has already looked at are not logged again.

There is memory for `buf`.  What `insert_node` returns is a parameter: `room n` says whether the
call behind `n` others finds memory.  `crc` is `crc32_no_comp(0, p, len)`.
-/

namespace UBoot.Fs.Jffs2

open UBoot.Lib UBoot.LibGeneric

/-- The fields of `struct part_info` that count here. -/
structure PartInfo where
  size : Nat
  offset : Nat
  sectorSize : Nat
  size_lt : size < 2 ^ 32
  offset_lt : offset < 2 ^ 32
  four_dvd_sectorSize : 4 ∣ sectorSize
  le_sectorSize : 4096 ≤ sectorSize
  sectorSize_dvd_size : sectorSize ∣ size

/-- What the scan reads from flash, and what it looks at in `buf`. -/
inductive Access where
  | read (off size : Nat)
  | look (index size : Nat)
  deriving DecidableEq, Repr

/-- The variables of the loop over the sectors, and what `buf` holds. -/
structure Scan where
  i : Nat
  ofs : Nat
  prevofs : Nat
  bufOfs : Nat
  bufLen : Nat
  buf : Mem

/-- Where the scan stands. -/
inductive Place where
  | sector (i : Nat) (buf : Mem)
  | first (i ofs : Nat) (buf : Mem)
  | scanMore (s : Scan)
  | moreEmpty (s : Scan) (inbufOfs scanEnd : Nat)

/-- `pL->frag` or `pL->dir` -/
inductive ListName where
  | frag
  | dir
  deriving DecidableEq, Repr

/-- A node for which `insert_node` is called. -/
structure NewNode where
  list : ListName
  offset : Nat
  totlen : Nat
  deriving DecidableEq, Repr

/-- What a pass logs, the node that it finds, and where it leads, none if the scan is done. -/
structure Visit where
  log : List Access
  node : Option NewNode
  next : Option Place

/-- With what has been read and looked at before. -/
def Visit.behind (v : Visit) (log : List Access) : Visit := { v with log := log ++ v.log }

@[simp] theorem Visit.behind_log (v : Visit) (log : List Access) :
    (v.behind log).log = log ++ v.log := rfl

@[simp] theorem Visit.behind_next (v : Visit) (log : List Access) :
    (v.behind log).next = v.next := rfl

/-- `DEFAULT_EMPTY_SCAN_SIZE` -/
def defaultEmptyScanSize : Nat := 4096

/-- `EMPTY_SCAN_SIZE` -/
def emptyScanSize (sectorSize : Nat) : Nat :=
  if sectorSize < defaultEmptyScanSize then sectorSize else defaultEmptyScanSize

/-- `buf_size` -/
def bufSize : Nat := defaultEmptyScanSize

/-- `JFFS2_NODETYPE_DIRENT` -/
def jffs2NodetypeDirent : Nat := 0xe001

/-- `JFFS2_NODETYPE_INODE` -/
def jffs2NodetypeInode : Nat := 0xe002

/-- The difference of two `uint32_t`. -/
def ulongSub (a b : Nat) : Nat := (a + 2 ^ 32 - b) % 2 ^ 32

/-- `(totlen + 3) & ~3` -/
def align4 (totlen : Nat) : Nat := ulong (totlen + 3) / 4 * 4

/-- What a pointer into a buffer points to. -/
def ptr (buf : Mem) (index : Nat) : Mem := fun k => buf (index + k)

/-- The index of `node` in `buf`. -/
def Scan.index (s : Scan) : Nat := ulongSub s.ofs s.bufOfs

def Scan.node (s : Scan) : Mem := ptr s.buf s.index

/-- `ofs += 4` -/
def Scan.skip (s : Scan) : Scan := { s with ofs := ulong (s.ofs + 4) }

/-- `ofs += ((node->totlen + 3) & ~3)` -/
def Scan.advance (s : Scan) : Scan := { s with ofs := ulong (s.ofs + align4 (totlen s.node)) }

/-! ## Checksums -/

section Checksums

variable (crc : Bytes → Nat) (node : Mem)

/-- `hdr_crc` -/
def hdrCrcOk : Bool := hdrCrc node = crc (bytesAt node 0 (sizeofUnknownNode - 4))

/-- `inode_crc` -/
def inodeCrcOk : Bool := inodeNodeCrc node = crc (bytesAt node 0 (sizeofRawInode - 8))

/-- `dirent_crc` -/
def direntCrcOk : Bool := direntNodeCrc node = crc (bytesAt node 0 (sizeofRawDirent - 8))

/-- `dirent_name_crc` -/
def direntNameCrcOk : Bool :=
  direntNameCrc node = crc (bytesAt node sizeofRawDirent (direntNsize node))

end Checksums

/-! ## Passes -/

section Passes

variable (part : PartInfo) (flash : Mem) (crc : Bytes → Nat)

/-- `nr_sectors` -/
def nrSectors : Nat := part.size / part.sectorSize

/-- `sector_ofs` -/
def sectorOfs (i : Nat) : Nat := ulong (i * part.sectorSize)

/-- `sector_ofs + part->sector_size` -/
def sectorEnd (i : Nat) : Nat := ulong (sectorOfs part i + part.sectorSize)

/-- `get_fl_mem((u32)part->offset + ofs, buf_len, buf)` and `buf_ofs = ofs` -/
def Scan.fetch (s : Scan) (len : Nat) : Scan :=
  { s with
    bufOfs := s.ofs
    bufLen := len
    buf := fill flash (ulong (part.offset + s.ofs)) len s.buf }

/-- `buf_ofs + buf_len < ofs + need` -/
def Scan.Short (s : Scan) (need : Nat) : Prop := ulong (s.bufOfs + s.bufLen) < ulong (s.ofs + need)

instance (s : Scan) (need : Nat) : Decidable (s.Short need) := Nat.decLt _ _

/-- `len` bytes are read if the buffer ends within the next `need` ones. -/
def Scan.ensure (s : Scan) (need len : Nat) : Scan :=
  if s.Short need then s.fetch part flash len else s

/-- What `ensure` logs. -/
def ensureLog (s : Scan) (need len : Nat) : List Access :=
  if s.Short need then [.read (ulong (part.offset + s.ofs)) len] else []

/-- `case JFFS2_NODETYPE_INODE` -/
def visitInode (s : Scan) : Visit :=
  let t := s.ensure part flash sizeofRawInode s.bufLen
  let log := ensureLog part s sizeofRawInode s.bufLen ++
    [.look t.index (sizeofRawInode - 8), .look (t.index + (sizeofRawInode - 4)) 4]
  if inodeCrcOk crc t.node then
    ⟨log, some ⟨.frag, ulong (part.offset + t.ofs), totlen t.node⟩, some (.scanMore t.advance)⟩
  else ⟨log, none, some (.scanMore t.advance)⟩

/-- `case JFFS2_NODETYPE_DIRENT` -/
def visitDirent (s : Scan) : Visit :=
  let need := sizeofRawDirent + direntNsize s.node
  let t := s.ensure part flash need s.bufLen
  let log := .look (s.index + 28) 1 :: ensureLog part s need s.bufLen ++
    [.look t.index (sizeofRawDirent - 4)]
  if direntCrcOk crc t.node then
    let log := log ++ [.look (t.index + (sizeofRawDirent - 4)) (4 + direntNsize t.node)]
    if direntNameCrcOk crc t.node then
      ⟨log, some ⟨.dir, ulong (part.offset + t.ofs), totlen t.node⟩, some (.scanMore t.advance)⟩
    else ⟨log, none, some (.scanMore t.advance)⟩
  else ⟨log, none, some (.scanMore t.advance)⟩

/-- `switch (node->nodetype)`; the other types are passed over. -/
def visitValid (s : Scan) : Visit :=
  if nodetype s.node = jffs2NodetypeInode then visitInode part flash crc s
  else if nodetype s.node = jffs2NodetypeDirent then visitDirent part flash crc s
  else ⟨[], none, some (.scanMore s.advance)⟩

/-- From `node = (struct jffs2_unknown_node *)&buf[ofs-buf_ofs]` on. -/
def visitNode (s : Scan) : Visit :=
  if load32 s.node 0 = 0xffffffff then
    ⟨[.look s.index 4], none, some (.moreEmpty s.skip s.skip.index
      (min (emptyScanSize part.sectorSize / 8) s.bufLen))⟩
  else if magic s.node ≠ jffs2MagicBitmask then ⟨[.look s.index 4], none, some (.scanMore s.skip)⟩
  else
    let log := [.look s.index 4, .look s.index sizeofUnknownNode]
    if ¬ hdrCrcOk crc s.node then ⟨log, none, some (.scanMore s.skip)⟩
    else if sectorEnd part s.i < ulong (s.ofs + totlen s.node) then
      ⟨log, none, some (.scanMore s.skip)⟩
    else (visitValid part flash crc s).behind log

/-- How much the buffer is filled with, up to the end of the sector. -/
def windowLen (s : Scan) : Nat := min bufSize (ulongSub (sectorEnd part s.i) s.ofs)

/-- `prevofs = ofs`, and the buffer made to hold the header. -/
def Scan.refill (s : Scan) : Scan :=
  { s with prevofs := s.ofs }.ensure part flash sizeofUnknownNode (windowLen part s)

/-- A pass from `scan_more` on. -/
def visitMore (s : Scan) : Visit :=
  if ¬ s.ofs < sectorEnd part s.i then ⟨[], none, some (.sector (s.i + 1) s.buf)⟩
  else if s.ofs = s.prevofs then ⟨[], none, some (.scanMore s.skip)⟩
  else if sectorEnd part s.i < ulong (s.ofs + sizeofUnknownNode) then
    ⟨[], none, some (.sector (s.i + 1) s.buf)⟩
  else
    (visitNode part flash crc (s.refill part flash)).behind
      (ensureLog part s sizeofUnknownNode (windowLen part s))

/-- A pass of the search for a word that is not erased, with what comes behind it. -/
def visitEmpty (s : Scan) (inbufOfs scanEnd : Nat) : Visit :=
  if inbufOfs < scanEnd then
    if load32 (ptr s.buf inbufOfs) 0 ≠ 0xffffffff then
      ⟨[.look inbufOfs 4], none, some (.scanMore s)⟩
    else ⟨[.look inbufOfs 4], none, some (.moreEmpty s.skip (ulong (inbufOfs + 4)) scanEnd)⟩
  else
    let len := windowLen part s
    if len = 0 then ⟨[], none, some (.sector (s.i + 1) s.buf)⟩
    else
      let t := s.fetch part flash len
      ⟨[.read (ulong (part.offset + s.ofs)) len], none, some (.moreEmpty t t.index len)⟩

/-- A pass of the loop over the first words of a sector, with what comes behind it. -/
def visitFirst (i ofs : Nat) (buf : Mem) : Visit :=
  let size := emptyScanSize part.sectorSize
  let log := if ofs < size then [.look ofs 4] else []
  if ofs < size ∧ load32 (ptr buf ofs) 0 = 0xffffffff then
    ⟨log, none, some (.first i (ulong (ofs + 4)) buf)⟩
  else if ofs = size then ⟨log, none, some (.sector (i + 1) buf)⟩
  else
    let start := ulong (ofs + sectorOfs part i)
    ⟨log, none, some (.scanMore ⟨i, start, ulongSub start 1, sectorOfs part i, size, buf⟩)⟩

/-- The head of the loop over the sectors, and the first read of a sector. -/
def visitSector (i : Nat) (buf : Mem) : Visit :=
  if i < nrSectors part then
    let off := ulong (part.offset + sectorOfs part i)
    let size := emptyScanSize part.sectorSize
    ⟨[.read off size], none, some (.first i 0 (fill flash off size buf))⟩
  else ⟨[], none, none⟩

def visit : Place → Visit
  | .sector i buf => visitSector part flash i buf
  | .first i ofs buf => visitFirst part i ofs buf
  | .scanMore s => visitMore part flash crc s
  | .moreEmpty s inbufOfs scanEnd => visitEmpty part flash s inbufOfs scanEnd

end Passes

/-! ## The scan -/

/-- The offsets in `pL->frag` and `pL->dir` in the order of their insertion, and `max_totlen`. -/
structure Built where
  frag : List Nat
  dir : List Nat
  maxTotlen : Nat
  deriving DecidableEq, Repr

/-- `insert_node`, and `max_totlen` behind it. -/
def Built.insertNode (b : Built) (node : NewNode) : Built :=
  let maxTotlen := if b.maxTotlen < node.totlen then node.totlen else b.maxTotlen
  match node.list with
  | .frag => ⟨b.frag ++ [node.offset], b.dir, maxTotlen⟩
  | .dir => ⟨b.frag, b.dir ++ [node.offset], maxTotlen⟩

/-- Where a pass leads, with the lists behind it, or what is returned. -/
def goOn (next : Option Place) (b : Built) : (Place × Built) ⊕ Nat :=
  match next with
  | some p => .inl (p, b)
  | none => .inr 1

/-- A pass of the scan; with no memory for a node it returns 0. -/
def scanPass (part : PartInfo) (flash : Mem) (crc : Bytes → Nat) (room : Nat → Bool)
    (s : Place × Built) : List Access × ((Place × Built) ⊕ Nat) :=
  let v := visit part flash crc s.1
  match v.node with
  | none => (v.log, goOn v.next s.2)
  | some node =>
    if room (s.2.frag.length + s.2.dir.length) then (v.log, goOn v.next (s.2.insertNode node))
    else (v.log, .inr 0)

/-- `jffs2_1pass_build_lists` up to the end of its scan: so many passes, with what `malloc` leaves
in `buf`. -/
def jffs21passBuildLists (part : PartInfo) (flash : Mem) (crc : Bytes → Nat) (room : Nat → Bool)
    (heap : Mem) (fuel : Nat) : Option (List Access × Nat) :=
  loop (scanPass part flash crc room) fuel (.sector 0 heap, ⟨[], [], 0⟩)

end UBoot.Fs.Jffs2
