import UBoot.Fs.Ext2
import UBoot.Lib.ByteOrder
import UBoot.Lib.Loop

/-!
# Looking through a directory of ext2

`ext2fs_iterate_dir` of `fs/ext2/ext2fs.c`: it goes from record to record, and looks a name up or
lists the names.  A `Reader` has the two functions that it reads with, which may keep a state; the
status of `ext2fs_read_file` is the length that was asked for, so that the bytes it has put in the
buffer are of this number.  Memory can always be allocated.  The log of the loop is what is printed.

`Files` are readers that give the same answer whenever they are asked.  Those of a directory that is
well formed have the bytes of its records (`Files.Holds`).
-/

namespace UBoot.Fs.Ext2

open UBoot.Lib UBoot.LibGeneric

/-- `struct ext2_inode`, with its mode. -/
structure DiskInode extends Inode where
  mode : Nat

/-- `struct ext2_dirent` -/
structure Dirent where
  inode : Nat
  direntlen : Nat
  namelen : Nat
  filetype : Nat

/-- The `struct ext2_dirent` in these bytes. -/
def dirent (bs : Bytes) : Dirent :=
  ⟨leWord (bs.take 4), leWord ((bs.drop 4).take 2), (bs.getD 6 0).toNat, (bs.getD 7 0).toNat⟩

/-- `FILETYPE_UNKNOWN` and the others -/
inductive FileType where
  | unknown
  | reg
  | directory
  | symlink
  deriving DecidableEq, Repr

/-- The type in a record. -/
def direntType (filetype : Nat) : FileType :=
  if filetype = 2 then .directory
  else if filetype = 7 then .symlink
  else if filetype = 1 then .reg
  else .unknown

/-- The type in an inode, under `FILETYPE_INO_MASK`. -/
def modeType (mode : Nat) : FileType :=
  if mode &&& 0o170000 = 0o040000 then .directory
  else if mode &&& 0o170000 = 0o120000 then .symlink
  else if mode &&& 0o170000 = 0o100000 then .reg
  else .unknown

/-- `struct ext2fs_node` -/
structure Node where
  ino : Nat
  /-- none as long as `inode_read` is 0 -/
  inode : Option DiskInode

/-- A line of the listing: the type, the size and the name. -/
structure Line where
  type : FileType
  size : Nat
  filename : Bytes

/-- What is read with, and the state it keeps. -/
structure Reader (σ : Type) where
  /-- `ext2fs_read_file`: the bytes, none for a status below 1 -/
  readFile : Inode → Nat → Nat → σ → Option Bytes × σ
  /-- `ext2fs_read_inode` -/
  readInode : Nat → σ → Option DiskInode × σ

/-- A text in C, up to its NUL. -/
def cText (s : Bytes) : Bytes := s.takeWhile (· ≠ 0)

/-- What `ext2fs_iterate_dir` returns: nothing for 0, the node and its type for 1. -/
abbrev Lookup := Option (Node × FileType)

section Model

variable {σ : Type} (io : Reader σ)

/-- The node of a record and its type.  "The filetype can not be read from the dirent, get it from
inode" -/
def recordNode (d : Dirent) (st : σ) : Lookup × σ :=
  if d.filetype ≠ 0 then (some (⟨d.inode, none⟩, direntType d.filetype), st)
  else
    match io.readInode d.inode st with
    | (none, st) => (none, st)
    | (some inode, st) => (some (⟨d.inode, some inode⟩, modeType inode.mode), st)

/-- The inode of a node, which is read unless it has been. -/
def nodeInode (node : Node) (st : σ) : Option DiskInode × σ :=
  match node.inode with
  | some inode => (some inode, st)
  | none => io.readInode node.ino st

/-- What a record leads to: the lines that are printed, and the state in front of the next record or
the result. -/
abbrev Pass (σ : Type) := List Line × ((Nat × σ) ⊕ (Lookup × σ))

/-- What is done with a name: it is compared, or it is printed. -/
def visitName (name : Option Bytes) (next : Nat) (filename : Bytes) (found : Node × FileType)
    (st : σ) : Pass σ :=
  match name with
  | some name => if filename = cText name then ([], .inr (some found, st)) else ([], .inl (next, st))
  | none =>
    match nodeInode io found.1 st with
    | (none, st) => ([], .inr (none, st))
    | (some inode, st) => ([⟨found.2, inode.size, filename⟩], .inl (next, st))

/-- A record that is behind `fpos`. -/
def visitRecord (dir : Inode) (name : Option Bytes) (fpos : Nat) (d : Dirent) (st : σ) : Pass σ :=
  let next := ulong (fpos + d.direntlen)
  if d.namelen ≠ 0 then
    match io.readFile dir (ulong (fpos + 8)) d.namelen st with
    | (none, st) => ([], .inr (none, st))
    | (some bs, st) =>
      match recordNode io d st with
      | (none, st) => ([], .inr (none, st))
      | (some found, st) => visitName io name next (cText bs) found st
  else ([], .inl (next, st))

/-- "Search the file." -/
def iteratePass (dir : Inode) (name : Option Bytes) : Nat × σ → Pass σ
  | (fpos, st) =>
    if fpos < dir.size then
      match io.readFile dir fpos 8 st with
      | (none, st) => ([], .inr (none, st))
      | (some bs, st) => visitRecord io dir name fpos (dirent bs) st
    else ([], .inr (none, st))

/-- `ext2fs_iterate_dir`, none if the loop goes on behind so many records. -/
def ext2fsIterateDir (dir : Node) (name : Option Bytes) (fuel : Nat) (st : σ) :
    Option (List Line × (Lookup × σ)) :=
  match nodeInode io dir st with
  | (none, st) => some ([], (none, st))
  | (some inode, st) => loop (iteratePass io inode.toInode name) fuel (0, st)

end Model

/-! ## Directories -/

/-- Files that can be read again. -/
structure Files where
  readFile : Inode → Nat → Nat → Option Bytes
  readInode : Nat → Option DiskInode

def Files.reader (F : Files) : Reader Unit where
  readFile dir pos len st := (F.readFile dir pos len, st)
  readInode ino st := (F.readInode ino, st)

/-- The inode of a node. -/
def Files.inodeOf (F : Files) (node : Node) : Option DiskInode :=
  node.inode.or (F.readInode node.ino)

/-- A record of a directory.  One that is not used has the inode 0, and any name may be left
over. -/
structure Record where
  inode : Nat
  filetype : Nat
  name : Bytes
  pad : Bytes
  inode_lt : inode < 2 ^ 32
  filetype_lt : filetype < 2 ^ 8
  name_lt : name.length < 2 ^ 8
  len_lt : 8 + (name.length + pad.length) < 2 ^ 16
  aligned : 4 ∣ name.length + pad.length
  used_name : inode ≠ 0 → name ≠ [] ∧ 0 ∉ name

/-- `direntlen` -/
def Record.direntlen (r : Record) : Nat := 8 + (r.name.length + r.pad.length)

def Record.Used (r : Record) : Prop := r.inode ≠ 0

instance (r : Record) : Decidable r.Used := inferInstanceAs (Decidable (r.inode ≠ 0))

def Record.header (r : Record) : Bytes :=
  leBytes 4 r.inode ++ leBytes 2 r.direntlen ++
    [UInt8.ofNat r.name.length, UInt8.ofNat r.filetype]

def Record.bytes (r : Record) : Bytes := r.header ++ (r.name ++ r.pad)

/-- The bytes of records that follow each other. -/
def recordBytes (rs : List Record) : Bytes := rs.flatMap Record.bytes

/-- Records that fill a block. -/
structure DirBlock (blksz : Nat) where
  records : List Record
  fills : (recordBytes records).length = blksz

/-- A directory of these blocks. -/
structure Directory where
  blksz : Nat
  blocks : List (DirBlock blksz)
  size_lt : blocks.length * blksz < 2 ^ 32

/-- All records, in the order in which they lie. -/
def Directory.records (D : Directory) : List Record := D.blocks.flatMap DirBlock.records

/-- The files have the directory, and the inodes of its records. -/
structure Files.Holds (F : Files) (inode : Inode) (D : Directory) : Prop where
  size : inode.size = D.blocks.length * D.blksz
  file : ∀ pos len, 0 < len → pos + len ≤ inode.size →
    F.readFile inode pos len = some (((recordBytes D.records).drop pos).take len)
  inodes : ∀ r ∈ D.records, r.Used → ∃ inode, F.readInode r.inode = some inode

/-- The type of a file: that of its record, or that of its inode if the record has none. -/
def Files.typeOf (F : Files) (r : Record) : Option FileType :=
  if r.filetype ≠ 0 then some (direntType r.filetype)
  else (F.readInode r.inode).map fun inode => modeType inode.mode

/-- The inode number and the type of the first record that is used and has the name. -/
def Files.entry (F : Files) (rs : List Record) (name : Bytes) : Option (Nat × FileType) :=
  (rs.find? fun r => r.Used ∧ r.name = name).bind fun r => (F.typeOf r).map fun t => (r.inode, t)

end UBoot.Fs.Ext2
