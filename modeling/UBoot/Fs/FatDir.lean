import UBoot.Fs.Fat

/-!
# FAT file systems: directories

`fs/fat/fat.c`: the boot sector, the directories, and the way along a path.  A directory is read
into one of three static buffers.  The model gives a buffer the room that is asked of it, on either
side, and writes down what is read into it and which entries and slots of it are looked at.  What a
listing prints is left out.  Loops without an end of their own get a number of rounds.
-/

namespace UBoot.Fs.Fat

open UBoot.Lib

/-- The static buffers of directory data: `do_fat_read_block`, `get_dentfromdir_block` and
`get_vfatname_block`. -/
inductive Buf
  | doFatRead
  | getDentfromdir
  | getVfatname
  deriving DecidableEq

/-- What happens to a buffer: so many bytes are read into it from a sector on, or the 32 bytes of an
entry or a slot at an offset are looked at. -/
inductive Access
  | read (b : Buf) (sector size : Nat)
  | look (b : Buf) (pos : Int)
  deriving DecidableEq

/-- The state: `mydata`, and what lies in the buffers and around them. -/
structure World where
  mydata : FsData
  bufs : Buf → Int → UInt8

/-- A computation with a log.  It has no result if it runs out of rounds. -/
def FatM (α : Type) : Type := World → List Access × Option (α × World)

instance : Monad FatM where
  pure a := fun w => ([], some (a, w))
  bind x f := fun w =>
    match x w with
    | (log, none) => (log, none)
    | (log, some (a, w)) => (log ++ (f a w).1, (f a w).2)

namespace FatM

section Bind

variable {α β : Type} {x : FatM α} {f : α → FatM β} {w w₁ : World} {log : List Access} {a : α}

/-- What does not return ends the run, with what has been read so far. -/
theorem bind_failed (h : x w = (log, none)) : (x >>= f) w = (log, none) := by
  show (match x w with
    | (log, none) => (log, none)
    | (log, some (a, w)) => (log ++ (f a w).1, (f a w).2)) = _
  rw [h]

theorem bind_done (h : x w = (log, some (a, w₁))) :
    (x >>= f) w = (log ++ (f a w₁).1, (f a w₁).2) := by
  show (match x w with
    | (log, none) => (log, none)
    | (log, some (a, w)) => (log ++ (f a w).1, (f a w).2)) = _
  rw [h]

end Bind

def outOfRounds {α : Type} : FatM α := fun _ => ([], none)

def mydata : FatM FsData := fun w => ([], some (w.mydata, w))

/-- The 32 bytes at an offset of a buffer. -/
def look (b : Buf) (pos : Int) : FatM Bytes := fun w =>
  ([.look b pos], some ((List.range 32).map fun (k : Nat) => w.bufs b (pos + k), w))

/-- `memcpy` into a buffer. -/
def store (b : Buf) (pos : Int) (data : Bytes) : FatM Unit := fun w =>
  ([], some ((),
    { w with
      bufs := fun b' a =>
        if b' = b ∧ pos ≤ a ∧ a < pos + data.length then data.getD (a - pos).toNat 0
        else w.bufs b' a }))

/-- A read into a buffer: whether it succeeded. -/
def readInto (b : Buf) (sector size : Nat) (data : Option Bytes) : FatM Bool := do
  (fun w => ([.read b sector size], some ((), w)) : FatM Unit)
  match data with
  | none => return false
  | some data =>
    store b 0 data
    return true

/-- `get_fatent` -/
def getFatent (dev : BlockDev) (entry : Nat) : FatM Nat := fun w =>
  ([], some ((Fat.getFatent dev w.mydata entry).1,
    { w with mydata := (Fat.getFatent dev w.mydata entry).2 }))

end FatM

/-! ## Entries, slots and names -/

/-- `MAX_CLUSTSIZE` -/
def maxClustsize : Nat := 255

/-- `DIRENTSPERBLOCK` -/
def direntsPerBlock : Nat := sectorSize / 32

/-- `DIRENTSPERCLUST` -/
def FsData.direntsPerClust (d : FsData) : Nat := d.bytesPerClust / 32

def attrVolume : UInt8 := 8

def attrDir : UInt8 := 16

def attrVfat : UInt8 := 15

def lastLongEntryMask : UInt8 := 0x40

def deletedFlag : UInt8 := 0xe5

def aRing : UInt8 := 0x05

def space : UInt8 := 32

def attr (dent : Bytes) : UInt8 := dent.getD 11 0

/-- `name[0]` of an entry, `id` of a slot. -/
def first (dent : Bytes) : UInt8 := dent.getD 0 0

/-- The entry that is in 32 bytes. -/
def dirEntry (dent : Bytes) : DirEntry where
  name := dent.take 8
  ext := (dent.drop 8).take 3
  attr := attr dent
  starthi := UInt16.ofNat (le16 (dent.getD · 0) 20)
  start := UInt16.ofNat (le16 (dent.getD · 0) 26)
  size := UInt32.ofNat (le32 (dent.getD · 0) 28)

/-- `TOLOWER` -/
def toLower (c : UInt8) : UInt8 := if 65 ≤ c ∧ c ≤ 90 then c + 32 else c

/-- The end of a name: its first byte, and the case of its letters. -/
def finishName (name : Bytes) : Bytes :=
  match name with
  | [] => []
  | c :: cs =>
    if c = deletedFlag then []
    else if c = aRing then (deletedFlag :: cs).map toLower
    else (c :: cs).map toLower

/-- `while (*ptr && *ptr != ' ') ptr++` -/
def upToSpace (s : Bytes) : Bytes := s.takeWhile fun c => c != 0 && c != space

/-- `get_name` -/
def getName (dent : Bytes) : Bytes :=
  let ext := (dirEntry dent).ext
  finishName (upToSpace (dirEntry dent).name ++
    if first ext ≠ 0 ∧ first ext ≠ space then 46 :: upToSpace ext else [])

/-- The low bytes of the characters of a slot. -/
def slotChars (slot : Bytes) : Bytes :=
  [1, 3, 5, 7, 9, 14, 16, 18, 20, 22, 24, 28, 30].map fun pos => slot.getD pos 0

/-- `slot2str`: what it adds to the name, and whether it found the terminator. -/
def slot2str (slot : Bytes) : Bytes × Bool :=
  ((slotChars slot).takeWhile (· != 0), (slotChars slot).any (· == 0))

/-- The number of a slot. -/
def slotNum (slot : Bytes) : UInt8 := first slot &&& ~~~lastLongEntryMask

/-- `ISDIRDELIM` -/
def isDirDelim (c : UInt8) : Bool := c == 47 || c == 92

/-- `dirdelim`, with what comes before and behind the delimiter. -/
def dirDelim (str : Bytes) : Option (Bytes × Bytes) :=
  match str.dropWhile (!isDirDelim ·) with
  | [] => none
  | _ :: rest => some (str.takeWhile (!isDirDelim ·), rest)

/-- "Handle multiple delimiters" -/
def skipDelims (str : Bytes) : Bytes := str.dropWhile isDirDelim

/-! ## `get_vfatname` -/

/-- The first loop of `get_vfatname`: none for -1. -/
def passSlots (b : Buf) (nextclust : Nat) : Nat → Int → FatM (Option Int)
  | 0, slotptr => return some slotptr
  | counter + 1, slotptr =>
    if slotptr < nextclust then do
      let slot ← FatM.look b slotptr
      if (slotNum slot).toNat ≠ counter + 1 then return none
      else passSlots b nextclust counter (slotptr + 32)
    else return some slotptr

/-- `while (slotptr2->id > 0x01) slotptr2++` -/
def seekSlot : Nat → Nat → FatM Nat
  | 0, _ => FatM.outOfRounds
  | fuel + 1, i => do
    let slot ← FatM.look .getVfatname (32 * i)
    if 1 < first slot then seekSlot fuel (i + 1) else return i

/-- `while (slotptr2 >= get_vfatname_block)`, from a slot on. -/
def collectBack (lName : Bytes) : Nat → FatM Bytes
  | 0 => return lName
  | i + 1 => do
    let slot ← FatM.look .getVfatname (32 * i)
    collectBack (lName ++ (slot2str slot).1) i

/-- The `do` loop of `get_vfatname`. -/
def collectName (b : Buf) : Nat → Int → Bytes → FatM Bytes
  | 0, _, _ => FatM.outOfRounds
  | fuel + 1, slotptr, lName => do
    let slot ← FatM.look b (slotptr - 32)
    let lName := lName ++ (slot2str slot).1
    if (slot2str slot).2 then return lName
    else if first slot &&& lastLongEntryMask = 0 then collectName b fuel (slotptr - 32) lName
    else return lName

/-- `get_vfatname` of the slot at `retdent` in a buffer: the long name, and none for -1. -/
def getVfatname (dev : BlockDev) (fuel curclust : Nat) (b : Buf) (retdent : Int) :
    FatM (Option Bytes) := do
  let d ← FatM.mydata
  let nextclust := d.bytesPerClust
  let slot ← FatM.look b retdent
  match ← passSlots b nextclust (slotNum slot).toNat retdent with
  | none => return none
  | some slotptr =>
    if nextclust ≤ slotptr then
      let curclust ← FatM.getFatent dev curclust
      if checkClust curclust d.fatsize then return none
      let d ← FatM.mydata
      let data := getCluster dev d curclust nextclust
      if !(← FatM.readInto .getVfatname (startSect d curclust) nextclust data) then return none
      let slotptr2 ← seekSlot fuel 0
      let lName ← collectBack [] (slotptr2 + 1)
      let lName ← collectName b fuel (slotptr - 32) lName
      let realdent ← FatM.look .getVfatname (32 * (slotptr2 + 1))
      FatM.store b retdent realdent
      return some (finishName lName)
    else
      let lName ← collectName b fuel slotptr []
      let realdent ← FatM.look b slotptr
      FatM.store b retdent realdent
      return some (finishName lName)

/-! ## `get_dentfromdir` -/

/-- What looking at an entry comes to. -/
inductive Look (α : Type)
  | next
  | done (a : α)

/-- An entry with a volume attribute: its long name, or none if it is passed over. -/
def longName (dev : BlockDev) (fuel curclust : Nat) (b : Buf) (pos : Int) (dent : Bytes) :
    FatM (Option Bytes) :=
  if attr dent &&& attrVfat ≠ 0 ∧ first dent &&& lastLongEntryMask ≠ 0 then do
    let lName ← getVfatname dev fuel curclust b pos
    return some (lName.getD [])
  else return none

/-- The body of the entry loop of `get_dentfromdir`: the entry that has been found, if any. -/
def dirEntryStep (dev : BlockDev) (fuel curclust : Nat) (filename : Bytes) (dols : Bool)
    (pos : Int) : FatM (Look (Option Bytes)) := do
  let dent ← FatM.look .getDentfromdir pos
  if first dent = deletedFlag then return .next
  let lName ←
    if attr dent &&& attrVolume ≠ 0 then longName dev fuel curclust .getDentfromdir pos dent
    else pure (some [])
  match lName with
  | none => return .next
  | some lName =>
    if attr dent &&& attrVolume ≠ 0 ∧ dols then return .next
    let dent ← FatM.look .getDentfromdir pos
    if first dent = 0 then return .done none
    if dols then return .next
    if filename ≠ getName dent ∧ filename ≠ lName then return .next
    return .done (some dent)

/-- A loop over so many entries of a buffer, from an offset on. -/
def forEntries {α : Type} (step : Int → FatM (Look α)) : Nat → Int → FatM (Look α)
  | 0, _ => return .next
  | n + 1, pos => do
    match ← step pos with
    | .done a => return .done a
    | .next => forEntries step n (pos + 32)

/-- The loop of `get_dentfromdir` over the clusters; none in the result for `NULL`. -/
def dentFromClusters (dev : BlockDev) (filename : Bytes) (dols : Bool) :
    Nat → Nat → FatM (Option Bytes)
  | 0, _ => FatM.outOfRounds
  | fuel + 1, curclust => do
    let d ← FatM.mydata
    let size := d.bytesPerClust
    let data := getCluster dev d curclust size
    if !(← FatM.readInto .getDentfromdir (startSect d curclust) size data) then return none
    match ← forEntries (dirEntryStep dev fuel curclust filename dols) d.direntsPerClust 0 with
    | .done found => return found
    | .next =>
      let curclust ← FatM.getFatent dev curclust
      if checkClust curclust d.fatsize then return none
      dentFromClusters dev filename dols fuel curclust

/-- `get_dentfromdir` -/
def getDentfromdir (dev : BlockDev) (fuel : Nat) (filename retdent : Bytes) (dols : Bool) :
    FatM (Option Bytes) := do
  let d ← FatM.mydata
  dentFromClusters dev filename dols fuel (startOf d (dirEntry retdent))

/-! ## `do_fat_read` -/

/-- `boot_sector`, the fields that are used. -/
structure BootSector where
  clusterSize : UInt8
  reserved : UInt16
  fats : UInt8
  dirEntries : Nat
  fatLength : UInt16
  fat32Length : UInt32
  rootCluster : UInt32
  deriving DecidableEq

/-- The fields of a boot sector in its block. -/
def bootSector (block : Bytes) : BootSector where
  clusterSize := block.getD 13 0
  reserved := UInt16.ofNat (le16 (block.getD · 0) 14)
  fats := block.getD 16 0
  dirEntries := le16 (block.getD · 0) 17
  fatLength := UInt16.ofNat (le16 (block.getD · 0) 22)
  fat32Length := UInt32.ofNat (le32 (block.getD · 0) 36)
  rootCluster := UInt32.ofNat (le32 (block.getD · 0) 44)

/-- `strncmp(sign, fs_type, SIGNLEN) == 0`, with `fs_type` at an offset. -/
def hasSign (block : Bytes) (pos : Nat) (sign : Bytes) : Bool := (block.drop pos).take 8 == sign

/-- `FAT12_SIGN` -/
def fat12Sign : Bytes := [70, 65, 84, 49, 50, 32, 32, 32]

/-- `FAT16_SIGN` -/
def fat16Sign : Bytes := [70, 65, 84, 49, 54, 32, 32, 32]

/-- `FAT32_SIGN` -/
def fat32Sign : Bytes := [70, 65, 84, 51, 50, 32, 32, 32]

/-- `read_bootsectandvi`: the boot sector and the size of the FAT in bits. -/
def readBootsectandvi (dev : BlockDev) : Option (BootSector × Int) := do
  let block ← diskRead dev 0 1
  let bs := bootSector block
  if bs.fatLength = 0 then
    if hasSign block 82 fat32Sign then some (bs, 32) else none
  else if hasSign block 54 fat12Sign then some (bs, 12)
  else if hasSign block 54 fat16Sign then some (bs, 16)
  else none

/-- `rootdir_size`, in sectors. -/
def rootdirSize (bs : BootSector) (fatsize : Int) : Nat :=
  if fatsize = 32 then bs.clusterSize.toNat else bs.dirEntries * 32 / sectorSize

/-- `mydata`, with what has been in its buffer. -/
def fsData (bs : BootSector) (fatsize : Int) (fatbuf : Contents) : FsData :=
  let fatlength : UInt16 := if fatsize = 32 then bs.fat32Length.toUInt16 else bs.fatLength
  let rootdirSect := UInt16.ofNat (bs.reserved.toNat + fatlength.toNat * bs.fats.toNat)
  let clustSize := bs.clusterSize.toUInt16
  let begin : Int := if fatsize = 32 then rootdirSect.toNat - clustSize.toNat * 2
    else rootdirSect.toNat + rootdirSize bs fatsize - clustSize.toNat * 2
  { fatbuf := fatbuf
    fatsize := fatsize
    fatlength := fatlength
    fatSect := bs.reserved
    rootdirSect := rootdirSect
    clustSize := clustSize
    dataBegin := Int16.ofInt begin
    fatbufnum := 2 ^ 32 - 1 }

/-- `dols` -/
inductive Ls
  | no
  | yes
  | root
  deriving DecidableEq

/-- The body of the entry loop of `do_fat_read`: the entry that has been found, and none for the
end marker. -/
def rootEntryStep (dev : BlockDev) (fuel : Nat) (fnamecopy : Bytes) (dols : Ls) (pos : Int) :
    FatM (Look (Option Bytes)) := do
  let dent ← FatM.look .doFatRead pos
  let lName ←
    if attr dent &&& attrVolume ≠ 0 then longName dev fuel 0 .doFatRead pos dent
    else pure (some [])
  match lName with
  | none => return .next
  | some lName =>
    if attr dent &&& attrVolume = 0 ∧ first dent = 0 then return .done none
    if dols = .root then return .next
    let dent ← FatM.look .doFatRead pos
    if fnamecopy ≠ getName dent ∧ fnamecopy ≠ lName then return .next
    return .done (some dent)

/-- The loop of `do_fat_read` over the sectors of the root directory: the end marker, or a read
that fails, is none. -/
def rootSectors (dev : BlockDev) (fnamecopy : Bytes) (dols : Ls) :
    Nat → Nat → FatM (Look (Option Bytes))
  | 0, _ => FatM.outOfRounds
  | fuel + 1, cursect => do
    let d ← FatM.mydata
    let data := diskRead dev cursect d.clustSize.toNat
    if !(← FatM.readInto .doFatRead cursect d.bytesPerClust data) then return .next
    match ← forEntries (rootEntryStep dev fuel fnamecopy dols) direntsPerBlock 0 with
    | .done found => return .done found
    | .next => rootSectors dev fnamecopy dols fuel (cursect + 1)

/-- The loop of `do_fat_read` along the path: the entry at its end, or what is returned. -/
def followPath (dev : BlockDev) (dols : Ls) :
    Nat → Bytes → Bytes → Bool → FatM (Bytes ⊕ Option FatRead)
  | 0, _, _, _ => FatM.outOfRounds
  | fuel + 1, dent, subname, firsttime => do
    match dirDelim subname with
    | some (name, rest) =>
      let nextname := skipDelims rest
      match ← getDentfromdir dev fuel name dent false with
      | none => return .inr none
      | some dent =>
        if attr dent &&& attrDir = 0 then return .inr none
        followPath dev dols fuel dent nextname (firsttime && !(dols ≠ .no && nextname = []))
    | none =>
      if dols ≠ .no ∧ firsttime then
        match ← getDentfromdir dev fuel subname dent false with
        | none => return .inr none
        | some dent => followPath dev dols fuel dent subname false
      else
        match ← getDentfromdir dev fuel subname dent (dols ≠ .no) with
        | none => return .inr (if dols ≠ .no then some ⟨0, []⟩ else none)
        | some dent => return .inl dent

/-- `do_fat_read` from the loop over the root directory on; none in the result for -1. -/
def doFatReadFrom (dev : BlockDev) (fuel maxsize : Nat) (fnamecopy subname : Bytes) (isdir : Bool)
    (dols : Ls) : FatM (Option FatRead) := do
  let d ← FatM.mydata
  match ← rootSectors dev fnamecopy dols fuel d.rootdirSect.toNat with
  | .next => return none
  | .done none => return if dols = .root then some ⟨0, []⟩ else none
  | .done (some dent) =>
    if isdir ∧ attr dent &&& attrDir = 0 then return none
    let path ← if isdir then followPath dev dols fuel dent subname true else pure (.inl dent)
    match path with
    | .inr ret => return ret
    | .inl dent =>
      let d ← FatM.mydata
      match getContents dev d (dirEntry dent) maxsize fuel with
      | none => FatM.outOfRounds
      | some ret => return ret

/-- `do_fat_read`: what it does to the buffers, and what it returns. -/
def doFatRead (dev : BlockDev) (fuel maxsize : Nat) (fatbuf : Contents) (bufs : Buf → Int → UInt8)
    (filename : Bytes) (dols : Bool) : List Access × Option (Option FatRead) :=
  match readBootsectandvi dev with
  | none => ([], some none)
  | some (bs, fatsize) =>
    let fnamecopy := (skipDelims filename).map toLower
    let w : World := ⟨fsData bs fatsize fatbuf, bufs⟩
    let run (m : FatM (Option FatRead)) := ((m w).1, (m w).2.map Prod.fst)
    if fnamecopy = [] then
      if dols then run (doFatReadFrom dev fuel maxsize [] [] false .root) else ([], some none)
    else
      match dirDelim fnamecopy with
      | some (name, rest) =>
        run (doFatReadFrom dev fuel maxsize name (skipDelims rest) true
          (if dols then .yes else .no))
      | none => run (doFatReadFrom dev fuel maxsize fnamecopy [] dols (if dols then .yes else .no))

end UBoot.Fs.Fat
