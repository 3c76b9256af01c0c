import UBoot.LibGeneric.Vsprintf

/-!
# Partitions of flash devices

`common/cmd_mtdparts.c`: the lists of devices and partitions, how they are changed, and how the
variable `mtdparts` is read into them.  The variables of the environment are behind the class
`Environment`.  A pointer to a device or a partition is an address; `none` as the outcome of a
function is an access through `NULL`.  What is printed is left out.
-/

namespace UBoot.Common.Mtdparts

open UBoot.Lib
open UBoot.LibGeneric

/-- The variables of the environment: `setenv` and `getenv`. -/
class Environment (E : Type) where
  setenv : E → Bytes → Option Bytes → E
  getenv : E → Bytes → Option Bytes

/-- Variables and their values, in the order in which they have been set. -/
structure VarList where
  vars : List (Bytes × Bytes)

instance : Environment VarList where
  setenv e name value :=
    let rest := e.vars.filter fun var => var.1 ≠ name
    match value with
    | none => ⟨rest⟩
    | some [] => ⟨rest⟩
    | some value => ⟨rest ++ [(name, value)]⟩
  getenv e name := (e.vars.find? fun var => var.1 = name).map Prod.snd

/-! ## Flash -/

/-- `MTD_DEV_TYPE_...` -/
inductive DevType where
  | nor
  | nand
  | onenand
  deriving DecidableEq, Repr

/-- `MTD_DEV_TYPE(type)` -/
def DevType.name : DevType → Bytes
  | nor => str "nor"
  | nand => str "nand"
  | onenand => str "onenand"

/-- `struct mtd_erase_region_info` -/
structure EraseRegion where
  offset : UInt64
  erasesize : UInt32
  numblocks : UInt32

/-- The regions follow each other from `start` to `stop`. -/
def Consecutive (stop : Nat) : Nat → List EraseRegion → Prop
  | start, [] => start = stop
  | start, r :: rs =>
    r.offset.toNat = start ∧ Consecutive stop (start + r.numblocks.toNat * r.erasesize.toNat) rs

/-- `struct mtd_info`: one erase size, or regions that cover a flash of a 32 bit size. -/
structure MtdInfo where
  size : UInt64
  erasesize : UInt32
  eraseregions : List EraseRegion
  erasesize_pos : eraseregions = [] → 0 < erasesize
  size_lt : eraseregions ≠ [] → size.toNat < 2 ^ 32
  consecutive : eraseregions ≠ [] → Consecutive size.toNat 0 eraseregions

/-- `get_mtd_device_nm`, for the name of a type and a number. -/
abbrev Flash := DevType → UInt8 → Option MtdInfo

/-! ## The lists -/

/-- `struct mtdids` -/
structure MtdId where
  type : DevType
  num : UInt8
  size : UInt32
  mtdId : Bytes
  deriving DecidableEq, Repr

/-- `struct part_info` -/
structure Part where
  addr : Nat
  name : Bytes
  autoName : Bool
  size : UInt32
  offset : UInt32
  maskFlags : UInt32
  sectorSize : UInt32
  deriving DecidableEq, Repr

/-- `struct mtd_device` -/
structure Device where
  addr : Nat
  id : MtdId
  numParts : UInt16
  parts : List Part
  deriving DecidableEq, Repr

/-- The variables of the file, the environment, and the address that `malloc` gives next. -/
structure Mtd (E : Type) where
  env : E
  mtdids : List MtdId
  devices : List Device
  currentMtdDev : Option Nat
  currentMtdPartnum : UInt8
  lastIds : Bytes
  lastParts : Bytes
  lastPartition : Bytes
  next : Nat

/-- `SIZE_REMAINING` -/
def sizeRemaining : UInt32 := 0xFFFFFFFF

/-- `OFFSET_NOT_SPECIFIED` -/
def offsetNotSpecified : UInt32 := 0xFFFFFFFF

/-- `MIN_PART_SIZE` -/
def minPartSize : UInt32 := 4096

/-- `MTDPARTS_MAXLEN` -/
def mtdpartsMaxlen : Nat := 512

/-- `MTD_WRITEABLE_CMD` -/
def mtdWriteableCmd : UInt32 := 1

/-- `%d` and `%u` of a number that is not negative. -/
def digits (n : Nat) : Bytes := str (toString n)

/-- `mtd_part_info` -/
def mtdPartInfo (dev : Device) (partNum : UInt8) : Option Part :=
  if dev.numParts ≤ partNum.toUInt16 then none else dev.parts[partNum.toNat]?

/-- `device_find` -/
def deviceFind (devices : List Device) (type : DevType) (num : UInt8) : Option Device :=
  devices.find? fun dev => dev.id.type = type ∧ dev.id.num = num

/-- `id_find_by_mtd_id` -/
def idFindByMtdId (mtdids : List MtdId) (mtdId : Bytes) : Option MtdId :=
  mtdids.find? fun id => id.mtdId = mtdId

section Current

variable {E : Type} [Environment E]

open Environment

/-- What `current_mtd_dev` points to. -/
def Mtd.current (m : Mtd E) : Option Device :=
  m.currentMtdDev.bind fun addr => m.devices.find? fun dev => dev.addr = addr

/-- The partitions of the devices in front of one. -/
def partsBefore (addr : Nat) : List Device → Option UInt16
  | [] => none
  | dev :: rest =>
    if dev.addr = addr then some 0 else (partsBefore addr rest).map fun n => dev.numParts + n

/-- `index_partitions` -/
def indexPartitions (m : Mtd E) : Option (Mtd E) :=
  match m.currentMtdDev with
  | none =>
    some { m with env := setenv (setenv m.env (str "mtddevnum") none) (str "mtddevname") none }
  | some addr =>
    let env := match partsBefore addr m.devices with
      | some n =>
        setenv m.env (str "mtddevnum") (some (digits (n + m.currentMtdPartnum.toUInt16).toNat))
      | none => m.env
    match m.current.bind fun dev => mtdPartInfo dev m.currentMtdPartnum with
    | none => none
    | some part => some { m with env := setenv env (str "mtddevname") (some part.name) }

/-- `current_save` -/
def currentSave (m : Mtd E) : Option (Mtd E) :=
  match m.currentMtdDev with
  | none =>
    indexPartitions { m with env := setenv m.env (str "partition") none, lastPartition := [] }
  | some _ =>
    match m.current with
    | none => none
    | some dev =>
      let buf := dev.id.type.name ++ digits dev.id.num.toNat ++ str "," ++
        digits m.currentMtdPartnum.toNat
      indexPartitions { m with
        env := setenv m.env (str "partition") (some buf), lastPartition := buf }

/-- A device with another list of partitions. -/
def Mtd.update (m : Mtd E) (dev : Device) : Mtd E :=
  { m with devices := m.devices.map fun d => if d.addr = dev.addr then dev else d }

/-- `device_del` -/
def deviceDel (m : Mtd E) (dev : Device) : Option (Mtd E) :=
  let m := { m with devices := m.devices.filter fun d => d.addr ≠ dev.addr }
  if m.currentMtdDev = some dev.addr then
    match m.devices with
    | [] => currentSave { m with currentMtdDev := none }
    | first :: _ => currentSave { m with currentMtdDev := some first.addr, currentMtdPartnum := 0 }
  else indexPartitions m

/-- What `part_del` does to `current_mtd_partnum`, for the current partition. -/
def partnumAfterDel (part curr : Part) (partnum : UInt8) : UInt8 :=
  if curr.addr = part.addr then 0
  else if part.offset ≤ curr.offset then partnum - 1
  else partnum

/-- `part_del` -/
def partDel (m : Mtd E) (dev : Device) (part : Part) : Option (Mtd E) :=
  if dev.numParts = 1 then deviceDel m dev
  else
    let curr := if m.currentMtdDev = some dev.addr then mtdPartInfo dev m.currentMtdPartnum
      else none
    let left := { dev with
      parts := dev.parts.eraseP fun p => p.addr = part.addr, numParts := dev.numParts - 1 }
    match curr with
    | some curr =>
      currentSave { m.update left with
        currentMtdPartnum := partnumAfterDel part curr m.currentMtdPartnum }
    | none => indexPartitions (m.update left)

/-- The loop of `part_sort_add`: the list, and the partition that the new one stands before. -/
def insertPart (new : Part) : List Part → Option (List Part × Option Part)
  | [] => some ([new], none)
  | pi :: rest =>
    if new.offset = pi.offset ∧ pi.offset = 0 then none
    else if new.offset ≤ pi.offset then some (new :: pi :: rest, some pi)
    else (insertPart new rest).map fun r => (pi :: r.1, r.2)

/-- `part_sort_add`, with the device that it leaves, or none if it returns 1. -/
def partSortAdd (m : Mtd E) (dev : Device) (part : Part) : Option (Option Device × Mtd E) :=
  let curr := if m.currentMtdDev = some dev.addr then mtdPartInfo dev m.currentMtdPartnum
    else none
  match insertPart part dev.parts with
  | none => some (none, m)
  | some (parts, before) =>
    let dev := { dev with parts := parts, numParts := dev.numParts + 1 }
    match before, curr with
    | some pi, some curr =>
      if pi.offset ≤ curr.offset then do
        let m ← currentSave { m.update dev with currentMtdPartnum := m.currentMtdPartnum + 1 }
        return (some dev, m)
      else do return (some dev, ← indexPartitions (m.update dev))
    | _, _ => do return (some dev, ← indexPartitions (m.update dev))

/-- `device_add` -/
def deviceAdd (m : Mtd E) (dev : Device) : Option (Mtd E) :=
  if m.devices = [] then
    currentSave { m with
      devices := [dev], currentMtdDev := some dev.addr, currentMtdPartnum := 0 }
  else indexPartitions { m with devices := m.devices ++ [dev] }

end Current

/-! ## One partition -/

/-- `memsize_parse` -/
def memsizeParse (ptr : Bytes) : UInt32 × Bytes :=
  let (ret, p) := simpleStrtoul ptr 0
  if charAt p = 0x47 ∨ charAt p = 0x67 then (ret <<< 10 <<< 10 <<< 10, p.tail)
  else if charAt p = 0x4D ∨ charAt p = 0x6D then (ret <<< 10 <<< 10, p.tail)
  else if charAt p = 0x4B ∨ charAt p = 0x6B then (ret <<< 10, p.tail)
  else (ret, p)

/-- "fetch the partition size" -/
def parseSize (p : Bytes) : Option (UInt32 × Bytes) :=
  if charAt p = 0x2D then some (sizeRemaining, p.tail)
  else
    let (size, p) := memsizeParse p
    if size < minPartSize then none else some (size, p)

/-- "check for offset" -/
def parseOffset (p : Bytes) : UInt32 × Bytes :=
  if charAt p = 0x40 then memsizeParse p.tail else (offsetNotSpecified, p)

/-- "now look for the name" -/
def parseName (p : Bytes) : Option (Option Bytes × Bytes) :=
  if charAt p = 0x28 then
    let name := p.tail.takeWhile (· ≠ 0x29)
    let rest := p.tail.dropWhile (· ≠ 0x29)
    if rest = [] then none
    else if name = [] then none
    else some (some name, rest.tail)
  else some (none, p)

/-- "test for options" -/
def parseFlags (p : Bytes) : UInt32 × Bytes :=
  if str "ro" <+: p then (mtdWriteableCmd, p.drop 2) else (0, p)

/-- "check for next partition definition" -/
def parseNext (size : UInt32) (p : Bytes) : Option Bytes :=
  if charAt p = 0x2C then if size = sizeRemaining then none else some p.tail
  else if charAt p = 0x3B ∨ charAt p = 0 then some p
  else none

/-- `%08lx` -/
def hex8 (n : UInt32) : Bytes :=
  ([28, 24, 20, 16, 12, 8, 4, 0] : List UInt32).map fun k =>
    let d := ((n >>> k) &&& 0xF).toUInt8
    if d < 10 then 0x30 + d else 0x57 + d

/-- The name of a partition that has none. -/
def autoName (size offset : UInt32) : Bytes := str "0x" ++ hex8 size ++ str "@0x" ++ hex8 offset

/-- `part_parse`, for the address that `malloc` gives: the partition, and the text behind it. -/
def partParse (addr : Nat) (partdef : Bytes) : Option (Part × Bytes) := do
  let (size, p) ← parseSize partdef
  let (offset, p) := parseOffset p
  let (name, p) ← parseName p
  let (maskFlags, p) := parseFlags p
  let p ← parseNext size p
  return (⟨addr, name.getD (autoName size offset), name.isNone, size, offset, maskFlags, 0⟩, p)

/-- One region of the loops of `part_validate_eraseblock`. -/
def hitsBlock (x erasesize : UInt32) : Nat → UInt32 → Bool
  | 0, _ => false
  | n + 1, start => decide (x = start) || hitsBlock x erasesize n (start + erasesize)

def EraseRegion.hits (r : EraseRegion) (x : UInt32) : Bool :=
  hitsBlock x r.erasesize r.numblocks.toNat r.offset.toUInt32

/-- `start` behind the loop over the blocks. -/
def EraseRegion.stop (r : EraseRegion) : UInt32 := r.offset.toUInt32 + r.numblocks * r.erasesize

/-- `part_validate_eraseblock` -/
def partValidateEraseblock (flash : Flash) (id : MtdId) (part : Part) : Option Part :=
  match flash id.type id.num with
  | none => none
  | some mtd =>
    if mtd.eraseregions = [] then
      if part.offset % mtd.erasesize ≠ 0 then none
      else if part.size % mtd.erasesize ≠ 0 then none
      else some { part with sectorSize := mtd.erasesize }
    else if mtd.eraseregions.any (·.hits part.offset) = false then none
    else if mtd.eraseregions.any (·.hits (part.offset + part.size)) ∨
        mtd.eraseregions.getLast?.map EraseRegion.stop = some (part.offset + part.size) then
      some { part with sectorSize := mtd.erasesize }
    else none

/-- The start of `part_validate`. -/
def fillUp (id : MtdId) (part : Part) : Part :=
  if part.size = sizeRemaining then { part with size := id.size - part.offset } else part

/-- `part_validate` -/
def partValidate (flash : Flash) (id : MtdId) (part : Part) : Option Part :=
  let part := fillUp id part
  if id.size < part.offset then none
  else if part.offset + part.size ≤ part.offset then none
  else if id.size < part.offset + part.size then none
  else partValidateEraseblock flash id part

/-! ## One device -/

/-- "calculate offset when not specified" -/
def Part.placeAt (part : Part) (offset : UInt32) : Part :=
  if part.offset = offsetNotSpecified then { part with offset := offset } else part

/-- The loop of `device_parse`, for the offset and the address of the next partition.  Every turn
uses up a character, so the length of the text is enough for `fuel`. -/
def parseParts (flash : Flash) (id : MtdId) :
    Nat → Bytes → UInt32 → Nat → Option (List Part × Bytes)
  | 0, _, _, _ => none
  | fuel + 1, p, offset, addr => do
    let (part, p) ← partParse addr p
    let part ← partValidate flash id (part.placeAt offset)
    if charAt p = 0 ∨ charAt p = 0x3B then return ([part], p)
    let (parts, p) ← parseParts flash id fuel p (part.offset + part.size) (addr + 1)
    return (part :: parts, p)

section Parse

variable {E : Type} [Environment E]

open Environment

/-- "move partitions from tmp_list to dev->parts" -/
def addParts (m : Mtd E) (dev : Device) : List Part → Option (Option Device × Mtd E)
  | [] => some (some dev, m)
  | part :: parts => do
    match ← partSortAdd m dev part with
    | (some dev, m) => addParts m dev parts
    | (none, m) => return (none, ← deviceDel m dev)

/-- Where the first partition starts: "if device already exists start at the end of the last
partition". -/
def startOffset (devices : List Device) (id : MtdId) : Option UInt32 :=
  match deviceFind devices id.type id.num with
  | none => some 0
  | some dev => dev.parts.getLast?.map fun part => part.offset + part.size

/-- `device_parse`: the device and the text behind it, or none if it returns 1. -/
def deviceParse (flash : Flash) (m : Mtd E) (mtdDev : Bytes) :
    Option (Option (Device × Bytes) × Mtd E) :=
  match mtdDev.dropWhile (· ≠ 0x3A), idFindByMtdId m.mtdids (mtdDev.takeWhile (· ≠ 0x3A)) with
  | [], _ => some (none, m)
  | _, none => some (none, m)
  | _ :: p, some id => do
    let offset ← startOffset m.devices id
    match parseParts flash id p.length p offset m.next with
    | none => return (none, m)
    | some (parts, p) =>
      if UInt16.ofNat parts.length = 0 then return (none, m)
      else
        let addr := m.next + parts.length
        match ← addParts { m with next := addr + 1 } ⟨addr, id, 0, []⟩ parts with
        | (none, m) => return (none, m)
        | (some dev, m) => return (some (dev, if charAt p = 0x3B then p.tail else p), m)

/-- The loop of `parse_mtdparts`.  Every device uses up a character. -/
def parseDevices (flash : Flash) : Nat → Bytes → Mtd E → Option (Bool × Mtd E)
  | 0, _, m => some (false, { m with devices := [] })
  | fuel + 1, p, m => do
    match ← deviceParse flash m p with
    | (none, m) => return (false, { m with devices := [] })
    | (some (dev, p), m) =>
      if (deviceFind m.devices dev.id.type dev.id.num).isSome then
        return (false, { m with devices := [] })
      let m := { m with devices := m.devices ++ [dev] }
      if p = [] then return (true, m)
      parseDevices flash fuel p m

/-- `mtd_devices_init` -/
def mtdDevicesInit (m : Mtd E) : Option (Mtd E) := do
  let m ← currentSave { m with lastParts := [], currentMtdDev := none }
  return { m with devices := [] }

/-- `parse_mtdparts`: whether it returns 0, and what it leaves. -/
def parseMtdparts (flash : Flash) (m : Mtd E) : Option (Bool × Mtd E) := do
  let m ← mtdDevicesInit m
  let p ← Environment.getenv m.env (str "mtdparts")
  if str "mtdparts=" <+: p then parseDevices flash p.length (p.drop 9) m
  else return (false, m)

end Parse

end UBoot.Common.Mtdparts
