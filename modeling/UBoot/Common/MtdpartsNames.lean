import UBoot.Common.MtdpartsGenerate

/-!
# Partitions by their names

The commands of `common/cmd_mtdparts.c` take a device as its type and number, and a partition by
its name or as a device and a number behind a comma.
-/

namespace UBoot.Common.Mtdparts

open UBoot.Lib
open UBoot.LibGeneric

/-- `mtd_id_parse` -/
def mtdIdParse (id : Bytes) : Option (DevType × UInt8 × Bytes) :=
  let number (type : DevType) (p : Bytes) :=
    if isdigit (charAt p) then
      let (devNum, p) := simpleStrtoul p 0
      some (type, devNum.toUInt8, p)
    else none
  if str "nand" <+: id then number .nand (id.drop 4)
  else if str "nor" <+: id then number .nor (id.drop 3)
  else if str "onenand" <+: id then number .onenand (id.drop 7)
  else none

/-- The first partition with a name. -/
def findName (devices : List Device) (id : Bytes) : Option (Device × UInt8 × Part) :=
  devices.findSome? fun dev =>
    (dev.parts.zipIdx.find? fun p => p.1.name = id).map fun p => (dev, UInt8.ofNat p.2, p.1)

/-- `find_dev_and_part` -/
def findDevAndPart (devices : List Device) (id : Bytes) : Option (Device × UInt8 × Part) :=
  match findName devices id with
  | some found => some found
  | none => do
    let (type, dnum, p) ← mtdIdParse id
    if charAt p ≠ 0x2C ∨ charAt p.tail = 0 then none
    else
      let (pnum, p) := simpleStrtoul p.tail 0
      if charAt p ≠ 0 then none
      else
        let dev ← deviceFind devices type dnum
        let part ← mtdPartInfo dev pnum.toUInt8
        return (dev, pnum.toUInt8, part)

end UBoot.Common.Mtdparts
