import UBoot.Common.FlashErase
import UBoot.LibGeneric.Vsprintf

/-!
# The arguments of the flash commands

`abbrev_spec`, `flash_sect_roundb` and `addr_spec` of `common/cmd_flash.c`, for an `int` and a
`long` of 32 bits.  An argument is the list of its characters.

`abbrev_spec` reads two fields of a bank only, and a table for it is one of those.  For the others
a bank with an empty sector table, which none of the loops sees, is left out of the list.
-/

namespace UBoot.Common

open UBoot.Lib UBoot.LibGeneric

/-- An `unsigned long` as an `int`. -/
def intOf (x : UInt32) : Int := x.toBitVec.toInt

/-- `*ep` is reached, or nothing has been read. -/
def notNumber (text : Bytes) (ep : Bytes) : Bool := decide (ep = text) || charAt ep != 0

/-- `strchr`, which splits the text: `*p++ = '\0'`. -/
def splitAtChar (c : UInt8) (text : Bytes) : Option (Bytes × Bytes) :=
  if c ∈ text then some (text.takeWhile (· != c), (text.dropWhile (· != c)).tail) else none

/-! ## `abbrev_spec` -/

/-- The fields of a bank: `flash_id != FLASH_UNKNOWN` and `sector_count`. -/
structure FlashEntry where
  known : Bool
  sectorCount : Nat
  sectorCount_lt : sectorCount < 2 ^ 16
  deriving DecidableEq

/-- `flash_info`, with `CONFIG_SYS_MAX_FLASH_BANKS` banks. -/
structure FlashTable where
  entries : List FlashEntry
  length_lt : entries.length < 2 ^ 31

/-- What `abbrev_spec` returns: 0, -1, or 1 with `*pinfo` (as an index), `*psf` and `*psl`. -/
inductive Abbrev where
  | other
  | bad
  | spec (bank : Nat) (first last : Int)
  deriving DecidableEq, Repr

/-- The bank: `simple_strtoul` and the four tests behind it. -/
def abbrevBank (t : FlashTable) (text : Bytes) : Option (Nat × FlashEntry) :=
  let (value, ep) := simpleStrtoul text 10
  let bank := intOf value
  if notNumber text ep || decide (bank < 1) || decide ((t.entries.length : Int) < bank) then none
  else
    match t.entries[(bank - 1).toNat]? with
    | some fp => if fp.known then some ((bank - 1).toNat, fp) else none
    | none => none

/-- `abbrev_spec` -/
def abbrevSpec (t : FlashTable) (text : Bytes) : Abbrev :=
  match splitAtChar 58 text with
  | none => .other
  | some (bankText, rest) =>
    match abbrevBank t bankText with
    | none => .bad
    | some (bank, fp) =>
      let (firstText, p) :=
        match splitAtChar 45 rest with
        | none => (rest, none)
        | some (text, p) => (text, some p)
      let (value, ep) := simpleStrtoul firstText 10
      let first := intOf value
      if notNumber firstText ep || decide ((fp.sectorCount : Int) ≤ first) then .bad
      else
        match p with
        | none => .spec bank first first
        | some p =>
          let (value, ep) := simpleStrtoul p 10
          let last := intOf value
          if notNumber p ep || decide (last < first) || decide ((fp.sectorCount : Int) ≤ last)
          then .bad
          else .spec bank first last

/-! ## `addr_spec` -/

/-- `flash_sect_roundb`: the last address of the sector, also in a bank that is not known. -/
def flashSectRoundb (banks : List FlashInfo) (addr : Nat) : Option Nat :=
  banks.findSome? fun b => (List.range b.sectorCount).findSome? fun i =>
    if addr ≤ sectorEnd b i ∧ b.start i ≤ addr then some (sectorEnd b i) else none

/-- `addr_spec`: `*addr_first` and `*addr_last`, or -1. -/
def addrSpec (banks : List FlashInfo) (arg1 arg2 : Bytes) : Option (Nat × Nat) :=
  let (first, ep) := simpleStrtoul arg1 16
  if notNumber arg1 ep then none
  else
    let lenUsed := charAt arg2 = 43
    let arg2 := if lenUsed then arg2.tail else arg2
    let (last, ep) := simpleStrtoul arg2 16
    if notNumber arg2 ep then none
    else if lenUsed then
      -- "XXX watch out for the integer overflow!"
      match flashSectRoundb banks (first + last - 1).toNat with
      | none => none
      | some last => some (first.toNat, last)
    else some (first.toNat, last.toNat)

end UBoot.Common
