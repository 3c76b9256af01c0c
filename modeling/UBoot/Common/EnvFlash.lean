import UBoot.Common.EnvCommon
import UBoot.Lib.Flash

/-!
# The environment in NOR flash at boot

`env_init` of `common/env_flash.c`, for one copy of the environment and for two.  The
answer is left in two fields of `gd`, which the start code clears before `env_init`
runs: where the environment is, and whether it is valid (`2` for a valid one that needs
a repair).
-/

namespace UBoot.Common

open UBoot.Lib

/-- `env_init` without `CONFIG_ENV_ADDR_REDUND`. -/
def envInit (crc : Bytes → UInt32) (e : Env) : Gd :=
  if e.crcOk crc then ⟨.slot .first, 1⟩ else ⟨.builtin, 0⟩

/-- `ACTIVE_FLAG` -/
def activeFlag : UInt8 := 1

/-- `OBSOLETE_FLAG` -/
def obsoleteFlag : UInt8 := 0

/-- `env_init` with `CONFIG_ENV_ADDR_REDUND`.  The chain has no last `else`: where none
of its tests holds, `gd` stays cleared. -/
def envInitRedund (crc : Bytes → UInt32) (e₁ e₂ : Env) : Gd :=
  let crc1Ok := e₁.crcOk crc
  let crc2Ok := e₂.crcOk crc
  if crc1Ok && !crc2Ok then ⟨.slot .first, 1⟩
  else if !crc1Ok && crc2Ok then ⟨.slot .second, 1⟩
  else if !crc1Ok && !crc2Ok then ⟨.builtin, 0⟩
  else if e₁.flags = activeFlag ∧ e₂.flags = obsoleteFlag then ⟨.slot .first, 1⟩
  else if e₁.flags = obsoleteFlag ∧ e₂.flags = activeFlag then ⟨.slot .second, 1⟩
  else if e₁.flags = e₂.flags then ⟨.slot .first, 2⟩
  else if e₁.flags = 0xFF then ⟨.slot .first, 2⟩
  else if e₂.flags = 0xFF then ⟨.slot .second, 2⟩
  else Gd.cleared

/-! ## The sectors

Each copy has a sector of its own, with the copy at its start.  What lies behind it in the
sector (`CONFIG_ENV_SECT_SIZE > CONFIG_ENV_SIZE`) is `rest`. -/

/-- The sector of a copy whose data has `size` bytes. -/
structure Sector (size : Nat) where
  crc : Bytes
  flags : UInt8
  data : Bytes
  rest : Bytes
  length_crc : crc.length = 4
  length_data : data.length = size
  deriving DecidableEq, Repr

variable {size : Nat}

/-- The copy in a sector. -/
def Sector.env (k : Sector size) : Env := ⟨wordOfBytes k.crc, k.flags, k.data⟩

/-- The calls of `flash_sect_erase` and of `flash_write`. -/
inductive SectorOp
  | erase
  | data (new : Bytes)
  | crc (new : Bytes)
  | flags (new : UInt8)
  | rest (new : Bytes)

def SectorOp.apply (op : SectorOp) (k : Sector size) : Sector size :=
  match op with
  | .erase => ⟨erased 4, 0xFF, erased size, erased k.rest.length, length_erased _, length_erased _⟩
  | .data new => { k with
      data := program k.data new
      length_data := (length_program _ _).trans k.length_data }
  | .crc new => { k with
      crc := program k.crc new
      length_crc := (length_program _ _).trans k.length_crc }
  | .flags new => { k with flags := k.flags &&& new }
  | .rest new => { k with rest := program k.rest new }

/-- The call is cut off and leaves `t`. -/
def SectorOp.Torn (op : SectorOp) (k t : Sector size) : Prop :=
  match op with
  | .erase => False
  | .data new => UBoot.Lib.Torn k.data new t.data ∧ t.crc = k.crc ∧ t.flags = k.flags ∧
      t.rest = k.rest
  | .crc new => UBoot.Lib.Torn k.crc new t.crc ∧ t.data = k.data ∧ t.flags = k.flags ∧
      t.rest = k.rest
  | .flags new => TornByte k.flags new t.flags ∧ t.data = k.data ∧ t.crc = k.crc ∧ t.rest = k.rest
  | .rest new => UBoot.Lib.Torn k.rest new t.rest ∧ t.data = k.data ∧ t.crc = k.crc ∧
      t.flags = k.flags

/-- An operation on one of the two sectors. -/
structure FlashOp where
  slot : Slot
  op : SectorOp

def FlashOp.apply (o : FlashOp) (c : Copies (Sector size)) : Copies (Sector size) :=
  c.set o.slot (o.op.apply (c.get o.slot))

def FlashOp.Torn (o : FlashOp) (c t : Copies (Sector size)) : Prop :=
  o.op.Torn (c.get o.slot) (t.get o.slot) ∧ t.get o.slot.other = c.get o.slot.other

def applyOps (ops : List FlashOp) (c : Copies (Sector size)) : Copies (Sector size) :=
  ops.foldl (fun c o => o.apply c) c

/-! ## `saveenv` and the repair at boot -/

/-- The operations of `saveenv`, where `cur` is the sector at `flash_addr` and the other one
that at `flash_addr_new`. -/
def saveOps (e : Env) (cur : Slot) (c : Copies (Sector size)) : List FlashOp :=
  [⟨cur.other, .erase⟩,
    ⟨cur.other, .data e.data⟩,
    ⟨cur.other, .crc (bytesOfWord e.crc)⟩,
    ⟨cur, .flags obsoleteFlag⟩,
    ⟨cur.other, .flags activeFlag⟩,
    ⟨cur.other, .rest (c.get cur.other).rest⟩]

/-- `env_init` on the sectors. -/
def bootGd (crc : Bytes → UInt32) (c : Copies (Sector size)) : Gd :=
  envInitRedund crc c.first.env c.second.env

/-- The first write of `env_relocate_spec`, where `cur` is the sector that `env_init` has
chosen: a valid copy in the other one becomes obsolete. -/
def retireOps (crc : Bytes → UInt32) (cur : Slot) (c : Copies (Sector size)) : List FlashOp :=
  if (c.get cur.other).flags ≠ obsoleteFlag ∧ (c.get cur.other).env.crcOk crc then
    [⟨cur.other, .flags obsoleteFlag⟩] else []

/-- The second write: a copy whose flag can be made active becomes so. -/
def activateOps (cur : Slot) (c : Copies (Sector size)) : List FlashOp :=
  if (c.get cur).flags ≠ activeFlag ∧ (c.get cur).flags &&& activeFlag = activeFlag then
    [⟨cur, .flags activeFlag⟩] else []

def repairOps (crc : Bytes → UInt32) (cur : Slot) (c : Copies (Sector size)) : List FlashOp :=
  retireOps crc cur c ++ activateOps cur c

/-- The operations of a boot: none when `env_relocate` takes the default environment. -/
def bootOps (crc : Bytes → UInt32) (c : Copies (Sector size)) : List FlashOp :=
  match (bootGd crc c).selected with
  | some cur => repairOps crc cur c
  | none => []

end UBoot.Common
