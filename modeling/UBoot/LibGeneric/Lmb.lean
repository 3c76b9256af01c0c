import Mathlib

/-!
# Logical memory blocks

`lib_generic/lmb.c`: a table of at most eight regions in an array of nine slots, kept in
order of their bases, with neighbours joined where they touch.  A `phys_addr_t` is a word
of `w` bits, so that sums wrap.

The first `cnt` slots are the table, and what lies behind them is left over from before.
The two loops that move entries, `removeLoop` and `insertLoop`, go through `slot` and
`put`, which fail outside the array.  Where the source writes `rgn->cnt - 1` for an
unsigned `cnt` of 0, `BeforeLast` has every index before the last one.
-/

namespace UBoot.LibGeneric

/-- `struct lmb_property` -/
structure LmbProperty (w : Nat) where
  base : BitVec w
  size : BitVec w
  deriving DecidableEq, Repr

/-- `MAX_LMB_REGIONS` -/
def maxLmbRegions : Nat := 8

/-- `struct lmb_region` -/
structure LmbRegion (w : Nat) where
  cnt : Nat
  region : List (LmbProperty w)
  length_region : region.length = maxLmbRegions + 1
  deriving DecidableEq, Repr

variable {w : Nat}

namespace LmbRegion

/-- `rgn->region[i]` -/
def slot (rgn : LmbRegion w) (i : Nat) : Option (LmbProperty w) := rgn.region[i]?

/-- `rgn->region[i] = r` -/
def put (rgn : LmbRegion w) (i : Nat) (r : LmbProperty w) : Option (LmbRegion w) :=
  if i ≤ maxLmbRegions then
    some ⟨rgn.cnt, rgn.region.set i r, (List.length_set ..).trans rgn.length_region⟩
  else none

/-- The entries of the table. -/
def entries (rgn : LmbRegion w) : List (LmbProperty w) := rgn.region.take rgn.cnt

end LmbRegion

/-- `lmb_addrs_adjacent` -/
def lmbAddrsAdjacent (base1 size1 base2 size2 : BitVec w) : Int :=
  if base2 = base1 + size1 then 1
  else if base1 = base2 + size2 then -1
  else 0

/-- `lmb_regions_adjacent` -/
def lmbRegionsAdjacent (rgn : LmbRegion w) (r1 r2 : Nat) : Option Int := do
  let x ← rgn.slot r1
  let y ← rgn.slot r2
  return lmbAddrsAdjacent x.base x.size y.base y.size

/-- `i < rgn->cnt - 1` -/
def LmbRegion.BeforeLast (rgn : LmbRegion w) (i : Nat) : Prop := rgn.cnt = 0 ∨ i < rgn.cnt - 1

instance (rgn : LmbRegion w) (i : Nat) : Decidable (rgn.BeforeLast i) :=
  inferInstanceAs (Decidable (_ ∨ _))

/-- The loop of `lmb_remove_region`. -/
def removeLoop : Nat → LmbRegion w → Nat → Option (LmbRegion w)
  | 0, _, _ => none
  | fuel + 1, rgn, i =>
    if rgn.BeforeLast i then do
      let x ← rgn.slot (i + 1)
      let rgn ← rgn.put i x
      removeLoop fuel rgn (i + 1)
    else some rgn

/-- `lmb_remove_region` -/
def lmbRemoveRegion (rgn : LmbRegion w) (r : Nat) : Option (LmbRegion w) := do
  let rgn ← removeLoop (maxLmbRegions + 2) rgn r
  return { rgn with cnt := rgn.cnt - 1 }

/-- `lmb_coalesce_regions` -/
def lmbCoalesceRegions (rgn : LmbRegion w) (r1 r2 : Nat) : Option (LmbRegion w) := do
  let x ← rgn.slot r1
  let y ← rgn.slot r2
  let rgn ← rgn.put r1 ⟨x.base, x.size + y.size⟩
  lmbRemoveRegion rgn r2

/-- What ends the first loop of `lmb_add_region`: the region itself, or one that touches
it. -/
def stopsAt (base size : BitVec w) (r : LmbProperty w) : Bool :=
  (r.base == base && r.size == size) || lmbAddrsAdjacent base size r.base r.size != 0

/-- The loop that makes room, from the entry `i - 1` down to the first. -/
def insertLoop (base size : BitVec w) : Nat → LmbRegion w → Option (LmbRegion w)
  | 0, rgn => some rgn
  | i + 1, rgn => do
    let x ← rgn.slot i
    if base < x.base then
      let rgn ← rgn.put (i + 1) x
      insertLoop base size i rgn
    else rgn.put (i + 1) ⟨base, size⟩

/-- "Couldn't coalesce the LMB, so add it to the sorted table." -/
def insertRegion (rgn : LmbRegion w) (base size : BitVec w) : Option (LmbRegion w) := do
  let rgn ← insertLoop base size rgn.cnt rgn
  let first ← rgn.slot 0
  let rgn ← if base < first.base then rgn.put 0 ⟨base, size⟩ else some rgn
  return { rgn with cnt := rgn.cnt + 1 }

/-- `(i < rgn->cnt-1) && lmb_regions_adjacent(rgn, i, i+1)` -/
def touchesNext (rgn : LmbRegion w) (i : Nat) : Option Bool :=
  if rgn.BeforeLast i then do return (← lmbRegionsAdjacent rgn i (i + 1)) != 0
  else some false

/-- `lmb_add_region` behind its first loop, which has ended at `i` with `coalesced`. -/
def finishAdd (rgn : LmbRegion w) (base size : BitVec w) (i coalesced : Nat) :
    Option (Int × LmbRegion w) := do
  if ← touchesNext rgn i then
    return (coalesced + 1, ← lmbCoalesceRegions rgn i (i + 1))
  else if coalesced ≠ 0 then return (coalesced, rgn)
  else if rgn.cnt ≥ maxLmbRegions then return (-1, rgn)
  else return (0, ← insertRegion rgn base size)

/-- `lmb_add_region`: the return value and the table. -/
def lmbAddRegion (rgn : LmbRegion w) (base size : BitVec w) : Option (Int × LmbRegion w) := do
  let first ← rgn.slot 0
  if rgn.cnt = 1 ∧ first.size = 0 then return (0, ← rgn.put 0 ⟨base, size⟩)
  else
    match rgn.entries.findIdx? (stopsAt base size) with
    | none => finishAdd rgn base size rgn.cnt 0
    | some i =>
      let r ← rgn.slot i
      if r.base = base ∧ r.size = size then return (0, rgn)
      else if lmbAddrsAdjacent base size r.base r.size > 0 then
        finishAdd (← rgn.put i ⟨r.base - size, r.size + size⟩) base size i 1
      else finishAdd (← rgn.put i ⟨r.base, r.size + size⟩) base size i 1

/-- `lmb_free` on the reserved regions. -/
def lmbFreeRegion (rgn : LmbRegion w) (base size : BitVec w) : Option (Int × LmbRegion w) := do
  let stop := base + size
  match rgn.entries.findIdx? fun r => decide (r.base ≤ base ∧ stop ≤ r.base + r.size) with
  | none => return (-1, rgn)
  | some i =>
    let r ← rgn.slot i
    let rgnend := r.base + r.size
    if r.base = base ∧ rgnend = stop then return (0, ← lmbRemoveRegion rgn i)
    else if r.base = base then return (0, ← rgn.put i ⟨stop, r.size - size⟩)
    else if rgnend = stop then return (0, ← rgn.put i ⟨r.base, r.size - size⟩)
    else lmbAddRegion (← rgn.put i ⟨r.base, base - r.base⟩) stop (rgnend - stop)

/-- `struct lmb` -/
structure Lmb (w : Nat) where
  memory : LmbRegion w
  reserved : LmbRegion w
  deriving DecidableEq, Repr

/-- "Create a dummy zero size LMB which will get coalesced away later." -/
def LmbRegion.init (rgn : LmbRegion w) : LmbRegion w :=
  ⟨1, rgn.region.set 0 ⟨0, 0⟩, (List.length_set ..).trans rgn.length_region⟩

/-- `lmb_init` -/
def lmbInit (lmb : Lmb w) : Lmb w := ⟨lmb.memory.init, lmb.reserved.init⟩

/-- The public calls that change the tables. -/
inductive LmbCall (w : Nat)
  | add (base size : BitVec w)
  | reserve (base size : BitVec w)
  | free (base size : BitVec w)
  deriving DecidableEq, Repr

/-- `lmb_add`, `lmb_reserve` and `lmb_free`: the return value and the tables. -/
def LmbCall.run (lmb : Lmb w) : LmbCall w → Option (Int × Lmb w)
  | .add base size => do
    let (rc, memory) ← lmbAddRegion lmb.memory base size
    return (rc, { lmb with memory := memory })
  | .reserve base size => do
    let (rc, reserved) ← lmbAddRegion lmb.reserved base size
    return (rc, { lmb with reserved := reserved })
  | .free base size => do
    let (rc, reserved) ← lmbFreeRegion lmb.reserved base size
    return (rc, { lmb with reserved := reserved })

/-- `lmb_is_reserved` -/
def lmbIsReserved (lmb : Lmb w) (addr : BitVec w) : Bool :=
  lmb.reserved.entries.any fun r =>
    decide (r.base ≤ addr) && decide (addr ≤ r.base + r.size - 1)

end UBoot.LibGeneric
