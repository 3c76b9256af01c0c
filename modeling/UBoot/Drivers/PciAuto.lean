import Mathlib

/-!
# Allocating PCI resources

`pciauto_region_init`, `pciauto_region_align` and `pciauto_region_allocate` of
`drivers/pci/pci_auto.c`, for a `pci_addr_t` of 32 bits.
-/

namespace UBoot.Drivers

/-- The fields of `struct pci_region` that are used here. -/
structure PciRegion where
  busStart : BitVec 32
  size : BitVec 32
  busLower : BitVec 32
  deriving DecidableEq, Repr

/-- `pciauto_region_init` -/
def pciautoRegionInit (res : PciRegion) : PciRegion :=
  { res with busLower := if res.busStart ≠ 0 then res.busStart else 0x1000 }

/-- `((res->bus_lower - 1) | (size - 1)) + 1` -/
def roundUp (busLower size : BitVec 32) : BitVec 32 := ((busLower - 1) ||| (size - 1)) + 1

/-- `pciauto_region_align` -/
def pciautoRegionAlign (res : PciRegion) (size : BitVec 32) : PciRegion :=
  { res with busLower := roundUp res.busLower size }

/-- The return value of `pciauto_region_allocate`, `*res` and `*bar`. -/
structure Allocation where
  ret : Int
  res : Option PciRegion
  bar : BitVec 32
  deriving DecidableEq, Repr

/-- `pciauto_region_allocate`; the region may be a null pointer. -/
def pciautoRegionAllocate (res : Option PciRegion) (size : BitVec 32) : Allocation :=
  match res with
  | none => ⟨-1, none, -1⟩
  | some res =>
    let addr := roundUp res.busLower size
    if addr - res.busStart + size > res.size then ⟨-1, some res, -1⟩
    else ⟨0, some { res with busLower := addr + size }, addr⟩

end UBoot.Drivers
