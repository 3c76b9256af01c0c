import UBoot.LibGeneric.Byteorder

/-!
# The components of an image

`common/image.c`.  An image lies at an address of the memory.  Counting its components goes on up
to a size of zero, so it gets a number of sizes that it looks at at most.
-/

namespace UBoot.Common.Image

open UBoot.Lib UBoot.LibGeneric

/-- `image_get_header_size` -/
def imageGetHeaderSize : Nat := 64

/-- `image_get_data` -/
def imageGetData (hdr : Nat) : Nat := ulong (hdr + imageGetHeaderSize)

/-- `size[i]` -/
def size (ram : Nat → UInt8) (hdr i : Nat) : Nat := load32 ram (imageGetData hdr + 4 * i)

/-- The loop of `image_multi_count`. -/
def countSizes (ram : Nat → UInt8) (hdr : Nat) : Nat → Nat → Nat → Option Nat
  | 0, _, _ => none
  | fuel + 1, i, count =>
    if size ram hdr i = 0 then some count
    else countSizes ram hdr fuel (ulong (i + 1)) (ulong (count + 1))

/-- `image_multi_count` -/
def imageMultiCount (fuel : Nat) (ram : Nat → UInt8) (hdr : Nat) : Option Nat :=
  countSizes ram hdr fuel 0 0

/-- `offset` after so many rounds of the loop of `image_multi_getimg`. -/
def offset (ram : Nat → UInt8) (hdr : Nat) : Nat → Nat
  | 0 => 0
  | i + 1 => ulong (offset ram hdr i + ulong (uimageToCpu (size ram hdr i) + 3) / 4 * 4)

/-- `image_multi_getimg`: `*data` and `*len`. -/
def imageMultiGetimg (fuel : Nat) (ram : Nat → UInt8) (hdr idx : Nat) : Option (Nat × Nat) := do
  let count ← imageMultiCount fuel ram hdr
  let imgData := ulong (imageGetData hdr + ulong (count + 1) * 4)
  if idx < count then
    some (ulong (imgData + offset ram hdr idx), uimageToCpu (size ram hdr idx))
  else some (0, 0)

end UBoot.Common.Image
