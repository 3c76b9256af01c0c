import UBoot.Lib.Memory

/-!
# The checksum of the environment and of JFFS2

`lib_generic/crc32.c`.  `crcTable` is one entry of `crc_table`, computed the way
`make_crc_table` fills it; `crc32` is `crc32(0, p, len)` over all bytes of `p`, and
`crc32NoComp` is the version without the ones complement that JFFS2 uses.  The four
bytes at a time of `crc32_no_comp` are the byte step taken four times, so only the
byte step is written out.

Both use the checksum only by comparing it.  The results about them hold for any
function in its place, and the concrete runs use this one.
-/

namespace UBoot.LibGeneric

open UBoot.Lib

def crcShift (c : UInt32) : UInt32 :=
  if c &&& 1 = 1 then (0xEDB88320 : UInt32) ^^^ (c >>> 1) else c >>> 1

/-- `crc_table[n]`. -/
def crcTable (n : UInt32) : UInt32 := Nat.repeat crcShift 8 n

/-- `DO_CRC(x)`. -/
def doCrc (crc : UInt32) (x : UInt8) : UInt32 :=
  crcTable ((crc ^^^ x.toUInt32) &&& 255) ^^^ (crc >>> 8)

/-- `crc32_no_comp(0, p, len)`. -/
def crc32NoComp (p : Bytes) : UInt32 := p.foldl doCrc 0

/-- `crc32(0, p, len)`. -/
def crc32 (p : Bytes) : UInt32 := p.foldl doCrc 0xFFFFFFFF ^^^ 0xFFFFFFFF

example : crcTable 1 = 0x77073096 := by decide

example : crc32 [49, 50, 51, 52, 53, 54, 55, 56, 57] = 0xCBF43926 := by decide +kernel

end UBoot.LibGeneric
