import UBoot.LibGeneric.Byteorder
import UBoot.LibGeneric.Crc32

/-!
# Making an image

`tools/mkimage.c` and `tools/default_image.c`, from the point where the options have been read.
An `int` has 32 bits, a `size_t` has 64.  No image is what `exit(EXIT_FAILURE)` leaves.
-/

namespace UBoot.Tools.Mkimage

open UBoot.Lib UBoot.LibGeneric

/-- The machine `mkimage` runs on: the files that can be opened, how many bytes one `write` of so
many bytes to the image takes (none: it returns -1), and the time of the image's last change. -/
structure Host where
  fileOf : Bytes → Option Bytes
  write : Nat → Option Nat
  mtime : Nat

/-- The types of images that `defimage_params` is for. -/
inductive ImageType
  | standalone
  | kernel
  | ramdisk
  | multi
  | firmware
  | script
  | filesystem
  deriving DecidableEq

/-- `IH_TYPE_STANDALONE` to `IH_TYPE_FILESYSTEM` -/
def ImageType.code : ImageType → UInt8
  | standalone => 1
  | kernel => 2
  | ramdisk => 3
  | multi => 4
  | firmware => 5
  | script => 6
  | filesystem => 7

/-- `struct mkimage_params`, as far as it is used in making an image. -/
structure Params where
  os : UInt8
  arch : UInt8
  type : ImageType
  comp : UInt8
  addr : Nat
  ep : Nat
  eflag : Bool
  xflag : Bool
  imagename : Bytes
  datafile : Bytes

/-- `image_header_t`, with its words as the machine has them. -/
structure ImageHeader where
  ihMagic : Nat
  ihHcrc : Nat
  ihTime : Nat
  ihSize : Nat
  ihLoad : Nat
  ihEp : Nat
  ihDcrc : Nat
  ihOs : UInt8
  ihArch : UInt8
  ihType : UInt8
  ihComp : UInt8
  ihName : Bytes

/-- `sizeof(image_header_t)` -/
def headerSize : Nat := 64

/-- `IH_MAGIC` -/
def ihMagic : Nat := 0x27051956

/-- `IH_NMLEN` -/
def ihNmlen : Nat := 32

/-- The separator of the files. -/
def colon : UInt8 := 58

/-- `strncpy(image_get_name(hdr), name, IH_NMLEN)` -/
def imageSetName (name : Bytes) : Bytes := (name ++ List.replicate ihNmlen 0).take ihNmlen

/-- The bytes of a header. -/
def ImageHeader.bytes (hdr : ImageHeader) : Bytes :=
  [hdr.ihMagic, hdr.ihHcrc, hdr.ihTime, hdr.ihSize, hdr.ihLoad, hdr.ihEp, hdr.ihDcrc].flatMap
    (fun x => store32 (cpuToUimage x)) ++ [hdr.ihOs, hdr.ihArch, hdr.ihType, hdr.ihComp] ++
    hdr.ihName

/-- An `int`. -/
def toInt (x : Int) : Int := x.bmod (2 ^ 32)

/-- The `size_t` an `int` turns into. -/
def toSizeT (x : Int) : Nat := (x % 2 ^ 64).toNat

/-- `write(ifd, data, count)`: the image after it, and the value returned. -/
def write (host : Host) (image data : Bytes) (count : Int) : Bytes × Int :=
  match host.write (toSizeT count) with
  | none => (image, -1)
  | some n => (image ++ data.take n, n)

/-- `if (write(ifd, data, count) != count) exit(EXIT_FAILURE)` -/
def writeOrExit (host : Host) (image data : Bytes) (count : Int) : Option Bytes :=
  if (write host image data count).2 = count then some (write host image data count).1 else none

/-- `copy_file` -/
def copyFile (host : Host) (params : Params) (image datafile : Bytes) (pad : Bool) :
    Option Bytes := do
  let data ← host.fileOf datafile
  -- mmap refuses to map nothing
  if data = [] then none
  if params.xflag ∧ ulong data.length < headerSize then none
  if params.xflag ∧ (data.take headerSize).any (· != 0xff) then none
  let offset : Int := if params.xflag then headerSize else 0
  let size := toInt (data.length - offset)
  let image ← writeOrExit host image (data.drop offset.toNat) size
  let tail := size.tmod 4
  if pad ∧ tail ≠ 0 then writeOrExit host image [0, 0, 0, 0] (4 - tail) else some image

/-- The file in front of the separator that `strchr(file, ':')` finds, and what is behind it. -/
def strchr (file : Bytes) : Bytes × Option Bytes :=
  (file.takeWhile (· != colon), (file.dropWhile (· != colon)).tail?)

theorem strchr_lt {file name rest : Bytes} (h : strchr file = (name, some rest)) :
    rest.length < file.length := by
  obtain ⟨-, h⟩ := Prod.mk.inj h
  cases hd : file.dropWhile (· != colon) with
  | nil => simp [hd] at h
  | cons c cs =>
    have hcs : cs = rest := by simpa [hd] using h
    have hlen := (List.dropWhile_suffix (· != colon) (l := file)).length_le
    rw [hd, List.length_cons, hcs] at hlen
    exact hlen

/-- The first loop of `main`: the sizes of the files, with a zero behind them. -/
def writeSizes (host : Host) (image file : Bytes) : Option Bytes := do
  let data ← host.fileOf (strchr file).1
  let image ← writeOrExit host image (store32 (cpuToUimage data.length)) 4
  match _h : (strchr file).2 with
  | some file => writeSizes host image file
  | none => writeOrExit host image (store32 0) 4
termination_by file.length
decreasing_by exact strchr_lt (Prod.ext rfl _h)

/-- The second loop of `main`. -/
def copyFiles (host : Host) (params : Params) (image file : Bytes) : Option Bytes := do
  match _h : (strchr file).2 with
  | some rest =>
    let image ← copyFile host params image (strchr file).1 true
    copyFiles host params image rest
  | none => copyFile host params image file false
termination_by file.length
decreasing_by exact strchr_lt (Prod.ext rfl _h)

/-- `image_set_header` of the default image support -/
def imageSetHeader (host : Host) (params : Params) (ep : Nat) (image : Bytes) : Bytes :=
  let data := image.drop headerSize
  let hdr : ImageHeader :=
    { ihMagic := ihMagic
      ihHcrc := 0
      ihTime := ulong host.mtime
      ihSize := ulong data.length
      ihLoad := ulong params.addr
      ihEp := ulong ep
      ihDcrc := (crc32 data).toNat
      ihOs := params.os
      ihArch := params.arch
      ihType := params.type.code
      ihComp := params.comp
      ihName := imageSetName params.imagename }
  { hdr with ihHcrc := (crc32 hdr.bytes).toNat }.bytes ++ data

/-- `main`, once the image has been opened for writing. -/
def mkimage (host : Host) (params : Params) : Option Bytes := do
  let ep := if params.eflag then params.ep
    else if params.xflag then params.addr + headerSize else params.addr
  let image ← writeOrExit host [] (List.replicate headerSize 0) headerSize
  let image ←
    if params.type = .multi ∨ params.type = .script then do
      let image ← writeSizes host image params.datafile
      copyFiles host params image params.datafile
    else copyFile host params image params.datafile false
  some (imageSetHeader host params ep image)

end UBoot.Tools.Mkimage
