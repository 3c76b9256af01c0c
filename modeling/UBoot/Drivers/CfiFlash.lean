import UBoot.Lib.Blocks
import UBoot.Lib.ByteOrder

/-!
# Writing to CFI NOR flash

`write_buff` of `drivers/mtd/cfi_flash.c` with what it calls, with `CONFIG_SYS_FLASH_USE_BUFFER_WRITE`
and without, and `find_sector`.  The range lies inside the bank, so that no address wraps.  No board
defines `CONFIG_SYS_WRITE_SWAPPED_DATA` on a little-endian machine: the order in which
`flash_add_byte` shifts is that of the machine.

A data cycle clears bits of the cells, and the status checks report success.  The bus keeps a log of
all cycles.  A loop that adds some bytes to a word is the fold over these bytes.
-/

namespace UBoot.Drivers.Cfi

open UBoot.Lib

/-- `info->portwidth` -/
inductive PortWidth
  | flashCfi8bit
  | flashCfi16bit
  | flashCfi32bit
  | flashCfi64bit
  deriving DecidableEq, Repr

/-- `shift` of `flash_write_cfibuffer`. -/
def PortWidth.shift : PortWidth → Nat
  | flashCfi8bit => 0
  | flashCfi16bit => 1
  | flashCfi32bit => 2
  | flashCfi64bit => 3

/-- The value of `portwidth`: the bytes of a word. -/
def PortWidth.bytes (p : PortWidth) : Nat := 2 ^ p.shift

/-- `info->vendor`: the command sets that the driver knows, `CFI_CMDSET_AMD_LEGACY` with
`CONFIG_FLASH_CFI_LEGACY`. -/
inductive Vendor
  | intelProgRegions
  | intelExtended
  | intelStandard
  | amdExtended
  | amdStandard
  | amdLegacy
  deriving DecidableEq, Repr

/-- The fields of `flash_info_t` that are used here, and whether
`CONFIG_FLASH_SPANSION_S29WS_N` is defined. -/
structure FlashInfo where
  sectorCount : Nat
  start : Nat → Nat
  portwidth : PortWidth
  chipwidth : Nat
  bufferSize : Nat
  vendor : Vendor
  cmdReset : Nat
  addrUnlock1 : Nat
  addrUnlock2 : Nat
  spansionS29wsN : Bool
  sectorCount_pos : 0 < sectorCount

/-- The bytes of a word of the bank. -/
def FlashInfo.width (info : FlashInfo) : Nat := info.portwidth.bytes

/-- `ERR_OK` -/
def errOk : Nat := 0

/-- `ERR_NOT_ERASED` -/
def errNotErased : Nat := 2

/-- `ERR_INVAL` -/
def errInval : Nat := 8

/-! ## Sectors -/

/-- The first loop of `find_sector`. -/
def sectorUp (info : FlashInfo) (addr : Nat) : Nat → Nat → Nat
  | 0, sector => sector
  | fuel + 1, sector =>
    if info.start sector < addr ∧ sector < info.sectorCount - 1 then
      sectorUp info addr fuel (sector + 1)
    else sector

/-- The second loop. -/
def sectorDown (info : FlashInfo) (addr : Nat) : Nat → Nat
  | 0 => 0
  | sector + 1 => if addr < info.start (sector + 1) then sectorDown info addr sector else sector + 1

/-- `find_sector`; the result is also the next `saved_sector`. -/
def findSector (info : FlashInfo) (savedSector addr : Nat) : Nat :=
  sectorDown info addr (sectorUp info addr info.sectorCount savedSector)

/-! ## The bus -/

/-- `flash_write_cmd`, or a word written to its address. -/
inductive BusWrite
  | cmd (sect offset cmd : Nat)
  | data (addr word : Nat)
  deriving DecidableEq, Repr

structure CfiState where
  flash : Contents
  savedSector : Nat
  bus : List BusWrite

section Code

variable (e : Endian) (info : FlashInfo)

/-- `flash_write_cmd` -/
def CfiState.writeCmd (sect offset cmd : Nat) (s : CfiState) : CfiState :=
  { s with bus := s.bus ++ [.cmd sect offset cmd] }

/-- `flash_unlock_seq` -/
def flashUnlockSeq (sect : Nat) (s : CfiState) : CfiState :=
  (s.writeCmd sect info.addrUnlock1 0xAA).writeCmd sect info.addrUnlock2 0x55

/-- `flash_write8` and the others. -/
def flashWrite (word addr : Nat) (s : CfiState) : CfiState :=
  { s with
    flash := programAt s.flash addr (bytesOf e info.width word)
    bus := s.bus ++ [.data addr word] }

/-- `flash_read8` and the others, for flash and for the source. -/
def flashRead (m : Contents) (addr : Nat) : Nat := wordOf e (readAt m addr info.width)

/-- `find_sector`, with the sector that is saved. -/
def CfiState.findSector (addr : Nat) (s : CfiState) : Nat × CfiState :=
  let sect := Cfi.findSector info s.savedSector addr
  (sect, { s with savedSector := sect })

/-- `flash_full_status_check` -/
def flashFullStatusCheck (sect : Nat) (s : CfiState) : Nat × CfiState :=
  match info.vendor with
  | .intelProgRegions | .intelExtended | .intelStandard =>
    (errOk, s.writeCmd sect 0 info.cmdReset)
  | _ => (errOk, s)

/-! ## Words -/

/-- `flash_add_byte` -/
def flashAddByte (cword : Nat) (c : UInt8) : Nat :=
  match info.portwidth with
  | .flashCfi8bit => c.toNat
  | _ => shiftIn e info.width cword c

/-- The word behind `cword.l = 0`; of 64 bits this clears the first four bytes of the union. -/
def startWord (junk : UInt32) : Nat :=
  match info.portwidth, e with
  | .flashCfi64bit, .little => junk.toNat * 2 ^ 32
  | .flashCfi64bit, .big => junk.toNat
  | _, _ => 0

/-- `flash_write_cfiword` -/
def flashWriteCfiword (dest cword : Nat) (s : CfiState) : Nat × CfiState :=
  if flashRead e info s.flash dest &&& cword ≠ cword then (errNotErased, s)
  else
    match info.vendor with
    | .intelProgRegions | .intelExtended | .intelStandard =>
      let s := (s.writeCmd 0 0 0x50).writeCmd 0 0 0x40
      let s := flashWrite e info cword dest s
      let (sect, s) := s.findSector info dest
      flashFullStatusCheck info sect s
    | .amdExtended | .amdStandard =>
      let (sect, s) := s.findSector info dest
      let s := (flashUnlockSeq info sect s).writeCmd sect info.addrUnlock1 0xA0
      flashFullStatusCheck info sect (flashWrite e info cword dest s)
    | .amdLegacy =>
      let (sect, s) := s.findSector info dest
      let s := (flashUnlockSeq info 0 s).writeCmd 0 info.addrUnlock1 0xA0
      flashFullStatusCheck info sect (flashWrite e info cword dest s)

/-! ## Buffers -/

/-- The first loop of `flash_write_cfibuffer` over so many words: `flag`. -/
def bufferFlag (flash src : Contents) : Nat → Nat → Nat → Bool
  | 0, _, _ => false
  | cnt + 1, dst, pos =>
    if flashRead e info flash dst &&& flashRead e info src pos = flashRead e info src pos then true
    else bufferFlag flash src cnt (dst + info.width) (pos + info.width)

/-- The loops that write the words to the buffer. -/
def bufferData (src : Contents) : Nat → Nat → Nat → CfiState → CfiState
  | 0, _, _, s => s
  | cnt + 1, dst, pos, s =>
    bufferData src cnt (dst + info.width) (pos + info.width)
      (flashWrite e info (flashRead e info src pos) dst s)

/-- `flash_write_cfibuffer` of `len` bytes of the source. -/
def flashWriteCfibuffer (dest : Nat) (src : Contents) (pos len : Nat) (s : CfiState) :
    Nat × CfiState :=
  let cnt := len >>> info.portwidth.shift
  if bufferFlag e info s.flash src cnt dest pos = false then (errNotErased, s)
  else
    let (sect, s) := s.findSector info dest
    let intel (writeCmd : Nat) : Nat × CfiState :=
      let s := ((s.writeCmd sect 0 0x50).writeCmd sect 0 0x70).writeCmd sect 0 writeCmd
      let s := bufferData e info src cnt dest pos (s.writeCmd sect 0 (cnt - 1))
      flashFullStatusCheck info sect (s.writeCmd sect 0 0xD0)
    match info.vendor with
    | .intelProgRegions => intel 0xE9
    | .intelExtended | .intelStandard => intel 0xE8
    | .amdExtended | .amdStandard =>
      let offset :=
        if info.spansionS29wsN then (dest - info.start sect) >>> info.portwidth.shift else 0
      let s := (flashUnlockSeq info 0 s).writeCmd sect offset 0x25
      let s := bufferData e info src cnt dest pos (s.writeCmd sect offset (cnt - 1))
      flashFullStatusCheck info sect (s.writeCmd sect 0 0x29)
    | .amdLegacy => (errInval, s)

/-! ## `write_buff` -/

/-- `wp`, the number of bytes that have been read from the source, `cnt`, and the driver. -/
structure Cursor where
  wp : Nat
  pos : Nat
  cnt : Nat
  s : CfiState

/-- What is returned, with the number of bytes that have been read from the source. -/
structure WriteEnd where
  rc : Nat
  read : Nat
  s : CfiState

/-- `flash_write_cfiword`, and `return rc` unless it is 0. -/
def writeWord (wp read cword : Nat) (s : CfiState) : Except WriteEnd CfiState :=
  let (rc, s) := flashWriteCfiword e info wp cword s
  if rc ≠ 0 then .error ⟨rc, read, s⟩ else .ok s

/-- "handle unaligned start", where `junk` is what is left in the word. -/
def writeHead (junk : UInt32) (src : Contents) (addr cnt : Nat) (s : CfiState) :
    Except WriteEnd Cursor :=
  let wp := addr / info.width * info.width
  let aln := addr - wp
  if aln ≠ 0 then
    let cword := (readAt s.flash wp aln).foldl (flashAddByte e info) (startWord e info junk)
    let n := min (info.width - aln) cnt
    let cword := (readAt src 0 n).foldl (flashAddByte e info) cword
    let i := if cnt - n = 0 then info.width else aln + n
    let cword := (readAt s.flash (wp + (aln + n)) (i - (aln + n))).foldl (flashAddByte e info) cword
    (writeWord e info wp n cword s).map fun s => ⟨wp + i, n, cnt - n, s⟩
  else .ok ⟨wp, 0, cnt, s⟩

/-- A word of the aligned part. -/
def writeAligned (junk : UInt32) (src : Contents) (c : Cursor) : Except WriteEnd Cursor :=
  let cword := (readAt src c.pos info.width).foldl (flashAddByte e info) (startWord e info junk)
  (writeWord e info c.wp (c.pos + info.width) cword c.s).map fun s =>
    ⟨c.wp + info.width, c.pos + info.width, c.cnt - info.width, s⟩

/-- The loop over the aligned part. -/
def writeLoop (junk : UInt32) (src : Contents) : Nat → Cursor → Except WriteEnd Cursor
  | 0, c => .ok c
  | fuel + 1, c =>
    if info.width ≤ c.cnt then
      (writeAligned e info junk src c).bind (writeLoop junk src fuel)
    else .ok c

/-- "handle unaligned tail bytes" -/
def writeTail (junk : UInt32) (src : Contents) (c : Cursor) : WriteEnd :=
  if c.cnt = 0 then ⟨0, c.pos, c.s⟩
  else
    let cword := (readAt src c.pos c.cnt).foldl (flashAddByte e info) (startWord e info junk)
    let rest := readAt c.s.flash (c.wp + c.cnt) (info.width - c.cnt)
    let (rc, s) := flashWriteCfiword e info c.wp (rest.foldl (flashAddByte e info) cword) c.s
    ⟨rc, c.pos + c.cnt, s⟩

/-- `write_buff`.  A round of the loop takes a byte at least. -/
def writeBuff (junk : UInt32) (src : Contents) (addr cnt : Nat) (s : CfiState) : WriteEnd :=
  let aligned := (writeHead e info junk src addr cnt s).bind (writeLoop e info junk src cnt)
  match aligned with
  | .error r => r
  | .ok c => writeTail e info junk src c

/-- `buffered_size` -/
def bufferedSize : Nat := info.portwidth.bytes / info.chipwidth * info.bufferSize

/-- The loop over the aligned part with `CONFIG_SYS_FLASH_USE_BUFFER_WRITE`; none where it divides
by 0. -/
def writeBufferLoop (junk : UInt32) (src : Contents) : Nat → Cursor → Option (Except WriteEnd Cursor)
  | 0, c => some (.ok c)
  | fuel + 1, c =>
    if info.width ≤ c.cnt then
      if info.bufferSize = 1 then
        match writeAligned e info junk src c with
        | .error r => some (.error r)
        | .ok c => writeBufferLoop junk src fuel c
      else if bufferedSize info = 0 then none
      else
        let i := min (bufferedSize info - c.wp % bufferedSize info) c.cnt
        let (rc, s) := flashWriteCfibuffer e info c.wp src c.pos i c.s
        if rc ≠ errOk then some (.error ⟨rc, c.pos + i, s⟩)
        else
          let i := i - i % info.width
          writeBufferLoop junk src fuel ⟨c.wp + i, c.pos + i, c.cnt - i, s⟩
    else some (.ok c)

/-- `write_buff` with `CONFIG_SYS_FLASH_USE_BUFFER_WRITE`. -/
def writeBuffBuffered (junk : UInt32) (src : Contents) (addr cnt : Nat) (s : CfiState) :
    Option WriteEnd :=
  match writeHead e info junk src addr cnt s with
  | .error r => some r
  | .ok c => (writeBufferLoop e info junk src cnt c).map fun
    | .error r => r
    | .ok c => writeTail e info junk src c

end Code

end UBoot.Drivers.Cfi
