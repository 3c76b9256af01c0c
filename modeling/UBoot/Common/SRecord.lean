import UBoot.Common.Flash
import UBoot.Lib.Blocks
import UBoot.LibGeneric.Vsprintf

/-!
# S-records

`common/s_record.c`, and the upload and the download of `common/cmd_load.c`.  An `ulong` has 32
bits, and a record does not run over the end of the memory.  A character that arrives comes with the
answer of `ctrlc` behind it, which is false if the console is the serial line.  The echo and the
messages are left out.
-/

namespace UBoot.Common.SRecord

open UBoot.Lib UBoot.LibGeneric

/-! ## `srec_decode` -/

/-- `SREC_MAXRECLEN` -/
def srecMaxRecLen : Nat := 512 + 4

/-- The types of records, without `SREC_EMPTY`. -/
inductive SrecType
  | start
  | data2
  | data3
  | data4
  | count
  | end4
  | end3
  | end2
  deriving DecidableEq

/-- `SREC_E_BADTYPE`, `SREC_E_NOSREC` and `SREC_E_BADCHKS` -/
inductive SrecError
  | badType
  | noSrec
  | badChks
  deriving DecidableEq

/-- What `srec_decode` leaves in its arguments, with the type that it returns. -/
structure SRec where
  type : SrecType
  count : Int
  addr : Nat
  data : Bytes
  deriving DecidableEq

/-- `hex1_bin` -/
def hex1Bin (c : UInt8) : Option Nat :=
  if 48 ≤ c ∧ c ≤ 57 then some (c.toNat - 48)
  else if 97 ≤ c ∧ c ≤ 102 then some (c.toNat + 10 - 97)
  else if 65 ≤ c ∧ c ≤ 70 then some (c.toNat + 10 - 65)
  else none

/-- `hex2_bin` -/
def hex2Bin (s : Bytes) : Option UInt8 := do
  let i ← hex1Bin (charAt s)
  let j ← hex1Bin (charAt s.tail)
  return UInt8.ofNat (i * 16 + j)

/-- Pairs of digits, and the text behind them. -/
def readPairs : Nat → Bytes → Except SrecError (Bytes × Bytes)
  | 0, input => .ok ([], input)
  | n + 1, input =>
    match hex2Bin input with
    | none => .error .noSrec
    | some v => do
      let (vs, input) ← readPairs n (input.drop 2)
      return (v :: vs, input)

/-- What the record type says: `srec_type`, `*count` and the number of address bytes. -/
def recordType (v : UInt8) (count : Int) : Except SrecError (SrecType × Int × Nat) :=
  if v = 48 then .ok (.start, count - 3, 2)
  else if v = 49 then .ok (.data2, count - 3, 2)
  else if v = 50 then .ok (.data3, count - 4, 3)
  else if v = 51 then .ok (.data4, count - 5, 4)
  else if v = 53 then .ok (.count, 0, 2)
  else if v = 55 then .ok (.end4, count - 5, 4)
  else if v = 56 then .ok (.end3, count - 4, 3)
  else if v = 57 then .ok (.end2, count - 3, 2)
  else .error .badType

/-- `*addr`, from its bytes. -/
def addrOf (bytes : Bytes) : Nat := bytes.foldl (fun addr v => (addr * 256 + v.toNat) % 2 ^ 32) 0

/-- `srec_decode`, none for `SREC_EMPTY`. -/
def srecDecode (input : Bytes) : Except SrecError (Option SRec) :=
  match (input.dropWhile (· ≠ 83)).tail with
  | [] => .ok none
  | v :: input => do
    let (counts, input) ← readPairs 1 input
    let (type, count, addrLen) ← recordType v (charAt counts).toNat
    let (addr, input) ← readPairs addrLen input
    let (data, input) ← readPairs count.toNat input
    let (check, _) ← readPairs 1 input
    let chksum := (counts ++ addr ++ data).foldl (· + ·) 0
    if charAt check ≠ ~~~chksum then .error .badChks
    else .ok (some ⟨type, count, addrOf addr, data⟩)

/-! ## `load_serial` -/

/-- What `read_record` comes to. -/
inductive RecordRead
  | waits
  | aborted
  | line (record : Bytes) (rest : List (UInt8 × Bool))

/-- `read_record` with room for so many characters behind those in the buffer. -/
def readRecordLoop : Nat → Bytes → List (UInt8 × Bool) → RecordRead
  | 0, buf, input => .line buf input
  | _ + 1, _, [] => .waits
  | room + 1, buf, (c, hangup) :: input =>
    if c = 13 ∨ c = 10 then .line buf input
    else if c = 0 ∨ c = 3 then .aborted
    else if hangup then .aborted
    else readRecordLoop room (buf ++ [c]) input

/-- `read_record` -/
def readRecord (input : List (UInt8 × Bool)) (len : Nat) : RecordRead :=
  readRecordLoop (len - 1) [] input

/-- The variables of `load_serial`, with the memory. -/
structure Loader where
  mem : Contents
  startAddr : Nat
  endAddr : Nat

/-- What `load_serial` returns and what it leaves; the variable `filesize` if it sets it. -/
structure Loaded where
  addr : Nat
  mem : Contents
  filesize : Option Bytes

/-- `~0` -/
def allOnes : Nat := 2 ^ 32 - 1

/-- `%X`, filled up with zeros to a width. -/
def formatHex (width n : Nat) : Bytes :=
  let digits := (Nat.toDigits 16 n).map fun c => toupper (UInt8.ofNat c.toNat)
  List.replicate (width - digits.length) 48 ++ digits

/-- What `load_serial` works with: the banks, and `flash_write` with its result and the memory
behind it. -/
structure LoadConfig where
  banks : List FlashInfo
  flashWrite : Contents → Nat → Bytes → Int × Contents

/-- A data record: none if it is shorter than its address, with the result of `flash_write`. -/
def storeRecord (cfg : LoadConfig) (offset : Nat) (l : Loader) (r : SRec) :
    Option (Int × Loader) :=
  if r.count < 0 then none
  else
    let storeAddr := (r.addr + offset) % 2 ^ 32
    let (rc, mem) :=
      if (addr2info cfg.banks storeAddr).isSome then cfg.flashWrite l.mem storeAddr r.data
      else (0, storeAt l.mem storeAddr r.data)
    let last := (storeAddr + r.count.toNat + 2 ^ 32 - 1) % 2 ^ 32
    some (rc,
      { mem := mem
        startAddr := if storeAddr < l.startAddr then storeAddr else l.startAddr
        endAddr := if l.endAddr < last then last else l.endAddr })

/-- The loop of `load_serial`, for so many records at most. -/
def loadLoop (cfg : LoadConfig) (offset : Nat) :
    Nat → Loader → List (UInt8 × Bool) → Option Loaded
  | 0, _, _ => none
  | records + 1, l, input =>
    match readRecord input (srecMaxRecLen + 1) with
    | .waits => none
    | .aborted => some ⟨allOnes, l.mem, none⟩
    | .line record rest =>
      match srecDecode record with
      | .error _ => some ⟨allOnes, l.mem, none⟩
      | .ok none => loadLoop cfg offset records l rest
      | .ok (some r) =>
        if r.type = .data2 ∨ r.type = .data3 ∨ r.type = .data4 then do
          let (rc, l) ← storeRecord cfg offset l r
          if rc ≠ 0 then some ⟨allOnes, l.mem, none⟩ else loadLoop cfg offset records l rest
        else if r.type = .end2 ∨ r.type = .end3 ∨ r.type = .end4 then
          let size := (l.endAddr + 2 ^ 32 - l.startAddr + 1) % 2 ^ 32
          some ⟨r.addr, l.mem, some (formatHex 0 size)⟩
        else loadLoop cfg offset records l rest

/-- `load_serial`, none if it does not come back.  A record takes a character at least. -/
def loadSerial (cfg : LoadConfig) (offset : Nat) (mem : Contents)
    (input : List (UInt8 × Bool)) : Option Loaded :=
  loadLoop cfg offset (input.length + 1) ⟨mem, allOnes, 0⟩ input

/-! ## `save_serial` -/

/-- `SREC3_START` -/
def srec3Start : Bytes := str "S0030000FC\n"

/-- `SREC3_END` -/
def srec3End : Bytes := str "S70500000000FA\n"

/-- `SREC_BYTES_PER_RECORD` -/
def srecBytesPerRecord : Nat := 16

/-- `hex[d]` -/
def hex (d : Nat) : UInt8 := (str "0123456789ABCDEF").getD d 0

/-- The variables of `save_serial`, without `count`. -/
structure Saver where
  address : Nat
  reclen : Nat
  checksum : Nat
  data : Bytes

/-- "collect hex data in the buffer" -/
def collect (mem : Contents) (s : Saver) : Saver :=
  let c := (mem ((s.address + s.reclen) % 2 ^ 32)).toNat
  { s with
    checksum := s.checksum + c
    data := s.data.take (2 * s.reclen) ++ [hex (c / 16 % 16), hex (c % 16)]
    reclen := s.reclen + 1 }

/-- "build & write a data record", with `SREC3_FORMAT` -/
def buildRecord (s : Saver) : Bytes :=
  let length := 4 + s.reclen + 1
  let lengths := length % 256 + length / 256 % 256
  let addresses := s.address % 256 + s.address / 256 % 256 + s.address / 65536 % 256 +
    s.address / 16777216 % 256
  let checksum := 255 - (s.checksum + lengths + addresses) % 256
  str "S3" ++ formatHex 2 length ++ formatHex 8 s.address ++ s.data ++ formatHex 2 checksum ++
    [10]

/-- What is left behind a record. -/
def nextRecord (s : Saver) : Saver :=
  { s with address := (s.address + s.reclen) % 2 ^ 32, checksum := 0, reclen := 0 }

/-- The loop of `save_serial`: the records that it builds. -/
def saveLoop (mem : Contents) : Nat → Saver → List Bytes
  | 0, _ => []
  | count + 1, s =>
    let s := collect mem s
    if s.reclen = srecBytesPerRecord ∨ count = 0 then
      buildRecord s :: saveLoop mem count (nextRecord s)
    else saveLoop mem count s

/-- `write_record`, for one record after the other until `ctrlc` answers: what is written, and the
return value. -/
def writeRecords (ctrlc : Nat → Bool) : Nat → List Bytes → Bytes × Int
  | _, [] => ([], 0)
  | n, record :: records =>
    if ctrlc n then (record, -1)
    else
      let (out, rc) := writeRecords ctrlc (n + 1) records
      (record ++ out, rc)

/-- The records of `save_serial`. -/
def saveRecords (mem : Contents) (address count : Nat) : List Bytes :=
  srec3Start :: (saveLoop mem count ⟨address, 0, 0, []⟩ ++ [srec3End])

/-- `save_serial` -/
def saveSerial (mem : Contents) (ctrlc : Nat → Bool) (address count : Nat) : Bytes × Int :=
  writeRecords ctrlc 0 (saveRecords mem address count)

end UBoot.Common.SRecord
