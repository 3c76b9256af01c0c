import UBoot.Lib.Blocks

/-!
# The Kermit download

`k_recv` of `common/cmd_load.c` and what it calls.  It waits for characters, so it is a machine
that takes one at a time, with a phase for each of its calls of `getc`.  What it sends is a part of
the result.  An address is a number, and a download does not run over the end of the memory.
-/

namespace UBoot.Common.Kermit

open UBoot.Lib

/-- `START_CHAR` -/
def startChar : UInt8 := 0x01

/-- `ETX_CHAR` -/
def etxChar : UInt8 := 0x03

/-- `END_CHAR` -/
def endChar : UInt8 := 0x0D

/-- `K_ESCAPE` -/
def kEscape : UInt8 := 0x23

/-- `SEND_TYPE` -/
def sendType : UInt8 := 0x53

/-- `DATA_TYPE` -/
def dataType : UInt8 := 0x44

/-- `ACK_TYPE` -/
def ackType : UInt8 := 0x59

/-- `NACK_TYPE` -/
def nackType : UInt8 := 0x4E

/-- `BREAK_TYPE` -/
def breakType : UInt8 := 0x42

/-- `SEND_DATA_SIZE` -/
def sendDataSize : Nat := 20

/-- `tochar` -/
def tochar (x : Int) : UInt8 := UInt8.ofNat ((x + 32) % 256).toNat

/-- `untochar` -/
def untochar (x : UInt8) : Int := ((x.toNat : Int) - 32) % 256

/-- `(new_char & 0xE0) == 0` -/
def isControl (c : UInt8) : Bool := c &&& 0xE0 == 0

/-- `(sum + ((sum >> 6) & 0x03)) & 0x3f` -/
def foldSum (sum : Nat) : Nat := (sum + sum / 64 % 4) % 64

/-- `chk1` -/
def chk1 (buffer : Bytes) : Nat := foldSum ((buffer.takeWhile (· ≠ 0)).map UInt8.toNat).sum

/-- `ktrans` -/
def ktrans (c : UInt8) : UInt8 :=
  if c &&& 0x60 = 0x40 then c &&& 0xBF
  else if c &&& 0x7f = 0x3f then c ||| 0x40
  else c

/-- The variables that `k_data_save` saves. -/
structure KData where
  escape : Bool
  osDataState : Int
  osDataAddr : Nat
  deriving DecidableEq

/-- Where `k_recv` waits for a character. -/
inductive Phase where
  | start
  | length
  | sequence
  | type
  | lenHi
  | lenLo
  | headerCheck
  | rest
  | check
  | endChar
  | aborted
  | done
  deriving DecidableEq, Repr

/-- The variables of `k_recv` and of the file, with the memory. -/
structure Krecv where
  hisEol : UInt8
  hisPadCount : Int
  hisPadChar : UInt8
  hisQuote : UInt8
  binStartAddress : Nat
  data : KData
  saved : KData
  sendParms : Bytes
  kState : UInt8
  kStateSaved : UInt8
  sum : Nat
  len : Int
  lenHi : Int
  n : Int
  lastN : Int
  phase : Phase
  mem : Contents

/-- `send_pad` and `s1_sendpacket` -/
def s1Sendpacket (k : Krecv) (packet : Bytes) : Bytes :=
  List.replicate k.hisPadCount.toNat k.hisPadChar ++ packet.takeWhile (· ≠ 0)

/-- `send_ack` and `send_nack`, by their types. -/
def sendReply (k : Krecv) (type : UInt8) (n : Int) : Bytes :=
  let fields := [tochar 3, tochar n, type]
  s1Sendpacket k ([startChar] ++ fields ++ [tochar (chk1 fields), k.hisEol])

/-- `send_ack` -/
def sendAck (k : Krecv) (n : Int) : Bytes := sendReply k ackType n

/-- `send_nack` -/
def sendNack (k : Krecv) (n : Int) : Bytes := sendReply k nackType n

/-- `bin_data_char` -/
def binDataChar (k : Krecv) (c : UInt8) : Krecv :=
  if k.data.osDataState = 0 then
    { k with
      mem := storeAt k.mem k.data.osDataAddr [c]
      data := { k.data with osDataAddr := k.data.osDataAddr + 1 } }
  else k

/-- `k_data_char` -/
def kDataChar (k : Krecv) (c : UInt8) : Krecv :=
  if k.data.escape then
    let k := binDataChar k (ktrans c)
    { k with data := { k.data with escape := false } }
  else if c = k.hisQuote then { k with data := { k.data with escape := true } }
  else binDataChar k c

/-- `*send_ptr++ = new_char`: the last place of `send_parms` is written over and never read. -/
def saveParm (parms : Bytes) (c : UInt8) : Bytes :=
  if parms.length < sendDataSize - 1 then parms ++ [c] else parms

/-- What `handle_send_packet` answers to each parameter. -/
def sendAnswers : List Bytes :=
  [[tochar 94], [tochar 1], [tochar 0], [0x40], [tochar 0x0D], [0x23], [0x4E], [0x31], [0x4E],
    [tochar 2, tochar 0, tochar 94, tochar 94]]

/-- `handle_send_packet` -/
def handleSendPacket (k : Krecv) (n : Int) : Krecv × Bytes :=
  let bytes := if k.sendParms.length = sendDataSize - 1 then sendDataSize - 2
    else k.sendParms.length
  let k := { k with
    hisPadCount := if 3 ≤ bytes then untochar (k.sendParms.getD 2 0) else 0
    hisPadChar := if 4 ≤ bytes then ktrans (k.sendParms.getD 3 0) else 0
    hisEol := if 5 ≤ bytes then UInt8.ofNat (untochar (k.sendParms.getD 4 0)).toNat else endChar
    hisQuote := if 6 ≤ bytes then k.sendParms.getD 5 0 else kEscape }
  let answers := (sendAnswers.take bytes).flatten
  let fields := [tochar (3 + answers.length), tochar n, ackType] ++ answers
  (k, s1Sendpacket k ([startChar] ++ fields ++ [tochar (chk1 fields), k.hisEol]))

/-- The loop over the rest of the packet is left or not. -/
def restPhase (len : Int) : Phase := if 1 < len then .rest else .check

/-- What `k_recv` does with a sequence number: it goes back for a packet that it has seen, and
takes a checkpoint for a new one. -/
def checkSequence (k : Krecv) : Krecv :=
  if k.n = k.lastN then { k with kState := k.kStateSaved, data := k.saved }
  else { k with lastN := k.n, kStateSaved := k.kState, saved := k.data }

/-- What is done with a character of the rest of the packet. -/
def restChar (k : Krecv) (c : UInt8) : Krecv :=
  if k.kState = dataType then kDataChar k c
  else if k.kState = sendType then { k with sendParms := saveParm k.sendParms c }
  else k

/-- The end of a packet that is in order. -/
def acceptPacket (k : Krecv) : Krecv × Bytes :=
  let k := { k with phase := .start }
  if k.kState = sendType then handleSendPacket k k.n
  else if k.kState = breakType then ({ k with phase := .done }, sendAck k k.n)
  else (k, sendAck k k.n)

/-- One character of `k_recv`, none where it goes to `packet_error`. -/
def kRecvChar (k : Krecv) (c : UInt8) : Option (Krecv × Bytes) :=
  match k.phase with
  | .start =>
    if c = startChar then some ({ k with phase := .length, sum := 0, sendParms := [] }, [])
    else if c = etxChar then some ({ k with phase := .aborted }, [])
    else some (k, [])
  | .length =>
    if isControl c then none
    else some ({ k with phase := .sequence, sum := k.sum + c.toNat, len := untochar c }, [])
  | .sequence =>
    if isControl c then none
    else
      let k := { k with sum := k.sum + c.toNat, n := untochar c, len := k.len - 1 }
      some ({ checkSequence k with phase := .type }, [])
  | .type =>
    if isControl c then none
    else
      let k := { k with sum := k.sum + c.toNat, kState := c, len := k.len - 1 }
      some ({ k with phase := if k.len = -2 then .lenHi else restPhase k.len }, [])
  | .lenHi =>
    if isControl c then none
    else some ({ k with phase := .lenLo, sum := k.sum + c.toNat, lenHi := untochar c }, [])
  | .lenLo =>
    if isControl c then none
    else
      some ({ k with
        phase := .headerCheck, sum := k.sum + c.toNat, len := k.lenHi * 95 + untochar c }, [])
  | .headerCheck =>
    if isControl c then none
    else if c ≠ tochar (foldSum k.sum) then none
    else some ({ k with phase := restPhase k.len, sum := k.sum + c.toNat }, [])
  | .rest =>
    if isControl c then none
    else
      let k := { k with sum := k.sum + c.toNat, len := k.len - 1 }
      some ({ restChar k c with phase := restPhase k.len }, [])
  | .check =>
    if isControl c then none
    else if c ≠ tochar (foldSum k.sum) then none
    else some ({ k with phase := .endChar }, [])
  | .endChar => if c ≠ endChar then none else some (acceptPacket k)
  | .aborted => some (k, [])
  | .done => some (k, [])

/-- `packet_error` -/
def packetError (k : Krecv) : Krecv × Bytes :=
  let k := { k with phase := .start, kState := k.kStateSaved, data := k.saved }
  (k, sendNack k k.n)

/-- `k_recv`, for one character: what it leaves, and what it sends. -/
def kRecv (k : Krecv) (c : UInt8) : Krecv × Bytes := (kRecvChar k c).getD (packetError k)

/-- `k_recv`, before it waits for the first character, with the program in memory. -/
def kRecvStart (addr : Nat) (mem : Contents) : Krecv where
  hisEol := endChar
  hisPadCount := 0
  hisPadChar := 0
  hisQuote := kEscape
  binStartAddress := addr
  data := ⟨false, 0, addr⟩
  saved := ⟨false, 0, addr⟩
  sendParms := []
  kState := 0
  kStateSaved := 0
  sum := 0
  len := 0
  lenHi := 0
  n := 0
  lastN := -1
  phase := .start
  mem := mem

/-- What `k_recv` returns at its end. -/
def kRecvSize (k : Krecv) : Int := (k.data.osDataAddr : Int) - k.binStartAddress

end UBoot.Common.Kermit
