import UBoot.LibGeneric.Vsprintf
import UBoot.Net.Packet

/-!
# The TFTP client

`net/tftp.c` without multicast, without the option `tsize` and with memory as the destination.
A packet is the payload of its UDP datagram.  What a call sends is a part of its result, and goes
to `TftpServerPort`.  The text for the console is left out, and so are the addresses of the hosts
and the name of the file, which `TftpStart` takes from the environment.

`NetStartAgain` ends the transfer in one of three ways, which depend on variables of the network
loop; the way is an argument.
-/

namespace UBoot.Net

open UBoot.Lib UBoot.LibGeneric

/-- `TftpState` -/
inductive TftpState where
  | rrq
  | data
  | tooLarge
  | badMagic
  | oack
  deriving DecidableEq, Repr

/-- `NetState`, where `startAgain` is `NETLOOP_CONTINUE` with the handler that ignores packets. -/
inductive NetState where
  | loop
  | restart
  | success
  | fail
  | startAgain
  deriving DecidableEq, Repr

/-- What `NetStartAgain` does. -/
inductive Again where
  | fail
  | restart
  | wait
  deriving DecidableEq, Repr

def Again.netState : Again → NetState
  | fail => .fail
  | restart => .restart
  | wait => .startAgain

/-- What the transfer is set up with. -/
structure TftpConfig where
  loadAddr : Nat
  tftpFilename : Bytes
  timeoutMSecs : Nat
  blkSizeOption : Nat
  rrqTimeoutCountMax : Int

/-- The variables of `net/tftp.c`, with `NetState`, `NetBootFileXferSize` and the memory. -/
structure Tftp where
  serverPort : Nat
  ourPort : Nat
  timeoutCount : Int
  timeoutCountMax : Int
  block : Nat
  lastBlock : Nat
  blockWrap : Nat
  blockWrapOffset : Nat
  state : TftpState
  blkSize : Nat
  netState : NetState
  xferSize : Nat
  mem : Contents

/-- `WELL_KNOWN_PORT` -/
def wellKnownPort : Nat := 69

/-- `TIMEOUT_COUNT` -/
def timeoutCountDefault : Int := 10

/-- `TFTP_BLOCK_SIZE` -/
def tftpBlockSize : Nat := 512

/-- `TFTP_SEQUENCE_SIZE` -/
def tftpSequenceSize : Nat := 65536

/-- The number in two bytes of a packet. -/
def ntohs (p : Bytes) (i : Nat) : Nat := (p.getD i 0).toNat * 256 + (p.getD (i + 1) 0).toNat

/-- A string of a packet, with its terminator. -/
def text (s : String) : Bytes := str s ++ [0]

variable (cfg : TftpConfig)

/-- `store_block` -/
def storeBlock (c : Tftp) (block : Nat) (src : Bytes) : Tftp :=
  let offset := (block * c.blkSize + c.blockWrapOffset) % 2 ^ 32
  let newsize := (offset + src.length) % 2 ^ 32
  { c with
    mem := storeAt c.mem ((cfg.loadAddr + offset) % 2 ^ 32) src
    xferSize := if c.xferSize < newsize then newsize else c.xferSize }

/-- `TftpSend` -/
def tftpSend (c : Tftp) : Bytes :=
  match c.state with
  | .rrq => htons 1 ++ cfg.tftpFilename ++ [0] ++ text "octet" ++
      text "timeout" ++ text (toString (cfg.timeoutMSecs / 1000)) ++
      text "blksize" ++ text (toString cfg.blkSizeOption)
  | .oack | .data => htons 4 ++ htons c.block
  | .tooLarge => htons 5 ++ htons 3 ++ text "File too large"
  | .badMagic => htons 5 ++ htons 2 ++ text "File has bad magic"

/-- `NetStartAgain` -/
def netStartAgain (c : Tftp) (again : Again) : Tftp := { c with netState := again.netState }

/-- The search for the option "blksize" in an `OACK`. -/
def oackBlkSize (pkt : Bytes) (blkSize : Nat) : Nat :=
  (List.range (pkt.length - 8)).foldl (fun blkSize i =>
    if (pkt.drop i).take 8 = text "blksize" then
      (simpleStrtoul (pkt.drop (i + 8)) 10).1.toNat % 65536
    else blkSize) blkSize

/-- `case TFTP_OACK` of `TftpHandler`, with the packet behind the operation. -/
def tftpOack (c : Tftp) (pkt : Bytes) (src : Nat) : Tftp × Option Bytes :=
  let c := { c with state := .oack, serverPort := src, blkSize := oackBlkSize pkt c.blkSize }
  (c, some (tftpSend cfg c))

/-- `case TFTP_DATA`: the number of the block and the count of its wraparounds. -/
def tftpNumber (c : Tftp) (block : Nat) : Tftp :=
  if block = 0 then
    { c with
      block := block
      blockWrap := (c.blockWrap + 1) % 2 ^ 32
      blockWrapOffset := (c.blockWrapOffset + c.blkSize * tftpSequenceSize) % 2 ^ 32 }
  else { c with block := block }

/-- `case TFTP_DATA`: "first block received". -/
def tftpFirst (c : Tftp) (src : Nat) : Tftp :=
  { c with state := .data, serverPort := src, lastBlock := 0, blockWrap := 0, blockWrapOffset := 0 }

/-- `case TFTP_DATA`: from the test for the same block on. -/
def tftpStore (c : Tftp) (data : Bytes) : Tftp × Option Bytes :=
  if c.block = c.lastBlock then (c, none)
  else
    let c := { c with lastBlock := c.block, timeoutCountMax := timeoutCountDefault }
    let c := storeBlock cfg c ((c.block + 2 ^ 32 - 1) % 2 ^ 32) data
    (if data.length < c.blkSize then { c with netState := .success } else c,
      some (tftpSend cfg c))

/-- `case TFTP_DATA` of `TftpHandler`. -/
def tftpData (c : Tftp) (pkt : Bytes) (src : Nat) (again : Again) : Tftp × Option Bytes :=
  if pkt.length < 2 then (c, none)
  else
    let c := tftpNumber c (ntohs pkt 0)
    if c.state = .rrq ∨ c.state = .oack then
      let c := tftpFirst c src
      if c.block ≠ 1 then (netStartAgain c again, none) else tftpStore cfg c (pkt.drop 2)
    else tftpStore cfg c (pkt.drop 2)

/-- `case TFTP_ERROR` of `TftpHandler`: a missing file and a refused access end the transfer. -/
def tftpError (c : Tftp) (pkt : Bytes) (again : Again) : Tftp :=
  if ntohs pkt 0 = 1 ∨ ntohs pkt 0 = 2 then { c with netState := .fail }
  else netStartAgain c again

/-- `TftpHandler` -/
def tftpHandler (c : Tftp) (pkt : Bytes) (dest src : Nat) (again : Again) : Tftp × Option Bytes :=
  if dest ≠ c.ourPort then (c, none)
  else if c.state ≠ .rrq ∧ src ≠ c.serverPort then (c, none)
  else if pkt.length < 2 then (c, none)
  else if ntohs pkt 0 = 6 then tftpOack cfg c (pkt.drop 2) src
  else if ntohs pkt 0 = 3 then tftpData cfg c (pkt.drop 2) src again
  else if ntohs pkt 0 = 5 then (tftpError c (pkt.drop 2) again, none)
  else (c, none)

/-- `TftpTimeout` -/
def tftpTimeout (c : Tftp) (again : Again) : Tftp × Option Bytes :=
  let c := { c with timeoutCount := c.timeoutCount + 1 }
  if c.timeoutCountMax < c.timeoutCount then (netStartAgain c again, none)
  else (c, some (tftpSend cfg c))

/-- `TftpStart`, with the value of the timer that the port is taken from. -/
def tftpStart (c : Tftp) (timer : Nat) : Tftp × Option Bytes :=
  let c := { c with
    timeoutCountMax := cfg.rrqTimeoutCountMax
    serverPort := wellKnownPort
    timeoutCount := 0
    state := .rrq
    ourPort := 1024 + timer % 3072
    block := 0
    blkSize := tftpBlockSize }
  (c, some (tftpSend cfg c))

end UBoot.Net
