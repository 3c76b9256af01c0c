import UBoot.Net.Receive

/-!
# Packets that wait for an address

`NetSendUDPPacket`, `ArpRequest` and `ArpTimeoutCheck` of `net/net.c`.  A packet for a host whose
MAC address is not known waits in a buffer, and `NetReceive` transmits it when the address comes.

`none` as the outcome of a function is a packet that does not fit into its buffer.  What
`NetStartAgain` does to the network loop is left out.
-/

namespace UBoot.Net

open UBoot.Lib

/-- The options of the build, with `ARP_TIMEOUT` and `ARP_TIMEOUT_COUNT`. -/
structure ArpConfig extends NetConfig where
  arpTimeout : UInt32
  arpTimeoutCount : Int

/-- The variables of `net/net.c` that the senders depend on. -/
structure ArpNet where
  vars : NetVars
  netOurSubnetMask : IPaddr
  netOurGatewayIP : IPaddr
  netTxPacket : Contents
  netIPID : UInt32
  netArpWaitTimerStart : UInt32
  netArpWaitTry : Int

/-- `PKTSIZE_ALIGN` -/
def pktsizeAlign : Nat := 1536

/-- `NetBcastAddr` -/
def netBcastAddr : Bytes := [0xff, 0xff, 0xff, 0xff, 0xff, 0xff]

/-- `NetEtherNullAddr` -/
def netEtherNullAddr : Bytes := [0, 0, 0, 0, 0, 0]

/-- `NetSetIP`, for the packet at `i`. -/
def netSetIP (vars : NetVars) (ipid : UInt32) (p : Contents) (i : Nat) (dest : IPaddr)
    (dport sport len : Nat) : Contents :=
  let p := if len % 2 = 1 then storeAt p (i + 28 + len) [0] else p
  let p := storeAt p i ([0x45, 0] ++ htons (28 + len) ++ htons ipid.toNat ++ htons 0x4000 ++
    [255, 17, 0, 0] ++ ipBytes vars.netOurIP ++ ipBytes dest ++ htons sport ++ htons dport ++
    htons (8 + len) ++ [0, 0])
  storeAt p (i + 10) (storedCksum p i 10)

/-- The part of `ArpRequest` that chooses whom to ask. -/
def arpReplyIP (a : ArpNet) : IPaddr :=
  if a.vars.netArpWaitPacketIP &&& a.netOurSubnetMask ≠
      a.vars.netOurIP &&& a.netOurSubnetMask then
    if a.netOurGatewayIP = 0 then a.vars.netArpWaitPacketIP else a.netOurGatewayIP
  else a.vars.netArpWaitPacketIP

/-- `ArpRequest`, with the frame that it sends. -/
def arpRequest (a : ArpNet) : ArpNet × Bytes :=
  let (p, size) := netSetEther a.vars a.netTxPacket netBcastAddr 0x0806
  let p := storeAt p size (htons 1 ++ htons 0x0800 ++ [6, 4] ++ htons 1 ++ a.vars.netOurEther ++
    ipBytes a.vars.netOurIP ++ List.replicate 6 0 ++ ipBytes (arpReplyIP a))
  ({ a with netTxPacket := p, vars := { a.vars with netArpWaitReplyIP := arpReplyIP a } },
    readAt p 0 (size + 28))

/-- The timer has run out, and there are tries left or not. -/
def arpExpired (cfg : ArpConfig) (a : ArpNet) (now : UInt32) : Bool :=
  a.vars.netArpWaitPacketIP ≠ 0 ∧ cfg.arpTimeout < now - a.netArpWaitTimerStart

/-- `ArpTimeoutCheck`, with the frame that it sends. -/
def arpTimeoutCheck (cfg : ArpConfig) (a : ArpNet) (now : UInt32) : ArpNet × Option Bytes :=
  if arpExpired cfg a now then
    if cfg.arpTimeoutCount ≤ a.netArpWaitTry + 1 then ({ a with netArpWaitTry := 0 }, none)
    else
      let (a, frame) := arpRequest { a with
        netArpWaitTry := a.netArpWaitTry + 1, netArpWaitTimerStart := now }
      (a, some frame)
  else (a, none)

/-- `NetSendUDPPacket` to the MAC address with a number: what it returns, and the frame that it
sends. -/
def netSendUDPPacket (a : ArpNet) (ether : Nat) (dest : IPaddr) (dport sport len : Nat)
    (now : UInt32) : Option (Int × ArpNet × Bytes) :=
  let dest := if dest = 0 then 0xffffffff else dest
  let addr := if dest = 0xffffffff then netBcastAddr else a.vars.ethers ether
  if addr = netEtherNullAddr then
    let (p, size) := netSetEther a.vars a.vars.netArpWaitTxPacket addr 0x0800
    let p := netSetIP a.vars a.netIPID p size dest dport sport len
    let p := storeAt p (size + 28) (readAt a.netTxPacket (size + 28) len)
    if pktsizeAlign < size + 28 + len then none
    else
      let (a, frame) := arpRequest { a with
        vars := { a.vars with
          netArpWaitPacketIP := dest
          netArpWaitPacketMAC := some ether
          netArpWaitTxPacket := p
          netArpWaitTxPacketSize := size + 28 + len }
        netIPID := a.netIPID + 1
        netArpWaitTry := 1
        netArpWaitTimerStart := now }
      some (1, a, frame)
  else
    let (p, size) := netSetEther a.vars a.netTxPacket addr 0x0800
    let p := netSetIP a.vars a.netIPID p size dest dport sport len
    if pktsizeAlign < size + 28 + len then none
    else some (0, { a with netTxPacket := p, netIPID := a.netIPID + 1 },
      readAt p 0 (size + 28 + len))

end UBoot.Net
