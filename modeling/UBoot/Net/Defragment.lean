import UBoot.Net.Packet

/-!
# Reassembly of fragments

`__NetDefragment` of `net/net.c`.  The packet is put together in `pkt_buff`, and the holes
that are left in its payload are a doubly linked list whose nodes lie in the buffer itself,
each in the first eight bytes of its hole.  An index counts units of eight bytes of the
payload, and the index 0 stands for "none" in the links although a hole can begin there.

A hole is read and written as a whole (`loadHole`, `storeHole`), and an access outside of
the buffer is a fault.  The walk over the list is given more steps than there are indices, so
a walk that uses them up does not end.
-/

namespace UBoot.Net

open UBoot.Lib

/-- `IP_HDR_SIZE_NO_UDP` -/
def ipHdrSize : Nat := 20

/-- `IP_PKTSIZE`: `CONFIG_NET_MAXDEFRAG` and the size of an RPC reply -/
def ipPktSize : Nat := 16384 + 100

/-- `IP_MAXUDP` -/
def ipMaxUdp : Nat := ipPktSize - ipHdrSize

/-- `struct hole`, fields of 16 bits -/
structure Hole where
  lastByte : Nat
  nextHole : Nat
  prevHole : Nat
  unused : Nat
  deriving DecidableEq, Repr

/-- The static variables. -/
structure Defrag where
  pktBuff : Contents
  firstHole : Nat
  totalLen : Nat

/-! ## Holes in the buffer -/

/-- A `u16` in memory. -/
def half (p : Contents) (i : Nat) : Nat := (p i).toNat + (p (i + 1)).toNat * 256

def halfBytes (n : Nat) : Bytes := [UInt8.ofNat n, UInt8.ofNat (n / 256)]

/-- Where `payload[i]` is. -/
def holeAt (i : Nat) : Nat := ipHdrSize + 8 * i

def getHole (p : Contents) (i : Nat) : Hole :=
  ⟨half p (holeAt i), half p (holeAt i + 2), half p (holeAt i + 4), half p (holeAt i + 6)⟩

def putHole (p : Contents) (i : Nat) (h : Hole) : Contents :=
  storeAt p (holeAt i)
    (halfBytes h.lastByte ++ halfBytes h.nextHole ++ halfBytes h.prevHole ++ halfBytes h.unused)

/-- `payload[i]` -/
def loadHole (p : Contents) (i : Nat) : Exec Hole :=
  if holeAt i + 8 ≤ ipPktSize then .ok (getHole p i) else .error (.load (holeAt i))

/-- `payload[i] = h` -/
def storeHole (p : Contents) (i : Nat) (h : Hole) : Exec Contents :=
  if holeAt i + 8 ≤ ipPktSize then .ok (putHole p i h) else .error (.store (holeAt i))

/-- An assignment to fields of `payload[i]`. -/
def modifyHole (p : Contents) (i : Nat) (f : Hole → Hole) : Exec Contents := do
  storeHole p i (f (← loadHole p i))

/-! ## The code -/

/-- `while (h->last_byte < start)`: the hole that the loop ends at. -/
def findHole (p : Contents) (start : Nat) : Nat → Nat → Exec (Option Nat)
  | 0, _ => .error .steps
  | fuel + 1, i => do
    let h ← loadHole p i
    if h.lastByte < start then
      if h.nextHole = 0 then return none else findHole p start fuel h.nextHole
    else return some i

/-- "complete overlap with hole: remove hole", and whether it was the last one -/
def removeHole (d : Defrag) (i : Nat) : Exec (Defrag × Bool) := do
  let h ← loadHole d.pktBuff i
  if h.prevHole = 0 ∧ h.nextHole = 0 then return (d, true)
  else if h.prevHole = 0 then
    let p ← modifyHole d.pktBuff h.nextHole fun x => { x with prevHole := 0 }
    return ({ d with pktBuff := p, firstHole := h.nextHole }, false)
  else if h.nextHole = 0 then
    let p ← modifyHole d.pktBuff h.prevHole fun x => { x with nextHole := 0 }
    return ({ d with pktBuff := p }, false)
  else
    let p ← modifyHole d.pktBuff h.nextHole fun x => { x with prevHole := h.prevHole }
    let p ← modifyHole p h.prevHole fun x => { x with nextHole := h.nextHole }
    return ({ d with pktBuff := p }, false)

/-- `if (h->next_hole) payload[h->next_hole].prev_hole = new` -/
def linkBack (p : Contents) (nextHole new : Nat) : Exec Contents :=
  if nextHole ≠ 0 then modifyHole p nextHole fun x => { x with prevHole := new } else .ok p

/-- "overlaps with initial part of the hole: move this hole" -/
def moveHole (d : Defrag) (i new : Nat) : Exec Defrag := do
  let p ← storeHole d.pktBuff new (← loadHole d.pktBuff i)
  let p ← linkBack p (← loadHole p new).nextHole new
  let h ← loadHole p new
  if h.prevHole ≠ 0 then
    let p ← modifyHole p h.prevHole fun x => { x with nextHole := new }
    return { d with pktBuff := p }
  else return { d with pktBuff := p, firstHole := new }

/-- "fragment sits in the middle: split the hole" -/
def splitHole (d : Defrag) (i new start : Nat) : Exec Defrag := do
  let p ← storeHole d.pktBuff new (← loadHole d.pktBuff i)
  let p ← modifyHole p i fun x => { x with lastByte := start, nextHole := new }
  let p ← modifyHole p new fun x => { x with prevHole := i }
  let p ← linkBack p (← loadHole p new).nextHole new
  return { d with pktBuff := p }

/-- "There is some overlap: fix the hole list": the fragment is at `offset8`, its last byte
is before `stop`, and the hole behind its whole units would be `new`. -/
def fixHoles (d : Defrag) (i offset8 new : Nat) (stop : Int) : Exec (Defrag × Bool) := do
  let h ← loadHole d.pktBuff i
  if offset8 ≤ i ∧ h.lastByte ≤ stop then removeHole d i
  else if h.lastByte ≤ stop then
    let p ← modifyHole d.pktBuff i fun x => { x with lastByte := offset8 * 8 }
    return ({ d with pktBuff := p }, false)
  else if offset8 ≤ i then return (← moveHole d i new, false)
  else return (← splitHole d i new (offset8 * 8), false)

/-- `memcpy((uchar *)thisfrag, indata + IP_HDR_SIZE_NO_UDP, len)` -/
def copyFragment (p ip : Contents) (start : Nat) (len : Int) : Exec Contents :=
  if 0 ≤ len ∧ ipHdrSize + start + len ≤ ipPktSize then
    .ok (storeAt p (ipHdrSize + start) (readAt ip ipHdrSize len.toNat))
  else .error (.store (ipHdrSize + start))

/-- "new (or different) packet, reset structs" -/
def resetFor (d : Defrag) (ip : Contents) : Exec Defrag :=
  if d.totalLen = 0 ∨ word d.pktBuff 4 ≠ word ip 4 then do
    let p ← modifyHole d.pktBuff 0 fun x =>
      { x with lastByte := 0xffff, nextHole := 0, prevHole := 0 }
    return ⟨storeAt p 0 (readAt ip 0 ipHdrSize), 0, 0xffff⟩
  else .ok d

/-- "no more fragments: truncate this (last) hole" -/
def truncateHole (d : Defrag) (ip : Contents) (i stop : Nat) : Exec Defrag :=
  if word ip 6 &&& 0x2000 = 0 then do
    let p ← modifyHole d.pktBuff i fun x => { x with lastByte := stop }
    return { d with pktBuff := p, totalLen := stop }
  else .ok d

/-- `__NetDefragment` of the packet `ip` behind its length check: the static variables and,
for a complete packet, `*lenp`. -/
def insertFragment (d : Defrag) (ip : Contents) (offset8 : Nat) (len : Int) :
    Exec (Defrag × Option Nat) := do
  let start := offset8 * 8
  match ← findHole d.pktBuff start 65537 d.firstHole with
  | none => return (d, none)
  | some i =>
    if offset8 + len.tdiv 8 ≤ i then return (d, none)
    else
      let d ← truncateHole d ip i (start + len).toNat
      let (d, done) ← fixHoles d i offset8 (offset8 + len.tdiv 8).toNat (start + len)
      let p ← copyFragment d.pktBuff ip start len
      if done then
        return ({ d with pktBuff := storeAt p 2 (htons d.totalLen) },
          some (d.totalLen + ipHdrSize))
      else return ({ d with pktBuff := p }, none)

/-- `__NetDefragment` -/
def netDefragment (d : Defrag) (ip : Contents) : Exec (Defrag × Option Nat) := do
  let offset8 := word ip 6 &&& 0x1fff
  let len : Int := (word ip 2 : Int) - ipHdrSize
  if ipMaxUdp < (offset8 * 8 + len) % 2 ^ 32 then return (d, none)
  else insertFragment (← resetFor d ip) ip offset8 len

end UBoot.Net
