import UBoot.Net.Packet

/-!
# Received frames

`NetReceive` of `net/net.c`, without `CONFIG_IP_DEFRAG`.  A frame of `len` bytes lies at the
start of a receive buffer, behind it is whatever was there before, and the pointers of the
source are indices into the buffer.  The link header decides where the packet begins
(`linkHeader`), and the packet goes to one of `arpInput`, `rarpInput` and `ipInput`.

The length of an IP packet is compared with that of the frame, but the length of the UDP
packet in it is compared with neither.
-/

namespace UBoot.Net

open UBoot.Lib

/-! ## The code -/

/-- The options of the build. -/
structure NetConfig where
  cmdCdp : Bool
  cmdPing : Bool
  udpChecksum : Bool
  netconsole : Bool

/-- The variables of `net/net.c` that a received frame can change or depends on.  A MAC
address that a caller of `NetSendUDPPacket` waits for has a number in `ethers`, and
`NetServerEther` has the number 0.  The two VLAN numbers are as `ntohs` gives them. -/
structure NetVars where
  netOurIP : IPaddr
  netServerIP : IPaddr
  netOurEther : Bytes
  ethers : Nat → Bytes
  netOurVLAN : Nat
  netOurNativeVLAN : Nat
  netArpWaitPacketIP : IPaddr
  netArpWaitReplyIP : IPaddr
  netArpWaitPacketMAC : Option Nat
  netArpWaitTxPacket : Contents
  netArpWaitTxPacketSize : Nat

/-- What `NetReceive` does to the outside.  `handler` is a call of the current packet
handler; its pointer is an index into the receive buffer, or `none` for a null pointer. -/
inductive NetEvent
  | handler (pkt : Option Nat) (dest src : Nat) (len : UInt32)
  | ncInputPacket (pkt dest src : Nat) (len : UInt32)
  | cdpHandler (pkt : Nat) (len : Int)
  | ethSend (frame : Bytes)
  deriving DecidableEq, Repr

/-- The variables, the receive buffer and the events. -/
structure Received where
  vars : NetVars
  pkt : Contents
  events : List NetEvent

/-- `return` -/
def ignored (vars : NetVars) (p : Contents) : Received := ⟨vars, p, []⟩

/-- `NetCDPAddr` -/
def netCDPAddr : Bytes := [0x01, 0x00, 0x0c, 0xcc, 0xcc, 0xcc]

/-- `VLAN_NONE` -/
def vlanNone : Nat := 4095

/-- `myvlanid` and `mynvlanid` -/
def vlanId (vlan : Nat) : Nat := if vlan = 0xffff then vlanNone else vlan

/-- `id & VLAN_IDMASK` -/
def vlanMasked (id : Nat) : Nat := id % 4096

/-- `NetSetEther`: the buffer and the size of the header. -/
def netSetEther (vars : NetVars) (p : Contents) (addr : Bytes) (prot : Nat) : Contents × Nat :=
  let p := storeAt (storeAt p 0 addr) 6 vars.netOurEther
  let id := vlanMasked (vlanId vars.netOurVLAN)
  if id = vlanNone then (storeAt p 12 (htons prot), 14)
  else (storeAt p 12 (htons 0x8100 ++ htons id ++ htons prot), 18)

/-- The link header: the protocol, the VLAN and where the packet begins. -/
structure LinkHeader where
  prot : Nat
  vlanid : Nat
  start : Nat
  deriving DecidableEq, Repr

/-- The part of `NetReceive` that chooses between the three kinds of header. -/
def linkHeader (cfg : NetConfig) (vars : NetVars) (p : Contents) (len : Nat) :
    Option LinkHeader :=
  if len < 14 then none
  else if word p 12 < 1514 then some ⟨word p 20, vlanNone, 22⟩
  else if word p 12 ≠ 0x8100 then some ⟨word p 12, vlanNone, 14⟩
  else if len < 18 then none
  else if vlanMasked vars.netOurVLAN = vlanNone ∧
      ¬ (cfg.cmdCdp ∧ readAt p 0 6 = netCDPAddr) then none
  else some ⟨word p 16, vlanMasked (word p 14), 18⟩

/-- The frame is in our VLAN. -/
def vlanMatches (vars : NetVars) (vlanid : Nat) : Bool :=
  let mine := vlanMasked (vlanId vars.netOurVLAN)
  let native := vlanMasked (vlanId vars.netOurNativeVLAN)
  mine == vlanNone || (if vlanid = vlanNone then native else vlanid) == mine

/-- `case PROT_ARP`, the packet at `h` with `len` bytes behind the link header. -/
def arpInput (cfg : NetConfig) (vars : NetVars) (p : Contents) (h : Nat) (len : Int) : Received :=
  if len < 28 then ignored vars p
  else if word p h ≠ 1 ∨ word p (h + 2) ≠ 0x0800 ∨ p (h + 4) ≠ 6 ∨ p (h + 5) ≠ 4 then
    ignored vars p
  else if vars.netOurIP = 0 ∨ netReadIP p (h + 24) ≠ vars.netOurIP then ignored vars p
  else if word p (h + 6) = 1 then
    let (p, size) := netSetEther vars p (readAt p 6 6) 0x0806
    let p := storeAt p (h + 6) (htons 2)
    let p := storeAt p (h + 18) (readAt p (h + 8) 6)
    let p := storeAt p (h + 24) (readAt p (h + 14) 4)
    let p := storeAt p (h + 8) vars.netOurEther
    let p := storeAt p (h + 14) (ipBytes vars.netOurIP)
    ⟨vars, p, [.ethSend (readAt p 0 (size + 28))]⟩
  else if word p (h + 6) = 2 then
    match vars.netArpWaitPacketMAC with
    | none => ignored vars p
    | some mac =>
      if vars.netArpWaitPacketIP = 0 then ignored vars p
      else if netReadIP p (h + 14) = vars.netArpWaitReplyIP then
        let addr := readAt p (h + 8) 6
        let tx := storeAt vars.netArpWaitTxPacket 0 addr
        let sent := readAt tx 0 vars.netArpWaitTxPacketSize
        ⟨{ vars with
            ethers := Function.update vars.ethers mac addr
            netArpWaitTxPacket := tx
            netArpWaitPacketIP := 0
            netArpWaitTxPacketSize := 0
            netArpWaitPacketMAC := none }, p,
          (if cfg.netconsole then [.handler none 0 0 0] else []) ++ [.ethSend sent]⟩
      else ignored vars p
  else ignored vars p

/-- `case PROT_RARP` -/
def rarpInput (vars : NetVars) (p : Contents) (h : Nat) (len : Int) : Received :=
  if len < 28 then ignored vars p
  else if word p (h + 6) ≠ 4 ∨ word p h ≠ 1 ∨ word p (h + 2) ≠ 0x0800 ∨ p (h + 4) ≠ 6 ∨
      p (h + 5) ≠ 4 then ignored vars p
  else
    ⟨{ vars with
        netOurIP := netReadIP p (h + 24)
        netServerIP := if vars.netServerIP = 0 then netReadIP p (h + 14) else vars.netServerIP
        ethers := Function.update vars.ethers 0 (readAt p (h + 8) 6) }, p,
      [.handler none 0 0 0]⟩

/-- The checks of an IP packet up to `NetDefragment`, which does not take fragments.  The
first comparison is one of unsigned numbers. -/
def ipHeaderOk (vars : NetVars) (p : Contents) (h : Nat) (len : Int) : Bool :=
  decide (28 ≤ len % 2 ^ 32) && decide ((word p (h + 2) : Int) ≤ len) &&
    (p h &&& 0xf0 == 0x40) && decide (p h &&& 0x0f ≤ 5) && netCksumOk p h 10 &&
    (vars.netOurIP == 0 || netReadIP p (h + 16) == vars.netOurIP ||
      netReadIP p (h + 16) == 0xffffffff) &&
    (word p (h + 6) &&& (0x1fff ||| 0x2000) == 0)

/-- `ICMP_ECHO_REQUEST`: the frame is sent back. -/
def echoReply (vars : NetVars) (p : Contents) (h : Nat) : Received :=
  let len := word p (h + 2)
  let p := storeAt p 0 (readAt p 6 6)
  let p := storeAt p 6 vars.netOurEther
  let p := storeAt (storeAt p (h + 10) [0, 0]) (h + 6) [0, 0]
  let p := storeAt p (h + 16) (readAt p (h + 12) 4)
  let p := storeAt p (h + 12) (ipBytes vars.netOurIP)
  let p := storeAt p (h + 10) (storedCksum p h 10)
  let p := storeAt (storeAt p (h + 20) [0]) (h + 22) [0, 0]
  let p := storeAt p (h + 22) (storedCksum p (h + 20) (((len - 20 : Int) % 2 ^ 32).toNat / 2))
  ⟨vars, p, [.ethSend (readAt p 0 (14 + len))]⟩

/-- `ip->ip_p == IPPROTO_ICMP` -/
def icmpInput (cfg : NetConfig) (vars : NetVars) (p : Contents) (h : Nat) : Received :=
  if cfg.cmdPing ∧ p (h + 20) = 0 then ⟨vars, p, [.handler (some h) 0 0 0]⟩
  else if cfg.cmdPing ∧ p (h + 20) = 8 then echoReply vars p h
  else ignored vars p

/-- `CONFIG_UDP_CHECKSUM` -/
def udpXsumOk (p : Contents) (h : Nat) : Bool :=
  let xsum := foldXsum ((p (h + 9)).toNat + word p (h + 24) + word p (h + 12) + word p (h + 14) +
    word p (h + 16) + word p (h + 18) + sumUdp p (h + 20) (word p (h + 24)))
  word p (h + 26) == 0 || xsum == 0 || xsum == 0xffff

/-- `case PROT_IP` -/
def ipInput (cfg : NetConfig) (vars : NetVars) (p : Contents) (h : Nat) (len : Int) : Received :=
  if ¬ ipHeaderOk vars p h len then ignored vars p
  else if p (h + 9) = 1 then icmpInput cfg vars p h
  else if p (h + 9) ≠ 17 then ignored vars p
  else if cfg.udpChecksum ∧ ¬ udpXsumOk p h then ignored vars p
  else
    let dest := word p (h + 22)
    let src := word p (h + 20)
    let len := UInt32.ofNat (word p (h + 24)) - 8
    ⟨vars, p, (if cfg.netconsole then [.ncInputPacket (h + 28) dest src len] else []) ++
      [.handler (some (h + 28)) dest src len]⟩

/-- `NetReceive` of a frame of `len` bytes at the start of the buffer `p` -/
def netReceive (cfg : NetConfig) (vars : NetVars) (p : Contents) (len : Nat) : Received :=
  match linkHeader cfg vars p len with
  | none => ignored vars p
  | some hdr =>
    let rest : Int := (len : Int) - hdr.start
    if cfg.cmdCdp ∧ readAt p 0 6 = netCDPAddr then ⟨vars, p, [.cdpHandler hdr.start rest]⟩
    else if ¬ vlanMatches vars hdr.vlanid then ignored vars p
    else if hdr.prot = 0x0806 then arpInput cfg vars p hdr.start rest
    else if hdr.prot = 0x8035 then rarpInput vars p hdr.start rest
    else if hdr.prot = 0x0800 then ipInput cfg vars p hdr.start rest
    else ignored vars p

/-! ## What the handler is given -/

/-- The range that a packet handler is given lies in a frame of `n` bytes. -/
def NetEvent.Inside (n : Nat) : NetEvent → Prop
  | .handler (some q) _ _ len => q + len.toNat ≤ n
  | .handler none _ _ len => len = 0
  | _ => True

/-- The frame holds a UDP packet for us, with its IP header at `h`. -/
structure ToUdp (cfg : NetConfig) (vars : NetVars) (p : Contents) (len h : Nat) : Prop where
  link : ∃ vlanid, linkHeader cfg vars p len = some ⟨0x0800, vlanid, h⟩ ∧ vlanMatches vars vlanid
  notCdp : ¬ (cfg.cmdCdp ∧ readAt p 0 6 = netCDPAddr)
  header : ipHeaderOk vars p h (len - h)
  udp : p (h + 9) = 17
  xsum : ¬ (cfg.udpChecksum ∧ ¬ udpXsumOk p h)

section Inside

variable {cfg : NetConfig} {vars : NetVars} {p : Contents} {len h : Nat}

/-- A packet that begins behind the end of the frame does not get through. -/
theorem ipHeaderOk_inside (hok : ipHeaderOk vars p h (len - h)) :
    h + 28 ≤ len ∧ h + word p (h + 2) ≤ len := by
  simp only [ipHeaderOk, Bool.and_eq_true, decide_eq_true_eq] at hok
  obtain ⟨⟨⟨⟨⟨⟨hsize, hword⟩, -⟩, -⟩, -⟩, -⟩, -⟩ := hok
  omega

theorem arpInput_inside (h : Nat) (rest : Int) :
    ∀ e ∈ (arpInput cfg vars p h rest).events, e.Inside len := by
  unfold arpInput
  split
  · simp [ignored]
  · split
    · simp [ignored]
    · split
      · simp [ignored]
      · split
        · simp [NetEvent.Inside]
        · split
          · split
            · simp [ignored]
            · split
              · simp [ignored]
              · split
                · cases cfg.netconsole <;> simp [NetEvent.Inside]
                · simp [ignored]
          · simp [ignored]

theorem rarpInput_inside (h : Nat) (rest : Int) :
    ∀ e ∈ (rarpInput vars p h rest).events, e.Inside len := by
  unfold rarpInput
  split
  · simp [ignored]
  · split
    · simp [ignored]
    · simp [NetEvent.Inside]

theorem icmpInput_inside (hh : h ≤ len) :
    ∀ e ∈ (icmpInput cfg vars p h).events, e.Inside len := by
  unfold icmpInput
  split
  · simpa [NetEvent.Inside] using hh
  · split
    · simp [echoReply, NetEvent.Inside]
    · simp [ignored]

/-- The length that is handed over, with its difference in 32 bits. -/
theorem inside_iff (hlen : len < 2 ^ 31) (hh : h + 28 ≤ len) :
    h + 28 + (UInt32.ofNat (word p (h + 24)) - 8).toNat ≤ len ↔
      8 ≤ word p (h + 24) ∧ h + 20 + word p (h + 24) ≤ len := by
  have hword := word_lt p (h + 24)
  have height : (8 : UInt32).toNat = 8 := rfl
  rw [UInt32.toNat_sub, UInt32.toNat_ofNat', height]
  omega

theorem ipInput_inside_iff (hlen : len < 2 ^ 31) :
    (∀ e ∈ (ipInput cfg vars p h (len - h)).events, e.Inside len) ↔
      (ipHeaderOk vars p h (len - h) → p (h + 9) = 17 → ¬ (cfg.udpChecksum ∧ ¬ udpXsumOk p h) →
        8 ≤ word p (h + 24) ∧ h + 20 + word p (h + 24) ≤ len) := by
  unfold ipInput
  split
  · rename_i hok
    exact ⟨fun _ hok' => absurd hok' hok, by simp [ignored]⟩
  · rename_i hok
    have hok := not_not.mp hok
    have hinside := (ipHeaderOk_inside hok).1
    split
    · rename_i hicmp
      refine ⟨fun _ _ hudp => ?_, fun _ => icmpInput_inside (by omega)⟩
      rw [hicmp] at hudp
      cases hudp
    · split
      · rename_i hudp
        exact ⟨fun _ _ hudp' => absurd hudp' hudp, by simp [ignored]⟩
      · split
        · rename_i hxsum
          exact ⟨fun _ _ _ hxsum' => absurd hxsum hxsum', by simp [ignored]⟩
        · rename_i hudp hxsum
          have hudp := not_not.mp hudp
          have hcall := inside_iff (p := p) hlen hinside
          rw [List.forall_mem_append, List.forall_mem_singleton]
          constructor
          · rintro ⟨-, hin⟩ _ _ _
            exact hcall.mp hin
          · intro h
            refine ⟨?_, hcall.mpr (h hok hudp hxsum)⟩
            cases cfg.netconsole <;> simp [NetEvent.Inside]

/-- **What a packet handler is given lies in the frame**, for exactly the frames whose UDP
packet has the eight bytes of its header and ends in the frame. -/
theorem netReceive_inside_iff (cfg : NetConfig) (vars : NetVars) (p : Contents) (len : Nat)
    (hlen : len < 2 ^ 31) :
    (∀ e ∈ (netReceive cfg vars p len).events, e.Inside len) ↔
      ∀ h, ToUdp cfg vars p len h →
        8 ≤ word p (h + 24) ∧ h + 20 + word p (h + 24) ≤ len := by
  unfold netReceive
  cases hlink : linkHeader cfg vars p len with
  | none =>
    refine ⟨fun _ h hto => ?_, by simp [ignored]⟩
    obtain ⟨vlanid, hlink', -⟩ := hto.link
    rw [hlink] at hlink'
    cases hlink'
  | some hdr =>
    obtain ⟨prot, vlanid, start⟩ := hdr
    -- The header at hand is the only one that `ToUdp` can speak of.
    have honly {h : Nat} (hto : ToUdp cfg vars p len h) :
        prot = 0x0800 ∧ vlanMatches vars vlanid ∧ h = start := by
      obtain ⟨vlanid', hlink', hmatch⟩ := hto.link
      rw [hlink] at hlink'
      cases hlink'
      exact ⟨rfl, hmatch, rfl⟩
    simp only
    split
    · rename_i hcdp
      refine ⟨fun _ h hto => absurd hcdp hto.notCdp, ?_⟩
      simp [NetEvent.Inside]
    · rename_i hcdp
      split
      · rename_i hmatch
        exact ⟨fun _ h hto => absurd (honly hto).2.1 hmatch, by simp [ignored]⟩
      · rename_i hmatch
        have hmatch := not_not.mp hmatch
        split
        · rename_i hprot
          refine ⟨fun _ h hto => ?_, fun _ => arpInput_inside _ _⟩
          cases hprot.symm.trans (honly hto).1
        · split
          · rename_i hprot
            refine ⟨fun _ h hto => ?_, fun _ => rarpInput_inside _ _⟩
            cases hprot.symm.trans (honly hto).1
          · split
            · rename_i hprot
              rw [ipInput_inside_iff hlen]
              constructor
              · intro hip h hto
                obtain rfl := (honly hto).2.2
                exact hip hto.header hto.udp hto.xsum
              · intro hto hok hudp hxsum
                exact hto start ⟨⟨vlanid, by rw [hlink, hprot], hmatch⟩, hcdp, hok, hudp, hxsum⟩
            · rename_i hprot
              exact ⟨fun _ h hto => absurd (honly hto).1 hprot, by simp [ignored]⟩

end Inside

/-- A host with the address 192.168.0.2 and no VLAN, that waits for nothing. -/
def someHost : NetVars where
  netOurIP := 0xc0a80002
  netServerIP := 0xc0a80001
  netOurEther := [2, 0, 0, 0, 0, 2]
  ethers _ := [2, 0, 0, 0, 0, 1]
  netOurVLAN := 0xffff
  netOurNativeVLAN := 0xffff
  netArpWaitPacketIP := 0
  netArpWaitReplyIP := 0
  netArpWaitPacketMAC := none
  netArpWaitTxPacket _ := 0
  netArpWaitTxPacketSize := 0

/-- A frame of 42 bytes from port 69 of 192.168.0.1 to port 3000 of that host: a UDP header
with the length `udpLen`, and no payload. -/
def emptyDatagram (udpLen : Nat) : Contents := fun i =>
  ([2, 0, 0, 0, 0, 2, 2, 0, 0, 0, 0, 1, 0x08, 0x00,
    0x45, 0, 0, 28, 0, 0, 0, 0, 64, 17, 0xf9, 0x7d, 192, 168, 0, 1, 192, 168, 0, 2,
    0, 69, 0x0b, 0xb8] ++ htons udpLen ++ [0, 0]).getD i 0

theorem netReceive_inside_emptyDatagram :
    (netReceive ⟨false, true, false, false⟩ someHost (emptyDatagram 8) 42).events =
        [.handler (some 42) 3000 69 0] ∧
      ∀ e ∈ (netReceive ⟨false, true, false, false⟩ someHost (emptyDatagram 8) 42).events,
        e.Inside 42 := by
  refine ⟨by decide, ?_⟩
  refine (netReceive_inside_iff ⟨false, true, false, false⟩ someHost (emptyDatagram 8) 42
    (by decide)).mpr fun h hto => ?_
  obtain ⟨vlanid, hlink, -⟩ := hto.link
  have hhere : linkHeader ⟨false, true, false, false⟩ someHost (emptyDatagram 8) 42 =
      some ⟨0x0800, vlanNone, 14⟩ := by decide
  rw [hhere] at hlink
  cases hlink
  decide

/-- The handler is told of 992 bytes behind the end of the frame. -/
theorem netReceive_not_inside :
    ¬ ∀ (cfg : NetConfig) (vars : NetVars) (p : Contents) (len : Nat), len < 2 ^ 31 →
      ∀ e ∈ (netReceive cfg vars p len).events, e.Inside len := by
  intro h
  have hcall : (netReceive ⟨false, true, false, false⟩ someHost (emptyDatagram 1000) 42).events =
      [.handler (some 42) 3000 69 992] := by decide
  have hin := h ⟨false, true, false, false⟩ someHost (emptyDatagram 1000) 42 (by decide)
    (.handler (some 42) 3000 69 992) (by rw [hcall]; exact List.mem_singleton_self _)
  have hin : 42 + 992 ≤ 42 := hin
  omega

end UBoot.Net
