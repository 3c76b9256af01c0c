import UBoot.Lib.Run
import UBoot.Net.Arp

/-!
# Packets that wait, over runs

A run is any order of sends, timer checks, received frames and changes of the other variables.
`waiting` is the last call of `NetSendUDPPacket` that has returned 1, until its packet is
transmitted; `arp_deferred` says that what `NetReceive` transmits from the buffer is the packet of
this call.  The next hop is the one of the last ARP request for it: a RARP packet may change
`NetOurIP` behind it (`arp_hop_moves`).
-/

namespace UBoot.Net

open UBoot.Lib

/-! ## Where packets go -/

/-- Where a packet has to go first. -/
def nextHop (a : ArpNet) (dest : IPaddr) : IPaddr :=
  if dest &&& a.netOurSubnetMask = a.vars.netOurIP &&& a.netOurSubnetMask ∨ a.netOurGatewayIP = 0
  then dest else a.netOurGatewayIP

/-- The frame with the UDP packet of a call, to a MAC address. -/
def udpFrame (a : ArpNet) (addr : Bytes) (dest : IPaddr) (dport sport len : Nat) : Bytes :=
  let (p, size) := netSetEther a.vars a.netTxPacket addr 0x0800
  readAt (netSetIP a.vars a.netIPID p size dest dport sport len) 0 (size + 28 + len)

/-- A call that has returned 1, and the next hop that has been asked for. -/
structure ArpWaiting where
  call : ArpNet
  dest : IPaddr
  dport : Nat
  sport : Nat
  len : Nat
  hop : IPaddr

/-- A MAC address has six bytes. -/
structure MacsOk (vars : NetVars) : Prop where
  ours : vars.netOurEther.length = 6
  ethers : ∀ n, (vars.ethers n).length = 6

/-- What the packet handlers and the network loop set. -/
structure Settings where
  netOurIP : IPaddr
  netServerIP : IPaddr
  netOurEther : Bytes
  ethers : Nat → Bytes
  netOurVLAN : Nat
  netOurNativeVLAN : Nat
  netOurSubnetMask : IPaddr
  netOurGatewayIP : IPaddr
  netTxPacket : Contents
  netIPID : UInt32
  ours : netOurEther.length = 6
  lengths : ∀ n, (ethers n).length = 6

def Settings.apply (s : Settings) (a : ArpNet) : ArpNet :=
  { a with
    vars := { a.vars with
      netOurIP := s.netOurIP
      netServerIP := s.netServerIP
      netOurEther := s.netOurEther
      ethers := s.ethers
      netOurVLAN := s.netOurVLAN
      netOurNativeVLAN := s.netOurNativeVLAN }
    netOurSubnetMask := s.netOurSubnetMask
    netOurGatewayIP := s.netOurGatewayIP
    netTxPacket := s.netTxPacket
    netIPID := s.netIPID }

inductive ArpEvent
  | send (ether : Nat) (dest : IPaddr) (dport sport len : Nat) (now : UInt32)
  | timeoutCheck (now : UInt32)
  | receive (p : Contents) (len : Nat)
  | settings (s : Settings)

def arpStep (cfg : ArpConfig) (a : ArpNet) : ArpEvent → Option ArpNet
  | .send ether dest dport sport len now =>
    (netSendUDPPacket a ether dest dport sport len now).map fun r => r.2.1
  | .timeoutCheck now => some (arpTimeoutCheck cfg a now).1
  | .receive p len => some { a with vars := (netReceive cfg.toNetConfig a.vars p len).vars }
  | .settings s => some (s.apply a)

/-- The ARP packet at `h` is the reply that is waited for. -/
def IsAnswer (vars : NetVars) (p : Contents) (h : Nat) (len : Int) : Prop :=
  28 ≤ len ∧ (word p h = 1 ∧ word p (h + 2) = 0x0800 ∧ p (h + 4) = 6 ∧ p (h + 5) = 4) ∧
    (vars.netOurIP ≠ 0 ∧ netReadIP p (h + 24) = vars.netOurIP) ∧ word p (h + 6) = 2 ∧
    vars.netArpWaitPacketMAC.isSome ∧ vars.netArpWaitPacketIP ≠ 0 ∧
    netReadIP p (h + 14) = vars.netArpWaitReplyIP

instance (vars : NetVars) (p : Contents) (h : Nat) (len : Int) :
    Decidable (IsAnswer vars p h len) := inferInstanceAs (Decidable (_ ∧ _))

/-- Where the reply that is waited for begins in a frame, if it is in it. -/
def arpAnswer (cfg : NetConfig) (vars : NetVars) (p : Contents) (len : Nat) : Option Nat :=
  (linkHeader cfg vars p len).bind fun hdr =>
    if ¬ (cfg.cmdCdp ∧ readAt p 0 6 = netCDPAddr) ∧ vlanMatches vars hdr.vlanid ∧
        hdr.prot = 0x0806 ∧ IsAnswer vars p hdr.start ((len : Int) - hdr.start) then some hdr.start
    else none

/-- The call whose packet waits, after one more event. -/
def noteWaiting (cfg : ArpConfig) (w : Option ArpWaiting) (a : ArpNet) :
    ArpEvent → Option ArpWaiting
  | .send ether dest dport sport len now =>
    if (netSendUDPPacket a ether dest dport sport len now).any fun r => r.1 = 1 then
      some ⟨a, dest, dport, sport, len, nextHop a dest⟩
    else w
  | .timeoutCheck now =>
    if (arpTimeoutCheck cfg a now).2.isSome then w.map fun w => { w with hop := nextHop a w.dest }
    else w
  | .receive p len => if (arpAnswer cfg.toNetConfig a.vars p len).isSome then none else w
  | .settings _ => w

/-- The last call that has returned 1, until its packet is transmitted. -/
def waiting (cfg : ArpConfig) (tr : List (ArpNet × ArpEvent)) : Option ArpWaiting :=
  tr.foldl (fun w e => noteWaiting cfg w e.1 e.2) none

/-- What is sent is sent from the receive buffer. -/
def FromBuffer (r : Received) : Prop := ∀ f, .ethSend f ∈ r.events → ∃ n, f = readAt r.pkt 0 n

/-! ## Frames -/

section Frames

variable {vars : NetVars} {p q c : Contents} {addr mac data : Bytes} {prot i k pos len : Nat}
  {dport sport : Nat} {ipid : UInt32} {dest : IPaddr}

/-- The protocol in a link header, with the VLAN in front of it. -/
def etherTag (vars : NetVars) (prot : Nat) : Bytes :=
  let id := vlanMasked (vlanId vars.netOurVLAN)
  if id = vlanNone then htons prot else htons 0x8100 ++ htons id ++ htons prot

theorem netSetEther_eq : netSetEther vars p addr prot =
    (storeAt (storeAt (storeAt p 0 addr) 6 vars.netOurEther) 12 (etherTag vars prot),
      12 + (etherTag vars prot).length) := by
  unfold netSetEther etherTag
  dsimp only
  split <;> rfl

/-- The header does not depend on what it is written over. -/
theorem netSetEther_congr (hours : vars.netOurEther.length = 6) (hk : 6 ≤ k)
    (hsize : k < 12 + (etherTag vars prot).length) :
    (netSetEther vars p addr prot).1 k = (netSetEther vars q mac prot).1 k := by
  rw [netSetEther_eq, netSetEther_eq]
  dsimp only
  by_cases htag : 12 ≤ k
  · rw [storeAt_in ⟨htag, hsize⟩, storeAt_in ⟨htag, hsize⟩]
  · have hout : ¬ InRange 12 (etherTag vars prot).length k := fun h => htag h.1
    have hin : InRange 6 vars.netOurEther.length k := ⟨hk, by omega⟩
    rw [storeAt_out hout, storeAt_out hout, storeAt_in hin, storeAt_in hin]

theorem netSetEther_dest (haddr : addr.length = 6) (hk : k < 6) :
    (netSetEther vars p addr prot).1 k = addr.getD k 0 := by
  rw [netSetEther_eq]
  dsimp only
  rw [storeAt_out fun h => absurd h.1 (by omega), storeAt_out fun h => absurd h.1 (by omega),
    storeAt_in ⟨Nat.zero_le k, by omega⟩, Nat.sub_zero]

theorem netSetEther_behind (hours : vars.netOurEther.length = 6) (haddr : addr.length = 6)
    (hk : 12 + (etherTag vars prot).length ≤ k) : (netSetEther vars p addr prot).1 k = p k := by
  rw [netSetEther_eq]
  dsimp only
  rw [storeAt_out fun h => absurd h.2 (by omega), storeAt_out fun h => absurd h.2 (by omega),
    storeAt_out fun h => absurd h.2 (by omega)]

/-- The 28 bytes that `NetSetIP` writes first. -/
def ipFields (vars : NetVars) (ipid : UInt32) (dest : IPaddr) (dport sport len : Nat) : Bytes :=
  [0x45, 0] ++ htons (28 + len) ++ htons ipid.toNat ++ htons 0x4000 ++
    [255, 17, 0, 0] ++ ipBytes vars.netOurIP ++ ipBytes dest ++ htons sport ++ htons dport ++
    htons (8 + len) ++ [0, 0]

theorem length_ipFields : (ipFields vars ipid dest dport sport len).length = 28 := rfl

/-- Nothing but the header is written, and a byte behind a packet of an odd length. -/
theorem netSetIP_out (hk : k < i ∨ i + 28 ≤ k ∧ k < i + 28 + len) :
    netSetIP vars ipid p i dest dport sport len k = p k := by
  unfold netSetIP
  have hfields := @length_ipFields vars len dport sport ipid dest
  unfold ipFields at hfields
  rw [storeAt_out, storeAt_out]
  · split
    · exact storeAt_out fun h => absurd h.1 (by omega)
    · rfl
  · rw [hfields]
    rintro ⟨h₁, h₂⟩
    omega
  · rw [length_storedCksum]
    rintro ⟨h₁, h₂⟩
    omega

/-- The header does not depend on what it is written over. -/
theorem netSetIP_in (hk : i ≤ k) (hk' : k < i + 28) :
    netSetIP vars ipid p i dest dport sport len k =
      netSetIP vars ipid q i dest dport sport len k := by
  have hfields : ∀ c k, i ≤ k → k < i + 28 →
      storeAt c i (ipFields vars ipid dest dport sport len) k =
        (ipFields vars ipid dest dport sport len).getD (k - i) 0 := by
    intro c k h₁ h₂
    exact storeAt_in ⟨h₁, by rw [length_ipFields]; exact h₂⟩
  have hsum : ∀ c d, storedCksum (storeAt c i (ipFields vars ipid dest dport sport len)) i 10 =
      storedCksum (storeAt d i (ipFields vars ipid dest dport sport len)) i 10 := by
    intro c d
    unfold storedCksum netCksum
    rw [sumWords_congr fun k hk => ?_]
    rw [hfields c _ (by omega) (by omega), hfields d _ (by omega) (by omega)]
  unfold netSetIP
  change storeAt (storeAt _ i (ipFields vars ipid dest dport sport len)) (i + 10)
      (storedCksum (storeAt _ i (ipFields vars ipid dest dport sport len)) i 10) k =
    storeAt (storeAt _ i (ipFields vars ipid dest dport sport len)) (i + 10)
      (storedCksum (storeAt _ i (ipFields vars ipid dest dport sport len)) i 10) k
  rw [hsum _ q, hsum (if len % 2 = 1 then storeAt q (i + 28 + len) [0] else q) q]
  obtain ⟨xsum, hxsum⟩ : ∃ xsum, xsum =
      storedCksum (storeAt q i (ipFields vars ipid dest dport sport len)) i 10 := ⟨_, rfl⟩
  rw [← hxsum]
  by_cases hsumk : InRange (i + 10) xsum.length k
  · rw [storeAt_in hsumk, storeAt_in hsumk]
  · rw [storeAt_out hsumk, storeAt_out hsumk, hfields _ _ hk hk', hfields _ _ hk hk']

/-- **The packet that waits** becomes the frame that would have been sent to the address. -/
theorem waiting_frame {a : ArpNet} (hours : a.vars.netOurEther.length = 6)
    (hmac : mac.length = 6) :
    readAt (storeAt (storeAt (netSetIP a.vars a.netIPID (netSetEther a.vars c addr 0x0800).1
        (12 + (etherTag a.vars 0x0800).length) dest dport sport len)
        (12 + (etherTag a.vars 0x0800).length + 28)
        (readAt a.netTxPacket (12 + (etherTag a.vars 0x0800).length + 28) len)) 0 mac) 0
        (12 + (etherTag a.vars 0x0800).length + 28 + len) =
      udpFrame a mac dest dport sport len := by
  unfold udpFrame
  have hsize : (netSetEther a.vars a.netTxPacket mac 0x0800).2 =
      12 + (etherTag a.vars 0x0800).length := by rw [netSetEther_eq]
  dsimp only
  rw [hsize]
  have hlow : 12 ≤ 12 + (etherTag a.vars 0x0800).length := Nat.le_add_right _ _
  obtain ⟨size, hsz⟩ : ∃ size, size = 12 + (etherTag a.vars 0x0800).length := ⟨_, rfl⟩
  rw [← hsz] at hlow ⊢
  refine readAt_congr fun k hk => ?_
  have hkl : k < size + 28 + len := by
    have := hk.2
    omega
  by_cases hdest : k < 6
  · rw [storeAt_in ⟨Nat.zero_le k, by omega⟩, netSetIP_out (Or.inl (by omega)),
      netSetEther_dest hmac hdest, Nat.sub_zero]
  rw [storeAt_out fun h => absurd h.2 (by omega)]
  by_cases hpayload : size + 28 ≤ k
  · rw [storeAt_in ⟨hpayload, by rw [length_readAt]; exact hkl⟩,
      netSetIP_out (Or.inr ⟨hpayload, hkl⟩), netSetEther_behind hours hmac (by omega),
      List.getD_eq_getElem?_getD, getElem?_readAt (by omega), Option.getD_some]
    congr 1
    omega
  rw [storeAt_out fun h => hpayload h.1]
  by_cases hheader : k < size
  · rw [netSetIP_out (Or.inl hheader), netSetIP_out (Or.inl hheader)]
    exact netSetEther_congr hours (by omega) (by omega)
  · exact netSetIP_in (by omega) (by omega)

/-- The address that a frame is sent to. -/
theorem take_udpFrame {a : ArpNet} (hmac : mac.length = 6) :
    (udpFrame a mac dest dport sport len).take 6 = mac := by
  unfold udpFrame
  have hsize : (netSetEther a.vars a.netTxPacket mac 0x0800).2 =
      12 + (etherTag a.vars 0x0800).length := by rw [netSetEther_eq]
  dsimp only
  rw [hsize, take_readAt, Nat.min_eq_left (by omega)]
  apply List.ext_getElem?
  intro k
  by_cases hk : k < 6
  · rw [getElem?_readAt hk, Nat.zero_add, netSetIP_out (Or.inl (by omega)),
      netSetEther_dest hmac hk, List.getD_eq_getElem?_getD, List.getElem?_eq_getElem (by omega),
      Option.getD_some]
  · rw [List.getElem?_eq_none (by rw [length_readAt]; omega), List.getElem?_eq_none (by omega)]

end Frames

/-! ## What `NetReceive` does to the packet that waits -/

/-- Nothing about the packet that waits is changed. -/
structure SameWait (v v' : NetVars) : Prop where
  packetIP : v'.netArpWaitPacketIP = v.netArpWaitPacketIP
  replyIP : v'.netArpWaitReplyIP = v.netArpWaitReplyIP
  packetMAC : v'.netArpWaitPacketMAC = v.netArpWaitPacketMAC
  txPacket : v'.netArpWaitTxPacket = v.netArpWaitTxPacket
  txPacketSize : v'.netArpWaitTxPacketSize = v.netArpWaitTxPacketSize

section Receive

variable {cfg : NetConfig} {vars : NetVars} {p : Contents} {h len : Nat} {rest : Int}

/-- A result that leaves the packet where it is. -/
structure Bystander (vars : NetVars) (r : Received) : Prop where
  same : SameWait vars r.vars
  fromBuffer : FromBuffer r
  macs : MacsOk vars → MacsOk r.vars

theorem fromBuffer_of_none {r : Received} (hr : ∀ f, .ethSend f ∉ r.events) : FromBuffer r :=
  fun f hf => absurd hf (hr f)

theorem sameWait_refl : SameWait vars vars := ⟨rfl, rfl, rfl, rfl, rfl⟩

theorem bystander_ignored : Bystander vars (ignored vars p) :=
  ⟨sameWait_refl, fun f hf => (by cases hf), id⟩

theorem bystander_sent {q : Contents} {n : Nat} :
    Bystander vars ⟨vars, q, [.ethSend (readAt q 0 n)]⟩ := by
  refine ⟨sameWait_refl, ?_, id⟩
  intro f hf
  cases List.mem_singleton.mp hf
  exact ⟨n, rfl⟩

/-- Calls of handlers send nothing. -/
theorem bystander_calls {q : Contents} {events : List NetEvent}
    (hevents : ∀ f, .ethSend f ∉ events) : Bystander vars ⟨vars, q, events⟩ :=
  ⟨sameWait_refl, fromBuffer_of_none hevents, id⟩

theorem arpInput_answer (hnc : cfg.netconsole = false) (ha : IsAnswer vars p h rest) :
    ∃ mac, vars.netArpWaitPacketMAC = some mac ∧ arpInput cfg vars p h rest =
      ⟨{ vars with
          ethers := Function.update vars.ethers mac (readAt p (h + 8) 6)
          netArpWaitTxPacket := storeAt vars.netArpWaitTxPacket 0 (readAt p (h + 8) 6)
          netArpWaitPacketIP := 0
          netArpWaitTxPacketSize := 0
          netArpWaitPacketMAC := none }, p,
        [.ethSend (readAt (storeAt vars.netArpWaitTxPacket 0 (readAt p (h + 8) 6)) 0
          vars.netArpWaitTxPacketSize)]⟩ := by
  obtain ⟨hlen, ⟨hhrd, hpro, hhln, hpln⟩, ⟨hour, hto⟩, hop, hmac, hip, hreply⟩ := ha
  obtain ⟨mac, hmac⟩ := Option.isSome_iff_exists.mp hmac
  refine ⟨mac, hmac, ?_⟩
  have hheader : ¬ (word p h ≠ 1 ∨ word p (h + 2) ≠ 0x0800 ∨ p (h + 4) ≠ 6 ∨ p (h + 5) ≠ 4) := by
    simp only [hhrd, hpro, hhln, hpln, ne_eq, not_true_eq_false, or_self, not_false_eq_true]
  have hours : ¬ (vars.netOurIP = 0 ∨ netReadIP p (h + 24) ≠ vars.netOurIP) := by
    rintro (h0 | hne)
    · exact hour h0
    · exact hne hto
  unfold arpInput
  rw [if_neg (by omega), if_neg hheader, if_neg hours, if_neg (by rw [hop]; decide), if_pos hop,
    hmac]
  dsimp only
  rw [if_neg hip, if_pos hreply, hnc, if_neg Bool.false_ne_true, List.nil_append]

theorem arpInput_bystander (ha : ¬ IsAnswer vars p h rest) :
    Bystander vars (arpInput cfg vars p h rest) := by
  unfold arpInput
  split
  · exact bystander_ignored
  rename_i hlen
  split
  · exact bystander_ignored
  rename_i hheader
  split
  · exact bystander_ignored
  rename_i hours
  split
  · exact bystander_sent
  split
  · rename_i hop
    split
    · exact bystander_ignored
    rename_i mac hmac
    split
    · exact bystander_ignored
    rename_i hip
    split
    · rename_i hreply
      simp only [ne_eq, not_or, not_not] at hheader hours
      exact absurd ⟨Int.not_lt.mp hlen, hheader, hours, hop, by rw [hmac]; rfl, hip, hreply⟩ ha
    · exact bystander_ignored
  · exact bystander_ignored

/-- What a RARP reply sets. -/
theorem sameWait_settings (ourIP serverIP : IPaddr) (ethers : Nat → Bytes) : SameWait vars
    { vars with netOurIP := ourIP, netServerIP := serverIP, ethers := ethers } :=
  ⟨rfl, rfl, rfl, rfl, rfl⟩

theorem MacsOk.length_update {mac : Bytes} (hmacs : MacsOk vars) (hmac : mac.length = 6)
    (n i : Nat) : (Function.update vars.ethers n mac i).length = 6 := by
  by_cases hi : i = n
  · rw [hi, Function.update_self, hmac]
  · rw [Function.update_of_ne hi]
    exact hmacs.ethers i

theorem macsOk_settings {mac : Bytes} (ourIP serverIP : IPaddr) (n : Nat) (hmac : mac.length = 6)
    (hmacs : MacsOk vars) : MacsOk { vars with
      netOurIP := ourIP, netServerIP := serverIP, ethers := Function.update vars.ethers n mac } :=
  ⟨hmacs.ours, hmacs.length_update hmac n⟩

theorem rarpInput_bystander : Bystander vars (rarpInput vars p h rest) := by
  unfold rarpInput
  split
  · exact bystander_ignored
  split
  · exact bystander_ignored
  · refine ⟨sameWait_settings _ _ _, fromBuffer_of_none ?_, fun hmacs =>
      macsOk_settings _ _ 0 (length_readAt p (h + 8) 6) hmacs⟩
    intro f hf
    cases List.mem_singleton.mp hf

theorem ipInput_bystander : Bystander vars (ipInput cfg vars p h rest) := by
  unfold ipInput
  split
  · exact bystander_ignored
  split
  · unfold icmpInput
    split
    · refine bystander_calls fun f hf => ?_
      cases List.mem_singleton.mp hf
    split
    · exact bystander_sent
    · exact bystander_ignored
  split
  · exact bystander_ignored
  split
  · exact bystander_ignored
  · refine bystander_calls fun f hf => ?_
    rcases List.mem_append.mp hf with hf | hf
    · split at hf
      · cases List.mem_singleton.mp hf
      · cases hf
    · cases List.mem_singleton.mp hf

/-- A frame without the reply that is waited for. -/
theorem netReceive_bystander (ha : arpAnswer cfg vars p len = none) :
    Bystander vars (netReceive cfg vars p len) := by
  unfold netReceive
  unfold arpAnswer at ha
  cases hlink : linkHeader cfg vars p len with
  | none => exact bystander_ignored
  | some hdr =>
    rw [hlink, Option.bind_some] at ha
    dsimp only
    split
    · refine bystander_calls fun f hf => ?_
      cases List.mem_singleton.mp hf
    rename_i hcdp
    split
    · exact bystander_ignored
    rename_i hmatch
    split
    · rename_i hprot
      refine arpInput_bystander fun hanswer => ?_
      rw [if_pos ⟨hcdp, not_not.mp hmatch, hprot, hanswer⟩] at ha
      cases ha
    split
    · exact rarpInput_bystander
    split
    · exact ipInput_bystander
    · exact bystander_ignored

/-- A frame with the reply that is waited for. -/
theorem netReceive_answer (ha : arpAnswer cfg vars p len = some h) : ∃ rest,
    IsAnswer vars p h rest ∧ netReceive cfg vars p len = arpInput cfg vars p h rest := by
  unfold arpAnswer at ha
  obtain ⟨hdr, hlink, ha⟩ := Option.bind_eq_some_iff.mp ha
  split at ha
  · rename_i hall
    obtain ⟨hcdp, hmatch, hprot, hanswer⟩ := hall
    cases ha
    refine ⟨_, hanswer, ?_⟩
    unfold netReceive
    rw [hlink]
    dsimp only
    rw [if_neg hcdp, if_neg (not_not.mpr hmatch), if_pos hprot]
  · cases ha

end Receive

/-! ## Runs -/

section Runs

variable {cfg : ArpConfig} {a b start : ArpNet} {w : Option ArpWaiting} {x : ArpWaiting}
  {ev : ArpEvent} {ether dport sport len : Nat} {dest : IPaddr} {now : UInt32} {frame : Bytes}
  {rc : Int}

/-- The buffer holds the packet of a call. -/
structure Held (x : ArpWaiting) (vars : NetVars) : Prop where
  packetIP : vars.netArpWaitPacketIP = x.dest
  replyIP : vars.netArpWaitReplyIP = x.hop
  packet : ∀ mac : Bytes, mac.length = 6 →
    readAt (storeAt vars.netArpWaitTxPacket 0 mac) 0 vars.netArpWaitTxPacketSize =
      udpFrame x.call mac x.dest x.dport x.sport x.len

/-- What holds in every state of a run. -/
structure ArpInv (w : Option ArpWaiting) (a : ArpNet) : Prop where
  macs : MacsOk a.vars
  idle : w = none → a.vars.netArpWaitPacketMAC = none
  held : ∀ x, w = some x → Held x a.vars

theorem arpReplyIP_eq : arpReplyIP a = nextHop a a.vars.netArpWaitPacketIP := by
  unfold arpReplyIP nextHop
  by_cases hnet : a.vars.netArpWaitPacketIP &&& a.netOurSubnetMask =
      a.vars.netOurIP &&& a.netOurSubnetMask
  · rw [if_neg (not_not.mpr hnet), if_pos (Or.inl hnet)]
  · rw [if_pos hnet]
    by_cases hgateway : a.netOurGatewayIP = 0
    · rw [if_pos hgateway, if_pos (Or.inr hgateway)]
    · rw [if_neg hgateway, if_neg (not_or.mpr ⟨hnet, hgateway⟩)]

/-- A request changes the buffer for sending and the reply that is waited for. -/
theorem arpRequest_vars :
    (arpRequest a).1.vars = { a.vars with netArpWaitReplyIP := arpReplyIP a } := rfl

/-- What `NetSendUDPPacket` does. -/
inductive SendOutcome (a : ArpNet) (ether : Nat) (dest : IPaddr) (dport sport len : Nat)
    (rc : Int) (b : ArpNet) (frame : Bytes) : Prop
  | waits (returned : rc = 1) (macs : MacsOk a.vars → MacsOk b.vars)
      (held : MacsOk a.vars → Held ⟨a, dest, dport, sport, len, nextHop a dest⟩ b.vars)
  | direct (returned : rc = 0) (same : b.vars = a.vars) {addr : Bytes} {target : IPaddr}
      (notNull : addr ≠ netEtherNullAddr)
      (known : addr = netBcastAddr ∨ addr = a.vars.ethers ether)
      (sent : frame = udpFrame a addr target dport sport len)

theorem netSendUDPPacket_outcome
    (h : netSendUDPPacket a ether dest dport sport len now = some (rc, b, frame)) :
    SendOutcome a ether dest dport sport len rc b frame := by
  unfold netSendUDPPacket at h
  dsimp only at h
  generalize hto : (if dest = 0 then (0xffffffff : IPaddr) else dest) = target at h
  generalize haddr : (if target = 0xffffffff then netBcastAddr else a.vars.ethers ether) = addr at h
  split at h
  · rename_i hnull
    have hnotbcast : target ≠ 0xffffffff := by
      intro hbcast
      rw [if_pos hbcast, hnull] at haddr
      exact absurd haddr (by decide)
    have hdest : target = dest := by
      rw [← hto]
      refine if_neg fun hzero => hnotbcast ?_
      rw [← hto, if_pos hzero]
    subst hdest
    split at h
    · cases h
    cases h
    refine .waits rfl (fun hmacs => ⟨hmacs.ours, hmacs.ethers⟩) fun hmacs => ?_
    refine ⟨rfl, ?_, ?_⟩
    · rw [arpRequest_vars]
      exact arpReplyIP_eq
    · intro mac hmac
      have hsize : (netSetEther a.vars a.vars.netArpWaitTxPacket addr 0x0800).2 =
          12 + (etherTag a.vars 0x0800).length := by rw [netSetEther_eq]
      rw [arpRequest_vars]
      dsimp only
      rw [hsize]
      exact waiting_frame hmacs.ours hmac
  · rename_i hnotnull
    split at h
    · cases h
    cases h
    refine .direct rfl rfl hnotnull ?_ rfl
    rw [← haddr]
    split
    · exact Or.inl rfl
    · exact Or.inr rfl

theorem ArpInv.send (hinv : ArpInv w a)
    (h : netSendUDPPacket a ether dest dport sport len now = some (rc, b, frame)) :
    ArpInv (noteWaiting cfg w a (.send ether dest dport sport len now)) b := by
  rw [noteWaiting, h, Option.any_some]
  cases netSendUDPPacket_outcome h with
  | waits returned macs held =>
    rw [if_pos (decide_eq_true returned)]
    refine ⟨macs hinv.macs, nofun, ?_⟩
    intro x hx
    cases hx
    exact held hinv.macs
  | direct returned same =>
    have hnot : ¬ decide (rc = 1) = true := by
      rw [returned]
      decide
    rw [if_neg hnot]
    refine ⟨?_, ?_, ?_⟩
    · rw [same]
      exact hinv.macs
    · rw [same]
      exact hinv.idle
    · rw [same]
      exact hinv.held

theorem ArpInv.timeoutCheck (hinv : ArpInv w a) :
    ArpInv (noteWaiting cfg w a (.timeoutCheck now)) (arpTimeoutCheck cfg a now).1 := by
  rw [noteWaiting]
  unfold arpTimeoutCheck
  split
  · split
    · exact ⟨hinv.macs, hinv.idle, hinv.held⟩
    · show ArpInv (w.map fun w => { w with hop := nextHop a w.dest }) (arpRequest { a with
        netArpWaitTry := a.netArpWaitTry + 1, netArpWaitTimerStart := now }).1
      refine ⟨⟨hinv.macs.ours, hinv.macs.ethers⟩, ?_, ?_⟩
      · intro hnone
        exact hinv.idle (Option.map_eq_none_iff.mp hnone)
      · intro x hx
        obtain ⟨y, hy, rfl⟩ := Option.map_eq_some_iff.mp hx
        have hold := hinv.held y hy
        refine ⟨hold.packetIP, ?_, hold.packet⟩
        rw [arpRequest_vars]
        dsimp only
        rw [arpReplyIP_eq]
        show nextHop _ a.vars.netArpWaitPacketIP = nextHop a y.dest
        rw [hold.packetIP]
        rfl
  · exact ⟨hinv.macs, hinv.idle, hinv.held⟩

/-- What is transmitted when the reply comes. -/
theorem ArpInv.answer {p : Contents} {h : Nat} (hnc : cfg.netconsole = false) (hinv : ArpInv w a)
    (ha : arpAnswer cfg.toNetConfig a.vars p len = some h) : ∃ x, w = some x ∧
      (netReceive cfg.toNetConfig a.vars p len).events =
        [.ethSend (udpFrame x.call (readAt p (h + 8) 6) x.dest x.dport x.sport x.len)] ∧
      netReadIP p (h + 24) = a.vars.netOurIP ∧ netReadIP p (h + 14) = x.hop ∧
      ArpInv none { a with vars := (netReceive cfg.toNetConfig a.vars p len).vars } := by
  obtain ⟨rest, hanswer, hreceive⟩ := netReceive_answer ha
  obtain ⟨mac, hmac, harp⟩ := @arpInput_answer cfg.toNetConfig a.vars p h rest hnc hanswer
  obtain ⟨-, -, ⟨-, hours⟩, -, -, -, hreply⟩ := hanswer
  cases w with
  | none =>
    rw [hinv.idle rfl] at hmac
    cases hmac
  | some x =>
    have hheld := hinv.held x rfl
    rw [hreceive, harp]
    refine ⟨x, rfl, ?_, hours, hreply.trans hheld.replyIP, ⟨hinv.macs.ours, ?_⟩, fun _ => rfl,
      nofun⟩
    · dsimp only
      rw [hheld.packet _ (length_readAt _ _ _)]
    · exact hinv.macs.length_update (length_readAt p (h + 8) 6) mac

theorem Held.same {v v' : NetVars} (h : Held x v) (hsame : SameWait v v') : Held x v' := by
  refine ⟨hsame.packetIP.trans h.packetIP, hsame.replyIP.trans h.replyIP, ?_⟩
  rw [hsame.txPacket, hsame.txPacketSize]
  exact h.packet

/-- One step. -/
theorem ArpInv.step (hnc : cfg.netconsole = false) (hinv : ArpInv w a)
    (h : arpStep cfg a ev = some b) : ArpInv (noteWaiting cfg w a ev) b := by
  cases ev with
  | send ether dest dport sport len now =>
    obtain ⟨⟨rc, b', frame⟩, hsend, rfl⟩ := Option.map_eq_some_iff.mp h
    exact hinv.send hsend
  | timeoutCheck now =>
    cases h
    exact hinv.timeoutCheck
  | receive p len =>
    cases h
    rw [noteWaiting]
    cases ha : arpAnswer cfg.toNetConfig a.vars p len with
    | none =>
      have hby := netReceive_bystander ha
      refine ⟨hby.macs hinv.macs, ?_, ?_⟩
      · intro hnone
        exact hby.same.packetMAC.trans (hinv.idle hnone)
      · intro x hx
        exact (hinv.held x hx).same hby.same
    | some h =>
      obtain ⟨x, -, -, -, -, hafter⟩ := hinv.answer hnc ha
      exact hafter
  | settings s =>
    cases h
    refine ⟨⟨s.ours, s.lengths⟩, hinv.idle, ?_⟩
    intro x hx
    exact (hinv.held x hx).same ⟨rfl, rfl, rfl, rfl, rfl⟩

/-- **The packet that waits** is transmitted at most once, to the address in a reply of the next
hop that has been asked for; nothing else is transmitted from its buffer, and what is sent at once
goes to an address that is not zero. -/
theorem arp_deferred {tr : List (ArpNet × ArpEvent)} (hnc : cfg.netconsole = false)
    (hmacs : MacsOk start.vars) (hidle : start.vars.netArpWaitPacketMAC = none)
    (hrun : Run (fun a ev b => arpStep cfg a ev = some b) start tr a) :
    (∀ p len h, arpAnswer cfg.toNetConfig a.vars p len = some h → ∃ x, waiting cfg tr = some x ∧
      (netReceive cfg.toNetConfig a.vars p len).events =
        [.ethSend (udpFrame x.call (readAt p (h + 8) 6) x.dest x.dport x.sport x.len)] ∧
      netReadIP p (h + 24) = a.vars.netOurIP ∧ netReadIP p (h + 14) = x.hop ∧
      waiting cfg (tr ++ [(a, .receive p len)]) = none) ∧
    (∀ p len, arpAnswer cfg.toNetConfig a.vars p len = none →
      FromBuffer (netReceive cfg.toNetConfig a.vars p len)) ∧
    ∀ ether dest dport sport len now b frame,
      netSendUDPPacket a ether dest dport sport len now = some (0, b, frame) →
        frame.take 6 ≠ netEtherNullAddr := by
  have hnote : ∀ tr a ev, waiting cfg (tr ++ [(a, ev)]) = noteWaiting cfg (waiting cfg tr) a ev :=
    fun _ _ _ => List.foldl_append
  have hinv : ArpInv (waiting cfg tr) a := by
    refine hrun.history (fun tr a => ArpInv (waiting cfg tr) a) (fun _ _ => True) ?_
      ⟨hmacs, fun _ => hidle, nofun⟩ fun _ _ => trivial
    intro tr a ev b hinv _ hstep
    rw [hnote]
    exact hinv.step hnc hstep
  refine ⟨?_, fun p len hnone => (netReceive_bystander hnone).fromBuffer, ?_⟩
  · intro p len h ha
    obtain ⟨x, hx, hsent, hto, hfrom, -⟩ := hinv.answer hnc ha
    refine ⟨x, hx, hsent, hto, hfrom, ?_⟩
    rw [hnote, noteWaiting, ha]
    rfl
  · intro ether dest dport sport len now b frame hsend
    cases netSendUDPPacket_outcome hsend with
    | waits returned => exact absurd returned (by decide)
    | @direct returned same addr target notNull known sent =>
      have hlength : addr.length = 6 := by
        rcases known with rfl | rfl
        · rfl
        · exact hinv.macs.ethers ether
      rw [sent, take_udpFrame hlength]
      exact notNull

end Runs

/-! ## Small runs -/

/-- The host 192.168.0.2/24 with a gateway, that does not know the address of the server. -/
def arpHost : ArpNet where
  vars := { someHost with ethers := fun _ => netEtherNullAddr }
  netOurSubnetMask := 0xffffff00
  netOurGatewayIP := 0xc0a800fe
  netTxPacket := fun _ => 0x55
  netIPID := 0
  netArpWaitTimerStart := 0
  netArpWaitTry := 0

def arpConfig : ArpConfig := ⟨⟨false, false, false, false⟩, 5000, 5⟩

/-- An ARP or RARP packet from 192.168.0.1. -/
def arpFrame (prot op : Nat) (target : IPaddr) : Contents := fun i =>
  ([2, 0, 0, 0, 0, 2, 2, 0, 0, 0, 0, 1] ++ htons prot ++ htons 1 ++ htons 0x0800 ++ [6, 4] ++
    htons op ++ [2, 0, 0, 0, 0, 1] ++ ipBytes 0xc0a80001 ++ [2, 0, 0, 0, 0, 2] ++
    ipBytes target).getD i 0

/-- A packet of four bytes to the server. -/
def arpSend : ArpEvent := .send 0 0xc0a80001 69 1024 4 0

theorem macsOk_arpHost : MacsOk arpHost.vars := ⟨rfl, fun _ => rfl⟩

/-- The packet is transmitted when the server answers. -/
theorem arp_deferred_answered : ∃ tr a,
    Run (fun a ev b => arpStep arpConfig a ev = some b) arpHost tr a ∧ ∃ x,
      waiting arpConfig tr = some x ∧
      (netReceive arpConfig.toNetConfig a.vars (arpFrame 0x0806 2 0xc0a80002) 42).events =
        [.ethSend (udpFrame x.call [2, 0, 0, 0, 0, 1] x.dest x.dport x.sport x.len)] := by
  have hrun : ((runAll (arpStep arpConfig) arpHost [arpSend]).any fun r =>
      arpAnswer arpConfig.toNetConfig r.2.vars (arpFrame 0x0806 2 0xc0a80002) 42 = some 14) =
        true := by decide
  obtain ⟨⟨tr, a⟩, hsome, hanswer⟩ := (Option.any_eq_true _ _).mp hrun
  have hrun : Run (fun a ev b => arpStep arpConfig a ev = some b) arpHost tr a :=
    run_of_runAll (fun hstep => hstep) hsome
  obtain ⟨x, hx, hsent, -⟩ := (arp_deferred rfl macsOk_arpHost rfl hrun).1
    (arpFrame 0x0806 2 0xc0a80002) 42 14 (of_decide_eq_true hanswer)
  refine ⟨tr, a, hrun, x, hx, ?_⟩
  rw [hsent]
  rfl

/-- The address of the host is changed by a RARP packet: the one that answers is not the next hop
any more. -/
theorem arp_hop_moves : ∃ tr a x,
    Run (fun a ev b => arpStep arpConfig a ev = some b) arpHost tr a ∧
      waiting arpConfig tr = some x ∧
      arpAnswer arpConfig.toNetConfig a.vars (arpFrame 0x0806 2 0x0a000002) 42 = some 14 ∧
      netReadIP (arpFrame 0x0806 2 0x0a000002) (14 + 14) ≠ nextHop a x.dest := by
  have hrun : ((runAll (arpStep arpConfig) arpHost
      [arpSend, .receive (arpFrame 0x8035 4 0x0a000002) 42]).any fun r =>
        arpAnswer arpConfig.toNetConfig r.2.vars (arpFrame 0x0806 2 0x0a000002) 42 = some 14 ∧
        (waiting arpConfig r.1).any fun x =>
          netReadIP (arpFrame 0x0806 2 0x0a000002) (14 + 14) ≠ nextHop r.2 x.dest) = true := by
    decide
  obtain ⟨⟨tr, a⟩, hsome, hall⟩ := (Option.any_eq_true _ _).mp hrun
  obtain ⟨hanswer, hwaiting⟩ := of_decide_eq_true hall
  obtain ⟨x, hx, hhop⟩ := (Option.any_eq_true _ _).mp hwaiting
  exact ⟨tr, a, x, run_of_runAll (fun hstep => hstep) hsome, hx, hanswer, of_decide_eq_true hhop⟩

end UBoot.Net
