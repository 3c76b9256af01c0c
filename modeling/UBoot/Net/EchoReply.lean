import UBoot.Net.Cksum

/-!
# Answers to a ping

`NetReceive` turns an echo request into its reply in place (`echoReply`).  The frame that goes out
has the length of an untagged header and the IP packet, and the checksum of the ICMP message is
computed over its whole words, so an answer is right for exactly the untagged requests with an even
payload or a last byte of zero (`echoReply_right_iff`).
-/

namespace UBoot.Net

open UBoot.Lib

/-- The frame holds an echo request for us, with its IP header at `h`. -/
structure EchoRequest (cfg : NetConfig) (vars : NetVars) (p : Contents) (len h : Nat) : Prop where
  ping : cfg.cmdPing
  link : ∃ vlanid, linkHeader cfg vars p len = some ⟨0x0800, vlanid, h⟩ ∧ vlanMatches vars vlanid
  notCdp : ¬ (cfg.cmdCdp ∧ readAt p 0 6 = netCDPAddr)
  header : ipHeaderOk vars p h (len - h)
  version : p h = 0x45
  icmp : p (h + 9) = 1
  size : 28 ≤ word p (h + 2)
  type : p (h + 20) = 8
  code : p (h + 21) = 0
  cksum : Checksummed (readAt p (h + 20) (word p (h + 2) - 20))

/-- The frame is the reply to the request in the buffer `p`, with its IP header at `h`. -/
structure IsEchoReply (vars : NetVars) (p : Contents) (h : Nat) (frame : Bytes) : Prop where
  length : frame.length = h + word p (h + 2)
  dest : frame.take 6 = readAt p 6 6
  source : (frame.drop 6).take 6 = vars.netOurEther
  ipSource : (frame.drop (h + 12)).take 4 = ipBytes vars.netOurIP
  ipDest : (frame.drop (h + 16)).take 4 = readAt p (h + 12) 4
  ipCksum : Checksummed ((frame.drop h).take 20)
  type : (frame.drop (h + 20)).take 2 = [0, 0]
  payload : frame.drop (h + 24) = readAt p (h + 24) (word p (h + 2) - 24)
  icmpCksum : Checksummed (frame.drop (h + 20))

section Reply

variable {cfg : NetConfig} {vars : NetVars} {p : Contents} {len h k : Nat}

/-! ## The buffer, from step to step -/

/-- The frame with the addresses changed and no checksum in the IP header. -/
def turned (vars : NetVars) (p : Contents) (h : Nat) : Contents :=
  let p := storeAt p 0 (readAt p 6 6)
  let p := storeAt p 6 vars.netOurEther
  let p := storeAt (storeAt p (h + 10) [0, 0]) (h + 6) [0, 0]
  let p := storeAt p (h + 16) (readAt p (h + 12) 4)
  storeAt p (h + 12) (ipBytes vars.netOurIP)

/-- The IP header is done, and the ICMP header has no checksum. -/
def turnedIcmp (vars : NetVars) (p : Contents) (h : Nat) : Contents :=
  let p := turned vars p h
  let p := storeAt p (h + 2 * 5) (storedCksum p h 10)
  storeAt (storeAt p (h + 20) [0]) (h + 22) [0, 0]

/-- The number of words in the checksum of the reply. -/
def echoWords (p : Contents) (h : Nat) : Nat := ((word p (h + 2) - 20 : Int) % 2 ^ 32).toNat / 2

/-- What is sent back. -/
def echoed (vars : NetVars) (p : Contents) (h : Nat) : Contents :=
  let q := turnedIcmp vars p h
  storeAt q (h + 20 + 2 * 1) (storedCksum q (h + 20) (echoWords p h))

theorem echoReply_eq : echoReply vars p h =
    ⟨vars, echoed vars p h, [.ethSend (readAt (echoed vars p h) 0 (14 + word p (h + 2)))]⟩ := rfl

/-! ## What is where -/

theorem length_ipBytes (ip : IPaddr) : (ipBytes ip).length = 4 := rfl

/-- In front of the ICMP header and behind it only the first part of the work is seen. -/
theorem readAt_echoed {i n : Nat} (h' : i + n ≤ h + 20 ∨ h + 24 ≤ i) :
    readAt (echoed vars p h) i n =
      readAt (storeAt (turned vars p h) (h + 2 * 5) (storedCksum (turned vars p h) h 10)) i n := by
  unfold echoed turnedIcmp
  dsimp only
  rw [readAt_storeAt_apart (by rw [length_storedCksum]; omega),
    readAt_storeAt_apart (by simp only [List.length_cons, List.length_nil]; omega),
    readAt_storeAt_apart (by simp only [List.length_cons, List.length_nil]; omega)]

theorem readAt_echoed_turned {i n : Nat} (h' : i + n ≤ h + 20 ∨ h + 24 ≤ i)
    (h'' : i + n ≤ h + 10 ∨ h + 12 ≤ i) :
    readAt (echoed vars p h) i n = readAt (turned vars p h) i n := by
  rw [readAt_echoed h', readAt_storeAt_apart (by rw [length_storedCksum]; omega)]

theorem turned_dest (hh : 12 ≤ h) :
    readAt (turned vars p h) 0 6 = readAt p 6 6 := by
  unfold turned
  dsimp only
  rw [readAt_storeAt_apart (by omega), readAt_storeAt_apart (by omega),
    readAt_storeAt_apart (by omega), readAt_storeAt_apart (by omega),
    readAt_storeAt_apart (by omega)]
  have hstore := readAt_storeAt p 0 (readAt p 6 6)
  rwa [length_readAt] at hstore

theorem turned_source (hours : vars.netOurEther.length = 6) (hh : 12 ≤ h) :
    readAt (turned vars p h) 6 6 = vars.netOurEther := by
  unfold turned
  dsimp only
  rw [readAt_storeAt_apart (by omega), readAt_storeAt_apart (by omega),
    readAt_storeAt_apart (by omega), readAt_storeAt_apart (by omega)]
  have hstore := readAt_storeAt (storeAt p 0 (readAt p 6 6)) 6 vars.netOurEther
  rwa [hours] at hstore

theorem turned_ipSource : readAt (turned vars p h) (h + 12) 4 = ipBytes vars.netOurIP := by
  have hstore (c : Contents) := readAt_storeAt c (h + 12) (ipBytes vars.netOurIP)
  rw [length_ipBytes] at hstore
  exact hstore _

theorem turned_ipDest (hours : vars.netOurEther.length = 6) (hh : 12 ≤ h) :
    readAt (turned vars p h) (h + 16) 4 = readAt p (h + 12) 4 := by
  unfold turned
  dsimp only
  rw [readAt_storeAt_apart (by rw [length_ipBytes]; omega)]
  have hstore (c : Contents) := readAt_storeAt c (h + 16) (readAt c (h + 12) 4)
  simp only [length_readAt] at hstore
  rw [hstore, readAt_storeAt_apart (by simp only [List.length_cons, List.length_nil]; omega),
    readAt_storeAt_apart (by simp only [List.length_cons, List.length_nil]; omega),
    readAt_storeAt_apart (by omega), readAt_storeAt_apart (by rw [length_readAt]; omega)]

theorem turned_behind {i n : Nat} (hours : vars.netOurEther.length = 6) (hh : 12 ≤ h)
    (hi : h + 20 ≤ i) : readAt (turned vars p h) i n = readAt p i n := by
  unfold turned
  dsimp only
  rw [readAt_storeAt_apart (by rw [length_ipBytes]; omega),
    readAt_storeAt_apart (by rw [length_readAt]; omega),
    readAt_storeAt_apart (by simp only [List.length_cons, List.length_nil]; omega),
    readAt_storeAt_apart (by simp only [List.length_cons, List.length_nil]; omega),
    readAt_storeAt_apart (by omega), readAt_storeAt_apart (by rw [length_readAt]; omega)]

theorem echoed_payload {i n : Nat} (hours : vars.netOurEther.length = 6) (hh : 12 ≤ h)
    (hi : h + 24 ≤ i) : readAt (echoed vars p h) i n = readAt p i n := by
  rw [readAt_echoed_turned (.inr hi) (by omega), turned_behind hours hh (by omega)]

/-- One byte, from what is read. -/
theorem eq_of_readAt {c d : Contents} {i : Nat} (h : readAt c i 1 = readAt d i 1) : c i = d i := by
  simpa [readAt] using h

theorem echoed_type (hours : vars.netOurEther.length = 6) (hh : 12 ≤ h) (hcode : p (h + 21) = 0) :
    readAt (echoed vars p h) (h + 20) 2 = [0, 0] := by
  have hzero : turnedIcmp vars p h (h + 20) = 0 := by
    unfold turnedIcmp
    rw [storeAt_out (by rintro ⟨h', -⟩; omega), storeAt_in ⟨Nat.le_refl _, by simp⟩, Nat.sub_self]
    rfl
  have hone : turnedIcmp vars p h (h + 21) = 0 := by
    unfold turnedIcmp
    rw [storeAt_out (by rintro ⟨h', -⟩; omega),
      storeAt_out (by simp only [InRange, List.length_cons, List.length_nil]; omega),
      storeAt_out (by rw [length_storedCksum]; rintro ⟨-, h'⟩; omega),
      eq_of_readAt (turned_behind hours hh (by omega)), hcode]
  unfold echoed
  dsimp only
  rw [readAt_storeAt_apart (by omega), readAt, List.range'_succ, List.range'_succ]
  simp [hzero, hone]

/-! ## The two checksums -/

theorem turned_cksum (h' : h + 2 * 5 ≤ k) (h'' : k < h + 2 * 5 + 2) : turned vars p h k = 0 := by
  unfold turned
  rw [storeAt_out (by rintro ⟨hlo, -⟩; omega), storeAt_out (by rintro ⟨hlo, -⟩; omega),
    storeAt_out (by simp only [InRange, List.length_cons, List.length_nil]; omega),
    storeAt_in ⟨by omega, by simpa using h''⟩]
  obtain rfl | rfl : k = h + 2 * 5 ∨ k = h + 2 * 5 + 1 := by omega
  · simp
  · simp

theorem turnedIcmp_cksum (vars : NetVars) (p : Contents) (h' : h + 20 + 2 * 1 ≤ k)
    (h'' : k < h + 20 + 2 * 1 + 2) :
    turnedIcmp vars p h k = 0 := by
  unfold turnedIcmp
  rw [storeAt_in ⟨by omega, by simp only [List.length_cons, List.length_nil]; omega⟩]
  obtain rfl | rfl : k = h + 20 + 2 * 1 ∨ k = h + 20 + 2 * 1 + 1 := by omega
  · simp
  · simp

theorem turnedIcmp_behind (hours : vars.netOurEther.length = 6) (hh : 12 ≤ h)
    (hk : h + 24 ≤ k) : turnedIcmp vars p h k = p k := by
  unfold turnedIcmp
  rw [storeAt_out (by simp only [InRange, List.length_cons, List.length_nil]; omega),
    storeAt_out (by simp only [InRange, List.length_cons, List.length_nil]; omega),
    storeAt_out (by rw [length_storedCksum]; rintro ⟨-, h'⟩; omega)]
  exact eq_of_readAt (turned_behind hours hh (by omega))

theorem echoed_ipCksum : Checksummed (readAt (echoed vars p h) h 20) := by
  rw [readAt_echoed (.inl (Nat.le_refl _))]
  exact checksummed_stored (n := 10) (by decide) (by decide)
    (turned_cksum (Nat.le_refl _) (by omega)) (turned_cksum (Nat.le_succ _) (by omega))

/-- The last byte of an odd payload is not in the checksum. -/
theorem echoed_icmpCksum (hours : vars.netOurEther.length = 6) (hh : 12 ≤ h)
    (hsize : 28 ≤ word p (h + 2)) :
    Checksummed (readAt (echoed vars p h) (h + 20) (word p (h + 2) - 20)) ↔
      word p (h + 2) % 2 = 0 ∨ p (h + word p (h + 2) - 1) = 0 := by
  have hlt := word_lt p (h + 2)
  have hwords : echoWords p h = (word p (h + 2) - 20) / 2 := by
    rw [echoWords]
    omega
  have hlo := turnedIcmp_cksum vars p (h := h) (Nat.le_refl _) (by omega)
  have hhi := turnedIcmp_cksum vars p (h := h) (Nat.le_succ _) (by omega)
  unfold echoed
  rw [hwords]
  rcases Nat.mod_two_eq_zero_or_one (word p (h + 2)) with heven | hodd
  · have hlen : word p (h + 2) - 20 = 2 * ((word p (h + 2) - 20) / 2) := by omega
    refine ⟨fun _ => .inl heven, fun _ => ?_⟩
    rw [hlen, Nat.mul_div_cancel_left _ (by decide)]
    exact checksummed_stored (by omega) (by omega) hlo hhi
  · have hlen : word p (h + 2) - 20 = 2 * ((word p (h + 2) - 20) / 2) + 1 := by omega
    have hlast : h + 20 + 2 * ((word p (h + 2) - 20) / 2) = h + word p (h + 2) - 1 := by omega
    have hiff := checksummed_stored_odd (p := turnedIcmp vars p h) (i := h + 20) (k := 1)
      (n := (word p (h + 2) - 20) / 2) (by omega) (by omega) hlo hhi
    rw [← hlen, hlast, turnedIcmp_behind hours hh (by omega)] at hiff
    rw [hiff]
    exact ⟨.inr, fun h => h.resolve_left (by omega)⟩

/-! ## The frame -/

/-- The request goes through. -/
theorem netReceive_echo (hreq : EchoRequest cfg vars p len h) :
    netReceive cfg vars p len = echoReply vars p h := by
  obtain ⟨vlanid, hlink, hmatch⟩ := hreq.link
  have hother : ¬ (cfg.cmdPing = true ∧ p (h + 20) = 0) := by
    rw [hreq.type]
    rintro ⟨-, h'⟩
    cases h'
  unfold netReceive
  rw [hlink]
  simp only [hreq.notCdp, hmatch, if_false, not_true]
  rw [if_neg (by decide : ¬ (0x0800 : Nat) = 0x0806),
    if_neg (by decide : ¬ (0x0800 : Nat) = 0x8035),
    if_pos trivial]
  unfold ipInput icmpInput
  rw [if_neg (not_not.mpr hreq.header), if_pos hreq.icmp, if_neg hother,
    if_pos ⟨hreq.ping, hreq.type⟩]

/-- The untagged frame that goes out, part by part. -/
theorem isEchoReply_iff (hours : vars.netOurEther.length = 6) (hsize : 28 ≤ word p (14 + 2))
    (hcode : p (14 + 21) = 0) :
    IsEchoReply vars p 14 (readAt (echoed vars p 14) 0 (14 + word p (14 + 2))) ↔
      word p (14 + 2) % 2 = 0 ∨ p (14 + word p (14 + 2) - 1) = 0 := by
  have hdrop {i : Nat} (hi : i ≤ 42) :
      (readAt (echoed vars p 14) 0 (14 + word p (14 + 2))).drop i =
        readAt (echoed vars p 14) i (14 + word p (14 + 2) - i) := by
    rw [drop_readAt (by omega), Nat.zero_add]
  have hpart {i n : Nat} (hi : i ≤ 40) (hn : n + i ≤ 42) :
      ((readAt (echoed vars p 14) 0 (14 + word p (14 + 2))).drop i).take n =
        readAt (echoed vars p 14) i n := by
    rw [hdrop (by omega), take_readAt, Nat.min_eq_left (by omega)]
  have hicmp : (readAt (echoed vars p 14) 0 (14 + word p (14 + 2))).drop (14 + 20) =
      readAt (echoed vars p 14) (14 + 20) (word p (14 + 2) - 20) := by
    rw [hdrop (by decide)]
    congr 1
    omega
  have hcksum := echoed_icmpCksum hours (by decide : 12 ≤ 14) hsize
  rw [← hicmp] at hcksum
  constructor
  · intro h
    exact hcksum.mp h.icmpCksum
  · intro h
    exact {
      length := length_readAt _ _ _
      dest := by
        have hdest := hpart (i := 0) (n := 6) (by decide) (by decide)
        rw [List.drop_zero] at hdest
        rw [hdest, readAt_echoed_turned (by decide) (by decide), turned_dest (by decide)]
      source := by
        rw [hpart (by decide) (by decide), readAt_echoed_turned (by decide) (by decide),
          turned_source hours (by decide)]
      ipSource := by
        rw [hpart (by decide) (by decide), readAt_echoed_turned (by decide) (by decide),
          turned_ipSource]
      ipDest := by
        rw [hpart (by decide) (by decide), readAt_echoed_turned (by decide) (by decide),
          turned_ipDest hours (by decide)]
      ipCksum := by
        rw [hpart (by decide) (by decide)]
        exact echoed_ipCksum
      type := by
        rw [hpart (by decide) (by decide), echoed_type hours (by decide) hcode]
      payload := by
        rw [hdrop (by decide), echoed_payload hours (by decide) (Nat.le_refl _)]
        congr 1
        omega
      icmpCksum := hcksum.mpr h }

/-- **The answer to a ping is right** for exactly the untagged requests whose payload has an even
length or ends with a zero. -/
theorem echoReply_right_iff (hours : vars.netOurEther.length = 6)
    (hreq : EchoRequest cfg vars p len h) :
    (∃ frame, (netReceive cfg vars p len).events = [.ethSend frame] ∧
        IsEchoReply vars p h frame) ↔
      h = 14 ∧ (word p (h + 2) % 2 = 0 ∨ p (h + word p (h + 2) - 1) = 0) := by
  have hevents : (netReceive cfg vars p len).events =
      [.ethSend (readAt (echoed vars p h) 0 (14 + word p (h + 2)))] := by
    rw [netReceive_echo hreq, echoReply_eq]
  rw [hevents]
  constructor
  · rintro ⟨frame, hframe, hreply⟩
    obtain rfl := NetEvent.ethSend.inj (List.singleton_injective hframe)
    have hlength := hreply.length
    rw [length_readAt] at hlength
    obtain rfl : h = 14 := by omega
    exact ⟨rfl, (isEchoReply_iff hours hreq.size hreq.code).mp hreply⟩
  · rintro ⟨rfl, hpayload⟩
    exact ⟨_, rfl, (isEchoReply_iff hours hreq.size hreq.code).mpr hpayload⟩

end Reply

/-- A ping from 192.168.0.1 to `someHost`, with the checksums and the payload. -/
def pingFrame (ipSum icmpSum : Nat) (payload : Bytes) : Contents := fun i =>
  ([2, 0, 0, 0, 0, 2, 2, 0, 0, 0, 0, 1, 0x08, 0x00, 0x45, 0] ++ htons (28 + payload.length) ++
    [0, 0, 0, 0, 64, 1] ++ htons ipSum ++ [192, 168, 0, 1, 192, 168, 0, 2, 8, 0] ++
    htons icmpSum ++ [0, 1, 0, 1] ++ payload).getD i 0

theorem echoRequest_even : EchoRequest ⟨false, true, false, false⟩ someHost
    (pingFrame 0xf98b 0x969b [0x61, 0x62]) 44 14 where
  ping := rfl
  link := ⟨vlanNone, by decide, by decide⟩
  notCdp := by decide
  header := by decide
  version := by decide
  icmp := by decide
  size := by decide
  type := by decide
  code := by decide
  cksum := by decide

theorem echoReply_right_even : ∃ frame,
    (netReceive ⟨false, true, false, false⟩ someHost
        (pingFrame 0xf98b 0x969b [0x61, 0x62]) 44).events = [.ethSend frame] ∧
      IsEchoReply someHost (pingFrame 0xf98b 0x969b [0x61, 0x62]) 14 frame :=
  (echoReply_right_iff rfl echoRequest_even).mpr ⟨rfl, .inl (by decide)⟩

theorem echoRequest_odd : EchoRequest ⟨false, true, false, false⟩ someHost
    (pingFrame 0xf98c 0x96fd [0x61]) 43 14 where
  ping := rfl
  link := ⟨vlanNone, by decide, by decide⟩
  notCdp := by decide
  header := by decide
  version := by decide
  icmp := by decide
  size := by decide
  type := by decide
  code := by decide
  cksum := by decide

/-- The one byte of the payload is not in the checksum of the answer. -/
theorem echoReply_odd_wrong :
    ¬ ∀ (cfg : NetConfig) (vars : NetVars) (p : Contents) (len h : Nat),
      vars.netOurEther.length = 6 → EchoRequest cfg vars p len h →
        ∃ frame, (netReceive cfg vars p len).events = [.ethSend frame] ∧
          IsEchoReply vars p h frame := by
  intro h
  obtain ⟨frame, hframe, hreply⟩ := h _ _ _ _ _ rfl echoRequest_odd
  have hodd := netReceive_echo echoRequest_odd
  rw [hodd] at hframe
  obtain rfl := NetEvent.ethSend.inj (List.singleton_injective hframe)
  have hwrong := (isEchoReply_iff rfl (by decide) (by decide)).mp hreply
  revert hwrong
  decide

end UBoot.Net
