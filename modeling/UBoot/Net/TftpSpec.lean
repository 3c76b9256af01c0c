import UBoot.Net.Tftp
import Mathlib.Data.Nat.ModEq

/-!
# What the TFTP client makes of the packets of a server

A server sends the blocks of a file in order.  Its packets are numbered here from 0 on, where
packet 0 is the `OACK`, and on the wire by what is left of that in 16 bits.  A client is `At` a
number when it has taken the packets up to it: then the memory holds that part of the file and
the offset of the wraparounds is the right one (`at_next`).

* `at_repeated`: the packet of the same number again changes nothing, if its number on the wire
  is not 0.  The offset is advanced before the test for the same block.
-/

namespace UBoot.Net

open UBoot.Lib UBoot.LibGeneric

/-- A server with a file, and with the options that it acknowledges. -/
structure TftpServer where
  file : Bytes
  options : Option Bytes

namespace TftpServer

variable (srv : TftpServer)

/-- The block size that its options lead to. -/
def blkSize : Nat :=
  match srv.options with
  | none => tftpBlockSize
  | some o => oackBlkSize o tftpBlockSize

/-- The data of block `i`. -/
def blockBytes (i : Nat) : Bytes := (srv.file.drop ((i - 1) * srv.blkSize)).take srv.blkSize

/-- The number of blocks.  The last one is not full, and may be empty. -/
def blockCount : Nat := srv.file.length / srv.blkSize + 1

/-- Packet `i` of a transfer. -/
def packet (i : Nat) : Bytes :=
  if i = 0 then htons 6 ++ srv.options.getD [] else htons 3 ++ (htons i ++ srv.blockBytes i)

/-- The packet that a transfer starts with. -/
def first : Nat := if srv.options.isSome then 0 else 1

/-- The file fits the address space and its size is a number of 32 bits. -/
def Fits (cfg : TftpConfig) : Prop :=
  cfg.loadAddr + srv.file.length ≤ 2 ^ 32 ∧ srv.file.length < 2 ^ 32

end TftpServer

/-- The acknowledgement of packet `i`. -/
def ackPacket (i : Nat) : Bytes := htons 4 ++ htons i

section Bytes

variable {n : Nat} {rest : Bytes}

theorem ntohs_htons : ntohs (htons n ++ rest) 0 = n % 65536 := by
  have hhi : (UInt8.ofNat (n / 256)).toNat = n / 256 % 256 := UInt8.toNat_ofNat'
  have hlo : (UInt8.ofNat n).toNat = n % 256 := UInt8.toNat_ofNat'
  unfold ntohs htons
  simp only [List.cons_append, List.getD_cons_zero, List.getD_cons_succ, hhi, hlo]
  omega

theorem drop_htons : (htons n ++ rest).drop 2 = rest := rfl

theorem length_htons_append : (htons n ++ rest).length = rest.length + 2 := rfl

theorem htons_mod (n : Nat) : htons (n % 65536) = htons n := by
  unfold htons
  congr 1
  · rw [← UInt8.toNat_inj, UInt8.toNat_ofNat', UInt8.toNat_ofNat']
    omega
  · congr 1
    rw [← UInt8.toNat_inj, UInt8.toNat_ofNat', UInt8.toNat_ofNat']
    omega

end Bytes

/-! ## The block size -/

/-- An `OACK` sets the block size or leaves it, whatever it was. -/
theorem oackBlkSize_cases (pkt : Bytes) :
    (∀ b, oackBlkSize pkt b = b) ∨ ∃ v, ∀ b, oackBlkSize pkt b = v := by
  unfold oackBlkSize
  induction pkt.length - 8 with
  | zero => exact Or.inl fun b => rfl
  | succ n ih =>
    simp only [List.range_succ, List.foldl_append, List.foldl_cons, List.foldl_nil]
    split
    · exact Or.inr ⟨_, fun b => rfl⟩
    · exact ih

/-- The same `OACK` again leaves it. -/
theorem oackBlkSize_twice (pkt : Bytes) (b : Nat) :
    oackBlkSize pkt (oackBlkSize pkt b) = oackBlkSize pkt b := by
  rcases oackBlkSize_cases pkt with hid | ⟨v, hconst⟩
  · rw [hid, hid]
  · rw [hconst, hconst]

/-! ## The state of the client -/

variable {cfg : TftpConfig} {srv : TftpServer} {c : Tftp} {n src : Nat} {again : Again}

/-- The memory holds the first bytes of the file. -/
def Loaded (cfg : TftpConfig) (srv : TftpServer) (c : Tftp) (n : Nat) : Prop :=
  ∀ i < n, c.mem (cfg.loadAddr + i) = srv.file.getD i 0

/-- The file is in memory, with its size. -/
structure Complete (cfg : TftpConfig) (srv : TftpServer) (c : Tftp) : Prop where
  loaded : Loaded cfg srv c srv.file.length
  size : c.xferSize = srv.file.length

/-- The client has sent its request and waits for a first packet. -/
structure Waiting (c : Tftp) : Prop where
  netState : c.netState = .loop
  state : c.state = .rrq
  serverPort : c.serverPort = wellKnownPort
  blkSize : c.blkSize = tftpBlockSize
  block : c.block = 0
  size : c.xferSize = 0

/-- The client has taken the packets up to number `n`, and the last one is not among them. -/
structure At (cfg : TftpConfig) (srv : TftpServer) (n : Nat) (c : Tftp) : Prop where
  netState : c.netState = .loop
  state : c.state = if n = 0 then .oack else .data
  blkSize : c.blkSize = srv.blkSize
  block : c.block = n % 65536
  lastBlock : n ≠ 0 → c.lastBlock = n % 65536
  wrapOffset : n ≠ 0 → c.blockWrapOffset = n / 65536 * 65536 * srv.blkSize % 2 ^ 32
  le : n * srv.blkSize ≤ srv.file.length
  size : c.xferSize = n * srv.blkSize
  loaded : Loaded cfg srv c (n * srv.blkSize)

/-! ## The next block -/

/-- The place of a block in memory, as the code computes it from its number on the wire. -/
theorem offset_eq {B : Nat} (h : n * B < 2 ^ 32) :
    (((n + 1) % 65536 + 2 ^ 32 - 1) % 2 ^ 32 * B + (n + 1) / 65536 * 65536 * B % 2 ^ 32) % 2 ^ 32 =
      n * B := by
  have hsum : (n + 1) % 65536 + 2 ^ 32 - 1 + (n + 1) / 65536 * 65536 = n + 2 ^ 32 := by omega
  rw [Nat.add_mod, Nat.mod_mod, Nat.mod_mul_mod, ← Nat.add_mod, ← Nat.add_mul, hsum, Nat.add_mul,
    Nat.add_mul_mod_self_left]
  exact Nat.mod_eq_of_lt h

theorem length_blockBytes : (srv.blockBytes (n + 1)).length =
    min srv.blkSize (srv.file.length - n * srv.blkSize) := by
  rw [TftpServer.blockBytes, List.length_take, List.length_drop, Nat.add_sub_cancel]

theorem blockBytes_getD {i : Nat} (h : i < (srv.blockBytes (n + 1)).length) :
    (srv.blockBytes (n + 1)).getD i 0 = srv.file.getD (n * srv.blkSize + i) 0 := by
  rw [length_blockBytes] at h
  rw [TftpServer.blockBytes, Nat.add_sub_cancel, List.getD_eq_getElem?_getD,
    List.getElem?_take_of_lt (by omega), List.getElem?_drop, ← List.getD_eq_getElem?_getD]

/-- A block is stored behind the ones before it. -/
theorem loaded_next (hfits : srv.Fits cfg) (hle : n * srv.blkSize ≤ srv.file.length)
    (hloaded : Loaded cfg srv c (n * srv.blkSize)) {c' : Tftp}
    (hmem : c'.mem = storeAt c.mem ((cfg.loadAddr + n * srv.blkSize) % 2 ^ 32)
      (srv.blockBytes (n + 1))) :
    Loaded cfg srv c' (n * srv.blkSize + (srv.blockBytes (n + 1)).length) := by
  intro i hi
  have hlen := @length_blockBytes srv n
  have hfit := hfits.1
  rw [hmem, storeAt]
  rcases Nat.lt_or_ge i (n * srv.blkSize) with hold | hnew
  · -- The bytes before it are kept, also if an empty block is stored at address 0.
    rw [if_neg]
    · exact hloaded i hold
    · rintro ⟨hlo, hhi⟩
      by_cases hempty : (srv.blockBytes (n + 1)).length = 0
      · omega
      · rw [Nat.mod_eq_of_lt (by omega)] at hlo
        omega
  · rw [Nat.mod_eq_of_lt (by omega), if_pos ⟨by omega, by omega⟩]
    have hplace : cfg.loadAddr + i - (cfg.loadAddr + n * srv.blkSize) = i - n * srv.blkSize := by
      omega
    rw [hplace, blockBytes_getD (by omega), Nat.add_sub_cancel' hnew]

/-- What a new block leads to: the next state, or the end of the transfer. -/
structure Taken (cfg : TftpConfig) (srv : TftpServer) (n port : Nat) (c c' : Tftp) : Prop where
  ourPort : c'.ourPort = c.ourPort
  serverPort : c'.serverPort = port
  more : (n + 1) * srv.blkSize ≤ srv.file.length → At cfg srv (n + 1) c'
  last : srv.file.length < (n + 1) * srv.blkSize → c'.netState = .success ∧ Complete cfg srv c'

/-- The client before the test for the same block, with a new one. -/
theorem tftpStore_next (hfits : srv.Fits cfg) (hle : n * srv.blkSize ≤ srv.file.length)
    (hnet : c.netState = .loop) (hstate : c.state = .data) (hblk : c.blkSize = srv.blkSize)
    (hblock : c.block = (n + 1) % 65536) (hlast : c.lastBlock ≠ (n + 1) % 65536)
    (hwrap : c.blockWrapOffset = (n + 1) / 65536 * 65536 * srv.blkSize % 2 ^ 32)
    (hsize : c.xferSize = n * srv.blkSize) (hloaded : Loaded cfg srv c (n * srv.blkSize)) :
    (tftpStore cfg c (srv.blockBytes (n + 1))).2 = some (ackPacket (n + 1)) ∧
      Taken cfg srv n c.serverPort c (tftpStore cfg c (srv.blockBytes (n + 1))).1 := by
  have hfit := hfits.2
  have hlen := @length_blockBytes srv n
  have hsucc : (n + 1) * srv.blkSize = n * srv.blkSize + srv.blkSize := Nat.succ_mul _ _
  have hoffset : (((n + 1) % 65536 + 2 ^ 32 - 1) % 2 ^ 32 * srv.blkSize +
      (n + 1) / 65536 * 65536 * srv.blkSize % 2 ^ 32) % 2 ^ 32 = n * srv.blkSize :=
    offset_eq (hle.trans_lt hfit)
  have hnewsize : (n * srv.blkSize + (srv.blockBytes (n + 1)).length) % 2 ^ 32 =
      n * srv.blkSize + (srv.blockBytes (n + 1)).length :=
    Nat.mod_eq_of_lt (by omega)
  have hmax : (if n * srv.blkSize < n * srv.blkSize + (srv.blockBytes (n + 1)).length then
      n * srv.blkSize + (srv.blockBytes (n + 1)).length else n * srv.blkSize) =
      n * srv.blkSize + (srv.blockBytes (n + 1)).length := by
    split
    · rfl
    · omega
  unfold tftpStore storeBlock
  rw [if_neg (by rw [hblock]; exact fun h => hlast h.symm)]
  dsimp only
  rw [hblock, hblk, hwrap, hoffset, hnewsize, hsize, hmax]
  refine ⟨?_, ⟨?_, ?_, ?_, ?_⟩⟩
  · rw [tftpSend, hstate]
    dsimp only
    rw [htons_mod]
    rfl
  · split <;> rfl
  · split <;> rfl
  · intro hmore
    rw [if_neg (by omega)]
    refine ⟨hnet, ?_, rfl, rfl, fun _ => rfl, fun _ => rfl, hmore, ?_, ?_⟩
    · rw [if_neg (Nat.succ_ne_zero n)]
      exact hstate
    · dsimp only
      omega
    · have hall : (n + 1) * srv.blkSize =
          n * srv.blkSize + (srv.blockBytes (n + 1)).length := by
        omega
      rw [hall]
      exact loaded_next hfits hle hloaded rfl
  · intro hend
    rw [if_pos (by omega)]
    refine ⟨rfl, ?_, ?_⟩
    · have hall : srv.file.length = n * srv.blkSize + (srv.blockBytes (n + 1)).length := by
        omega
      rw [hall]
      exact loaded_next hfits hle hloaded rfl
    · dsimp only
      omega

/-! ## The handler -/

/-- A data packet that is not ignored. -/
theorem tftpHandler_data {k : Nat} {data : Bytes} (hsrc : c.state = .rrq ∨ src = c.serverPort) :
    tftpHandler cfg c (htons 3 ++ (htons k ++ data)) c.ourPort src again =
      if c.state = .rrq ∨ c.state = .oack then
        if k % 65536 ≠ 1 then (netStartAgain (tftpFirst (tftpNumber c (k % 65536)) src) again, none)
        else tftpStore cfg (tftpFirst (tftpNumber c (k % 65536)) src) data
      else tftpStore cfg (tftpNumber c (k % 65536)) data := by
  have hsame : (tftpNumber c (k % 65536)).state = c.state := by
    unfold tftpNumber
    split <;> rfl
  have hnumber : (tftpFirst (tftpNumber c (k % 65536)) src).block = k % 65536 := by
    unfold tftpFirst tftpNumber
    split <;> rfl
  unfold tftpHandler
  rw [if_neg (by simp), if_neg (by rintro ⟨hstate, hne⟩; exact hsrc.elim hstate hne),
    if_neg (by rw [length_htons_append]; omega), ntohs_htons, if_neg (by decide),
    if_pos (by decide), drop_htons, tftpData, if_neg (by rw [length_htons_append]; omega),
    ntohs_htons, drop_htons]
  dsimp only
  rw [hsame, hnumber]

theorem tftpHandler_oack {body : Bytes} (hsrc : c.state = .rrq ∨ src = c.serverPort) :
    tftpHandler cfg c (htons 6 ++ body) c.ourPort src again = tftpOack cfg c body src := by
  unfold tftpHandler
  rw [if_neg (by simp), if_neg (by rintro ⟨hstate, hne⟩; exact hsrc.elim hstate hne),
    if_neg (by rw [length_htons_append]; omega), ntohs_htons, if_pos (by decide), drop_htons]

/-- A packet from another port is ignored. -/
theorem tftpHandler_other {pkt : Bytes} (hstate : c.state ≠ .rrq) (hsrc : src ≠ c.serverPort) :
    tftpHandler cfg c pkt c.ourPort src again = (c, none) := by
  unfold tftpHandler
  rw [if_neg (by simp), if_pos ⟨hstate, hsrc⟩]

/-- The first block, as an answer to the request or after an `OACK`. -/
theorem first_next (hfits : srv.Fits cfg) (hnet : c.netState = .loop)
    (hstate : c.state = .rrq ∨ c.state = .oack) (hsrc : c.state = .rrq ∨ src = c.serverPort)
    (hblk : c.blkSize = srv.blkSize) (hsize : c.xferSize = 0) :
    (tftpHandler cfg c (srv.packet 1) c.ourPort src again).2 = some (ackPacket 1) ∧
      Taken cfg srv 0 src c (tftpHandler cfg c (srv.packet 1) c.ourPort src again).1 := by
  have hpacket : srv.packet 1 = htons 3 ++ (htons 1 ++ srv.blockBytes 1) := rfl
  have hnumber : tftpNumber c (1 % 65536) = { c with block := 1 } := by
    rw [tftpNumber, if_neg (by decide)]
  rw [hpacket, tftpHandler_data hsrc, if_pos hstate, if_neg (by decide), hnumber]
  have hloaded : Loaded cfg srv (tftpFirst { c with block := 1 } src) (0 * srv.blkSize) := by
    intro i hi
    rw [Nat.zero_mul] at hi
    exact absurd hi (Nat.not_lt_zero i)
  obtain ⟨hack, htaken⟩ := @tftpStore_next cfg srv (tftpFirst { c with block := 1 } src) 0
    hfits (by omega) hnet rfl hblk rfl (by simp [tftpFirst]) (by simp [tftpFirst])
    (by rw [Nat.zero_mul]; exact hsize) hloaded
  exact ⟨hack, htaken.ourPort, htaken.serverPort, htaken.more, htaken.last⟩

/-- The next packet in order. -/
theorem at_next (hfits : srv.Fits cfg) (hat : At cfg srv n c) :
    (tftpHandler cfg c (srv.packet (n + 1)) c.ourPort c.serverPort again).2 =
        some (ackPacket (n + 1)) ∧
      Taken cfg srv n c.serverPort c
        (tftpHandler cfg c (srv.packet (n + 1)) c.ourPort c.serverPort again).1 := by
  rcases Nat.eq_zero_or_pos n with rfl | hpos
  · exact first_next hfits hat.netState (Or.inr hat.state) (Or.inr rfl) hat.blkSize
      (by rw [hat.size, Nat.zero_mul])
  have hne : n ≠ 0 := by omega
  have hstate : c.state = .data := by
    rw [hat.state, if_neg hne]
  have hpacket : srv.packet (n + 1) =
      htons 3 ++ (htons (n + 1) ++ srv.blockBytes (n + 1)) := by
    rw [TftpServer.packet, if_neg (Nat.succ_ne_zero n)]
  rw [hpacket, tftpHandler_data (Or.inr rfl), if_neg (by simp [hstate])]
  have hlast : c.lastBlock ≠ (n + 1) % 65536 := by
    rw [hat.lastBlock hne]
    omega
  have hwrap := hat.wrapOffset hne
  unfold tftpNumber
  split
  · -- The number wraps, and the offset with it.
    rename_i hzero
    have hnext : (n + 1) / 65536 * 65536 * srv.blkSize =
        n / 65536 * 65536 * srv.blkSize + srv.blkSize * 65536 := by
      have : (n + 1) / 65536 = n / 65536 + 1 := by omega
      rw [this, Nat.add_mul, Nat.one_mul, Nat.add_mul, Nat.mul_comm 65536 srv.blkSize]
    have hwrapped : (c.blockWrapOffset + c.blkSize * tftpSequenceSize) % 2 ^ 32 =
        (n + 1) / 65536 * 65536 * srv.blkSize % 2 ^ 32 := by
      rw [hwrap, hat.blkSize, hnext, tftpSequenceSize, Nat.mod_add_mod]
    have hstored := @tftpStore_next cfg srv
      { c with
        block := (n + 1) % 65536
        blockWrap := (c.blockWrap + 1) % 2 ^ 32
        blockWrapOffset := (c.blockWrapOffset + c.blkSize * tftpSequenceSize) % 2 ^ 32 } n
      hfits hat.le hat.netState hstate hat.blkSize rfl hlast hwrapped hat.size hat.loaded
    exact ⟨hstored.1, hstored.2.ourPort, hstored.2.serverPort, hstored.2.more, hstored.2.last⟩
  · rename_i hnonzero
    have hsame : (n + 1) / 65536 = n / 65536 := by omega
    have hstored := @tftpStore_next cfg srv { c with block := (n + 1) % 65536 } n
      hfits hat.le hat.netState hstate hat.blkSize rfl hlast (by rw [hsame]; exact hwrap) hat.size
      hat.loaded
    exact ⟨hstored.1, hstored.2.ourPort, hstored.2.serverPort, hstored.2.more, hstored.2.last⟩

/-- The same packet again is not stored, but its number is counted. -/
theorem at_same (hat : At cfg srv n c) (hn : n ≠ 0) :
    tftpHandler cfg c (srv.packet n) c.ourPort c.serverPort again =
      (tftpNumber c (n % 65536), none) := by
  have hstate : c.state = .data := by
    rw [hat.state, if_neg hn]
  have hpacket : srv.packet n = htons 3 ++ (htons n ++ srv.blockBytes n) := by
    rw [TftpServer.packet, if_neg hn]
  have hblock : (tftpNumber c (n % 65536)).block = (tftpNumber c (n % 65536)).lastBlock := by
    unfold tftpNumber
    split <;> exact (hat.lastBlock hn).symm
  rw [hpacket, tftpHandler_data (Or.inr rfl), if_neg (by simp [hstate]), tftpStore, if_pos hblock]

theorem at_repeated (hat : At cfg srv n c) (hn : n ≠ 0) (hnumber : n % 65536 ≠ 0) :
    tftpHandler cfg c (srv.packet n) c.ourPort c.serverPort again = (c, none) := by
  rw [at_same hat hn, tftpNumber, if_neg hnumber, ← hat.block]

/-- The last block, wherever it is stored. -/
theorem tftpStore_last {data : Bytes} (hnew : c.block ≠ c.lastBlock)
    (hshort : data.length < c.blkSize) :
    (tftpStore cfg c data).1.netState = .success ∧ (tftpStore cfg c data).1.xferSize =
      (storeBlock cfg c ((c.block + 2 ^ 32 - 1) % 2 ^ 32) data).xferSize := by
  unfold tftpStore
  rw [if_neg hnew]
  dsimp only
  split
  · exact ⟨rfl, rfl⟩
  · rename_i hfull
    exact absurd hshort hfull

/-- An `OACK`, for the first time or again. -/
theorem oack_at (hnet : c.netState = .loop)
    (hsrc : c.state = .rrq ∨ src = c.serverPort)
    (hblk : c.blkSize = tftpBlockSize ∨ c.blkSize = srv.blkSize) (hblock : c.block = 0)
    (hsize : c.xferSize = 0) :
    (tftpHandler cfg c (srv.packet 0) c.ourPort src again).2 = some (ackPacket 0) ∧
      (tftpHandler cfg c (srv.packet 0) c.ourPort src again).1.ourPort = c.ourPort ∧
      (tftpHandler cfg c (srv.packet 0) c.ourPort src again).1.serverPort = src ∧
      At cfg srv 0 (tftpHandler cfg c (srv.packet 0) c.ourPort src again).1 := by
  have hsrv : srv.blkSize = oackBlkSize (srv.options.getD []) tftpBlockSize := by
    unfold TftpServer.blkSize
    cases srv.options <;> rfl
  rw [TftpServer.packet, if_pos rfl, tftpHandler_oack hsrc, tftpOack]
  refine ⟨?_, rfl, rfl, hnet, rfl, ?_, hblock, fun h => absurd rfl h, fun h => absurd rfl h,
    by omega, by rw [Nat.zero_mul]; exact hsize, ?_⟩
  · rw [tftpSend]
    dsimp only
    rw [hblock]
    rfl
  · dsimp only
    rcases hblk with hdefault | hsame
    · rw [hdefault, hsrv]
    · rw [hsame, hsrv, oackBlkSize_twice]
  · intro i hi
    rw [Nat.zero_mul] at hi
    exact absurd hi (Nat.not_lt_zero i)

/-! ## Timeouts -/

theorem Again.netState_ne (again : Again) :
    again.netState ≠ .loop ∧ again.netState ≠ .success := by
  cases again with
  | fail => exact ⟨nofun, nofun⟩
  | restart => exact ⟨nofun, nofun⟩
  | wait => exact ⟨nofun, nofun⟩

/-- What the client sends is the acknowledgement of the last packet that it took. -/
theorem tftpSend_at (hat : At cfg srv n c) : tftpSend cfg c = ackPacket n := by
  unfold tftpSend ackPacket
  rw [hat.state, hat.block, htons_mod]
  by_cases hn : n = 0
  · rw [if_pos hn]
  · rw [if_neg hn]

/-- A timeout sends it again or ends the transfer. -/
theorem at_timeout (hat : At cfg srv n c) :
    ((tftpTimeout cfg c again).1.netState ≠ .loop ∧
        (tftpTimeout cfg c again).1.netState ≠ .success) ∨
      (tftpTimeout cfg c again).2 = some (ackPacket n) ∧
        (tftpTimeout cfg c again).1.serverPort = c.serverPort ∧
        At cfg srv n (tftpTimeout cfg c again).1 := by
  have hcounted : At cfg srv n { c with timeoutCount := c.timeoutCount + 1 } :=
    ⟨hat.netState, hat.state, hat.blkSize, hat.block, hat.lastBlock, hat.wrapOffset, hat.le,
      hat.size, hat.loaded⟩
  unfold tftpTimeout
  dsimp only
  split
  · exact Or.inl again.netState_ne
  · refine Or.inr ⟨?_, rfl, hcounted⟩
    rw [tftpSend_at hcounted]

/-- Before the first packet, it sends the request again. -/
theorem waiting_timeout (hwait : Waiting c) :
    ((tftpTimeout cfg c again).1.netState ≠ .loop ∧
        (tftpTimeout cfg c again).1.netState ≠ .success) ∨
      Waiting (tftpTimeout cfg c again).1 := by
  unfold tftpTimeout
  dsimp only
  split
  · exact Or.inl again.netState_ne
  · exact Or.inr ⟨hwait.netState, hwait.state, hwait.serverPort, hwait.blkSize, hwait.block,
      hwait.size⟩

end UBoot.Net
