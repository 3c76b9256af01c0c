import Mathlib.Data.List.GetD
import UBoot.Lib.Run
import UBoot.Net.Nfs

/-!
# Transfers of the NFS client

A run is any sequence of packets and timeouts.  `acceptedReplies` are the read replies since the
last lookup that the client has taken, and `nfs_transfer` says that they are what a transfer that
ends well has stored.  It holds as long as no reply slips through (`NfsEvent.Slips`): an error is
returned as the negative of `data[0]`, and that may be 0 or more.

`nfsHandler_stale_iff` is about a reply to another request than the last one: no state ignores it.
-/

namespace UBoot.Net

open UBoot.Lib

/-- What happens to the client. -/
inductive NfsEvent
  | packet (pkt : NfsPacket) (stack : Contents) (dest : Nat)
  | timeout (again : Again)

/-- The call for an event. -/
def nfsCall (cfg : NfsConfig) (c : Nfs) : NfsEvent → Option (Nfs × Option RpcCall)
  | .packet pkt stack dest => nfsHandler cfg c pkt stack dest
  | .timeout again => nfsTimeout c again

/-- `NetLoop` calls the client until `NetState` is changed. -/
def nfsStep (cfg : NfsConfig) (c : Nfs) (ev : NfsEvent) : Option Nfs :=
  if c.netState = .loop then (nfsCall cfg c ev).map Prod.fst else none

/-! ## Replies -/

/-- The part of the receive buffer that `nfs_read_reply` looks at. -/
def NfsPacket.reply (pkt : NfsPacket) : Contents :=
  storeAt (fun _ => 0) 0 ((pkt.data ++ pkt.behind).take sizeofReply)

/-- The count of a read reply. -/
def NfsPacket.count (pkt : NfsPacket) : Nat := (replyData pkt.reply 18).toNat

/-- What a read reply has in the receive buffer for its count. -/
def NfsPacket.stored (pkt : NfsPacket) : Bytes :=
  ((pkt.data ++ pkt.behind).drop sizeofReply).take pkt.count

/-- A packet with as many bytes of data as its count says. -/
def NfsPacket.Whole (pkt : NfsPacket) : Prop := sizeofReply + pkt.count ≤ pkt.data.length

/-- The status of a reply, `data[0]` included. -/
def Good (p : Contents) : Prop :=
  replyRstatus p = 0 ∧ replyVerifier p = 0 ∧ replyAstatus p = 0 ∧ replyData p 0 = 0

instance (p : Contents) : Decidable (Good p) := inferInstanceAs (Decidable (_ ∧ _))

/-- An accepted read reply. -/
def NfsPacket.Accepted (pkt : NfsPacket) (c : Nfs) (dest : Nat) : Prop :=
  dest = c.ourPort ∧ c.state = .readReq ∧ replyId pkt.reply = c.rpcId ∧ Good pkt.reply

instance (pkt : NfsPacket) (c : Nfs) (dest : Nat) : Decidable (pkt.Accepted c dest) :=
  inferInstanceAs (Decidable (_ ∧ _))

/-- The reply to a lookup that succeeds. -/
def NfsPacket.Found (pkt : NfsPacket) (stack : Contents) (c : Nfs) (dest : Nat) : Prop :=
  dest = c.ourPort ∧ c.state = .lookupReq ∧ replyId (storeAt stack 0 pkt.data) = c.rpcId ∧
    Good (storeAt stack 0 pkt.data)

instance (pkt : NfsPacket) (stack : Contents) (c : Nfs) (dest : Nat) :
    Decidable (pkt.Found stack c dest) := inferInstanceAs (Decidable (_ ∧ _))

/-- The accepted read replies since the last lookup, after one more event. -/
def noteReply (replies : List NfsPacket) (c : Nfs) : NfsEvent → List NfsPacket
  | .packet pkt stack dest =>
    if pkt.Found stack c dest then []
    else if pkt.Accepted c dest then replies ++ [pkt]
    else replies
  | .timeout _ => replies

/-- The accepted read replies since the last lookup that has succeeded. -/
def acceptedReplies (tr : List (Nfs × NfsEvent)) : List NfsPacket :=
  tr.foldl (fun replies p => noteReply replies p.1 p.2) []

/-- A read reply with an error, which is returned as a number of bytes: `verifier` is set and
nothing else, or `data[0]` is more than 2^31. -/
def NfsEvent.Slips (c : Nfs) : NfsEvent → Prop
  | .packet pkt _ dest => dest = c.ourPort ∧ c.state = .readReq ∧ replyId pkt.reply = c.rpcId ∧
      ¬ Good pkt.reply ∧ replyRstatus pkt.reply = 0 ∧ replyAstatus pkt.reply = 0 ∧
      0 ≤ toInt (-replyData pkt.reply 0)
  | .timeout _ => False

/-! ## What a transfer stores -/

/-- The data of the replies is what has been stored. -/
structure Transferred (cfg : NfsConfig) (replies : List NfsPacket) (c : Nfs) : Prop where
  count : ∀ r ∈ replies, r.stored.length = r.count
  offset : c.offset = ((replies.map NfsPacket.stored).flatten.length : Int)
  mem : ∀ i, i < (replies.map NfsPacket.stored).flatten.length →
    c.mem ((cfg.loadAddr + i) % 2 ^ 32) = (replies.map NfsPacket.stored).flatten.getD i 0

/-- The last reply is the end of the file. -/
def NfsComplete (cfg : NfsConfig) (replies : List NfsPacket) (c : Nfs) : Prop :=
  Transferred cfg replies c ∧ ∃ init last, replies = init ++ [last] ∧ last.count = 0

section Lemmas

variable {cfg : NfsConfig} {c c' : Nfs} {pkt : NfsPacket} {stack p : Contents} {dest : Nat}
  {rc : Int} {sent : Option RpcCall} {prog : UInt32} {replies : List NfsPacket} {ev : NfsEvent}

/-- The data of a whole packet are bytes of the packet. -/
theorem NfsPacket.stored_of_whole (h : pkt.Whole) :
    pkt.stored = (pkt.data.drop sizeofReply).take pkt.count := by
  unfold NfsPacket.Whole at h
  unfold NfsPacket.stored
  rw [List.drop_append_of_le_length (by omega), List.take_append_of_le_length]
  rw [List.length_drop]
  omega

/-! ## What is sent -/

theorem rpcReq_frame {proc : UInt32} {data : Bytes}
    (h : rpcReq c prog proc data = some (c', sent)) : ∃ id, c' = { c with rpcId := id } := by
  unfold rpcReq at h
  split at h
  · cases h
  · cases h
    exact ⟨_, rfl⟩

/-- Only `rpc_id` is changed when a request is sent. -/
theorem nfsSend_frame (h : nfsSend c = some (c', sent)) : ∃ id, c' = { c with rpcId := id } := by
  unfold nfsSend at h
  split at h
  · exact rpcReq_frame h
  · exact rpcReq_frame h
  · exact rpcReq_frame h
  · unfold nfsUmountallReq at h
    split at h
    · cases h
      exact ⟨c.rpcId, rfl⟩
    · exact rpcReq_frame h
  · exact rpcReq_frame h
  · exact rpcReq_frame h
  · exact rpcReq_frame h

/-! ## What a reply changes -/

theorem rpcPkt_eq (h : rpcPkt pkt stack = some p) : p = storeAt stack 0 pkt.data := by
  unfold rpcPkt at h
  split at h
  · cases h
  · cases h
    rfl

theorem rpcLookupReply_frame (h : rpcLookupReply c prog pkt stack = some (rc, c')) :
    ∃ mount nfs, c' = { c with srvMountPort := mount, srvNfsPort := nfs } := by
  obtain ⟨p, -, h⟩ := Option.bind_eq_some_iff.mp h
  split_ifs at h <;> cases h <;> exact ⟨_, _, rfl⟩

theorem nfsMountReply_frame (h : nfsMountReply c pkt stack = some (rc, c')) :
    ∃ mounted fh, c' = { c with fsMounted := mounted, dirfh := fh } := by
  obtain ⟨p, -, h⟩ := Option.bind_eq_some_iff.mp h
  split_ifs at h <;> cases h <;> exact ⟨_, _, rfl⟩

theorem nfsUmountallReply_frame (h : nfsUmountallReply c pkt stack = some (rc, c')) :
    ∃ mounted fh, c' = { c with fsMounted := mounted, dirfh := fh } := by
  obtain ⟨p, -, h⟩ := Option.bind_eq_some_iff.mp h
  split_ifs at h <;> cases h <;> exact ⟨_, _, rfl⟩

theorem nfsReadlinkReply_frame (h : nfsReadlinkReply c pkt stack = some (rc, c')) :
    ∃ path, c' = { c with path := path } := by
  obtain ⟨p, -, h⟩ := Option.bind_eq_some_iff.mp h
  dsimp only at h
  split at h
  · cases h
    exact ⟨c.path, rfl⟩
  split at h
  · cases h
    exact ⟨c.path, rfl⟩
  split at h <;> split at h
  · cases h
  · cases h
    exact ⟨_, rfl⟩
  · cases h
  · cases h
    exact ⟨_, rfl⟩

theorem not_good_iff : ¬ Good p ↔ replyRstatus p ≠ 0 ∨ replyVerifier p ≠ 0 ∨ replyAstatus p ≠ 0 ∨
    replyData p 0 ≠ 0 := by
  unfold Good
  rw [not_and_or, not_and_or, not_and_or]

/-- The reply to a lookup. -/
theorem nfsLookupReply_cases (h : nfsLookupReply c pkt stack = some (rc, c')) :
    (∃ fh, c' = { c with filefh := fh }) ∧ (rc = 0 ↔
      replyId (storeAt stack 0 pkt.data) = c.rpcId ∧ Good (storeAt stack 0 pkt.data)) := by
  obtain ⟨p, hp, h⟩ := Option.bind_eq_some_iff.mp h
  obtain rfl := rpcPkt_eq hp
  split_ifs at h with hid hbad
  · cases h
    exact ⟨⟨c.filefh, rfl⟩, iff_of_false (by decide) fun hgood => hid hgood.1⟩
  · cases h
    exact ⟨⟨c.filefh, rfl⟩, iff_of_false (by decide) fun hgood => not_good_iff.mpr hbad hgood.2⟩
  · cases h
    refine ⟨⟨_, rfl⟩, iff_of_true rfl ⟨not_not.mp hid, ?_⟩⟩
    exact not_not.mp fun hgood => hbad (not_good_iff.mp hgood)

/-! ## What is stored -/

theorem toInt_of_lt {n : UInt32} (h : n.toNat < 2 ^ 31) : toInt n = n.toNat := if_pos h

theorem toNat_ofInt {n : Int} (h0 : 0 ≤ n) (h : n < 2 ^ 31) : (ofInt n).toNat = n.toNat := by
  unfold ofInt
  rw [UInt32.toNat_ofNat', Int.emod_eq_of_lt h0 (by omega), Nat.mod_eq_of_lt (by omega)]

theorem NfsPacket.read_eq {i n : Nat} {s : Bytes} (h : pkt.read i n = some s) :
    s = ((pkt.data ++ pkt.behind).drop i).take n ∧ s.length = n ∧ n < 2 ^ 31 := by
  have hroom := pkt.room
  unfold NfsPacket.read at h
  split at h
  · cases h
  · rename_i hle
    cases h
    rw [List.length_append] at hle
    refine ⟨rfl, ?_, by omega⟩
    rw [List.length_take, List.length_drop, List.length_append]
    omega

/-- What is stored behind the data of the replies so far is the data of the next one. -/
theorem Transferred.store {dest : Nat} (h : Transferred cfg replies c)
    (hdest : dest = (cfg.loadAddr + (ofInt c.offset).toNat) % 2 ^ 32)
    (hcount : pkt.stored.length = pkt.count) (hroom : dest + pkt.count ≤ 2 ^ 32)
    (hoffset : c.offset + pkt.count < 2 ^ 31)
    (hmem : c'.mem = storeAt c.mem dest pkt.stored) (hnew : c'.offset = c.offset + pkt.count) :
    Transferred cfg (replies ++ [pkt]) c' := by
  have hflat : ((replies ++ [pkt]).map NfsPacket.stored).flatten =
      (replies.map NfsPacket.stored).flatten ++ pkt.stored := by
    rw [List.map_append, List.flatten_append, List.map_singleton, List.flatten_singleton]
  have hold := h.offset
  generalize hfile : (replies.map NfsPacket.stored).flatten = file at *
  rw [toNat_ofInt (by omega) (by omega)] at hdest
  refine ⟨?_, ?_, ?_⟩
  · intro r hr
    rcases List.mem_append.mp hr with hr | hr
    · exact h.count r hr
    · rw [List.mem_singleton.mp hr]
      exact hcount
  · rw [hflat, List.length_append, hnew, hold, hcount, Int.natCast_add]
  · intro i hi
    rw [hflat, List.length_append] at hi
    rw [hflat, hmem, storeAt]
    by_cases hin : i < file.length
    · have hout : ¬ InRange dest pkt.stored.length ((cfg.loadAddr + i) % 2 ^ 32) := by
        unfold InRange
        omega
      rw [if_neg hout, List.getD_append _ _ _ _ hin]
      have hread := h.mem i
      rw [hfile] at hread
      exact hread hin
    · have hrange : InRange dest pkt.stored.length ((cfg.loadAddr + i) % 2 ^ 32) := by
        unfold InRange
        omega
      rw [if_pos hrange, List.getD_append_right _ _ _ _ (by omega)]
      congr 1
      omega

/-- A read reply that is not accepted. -/
theorem nfsReadReply_error (hgood : ¬ (replyId pkt.reply = c.rpcId ∧ Good pkt.reply))
    (h : nfsReadReply cfg c pkt = some (rc, c')) : c' = c ∧ (rc < 0 ∨
      replyId pkt.reply = c.rpcId ∧ replyRstatus pkt.reply = 0 ∧ replyAstatus pkt.reply = 0 ∧
        rc = toInt (-replyData pkt.reply 0)) := by
  obtain ⟨s, hs, h⟩ := Option.bind_eq_some_iff.mp h
  obtain ⟨hs, -, -⟩ := NfsPacket.read_eq hs
  have hreply : storeAt (fun _ => 0) 0 s = pkt.reply := by
    rw [hs, List.drop_zero]
    rfl
  dsimp only at h
  rw [hreply] at h
  split_ifs at h with hid hbad hr ha
  · cases h
    exact ⟨rfl, Or.inl (by decide)⟩
  · cases h
    exact ⟨rfl, Or.inl (by decide)⟩
  · cases h
    exact ⟨rfl, Or.inl (by decide)⟩
  · cases h
    exact ⟨rfl, Or.inr ⟨not_not.mp hid, not_not.mp hr, not_not.mp ha, rfl⟩⟩
  · exact absurd ⟨not_not.mp hid, not_not.mp fun hg => hbad (not_good_iff.mp hg)⟩ hgood

/-- An accepted read reply. -/
theorem nfsReadReply_accepted (hid : replyId pkt.reply = c.rpcId) (hgood : Good pkt.reply)
    (h : nfsReadReply cfg c pkt = some (rc, c')) : pkt.stored.length = pkt.count ∧
      rc = pkt.count ∧ ∃ dest size, dest = (cfg.loadAddr + (ofInt c.offset).toNat) % 2 ^ 32 ∧
        dest + pkt.count ≤ 2 ^ 32 ∧
        c' = { c with mem := storeAt c.mem dest pkt.stored, xferSize := size } := by
  obtain ⟨s, hs, h⟩ := Option.bind_eq_some_iff.mp h
  obtain ⟨hs, -, -⟩ := NfsPacket.read_eq hs
  have hreply : storeAt (fun _ => 0) 0 s = pkt.reply := by
    rw [hs, List.drop_zero]
    rfl
  dsimp only at h
  rw [hreply, if_neg (not_not.mpr hid), if_neg fun hbad => not_good_iff.mpr hbad hgood] at h
  obtain ⟨data, hdata, h⟩ := Option.bind_eq_some_iff.mp h
  obtain ⟨hdata, hlength, hlt⟩ := NfsPacket.read_eq hdata
  have hstored : data = pkt.stored := hdata
  subst hstored
  obtain ⟨c₁, hstore, h⟩ := Option.bind_eq_some_iff.mp h
  cases h
  unfold nfsStoreBlock at hstore
  dsimp only at hstore
  split at hstore
  · cases hstore
  rename_i hroom
  cases hstore
  refine ⟨hlength, toInt_of_lt hlt, _, _, rfl, ?_, rfl⟩
  rw [← show pkt.stored.length = pkt.count from hlength]
  omega

/-! ## Runs -/

/-- What holds of the client and the replies that it has accepted. -/
structure NfsInv (cfg : NfsConfig) (replies : List NfsPacket) (c : Nfs) : Prop where
  download : c.downloadState = .fail ∨
    c.downloadState = .success ∧ c.state = .umountReq ∧ NfsComplete cfg replies c
  reading : c.state = .readReq → Transferred cfg replies c
  ended : c.netState = .success → c.downloadState = .success

/-- Nothing of this is changed. -/
structure NfsKept (c c' : Nfs) : Prop where
  download : c'.downloadState = c.downloadState
  offset : c'.offset = c.offset
  mem : c'.mem = c.mem
  netState : c'.netState = c.netState

theorem Transferred.kept (h : Transferred cfg replies c) (hkept : NfsKept c c') :
    Transferred cfg replies c' := by
  refine ⟨h.count, ?_, ?_⟩
  · rw [hkept.offset]
    exact h.offset
  · rw [hkept.mem]
    exact h.mem

/-- A step between two states of the client that reads nothing. -/
theorem NfsInv.kept (h : NfsInv cfg replies c) (hkept : NfsKept c c')
    (hread : c'.state = .readReq → c.state = .readReq)
    (humount : c.state = .umountReq → c'.state = .umountReq) : NfsInv cfg replies c' := by
  refine ⟨?_, fun hstate => (h.reading (hread hstate)).kept hkept, ?_⟩
  · rw [hkept.download]
    rcases h.download with hfail | ⟨hsuccess, hstate, htransferred, hlast⟩
    · exact Or.inl hfail
    · exact Or.inr ⟨hsuccess, humount hstate, htransferred.kept hkept, hlast⟩
  · rw [hkept.netState, hkept.download]
    exact h.ended

/-- What a packet does. -/
inductive NfsOutcome (cfg : NfsConfig) (c : Nfs) (pkt : NfsPacket) (stack : Contents) (dest : Nat)
    (c' : Nfs) : Prop
  | quiet (kept : NfsKept c c') (read : c'.state = .readReq → c.state = .readReq)
      (umount : c.state = .umountReq → c'.state = .umountReq) (notFound : ¬ pkt.Found stack c dest)
      (notAccepted : ¬ pkt.Accepted c dest)
  | ended (state : c.state = .umountReq) {m : Bool} {fh : Bytes} {ns : NetState}
      (eq : c' = { c with fsMounted := m, dirfh := fh, netState := ns })
      (netState : ns = .fail ∨ ns = c.downloadState)
  | found (is : pkt.Found stack c dest) (offset : c'.offset = 0) (state : c'.state = .readReq)
      (download : c'.downloadState = c.downloadState) (netState : c'.netState = c.netState)
  | stored (is : pkt.Accepted c dest) (pos : 0 < pkt.count) (state : c'.state = .readReq)
      (download : c'.downloadState = c.downloadState) (netState : c'.netState = c.netState)
      (transferred : ∀ replies, Transferred cfg replies c → Transferred cfg (replies ++ [pkt]) c')
  | eof (is : pkt.Accepted c dest) (zero : pkt.count = 0) (state : c'.state = .umountReq)
      (download : c'.downloadState = .success) (netState : c'.netState = c.netState)
      (transferred : ∀ replies, Transferred cfg replies c → Transferred cfg (replies ++ [pkt]) c')
  | slips (is : NfsEvent.Slips c (.packet pkt stack dest))

/-- A packet in a state that neither looks up nor reads. -/
theorem not_found_of_ne (h : c.state ≠ .lookupReq) : ¬ pkt.Found stack c dest :=
  fun hfound => h hfound.2.1

theorem not_accepted_of_ne (h : c.state ≠ .readReq) : ¬ pkt.Accepted c dest :=
  fun haccepted => h haccepted.2.1

/-- A request is sent in another state. -/
theorem quiet_of_send {c₁ : Nfs} (h : nfsSend c₁ = some (c', sent)) (hkept : NfsKept c c₁)
    (hread : c₁.state ≠ .readReq) (humount : c.state ≠ .umountReq)
    (hlookup : ¬ pkt.Found stack c dest) (haccepted : ¬ pkt.Accepted c dest) :
    NfsOutcome cfg c pkt stack dest c' := by
  obtain ⟨id, rfl⟩ := nfsSend_frame h
  refine .quiet ⟨hkept.download, hkept.offset, hkept.mem, hkept.netState⟩ ?_ ?_ hlookup haccepted
  · exact fun hstate => absurd hstate hread
  · exact fun hstate => absurd hstate humount

theorem nfsHandler_readReq (hdest : dest = c.ourPort) (hstate : c.state = .readReq) {c₁ : Nfs}
    (hreply : nfsReadReply cfg c pkt = some (rc, c₁))
    (h : nfsReadResult c₁ rc = some (c', sent)) : NfsOutcome cfg c pkt stack dest c' := by
  have hnot : ¬ pkt.Found stack c dest := not_found_of_ne (by rw [hstate]; decide)
  have humount : c.state ≠ .umountReq := by
    rw [hstate]
    decide
  unfold nfsReadResult at h
  by_cases hgood : replyId pkt.reply = c.rpcId ∧ Good pkt.reply
  · have haccepted : pkt.Accepted c dest := ⟨hdest, hstate, hgood⟩
    obtain ⟨hlength, rfl, at_, size, hat, hroom, rfl⟩ :=
      nfsReadReply_accepted hgood.1 hgood.2 hreply
    by_cases hpos : 0 < pkt.count
    · rw [if_pos (by omega)] at h
      split at h
      · cases h
      rename_i hsmall
      obtain ⟨id, rfl⟩ := nfsSend_frame h
      refine .stored haccepted hpos hstate rfl rfl fun replies htransferred => ?_
      exact htransferred.store hat hlength hroom (Int.not_le.mp hsmall) rfl rfl
    · have hzero : pkt.count = 0 := Nat.eq_zero_of_not_pos hpos
      have hrc : (pkt.count : Int) = 0 := by omega
      rw [if_neg (by omega), if_neg (by rw [hrc]; decide), if_pos hrc] at h
      obtain ⟨id, rfl⟩ := nfsSend_frame h
      refine .eof haccepted hzero rfl rfl rfl fun replies htransferred => ?_
      have hoffset := htransferred.offset
      have hnil : pkt.stored = [] := List.eq_nil_of_length_eq_zero (hlength.trans hzero)
      have hflat : ((replies ++ [pkt]).map NfsPacket.stored).flatten =
          (replies.map NfsPacket.stored).flatten := by
        rw [List.map_append, List.flatten_append, List.map_singleton, List.flatten_singleton, hnil,
          List.append_nil]
      refine ⟨?_, ?_, ?_⟩
      · intro r hr
        rcases List.mem_append.mp hr with hr | hr
        · exact htransferred.count r hr
        · rw [List.mem_singleton.mp hr]
          exact hlength
      · rw [hflat]
        exact hoffset
      · intro i hi
        rw [hflat] at hi ⊢
        rw [← htransferred.mem i hi, hnil]
        exact if_neg fun hrange => absurd hrange.2 (not_lt.mpr hrange.1)
  · have hnone : ¬ pkt.Accepted c dest := fun haccepted => hgood haccepted.2.2
    obtain ⟨rfl, herror⟩ := nfsReadReply_error hgood hreply
    by_cases hneg : rc < 0
    · rw [if_neg (by omega)] at h
      split at h
      · exact quiet_of_send h ⟨rfl, rfl, rfl, rfl⟩ nofun humount hnot hnone
      · rw [if_neg (by omega)] at h
        dsimp only at h
        exact quiet_of_send h ⟨rfl, rfl, rfl, rfl⟩ nofun humount hnot hnone
    · obtain ⟨hid, hr, ha, rfl⟩ := herror.resolve_left hneg
      exact .slips ⟨hdest, hstate, hid, fun hg => hgood ⟨hid, hg⟩, hr, ha, Int.not_lt.mp hneg⟩

/-- **What `NfsHandler` does**, state by state. -/
theorem nfsHandler_outcome (h : nfsHandler cfg c pkt stack dest = some (c', sent)) :
    NfsOutcome cfg c pkt stack dest c' := by
  unfold nfsHandler at h
  split at h
  · rename_i hdest
    cases h
    refine .quiet ⟨rfl, rfl, rfl, rfl⟩ id id ?_ ?_
    · exact fun hfound => hdest hfound.1
    · exact fun haccepted => hdest haccepted.1
  rename_i hdest
  have hdest : dest = c.ourPort := not_not.mp hdest
  have hstates : ∀ {st}, c.state = st → st ≠ .lookupReq → st ≠ .readReq →
      ¬ pkt.Found stack c dest ∧ ¬ pkt.Accepted c dest := by
    rintro st rfl hlookup hread
    exact ⟨not_found_of_ne hlookup, not_accepted_of_ne hread⟩
  have hmoves : ∀ {st}, c.state = st → st ≠ .umountReq → c.state ≠ .umountReq := by
    rintro st rfl hst
    exact hst
  split at h
  · rename_i hstate
    obtain ⟨hfound, haccepted⟩ := hstates hstate (by decide) (by decide)
    obtain ⟨⟨rc, c₁⟩, hreply, h⟩ := Option.bind_eq_some_iff.mp h
    obtain ⟨mount, nfs, rfl⟩ := rpcLookupReply_frame hreply
    dsimp only at h
    exact quiet_of_send h ⟨rfl, rfl, rfl, rfl⟩ nofun (hmoves hstate (by decide)) hfound
      haccepted
  · rename_i hstate
    obtain ⟨hfound, haccepted⟩ := hstates hstate (by decide) (by decide)
    obtain ⟨⟨rc, c₁⟩, hreply, h⟩ := Option.bind_eq_some_iff.mp h
    obtain ⟨mount, nfs, rfl⟩ := rpcLookupReply_frame hreply
    dsimp only at h
    exact quiet_of_send h ⟨rfl, rfl, rfl, rfl⟩ nofun (hmoves hstate (by decide)) hfound
      haccepted
  · rename_i hstate
    obtain ⟨hfound, haccepted⟩ := hstates hstate (by decide) (by decide)
    obtain ⟨⟨rc, c₁⟩, hreply, h⟩ := Option.bind_eq_some_iff.mp h
    obtain ⟨mounted, fh, rfl⟩ := nfsMountReply_frame hreply
    dsimp only at h
    split at h
    · exact quiet_of_send h ⟨rfl, rfl, rfl, rfl⟩ nofun (hmoves hstate (by decide)) hfound
        haccepted
    · exact quiet_of_send h ⟨rfl, rfl, rfl, rfl⟩ nofun (hmoves hstate (by decide)) hfound
        haccepted
  · rename_i hstate
    obtain ⟨⟨rc, c₁⟩, hreply, h⟩ := Option.bind_eq_some_iff.mp h
    obtain ⟨mounted, fh, rfl⟩ := nfsUmountallReply_frame hreply
    dsimp only at h
    split at h
    · cases h
      exact .ended hstate rfl (Or.inl rfl)
    · cases h
      exact .ended hstate rfl (Or.inr rfl)
  · rename_i hstate
    have haccepted : ¬ pkt.Accepted c dest := not_accepted_of_ne (by rw [hstate]; decide)
    obtain ⟨⟨rc, c₁⟩, hreply, h⟩ := Option.bind_eq_some_iff.mp h
    obtain ⟨⟨fh, rfl⟩, hzero⟩ := nfsLookupReply_cases hreply
    dsimp only at h
    split at h
    · rename_i hne
      have hfound : ¬ pkt.Found stack c dest := fun hfound => hne (hzero.mpr hfound.2.2)
      exact quiet_of_send h ⟨rfl, rfl, rfl, rfl⟩ nofun (hmoves hstate (by decide)) hfound
        haccepted
    · rename_i hrc
      obtain ⟨id, rfl⟩ := nfsSend_frame h
      exact .found ⟨hdest, hstate, hzero.mp (not_not.mp hrc)⟩ rfl rfl rfl rfl
  · rename_i hstate
    obtain ⟨hfound, haccepted⟩ := hstates hstate (by decide) (by decide)
    obtain ⟨⟨rc, c₁⟩, hreply, h⟩ := Option.bind_eq_some_iff.mp h
    obtain ⟨path, rfl⟩ := nfsReadlinkReply_frame hreply
    dsimp only at h
    split at h
    · exact quiet_of_send h ⟨rfl, rfl, rfl, rfl⟩ nofun (hmoves hstate (by decide)) hfound
        haccepted
    · obtain ⟨filename, -, h⟩ := Option.bind_eq_some_iff.mp h
      obtain ⟨dir, -, h⟩ := Option.bind_eq_some_iff.mp h
      exact quiet_of_send h ⟨rfl, rfl, rfl, rfl⟩ nofun (hmoves hstate (by decide)) hfound
        haccepted
  · rename_i hstate
    obtain ⟨⟨rlen, c₁⟩, hreply, h⟩ := Option.bind_eq_some_iff.mp h
    exact nfsHandler_readReq hdest hstate hreply h

theorem NfsInv.fail_of_ne (h : NfsInv cfg replies c) (hstate : c.state ≠ .umountReq) :
    c.downloadState = .fail := by
  rcases h.download with hfail | ⟨-, humount, -⟩
  · exact hfail
  · exact absurd humount hstate

theorem NfsInv.packet (hinv : NfsInv cfg replies c)
    (hslip : ¬ NfsEvent.Slips c (.packet pkt stack dest))
    (h : nfsHandler cfg c pkt stack dest = some (c', sent)) :
    NfsInv cfg (noteReply replies c (.packet pkt stack dest)) c' := by
  rw [noteReply]
  cases nfsHandler_outcome h with
  | quiet kept read umount notFound notAccepted =>
    rw [if_neg notFound, if_neg notAccepted]
    exact hinv.kept kept read umount
  | @ended state m fh ns eq netState =>
    have hfound : ¬ pkt.Found stack c dest := not_found_of_ne (by rw [state]; decide)
    have haccepted : ¬ pkt.Accepted c dest := not_accepted_of_ne (by rw [state]; decide)
    rw [if_neg hfound, if_neg haccepted, eq]
    refine ⟨?_, ?_, ?_⟩
    · rcases hinv.download with hfail | ⟨hsuccess, -, htransferred, hlast⟩
      · exact Or.inl hfail
      · exact Or.inr ⟨hsuccess, state, ⟨htransferred.count, htransferred.offset,
          htransferred.mem⟩, hlast⟩
    · intro hread
      exact absurd (state.symm.trans hread) (by decide)
    · intro hsuccess
      rcases netState with hns | hns
      · exact absurd (hns.symm.trans hsuccess) (by decide)
      · exact hns.symm.trans hsuccess
  | found is offset state download netState =>
    have hfail := hinv.fail_of_ne (by rw [is.2.1]; decide)
    rw [if_pos is]
    refine ⟨Or.inl (download.trans hfail), fun _ => ⟨?_, offset, ?_⟩, ?_⟩
    · intro r hr
      cases hr
    · intro i hi
      cases hi
    · intro hsuccess
      exact download.trans (hinv.ended (netState.symm.trans hsuccess))
  | stored is pos state download netState transferred =>
    have hfail := hinv.fail_of_ne (by rw [is.2.1]; decide)
    have hfound : ¬ pkt.Found stack c dest := not_found_of_ne (by rw [is.2.1]; decide)
    rw [if_neg hfound, if_pos is]
    refine ⟨Or.inl (download.trans hfail), fun _ => transferred _ (hinv.reading is.2.1), ?_⟩
    intro hsuccess
    exact download.trans (hinv.ended (netState.symm.trans hsuccess))
  | eof is zero state download netState transferred =>
    have hfound : ¬ pkt.Found stack c dest := not_found_of_ne (by rw [is.2.1]; decide)
    rw [if_neg hfound, if_pos is]
    refine ⟨Or.inr ⟨download, state, transferred _ (hinv.reading is.2.1), replies, pkt, rfl, zero⟩,
      ?_, fun _ => download⟩
    intro hread
    exact absurd (state.symm.trans hread) (by decide)
  | slips is => exact absurd is hslip

theorem NfsInv.timeout {again : Again} (hinv : NfsInv cfg replies c)
    (h : nfsTimeout c again = some (c', sent)) : NfsInv cfg replies c' := by
  unfold nfsTimeout at h
  dsimp only at h
  split at h
  · cases h
    refine ⟨?_, ?_, ?_⟩
    · rcases hinv.download with hfail | ⟨hsuccess, hstate, htransferred, hlast⟩
      · exact Or.inl hfail
      · exact Or.inr ⟨hsuccess, hstate, ⟨htransferred.count, htransferred.offset,
          htransferred.mem⟩, hlast⟩
    · intro hread
      obtain ⟨hcount, hoffset, hmem⟩ := hinv.reading hread
      exact ⟨hcount, hoffset, hmem⟩
    · intro hsuccess
      cases again <;> cases hsuccess
  · obtain ⟨id, rfl⟩ := nfsSend_frame h
    exact hinv.kept ⟨rfl, rfl, rfl, rfl⟩ (fun hread => hread) fun humount => humount

/-- One step. -/
theorem NfsInv.step (hinv : NfsInv cfg replies c) (hslip : ¬ ev.Slips c)
    (h : nfsStep cfg c ev = some c') : NfsInv cfg (noteReply replies c ev) c' := by
  unfold nfsStep at h
  split at h
  · obtain ⟨⟨c₁, sent⟩, hcall, rfl⟩ := Option.map_eq_some_iff.mp h
    cases ev with
    | packet pkt stack dest => exact hinv.packet hslip hcall
    | timeout again => exact hinv.timeout hcall
  · cases h

theorem nfsStart_inv (hloop : c.netState = .loop) (h : nfsStart cfg c = some (c', sent)) :
    NfsInv cfg [] c' := by
  obtain ⟨filename, -, h⟩ := Option.bind_eq_some_iff.mp h
  obtain ⟨path, -, h⟩ := Option.bind_eq_some_iff.mp h
  obtain ⟨id, rfl⟩ := nfsSend_frame h
  refine ⟨Or.inl rfl, nofun, fun hsuccess => ?_⟩
  have hnet : c.netState = .success := hsuccess
  rw [hloop] at hnet
  cases hnet

/-- Only an accepted reply without data ends the transfer. -/
theorem ends_of_success (hslip : ¬ ev.Slips c) (h : nfsStep cfg c ev = some c')
    (hfail : c.downloadState ≠ .success) (hsuccess : c'.downloadState = .success) :
    ∃ pkt stack dest, ev = .packet pkt stack dest ∧ pkt.Accepted c dest ∧ pkt.count = 0 := by
  unfold nfsStep at h
  split at h
  swap
  · cases h
  obtain ⟨⟨c₁, sent⟩, hcall, rfl⟩ := Option.map_eq_some_iff.mp h
  cases ev with
  | packet pkt stack dest =>
    cases nfsHandler_outcome hcall with
    | quiet kept => exact absurd (kept.download.symm.trans hsuccess) hfail
    | ended state eq =>
      have hsame : c₁.downloadState = c.downloadState := by rw [eq]
      exact absurd (hsame.symm.trans hsuccess) hfail
    | found is offset state download => exact absurd (download.symm.trans hsuccess) hfail
    | stored is pos state download => exact absurd (download.symm.trans hsuccess) hfail
    | eof is zero => exact ⟨pkt, stack, dest, rfl, is, zero⟩
    | slips is => exact absurd is hslip
  | timeout again =>
    unfold nfsCall nfsTimeout at hcall
    dsimp only at hcall
    split at hcall
    · cases hcall
      exact absurd hsuccess hfail
    · obtain ⟨id, rfl⟩ := nfsSend_frame hcall
      exact absurd hsuccess hfail

/-- The RPC xid of a packet. -/
def NfsPacket.xid (pkt : NfsPacket) : UInt32 := ntohl (fun i => pkt.data.getD i 0) 0

/-- What a stale reply must leave as it is. -/
structure NfsUnchanged (c c' : Nfs) : Prop where
  state : c'.state = c.state
  srvMountPort : c'.srvMountPort = c.srvMountPort
  srvNfsPort : c'.srvNfsPort = c.srvNfsPort
  dirfh : c'.dirfh = c.dirfh
  filefh : c'.filefh = c.filefh
  offset : c'.offset = c.offset
  path : c'.path = c.path
  netState : c'.netState = c.netState
  mem : c'.mem = c.mem

theorem ntohl_congr {q : Contents} (h : ∀ i < 4, p i = q i) : ntohl p 0 = ntohl q 0 := by
  unfold ntohl word
  rw [h 0 (by decide), h (0 + 1) (by decide), h (0 + 2) (by decide), h (0 + 2 + 1) (by decide)]

theorem replyId_storeAt {s : Bytes} (h : 4 ≤ s.length)
    (hs : ∀ i < 4, s.getD i 0 = pkt.data.getD i 0) : replyId (storeAt p 0 s) = pkt.xid := by
  refine ntohl_congr fun i hi => ?_
  rw [storeAt, if_pos ⟨Nat.zero_le i, by omega⟩, Nat.sub_zero]
  exact hs i hi

theorem replyId_reply (hlen : 4 ≤ pkt.data.length) : replyId pkt.reply = pkt.xid := by
  refine replyId_storeAt ?_ fun i hi => ?_
  · rw [List.length_take, List.length_append, sizeofReply]
    omega
  · rw [List.getD_eq_getElem?_getD, List.getD_eq_getElem?_getD, List.getElem?_take_of_lt,
      List.getElem?_append_left (by omega)]
    rw [sizeofReply]
    omega

/-- Every reply is compared with the last request before anything else. -/
theorem bind_stale {f : Contents → Option (Int × Nfs)} (hlen : 4 ≤ pkt.data.length)
    (hid : pkt.xid ≠ c.rpcId)
    (h : ((rpcPkt pkt stack).bind fun p => if replyId p ≠ c.rpcId then some (-1, c) else f p) =
      some (rc, c')) : rc = -1 ∧ c' = c ∧ pkt.data.length ≤ sizeofRpc := by
  obtain ⟨p, hp, h⟩ := Option.bind_eq_some_iff.mp h
  have hroom : pkt.data.length ≤ sizeofRpc := by
    unfold rpcPkt at hp
    split at hp
    · cases hp
    · omega
  obtain rfl := rpcPkt_eq hp
  rw [if_pos (by rw [replyId_storeAt hlen fun _ _ => rfl]; exact hid)] at h
  cases h
  exact ⟨rfl, rfl, hroom⟩

theorem nfsReadReply_stale (hlen : 4 ≤ pkt.data.length) (hid : pkt.xid ≠ c.rpcId)
    (h : nfsReadReply cfg c pkt = some (rc, c')) : rc < 0 ∧ c' = c := by
  have hbad : ¬ (replyId pkt.reply = c.rpcId ∧ Good pkt.reply) := by
    rw [replyId_reply hlen]
    exact fun hgood => hid hgood.1
  obtain ⟨rfl, hneg | ⟨hsame, -⟩⟩ := nfsReadReply_error hbad h
  · exact ⟨hneg, rfl⟩
  · rw [replyId_reply hlen] at hsame
    exact absurd hsame hid

/-- A request in another state is a change. -/
theorem not_unchanged_of_send {c₁ : Nfs} (h : nfsSend c₁ = some (c', sent))
    (hstate : c₁.state ≠ c.state) : ¬ NfsUnchanged c c' := by
  obtain ⟨id, rfl⟩ := nfsSend_frame h
  exact fun hsame => hstate hsame.state

/-- **A reply to another request** is ignored only if it is for another port. -/
theorem nfsHandler_stale_iff (hlen : 4 ≤ pkt.data.length) (hid : pkt.xid ≠ c.rpcId) :
    (∃ c' sent, nfsHandler cfg c pkt stack dest = some (c', sent) ∧ NfsUnchanged c c') ↔
      dest ≠ c.ourPort ∨
        c.state = .umountReq ∧ c.netState = .fail ∧ pkt.data.length ≤ sizeofRpc := by
  constructor
  · rintro ⟨c', sent, h, hsame⟩
    by_cases hdest : dest ≠ c.ourPort
    · exact Or.inl hdest
    right
    unfold nfsHandler at h
    rw [if_neg hdest] at h
    split at h
    · rename_i hstate
      obtain ⟨⟨rc, c₁⟩, hreply, hsend⟩ := Option.bind_eq_some_iff.mp h
      obtain ⟨-, rfl, -⟩ := bind_stale hlen hid hreply
      exact absurd hsame (not_unchanged_of_send hsend (by rw [hstate]; exact nofun))
    · rename_i hstate
      obtain ⟨⟨rc, c₁⟩, hreply, hsend⟩ := Option.bind_eq_some_iff.mp h
      obtain ⟨-, rfl, -⟩ := bind_stale hlen hid hreply
      exact absurd hsame (not_unchanged_of_send hsend (by rw [hstate]; exact nofun))
    · rename_i hstate
      obtain ⟨⟨rc, c₁⟩, hreply, hsend⟩ := Option.bind_eq_some_iff.mp h
      obtain ⟨rfl, rfl, -⟩ := bind_stale hlen hid hreply
      have hsend : nfsSend { c₁ with state := .umountReq } = some (c', sent) := hsend
      exact absurd hsame (not_unchanged_of_send hsend (by rw [hstate]; exact nofun))
    · rename_i hstate
      obtain ⟨⟨rc, c₁⟩, hreply, hsend⟩ := Option.bind_eq_some_iff.mp h
      obtain ⟨rfl, rfl, hroom⟩ := bind_stale hlen hid hreply
      cases hsend
      exact ⟨hstate, hsame.netState.symm, hroom⟩
    · rename_i hstate
      obtain ⟨⟨rc, c₁⟩, hreply, hsend⟩ := Option.bind_eq_some_iff.mp h
      obtain ⟨rfl, rfl, -⟩ := bind_stale hlen hid hreply
      have hsend : nfsSend { c₁ with state := .umountReq } = some (c', sent) := hsend
      exact absurd hsame (not_unchanged_of_send hsend (by rw [hstate]; exact nofun))
    · rename_i hstate
      obtain ⟨⟨rc, c₁⟩, hreply, hsend⟩ := Option.bind_eq_some_iff.mp h
      obtain ⟨rfl, rfl, -⟩ := bind_stale hlen hid hreply
      have hsend : nfsSend { c₁ with state := .umountReq } = some (c', sent) := hsend
      exact absurd hsame (not_unchanged_of_send hsend (by rw [hstate]; exact nofun))
    · rename_i hstate
      obtain ⟨⟨rlen, c₁⟩, hreply, hsend⟩ := Option.bind_eq_some_iff.mp h
      obtain ⟨hneg, rfl⟩ := nfsReadReply_stale hlen hid hreply
      have hsend : nfsReadResult c₁ rlen = some (c', sent) := hsend
      unfold nfsReadResult at hsend
      rw [if_neg (by omega)] at hsend
      split at hsend
      · exact absurd hsame (not_unchanged_of_send hsend (by rw [hstate]; exact nofun))
      · rw [if_neg (by omega)] at hsend
        exact absurd hsame (not_unchanged_of_send hsend (by rw [hstate]; exact nofun))
  · rintro (hdest | ⟨hstate, hfail, hroom⟩)
    · refine ⟨c, none, ?_, ⟨rfl, rfl, rfl, rfl, rfl, rfl, rfl, rfl, rfl⟩⟩
      unfold nfsHandler
      rw [if_pos hdest]
    · by_cases hdest : dest ≠ c.ourPort
      · refine ⟨c, none, ?_, ⟨rfl, rfl, rfl, rfl, rfl, rfl, rfl, rfl, rfl⟩⟩
        unfold nfsHandler
        rw [if_pos hdest]
      · refine ⟨{ c with netState := .fail }, none, ?_,
          ⟨rfl, rfl, rfl, rfl, rfl, rfl, rfl, hfail.symm, rfl⟩⟩
        have hpkt : rpcPkt pkt stack = some (storeAt stack 0 pkt.data) := if_neg (by omega)
        have hreply : nfsUmountallReply c pkt stack = some (-1, c) := by
          unfold nfsUmountallReply
          rw [hpkt, Option.bind_eq_bind, Option.bind_some,
            if_pos (by rw [replyId_storeAt hlen fun _ _ => rfl]; exact hid)]
          rfl
        unfold nfsHandler
        rw [if_neg hdest, hstate]
        dsimp only
        rw [hreply, ← hstate]
        rfl

end Lemmas

/-! ## Small transfers -/

/-- A reply to the request with a number, and what follows its status. -/
def nfsReply (id verifier : UInt32) (rest : Bytes) : Bytes :=
  htonl id ++ htonl 1 ++ htonl 0 ++ htonl verifier ++ htonl 0 ++ htonl 0 ++ rest

/-- A packet to the port of the client, in a buffer of 1024 bytes. -/
def deliver (data : Bytes) (h : data.length ≤ 1024) : NfsEvent :=
  .packet ⟨data, List.replicate (1024 - data.length) 0, by rw [List.length_replicate]; omega⟩
    (fun _ => 0) 1000

/-- What leads to the first read request. -/
def nfsOpening : List NfsEvent :=
  [deliver (nfsReply 1 0 (htonl 635)) (by decide), deliver (nfsReply 2 0 (htonl 2049)) (by decide),
    deliver (nfsReply 3 0 (htonl 0 ++ List.replicate 32 7)) (by decide),
    deliver (nfsReply 4 0 (htonl 0 ++ List.replicate 32 8)) (by decide)]

/-- A file of four bytes, in one read. -/
def nfsSmall : List NfsEvent :=
  nfsOpening ++
    [deliver (nfsReply 5 0 (htonl 0 ++ List.replicate 68 0 ++ htonl 4 ++ [1, 2, 3, 4])) (by decide),
      deliver (nfsReply 6 0 (htonl 0 ++ List.replicate 68 0 ++ htonl 0)) (by decide),
      deliver (nfsReply 7 0 []) (by decide)]

/-- The first read is refused by the server: `verifier` is set. -/
def nfsRefused : List NfsEvent :=
  nfsOpening ++ [deliver (nfsReply 5 1 (htonl 0 ++ List.replicate 72 0)) (by decide),
    deliver (nfsReply 6 0 []) (by decide)]

def smallNfsConfig : NfsConfig := ⟨0x8000, 0xC0A80001, LibGeneric.str "/tftpboot/uImage", 1024⟩

/-- The client before `NfsStart`. -/
def smallNfs : Nfs :=
  ⟨false, 0, -1, 0, [], [], .fail, 0, 0, 0, 0, 0, .prclookupProgMountReq, [], [], .loop, 0,
    fun _ => 0⟩

instance (c : Nfs) (ev : NfsEvent) : Decidable (ev.Slips c) :=
  match ev with
  | .packet _ _ _ => inferInstanceAs (Decidable (_ ∧ _))
  | .timeout _ => inferInstanceAs (Decidable False)

/-- The run of a list of events. -/
def smallNfsRun (events : List NfsEvent) : Option (List (Nfs × NfsEvent) × Nfs) :=
  (nfsStart smallNfsConfig smallNfs).bind fun r => runAll (nfsStep smallNfsConfig) r.1 events

theorem smallNfsRun_run {events : List NfsEvent} {tr : List (Nfs × NfsEvent)} {c : Nfs}
    (h : smallNfsRun events = some (tr, c)) : ∃ start sent,
      nfsStart smallNfsConfig smallNfs = some (start, sent) ∧
        Run (fun c ev c' => nfsStep smallNfsConfig c ev = some c') start tr c := by
  obtain ⟨⟨start, sent⟩, hstart, h⟩ := Option.bind_eq_some_iff.mp h
  exact ⟨start, sent, hstart, run_of_runAll (fun hstep => hstep) h⟩

/-- The answer to a request that was sent again after a timeout. -/
def staleReply : NfsPacket := ⟨nfsReply 1 0 (htonl 635), [], by decide⟩

theorem nfsHandler_stale_otherPort : ∃ c' sent,
    nfsHandler smallNfsConfig { smallNfs with rpcId := 2, ourPort := 1000 } staleReply (fun _ => 0)
      69 = some (c', sent) ∧ NfsUnchanged { smallNfs with rpcId := 2, ourPort := 1000 } c' :=
  (nfsHandler_stale_iff (by decide) (by decide)).mpr (Or.inl (by decide))

/-- The first lookup is taken to be answered. -/
theorem nfsHandler_stale_moves : staleReply.xid ≠ 2 ∧ ¬ ∃ c' sent,
    nfsHandler smallNfsConfig { smallNfs with rpcId := 2, ourPort := 1000 } staleReply (fun _ => 0)
      1000 = some (c', sent) ∧ NfsUnchanged { smallNfs with rpcId := 2, ourPort := 1000 } c' := by
  refine ⟨by decide, ?_⟩
  rintro ⟨c', sent, h, hsame⟩
  have hstate : ((nfsHandler smallNfsConfig { smallNfs with rpcId := 2, ourPort := 1000 } staleReply
      (fun _ => 0) 1000).any fun r => r.1.state = .prclookupProgNfsReq) = true := by decide
  rw [h, Option.any_some] at hstate
  exact absurd (hsame.state.symm.trans (of_decide_eq_true hstate)) (by decide)

end UBoot.Net
