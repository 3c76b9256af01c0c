import Mathlib.Data.List.GetD
import UBoot.Lib.Logged
import UBoot.Net.Nfs

/-!
# What the reply handlers of the NFS client touch

The handlers for a reply once more, on the memory from `pkt` on and with a log of the bytes that
they read and write.  The copy of the packet in `rpc_pkt` counts as the packet, so that a byte of
`rpc_pkt` that the packet has not filled is a byte behind the packet.  The variables of `net/nfs.c`
that are no buffers are not logged.

`nfsReplyAt_eq` is the connection: a reply that stays inside is handled by `nfsReply`, and with
the same outcome.
-/

namespace UBoot.Net

open UBoot.Lib UBoot.LibGeneric

/-- A byte that a handler touches, of the packet, of its copy in `rpc_pkt`, of `nfs_path_buff`, of
`dirfh` or `filefh`, or behind `load_addr + nfs_offset`. -/
inductive Touch
  | readPkt (i : Nat)
  | readCopy (i : Nat)
  | writeCopy (i : Nat)
  | writePath (i : Int)
  | writeHandle (i : Nat)
  | writeData (i : Nat)

/-- Bytes one behind the other. -/
def stretch (f : Nat → Touch) (i n : Nat) : List Touch := (List.range' i n).map f

/-- `rpc_pkt` with `n` bytes of the packet in it. -/
def copyOf (m stack : Contents) (n : Nat) : Contents := fun i => if i < n then m i else stack i

/-- The copy of `n` bytes into `rpc_pkt`. -/
def rpcPktAt (m stack : Contents) (n : Nat) : Logged Touch Contents := do
  touch (stretch .readPkt 0 n ++ stretch .writeCopy 0 n)
  return copyOf m stack n

/-- The fields at some places, up to the first one that is not zero. -/
def anySet (p : Contents) : List Nat → Logged Touch Bool
  | [] => return false
  | i :: is => do
    touch (stretch .readCopy i 4)
    if ntohl p i ≠ 0 then return true else anySet p is

/-- The call that is answered, and no field that says otherwise. -/
def replyTaken (p : Contents) (id : UInt32) (fields : List Nat) : Logged Touch Bool := do
  touch (stretch .readCopy 0 4)
  if ntohl p 0 ≠ id then return false
  else
    let set ← anySet p fields
    return !set

/-- A handler that copies the packet and looks at some fields before it takes the reply. -/
def onReply (c : Nfs) (m stack : Contents) (len : Nat) (fields : List Nat)
    (take : Contents → Logged Touch (Int × Nfs)) : Logged Touch (Int × Nfs) := do
  let p ← rpcPktAt m stack len
  let taken ← replyTaken p c.rpcId fields
  if taken then take p else return (-1, c)

/-- `rstatus`, `verifier` and `astatus` -/
def statusFields : List Nat := [8, 12, 20]

/-- The same with `data[0]`. -/
def resultFields : List Nat := [8, 12, 20, 24]

/-- `rpc_lookup_reply` -/
def rpcLookupReplyAt (c : Nfs) (prog : UInt32) (m stack : Contents) (len : Nat) :
    Logged Touch (Int × Nfs) :=
  onReply c m stack len statusFields fun p => do
    if prog = progMount then
      touch (stretch .readCopy 24 4)
      return (0, { c with srvMountPort := toInt (replyData p 0) })
    else if prog = progNfs then
      touch (stretch .readCopy 24 4)
      return (0, { c with srvNfsPort := toInt (replyData p 0) })
    else return (0, c)

/-- `nfs_mount_reply` -/
def nfsMountReplyAt (c : Nfs) (m stack : Contents) (len : Nat) : Logged Touch (Int × Nfs) :=
  onReply c m stack len resultFields fun p => do
    touch (stretch .readCopy 28 nfsFhsize ++ stretch .writeHandle 0 nfsFhsize)
    return (0, { c with fsMounted := true, dirfh := readAt p 28 nfsFhsize })

/-- `nfs_umountall_reply` -/
def nfsUmountallReplyAt (c : Nfs) (m stack : Contents) (len : Nat) : Logged Touch (Int × Nfs) :=
  onReply c m stack len statusFields fun _ => do
    touch (stretch .writeHandle 0 nfsFhsize)
    return (0, { c with fsMounted := false, dirfh := List.replicate nfsFhsize 0 })

/-- `nfs_lookup_reply` -/
def nfsLookupReplyAt (c : Nfs) (m stack : Contents) (len : Nat) : Logged Touch (Int × Nfs) :=
  onReply c m stack len resultFields fun p => do
    touch (stretch .readCopy 28 nfsFhsize ++ stretch .writeHandle 0 nfsFhsize)
    return (0, { c with filefh := readAt p 28 nfsFhsize })

/-- Where the new path goes in `nfs_path_buff`, behind the old one and a slash if it has none. -/
def pathFront (c : Nfs) (p : Contents) : Logged Touch Bytes :=
  if p 32 ≠ 0x2F then do
    -- `strcat`
    touch [.writePath c.path.length, .writePath (c.path.length + 1)]
    return c.path ++ str "/"
  else return []

/-- `nfs_readlink_reply`: the size of the `memcpy` is `rlen` without its sign. -/
def nfsReadlinkReplyAt (c : Nfs) (m stack : Contents) (len : Nat) : Logged Touch (Int × Nfs) :=
  onReply c m stack len resultFields fun p => do
    touch (stretch .readCopy 28 4 ++ stretch .readCopy 32 1)
    let rlen := replyData p 1
    let front ← pathFront c p
    touch (stretch .readCopy 32 rlen.toNat ++
      stretch (fun i => .writePath i) front.length rlen.toNat)
    touch [.writePath (front.length + toInt rlen)]
    return (0, { c with path := front ++ (readAt p 32 rlen.toNat).takeWhile (· ≠ 0) })

/-- `store_block` -/
def storeBlockAt (cfg : NfsConfig) (c : Nfs) (m : Contents) (src offset len : Nat) :
    Logged Touch Nfs := do
  let newsize := (offset + len) % 2 ^ 32
  touch (stretch .readPkt src len ++ stretch .writeData 0 len)
  return { c with
    mem := storeAt c.mem ((cfg.loadAddr + offset) % 2 ^ 32) (readAt m src len)
    xferSize := if c.xferSize < newsize then newsize else c.xferSize }

/-- "if (rpc_pkt.u.reply.rstatus)" and what follows: the error of a reply to a read. -/
def readError (c : Nfs) (p : Contents) : Logged Touch (Int × Nfs) := do
  touch (stretch .readCopy 8 4)
  if replyRstatus p ≠ 0 then return (-9999, c)
  else
    touch (stretch .readCopy 20 4)
    if replyAstatus p ≠ 0 then return (-9999, c)
    else
      touch (stretch .readCopy 24 4)
      return (toInt (-replyData p 0), c)

/-- `nfs_read_reply` -/
def nfsReadReplyAt (cfg : NfsConfig) (c : Nfs) (m stack : Contents) : Logged Touch (Int × Nfs) := do
  let p ← rpcPktAt m stack sizeofReply
  touch (stretch .readCopy 0 4)
  if replyId p ≠ c.rpcId then return (-1, c)
  else
    let set ← anySet p resultFields
    if set then readError c p
    else
      touch (stretch .readCopy 96 4)
      let rlen := replyData p 18
      let c ← storeBlockAt cfg c m sizeofReply (ofInt c.offset).toNat rlen.toNat
      return (toInt rlen, c)

/-- The handler for the reply that `NfsHandler` calls. -/
def nfsReplyAt (cfg : NfsConfig) (c : Nfs) (m stack : Contents) (len : Nat) :
    Logged Touch (Int × Nfs) :=
  match c.state with
  | .prclookupProgMountReq => rpcLookupReplyAt c progMount m stack len
  | .prclookupProgNfsReq => rpcLookupReplyAt c progNfs m stack len
  | .mountReq => nfsMountReplyAt c m stack len
  | .umountReq => nfsUmountallReplyAt c m stack len
  | .lookupReq => nfsLookupReplyAt c m stack len
  | .readlinkReq => nfsReadlinkReplyAt c m stack len
  | .readReq => nfsReadReplyAt cfg c m stack

/-- `NfsHandler` up to the result of the handler for the reply, none for another port. -/
def nfsHandlerAt (cfg : NfsConfig) (c : Nfs) (m stack : Contents) (len dest : Nat) :
    Logged Touch (Option (Int × Nfs)) :=
  if dest ≠ c.ourPort then return none
  else do
    let x ← nfsReplyAt cfg c m stack len
    return some x

/-! ## The bytes that may be touched -/

/-- A byte of the packet, of `rpc_pkt` as far as the packet fills it, of the buffers, or of the
`nfs_len` bytes that have been requested. -/
def InBounds (c : Nfs) (len : Nat) : Touch → Prop
  | .readPkt i => i < len
  | .readCopy i => i < len
  | .writeCopy i => i < sizeofRpc
  | .writePath i => 0 ≤ i ∧ i < sizeofPathBuff
  | .writeHandle i => i < nfsFhsize
  | .writeData i => (i : Int) < c.len

/-- The packet has the fields up to the first one that is not zero. -/
def FieldsFit (m : Contents) (len : Nat) : List Nat → Prop
  | [] => True
  | i :: is => i + 4 ≤ len ∧ (ntohl m i = 0 → FieldsFit m len is)

/-- The packet has all fields that are looked at. -/
def HeaderFits (m : Contents) (len : Nat) (id : UInt32) (fields : List Nat) : Prop :=
  4 ≤ len ∧ (ntohl m 0 = id → FieldsFit m len fields)

/-- A reply to the last call, with zeros in some fields. -/
def IsTaken (m : Contents) (id : UInt32) (fields : List Nat) : Prop :=
  ntohl m 0 = id ∧ ∀ i ∈ fields, ntohl m i = 0

/-- The length of the old path, with a slash, in front of a relative one. -/
def frontLength (c : Nfs) (m : Contents) : Nat := if m 32 ≠ 0x2F then c.path.length + 1 else 0

/-- The reply has all that its handler takes from it, and what it takes fits where it goes. -/
def ReplyFits (c : Nfs) (m : Contents) (len : Nat) : Prop :=
  match c.state with
  | .prclookupProgMountReq | .prclookupProgNfsReq =>
    len ≤ sizeofRpc ∧ HeaderFits m len c.rpcId statusFields ∧
      (IsTaken m c.rpcId statusFields → 28 ≤ len)
  | .umountReq => len ≤ sizeofRpc ∧ HeaderFits m len c.rpcId statusFields
  | .mountReq | .lookupReq =>
    len ≤ sizeofRpc ∧ HeaderFits m len c.rpcId resultFields ∧
      (IsTaken m c.rpcId resultFields → 28 + nfsFhsize ≤ len)
  | .readlinkReq =>
    len ≤ sizeofRpc ∧ HeaderFits m len c.rpcId resultFields ∧
      (IsTaken m c.rpcId resultFields → 33 ≤ len ∧ 32 + (replyData m 1).toNat ≤ len ∧
        frontLength c m + (replyData m 1).toNat < sizeofPathBuff)
  | .readReq =>
    sizeofReply ≤ len ∧ (IsTaken m c.rpcId resultFields → (replyData m 18).toNat = 0 ∨
      sizeofReply + (replyData m 18).toNat ≤ len ∧ ((replyData m 18).toNat : Int) ≤ c.len)

/-! ## Fields of the copy -/

section Fields

variable {c : Nfs} {m p stack : Contents} {len b : Nat} {id : UInt32} {fields : List Nat}

theorem readPkt_iff {i n : Nat} :
    (∀ t ∈ stretch .readPkt i n, InBounds c len t) ↔ n = 0 ∨ i + n ≤ len :=
  forall_mem_stretch.trans stretch_lt_iff

theorem readCopy_iff {i n : Nat} :
    (∀ t ∈ stretch .readCopy i n, InBounds c len t) ↔ n = 0 ∨ i + n ≤ len :=
  forall_mem_stretch.trans stretch_lt_iff

theorem writeCopy_iff {i n : Nat} :
    (∀ t ∈ stretch .writeCopy i n, InBounds c len t) ↔ n = 0 ∨ i + n ≤ sizeofRpc :=
  forall_mem_stretch.trans stretch_lt_iff

theorem writeHandle_iff {i n : Nat} :
    (∀ t ∈ stretch .writeHandle i n, InBounds c len t) ↔ n = 0 ∨ i + n ≤ nfsFhsize :=
  forall_mem_stretch.trans stretch_lt_iff

/-- A field takes four bytes of the copy. -/
theorem readField_iff {i : Nat} :
    (∀ t ∈ stretch .readCopy i 4, InBounds c len t) ↔ i + 4 ≤ len := by
  rw [readCopy_iff]
  omega

theorem anySet_all : (anySet p fields).All (InBounds c len) ↔ FieldsFit p len fields := by
  induction fields with
  | nil => simp [anySet, FieldsFit]
  | cons i fields ih =>
    rw [anySet, FieldsFit, all_bind, all_touch, readField_iff]
    by_cases hi : ntohl p i = 0
    · rw [if_neg (not_not.mpr hi), ih]
      simp [hi]
    · rw [if_pos hi]
      simp [hi]

theorem anySet_value : (anySet p fields).value = true ↔ ∃ i ∈ fields, ntohl p i ≠ 0 := by
  induction fields with
  | nil => simp [anySet]
  | cons i fields ih =>
    rw [anySet, value_touch_ite]
    by_cases hi : ntohl p i = 0
    · rw [if_neg (not_not.mpr hi), ih]
      simp [hi]
    · rw [if_pos hi]
      simp [hi]

theorem replyTaken_all : (replyTaken p id fields).All (InBounds c len) ↔
    HeaderFits p len id fields := by
  rw [replyTaken, HeaderFits, all_bind, all_touch, readField_iff]
  by_cases hid : ntohl p 0 = id
  · rw [if_neg (not_not.mpr hid), all_bind, anySet_all]
    simp [hid]
  · rw [if_pos hid]
    simp [hid]

theorem replyTaken_value : (replyTaken p id fields).value = true ↔ IsTaken p id fields := by
  have hset : (anySet p fields).value = true ↔ ∃ i ∈ fields, ntohl p i ≠ 0 := anySet_value
  rw [replyTaken, IsTaken, value_touch_ite]
  by_cases hid : ntohl p 0 = id
  · rw [if_neg (not_not.mpr hid), value_bind, value_pure, Bool.not_eq_true',
      Bool.eq_false_iff, ne_eq, hset]
    simp [hid]
  · rw [if_pos hid]
    simp [hid]

/-- The copy has the fields of the packet. -/
theorem ntohl_copyOf {i : Nat} (h : i + 4 ≤ b) : ntohl (copyOf m stack b) i = ntohl m i := by
  have hbyte : ∀ k < 4, copyOf m stack b (i + k) = m (i + k) := by
    intro k hk
    exact if_pos (by omega)
  have h0 := hbyte 0 (by decide)
  have h1 := hbyte 1 (by decide)
  have h2 := hbyte 2 (by decide)
  have h3 := hbyte 3 (by decide)
  rw [Nat.add_zero] at h0
  simp only [ntohl, word, Nat.add_assoc, h0, h1, h2, h3]

theorem fieldsFit_copyOf (hlen : len ≤ b) :
    FieldsFit (copyOf m stack b) len fields ↔ FieldsFit m len fields := by
  induction fields with
  | nil => exact Iff.rfl
  | cons i fields ih =>
    rw [FieldsFit, FieldsFit, ih]
    constructor
    · rintro ⟨hi, hrest⟩
      rw [ntohl_copyOf (by omega)] at hrest
      exact ⟨hi, hrest⟩
    · rintro ⟨hi, hrest⟩
      rw [← ntohl_copyOf (by omega : i + 4 ≤ b)] at hrest
      exact ⟨hi, hrest⟩

theorem headerFits_copyOf : HeaderFits (copyOf m stack len) len id fields ↔
    HeaderFits m len id fields := by
  rw [HeaderFits, HeaderFits, fieldsFit_copyOf le_rfl]
  constructor
  · rintro ⟨h4, hrest⟩
    rw [ntohl_copyOf h4] at hrest
    exact ⟨h4, hrest⟩
  · rintro ⟨h4, hrest⟩
    rw [← ntohl_copyOf h4] at hrest
    exact ⟨h4, hrest⟩

/-- All fields of a reply that is taken lie in the packet. -/
theorem fieldsFit_zero (h : FieldsFit m len fields) (hzero : ∀ i ∈ fields, ntohl m i = 0) :
    ∀ i ∈ fields, i + 4 ≤ len := by
  induction fields with
  | nil => intro i hi; cases hi
  | cons i fields ih =>
    intro j hj
    obtain ⟨hi, hrest⟩ := h
    rcases List.mem_cons.mp hj with rfl | hj
    · exact hi
    · exact ih (hrest (hzero i List.mem_cons_self))
        (fun k hk => hzero k (List.mem_cons_of_mem i hk)) j hj

theorem isTaken_copyOf (h : HeaderFits m len id fields) :
    IsTaken (copyOf m stack len) id fields ↔ IsTaken m id fields := by
  have hcopy : HeaderFits (copyOf m stack len) len id fields := headerFits_copyOf.mpr h
  constructor
  · rintro ⟨hid, hzero⟩
    have hfit := fieldsFit_zero (hcopy.2 hid) hzero
    refine ⟨(ntohl_copyOf h.1).symm.trans hid, ?_⟩
    intro i hi
    exact (ntohl_copyOf (hfit i hi)).symm.trans (hzero i hi)
  · rintro ⟨hid, hzero⟩
    have hfit := fieldsFit_zero (h.2 hid) hzero
    refine ⟨(ntohl_copyOf h.1).trans hid, ?_⟩
    intro i hi
    exact (ntohl_copyOf (hfit i hi)).trans (hzero i hi)

theorem rpcPktAt_all : (rpcPktAt m stack b).All (InBounds c len) ↔
    b = 0 ∨ b ≤ len ∧ b ≤ sizeofRpc := by
  rw [rpcPktAt, all_bind, all_touch, List.forall_mem_append, readPkt_iff, writeCopy_iff,
    Nat.zero_add]
  simp only [all_pure, and_true]
  omega

end Fields

/-! ## The handlers -/

section Handlers

variable {cfg : NfsConfig} {c : Nfs} {m p stack : Contents} {len dest : Nat} {prog : UInt32}
  {fields : List Nat} {take : Contents → Logged Touch (Int × Nfs)}

theorem onReply_all : (onReply c m stack len fields take).All (InBounds c len) ↔
    len ≤ sizeofRpc ∧ HeaderFits m len c.rpcId fields ∧
      (IsTaken m c.rpcId fields → (take (copyOf m stack len)).All (InBounds c len)) := by
  have hvalue : (rpcPktAt m stack len).value = copyOf m stack len := rfl
  rw [onReply, all_bind, hvalue, all_bind, replyTaken_all, headerFits_copyOf, rpcPktAt_all]
  constructor
  · rintro ⟨hcopy, hheader, htake⟩
    refine ⟨by omega, hheader, ?_⟩
    intro h
    rw [if_pos (replyTaken_value.mpr ((isTaken_copyOf hheader).mpr h))] at htake
    exact htake
  · rintro ⟨hlen, hheader, htake⟩
    refine ⟨by omega, hheader, ?_⟩
    split_ifs with hvalue
    · exact htake ((isTaken_copyOf hheader).mp (replyTaken_value.mp hvalue))
    · exact all_pure _

theorem rpcLookupReplyAt_all (hprog : prog = progMount ∨ prog = progNfs) :
    (rpcLookupReplyAt c prog m stack len).All (InBounds c len) ↔
      len ≤ sizeofRpc ∧ HeaderFits m len c.rpcId statusFields ∧
        (IsTaken m c.rpcId statusFields → 28 ≤ len) := by
  rw [rpcLookupReplyAt, onReply_all]
  by_cases hmount : prog = progMount
  · simp only [if_pos hmount, all_bind, all_touch, readField_iff, all_pure, and_true]
  · have hnfs : prog = progNfs := hprog.resolve_left hmount
    simp only [if_neg hmount, if_pos hnfs, all_bind, all_touch, readField_iff, all_pure, and_true]

/-- A file handle is copied from the reply. -/
theorem handle_iff : (∀ t ∈ stretch .readCopy 28 nfsFhsize ++ stretch .writeHandle 0 nfsFhsize,
    InBounds c len t) ↔ 28 + nfsFhsize ≤ len := by
  rw [List.forall_mem_append, readCopy_iff, writeHandle_iff, nfsFhsize]
  omega

theorem nfsMountReplyAt_all : (nfsMountReplyAt c m stack len).All (InBounds c len) ↔
    len ≤ sizeofRpc ∧ HeaderFits m len c.rpcId resultFields ∧
      (IsTaken m c.rpcId resultFields → 28 + nfsFhsize ≤ len) := by
  rw [nfsMountReplyAt, onReply_all]
  simp only [all_bind, all_touch, handle_iff, all_pure, and_true]

theorem nfsLookupReplyAt_all : (nfsLookupReplyAt c m stack len).All (InBounds c len) ↔
    len ≤ sizeofRpc ∧ HeaderFits m len c.rpcId resultFields ∧
      (IsTaken m c.rpcId resultFields → 28 + nfsFhsize ≤ len) := by
  rw [nfsLookupReplyAt, onReply_all]
  simp only [all_bind, all_touch, handle_iff, all_pure, and_true]

theorem nfsUmountallReplyAt_all : (nfsUmountallReplyAt c m stack len).All (InBounds c len) ↔
    len ≤ sizeofRpc ∧ HeaderFits m len c.rpcId statusFields := by
  have hhandle : ∀ t ∈ stretch .writeHandle 0 nfsFhsize, InBounds c len t :=
    writeHandle_iff.mpr (.inr (Nat.zero_add nfsFhsize).le)
  rw [nfsUmountallReplyAt, onReply_all]
  simp only [all_bind, all_touch, all_pure, and_true]
  tauto

theorem pathFront_all : (pathFront c p).All (InBounds c len) ↔
    p 32 = 0x2F ∨ c.path.length + 1 < sizeofPathBuff := by
  rw [pathFront]
  split_ifs with hslash
  · rw [all_bind, all_touch]
    simp only [List.forall_mem_cons, InBounds, hslash, all_pure, and_true, false_or]
    simp
    omega
  · simp [not_not.mp hslash]

theorem pathFront_value : (pathFront c p).value =
    if p 32 ≠ 0x2F then c.path ++ str "/" else [] := by
  rw [pathFront]
  split_ifs <;> rfl

theorem length_pathFront : (pathFront c p).value.length = frontLength c p := by
  rw [pathFront_value, frontLength]
  split_ifs
  · rw [List.length_append]
    rfl
  · rfl

/-- The new path and its terminator. -/
theorem writePath_iff {k : Nat} {n : UInt32} (hn : n.toNat < 2 ^ 31) :
    ((∀ t ∈ stretch (fun i => .writePath i) k n.toNat, InBounds c len t) ∧
      InBounds c len (.writePath (k + toInt n))) ↔ k + n.toNat < sizeofPathBuff := by
  have hterm : InBounds c len (.writePath (k + toInt n)) ↔ k + n.toNat < sizeofPathBuff := by
    rw [InBounds, toInt, if_pos hn]
    omega
  rw [hterm]
  constructor
  · rintro ⟨-, h⟩
    exact h
  · intro h
    refine ⟨forall_mem_stretch.mpr ?_, h⟩
    intro i hi
    rw [InBounds]
    omega

theorem nfsReadlinkReplyAt_all : (nfsReadlinkReplyAt c m stack len).All (InBounds c len) ↔
    len ≤ sizeofRpc ∧ HeaderFits m len c.rpcId resultFields ∧
      (IsTaken m c.rpcId resultFields → 33 ≤ len ∧ 32 + (replyData m 1).toNat ≤ len ∧
        frontLength c m + (replyData m 1).toNat < sizeofPathBuff) := by
  rw [nfsReadlinkReplyAt, onReply_all]
  refine and_congr_right fun hlen => and_congr_right fun _ => imp_congr_right fun _ => ?_
  rw [sizeofRpc] at hlen
  simp only [all_bind, all_touch, all_pure, and_true, List.forall_mem_append, readCopy_iff,
    pathFront_all, length_pathFront, List.forall_mem_singleton]
  by_cases h33 : 33 ≤ len
  · -- the length and the first character are those of the packet
    have hdata : replyData (copyOf m stack len) 1 = replyData m 1 := ntohl_copyOf (by omega)
    have hfirst : copyOf m stack len 32 = m 32 := if_pos (by omega)
    have hfront : frontLength c (copyOf m stack len) = frontLength c m := by
      rw [frontLength, frontLength, hfirst]
    rw [hdata, hfirst, hfront]
    constructor
    · rintro ⟨-, -, ⟨hread, hpath⟩, hterm⟩
      have hn : (replyData m 1).toNat < 2 ^ 31 := by omega
      exact ⟨h33, by omega, (writePath_iff hn).mp ⟨hpath, hterm⟩⟩
    · rintro ⟨-, hread, hfits⟩
      have hn : (replyData m 1).toNat < 2 ^ 31 := by omega
      obtain ⟨hpath, hterm⟩ :
          (∀ t ∈ stretch (fun i => .writePath i) (frontLength c m) (replyData m 1).toNat,
            InBounds c len t) ∧
          InBounds c len (.writePath (frontLength c m + toInt (replyData m 1))) :=
        (writePath_iff hn).mpr hfits
      refine ⟨by omega, ?_, ⟨.inr hread, hpath⟩, hterm⟩
      by_cases hslash : m 32 = 0x2F
      · exact .inl hslash
      · rw [frontLength, if_pos hslash] at hfits
        exact .inr (by omega)
  · constructor
    · rintro ⟨hread, -⟩
      omega
    · rintro ⟨h, -⟩
      exact absurd h h33

theorem storeBlockAt_all {src offset n : Nat} : (storeBlockAt cfg c m src offset n).All
    (InBounds c len) ↔ n = 0 ∨ src + n ≤ len ∧ (n : Int) ≤ c.len := by
  have hdata : (∀ t ∈ stretch .writeData 0 n, InBounds c len t) ↔ n = 0 ∨ (n : Int) ≤ c.len := by
    refine forall_mem_stretch.trans ?_
    simp only [InBounds]
    constructor
    · intro h
      by_cases hn : n = 0
      · exact .inl hn
      · have hlast := h (n - 1) (by omega)
        exact .inr (by omega)
    · intro h k hk
      omega
  rw [storeBlockAt, all_bind, all_touch, List.forall_mem_append, readPkt_iff, hdata]
  simp only [all_pure, and_true]
  omega

theorem fieldsFit_of_le (h : ∀ i ∈ fields, i + 4 ≤ len) : FieldsFit p len fields := by
  induction fields with
  | nil => exact trivial
  | cons i fields ih =>
    exact ⟨h i List.mem_cons_self, fun _ => ih fun j hj => h j (List.mem_cons_of_mem i hj)⟩

theorem readError_all (hlen : 100 ≤ len) : (readError c p).All (InBounds c len) := by
  have hread : ∀ i, i + 4 ≤ 100 → ∀ t ∈ stretch .readCopy i 4, InBounds c len t :=
    fun i hi => readField_iff.mpr (hi.trans hlen)
  rw [readError, all_bind]
  refine ⟨hread 8 (by decide), ?_⟩
  split_ifs
  · exact all_pure _
  · exact (all_bind _ _).mpr ⟨hread 20 (by decide), all_pure _⟩
  · exact (all_bind _ _).mpr ⟨hread 20 (by decide),
      (all_bind _ _).mpr ⟨hread 24 (by decide), all_pure _⟩⟩

theorem nfsReadReplyAt_all : (nfsReadReplyAt cfg c m stack).All (InBounds c len) ↔
    sizeofReply ≤ len ∧ (IsTaken m c.rpcId resultFields → (replyData m 18).toNat = 0 ∨
      sizeofReply + (replyData m 18).toNat ≤ len ∧ ((replyData m 18).toNat : Int) ≤ c.len) := by
  have hvalue : (rpcPktAt m stack sizeofReply).value = copyOf m stack sizeofReply := rfl
  have hcopy : sizeofReply = 0 ∨ sizeofReply ≤ len ∧ sizeofReply ≤ sizeofRpc ↔
      sizeofReply ≤ len := by
    rw [sizeofReply, sizeofRpc]
    omega
  rw [nfsReadReplyAt, all_bind, hvalue, rpcPktAt_all, hcopy]
  refine and_congr_right fun hlen => ?_
  -- the whole header is there, so that it is the data alone that can be missing
  have hlen' : 100 ≤ len := hlen
  have hfield : ∀ i, i + 4 ≤ 100 → ntohl (copyOf m stack sizeofReply) i = ntohl m i :=
    fun i hi => ntohl_copyOf hi
  have hfields : ∀ i ∈ resultFields, i + 4 ≤ 100 := by decide
  have hid : replyId (copyOf m stack sizeofReply) = ntohl m 0 := hfield 0 (by decide)
  have hcount : replyData (copyOf m stack sizeofReply) 18 = replyData m 18 :=
    hfield 96 (by decide)
  have hread : ∀ i, i + 4 ≤ 100 → ∀ t ∈ stretch .readCopy i 4, InBounds c len t :=
    fun i hi => readField_iff.mpr (hi.trans hlen')
  have hset : (anySet (copyOf m stack sizeofReply) resultFields).All (InBounds c len) :=
    anySet_all.mpr (fieldsFit_of_le fun i hi => (hfields i hi).trans hlen')
  rw [all_bind, hid]
  refine (and_iff_right (hread 0 (by decide))).trans ?_
  by_cases hcall : ntohl m 0 = c.rpcId
  · rw [if_neg (not_not.mpr hcall), all_bind]
    refine (and_iff_right hset).trans ?_
    by_cases herror : (anySet (copyOf m stack sizeofReply) resultFields).value = true
    · have hnot : ¬ IsTaken m c.rpcId resultFields := by
        rintro ⟨-, hzero⟩
        obtain ⟨i, hi, hne⟩ := anySet_value.mp herror
        exact hne ((hfield i (hfields i hi)).trans (hzero i hi))
      rw [if_pos herror]
      exact iff_of_true (readError_all hlen') fun h => absurd h hnot
    · have htaken : IsTaken m c.rpcId resultFields := by
        refine ⟨hcall, ?_⟩
        intro i hi
        by_contra hne
        exact herror (anySet_value.mpr ⟨i, hi, by rwa [hfield i (hfields i hi)]⟩)
      rw [if_neg herror, all_bind]
      refine (and_iff_right (hread 96 (by decide))).trans ?_
      rw [all_bind, hcount, storeBlockAt_all]
      simp only [all_pure, and_true]
      exact ⟨fun h _ => h, fun h => h htaken⟩
  · rw [if_pos hcall]
    exact iff_of_true (all_pure _) fun h => absurd h.1 hcall

end Handlers

/-! ## The outcome of a reply that stays inside -/

/-- The memory from `pkt` on. -/
def NfsPacket.memory (pkt : NfsPacket) : Contents := fun i => (pkt.data ++ pkt.behind).getD i 0

/-- The handler for the reply that `nfsHandler` calls. -/
def nfsReplyOf (cfg : NfsConfig) (c : Nfs) (pkt : NfsPacket) (stack : Contents) :
    Option (Int × Nfs) :=
  match c.state with
  | .prclookupProgMountReq => rpcLookupReply c progMount pkt stack
  | .prclookupProgNfsReq => rpcLookupReply c progNfs pkt stack
  | .mountReq => nfsMountReply c pkt stack
  | .umountReq => nfsUmountallReply c pkt stack
  | .lookupReq => nfsLookupReply c pkt stack
  | .readlinkReq => nfsReadlinkReply c pkt stack
  | .readReq => nfsReadReply cfg c pkt

section Outcome

variable {cfg : NfsConfig} {c : Nfs} {pkt : NfsPacket} {p m stack : Contents} {len : Nat}
  {fields : List Nat} {take : Contents → Logged Touch (Int × Nfs)}

theorem rpcPkt_copyOf (hlen : pkt.data.length ≤ sizeofRpc) :
    rpcPkt pkt stack = some (copyOf pkt.memory stack pkt.data.length) := by
  have hcopy : storeAt stack 0 pkt.data = copyOf pkt.memory stack pkt.data.length := by
    funext i
    by_cases hi : i < pkt.data.length
    · rw [copyOf, if_pos hi, storeAt, if_pos ⟨by omega, by omega⟩, NfsPacket.memory,
        List.getD_append _ _ _ _ hi, Nat.sub_zero]
    · rw [copyOf, if_neg hi, storeAt, if_neg]
      rintro ⟨-, h⟩
      omega
  rw [rpcPkt, if_neg (by omega), hcopy]

theorem onReply_value : (onReply c m stack len fields take).value =
    if (replyTaken (copyOf m stack len) c.rpcId fields).value then
      (take (copyOf m stack len)).value
    else (-1, c) := by
  have hvalue : (rpcPktAt m stack len).value = copyOf m stack len := rfl
  rw [onReply, value_bind_ite, hvalue, value_pure]

theorem isTaken_status {id : UInt32} : IsTaken p id statusFields ↔
    ¬ replyId p ≠ id ∧ ¬ (replyRstatus p ≠ 0 ∨ replyVerifier p ≠ 0 ∨ replyAstatus p ≠ 0) := by
  simp [IsTaken, statusFields, replyId, replyRstatus, replyVerifier, replyAstatus]

theorem isTaken_result {id : UInt32} : IsTaken p id resultFields ↔
    ¬ replyId p ≠ id ∧
      ¬ (replyRstatus p ≠ 0 ∨ replyVerifier p ≠ 0 ∨ replyAstatus p ≠ 0 ∨ replyData p 0 ≠ 0) := by
  simp [IsTaken, resultFields, replyId, replyRstatus, replyVerifier, replyAstatus, replyData]

/-- Two checks with one answer. -/
theorem checks_taken {α : Type} {A B : Contents → Prop} [DecidablePred A] [DecidablePred B]
    {taken : Bool} {u v : α} {take : Contents → Option α} (h : taken = true ↔ ¬ A p ∧ ¬ B p)
    (htake : taken = true → take p = some v) :
    (some p >>= fun p => if A p then pure u else if B p then pure u else take p) =
      some (if taken = true then v else u) := by
  rw [Option.bind_eq_bind, Option.bind_some]
  by_cases hA : A p
  · rw [if_pos hA, if_neg fun ht => (h.mp ht).1 hA]
    rfl
  · by_cases hB : B p
    · rw [if_neg hA, if_pos hB, if_neg fun ht => (h.mp ht).2 hB]
      rfl
    · have htaken := h.mpr ⟨hA, hB⟩
      rw [if_neg hA, if_neg hB, if_pos htaken, htake htaken]

theorem rpcLookupReplyAt_value {prog : UInt32} (hlen : pkt.data.length ≤ sizeofRpc) :
    rpcLookupReply c prog pkt stack =
      some (rpcLookupReplyAt c prog pkt.memory stack pkt.data.length).value := by
  rw [rpcLookupReply, rpcPkt_copyOf hlen, rpcLookupReplyAt, onReply_value]
  refine checks_taken (replyTaken_value.trans isTaken_status) ?_
  intro _
  split_ifs <;> rfl

theorem nfsMountReplyAt_value (hlen : pkt.data.length ≤ sizeofRpc) :
    nfsMountReply c pkt stack =
      some (nfsMountReplyAt c pkt.memory stack pkt.data.length).value := by
  rw [nfsMountReply, rpcPkt_copyOf hlen, nfsMountReplyAt, onReply_value]
  exact checks_taken (replyTaken_value.trans isTaken_result) fun _ => rfl

theorem nfsUmountallReplyAt_value (hlen : pkt.data.length ≤ sizeofRpc) :
    nfsUmountallReply c pkt stack =
      some (nfsUmountallReplyAt c pkt.memory stack pkt.data.length).value := by
  rw [nfsUmountallReply, rpcPkt_copyOf hlen, nfsUmountallReplyAt, onReply_value]
  exact checks_taken (replyTaken_value.trans isTaken_status) fun _ => rfl

theorem nfsLookupReplyAt_value (hlen : pkt.data.length ≤ sizeofRpc) :
    nfsLookupReply c pkt stack =
      some (nfsLookupReplyAt c pkt.memory stack pkt.data.length).value := by
  rw [nfsLookupReply, rpcPkt_copyOf hlen, nfsLookupReplyAt, onReply_value]
  exact checks_taken (replyTaken_value.trans isTaken_result) fun _ => rfl

/-- A size that is not negative is the number without its sign. -/
theorem toNat_toInt {n : UInt32} (h : ¬ toInt n < 0) : (toInt n).toNat = n.toNat := by
  rw [toInt] at h ⊢
  split_ifs at h ⊢ with hlt
  · rfl
  · have := n.toNat_lt
    omega

theorem nfsReadlinkReplyAt_value (hlen : pkt.data.length ≤ sizeofRpc)
    (hfits : IsTaken pkt.memory c.rpcId resultFields → 33 ≤ pkt.data.length ∧
      32 + (replyData pkt.memory 1).toNat ≤ pkt.data.length ∧
      frontLength c pkt.memory + (replyData pkt.memory 1).toNat < sizeofPathBuff)
    (hheader : HeaderFits pkt.memory pkt.data.length c.rpcId resultFields) :
    nfsReadlinkReply c pkt stack =
      some (nfsReadlinkReplyAt c pkt.memory stack pkt.data.length).value := by
  rw [nfsReadlinkReply, rpcPkt_copyOf hlen, nfsReadlinkReplyAt, onReply_value]
  refine checks_taken (replyTaken_value.trans isTaken_result) ?_
  intro htaken
  rw [replyTaken_value] at htaken
  generalize hp : copyOf pkt.memory stack pkt.data.length = p at htaken
  have hfront : (if p 32 ≠ 0x2F then c.path ++ str "/" else []).length = frontLength c p := by
    rw [← length_pathFront, pathFront_value]
  have hguard : ¬ (toInt (replyData p 1) < 0 ∨
      sizeofRpc < 32 + (toInt (replyData p 1)).toNat ∨
      sizeofPathBuff ≤ frontLength c p + (toInt (replyData p 1)).toNat) := by
    have htaken' := htaken
    rw [← hp, isTaken_copyOf hheader] at htaken'
    obtain ⟨h33, hread, hpath⟩ := hfits htaken'
    have hdata : replyData p 1 = replyData pkt.memory 1 := by
      rw [← hp]
      exact ntohl_copyOf (by omega)
    have hfirst : p 32 = pkt.memory 32 := by
      rw [← hp]
      exact if_pos (by omega)
    have hlength : frontLength c p = frontLength c pkt.memory := by
      rw [frontLength, frontLength, hfirst]
    rw [sizeofRpc] at hlen ⊢
    rw [hlength, hdata, toInt, if_pos (by omega)]
    omega
  have hrlen : (toInt (replyData p 1)).toNat = (replyData p 1).toNat :=
    toNat_toInt fun h => hguard (.inl h)
  dsimp only
  rw [hfront, if_neg hguard, hrlen, ← pathFront_value]
  rfl

/-- The first 100 bytes, and zeros behind them. -/
theorem read_reply (hlen : sizeofReply ≤ pkt.data.length) :
    ∃ s, pkt.read 0 sizeofReply = some s ∧
      ∀ i, i + 4 ≤ sizeofReply → ntohl (storeAt (fun _ => 0) 0 s) i = ntohl pkt.memory i := by
  refine ⟨(pkt.data ++ pkt.behind).take sizeofReply, ?_, ?_⟩
  · rw [NfsPacket.read, if_neg (by rw [List.length_append]; omega), List.drop_zero]
  · intro i hi
    have hlength : ((pkt.data ++ pkt.behind).take sizeofReply).length = sizeofReply := by
      rw [List.length_take, List.length_append]
      omega
    have hbyte : ∀ j < sizeofReply,
        storeAt (fun _ => 0) 0 ((pkt.data ++ pkt.behind).take sizeofReply) j = pkt.memory j := by
      intro j hj
      rw [storeAt, if_pos ⟨by omega, by omega⟩, NfsPacket.memory, Nat.sub_zero,
        List.getD_eq_getElem?_getD, List.getD_eq_getElem?_getD, List.getElem?_take_of_lt hj]
    simp only [ntohl, word, hbyte i (by omega), hbyte (i + 1) (by omega), hbyte (i + 2) (by omega),
      hbyte (i + 2 + 1) (by omega)]

theorem read_memory {i n : Nat} (h : i + n ≤ pkt.data.length) :
    pkt.read i n = some (readAt pkt.memory i n) := by
  rw [NfsPacket.read, if_neg (by rw [List.length_append]; omega)]
  congr 1
  apply List.ext_getElem?
  intro k
  rcases Nat.lt_or_ge k n with hk | hk
  · have hlt : i + k < (pkt.data ++ pkt.behind).length := by
      rw [List.length_append]
      omega
    rw [getElem?_readAt hk, List.getElem?_take_of_lt hk, List.getElem?_drop, NfsPacket.memory,
      List.getElem?_eq_getElem hlt, List.getD_eq_getElem _ _ hlt]
  · rw [List.getElem?_eq_none (by rw [List.length_take]; omega),
      List.getElem?_eq_none (by rw [length_readAt]; omega)]

theorem readError_value : (readError c p).value =
    if replyRstatus p ≠ 0 then (-9999, c)
    else if replyAstatus p ≠ 0 then (-9999, c)
    else (toInt (-replyData p 0), c) := by
  rw [readError, value_touch_ite, value_touch_ite]
  rfl

/-- Two checks, and what follows them. -/
theorem bind_checks {α β : Type} {x : β} {A B : β → Prop} [DecidablePred A] [DecidablePred B]
    {u : α} {y z : β → Option α} :
    (some x >>= fun p => if A p then pure u else if B p then y p else z p) =
      if A x then some u else if B x then y x else z x := rfl

/-- The data of a reply that is taken. -/
theorem storeBlockAt_value {n : Nat} (hread : n = 0 ∨ sizeofReply + n ≤ pkt.data.length)
    (hlen : sizeofReply ≤ pkt.data.length) {offset : Nat}
    (hroom : (cfg.loadAddr + offset) % 2 ^ 32 + n ≤ 2 ^ 32) :
    ((pkt.read sizeofReply n).bind fun src => nfsStoreBlock cfg c src offset) =
      some (storeBlockAt cfg c pkt.memory sizeofReply offset n).value := by
  rw [read_memory (by omega), Option.bind_some, nfsStoreBlock, length_readAt,
    if_neg (by omega)]
  rfl

theorem nfsReadReplyAt_value (hlen : sizeofReply ≤ pkt.data.length)
    (hfits : IsTaken pkt.memory c.rpcId resultFields → (replyData pkt.memory 18).toNat = 0 ∨
      sizeofReply + (replyData pkt.memory 18).toNat ≤ pkt.data.length ∧
        ((replyData pkt.memory 18).toNat : Int) ≤ c.len)
    (hroom : ((cfg.loadAddr + (ofInt c.offset).toNat) % 2 ^ 32 : Nat) + c.len ≤ 2 ^ 32) :
    nfsReadReply cfg c pkt = some (nfsReadReplyAt cfg c pkt.memory stack).value := by
  obtain ⟨s, hread, hfield⟩ := read_reply hlen
  have hvalue : (rpcPktAt pkt.memory stack sizeofReply).value =
      copyOf pkt.memory stack sizeofReply := rfl
  rw [nfsReadReply, hread, nfsReadReplyAt, bind_checks, value_bind_checks, hvalue]
  -- both copies have the fields of the packet
  generalize storeAt (fun _ => 0) 0 s = p at hfield
  have hcopy : ∀ i, i + 4 ≤ sizeofReply →
      ntohl (copyOf pkt.memory stack sizeofReply) i = ntohl p i :=
    fun i hi => (ntohl_copyOf hi).trans (hfield i hi).symm
  generalize copyOf pkt.memory stack sizeofReply = q at hcopy
  have hid : replyId q = replyId p := hcopy 0 (by decide)
  have hrstatus : replyRstatus q = replyRstatus p := hcopy 8 (by decide)
  have hastatus : replyAstatus q = replyAstatus p := hcopy 20 (by decide)
  have hresult : replyData q 0 = replyData p 0 := hcopy 24 (by decide)
  have hcount : replyData q 18 = replyData p 18 := hcopy 96 (by decide)
  have hcount' : replyData p 18 = replyData pkt.memory 18 := hfield 96 (by decide)
  have hset : (anySet q resultFields).value = true ↔
      replyRstatus p ≠ 0 ∨ replyVerifier p ≠ 0 ∨ replyAstatus p ≠ 0 ∨ replyData p 0 ≠ 0 := by
    rw [anySet_value, ← hrstatus, ← hastatus, ← hresult]
    have hverifier : replyVerifier p = ntohl q 12 := (hcopy 12 (by decide)).symm
    rw [hverifier]
    simp [resultFields, replyRstatus, replyAstatus, replyData]
  by_cases hcall : replyId p = c.rpcId
  · rw [hid, if_neg (not_not.mpr hcall), if_neg (not_not.mpr hcall)]
    by_cases herror : replyRstatus p ≠ 0 ∨ replyVerifier p ≠ 0 ∨ replyAstatus p ≠ 0 ∨
        replyData p 0 ≠ 0
    · rw [if_pos herror, if_pos (hset.mpr herror), readError_value, hrstatus, hastatus, hresult]
      rw [apply_ite some, apply_ite some]
      rfl
    · have htaken : IsTaken pkt.memory c.rpcId resultFields := by
        have h := isTaken_result.mpr ⟨not_not.mpr hcall, herror⟩
        refine ⟨(hfield 0 (by decide)).symm.trans h.1, ?_⟩
        intro i hi
        have hbound : ∀ j ∈ resultFields, j + 4 ≤ sizeofReply := by decide
        exact (hfield i (hbound i hi)).symm.trans (h.2 i hi)
      have hstored := hfits htaken
      rw [← hcount'] at hstored
      have hstore : ((pkt.read sizeofReply (replyData p 18).toNat).bind fun src =>
            nfsStoreBlock cfg c src (ofInt c.offset).toNat) =
          some (storeBlockAt cfg c pkt.memory sizeofReply (ofInt c.offset).toNat
            (replyData p 18).toNat).value :=
        storeBlockAt_value (by omega) hlen (by omega)
      rw [if_neg herror, if_neg fun h => herror (hset.mp h), hcount]
      simp only [Option.bind_eq_bind]
      rw [← Option.bind_assoc, hstore]
      rfl
  · rw [hid, if_pos hcall, if_pos hcall]

/-- A reply that fits is handled, and what is logged is the run of its handler. -/
theorem nfsReplyAt_eq (hfits : ReplyFits c pkt.memory pkt.data.length)
    (hroom : ((cfg.loadAddr + (ofInt c.offset).toNat) % 2 ^ 32 : Nat) + c.len ≤ 2 ^ 32) :
    nfsReplyOf cfg c pkt stack =
      some (nfsReplyAt cfg c pkt.memory stack pkt.data.length).value := by
  rw [nfsReplyOf, nfsReplyAt]
  rw [ReplyFits] at hfits
  cases hstate : c.state with
  | prclookupProgMountReq =>
    rw [hstate] at hfits
    exact rpcLookupReplyAt_value hfits.1
  | prclookupProgNfsReq =>
    rw [hstate] at hfits
    exact rpcLookupReplyAt_value hfits.1
  | mountReq =>
    rw [hstate] at hfits
    exact nfsMountReplyAt_value hfits.1
  | umountReq =>
    rw [hstate] at hfits
    exact nfsUmountallReplyAt_value hfits.1
  | lookupReq =>
    rw [hstate] at hfits
    exact nfsLookupReplyAt_value hfits.1
  | readlinkReq =>
    rw [hstate] at hfits
    exact nfsReadlinkReplyAt_value hfits.1 hfits.2.2 hfits.2.1
  | readReq =>
    rw [hstate] at hfits
    exact nfsReadReplyAt_value hfits.1 hfits.2 hroom

end Outcome

section Bounds

variable {cfg : NfsConfig} {c : Nfs} {m stack : Contents} {len dest : Nat}

/-- What `NfsHandler` lets a handler touch is inside of its object exactly for the replies that
fit, and for everything that comes to another port. -/
theorem nfsHandler_inBounds_iff : (nfsHandlerAt cfg c m stack len dest).All (InBounds c len) ↔
    (dest = c.ourPort → ReplyFits c m len) := by
  rw [nfsHandlerAt]
  split_ifs with hdest
  · simp [hdest]
  · rw [not_not] at hdest
    rw [all_bind, nfsReplyAt, ReplyFits]
    simp only [hdest, all_pure, and_true, forall_const]
    cases c.state with
    | prclookupProgMountReq => exact rpcLookupReplyAt_all (.inl rfl)
    | prclookupProgNfsReq => exact rpcLookupReplyAt_all (.inr rfl)
    | mountReq => exact nfsMountReplyAt_all
    | umountReq => exact nfsUmountallReplyAt_all
    | lookupReq => exact nfsLookupReplyAt_all
    | readReq => exact nfsReadReplyAt_all
    | readlinkReq => exact nfsReadlinkReplyAt_all

end Bounds

/-- A client that has asked for the target of `/nfs`, in the fifth call. -/
def linkNfs : Nfs where
  fsMounted := true
  rpcId := 5
  offset := 0
  len := 1024
  dirfh := []
  filefh := []
  downloadState := .fail
  serverIP := 0
  srvMountPort := 635
  srvNfsPort := 2049
  ourPort := 1000
  timeoutCount := 0
  state := .readlinkReq
  filename := str "image"
  path := str "/nfs"
  netState := .loop
  xferSize := 0
  mem := fun _ => 0

/-- A reply of 36 bytes that gives the target 5000. -/
def longLink : Contents := fun i =>
  (htonl 5 ++ List.replicate 24 0 ++ htonl 5000 ++ str "/a/b").getD i 0

/-- The target goes over the end of `nfs_path_buff`. -/
theorem nfsHandler_longLink_outside :
    ¬ (nfsHandlerAt ⟨0x8000, 0xC0A80001, str "/nfs/image", 1024⟩ linkNfs longLink (fun _ => 0) 36
      1000).All (InBounds linkNfs 36) := by
  intro h
  have hreply := ((all_bind _ _).mp h).1
  obtain ⟨-, -, hfits⟩ := nfsReadlinkReplyAt_all.mp hreply
  have htaken : IsTaken longLink 5 resultFields := ⟨by decide, by decide⟩
  exact absurd (hfits htaken).2.1 (by decide)

end UBoot.Net
