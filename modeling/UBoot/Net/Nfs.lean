import UBoot.Net.Tftp

/-!
# The NFS client

`net/nfs.c` with memory as the destination.  A packet is the payload of its UDP datagram, with what
is behind it in the receive buffer.  What a call sends is a part of its result.  The text for the
console is left out, and so is the name of the file, which `NfsStart` takes from the environment.

`none` as the outcome of a function is an access outside of an object, or an overflow of
`nfs_offset`.
-/

namespace UBoot.Net

open UBoot.Lib UBoot.LibGeneric

/-- `NfsState` -/
inductive NfsState where
  | prclookupProgMountReq
  | prclookupProgNfsReq
  | mountReq
  | umountReq
  | lookupReq
  | readReq
  | readlinkReq
  deriving DecidableEq, Repr

/-- What the transfer is set up with: `nfs_path` is what `NfsStart` takes from `BootFile`. -/
structure NfsConfig where
  loadAddr : Nat
  serverIP : IPaddr
  nfsPath : Bytes
  readSize : Int

/-- The variables of `net/nfs.c`, with `NetState`, `NetBootFileXferSize` and the memory.
`nfs_path` and `nfs_filename` are the strings that they point to. -/
structure Nfs where
  fsMounted : Bool
  rpcId : UInt32
  offset : Int
  len : Int
  dirfh : Bytes
  filefh : Bytes
  downloadState : NetState
  serverIP : IPaddr
  srvMountPort : Int
  srvNfsPort : Int
  ourPort : Nat
  timeoutCount : Int
  state : NfsState
  filename : Bytes
  path : Bytes
  netState : NetState
  xferSize : Nat
  mem : Contents

/-- What is sent to a port of the server. -/
structure RpcCall where
  port : Int
  packet : Bytes
  deriving DecidableEq, Repr

/-- A packet in the receive buffer, `behind` it what the buffer holds there. -/
structure NfsPacket where
  data : Bytes
  behind : Bytes
  room : data.length + behind.length < 2 ^ 31

/-- `SUNRPC_PORT` -/
def sunrpcPort : Int := 111

/-- `PROG_PORTMAP` -/
def progPortmap : UInt32 := 100000

/-- `PROG_NFS` -/
def progNfs : UInt32 := 100003

/-- `PROG_MOUNT` -/
def progMount : UInt32 := 100005

/-- `PORTMAP_GETPORT` -/
def portmapGetport : UInt32 := 3

/-- `MOUNT_ADDENTRY` -/
def mountAddentry : UInt32 := 1

/-- `MOUNT_UMOUNTALL` -/
def mountUmountall : UInt32 := 4

/-- `NFS_LOOKUP` -/
def nfsLookup : UInt32 := 4

/-- `NFS_READLINK` -/
def nfsReadlink : UInt32 := 5

/-- `NFS_READ` -/
def nfsRead : UInt32 := 6

/-- `NFS_FHSIZE` -/
def nfsFhsize : Nat := 32

/-- `NFSERR_ISDIR` -/
def nfserrIsdir : Int := 21

/-- `NFSERR_INVAL` -/
def nfserrInval : Int := 22

/-- `NFS_RETRY_COUNT` -/
def nfsRetryCount : Int := 30

/-- `sizeof(struct rpc_t)` -/
def sizeofRpc : Nat := 2048

/-- `sizeof(rpc_pkt.u.reply)` -/
def sizeofReply : Nat := 100

/-- `sizeof(nfs_path_buff)` -/
def sizeofPathBuff : Nat := 2048

/-- `ntohl` of the field at `i`. -/
def ntohl (p : Contents) (i : Nat) : UInt32 := UInt32.ofNat (word p i * 65536 + word p (i + 2))

/-- `htonl` -/
def htonl (n : UInt32) : Bytes := htons (n.toNat / 65536) ++ htons n.toNat

/-- An `unsigned` number as an `int`. -/
def toInt (n : UInt32) : Int := if n.toNat < 2 ^ 31 then n.toNat else (n.toNat : Int) - 2 ^ 32

/-- An `int` as an `unsigned` number. -/
def ofInt (n : Int) : UInt32 := UInt32.ofNat (n % 2 ^ 32).toNat

/-! ## Requests -/

/-- `rpc_add_credentials`, for an empty host name. -/
def rpcAddCredentials : Bytes :=
  htonl 1 ++ htonl 20 ++ htonl 0 ++ htonl 0 ++ htonl 0 ++ htonl 0 ++ htonl 0 ++ htonl 0 ++ htonl 0

/-- A string of a request: its length, and the bytes up to a full word. -/
def rpcString (s : Bytes) : Bytes :=
  htonl (UInt32.ofNat s.length) ++ s ++ List.replicate ((s.length + 3) / 4 * 4 - s.length) 0

/-- `rpc_req`, for the data as it lies in memory. -/
def rpcReq (c : Nfs) (prog proc : UInt32) (data : Bytes) : Option (Nfs × Option RpcCall) :=
  if sizeofRpc < 24 + data.length then none
  else
    let id := c.rpcId + 1
    let sport := if prog = progPortmap then sunrpcPort
      else if prog = progMount then c.srvMountPort
      else c.srvNfsPort
    some ({ c with rpcId := id }, some ⟨sport,
      htonl id ++ htonl 0 ++ htonl 2 ++ htonl prog ++ htonl 2 ++ htonl proc ++ data⟩)

/-- `rpc_lookup_req` -/
def rpcLookupReq (c : Nfs) (prog ver : UInt32) : Option (Nfs × Option RpcCall) :=
  rpcReq c progPortmap portmapGetport
    (htonl 0 ++ htonl 0 ++ htonl 0 ++ htonl 0 ++ htonl prog ++ htonl ver ++ htonl 17 ++ htonl 0)

/-- `nfs_mount_req` -/
def nfsMountReq (c : Nfs) (path : Bytes) : Option (Nfs × Option RpcCall) :=
  rpcReq c progMount mountAddentry (rpcAddCredentials ++ rpcString path)

/-- `nfs_umountall_req` -/
def nfsUmountallReq (c : Nfs) : Option (Nfs × Option RpcCall) :=
  if c.srvMountPort = -1 ∨ c.fsMounted = false then some (c, none)
  else rpcReq c progMount mountUmountall rpcAddCredentials

/-- `nfs_readlink_req` -/
def nfsReadlinkReq (c : Nfs) : Option (Nfs × Option RpcCall) :=
  rpcReq c progNfs nfsReadlink (rpcAddCredentials ++ c.filefh)

/-- `nfs_lookup_req` -/
def nfsLookupReq (c : Nfs) (fname : Bytes) : Option (Nfs × Option RpcCall) :=
  rpcReq c progNfs nfsLookup (rpcAddCredentials ++ c.dirfh ++ rpcString fname)

/-- `nfs_read_req` -/
def nfsReadReq (c : Nfs) (offset readlen : Int) : Option (Nfs × Option RpcCall) :=
  rpcReq c progNfs nfsRead
    (rpcAddCredentials ++ c.filefh ++ htonl (ofInt offset) ++ htonl (ofInt readlen) ++ htonl 0)

/-- `NfsSend` -/
def nfsSend (c : Nfs) : Option (Nfs × Option RpcCall) :=
  match c.state with
  | .prclookupProgMountReq => rpcLookupReq c progMount 1
  | .prclookupProgNfsReq => rpcLookupReq c progNfs 2
  | .mountReq => nfsMountReq c c.path
  | .umountReq => nfsUmountallReq c
  | .lookupReq => nfsLookupReq c c.filename
  | .readReq => nfsReadReq c c.offset c.len
  | .readlinkReq => nfsReadlinkReq c

/-! ## Replies

A reply is copied into `rpc_pkt`, which lies on the stack.  A function returns -1 or an error where
it does not take the reply. -/

/-- `rpc_pkt` after the copy of a packet; what has been on the `stack` is left behind it. -/
def rpcPkt (pkt : NfsPacket) (stack : Contents) : Option Contents :=
  if sizeofRpc < pkt.data.length then none else some (storeAt stack 0 pkt.data)

/-- The `n` bytes from `i` on of the receive buffer. -/
def NfsPacket.read (pkt : NfsPacket) (i n : Nat) : Option Bytes :=
  if (pkt.data ++ pkt.behind).length < i + n then none
  else some (((pkt.data ++ pkt.behind).drop i).take n)

/-- `u.reply.id` -/
def replyId (p : Contents) : UInt32 := ntohl p 0

/-- `u.reply.rstatus` -/
def replyRstatus (p : Contents) : UInt32 := ntohl p 8

/-- `u.reply.verifier` -/
def replyVerifier (p : Contents) : UInt32 := ntohl p 12

/-- `u.reply.astatus` -/
def replyAstatus (p : Contents) : UInt32 := ntohl p 20

/-- `u.reply.data[i]` -/
def replyData (p : Contents) (i : Nat) : UInt32 := ntohl p (24 + 4 * i)

/-- `rpc_lookup_reply` -/
def rpcLookupReply (c : Nfs) (prog : UInt32) (pkt : NfsPacket) (stack : Contents) :
    Option (Int × Nfs) := do
  let p ← rpcPkt pkt stack
  if replyId p ≠ c.rpcId then return (-1, c)
  if replyRstatus p ≠ 0 ∨ replyVerifier p ≠ 0 ∨ replyAstatus p ≠ 0 then return (-1, c)
  if prog = progMount then return (0, { c with srvMountPort := toInt (replyData p 0) })
  else if prog = progNfs then return (0, { c with srvNfsPort := toInt (replyData p 0) })
  else return (0, c)

/-- `nfs_mount_reply` -/
def nfsMountReply (c : Nfs) (pkt : NfsPacket) (stack : Contents) : Option (Int × Nfs) := do
  let p ← rpcPkt pkt stack
  if replyId p ≠ c.rpcId then return (-1, c)
  if replyRstatus p ≠ 0 ∨ replyVerifier p ≠ 0 ∨ replyAstatus p ≠ 0 ∨ replyData p 0 ≠ 0 then
    return (-1, c)
  return (0, { c with fsMounted := true, dirfh := readAt p 28 nfsFhsize })

/-- `nfs_umountall_reply` -/
def nfsUmountallReply (c : Nfs) (pkt : NfsPacket) (stack : Contents) : Option (Int × Nfs) := do
  let p ← rpcPkt pkt stack
  if replyId p ≠ c.rpcId then return (-1, c)
  if replyRstatus p ≠ 0 ∨ replyVerifier p ≠ 0 ∨ replyAstatus p ≠ 0 then return (-1, c)
  return (0, { c with fsMounted := false, dirfh := List.replicate nfsFhsize 0 })

/-- `nfs_lookup_reply` -/
def nfsLookupReply (c : Nfs) (pkt : NfsPacket) (stack : Contents) : Option (Int × Nfs) := do
  let p ← rpcPkt pkt stack
  if replyId p ≠ c.rpcId then return (-1, c)
  if replyRstatus p ≠ 0 ∨ replyVerifier p ≠ 0 ∨ replyAstatus p ≠ 0 ∨ replyData p 0 ≠ 0 then
    return (-1, c)
  return (0, { c with filefh := readAt p 28 nfsFhsize })

/-- `nfs_readlink_reply`: the new path ends at its first terminator. -/
def nfsReadlinkReply (c : Nfs) (pkt : NfsPacket) (stack : Contents) : Option (Int × Nfs) := do
  let p ← rpcPkt pkt stack
  if replyId p ≠ c.rpcId then return (-1, c)
  if replyRstatus p ≠ 0 ∨ replyVerifier p ≠ 0 ∨ replyAstatus p ≠ 0 ∨ replyData p 0 ≠ 0 then
    return (-1, c)
  let rlen := toInt (replyData p 1)
  let front := if p 32 ≠ 0x2F then c.path ++ str "/" else []
  if rlen < 0 ∨ sizeofRpc < 32 + rlen.toNat ∨ sizeofPathBuff ≤ front.length + rlen.toNat then none
  else return (0, { c with path := front ++ (readAt p 32 rlen.toNat).takeWhile (· ≠ 0) })

/-- `store_block` -/
def nfsStoreBlock (cfg : NfsConfig) (c : Nfs) (src : Bytes) (offset : Nat) : Option Nfs :=
  let newsize := (offset + src.length) % 2 ^ 32
  let dest := (cfg.loadAddr + offset) % 2 ^ 32
  if 2 ^ 32 < dest + src.length then none
  else
    some { c with
      mem := storeAt c.mem dest src
      xferSize := if c.xferSize < newsize then newsize else c.xferSize }

/-- `nfs_read_reply`: the number of bytes that are stored, or an error. -/
def nfsReadReply (cfg : NfsConfig) (c : Nfs) (pkt : NfsPacket) : Option (Int × Nfs) := do
  let p := storeAt (fun _ => 0) 0 (← pkt.read 0 sizeofReply)
  if replyId p ≠ c.rpcId then return (-1, c)
  if replyRstatus p ≠ 0 ∨ replyVerifier p ≠ 0 ∨ replyAstatus p ≠ 0 ∨ replyData p 0 ≠ 0 then
    if replyRstatus p ≠ 0 then return (-9999, c)
    if replyAstatus p ≠ 0 then return (-9999, c)
    return (toInt (-replyData p 0), c)
  let rlen := replyData p 18
  let c ← nfsStoreBlock cfg c (← pkt.read sizeofReply rlen.toNat) (ofInt c.offset).toNat
  return (toInt rlen, c)

/-! ## The handler -/

/-- `basename`, none without a slash. -/
def basename (path : Bytes) : Option Bytes :=
  if 0x2F ∈ path then some (path.reverse.takeWhile (· ≠ 0x2F)).reverse else none

/-- `dirname`, none without a slash. -/
def dirname (path : Bytes) : Option Bytes :=
  if 0x2F ∈ path then some (path.reverse.dropWhile (· ≠ 0x2F)).tail.reverse else none

/-- `NfsTimeout` -/
def nfsTimeout (c : Nfs) (again : Again) : Option (Nfs × Option RpcCall) :=
  let c := { c with timeoutCount := c.timeoutCount + 1 }
  if nfsRetryCount < c.timeoutCount then some ({ c with netState := again.netState }, none)
  else nfsSend c

/-- `case STATE_READ_REQ` of `NfsHandler`, for the result of `nfs_read_reply`. -/
def nfsReadResult (c : Nfs) (rlen : Int) : Option (Nfs × Option RpcCall) :=
  if 0 < rlen then
    if 2 ^ 31 ≤ c.offset + rlen then none
    else nfsSend { c with offset := c.offset + rlen }
  else if rlen = -nfserrIsdir ∨ rlen = -nfserrInval then nfsSend { c with state := .readlinkReq }
  else
    let c := if rlen = 0 then { c with downloadState := .success } else c
    nfsSend { c with state := .umountReq }

/-- `NfsHandler` -/
def nfsHandler (cfg : NfsConfig) (c : Nfs) (pkt : NfsPacket) (stack : Contents) (dest : Nat) :
    Option (Nfs × Option RpcCall) :=
  if dest ≠ c.ourPort then some (c, none)
  else
    match c.state with
    | .prclookupProgMountReq => do
      let (_, c) ← rpcLookupReply c progMount pkt stack
      nfsSend { c with state := .prclookupProgNfsReq }
    | .prclookupProgNfsReq => do
      let (_, c) ← rpcLookupReply c progNfs pkt stack
      nfsSend { c with state := .mountReq }
    | .mountReq => do
      let (rc, c) ← nfsMountReply c pkt stack
      if rc ≠ 0 then nfsSend { c with state := .umountReq }
      else nfsSend { c with state := .lookupReq }
    | .umountReq => do
      let (rc, c) ← nfsUmountallReply c pkt stack
      if rc ≠ 0 then return ({ c with netState := .fail }, none)
      else return ({ c with netState := c.downloadState }, none)
    | .lookupReq => do
      let (rc, c) ← nfsLookupReply c pkt stack
      if rc ≠ 0 then nfsSend { c with state := .umountReq }
      else nfsSend { c with state := .readReq, offset := 0, len := cfg.readSize }
    | .readlinkReq => do
      let (rc, c) ← nfsReadlinkReply c pkt stack
      if rc ≠ 0 then nfsSend { c with state := .umountReq }
      else
        let filename ← basename c.path
        let path ← dirname c.path
        nfsSend { c with filename := filename, path := path, state := .mountReq }
    | .readReq => do
      let (rlen, c) ← nfsReadReply cfg c pkt
      nfsReadResult c rlen

/-- `NfsStart` -/
def nfsStart (cfg : NfsConfig) (c : Nfs) : Option (Nfs × Option RpcCall) := do
  let filename ← basename cfg.nfsPath
  let path ← dirname cfg.nfsPath
  nfsSend { c with
    downloadState := .fail
    serverIP := cfg.serverIP
    filename := filename
    path := path
    timeoutCount := 0
    state := .prclookupProgMountReq
    ourPort := 1000 }

end UBoot.Net
