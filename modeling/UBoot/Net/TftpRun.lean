import Mathlib.Logic.Function.Basic
import UBoot.Lib.Queue
import UBoot.Lib.Run
import UBoot.Net.TftpSpec

/-!
# Transfers over a network that loses and repeats packets

The system is the client and the sessions of a server, one at each port that it answers a request
from.  A request may be repeated and answered more than once; the client stays with the session
that its first packet is from.  A session has a queue in each direction.  The head of a queue is
lost or delivered, and a delivered packet may be delivered again.  The server sends the packet that
is not acknowledged yet again on a timeout, and the client its acknowledgement.

The session of the client is at the number of the client or at the next one (`Synced`).  So a packet
that arrives is the next one or the last one again, and the latter is harmless unless its number on
the wire is 0 (`TftpEvent.RepeatsZero`): then the offset of the wraparounds is advanced once more,
and all that follows is stored in the wrong place.
-/

namespace UBoot.Net

open UBoot.Lib UBoot.LibGeneric

/-! ## The system -/

/-- The server at one port. -/
structure Session where
  /-- the packet that it waits for the acknowledgement of -/
  cur : Nat
  toClient : List Bytes
  toServer : List Bytes

structure TftpWorld where
  client : Tftp
  sessions : Nat → Option Session

inductive TftpEvent
  /-- the server answers a request from a new port -/
  | openSession (port : Nat)
  | serverTimeout (port : Nat)
  | loseData (port : Nat)
  | loseAck (port : Nat)
  | deliverData (port : Nat) (dup : Bool) (again : Again)
  | deliverAck (port : Nat) (dup : Bool)
  | clientTimeout (again : Again)

namespace Session

/-- The answer to a request. -/
def start (srv : TftpServer) : Session := ⟨srv.first, [srv.packet srv.first], []⟩

/-- The server sends its packet again. -/
def resend (srv : TftpServer) (s : Session) : Session :=
  { s with toClient := s.toClient ++ [srv.packet s.cur] }

/-- The server gets a packet.  The acknowledgement that it waits for makes it send the next one. -/
def receive (srv : TftpServer) (s : Session) (pkt : Bytes) : Session :=
  if s.cur ≤ srv.blockCount ∧ pkt = ackPacket s.cur then
    if s.cur + 1 ≤ srv.blockCount then resend srv { s with cur := s.cur + 1 }
    else { s with cur := s.cur + 1 }
  else s

end Session

namespace TftpWorld

def set (w : TftpWorld) (port : Nat) (s : Session) : TftpWorld :=
  { w with sessions := Function.update w.sessions port (some s) }

/-- A call of the client.  What it sends goes to its server port. -/
def call (w : TftpWorld) (result : Tftp × Option Bytes) : TftpWorld :=
  match result.2, w.sessions result.1.serverPort with
  | some pkt, some s =>
    { w with client := result.1 }.set result.1.serverPort { s with toServer := s.toServer ++ [pkt] }
  | _, _ => { w with client := result.1 }

/-- After `TftpStart`; `NetLoop` sets the size to 0. -/
def start (cfg : TftpConfig) (c : Tftp) (timer : Nat) : TftpWorld where
  client := { (tftpStart cfg c timer).1 with netState := .loop, xferSize := 0 }
  sessions := fun _ => none

end TftpWorld

inductive TftpStep (cfg : TftpConfig) (srv : TftpServer) :
    TftpWorld → TftpEvent → TftpWorld → Prop
  | openSession {w : TftpWorld} {port : Nat} (own : port ≠ wellKnownPort)
      (free : w.sessions port = none) :
      TftpStep cfg srv w (.openSession port) (w.set port (.start srv))
  | serverTimeout {w : TftpWorld} {port : Nat} {s : Session} (session : w.sessions port = some s)
      (waits : s.cur ≤ srv.blockCount) :
      TftpStep cfg srv w (.serverTimeout port) (w.set port (s.resend srv))
  | loseData {w : TftpWorld} {port : Nat} {s : Session} {pkt : Bytes} {rest : List Bytes}
      (session : w.sessions port = some s) (head : s.toClient = pkt :: rest) :
      TftpStep cfg srv w (.loseData port) (w.set port { s with toClient := rest })
  | loseAck {w : TftpWorld} {port : Nat} {s : Session} {pkt : Bytes} {rest : List Bytes}
      (session : w.sessions port = some s) (head : s.toServer = pkt :: rest) :
      TftpStep cfg srv w (.loseAck port) (w.set port { s with toServer := rest })
  | deliverData {w : TftpWorld} {port : Nat} {s : Session} {pkt : Bytes} {rest : List Bytes}
      {dup : Bool} {again : Again} (session : w.sessions port = some s)
      (head : s.toClient = pkt :: rest) (runs : w.client.netState = .loop) :
      TftpStep cfg srv w (.deliverData port dup again)
        ((w.set port { s with toClient := keep dup pkt rest }).call
          (tftpHandler cfg w.client pkt w.client.ourPort port again))
  | deliverAck {w : TftpWorld} {port : Nat} {s : Session} {pkt : Bytes} {rest : List Bytes}
      {dup : Bool} (session : w.sessions port = some s) (head : s.toServer = pkt :: rest) :
      TftpStep cfg srv w (.deliverAck port dup)
        (w.set port ({ s with toServer := keep dup pkt rest }.receive srv pkt))
  | clientTimeout {w : TftpWorld} {again : Again} (runs : w.client.netState = .loop) :
      TftpStep cfg srv w (.clientTimeout again) (w.call (tftpTimeout cfg w.client again))

/-- The client gets the block that it received last again, and its number on the wire is 0. -/
def TftpEvent.RepeatsZero (w : TftpWorld) : TftpEvent → Prop
  | .deliverData port _ _ =>
    w.client.state = .data ∧ port = w.client.serverPort ∧ w.client.lastBlock = 0 ∧
      ∃ s pkt rest, w.sessions port = some s ∧ s.toClient = pkt :: rest ∧
        ntohs pkt 0 = 3 ∧ ntohs pkt 2 = 0
  | _ => False

variable {cfg : TftpConfig} {srv : TftpServer} {w : TftpWorld} {s : Session} {n port : Nat}

/-! ## Sessions -/

/-- A session that the client has not taken a packet of. -/
structure Fresh (srv : TftpServer) (s : Session) : Prop where
  cur : s.cur = srv.first
  toClient : ∀ p ∈ s.toClient, p = srv.packet srv.first
  toServer : s.toServer = []

/-- The session of a client that has taken the packets up to `n`. -/
inductive Synced (srv : TftpServer) (n : Nat) (s : Session) : Prop
  /-- the server does not know about packet `n` yet -/
  | sent (cur : s.cur = n) (toClient : ∀ p ∈ s.toClient, p = srv.packet n)
      (toServer : Turned (ackPacket (n - 1)) (ackPacket n) s.toServer)
  | acknowledged (cur : s.cur = n + 1)
      (toClient : Turned (srv.packet n) (srv.packet (n + 1)) s.toClient)
      (toServer : ∀ p ∈ s.toServer, p = ackPacket n)

/-- The numbers that two equal acknowledgements are of. -/
theorem ackPacket_eq {i j : Nat} (h : ackPacket i = ackPacket j) : i % 65536 = j % 65536 := by
  have hbytes : ntohs ((ackPacket i).drop 2 ++ []) 0 = ntohs ((ackPacket j).drop 2 ++ []) 0 := by
    rw [h]
  have hnumber (k : Nat) : ntohs ((ackPacket k).drop 2 ++ []) 0 = k % 65536 := ntohs_htons
  rw [hnumber, hnumber] at hbytes
  exact hbytes

theorem fresh_start : Fresh srv (.start srv) :=
  ⟨rfl, fun _ hp => List.mem_singleton.mp hp, rfl⟩

theorem Fresh.resend (h : Fresh srv s) : Fresh srv (s.resend srv) := by
  refine ⟨h.cur, ?_, h.toServer⟩
  unfold Session.resend
  rw [h.cur]
  exact forall_mem_append h.toClient

theorem Synced.resend (h : Synced srv n s) : Synced srv n (s.resend srv) := by
  cases h with
  | sent cur toClient toServer =>
    refine .sent cur ?_ toServer
    unfold Session.resend
    rw [cur]
    exact forall_mem_append toClient
  | acknowledged cur toClient toServer =>
    refine .acknowledged cur ?_ toServer
    unfold Session.resend
    rw [cur]
    exact toClient.append

/-- A part of what is on its way to the client is left. -/
theorem Fresh.shrink {l : List Bytes} (h : Fresh srv s) (hl : ∀ p ∈ l, p ∈ s.toClient) :
    Fresh srv { s with toClient := l } :=
  ⟨h.cur, fun p hp => h.toClient p (hl p hp), h.toServer⟩

theorem Synced.loseData {pkt : Bytes} {rest : List Bytes} (h : Synced srv n s)
    (hhead : s.toClient = pkt :: rest) {dup : Bool} :
    Synced srv n { s with toClient := keep dup pkt rest } := by
  cases h with
  | sent cur toClient toServer =>
    rw [hhead] at toClient
    exact .sent cur (fun p hp => toClient p (mem_of_mem_keep hp)) toServer
  | acknowledged cur toClient toServer =>
    rw [hhead] at toClient
    exact .acknowledged cur toClient.keep toServer

theorem Synced.loseAck {pkt : Bytes} {rest : List Bytes} (h : Synced srv n s)
    (hhead : s.toServer = pkt :: rest) {dup : Bool} :
    Synced srv n { s with toServer := keep dup pkt rest } := by
  cases h with
  | sent cur toClient toServer =>
    rw [hhead] at toServer
    exact .sent cur toClient toServer.keep
  | acknowledged cur toClient toServer =>
    rw [hhead] at toServer
    exact .acknowledged cur toClient fun p hp => toServer p (mem_of_mem_keep hp)

/-- The client repeats its acknowledgement. -/
theorem Synced.acknowledge (h : Synced srv n s) :
    Synced srv n { s with toServer := s.toServer ++ [ackPacket n] } := by
  cases h with
  | sent cur toClient toServer => exact .sent cur toClient toServer.append
  | acknowledged cur toClient toServer =>
    exact .acknowledged cur toClient (forall_mem_append toServer)

/-- The client takes the first packet and acknowledges it. -/
theorem Fresh.synced (h : Fresh srv s) (hn : srv.first = n) :
    Synced srv n { s with toServer := s.toServer ++ [ackPacket n] } := by
  subst hn
  refine .sent h.cur h.toClient ?_
  rw [h.toServer]
  exact .new fun p hp => List.mem_singleton.mp hp

/-- The acknowledgements that are left when the server gets the one of `n`. -/
theorem all_of_turned {rest : List Bytes}
    (h : Turned (ackPacket (n - 1)) (ackPacket n) (ackPacket n :: rest)) :
    ∀ p ∈ ackPacket n :: rest, p = ackPacket n := by
  rcases h.head with ⟨hold, -⟩ | hnew
  · -- Acknowledgements in a row are different, so this one is of packet 0.
    have hnumber := ackPacket_eq hold
    obtain rfl : n = 0 := by omega
    intro p hp
    exact (h.mem p hp).elim id id
  · exact hnew

theorem Synced.receive {pkt : Bytes} {rest : List Bytes} (hmore : n + 1 ≤ srv.blockCount)
    (h : Synced srv n s) (hhead : s.toServer = pkt :: rest) {dup : Bool} :
    Synced srv n ({ s with toServer := keep dup pkt rest }.receive srv pkt) := by
  have hlost := @Synced.loseAck srv s n pkt rest h hhead dup
  unfold Session.receive
  split
  · rename_i hack
    have hpkt : pkt = ackPacket s.cur := hack.2
    subst hpkt
    cases h with
    | sent cur toClient toServer =>
      dsimp only
      subst cur
      rw [if_pos hmore]
      rw [hhead] at toServer
      exact .acknowledged rfl (Turned.of_old toClient).append
        fun p hp => all_of_turned toServer p (mem_of_mem_keep hp)
    | acknowledged cur toClient toServer =>
      -- The server waits for the next acknowledgement, and it is not this one.
      rw [hhead] at toServer
      have hnumber := ackPacket_eq (toServer _ List.mem_cons_self)
      omega
  · exact hlost

/-- A packet for the client is the last one that it took or the next one. -/
theorem Synced.head {pkt : Bytes} {rest : List Bytes} (h : Synced srv n s)
    (hhead : s.toClient = pkt :: rest) {dup : Bool} :
    pkt = srv.packet n ∨ pkt = srv.packet (n + 1) ∧
      Synced srv (n + 1) { s with
        toClient := keep dup pkt rest
        toServer := s.toServer ++ [ackPacket (n + 1)] } := by
  cases h with
  | sent cur toClient toServer =>
    left
    apply toClient
    rw [hhead]
    exact List.mem_cons_self
  | acknowledged cur toClient toServer =>
    rw [hhead] at toClient
    rcases toClient.head with ⟨hold, -⟩ | hnew
    · exact Or.inl hold
    · right
      refine ⟨hnew pkt List.mem_cons_self, .sent cur ?_ ?_⟩
      · exact fun p hp => hnew p (mem_of_mem_keep hp)
      · exact (Turned.of_old toServer).append

/-! ## The invariant -/

/-- The transfer has ended, has not begun, or is at packet `n`. -/
inductive TftpWorld.Inv (cfg : TftpConfig) (srv : TftpServer) (w : TftpWorld) : Prop
  | ended (netState : w.client.netState ≠ .loop)
      (complete : w.client.netState = .success → Complete cfg srv w.client)
  | waiting (client : Waiting w.client) (free : w.sessions wellKnownPort = none)
      (fresh : ∀ port s, w.sessions port = some s → Fresh srv s)
  | synced (n : Nat) (s : Session) (client : At cfg srv n w.client)
      (session : w.sessions w.client.serverPort = some s) (synced : Synced srv n s)
      (fresh : ∀ port s, port ≠ w.client.serverPort → w.sessions port = some s → Fresh srv s)

/-- A client that has not got the last packet expects one more. -/
theorem At.lt_blockCount {c : Tftp} (hblk : 0 < srv.blkSize) (hat : At cfg srv n c) :
    n + 1 ≤ srv.blockCount :=
  Nat.succ_le_succ ((Nat.le_div_iff_mul_le hblk).mpr hat.le)

theorem TftpWorld.inv_start (c : Tftp) (timer : Nat) :
    (TftpWorld.start cfg c timer).Inv cfg srv := by
  refine .waiting ⟨rfl, rfl, rfl, rfl, rfl, rfl⟩ rfl ?_
  intro port s hs
  cases hs

@[simp]
theorem TftpWorld.set_self (w : TftpWorld) (port : Nat) (s : Session) :
    (w.set port s).sessions port = some s := by
  unfold TftpWorld.set
  exact Function.update_self ..

theorem TftpWorld.set_other (w : TftpWorld) {port port' : Nat} (s : Session) (h : port' ≠ port) :
    (w.set port s).sessions port' = w.sessions port' := by
  unfold TftpWorld.set
  exact Function.update_of_ne h ..

theorem TftpWorld.fresh_set {s' s₀ : Session} {port' : Nat}
    (hothers : port' ≠ port → w.sessions port' = some s₀ → Fresh srv s₀)
    (hs' : port' = port → Fresh srv s') (hget : (w.set port s').sessions port' = some s₀) :
    Fresh srv s₀ := by
  by_cases hport : port' = port
  · have hfresh := hs' hport
    rw [hport, w.set_self] at hget
    rwa [← Option.some.inj hget]
  · rw [w.set_other s' hport] at hget
    exact hothers hport hget

/-- A session changes and the client does not. -/
theorem TftpWorld.Inv.set {s' : Session} (hinv : w.Inv cfg srv) (hs : w.sessions port = some s)
    (hfresh : Fresh srv s → Fresh srv s')
    (hsynced : ∀ n, At cfg srv n w.client → Synced srv n s → Synced srv n s') :
    (w.set port s').Inv cfg srv := by
  cases hinv with
  | ended netState complete => exact .ended netState complete
  | waiting client free fresh =>
    refine .waiting client ?_ ?_
    · rw [w.set_other s' (by rintro rfl; rw [free] at hs; cases hs), free]
    · intro port' s₀ hget
      exact TftpWorld.fresh_set (fun _ => fresh port' s₀) (fun _ => hfresh (fresh port s hs)) hget
  | synced n s₁ client session synced fresh =>
    by_cases hport : w.client.serverPort = port
    · subst hport
      obtain rfl : s = s₁ := Option.some.inj (hs.symm.trans session)
      refine .synced n s' client (w.set_self _ s') (hsynced n client synced) ?_
      intro port' s₀ hne hget
      exact TftpWorld.fresh_set (fresh port' s₀) (fun h => absurd h hne) hget
    · refine .synced n s₁ client ?_ synced ?_
      · rw [← session]
        exact w.set_other s' hport
      · intro port' s₀ hne hget
        exact TftpWorld.fresh_set (fun _ => fresh port' s₀ hne)
          (fun _ => hfresh (fresh port s (fun h => hport h.symm) hs)) hget

theorem TftpWorld.Inv.openSession (hinv : w.Inv cfg srv) (hown : port ≠ wellKnownPort)
    (hfree : w.sessions port = none) : (w.set port (.start srv)).Inv cfg srv := by
  cases hinv with
  | ended netState complete => exact .ended netState complete
  | waiting client free fresh =>
    refine .waiting client ?_ ?_
    · rw [w.set_other _ hown.symm, free]
    · intro port' s₀ hget
      exact TftpWorld.fresh_set (fun _ => fresh port' s₀) (fun _ => fresh_start) hget
  | synced n s client session synced fresh =>
    have hport : w.client.serverPort ≠ port := by
      rintro rfl
      rw [hfree] at session
      cases session
    refine .synced n s client ?_ synced ?_
    · rw [← session]
      exact w.set_other _ hport
    · intro port' s₀ hne hget
      exact TftpWorld.fresh_set (fun _ => fresh port' s₀ hne) (fun _ => fresh_start) hget

/-! ## Calls of the client -/

theorem TftpWorld.call_none (w : TftpWorld) (c : Tftp) :
    w.call (c, none) = { w with client := c } := rfl

theorem TftpWorld.call_some {r : Tftp × Option Bytes} {pkt : Bytes} (hsent : r.2 = some pkt)
    (hs : w.sessions r.1.serverPort = some s) :
    w.call r = { w with client := r.1 }.set r.1.serverPort
      { s with toServer := s.toServer ++ [pkt] } := by
  unfold TftpWorld.call
  rw [hsent, hs]

theorem TftpWorld.call_client (w : TftpWorld) (r : Tftp × Option Bytes) :
    (w.call r).client = r.1 := by
  unfold TftpWorld.call
  split <;> rfl

/-- An acknowledgement is sent to a session that is in step with it. -/
theorem TftpWorld.inv_acknowledge {r : Tftp × Option Bytes} (hsent : r.2 = some (ackPacket n))
    (hat : At cfg srv n r.1) (hs : w.sessions r.1.serverPort = some s)
    (hsynced : Synced srv n { s with toServer := s.toServer ++ [ackPacket n] })
    (hfresh : ∀ port s, port ≠ r.1.serverPort → w.sessions port = some s → Fresh srv s) :
    (w.call r).Inv cfg srv := by
  rw [TftpWorld.call_some hsent hs]
  refine .synced n _ hat (TftpWorld.set_self ..) hsynced ?_
  intro port s₀ hne hget
  have hport : port ≠ r.1.serverPort := hne
  rw [TftpWorld.set_other _ _ hport] at hget
  exact hfresh port s₀ hport hget

/-- The transfer ends. -/
theorem TftpWorld.inv_ended {r : Tftp × Option Bytes} (hnet : r.1.netState ≠ .loop)
    (hcomplete : r.1.netState = .success → Complete cfg srv r.1) : (w.call r).Inv cfg srv := by
  refine .ended ?_ ?_
  · rw [w.call_client]
    exact hnet
  · rw [w.call_client]
    exact hcomplete

/-- The client takes a new block from its session. -/
theorem TftpWorld.inv_taken {c : Tftp} {r : Tftp × Option Bytes}
    (hsent : r.2 = some (ackPacket (n + 1))) (htaken : Taken cfg srv n port c r.1)
    (hs : w.sessions port = some s)
    (hsynced : Synced srv (n + 1) { s with toServer := s.toServer ++ [ackPacket (n + 1)] })
    (hfresh : ∀ port' s, port' ≠ port → w.sessions port' = some s → Fresh srv s) :
    (w.call r).Inv cfg srv := by
  rcases Nat.lt_or_ge srv.file.length ((n + 1) * srv.blkSize) with hlast | hmore
  · obtain ⟨hnet, hcomplete⟩ := htaken.last hlast
    refine TftpWorld.inv_ended ?_ fun _ => hcomplete
    rw [hnet]
    exact nofun
  · rw [← htaken.serverPort] at hs hfresh
    exact TftpWorld.inv_acknowledge hsent (htaken.more hmore) hs hsynced hfresh

/-- A timeout of the client. -/
theorem TftpWorld.Inv.timeout {again : Again} (hinv : w.Inv cfg srv)
    (hruns : w.client.netState = .loop) :
    (w.call (tftpTimeout cfg w.client again)).Inv cfg srv := by
  cases hinv with
  | ended netState complete => exact absurd hruns netState
  | waiting client free fresh =>
    rcases waiting_timeout client with ⟨hnet, hsuccess⟩ | hwait
    · exact TftpWorld.inv_ended hnet fun h => absurd h hsuccess
    · -- The request goes to a port where no session is.
      have hcall : w.call (tftpTimeout cfg w.client again) =
          { w with client := (tftpTimeout cfg w.client again).1 } := by
        unfold TftpWorld.call
        rw [hwait.serverPort, free]
        split
        · rename_i hnone
          cases hnone
        · rfl
      rw [hcall]
      exact .waiting hwait free fresh
  | synced n s client session synced fresh =>
    rcases at_timeout client with ⟨hnet, hsuccess⟩ | ⟨hsent, hport, hat⟩
    · exact TftpWorld.inv_ended hnet fun h => absurd h hsuccess
    · rw [← hport] at session fresh
      exact TftpWorld.inv_acknowledge hsent hat session synced.acknowledge fresh

/-- The first packet of a session makes it the one of the client. -/
theorem TftpWorld.inv_first {again : Again} (hfits : srv.Fits cfg) (hwait : Waiting w.client)
    (hfresh : ∀ port s, w.sessions port = some s → Fresh srv s)
    (hs : w.sessions port = some s) :
    (w.call (tftpHandler cfg w.client (srv.packet srv.first) w.client.ourPort port again)).Inv
      cfg srv := by
  have hothers : ∀ port' s, port' ≠ port → w.sessions port' = some s → Fresh srv s := by
    intro port' s _ hget
    exact hfresh port' s hget
  have hsession := hfresh port s hs
  cases ho : srv.options with
  | some o =>
    have hfirst : srv.first = 0 := by
      rw [TftpServer.first, ho]
      rfl
    rw [hfirst]
    obtain ⟨hsent, -, hport, hat⟩ := @oack_at cfg srv w.client port again hwait.netState
      (Or.inl hwait.state) (Or.inl hwait.blkSize) hwait.block hwait.size
    rw [← hport] at hs hothers
    exact TftpWorld.inv_acknowledge hsent hat hs (hsession.synced hfirst) hothers
  | none =>
    have hfirst : srv.first = 1 := by
      rw [TftpServer.first, ho]
      rfl
    have hblk : srv.blkSize = tftpBlockSize := by
      rw [TftpServer.blkSize, ho]
    rw [hfirst]
    obtain ⟨hsent, htaken⟩ := @first_next cfg srv w.client port again hfits hwait.netState
      (Or.inl hwait.state) (Or.inl hwait.state) (hwait.blkSize.trans hblk.symm) hwait.size
    exact TftpWorld.inv_taken hsent htaken hs (hsession.synced hfirst) hothers

/-- The last packet again, unless its number on the wire is 0. -/
theorem TftpWorld.inv_repeated {again : Again} (hinv : w.Inv cfg srv)
    (hat : At cfg srv n w.client) (hs : w.sessions w.client.serverPort = some s)
    (hsynced : Synced srv n s)
    (hfresh : ∀ port s, port ≠ w.client.serverPort → w.sessions port = some s → Fresh srv s)
    (hnumber : n = 0 ∨ n % 65536 ≠ 0) :
    (w.call (tftpHandler cfg w.client (srv.packet n) w.client.ourPort w.client.serverPort
      again)).Inv cfg srv := by
  by_cases hn : n = 0
  · subst hn
    obtain ⟨hsent, -, hport, hat'⟩ := @oack_at cfg srv w.client w.client.serverPort again
      hat.netState (Or.inr rfl) (Or.inr hat.blkSize) hat.block (by rw [hat.size, Nat.zero_mul])
    rw [← hport] at hs hfresh
    exact TftpWorld.inv_acknowledge hsent hat' hs hsynced.acknowledge hfresh
  · rw [at_repeated hat hn (hnumber.resolve_left hn), TftpWorld.call_none]
    exact hinv

/-- A packet of a session reaches the client. -/
theorem TftpWorld.Inv.deliver {pkt : Bytes} {rest : List Bytes} {dup : Bool} {again : Again}
    (hfits : srv.Fits cfg) (hinv : w.Inv cfg srv) (hs : w.sessions port = some s)
    (hhead : s.toClient = pkt :: rest) (hruns : w.client.netState = .loop)
    (hok : ¬ (TftpEvent.deliverData port dup again).RepeatsZero w) :
    ((w.set port { s with toClient := keep dup pkt rest }).call
      (tftpHandler cfg w.client pkt w.client.ourPort port again)).Inv cfg srv := by
  have hmem : ∀ p ∈ keep dup pkt rest, p ∈ s.toClient := by
    rw [hhead]
    exact fun p hp => mem_of_mem_keep hp
  have hset : (w.set port { s with toClient := keep dup pkt rest }).Inv cfg srv :=
    hinv.set hs (fun h => h.shrink hmem) fun n _ h => h.loseData hhead
  cases hinv with
  | ended netState complete => exact absurd hruns netState
  | waiting client free fresh =>
    have hpkt : pkt = srv.packet srv.first := by
      apply (fresh port s hs).toClient
      rw [hhead]
      exact List.mem_cons_self
    subst hpkt
    refine TftpWorld.inv_first hfits client ?_ (TftpWorld.set_self ..)
    intro port' s₀ hget
    exact TftpWorld.fresh_set (fun _ => fresh port' s₀)
      (fun _ => (fresh port s hs).shrink hmem) hget
  | synced n s₁ client session synced fresh =>
    by_cases hport : port = w.client.serverPort
    · subst hport
      obtain rfl : s = s₁ := Option.some.inj (hs.symm.trans session)
      have hothers : ∀ port s₀, port ≠ w.client.serverPort →
          (w.set w.client.serverPort { s with toClient := keep dup pkt rest }).sessions port =
            some s₀ → Fresh srv s₀ := by
        intro port s₀ hne hget
        exact TftpWorld.fresh_set (fresh port s₀) (fun h => absurd h hne) hget
      rcases synced.head hhead with hold | ⟨hnew, hsynced⟩
      · subst hold
        refine TftpWorld.inv_repeated hset client (TftpWorld.set_self ..) (synced.loseData hhead)
          hothers ?_
        by_contra hzero
        obtain ⟨hn, hnumber⟩ := not_or.mp hzero
        rw [not_not] at hnumber
        refine hok ⟨?_, rfl, ?_, s, srv.packet n, rest, hs, hhead, ?_⟩
        · rw [client.state, if_neg hn]
        · rw [client.lastBlock hn, hnumber]
        · rw [TftpServer.packet, if_neg hn]
          exact ⟨ntohs_htons, (@ntohs_htons n (srv.blockBytes n)).trans hnumber⟩
      · subst hnew
        obtain ⟨hsent, htaken⟩ := @at_next cfg srv w.client n again hfits client
        exact TftpWorld.inv_taken hsent htaken (TftpWorld.set_self ..) hsynced hothers
    · have hstate : w.client.state ≠ .rrq := by
        rw [client.state]
        split <;> simp
      rw [tftpHandler_other hstate hport, TftpWorld.call_none]
      exact hset

/-! ## Runs -/

/-- Every step keeps the invariant, unless it repeats a block of number 0. -/
theorem TftpStep.inv {e : TftpEvent} {w' : TftpWorld} (hblk : 0 < srv.blkSize)
    (hfits : srv.Fits cfg) (hinv : w.Inv cfg srv) (hok : ¬ e.RepeatsZero w)
    (hstep : TftpStep cfg srv w e w') : w'.Inv cfg srv := by
  cases hstep with
  | openSession own free => exact hinv.openSession own free
  | serverTimeout session waits =>
    exact hinv.set session (fun h => h.resend) fun n _ h => h.resend
  | loseData session head =>
    refine hinv.set session (fun h => h.shrink ?_) fun n _ h => ?_
    · intro p hp
      rw [head]
      exact List.mem_cons_of_mem _ hp
    · exact @Synced.loseData srv _ n _ _ h head false
  | loseAck session head =>
    refine hinv.set session ?_ fun n _ h => ?_
    · intro h
      rw [h.toServer] at head
      cases head
    · exact @Synced.loseAck srv _ n _ _ h head false
  | deliverData session head runs => exact hinv.deliver hfits session head runs hok
  | deliverAck session head =>
    refine hinv.set session ?_ fun n hat h => h.receive (hat.lt_blockCount hblk) head
    intro h
    rw [h.toServer] at head
    cases head
  | clientTimeout runs => exact hinv.timeout runs

/-! ## Transfers without a loss -/

section Lossless

variable {c : Tftp} {timer : Nat} {dup : Bool} {steps : List (TftpWorld × TftpEvent)}

/-- The session at a port after packet `n` was delivered to the client. -/
def taken (srv : TftpServer) (n : Nat) (dup : Bool) : Session :=
  ⟨n, keep dup (srv.packet n) [], [ackPacket n]⟩

/-- The packet that the client is sent next is delivered to it. -/
theorem deliver_step {c' : Tftp} {again : Again} (hruns : w.client.netState = .loop)
    (hs : w.sessions port = some ⟨n, [srv.packet n], []⟩)
    (hhandler : tftpHandler cfg w.client (srv.packet n) w.client.ourPort port again =
      (c', some (ackPacket n))) (hport : c'.serverPort = port) :
    ∃ w', TftpStep cfg srv w (.deliverData port dup again) w' ∧ w'.client = c' ∧
      w'.sessions port = some (taken srv n dup) := by
  refine ⟨_, .deliverData hs rfl hruns, ?_, ?_⟩
  · rw [hhandler, TftpWorld.call_client]
  · subst hport
    have hcall := @TftpWorld.call_some _ _ (c', some (ackPacket n)) (ackPacket n) rfl
      (w.set_self c'.serverPort ⟨n, keep dup (srv.packet n) [], []⟩)
    rw [hhandler, hcall, TftpWorld.set_self]
    rfl

/-- The server answers the request, and the first block is delivered. -/
theorem run_first (hfits : srv.Fits cfg) (hnone : srv.options = none)
    (hport : port ≠ wellKnownPort) :
    ∃ w, Run (TftpStep cfg srv) (TftpWorld.start cfg c timer)
        [(TftpWorld.start cfg c timer, .openSession port),
          ((TftpWorld.start cfg c timer).set port (.start srv), .deliverData port dup .fail)] w ∧
      Taken cfg srv 0 port (TftpWorld.start cfg c timer).client w.client ∧
      w.sessions port = some (taken srv 1 dup) := by
  have hfirst : srv.first = 1 := by
    rw [TftpServer.first, hnone]
    rfl
  have hblk : tftpBlockSize = srv.blkSize := by
    rw [TftpServer.blkSize, hnone]
  obtain ⟨hsent, htaken⟩ := @first_next cfg srv (TftpWorld.start cfg c timer).client port .fail
    hfits rfl (Or.inl rfl) (Or.inl rfl) hblk rfl
  have hs : ((TftpWorld.start cfg c timer).set port (.start srv)).sessions port =
      some ⟨1, [srv.packet 1], []⟩ := by
    rw [TftpWorld.set_self, Session.start, hfirst]
  obtain ⟨w, hstep, hclient, hsession⟩ := @deliver_step cfg srv _ 1 port dup _ .fail rfl hs
    (Prod.ext rfl hsent) htaken.serverPort
  refine ⟨w, (Run.refl.tail (.openSession hport rfl)).tail hstep, ?_, hsession⟩
  rw [hclient]
  exact htaken

/-- The acknowledgement of packet `n` is delivered. -/
theorem acknowledge_step (hmore : n + 1 ≤ srv.blockCount)
    (hs : w.sessions port = some (taken srv n false)) :
    TftpStep cfg srv w (.deliverAck port false)
      (w.set port ⟨n + 1, [srv.packet (n + 1)], []⟩) := by
  have hreceive : { taken srv n false with toServer := keep false (ackPacket n) [] }.receive srv
      (ackPacket n) = ⟨n + 1, [srv.packet (n + 1)], []⟩ := by
    have hle : n ≤ srv.blockCount := Nat.le_of_succ_le hmore
    unfold Session.receive
    rw [if_pos ⟨hle, rfl⟩]
    exact if_pos hmore
  rw [← hreceive]
  exact .deliverAck hs rfl

/-- The server gets the acknowledgement of packet `n`, and the client the next packet. -/
theorem run_next (hblk : 0 < srv.blkSize) (hfits : srv.Fits cfg) {w₀ : TftpWorld}
    (hrun : Run (TftpStep cfg srv) w₀ steps w) (hat : At cfg srv n w.client)
    (hs : w.sessions w.client.serverPort = some (taken srv n false)) :
    ∃ steps' w', Run (TftpStep cfg srv) w₀ steps' w' ∧
      Taken cfg srv n w.client.serverPort w.client w'.client ∧
      w'.sessions w.client.serverPort = some (taken srv (n + 1) dup) := by
  obtain ⟨hsent, htaken⟩ := @at_next cfg srv w.client n .fail hfits hat
  have hack := hrun.tail (acknowledge_step (hat.lt_blockCount hblk) hs)
  obtain ⟨w', hstep, hclient, hsession⟩ := @deliver_step cfg srv
    (w.set w.client.serverPort ⟨n + 1, [srv.packet (n + 1)], []⟩) (n + 1) w.client.serverPort dup
    _ .fail hat.netState (w.set_self ..) (Prod.ext rfl hsent) htaken.serverPort
  refine ⟨_, w', hack.tail hstep, ?_, hsession⟩
  rw [hclient]
  exact htaken

/-- The client gets to every block before the last one. -/
theorem run_lossless (hblk : 0 < srv.blkSize) (hfits : srv.Fits cfg) (hnone : srv.options = none)
    (hport : port ≠ wellKnownPort) (hn : (n + 1) * srv.blkSize ≤ srv.file.length) :
    ∃ steps w, Run (TftpStep cfg srv) (TftpWorld.start cfg c timer) steps w ∧
      At cfg srv (n + 1) w.client ∧ w.client.serverPort = port ∧
      w.sessions port = some (taken srv (n + 1) false) := by
  induction n with
  | zero =>
    obtain ⟨w, hrun, htaken, hsession⟩ := @run_first cfg srv port c timer false hfits hnone hport
    exact ⟨_, w, hrun, htaken.more hn, htaken.serverPort, hsession⟩
  | succ n ih =>
    have hbefore : (n + 1) * srv.blkSize ≤ srv.file.length :=
      (Nat.mul_le_mul_right srv.blkSize (Nat.le_succ (n + 1))).trans hn
    obtain ⟨steps, w, hrun, hat, rfl, hs⟩ := ih hbefore
    obtain ⟨steps', w', hrun', htaken, hsession⟩ :=
      @run_next cfg srv w (n + 1) false steps hblk hfits _ hrun hat hs
    exact ⟨steps', w', hrun', htaken.more hn, htaken.serverPort, hsession⟩

end Lossless

/-! ## Runs that end with success -/

/-- A transfer that no block of number 0 is repeated in: when it succeeds, the file is in memory. -/
theorem tftpRun_complete {c : Tftp} {timer : Nat} {w : TftpWorld}
    {steps : List (TftpWorld × TftpEvent)} (hblk : 0 < srv.blkSize) (hfits : srv.Fits cfg)
    (hrun : Run (TftpStep cfg srv) (TftpWorld.start cfg c timer) steps w)
    (hok : ∀ p ∈ steps, ¬ p.2.RepeatsZero p.1) (hsuccess : w.client.netState = .success) :
    Complete cfg srv w.client := by
  have hinv : w.Inv cfg srv :=
    hrun.invariant (TftpWorld.Inv cfg srv) (fun w e => ¬ e.RepeatsZero w)
      (fun hinv hok hstep => hstep.inv hblk hfits hinv hok) (TftpWorld.inv_start c timer) hok
  cases hinv with
  | ended netState complete => exact complete hsuccess
  | waiting client free fresh =>
    rw [client.netState] at hsuccess
    cases hsuccess
  | synced n s client session synced fresh =>
    rw [client.netState] at hsuccess
    cases hsuccess

/-- The copy of a packet is delivered: it is not stored, but its number is counted. -/
theorem repeat_step (hat : At cfg srv n w.client) (hn : n ≠ 0)
    (hs : w.sessions w.client.serverPort = some (taken srv n true)) :
    ∃ w', TftpStep cfg srv w (.deliverData w.client.serverPort false .fail) w' ∧
      w'.client = tftpNumber w.client (n % 65536) ∧
      w'.sessions w.client.serverPort = some (taken srv n false) := by
  refine ⟨_, .deliverData hs rfl hat.netState, ?_, ?_⟩
  · rw [TftpWorld.call_client, at_same hat hn]
  · rw [at_same hat hn, TftpWorld.call_none]
    exact w.set_self ..

/-- A client whose last block has another number on the wire than 0. -/
theorem At.not_repeatsZero (hat : At cfg srv n w.client) (hn : n % 65536 ≠ 0) (e : TftpEvent) :
    ¬ e.RepeatsZero w := by
  cases e with
  | deliverData port dup again =>
    rintro ⟨-, -, hlast, -⟩
    rw [hat.lastBlock (by rintro rfl; exact hn rfl)] at hlast
    exact hn hlast
  | _ => exact id

/-- The variables at power on, for a board that has not used the network yet. -/
def tftpAtReset : Tftp where
  serverPort := 0
  ourPort := 0
  timeoutCount := 0
  timeoutCountMax := timeoutCountDefault
  block := 0
  lastBlock := 0
  blockWrap := 0
  blockWrapOffset := 0
  state := .rrq
  blkSize := tftpBlockSize
  netState := .loop
  xferSize := 0
  mem := fun _ => 0

def uImageConfig : TftpConfig where
  loadAddr := 0x100000
  tftpFilename := str "uImage"
  timeoutMSecs := 5000
  blkSizeOption := 1468
  rrqTimeoutCountMax := timeoutCountDefault

/-- One block, and one byte. -/
def twoBlocks : TftpServer := ⟨List.replicate 513 7, none⟩

/-- The first block comes twice. -/
theorem tftpRun_complete_repeated :
    ∃ steps w, Run (TftpStep uImageConfig twoBlocks)
        (TftpWorld.start uImageConfig tftpAtReset 0) steps w ∧
      steps.map Prod.snd = [.openSession 2048, .deliverData 2048 true .fail,
        .deliverData 2048 false .fail, .deliverAck 2048 false, .deliverData 2048 false .fail] ∧
      (∀ p ∈ steps, ¬ p.2.RepeatsZero p.1) ∧ w.client.netState = .success ∧
      Complete uImageConfig twoBlocks w.client := by
  have hlength : twoBlocks.file.length = 513 := List.length_replicate
  have hblk : twoBlocks.blkSize = 512 := rfl
  have hfits : twoBlocks.Fits uImageConfig := by
    unfold TftpServer.Fits
    rw [hlength]
    decide
  obtain ⟨w₁, hrun, htaken, hs₁⟩ := @run_first uImageConfig twoBlocks 2048 tftpAtReset 0 true
    hfits rfl (by decide)
  have hat : At uImageConfig twoBlocks 1 w₁.client := htaken.more (by rw [hblk, hlength]; decide)
  have hport : w₁.client.serverPort = 2048 := htaken.serverPort
  -- the copy is ignored
  rw [← hport] at hs₁
  obtain ⟨w₂, hrepeat, hclient, hs₂⟩ := repeat_step hat Nat.one_ne_zero hs₁
  have hsame : tftpNumber w₁.client (1 % 65536) = w₁.client := congrArg Prod.fst
    ((@at_same uImageConfig twoBlocks w₁.client 1 .fail hat Nat.one_ne_zero).symm.trans
      (at_repeated hat Nat.one_ne_zero (by decide)))
  rw [hsame] at hclient
  rw [hport] at hrepeat hs₂
  rw [← hclient] at hat hport
  -- the second block is the last one
  have hack := @acknowledge_step uImageConfig twoBlocks w₂ 1 2048
    (hat.lt_blockCount (by decide)) hs₂
  obtain ⟨hsent, htaken₂⟩ := @at_next uImageConfig twoBlocks w₂.client 1 .fail hfits hat
  rw [hport] at hsent htaken₂
  obtain ⟨w, hdeliver, hend, -⟩ := @deliver_step uImageConfig twoBlocks
    (w₂.set 2048 ⟨1 + 1, [twoBlocks.packet (1 + 1)], []⟩) (1 + 1) 2048 false _ .fail hat.netState
    (w₂.set_self ..) (Prod.ext rfl hsent) htaken₂.serverPort
  have hsuccess : w.client.netState = .success := by
    rw [hend]
    exact (htaken₂.last (by rw [hblk, hlength]; decide)).1
  have hrun := ((hrun.tail hrepeat).tail hack).tail hdeliver
  refine ⟨_, w, hrun, rfl, ?hok, hsuccess,
    tftpRun_complete (by decide) hfits hrun ?hok hsuccess⟩
  simp only [List.cons_append, List.nil_append, List.forall_mem_cons]
  refine ⟨id, ?_, ?_, id, ?_, fun p hp => absurd hp List.not_mem_nil⟩
  · rintro ⟨hstate, -⟩
    cases hstate
  · exact At.not_repeatsZero (hclient ▸ hat) (by decide) _
  · exact @At.not_repeatsZero uImageConfig twoBlocks (w₂.set 2048 _) 1 hat (by decide) _

/-- Block 65537 of a client that has counted the number of block 65536 twice. -/
theorem misplaced_last {c : Tftp} {again : Again} (hat : At cfg srv 65536 c)
    (hsize : srv.blkSize = 512) (hlength : (srv.blockBytes 65537).length = 1) :
    (tftpHandler cfg (tftpNumber c 0) (srv.packet 65537) (tftpNumber c 0).ourPort
        (tftpNumber c 0).serverPort again).1.netState = .success ∧
      (tftpHandler cfg (tftpNumber c 0) (srv.packet 65537) (tftpNumber c 0).ourPort
        (tftpNumber c 0).serverPort again).1.xferSize = 2 * 65536 * 512 + 1 := by
  have hblk : (tftpNumber c 0).blkSize = 512 := hat.blkSize.trans hsize
  have hlast : (tftpNumber c 0).lastBlock = 0 := hat.lastBlock (by decide)
  have hxfer : (tftpNumber c 0).xferSize = 65536 * 512 := by
    rw [← hsize]
    exact hat.size
  have hwrap : (tftpNumber c 0).blockWrapOffset = 2 * 65536 * 512 := by
    rw [tftpNumber, if_pos rfl]
    dsimp only
    rw [hat.wrapOffset (by decide), hat.blkSize, hsize]
    rfl
  have hstate : ¬ ((tftpNumber c 0).state = .rrq ∨ (tftpNumber c 0).state = .oack) := by
    have hdata : (tftpNumber c 0).state = .data := hat.state
    simp [hdata]
  have hpacket : srv.packet 65537 = htons 3 ++ (htons 65537 ++ srv.blockBytes 65537) := rfl
  have hnumber : tftpNumber (tftpNumber c 0) (65537 % 65536) = { tftpNumber c 0 with block := 1 } :=
    rfl
  rw [hpacket, tftpHandler_data (Or.inr rfl), if_neg hstate, hnumber]
  obtain ⟨hnet, hstored⟩ := @tftpStore_last cfg { tftpNumber c 0 with block := 1 }
    (srv.blockBytes 65537) (by rw [hlast]; exact Nat.one_ne_zero) (by rw [hlength, hblk]; decide)
  refine ⟨hnet, ?_⟩
  rw [hstored]
  unfold storeBlock
  dsimp only
  rw [hlength, hwrap, hxfer, hblk]
  decide

/-- A packet is delivered, whatever the client makes of it. -/
theorem handler_step {again : Again} (hruns : w.client.netState = .loop)
    (hs : w.sessions port = some ⟨n, [srv.packet n], []⟩) :
    ∃ w', TftpStep cfg srv w (.deliverData port false again) w' ∧
      w'.client = (tftpHandler cfg w.client (srv.packet n) w.client.ourPort port again).1 := by
  refine ⟨_, .deliverData hs rfl hruns, ?_⟩
  rw [TftpWorld.call_client]

/-- A file of one byte more than 65536 blocks, whose block 65536 comes twice. -/
theorem run_repeatsZero (hfits : srv.Fits cfg) (hnone : srv.options = none)
    (hlength : srv.file.length = 65536 * 512 + 1) (hport : port ≠ wellKnownPort) (c : Tftp)
    (timer : Nat) :
    ∃ steps w, Run (TftpStep cfg srv) (TftpWorld.start cfg c timer) steps w ∧
      w.client.netState = .success ∧ w.client.xferSize = 2 * 65536 * 512 + 1 := by
  have hsize : srv.blkSize = 512 := by
    rw [TftpServer.blkSize, hnone]
    rfl
  have hblk : 0 < srv.blkSize := by omega
  -- The blocks up to 65535, and block 65536, of which a copy is left.
  obtain ⟨_, w₁, hrun₁, hat₁, rfl, hs₁⟩ := @run_lossless cfg srv 65534 port c timer hblk hfits hnone
    hport (by rw [hsize, hlength]; omega)
  obtain ⟨_, w₂, hrun₂, htaken, hs₂⟩ :=
    @run_next cfg srv w₁ 65535 true _ hblk hfits _ hrun₁ hat₁ hs₁
  have hat₂ : At cfg srv 65536 w₂.client := htaken.more (by rw [hsize, hlength]; omega)
  rw [← htaken.serverPort] at hs₂
  -- The copy advances the offset once more.
  obtain ⟨w₃, hrepeat, hclient, hs₃⟩ := repeat_step hat₂ (by decide) hs₂
  rw [Nat.mod_self] at hclient
  have hack := @acknowledge_step cfg srv w₃ _ _ (hat₂.lt_blockCount hblk) hs₃
  -- The last block is stored behind it.
  have hbytes : (srv.blockBytes 65537).length = 1 := by
    rw [length_blockBytes, hsize, hlength]
    rfl
  have hruns : w₃.client.netState = .loop := by
    rw [hclient]
    exact hat₂.netState
  obtain ⟨w, hdeliver, hend⟩ := @handler_step cfg srv
    (w₃.set w₂.client.serverPort ⟨65536 + 1, [srv.packet (65536 + 1)], []⟩) (65536 + 1)
    w₂.client.serverPort .fail hruns (w₃.set_self ..)
  have hport : w₂.client.serverPort = (tftpNumber w₂.client 0).serverPort := rfl
  have hset : (w₃.set w₂.client.serverPort ⟨65536 + 1, [srv.packet (65536 + 1)], []⟩).client =
      tftpNumber w₂.client 0 := hclient
  rw [hset, hport] at hend
  refine ⟨_, w, ((hrun₂.tail hrepeat).tail hack).tail hdeliver, ?_⟩
  rw [hend]
  exact misplaced_last hat₂ hsize hbytes

/-- A file for 65537 blocks, of which the last one has one byte. -/
def longFile : TftpServer := ⟨List.replicate (65536 * 512 + 1) 0, none⟩

theorem tftpRun_not_complete :
    0 < longFile.blkSize ∧ longFile.Fits uImageConfig ∧
      ∃ steps w, Run (TftpStep uImageConfig longFile)
          (TftpWorld.start uImageConfig tftpAtReset 0) steps w ∧
        w.client.netState = .success ∧ ¬ Complete uImageConfig longFile w.client := by
  have hlength : longFile.file.length = 65536 * 512 + 1 := List.length_replicate
  have hfits : longFile.Fits uImageConfig := by
    unfold TftpServer.Fits
    rw [hlength]
    decide
  refine ⟨by decide, hfits, ?_⟩
  obtain ⟨steps, w, hrun, hnet, hxfer⟩ := @run_repeatsZero uImageConfig longFile 2048 hfits rfl
    hlength (by decide) tftpAtReset 0
  refine ⟨steps, w, hrun, hnet, ?_⟩
  intro hcomplete
  have hsize := hcomplete.size
  rw [hxfer, hlength] at hsize
  omega

end UBoot.Net
