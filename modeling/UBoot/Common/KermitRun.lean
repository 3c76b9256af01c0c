import UBoot.Common.Kermit
import UBoot.Lib.Run

/-!
# Downloads over a line that damages packets

The sender sends its packets one after the other, each again until it is acknowledged; what arrives
is any sequence of characters, except that a packet which is accepted is the one that was sent, and
that a sequence number which arrives is the right one (`KermitEvent.Detected`).

`k_recv` stores the data of a packet as it arrives, and goes back to its last checkpoint on an
error.  The checkpoint is the one in front of the last packet whose number was seen, so an error in
front of the number of the next packet takes back data that have been acknowledged, and they are
lost if the next number is a new one (`KermitEvent.Loses`).  `kermit_download`: otherwise the file
arrives.
-/

namespace UBoot.Common.Kermit

open UBoot.Lib

/-! ## The sender -/

/-- A packet, in a short or in a long frame. -/
structure KPacket where
  type : UInt8
  data : Bytes
  long : Bool
  fits : if long then data.length + 1 < 95 * 95 else data.length ≤ 91

/-- The sum of the characters. -/
def sumOf (cs : Bytes) : Nat := (cs.map UInt8.toNat).sum

/-- The front of a frame, behind `START_CHAR`. -/
def KPacket.header (p : KPacket) (number : Nat) : Bytes :=
  if p.long then
    let fields := [tochar 0, tochar number, p.type, tochar ((p.data.length + 1) / 95 : Nat),
      tochar ((p.data.length + 1) % 95 : Nat)]
    fields ++ [tochar (foldSum (sumOf fields))]
  else [tochar (p.data.length + 3), tochar number, p.type]

/-- A frame, behind `START_CHAR`. -/
def KPacket.frame (p : KPacket) (number : Nat) : Bytes :=
  p.header number ++ p.data ++
    [tochar (foldSum (sumOf (p.header number ++ p.data))), endChar]

/-- What is sent: send initiate, file header, data, end of file, break transmission. -/
structure KermitFile where
  send : KPacket
  name : KPacket
  datas : List KPacket
  eof : KPacket
  close : KPacket
  send_type : send.type = sendType
  name_type : name.type = 0x46
  data_type : ∀ p ∈ datas, p.type = dataType
  eof_type : eof.type = 0x5A
  close_type : close.type = breakType

/-- All packets in order. -/
def KermitFile.packets (f : KermitFile) : List KPacket :=
  f.send :: f.name :: (f.datas ++ [f.eof, f.close])

/-- The control quote that the sender names. -/
def KermitFile.quote (f : KermitFile) : UInt8 :=
  if 6 ≤ f.send.data.length then f.send.data.getD 5 0 else kEscape

/-- One character of quoted data: whether the next one is quoted, and what has been read. -/
def decodeChar (quote : UInt8) (r : Bool × Bytes) (c : UInt8) : Bool × Bytes :=
  if r.1 then (false, r.2 ++ [ktrans c])
  else if c = quote then (true, r.2)
  else (false, r.2 ++ [c])

def decode (quote : UInt8) (cs : Bytes) : Bool × Bytes := cs.foldl (decodeChar quote) (false, [])

/-- The bytes of the file. -/
def KermitFile.bytes (f : KermitFile) : Bytes :=
  (decode f.quote (f.datas.map KPacket.data).flatten).2

/-! ## The line -/

/-- The receiver, the packet whose transmissions arrive, the characters since the last
`START_CHAR`, and how many packets the receiver has seen the numbers of and acknowledged, and
whether it has gone back since its last acknowledgement. -/
structure KermitLine where
  k : Krecv
  idx : Nat
  got : Bytes
  seen : Nat
  acked : Nat
  undone : Bool

def KermitLine.start (addr : Nat) (mem : Contents) : KermitLine :=
  ⟨kRecvStart addr mem, 0, [], 0, 0, false⟩

inductive KermitEvent
  /-- a character arrives -/
  | char (c : UInt8)
  /-- the sender goes on to the next packet -/
  | next
  deriving DecidableEq

/-- The packet is over, and in order. -/
def accepts (k : Krecv) (c : UInt8) : Prop := k.phase = .endChar ∧ c = endChar

instance (k : Krecv) (c : UInt8) : Decidable (accepts k c) := inferInstanceAs (Decidable (_ ∧ _))

/-- A sequence number arrives. -/
def numbers (k : Krecv) (c : UInt8) : Prop := k.phase = .sequence ∧ isControl c = false

instance (k : Krecv) (c : UInt8) : Decidable (numbers k c) := inferInstanceAs (Decidable (_ ∧ _))

def KermitLine.receive (s : KermitLine) (c : UInt8) : KermitLine where
  k := (kRecv s.k c).1
  idx := s.idx
  got := if s.k.phase = .start then [] else s.got ++ [c]
  seen := if numbers s.k c then s.idx + 1 else s.seen
  acked := if accepts s.k c then s.idx + 1 else s.acked
  undone := (kRecvChar s.k c).isNone || (!decide (accepts s.k c) && s.undone)

/-- The sender goes on after the acknowledgement of its packet. -/
def kermitStep (f : KermitFile) (s : KermitLine) : KermitEvent → Option KermitLine
  | .char c => some (s.receive c)
  | .next =>
    if s.acked = s.idx + 1 ∧ s.idx + 1 < f.packets.length then some { s with idx := s.idx + 1 }
    else none

/-- Damage is detected, and does not change a sequence number that arrives. -/
def KermitEvent.Detected (f : KermitFile) (s : KermitLine) : KermitEvent → Prop
  | .char c => (numbers s.k c → c = tochar (s.idx % 64 : Nat)) ∧
    (accepts s.k c → (f.packets[s.idx]?.map fun p => p.frame (s.idx % 64)) = some (s.got ++ [c]))
  | .next => True

/-- The data of a packet. -/
def KPacket.payload (p : KPacket) : Bytes := if p.type = dataType then p.data else []

/-- The number of a new packet arrives when `k_recv` has gone back since it acknowledged the one in
front of it, which has data. -/
def KermitEvent.Loses (f : KermitFile) (s : KermitLine) : KermitEvent → Prop
  | .char c => numbers s.k c ∧ s.idx = s.seen ∧ s.undone = true ∧
    (f.packets[s.seen - 1]?.any fun p => p.payload ≠ []) = true
  | .next => False

instance (f : KermitFile) (s : KermitLine) (e : KermitEvent) : Decidable (e.Detected f s) :=
  match e with
  | .char _ => inferInstanceAs (Decidable ((_ → _ = _) ∧ (_ → _ = _)))
  | .next => inferInstanceAs (Decidable True)

instance (f : KermitFile) (s : KermitLine) (e : KermitEvent) : Decidable (e.Loses f s) :=
  match e with
  | .char _ => inferInstanceAs (Decidable (_ ∧ _ = _ ∧ _ = _ ∧ _ = _))
  | .next => inferInstanceAs (Decidable False)

/-- The data of the packets in front of one. -/
def KermitFile.before (f : KermitFile) (i : Nat) : Bytes :=
  ((f.packets.take i).map KPacket.payload).flatten

/-- The front of a frame, as `k_recv` reads it: behind the length, the number and the type there
are three characters more if the length is zero. -/
structure IsHeader (number : Nat) (type : UInt8) (header : Bytes) : Prop where
  split : ∃ a rest, header = a :: tochar number :: type :: rest ∧
    rest.length = if untochar a = 0 then 3 else 0

/-- The data that are fed have been stored. -/
structure Holds (addr : Nat) (q : UInt8) (mem : Contents) (d : KData) (fed : Bytes) : Prop where
  escape : d.escape = (decode q fed).1
  state : d.osDataState = 0
  place : d.osDataAddr = addr + (decode q fed).2.length
  stored : readAt mem addr (decode q fed).2.length = (decode q fed).2

/-- Between two packets, the data are those of the packets seen, without the last one if `k_recv`
has gone back. -/
structure Between (f : KermitFile) (addr : Nat) (s : KermitLine) : Prop where
  holds : Holds addr s.k.hisQuote s.k.mem s.k.data
    (f.before (if s.undone then s.seen - 1 else s.seen))

/-- In the header, the data are those in front of the packet. -/
structure InHeader (f : KermitFile) (addr : Nat) (s : KermitLine) : Prop where
  seen : 0 < s.seen
  holds : Holds addr s.k.hisQuote s.k.mem s.k.data (f.before (s.seen - 1))
  parms : s.k.sendParms = []

/-- Behind the header, the data of the packet come in. -/
structure InBody (f : KermitFile) (addr : Nat) (s : KermitLine) (header body : Bytes) : Prop where
  seen : 0 < s.seen
  header : IsHeader ((s.seen - 1) % 64) s.k.kState header
  holds : Holds addr s.k.hisQuote s.k.mem s.k.data
    (f.before (s.seen - 1) ++ if s.k.kState = dataType then body else [])
  parms : s.k.kState = sendType → s.k.sendParms = body.take (sendDataSize - 1)

/-- What holds where `k_recv` waits for a character. -/
def AtPhase (f : KermitFile) (addr : Nat) (s : KermitLine) : Phase → Prop
  | .start => Between f addr s
  | .length => Between f addr s ∧ s.k.sendParms = [] ∧ s.got = []
  | .sequence => Between f addr s ∧ s.k.sendParms = [] ∧
    ∃ a, s.got = [a] ∧ s.k.len = untochar a
  | .type => InHeader f addr s ∧
    ∃ a, s.got = [a, tochar ((s.seen - 1) % 64 : Nat)] ∧ s.k.len = untochar a - 1
  | .lenHi => InHeader f addr s ∧
    ∃ a, s.got = [a, tochar ((s.seen - 1) % 64 : Nat), s.k.kState] ∧ untochar a = 0
  | .lenLo => InHeader f addr s ∧
    ∃ a b, s.got = [a, tochar ((s.seen - 1) % 64 : Nat), s.k.kState, b] ∧ untochar a = 0
  | .headerCheck => InHeader f addr s ∧
    ∃ a b c, s.got = [a, tochar ((s.seen - 1) % 64 : Nat), s.k.kState, b, c] ∧ untochar a = 0
  | .rest => ∃ header body, s.got = header ++ body ∧ InBody f addr s header body
  | .check => ∃ header body, s.got = header ++ body ∧ InBody f addr s header body
  | .endChar => ∃ header body x, s.got = header ++ body ++ [x] ∧ InBody f addr s header body
  | .aborted => True
  | .done => Holds addr s.k.hisQuote s.k.mem s.k.data (f.before f.packets.length) ∧
    s.k.hisQuote = f.quote

/-- What holds along a run. -/
structure KermitInv (f : KermitFile) (addr : Nat) (s : KermitLine) : Prop where
  idx_lt : s.idx < f.packets.length
  idx_le : s.idx ≤ s.acked
  acked_le : s.acked ≤ s.seen
  seen_le : s.seen ≤ s.idx + 1
  lastN : s.k.lastN = if s.seen = 0 then (-1 : Int) else ((s.seen - 1) % 64 : Nat)
  quote : 0 < s.acked → s.k.hisQuote = f.quote
  base : s.k.binStartAddress = addr
  saved : Holds addr s.k.hisQuote s.k.mem s.k.saved (f.before (s.seen - 1))
  progress : AtPhase f addr s s.k.phase

section Lemmas

variable {f : KermitFile} {s s' : KermitLine} {k : Krecv} {d : KData} {addr i : Nat} {q c : UInt8}
  {fed fed' cs : Bytes} {p : KPacket}

/-! ## Data -/

theorem decode_append (fed cs : Bytes) :
    decode q (fed ++ cs) = cs.foldl (decodeChar q) (decode q fed) := List.foldl_append

theorem decodeChar_mono {r : Bool × Bytes} : r.2 <+: (decodeChar q r c).2 := by
  unfold decodeChar
  split
  · exact List.prefix_append _ _
  split
  · exact List.prefix_rfl
  · exact List.prefix_append _ _

/-- What has been read stays. -/
theorem decode_mono (h : fed <+: fed') : (decode q fed).2 <+: (decode q fed').2 := by
  obtain ⟨cs, rfl⟩ := h
  rw [decode_append]
  generalize decode q fed = r
  induction cs generalizing r with
  | nil => exact List.prefix_rfl
  | cons c cs ih => exact decodeChar_mono.trans (ih (decodeChar q r c))

theorem Holds.char (h : Holds addr k.hisQuote k.mem k.data fed) :
    Holds addr k.hisQuote (kDataChar k c).mem (kDataChar k c).data (fed ++ [c]) := by
  obtain ⟨hescape, hstate, haddr, hmem⟩ := h
  have happend : ∀ x, readAt (storeAt k.mem k.data.osDataAddr [x]) addr
      ((decode k.hisQuote fed).2 ++ [x]).length = (decode k.hisQuote fed).2 ++ [x] := by
    intro x
    rw [List.length_append, readAt_add, readAt_storeAt_apart (Or.inl haddr.ge), hmem, haddr]
    congr 1
    exact readAt_storeAt _ _ [x]
  have hdecode : decode k.hisQuote (fed ++ [c]) =
      decodeChar k.hisQuote (decode k.hisQuote fed) c := by
    rw [decode_append, List.foldl_cons, List.foldl_nil]
  unfold kDataChar binDataChar
  rw [if_pos hstate, if_pos hstate]
  split
  · rename_i hesc
    have hchar : decodeChar k.hisQuote (decode k.hisQuote fed) c =
        (false, (decode k.hisQuote fed).2 ++ [ktrans c]) := if_pos (hescape.symm.trans hesc)
    refine ⟨?_, hstate, ?_, ?_⟩
    · dsimp only
      rw [hdecode, hchar]
    · dsimp only
      rw [hdecode, hchar, haddr, List.length_append, List.length_singleton, Nat.add_assoc]
    · dsimp only
      rw [hdecode, hchar]
      exact happend (ktrans c)
  · rename_i hesc
    have hno : ¬ (decode k.hisQuote fed).1 = true := fun h => hesc (hescape.trans h)
    split
    · rename_i hquote
      have hchar : decodeChar k.hisQuote (decode k.hisQuote fed) c =
          (true, (decode k.hisQuote fed).2) := (if_neg hno).trans (if_pos hquote)
      refine ⟨?_, hstate, ?_, ?_⟩
      · dsimp only
        rw [hdecode, hchar]
      · dsimp only
        rw [hdecode, hchar, haddr]
      · dsimp only
        rw [hdecode, hchar]
        exact hmem
    · rename_i hquote
      have hchar : decodeChar k.hisQuote (decode k.hisQuote fed) c =
          (false, (decode k.hisQuote fed).2 ++ [c]) := (if_neg hno).trans (if_neg hquote)
      refine ⟨?_, hstate, ?_, ?_⟩
      · dsimp only
        rw [hdecode, hchar, hescape]
        exact Bool.eq_false_iff.mpr hno
      · dsimp only
        rw [hdecode, hchar, haddr, List.length_append, List.length_singleton, Nat.add_assoc]
      · dsimp only
        rw [hdecode, hchar]
        exact happend c

/-- A character of data changes nothing but the memory behind what has been stored. -/
theorem kDataChar_frame (hstate : k.data.osDataState = 0) :
    ∃ mem data, kDataChar k c = { k with mem := mem, data := data } ∧
      (mem = k.mem ∨ ∃ x, mem = storeAt k.mem k.data.osDataAddr [x]) := by
  unfold kDataChar binDataChar
  rw [if_pos hstate, if_pos hstate]
  split
  · exact ⟨_, _, rfl, Or.inr ⟨_, rfl⟩⟩
  split
  · exact ⟨_, _, rfl, Or.inl rfl⟩
  · exact ⟨_, _, rfl, Or.inr ⟨_, rfl⟩⟩

/-- What a checkpoint is about is kept. -/
theorem Holds.saved_char (h : Holds addr k.hisQuote k.mem k.data fed)
    (hd : Holds addr k.hisQuote k.mem d fed') (hbefore : fed' <+: fed) :
    Holds addr k.hisQuote (kDataChar k c).mem d fed' := by
  obtain ⟨mem, data, heq, hmem⟩ := kDataChar_frame (c := c) h.state
  rw [heq]
  refine ⟨hd.escape, hd.state, hd.place, ?_⟩
  rcases hmem with rfl | ⟨x, rfl⟩
  · exact hd.stored
  · have hle := (decode_mono (q := k.hisQuote) hbefore).length_le
    have hplace := h.place
    show readAt (storeAt k.mem k.data.osDataAddr [x]) addr _ = _
    rw [readAt_storeAt_apart (Or.inl (by omega))]
    exact hd.stored

/-! ## Packets -/

theorem before_zero : f.before 0 = [] := rfl

theorem before_succ (h : f.packets[i]? = some p) : f.before (i + 1) = f.before i ++ p.payload := by
  unfold KermitFile.before
  rw [List.take_add_one, h, List.map_append, List.flatten_append]
  exact congrArg (_ ++ ·) (List.append_nil _)

theorem payload_of_type (h : p.type ≠ dataType) : p.payload = [] := if_neg h

/-- In front of the second packet there are no data. -/
theorem before_one : f.before 1 = [] := by
  have hsend : f.send.payload = [] := payload_of_type (by rw [f.send_type]; decide)
  rw [before_succ (i := 0) rfl, before_zero, hsend, List.nil_append]

/-- Only the first packet is a send initiate. -/
theorem send_first (h : f.packets[i]? = some p) (htype : p.type = sendType) :
    i = 0 ∧ p = f.send := by
  rcases i with _ | i
  · exact ⟨rfl, (Option.some.inj h).symm⟩
  · have hmem : p ∈ f.name :: (f.datas ++ [f.eof, f.close]) := List.mem_of_getElem? h
    rcases List.mem_cons.mp hmem with rfl | hmem
    · exact absurd (f.name_type.symm.trans htype) (by decide)
    rcases List.mem_append.mp hmem with hmem | hmem
    · exact absurd ((f.data_type p hmem).symm.trans htype) (by decide)
    rcases List.mem_cons.mp hmem with rfl | hmem
    · exact absurd (f.eof_type.symm.trans htype) (by decide)
    · rw [List.mem_singleton] at hmem
      rw [hmem, f.close_type] at htype
      exact absurd htype (by decide)

/-- Only the last packet is a break transmission. -/
theorem close_last (h : f.packets[i]? = some p) (htype : p.type = breakType) :
    i + 1 = f.packets.length := by
  obtain ⟨hlt, -⟩ := List.getElem?_eq_some_iff.mp h
  by_contra hne
  have hsplit : f.packets = (f.send :: f.name :: (f.datas ++ [f.eof])) ++ [f.close] := by
    simp [KermitFile.packets]
  have hlength : f.packets.length = (f.send :: f.name :: (f.datas ++ [f.eof])).length + 1 := by
    rw [hsplit, List.length_append, List.length_singleton]
  rw [hsplit, List.getElem?_append_left (by omega)] at h
  rcases List.mem_cons.mp (List.mem_of_getElem? h) with rfl | hmem
  · exact absurd (f.send_type.symm.trans htype) (by decide)
  rcases List.mem_cons.mp hmem with rfl | hmem
  · exact absurd (f.name_type.symm.trans htype) (by decide)
  rcases List.mem_append.mp hmem with hmem | hmem
  · exact absurd ((f.data_type p hmem).symm.trans htype) (by decide)
  · rw [List.mem_singleton] at hmem
    rw [hmem, f.eof_type] at htype
    exact absurd htype (by decide)

/-- The data of all packets are those of the data packets. -/
theorem before_all : f.before f.packets.length = (f.datas.map KPacket.data).flatten := by
  have hdatas : f.datas.map KPacket.payload = f.datas.map KPacket.data :=
    List.map_congr_left fun p hp => if_pos (f.data_type p hp)
  have hsend : f.send.payload = [] := payload_of_type (by rw [f.send_type]; decide)
  have hname : f.name.payload = [] := payload_of_type (by rw [f.name_type]; decide)
  have heof : f.eof.payload = [] := payload_of_type (by rw [f.eof_type]; decide)
  have hclose : f.close.payload = [] := payload_of_type (by rw [f.close_type]; decide)
  unfold KermitFile.before
  rw [List.take_length]
  simp [KermitFile.packets, hsend, hname, heof, hclose, hdatas]

/-! ## Frames -/

theorem untochar_tochar {n : Nat} (h : n < 256) : untochar (tochar n) = n := by
  have hval : (tochar n).toNat = (n + 32) % 256 := by
    have hcast : (((n : Int) + 32) % 256).toNat = (n + 32) % 256 := by omega
    show (UInt8.ofNat (((n : Int) + 32) % 256).toNat).toNat = _
    rw [hcast, UInt8.toNat_ofNat', Nat.mod_mod]
  unfold untochar
  rw [hval]
  omega

theorem KPacket.isHeader (p : KPacket) (number : Nat) :
    IsHeader number p.type (p.header number) := by
  unfold KPacket.header
  have hfits := p.fits
  split at hfits
  · rename_i hlong
    rw [if_pos hlong]
    exact ⟨_, _, rfl, (if_pos (untochar_tochar (n := 0) (by decide))).symm⟩
  · rename_i hlong
    rw [if_neg hlong]
    refine ⟨_, _, rfl, (if_neg ?_).symm⟩
    have hlen : untochar (tochar (p.data.length + 3 : Nat)) = (p.data.length + 3 : Nat) :=
      untochar_tochar (by omega)
    intro hzero
    have hboth := hlen.symm.trans hzero
    omega

/-- A front of characters is a header in one way only. -/
theorem IsHeader.unique {m n : Nat} {t u : UInt8} {h₁ h₂ b₁ b₂ : Bytes} (hm : IsHeader m t h₁)
    (hn : IsHeader n u h₂) (heq : h₁ ++ b₁ = h₂ ++ b₂) :
    tochar m = tochar n ∧ t = u ∧ b₁ = b₂ := by
  obtain ⟨a, r₁, rfl, hr₁⟩ := hm
  obtain ⟨b, r₂, rfl, hr₂⟩ := hn
  simp only [List.cons_append, List.cons.injEq] at heq
  obtain ⟨rfl, hnumber, htype, hbehind⟩ := heq
  exact ⟨hnumber, htype, (List.append_inj hbehind (hr₁.trans hr₂.symm)).2⟩

/-- A frame that arrives is read as the packet that was sent. -/
theorem KPacket.frame_inj {number n : Nat} {t x : UInt8} {header body : Bytes}
    (hheader : IsHeader n t header)
    (h : p.frame number = header ++ body ++ [x] ++ [endChar]) :
    tochar number = tochar n ∧ p.type = t ∧ p.data = body := by
  unfold KPacket.frame at h
  rw [List.append_assoc _ [x]] at h
  have hfront := (List.append_inj' h rfl).1
  exact (p.isHeader number).unique hheader hfront

/-! ## A character -/

theorem receive_of_some {k' : Krecv} {out : Bytes} (hr : kRecvChar s.k c = some (k', out)) :
    s.receive c =
      { k := k'
        idx := s.idx
        got := if s.k.phase = .start then [] else s.got ++ [c]
        seen := if numbers s.k c then s.idx + 1 else s.seen
        acked := if accepts s.k c then s.idx + 1 else s.acked
        undone := !decide (accepts s.k c) && s.undone } := by
  have hrecv : kRecv s.k c = (k', out) := by
    rw [kRecv, hr]
    rfl
  rw [KermitLine.receive, hrecv, hr]
  rfl

/-- A character that neither is a number nor ends a packet. -/
theorem receive_inside {k' : Krecv} {out : Bytes} (hr : kRecvChar s.k c = some (k', out))
    (hstart : s.k.phase ≠ .start) (hnumber : s.k.phase ≠ .sequence)
    (hend : s.k.phase ≠ .endChar) : s.receive c = { s with k := k', got := s.got ++ [c] } := by
  have hno : ¬ numbers s.k c := fun h => hnumber h.1
  have hacc : ¬ accepts s.k c := fun h => hend h.1
  rw [receive_of_some hr, if_neg hstart, if_neg hno, if_neg hacc, decide_eq_false hacc]
  rfl

theorem KermitInv.recv_error (h : KermitInv f addr s) (hr : kRecvChar s.k c = none) :
    KermitInv f addr (s.receive c) := by
  have hno : ¬ numbers s.k c := by
    rintro ⟨hphase, hcontrol⟩
    simp [kRecvChar, hphase, hcontrol] at hr
  have hacc : ¬ accepts s.k c := by
    rintro ⟨hphase, hend⟩
    simp [kRecvChar, hphase, hend] at hr
  have hrecv : s.receive c =
      { s with
        k := (packetError s.k).1
        got := if s.k.phase = .start then [] else s.got ++ [c]
        undone := true } := by
    rw [KermitLine.receive, kRecv, hr, if_neg hno, if_neg hacc]
    rfl
  rw [hrecv]
  exact { h with progress := ⟨h.saved⟩ }

theorem KermitInv.recv_start (h : KermitInv f addr s) (hphase : s.k.phase = .start) {k' : Krecv}
    {out : Bytes} (hr : kRecvChar s.k c = some (k', out)) : KermitInv f addr (s.receive c) := by
  have hno : ¬ numbers s.k c := fun h => by cases hphase.symm.trans h.1
  have hacc : ¬ accepts s.k c := fun h => by cases hphase.symm.trans h.1
  have hprogress := h.progress
  rw [receive_of_some hr, if_pos hphase, if_neg hno, if_neg hacc, decide_eq_false hacc]
  simp only [kRecvChar, hphase] at hr
  rw [hphase] at hprogress
  split at hr
  · cases hr
    exact { h with progress := ⟨⟨hprogress.holds⟩, rfl, rfl⟩ }
  split at hr
  · cases hr
    exact { h with progress := trivial }
  · cases hr
    refine { h with progress := ?_ }
    show AtPhase f addr _ s.k.phase
    rw [hphase]
    exact ⟨hprogress.holds⟩

theorem KermitInv.recv_length (h : KermitInv f addr s) (hphase : s.k.phase = .length) {k' : Krecv}
    {out : Bytes} (hr : kRecvChar s.k c = some (k', out)) : KermitInv f addr (s.receive c) := by
  have hprogress := h.progress
  rw [receive_inside hr (by rw [hphase]; nofun) (by rw [hphase]; nofun) (by rw [hphase]; nofun)]
  rw [hphase] at hprogress
  obtain ⟨hbetween, hparms, hgot⟩ := hprogress
  simp only [kRecvChar, hphase, Option.ite_none_left_eq_some] at hr
  obtain ⟨-, hr⟩ := hr
  cases hr
  refine { h with progress := ⟨⟨hbetween.holds⟩, hparms, c, ?_, rfl⟩ }
  rw [hgot]
  rfl

/-- If nothing is lost, the data in front of a new packet are those of all packets seen. -/
theorem before_seen (h : KermitInv f addr s) (hnumber : numbers s.k c) (hidx : s.idx = s.seen)
    (hkept : ¬ (KermitEvent.char c).Loses f s) :
    f.before (if s.undone then s.seen - 1 else s.seen) = f.before s.seen := by
  split
  · rename_i hundone
    rcases Nat.eq_zero_or_pos s.seen with hzero | hpos
    · rw [hzero]
    · have hlt : s.seen - 1 < f.packets.length := by
        have := h.idx_lt
        omega
      have hget := List.getElem?_eq_getElem hlt
      have hempty : (f.packets[s.seen - 1]).payload = [] := by
        by_contra hne
        refine hkept ⟨hnumber, hidx, hundone, ?_⟩
        rw [hget]
        exact decide_eq_true hne
      have hsucc := before_succ hget
      rw [hempty, List.append_nil, Nat.sub_add_cancel hpos] at hsucc
      exact hsucc.symm
  · rfl

/-- A number that arrives is that of the packet seen last, or a new one. -/
theorem KermitInv.recv_sequence (h : KermitInv f addr s) (hphase : s.k.phase = .sequence)
    (hdetected : (KermitEvent.char c).Detected f s) (hkept : ¬ (KermitEvent.char c).Loses f s)
    {k' : Krecv} {out : Bytes} (hr : kRecvChar s.k c = some (k', out)) :
    KermitInv f addr (s.receive c) := by
  have hprogress := h.progress
  rw [hphase] at hprogress
  obtain ⟨hbetween, hparms, a, hgot, hlen⟩ := hprogress
  have hcontrol : isControl c = false := by
    simp only [kRecvChar, hphase, Option.ite_none_left_eq_some] at hr
    exact Bool.eq_false_iff.mpr hr.1
  have hnumber : numbers s.k c := ⟨hphase, hcontrol⟩
  have hacc : ¬ accepts s.k c := fun h => by cases hphase.symm.trans h.1
  have hstart : s.k.phase ≠ .start := by
    rw [hphase]
    nofun
  have hc : c = tochar (s.idx % 64 : Nat) := hdetected.1 hnumber
  have hn : untochar c = (s.idx % 64 : Nat) := by
    rw [hc]
    exact untochar_tochar (by omega)
  have hidx_le := h.idx_le
  have hacked_le := h.acked_le
  have hseen_le := h.seen_le
  have hlast := h.lastN
  rw [receive_of_some hr, if_neg hstart, if_pos hnumber, if_neg hacc, decide_eq_false hacc]
  simp only [kRecvChar, hphase, hcontrol, Bool.false_eq_true, if_false] at hr
  cases hr
  have hgot' : s.got ++ [c] = [a, tochar ((s.idx + 1 - 1) % 64 : Nat)] := by
    rw [hgot, hc]
    rfl
  unfold checkSequence
  by_cases hnew : s.idx = s.seen
  · have hne : untochar c ≠ s.k.lastN := by
      rw [hn, hlast]
      split
      · omega
      · omega
    have hbefore := hbetween.holds
    rw [before_seen h hnumber hnew hkept, ← hnew] at hbefore
    rw [if_neg hne]
    exact
      { h with
        acked_le := by dsimp only; omega
        seen_le := le_rfl
        lastN := hn
        saved := hbefore
        progress := ⟨⟨Nat.succ_pos _, hbefore, hparms⟩, a, hgot', congrArg (· - 1) hlen⟩ }
  · have hseen : s.seen = s.idx + 1 := by omega
    have heq : untochar c = s.k.lastN := by
      rw [hn, hlast, hseen]
      rfl
    have hsaved := h.saved
    rw [hseen] at hsaved hlast
    rw [if_pos heq]
    exact
      { h with
        acked_le := by dsimp only; omega
        seen_le := le_rfl
        lastN := hlast
        saved := hsaved
        progress := ⟨⟨Nat.succ_pos _, hsaved, hparms⟩, a, hgot', congrArg (· - 1) hlen⟩ }

theorem atPhase_rest {len : Int} {header body : Bytes} (hgot : s.got = header ++ body)
    (h : InBody f addr s header body) : AtPhase f addr s (restPhase len) := by
  unfold restPhase
  split
  · exact ⟨header, body, hgot, h⟩
  · exact ⟨header, body, hgot, h⟩

/-- Behind the header, there are no data yet. -/
theorem InHeader.body (h : InHeader f addr s) (k' : Krecv) (header : Bytes)
    (hheader : IsHeader ((s.seen - 1) % 64) k'.kState header)
    (hsame : k'.hisQuote = s.k.hisQuote ∧ k'.mem = s.k.mem ∧ k'.data = s.k.data ∧
      k'.sendParms = s.k.sendParms) :
    InBody f addr { s with k := k', got := header } header [] := by
  obtain ⟨hquote, hmem, hdata, hparms⟩ := hsame
  refine ⟨h.seen, hheader, ?_, fun _ => hparms.trans h.parms⟩
  show Holds addr k'.hisQuote k'.mem k'.data _
  rw [hquote, hmem, hdata, ite_self, List.append_nil]
  exact h.holds

theorem KermitInv.recv_type (h : KermitInv f addr s) (hphase : s.k.phase = .type) {k' : Krecv}
    {out : Bytes} (hr : kRecvChar s.k c = some (k', out)) : KermitInv f addr (s.receive c) := by
  have hprogress := h.progress
  rw [receive_inside hr (by rw [hphase]; nofun) (by rw [hphase]; nofun) (by rw [hphase]; nofun)]
  rw [hphase] at hprogress
  obtain ⟨hheader, a, hgot, hlen⟩ := hprogress
  have hgot' : s.got ++ [c] = [a, tochar ((s.seen - 1) % 64 : Nat), c] := by
    rw [hgot]
    rfl
  simp only [kRecvChar, hphase, Option.ite_none_left_eq_some] at hr
  obtain ⟨-, hr⟩ := hr
  by_cases hlong : s.k.len - 1 = -2
  · rw [if_pos hlong] at hr
    cases hr
    refine { h with progress := ?_ }
    exact ⟨⟨hheader.seen, hheader.holds, hheader.parms⟩, a, hgot', by omega⟩
  · have hzero : untochar a ≠ 0 := by omega
    rw [if_neg hlong] at hr
    cases hr
    refine { h with progress := atPhase_rest (List.append_nil _).symm ?_ }
    exact hheader.body _ _ ⟨a, [], hgot', (if_neg hzero).symm⟩ ⟨rfl, rfl, rfl, rfl⟩

theorem KermitInv.recv_lenHi (h : KermitInv f addr s) (hphase : s.k.phase = .lenHi) {k' : Krecv}
    {out : Bytes} (hr : kRecvChar s.k c = some (k', out)) : KermitInv f addr (s.receive c) := by
  have hprogress := h.progress
  rw [receive_inside hr (by rw [hphase]; nofun) (by rw [hphase]; nofun) (by rw [hphase]; nofun)]
  rw [hphase] at hprogress
  obtain ⟨hheader, a, hgot, hzero⟩ := hprogress
  simp only [kRecvChar, hphase, Option.ite_none_left_eq_some] at hr
  obtain ⟨-, hr⟩ := hr
  cases hr
  exact
    { h with
      progress := ⟨⟨hheader.seen, hheader.holds, hheader.parms⟩, a, c, by rw [hgot]; rfl, hzero⟩ }

theorem KermitInv.recv_lenLo (h : KermitInv f addr s) (hphase : s.k.phase = .lenLo) {k' : Krecv}
    {out : Bytes} (hr : kRecvChar s.k c = some (k', out)) : KermitInv f addr (s.receive c) := by
  have hprogress := h.progress
  rw [receive_inside hr (by rw [hphase]; nofun) (by rw [hphase]; nofun) (by rw [hphase]; nofun)]
  rw [hphase] at hprogress
  obtain ⟨hheader, a, b, hgot, hzero⟩ := hprogress
  simp only [kRecvChar, hphase, Option.ite_none_left_eq_some] at hr
  obtain ⟨-, hr⟩ := hr
  cases hr
  exact
    { h with
      progress :=
        ⟨⟨hheader.seen, hheader.holds, hheader.parms⟩, a, b, c, by rw [hgot]; rfl, hzero⟩ }

theorem KermitInv.recv_headerCheck (h : KermitInv f addr s) (hphase : s.k.phase = .headerCheck)
    {k' : Krecv} {out : Bytes} (hr : kRecvChar s.k c = some (k', out)) :
    KermitInv f addr (s.receive c) := by
  have hprogress := h.progress
  rw [receive_inside hr (by rw [hphase]; nofun) (by rw [hphase]; nofun) (by rw [hphase]; nofun)]
  rw [hphase] at hprogress
  obtain ⟨hheader, a, b, b', hgot, hzero⟩ := hprogress
  simp only [kRecvChar, hphase, Option.ite_none_left_eq_some] at hr
  obtain ⟨-, -, hr⟩ := hr
  cases hr
  have hgot' : s.got ++ [c] =
      a :: tochar ((s.seen - 1) % 64 : Nat) :: s.k.kState :: [b, b', c] := by
    rw [hgot]
    rfl
  refine { h with progress := atPhase_rest (List.append_nil _).symm ?_ }
  exact hheader.body _ _ ⟨a, _, hgot', (if_pos hzero).symm⟩ ⟨rfl, rfl, rfl, rfl⟩

/-! ## The data of a packet -/

theorem saveParm_take {body : Bytes} :
    saveParm (body.take (sendDataSize - 1)) c = (body ++ [c]).take (sendDataSize - 1) := by
  unfold saveParm
  rw [List.take_append, List.length_take]
  split
  · rename_i hlt
    have hroom : 0 < sendDataSize - 1 - body.length := by omega
    rw [List.take_of_length_le (l := [c]) hroom]
  · rename_i hge
    have hfull : sendDataSize - 1 - body.length = 0 := by omega
    rw [hfull, List.take_zero, List.append_nil]

theorem KermitInv.recv_rest (h : KermitInv f addr s) (hphase : s.k.phase = .rest) {k' : Krecv}
    {out : Bytes} (hr : kRecvChar s.k c = some (k', out)) : KermitInv f addr (s.receive c) := by
  have hprogress := h.progress
  rw [receive_inside hr (by rw [hphase]; nofun) (by rw [hphase]; nofun) (by rw [hphase]; nofun)]
  rw [hphase] at hprogress
  obtain ⟨header, body, hgot, hbody⟩ := hprogress
  have hgot' : s.got ++ [c] = header ++ (body ++ [c]) := by
    rw [hgot, List.append_assoc]
  simp only [kRecvChar, hphase, Option.ite_none_left_eq_some] at hr
  obtain ⟨-, hr⟩ := hr
  have hholds := hbody.holds
  unfold restChar at hr
  split at hr
  · rename_i hdata
    rw [if_pos hdata] at hholds
    let k₁ : Krecv :=
      { s.k with sum := s.k.sum + c.toNat, len := s.k.len - 1, phase := .rest }
    have hnew : Holds addr s.k.hisQuote (kDataChar k₁ c).mem (kDataChar k₁ c).data
        (f.before (s.seen - 1) ++ body ++ [c]) := Holds.char (k := k₁) hholds
    have hold : Holds addr s.k.hisQuote (kDataChar k₁ c).mem s.k.saved (f.before (s.seen - 1)) :=
      Holds.saved_char (k := k₁) hholds h.saved (List.prefix_append _ _)
    obtain ⟨mem, data, heq, -⟩ := kDataChar_frame (k := k₁) (c := c) hholds.state
    rw [heq, List.append_assoc] at hnew
    rw [heq] at hold
    have hr' : some ({ kDataChar k₁ c with phase := restPhase (s.k.len - 1) }, []) =
      some (k', out) := hr
    rw [heq] at hr'
    cases hr'
    refine { h with saved := hold, progress := atPhase_rest hgot' ?_ }
    refine ⟨hbody.seen, hbody.header, ?_, fun hsend => absurd (hdata.symm.trans hsend) (by decide)⟩
    dsimp only
    rw [if_pos hdata]
    exact hnew
  rename_i hdata
  rw [if_neg hdata] at hholds
  split at hr
  · rename_i hsend
    cases hr
    refine { h with progress := atPhase_rest hgot' ⟨hbody.seen, hbody.header, ?_, fun _ => ?_⟩ }
    · dsimp only
      rw [if_neg hdata]
      exact hholds
    · dsimp only
      rw [hbody.parms hsend]
      exact saveParm_take
  · rename_i hsend
    cases hr
    refine { h with progress := atPhase_rest hgot' ⟨hbody.seen, hbody.header, ?_, ?_⟩ }
    · dsimp only
      rw [if_neg hdata]
      exact hholds
    · exact fun h => absurd h hsend

theorem KermitInv.recv_check (h : KermitInv f addr s) (hphase : s.k.phase = .check) {k' : Krecv}
    {out : Bytes} (hr : kRecvChar s.k c = some (k', out)) : KermitInv f addr (s.receive c) := by
  have hprogress := h.progress
  rw [receive_inside hr (by rw [hphase]; nofun) (by rw [hphase]; nofun) (by rw [hphase]; nofun)]
  rw [hphase] at hprogress
  obtain ⟨header, body, hgot, hbody⟩ := hprogress
  simp only [kRecvChar, hphase, Option.ite_none_left_eq_some] at hr
  obtain ⟨-, -, hr⟩ := hr
  cases hr
  refine { h with progress := ⟨header, body, c, by rw [hgot], ?_⟩ }
  exact ⟨hbody.seen, hbody.header, hbody.holds, hbody.parms⟩

/-! ## The end of a packet -/

theorem Holds.nil {q' : UInt8} {mem : Contents} (h : Holds addr q mem d []) :
    Holds addr q' mem d [] :=
  ⟨h.escape, h.state, h.place, h.stored⟩

theorem tochar_inj {m n : Nat} (hm : m < 64) (hn : n < 64) (h : tochar m = tochar n) : m = n := by
  have := congrArg untochar h
  rw [untochar_tochar (by omega), untochar_tochar (by omega)] at this
  exact Int.ofNat_inj.mp this

theorem handleSendPacket_quote {data : Bytes} {n : Int}
    (hparms : k.sendParms = data.take (sendDataSize - 1)) :
    (handleSendPacket k n).1.hisQuote = if 6 ≤ data.length then data.getD 5 0 else kEscape := by
  have hget : k.sendParms.getD 5 0 = data.getD 5 0 := by
    rw [hparms, List.getD_eq_getElem?_getD, List.getElem?_take_of_lt (by decide),
      List.getD_eq_getElem?_getD]
  have hlength : k.sendParms.length = min 19 data.length := by
    rw [hparms, List.length_take]
    rfl
  have hbytes : (6 ≤ if min 19 data.length = sendDataSize - 1 then sendDataSize - 2
      else min 19 data.length) ↔ 6 ≤ data.length := by
    unfold sendDataSize
    split
    · omega
    · omega
  unfold handleSendPacket
  dsimp only
  rw [hget, hlength]
  exact if_congr hbytes rfl rfl

/-- `handle_send_packet` changes what is sent, and the quote. -/
theorem handleSendPacket_frame {n : Int} :
    ∃ pad char eol quote, (handleSendPacket k n).1 =
      { k with hisPadCount := pad, hisPadChar := char, hisEol := eol, hisQuote := quote } :=
  ⟨_, _, _, _, rfl⟩

/-- A packet that is accepted is the one that was sent, and it is the one seen last. -/
theorem InBody.accepted {header body : Bytes} {x : UInt8} (h : KermitInv f addr s)
    (hbody : InBody f addr s header body) (hgot : s.got = header ++ body ++ [x])
    (haccepts : accepts s.k c) (hdetected : (KermitEvent.char c).Detected f s) :
    s.seen = s.idx + 1 ∧
      ∃ p, f.packets[s.idx]? = some p ∧ p.type = s.k.kState ∧ p.data = body := by
  have hframe := hdetected.2 haccepts
  rw [haccepts.2, hgot] at hframe
  obtain ⟨p, hget, hp⟩ := Option.map_eq_some_iff.mp hframe
  obtain ⟨hnumber, htype, hdata⟩ := p.frame_inj hbody.header hp
  have hmod := tochar_inj (by omega) (by omega) hnumber
  have hidx_le := h.idx_le
  have hacked_le := h.acked_le
  have hseen_le := h.seen_le
  have hseen := hbody.seen
  exact ⟨by omega, p, hget, htype, hdata⟩

theorem KermitInv.recv_endChar (h : KermitInv f addr s) (hphase : s.k.phase = .endChar)
    (hdetected : (KermitEvent.char c).Detected f s) {k' : Krecv} {out : Bytes}
    (hr : kRecvChar s.k c = some (k', out)) : KermitInv f addr (s.receive c) := by
  have hprogress := h.progress
  rw [hphase] at hprogress
  obtain ⟨header, body, x, hgot, hbody⟩ := hprogress
  have hend : c = endChar := by
    by_contra hne
    simp [kRecvChar, hphase, hne] at hr
  have haccepts : accepts s.k c := ⟨hphase, hend⟩
  have hno : ¬ numbers s.k c := fun h => by cases hphase.symm.trans h.1
  have hstart : s.k.phase ≠ .start := by
    rw [hphase]
    nofun
  obtain ⟨hseen, p, hget, htype, hdata⟩ := hbody.accepted h hgot haccepts hdetected
  have hholds : Holds addr s.k.hisQuote s.k.mem s.k.data (f.before (s.idx + 1)) := by
    have hbefore := hbody.holds
    rw [before_succ hget]
    unfold KPacket.payload
    rw [htype, hdata]
    rwa [hseen] at hbefore
  have hlast := h.lastN
  have hsaved := h.saved
  have hidx_lt := h.idx_lt
  rw [receive_of_some hr, if_neg hstart, if_neg hno, if_pos haccepts, decide_eq_true haccepts]
  simp only [kRecvChar, hphase, hend, ne_eq, not_true_eq_false, if_false, Option.some.injEq] at hr
  unfold acceptPacket at hr
  dsimp only at hr
  rw [hseen] at hlast hsaved
  rw [hseen]
  split at hr
  · rename_i hsend
    obtain ⟨hzero, rfl⟩ := send_first hget (htype.trans hsend)
    have hquote := handleSendPacket_quote (k := { s.k with phase := .start }) (n := s.k.n)
      (hbody.parms hsend)
    obtain ⟨pad, char, eol, quote, heq⟩ :=
      handleSendPacket_frame (k := { s.k with phase := .start }) (n := s.k.n)
    rw [heq, ← hdata] at hquote
    have hk : k' = _ := (congrArg Prod.fst hr).symm.trans heq
    subst hk
    rw [hzero] at hsaved
    rw [hzero, before_one] at hholds
    refine
      { h with
        idx_le := Nat.le_succ _
        acked_le := le_rfl
        seen_le := le_rfl
        lastN := hlast
        quote := fun _ => hquote
        saved := ?_
        progress := ⟨?_⟩ }
    · rw [hzero]
      exact hsaved.nil
    · rw [hzero]
      show Holds addr quote s.k.mem s.k.data (f.before 1)
      rw [before_one]
      exact hholds.nil
  rename_i hsend
  have hquote : s.k.hisQuote = f.quote := by
    refine h.quote ?_
    have hidx : s.idx ≠ 0 := by
      intro hzero
      rw [hzero] at hget
      have hp : f.send = p := Option.some.inj hget
      exact hsend (by rw [← htype, ← hp, f.send_type])
    have := h.idx_le
    omega
  split at hr
  · rename_i hbreak
    have hlength := close_last hget (htype.trans hbreak)
    cases hr
    rw [hlength] at hholds
    exact
      { h with
        idx_le := Nat.le_succ _
        acked_le := le_rfl
        seen_le := le_rfl
        lastN := hlast
        quote := fun _ => hquote
        saved := hsaved
        progress := ⟨hholds, hquote⟩ }
  · cases hr
    exact
      { h with
        idx_le := Nat.le_succ _
        acked_le := le_rfl
        seen_le := le_rfl
        lastN := hlast
        quote := fun _ => hquote
        saved := hsaved
        progress := ⟨hholds⟩ }

/-! ## A run -/

/-- What holds where `k_recv` waits does not depend on the sender. -/
theorem AtPhase.sender {phase : Phase} (h : AtPhase f addr s phase) :
    AtPhase f addr { s with idx := i } phase := by
  have hheader : InHeader f addr s → InHeader f addr { s with idx := i } :=
    fun h => ⟨h.seen, h.holds, h.parms⟩
  have hbody : ∀ {header body : Bytes}, InBody f addr s header body →
      InBody f addr { s with idx := i } header body :=
    fun h => ⟨h.seen, h.header, h.holds, h.parms⟩
  cases phase with
  | start => exact ⟨h.holds⟩
  | length => exact ⟨⟨h.1.holds⟩, h.2⟩
  | sequence => exact ⟨⟨h.1.holds⟩, h.2⟩
  | type => exact ⟨hheader h.1, h.2⟩
  | lenHi => exact ⟨hheader h.1, h.2⟩
  | lenLo => exact ⟨hheader h.1, h.2⟩
  | headerCheck => exact ⟨hheader h.1, h.2⟩
  | rest =>
    obtain ⟨header, body, hgot, h⟩ := h
    exact ⟨header, body, hgot, hbody h⟩
  | check =>
    obtain ⟨header, body, hgot, h⟩ := h
    exact ⟨header, body, hgot, hbody h⟩
  | endChar =>
    obtain ⟨header, body, x, hgot, h⟩ := h
    exact ⟨header, body, x, hgot, hbody h⟩
  | aborted => exact trivial
  | done => exact h

theorem KermitInv.next (h : KermitInv f addr s) (hacked : s.acked = s.idx + 1)
    (hlt : s.idx + 1 < f.packets.length) : KermitInv f addr { s with idx := s.idx + 1 } :=
  { h with
    idx_lt := hlt
    idx_le := hacked.ge
    seen_le := Nat.le_succ_of_le h.seen_le
    progress := h.progress.sender }

/-- Behind the end, nothing changes. -/
theorem KermitInv.recv_end (h : KermitInv f addr s)
    (hphase : s.k.phase = .aborted ∨ s.k.phase = .done) {k' : Krecv} {out : Bytes}
    (hr : kRecvChar s.k c = some (k', out)) : KermitInv f addr (s.receive c) := by
  have hprogress := h.progress
  have hk : k' = s.k := by
    rcases hphase with hphase | hphase
    · simp only [kRecvChar, hphase, Option.some.injEq, Prod.mk.injEq] at hr
      exact hr.1.symm
    · simp only [kRecvChar, hphase, Option.some.injEq, Prod.mk.injEq] at hr
      exact hr.1.symm
  have hinside : s.k.phase ≠ .start ∧ s.k.phase ≠ .sequence ∧ s.k.phase ≠ .endChar := by
    rcases hphase with hphase | hphase
    · rw [hphase]
      exact ⟨nofun, nofun, nofun⟩
    · rw [hphase]
      exact ⟨nofun, nofun, nofun⟩
  rw [receive_inside hr hinside.1 hinside.2.1 hinside.2.2, hk]
  refine { h with progress := ?_ }
  show AtPhase f addr _ s.k.phase
  rcases hphase with hphase | hphase
  · rw [hphase]
    exact trivial
  · rw [hphase] at hprogress ⊢
    exact hprogress

theorem kermitStep_inv {t : KermitLine} {e : KermitEvent} (h : KermitInv f addr s)
    (hok : e.Detected f s ∧ ¬ e.Loses f s) (hstep : kermitStep f s e = some t) :
    KermitInv f addr t := by
  obtain ⟨hdetected, hkept⟩ := hok
  cases e with
  | next =>
    rw [kermitStep] at hstep
    split at hstep
    · rename_i hnext
      cases hstep
      exact h.next hnext.1 hnext.2
    · cases hstep
  | char c =>
    cases hstep
    cases hr : kRecvChar s.k c with
    | none => exact h.recv_error hr
    | some r =>
      obtain ⟨k', out⟩ := r
      cases hphase : s.k.phase with
      | start => exact h.recv_start hphase hr
      | length => exact h.recv_length hphase hr
      | sequence => exact h.recv_sequence hphase hdetected hkept hr
      | type => exact h.recv_type hphase hr
      | lenHi => exact h.recv_lenHi hphase hr
      | lenLo => exact h.recv_lenLo hphase hr
      | headerCheck => exact h.recv_headerCheck hphase hr
      | rest => exact h.recv_rest hphase hr
      | check => exact h.recv_check hphase hr
      | endChar => exact h.recv_endChar hphase hdetected hr
      | aborted => exact h.recv_end (Or.inl hphase) hr
      | done => exact h.recv_end (Or.inr hphase) hr

theorem kermitInv_start {mem : Contents} : KermitInv f addr (.start addr mem) where
  idx_lt := Nat.succ_pos _
  idx_le := le_rfl
  acked_le := le_rfl
  seen_le := Nat.zero_le _
  lastN := rfl
  quote := fun h => absurd h (lt_irrefl 0)
  base := rfl
  saved := ⟨rfl, rfl, rfl, rfl⟩
  progress := ⟨⟨rfl, rfl, rfl, rfl⟩⟩

/-- Whatever is damaged on the way, if damage is detected and acknowledged data are not lost, then
at the end of the download the file is in memory, and its size is returned. -/
theorem kermit_download {mem : Contents} {tr : List (KermitLine × KermitEvent)} {t : KermitLine}
    (hrun : Run (fun s e t => kermitStep f s e = some t) (.start addr mem) tr t)
    (hdetected : ∀ r ∈ tr, r.2.Detected f r.1) (hkept : ∀ r ∈ tr, ¬ r.2.Loses f r.1)
    (hdone : t.k.phase = .done) :
    readAt t.k.mem t.k.binStartAddress f.bytes.length = f.bytes ∧
      kRecvSize t.k = f.bytes.length := by
  have hinv : KermitInv f addr t :=
    hrun.invariant (KermitInv f addr) (fun s e => e.Detected f s ∧ ¬ e.Loses f s)
      kermitStep_inv kermitInv_start fun r hr => ⟨hdetected r hr, hkept r hr⟩
  have hprogress := hinv.progress
  rw [hdone] at hprogress
  obtain ⟨hholds, hquote⟩ := hprogress
  rw [before_all, hquote] at hholds
  rw [hinv.base]
  refine ⟨hholds.stored, ?_⟩
  unfold kRecvSize
  rw [hinv.base, hholds.place]
  show ((addr + f.bytes.length : Nat) : Int) - addr = _
  omega

end Lemmas

/-! ## A file of three bytes -/

def shortPacket (type : UInt8) (data : Bytes) (fits : data.length ≤ 91) : KPacket :=
  ⟨type, data, false, fits⟩

/-- Two packets with data: `AB`, and a quoted carriage return. -/
def smallFile : KermitFile where
  send := shortPacket sendType [] (by decide)
  name := shortPacket 0x46 [0x61] (by decide)
  datas := [shortPacket dataType [0x41, 0x42] (by decide),
    shortPacket dataType [0x23, 0x4D] (by decide)]
  eof := shortPacket 0x5A [] (by decide)
  close := shortPacket breakType [] (by decide)
  send_type := rfl
  name_type := rfl
  data_type := by decide
  eof_type := rfl
  close_type := rfl

/-- Characters arrive. -/
def arrive (cs : Bytes) : List KermitEvent := cs.map .char

/-- The packets with the numbers in a list are sent, and acknowledged. -/
def sendAll (numbers : List Nat) : List KermitEvent :=
  numbers.flatMap fun n =>
    arrive (startChar :: ((smallFile.packets[n]?.map fun p => p.frame n).getD [])) ++ [.next]

/-- The last packet is sent. -/
def sendClose : List KermitEvent := arrive (startChar :: smallFile.close.frame 5)

/-- The first packet with data is damaged once. -/
theorem kermit_download_resent : ∃ tr t,
    Run (fun s e t => kermitStep smallFile s e = some t) (.start 16 fun _ => 0) tr t ∧
      (∃ r ∈ tr, r.2 = .char 0x26 ∧ kRecvChar r.1.k 0x26 = none) ∧
      readAt t.k.mem t.k.binStartAddress 3 = [0x41, 0x42, 0x0D] ∧ kRecvSize t.k = 3 := by
  have hrun : ((runAll (kermitStep smallFile) (.start 16 fun _ => 0)
      (sendAll [0, 1] ++ arrive [startChar, 0x25, 0x22, 0x44, 0x43, 0x42, 0x26, endChar] ++
        sendAll [2, 3, 4] ++ sendClose)).any fun r =>
      (r.1.all fun r => decide (r.2.Detected smallFile r.1)) &&
        (r.1.all fun r => !decide (r.2.Loses smallFile r.1)) &&
        (r.1.any fun r => decide (r.2 = .char 0x26) && (kRecvChar r.1.k 0x26).isNone) &&
        decide (r.2.k.phase = .done)) = true := by decide
  obtain ⟨⟨tr, t⟩, hsome, hall⟩ := (Option.any_eq_true _ _).mp hrun
  simp only [Bool.and_eq_true, decide_eq_true_eq] at hall
  obtain ⟨⟨⟨hdetected, hkept⟩, herror⟩, hdone⟩ := hall
  have hrun : Run (fun s e t => kermitStep smallFile s e = some t) _ tr t :=
    run_of_runAll (fun hstep => hstep) hsome
  obtain ⟨r, hr, herror⟩ := List.any_eq_true.mp herror
  simp only [Bool.and_eq_true, decide_eq_true_eq] at herror
  obtain ⟨hmem, hsize⟩ := kermit_download hrun
    (fun r hr => of_decide_eq_true (List.all_eq_true.mp hdetected r hr))
    (fun r hr => by simpa using List.all_eq_true.mp hkept r hr) hdone
  exact ⟨tr, t, hrun, ⟨r, hr, herror.1, Option.isNone_iff_eq_none.mp herror.2⟩, hmem, hsize⟩

/-- The length of the second packet with data is damaged once: the data of the first one are
lost. -/
theorem kermit_download_loses : ∃ tr t,
    Run (fun s e t => kermitStep smallFile s e = some t) (.start 16 fun _ => 0) tr t ∧
      (∀ r ∈ tr, r.2.Detected smallFile r.1) ∧ t.k.phase = .done ∧
      smallFile.bytes = [0x41, 0x42, 0x0D] ∧
      readAt t.k.mem t.k.binStartAddress 3 = [0x0D, 0x42, 0] ∧ kRecvSize t.k = 1 := by
  have hrun : ((runAll (kermitStep smallFile) (.start 16 fun _ => 0)
      (sendAll [0, 1, 2] ++ arrive [startChar, 0x05] ++ sendAll [3, 4] ++ sendClose)).any fun r =>
      (r.1.all fun r => decide (r.2.Detected smallFile r.1)) &&
        decide (r.2.k.phase = .done ∧
          readAt r.2.k.mem r.2.k.binStartAddress 3 = [0x0D, 0x42, 0] ∧ kRecvSize r.2.k = 1)) =
        true := by decide
  obtain ⟨⟨tr, t⟩, hsome, hall⟩ := (Option.any_eq_true _ _).mp hrun
  simp only [Bool.and_eq_true, decide_eq_true_eq] at hall
  obtain ⟨hdetected, hdone, hmem, hsize⟩ := hall
  exact ⟨tr, t, run_of_runAll (fun hstep => hstep) hsome,
    fun r hr => of_decide_eq_true (List.all_eq_true.mp hdetected r hr), hdone, by decide, hmem,
    hsize⟩

end UBoot.Common.Kermit
