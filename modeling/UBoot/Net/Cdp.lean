import UBoot.Lib.Loop
import UBoot.Net.Packet

/-!
# CDP packets

`CDPHandler` of `net/net.c` with its checksum, on a little endian processor, and no
`CONFIG_CDP_APPLIANCE_VLAN_TYPE` as `none`.  A packet is a sequence of TLVs, and a pass of the loop
handles one of them.  What is read of a TLV is kept as a list of ranges; a TLV of no length is
handled forever.
-/

namespace UBoot.Net

open UBoot.Lib

/-! ## The code -/

/-- A `ushort` as the processor reads it. -/
def rawWord (p : Contents) (i : Nat) : Nat := (p i).toNat + (p (i + 1)).toNat * 256

/-- `htons` of a number of 16 bits. -/
def swapBytes (n : Nat) : Nat := n % 256 * 256 + n / 256 % 256

/-- The loop of `CDP_compute_csum` and the last byte, which is sign extended. -/
def cdpSum (p : Contents) : Nat → Nat → Nat → Nat
  | _, 0, result => result
  | i, 1, result =>
    let leftover := if 128 ≤ p i then 0xff00 + (p i).toNat else (p i).toNat
    result / 65536 * 65536 + (result + leftover) % 65536
  | i, len + 2, result =>
    let result := result + rawWord p i
    cdpSum p (i + 2) len (if 2 ^ 31 ≤ result then foldOnce result else result)

/-- `CDP_compute_csum` of the `len` bytes at `i`, where an index is odd if its address is. -/
def cdpComputeCsum (p : Contents) (i len : Nat) : Nat :=
  let len := len % 65536
  let result :=
    if len = 0 then 0
    else if i % 2 = 1 then
      swapBytes (foldXsum (cdpSum p (i + 1) (len - 1) ((p i).toNat * 256)))
    else foldXsum (cdpSum p i len 0)
  swapBytes (0xffff - foldOnce (foldOnce (foldOnce result)) % 65536)

/-- `CDP_SNAP_hdr` -/
def cdpSnapHdr : Bytes := [0xAA, 0xAA, 0x03, 0x00, 0x00, 0x0C, 0x20, 0x00]

/-- `CDP_NATIVE_VLAN_TLV` -/
def cdpNativeVlanTlv : Nat := 0x000a

/-- `CDP_APPLIANCE_VLAN_TLV` -/
def cdpApplianceVlanTlv : Nat := 0x000e

/-- The field `type` of the TLV at `i`. -/
def tlvType (p : Contents) (i : Nat) : Nat := word p i

/-- The field `tlen` of the TLV at `i`. -/
def tlvLen (p : Contents) (i : Nat) : Nat := word p (i + 2)

/-- The variables of the loop: `pkt` as an index. -/
structure CdpLoop where
  pkt : Nat
  len : Nat
  vlan : Nat
  nvlan : Nat

/-- The range of `size` bytes from `at` on, read for the TLV that begins at `tlv`. -/
structure TlvRead where
  tlv : Nat
  start : Nat
  size : Nat
  deriving DecidableEq, Repr

/-- The VLAN of the entry at `t`, if it is one of the appliance type. -/
def applianceVlan (p : Contents) (t vlan : Nat) : Option UInt8 → Nat
  | some ty => if p t = ty then rawWord p (t + 1) else vlan
  | none => word p (t + 1)

/-- The loop over an appliance VLAN TLV with `tlen` bytes left at `t`: the ranges that it reads, and
`vlan`, or none for a packet that is too short. -/
def applianceLoop (vlanType : Option UInt8) (p : Contents) (tlv : Nat) :
    Nat → Nat → Nat → List TlvRead × Option Nat
  | _, 0, vlan => ([], some vlan)
  | _, 1, _ => ([], none)
  | _, 2, _ => ([], none)
  | t, tlen + 3, vlan =>
    let rest := applianceLoop vlanType p tlv (t + 3) tlen (applianceVlan p t vlan vlanType)
    (⟨tlv, t, 3⟩ :: rest.1, rest.2)

/-- The `switch`, behind `tlen -= 4`. -/
def tlvData (vlanType : Option UInt8) (p : Contents) (s : CdpLoop) :
    List TlvRead × Option (Nat × Nat) :=
  if tlvType p s.pkt = cdpNativeVlanTlv then
    ([⟨s.pkt, s.pkt + 4, 2⟩], some (s.vlan, rawWord p (s.pkt + 4)))
  else if tlvType p s.pkt = cdpApplianceVlanTlv then
    let vlans :=
      applianceLoop vlanType p s.pkt (s.pkt + 4) ((tlvLen p s.pkt + 65532) % 65536) s.vlan
    (vlans.1, vlans.2.map (·, s.nvlan))
  else ([], some (s.vlan, s.nvlan))

/-- What follows the `switch`: the loop goes on, or the packet is too short. -/
def cdpNext (p : Contents) (s : CdpLoop) : Option (Nat × Nat) → CdpLoop ⊕ Option (Nat × Nat)
  | none => .inr none
  | some (vlan, nvlan) => .inl ⟨s.pkt + tlvLen p s.pkt, s.len - tlvLen p s.pkt, vlan, nvlan⟩

/-- One pass of the loop of `CDPHandler`: at the end it has `vlan` and `nvlan`, or none for
`pkt_short`. -/
def cdpPass (vlanType : Option UInt8) (p : Contents) (s : CdpLoop) :
    List TlvRead × (CdpLoop ⊕ Option (Nat × Nat)) :=
  if s.len = 0 then ([], .inr (some (s.vlan, s.nvlan)))
  else if s.len < 4 then ([], .inr none)
  else if s.len < tlvLen p s.pkt then ([⟨s.pkt, s.pkt, 4⟩], .inr none)
  else
    let data := tlvData vlanType p s
    (⟨s.pkt, s.pkt, 4⟩ :: data.1, cdpNext p s data.2)

/-- `CDPApplianceVLAN`, `CDPNativeVLAN` and `CDPOK` -/
structure CdpVars where
  cdpApplianceVLAN : Nat
  cdpNativeVLAN : Nat
  cdpOK : Bool
  deriving DecidableEq, Repr

/-- The packet of `len` bytes at `h` gets to the loop. -/
def cdpAccepted (p : Contents) (h len : Nat) : Bool :=
  decide (12 ≤ len) && readAt p h 8 == cdpSnapHdr && decide (2 ≤ p (h + 8)) && p (h + 9) != 0 &&
    cdpComputeCsum p (h + 8) (len - 8) == 0

/-- The loop of `CDPHandler` from its start, for so many passes. -/
def cdpTlvs (vlanType : Option UInt8) (p : Contents) (h len fuel : Nat) :
    Option (List TlvRead × Option (Nat × Nat)) :=
  loop (cdpPass vlanType p) fuel ⟨h + 12, len - 12, 0xffff, 0xffff⟩

/-- The variables behind the loop. -/
def cdpStore (c : CdpVars) : Option (Nat × Nat) → CdpVars
  | none => c
  | some (vlan, nvlan) => ⟨vlan, nvlan, true⟩

/-- `CDPHandler`, with what the loop has read. -/
def cdpHandler (vlanType : Option UInt8) (c : CdpVars) (p : Contents) (h len fuel : Nat) :
    Option (List TlvRead × CdpVars) :=
  if cdpAccepted p h len then
    (cdpTlvs vlanType p h len fuel).map fun x => (x.1, cdpStore c x.2)
  else some ([], c)

/-! ## Well-formed packets -/

/-- What is read of a TLV lies in it and in front of `stop`. -/
def TlvRead.Inside (p : Contents) (stop : Nat) (r : TlvRead) : Prop :=
  r.tlv ≤ r.start ∧ r.start + r.size ≤ r.tlv + tlvLen p r.tlv ∧ r.start + r.size ≤ stop

/-- The `n` bytes at `i` are a sequence of TLVs. -/
inductive TlvSeq (p : Contents) : Nat → Nat → Prop
  | nil (i : Nat) : TlvSeq p i 0
  | cons {i n : Nat} (four : 4 ≤ tlvLen p i) (fits : tlvLen p i ≤ n)
      (rest : TlvSeq p (i + tlvLen p i) (n - tlvLen p i)) : TlvSeq p i n

/-- The TLVs in the `n` bytes at `i` have a header each, and a native VLAN its number, up to the end
or to the TLV with which the packet is too short. -/
inductive TlvsOk (p : Contents) : Nat → Nat → Prop
  | short {i n : Nat} (none : n < 4) : TlvsOk p i n
  | long {i n : Nat} (some : 4 ≤ n) (beyond : n < tlvLen p i) : TlvsOk p i n
  | odd {i n : Nat} (four : 4 ≤ tlvLen p i) (fits : tlvLen p i ≤ n)
      (type : tlvType p i = cdpApplianceVlanTlv) (left : ¬ 3 ∣ tlvLen p i - 4) : TlvsOk p i n
  | next {i n : Nat} (four : 4 ≤ tlvLen p i) (fits : tlvLen p i ≤ n)
      (native : tlvType p i = cdpNativeVlanTlv → 6 ≤ tlvLen p i)
      (rest : TlvsOk p (i + tlvLen p i) (n - tlvLen p i)) : TlvsOk p i n

section Loop

variable {vlanType : Option UInt8} {p : Contents} {stop : Nat} {s : CdpLoop}
  {Q : Option (Nat × Nat) → Prop}

/-- What the inner loop reads lies in the bytes that it is given. -/
theorem applianceLoop_reads (vlanType : Option UInt8) (p : Contents) (tlv t n vlan : Nat) :
    ∀ r ∈ (applianceLoop vlanType p tlv t n vlan).1,
      r.tlv = tlv ∧ t ≤ r.start ∧ r.start + r.size ≤ t + n := by
  induction t, n, vlan using applianceLoop.induct vlanType p tlv with
  | case1 => simp [applianceLoop]
  | case2 => simp [applianceLoop]
  | case3 => simp [applianceLoop]
  | case4 t n vlan ih =>
    intro r hr
    rw [applianceLoop] at hr
    rcases List.mem_cons.mp hr with rfl | hr
    · exact ⟨rfl, Nat.le_refl _, by simp only; omega⟩
    · obtain ⟨htlv, hlo, hhi⟩ := ih r hr
      exact ⟨htlv, by omega, by omega⟩

theorem applianceLoop_eq_none_iff (vlanType : Option UInt8) (p : Contents) (tlv t n vlan : Nat) :
    (applianceLoop vlanType p tlv t n vlan).2 = none ↔ ¬ 3 ∣ n := by
  induction t, n, vlan using applianceLoop.induct vlanType p tlv with
  | case1 => simp [applianceLoop]
  | case2 => simp [applianceLoop]
  | case3 => simp [applianceLoop]
  | case4 t n vlan ih =>
    rw [applianceLoop]
    refine Iff.trans ih ?_
    omega

/-- `tlen -= 4` does not wrap. -/
theorem tlvRest (h : 4 ≤ tlvLen p s.pkt) :
    (tlvLen p s.pkt + 65532) % 65536 = tlvLen p s.pkt - 4 := by
  have hlt := word_lt p (s.pkt + 2)
  rw [tlvLen] at h ⊢
  omega

theorem tlvData_reads (h : 4 ≤ tlvLen p s.pkt)
    (hnative : tlvType p s.pkt = cdpNativeVlanTlv → 6 ≤ tlvLen p s.pkt) :
    ∀ r ∈ (tlvData vlanType p s).1,
      r.tlv = s.pkt ∧ s.pkt ≤ r.start ∧ r.start + r.size ≤ s.pkt + tlvLen p s.pkt := by
  unfold tlvData
  split
  · rename_i htype
    have hsix := hnative htype
    intro r hr
    rw [List.mem_singleton.mp hr]
    exact ⟨rfl, by simp only; omega, by simp only; omega⟩
  · split
    · intro r hr
      rw [tlvRest h] at hr
      obtain ⟨htlv, hlo, hhi⟩ := applianceLoop_reads vlanType p s.pkt (s.pkt + 4)
        (tlvLen p s.pkt - 4) s.vlan r hr
      exact ⟨htlv, by omega, by omega⟩
    · simp

theorem tlvData_eq_none_iff (vlanType : Option UInt8) (h : 4 ≤ tlvLen p s.pkt) :
    (tlvData vlanType p s).2 = none ↔
      tlvType p s.pkt = cdpApplianceVlanTlv ∧ ¬ 3 ∣ tlvLen p s.pkt - 4 := by
  unfold tlvData
  split
  · rename_i htype
    rw [htype]
    simp [cdpNativeVlanTlv, cdpApplianceVlanTlv]
  · split
    · rename_i htype
      rw [Option.map_eq_none_iff, applianceLoop_eq_none_iff, tlvRest h]
      exact ⟨fun hleft => ⟨htype, hleft⟩, And.right⟩
    · rename_i htype
      simp [htype]

/-- A pass over a TLV that fits. -/
theorem cdpPass_fits (vlanType : Option UInt8) (hfits : tlvLen p s.pkt ≤ s.len) (hlen : 4 ≤ s.len) :
    cdpPass vlanType p s =
      (⟨s.pkt, s.pkt, 4⟩ :: (tlvData vlanType p s).1, cdpNext p s (tlvData vlanType p s).2) := by
  unfold cdpPass
  rw [if_neg (by omega), if_neg (by omega), if_neg (by omega)]

/-- Where the loop goes on. -/
theorem cdpPass_next {reads : List TlvRead} {t : CdpLoop}
    (h : cdpPass vlanType p s = (reads, .inl t)) :
    4 ≤ s.len ∧ tlvLen p s.pkt ≤ s.len ∧ (tlvData vlanType p s).2 ≠ none ∧
      reads = ⟨s.pkt, s.pkt, 4⟩ :: (tlvData vlanType p s).1 ∧
      t.pkt = s.pkt + tlvLen p s.pkt ∧ t.len = s.len - tlvLen p s.pkt := by
  unfold cdpPass at h
  split at h
  · cases h
  · split at h
    · cases h
    · split at h
      · cases h
      · obtain ⟨rfl, hnext⟩ := Prod.mk.inj h
        cases hdata : (tlvData vlanType p s).2 with
        | none =>
          rw [hdata] at hnext
          cases hnext
        | some v =>
          rw [hdata] at hnext
          cases hnext
          exact ⟨by omega, by omega, by simp, rfl, rfl, rfl⟩

/-- The header of a TLV that is read lies in it. -/
theorem four_le_of_reads {reads : List TlvRead}
    (h : ∀ r ∈ ⟨s.pkt, s.pkt, 4⟩ :: reads, r.Inside p stop) : 4 ≤ tlvLen p s.pkt := by
  have hheader := (h _ List.mem_cons_self).2.1
  simp only at hheader
  omega

/-- The number of a native VLAN that is read lies in its TLV. -/
theorem six_le_of_reads (h : ∀ r ∈ (tlvData vlanType p s).1, r.Inside p stop)
    (htype : tlvType p s.pkt = cdpNativeVlanTlv) : 6 ≤ tlvLen p s.pkt := by
  unfold tlvData at h
  rw [if_pos htype] at h
  have hdata := (h _ List.mem_cons_self).2.1
  simp only at hdata
  omega

/-- A loop that ends and reads nothing outside has seen good TLVs. -/
theorem tlvsOk_of_ends (h : Ends (cdpPass vlanType p) (TlvRead.Inside p stop) Q s) :
    TlvsOk p s.pkt s.len := by
  refine Ends.induct (motive := fun s => TlvsOk p s.pkt s.len) h ?_ ?_
  · intro s reads r hpass hreads hQ
    by_cases hshort : s.len < 4
    · exact .short hshort
    · by_cases hlong : s.len < tlvLen p s.pkt
      · exact .long (by omega) hlong
      · rw [cdpPass_fits vlanType (by omega) (by omega)] at hpass
        obtain ⟨rfl, hnext⟩ := Prod.mk.inj hpass
        have hfour := four_le_of_reads hreads
        cases hdata : (tlvData vlanType p s).2 with
        | none =>
          obtain ⟨htype, hleft⟩ := (tlvData_eq_none_iff vlanType hfour).mp hdata
          exact .odd hfour (by omega) htype hleft
        | some v =>
          rw [hdata] at hnext
          cases hnext
  · intro s reads t hpass hreads hends ih
    obtain ⟨hlen, hfits, hsome, rfl, hpkt, hrest⟩ := cdpPass_next hpass
    have hfour := four_le_of_reads hreads
    rw [hpkt, hrest] at ih
    exact .next hfour hfits
      (six_le_of_reads fun r hr => hreads r (List.mem_cons_of_mem _ hr)) ih

/-- The loop ends on good TLVs, and only a sequence of TLVs has a result. -/
theorem ends_of_tlvsOk {i n : Nat} (h : TlvsOk p i n) : ∀ {s : CdpLoop}, s.pkt = i → s.len = n →
    i + n ≤ stop → Q none → (TlvSeq p i n → ∀ v, Q (some v)) →
      Ends (cdpPass vlanType p) (TlvRead.Inside p stop) Q s := by
  have hinside {s : CdpLoop} {n : Nat} (hstop : s.pkt + n ≤ stop) (hfits : tlvLen p s.pkt ≤ n)
      (hfour : 4 ≤ tlvLen p s.pkt)
      (hnative : tlvType p s.pkt = cdpNativeVlanTlv → 6 ≤ tlvLen p s.pkt) :
      ∀ r ∈ ⟨s.pkt, s.pkt, 4⟩ :: (tlvData vlanType p s).1, r.Inside p stop := by
    intro r hr
    rcases List.mem_cons.mp hr with rfl | hr
    · exact ⟨Nat.le_refl _, by simp only; omega, by simp only; omega⟩
    · obtain ⟨htlv, hlo, hhi⟩ := tlvData_reads hfour hnative r hr
      rw [TlvRead.Inside, htlv]
      exact ⟨hlo, hhi, by omega⟩
  induction h with
  | short hlen =>
    rintro s rfl rfl hstop hnone hsome
    by_cases hzero : s.len = 0
    · have hpass : cdpPass vlanType p s = ([], .inr (some (s.vlan, s.nvlan))) := by
        unfold cdpPass
        rw [if_pos hzero]
      rw [ends_stop hpass]
      rw [hzero] at hsome
      exact ⟨by simp, hsome (.nil _) _⟩
    · have hpass : cdpPass vlanType p s = ([], .inr none) := by
        unfold cdpPass
        rw [if_neg hzero, if_pos hlen]
      rw [ends_stop hpass]
      exact ⟨by simp, hnone⟩
  | long hlen hover =>
    rintro s rfl rfl hstop hnone hsome
    have hpass : cdpPass vlanType p s = ([⟨s.pkt, s.pkt, 4⟩], .inr none) := by
      unfold cdpPass
      rw [if_neg (by omega), if_neg (by omega), if_pos hover]
    rw [ends_stop hpass]
    refine ⟨?_, hnone⟩
    intro r hr
    rw [List.mem_singleton.mp hr]
    exact ⟨Nat.le_refl _, by simp only; omega, by simp only; omega⟩
  | odd hfour hfits htype hleft =>
    rintro s rfl rfl hstop hnone hsome
    have hdata := (tlvData_eq_none_iff vlanType hfour).mpr ⟨htype, hleft⟩
    have hpass := cdpPass_fits vlanType hfits (by omega)
    rw [hdata] at hpass
    rw [ends_stop hpass]
    refine ⟨hinside hstop hfits hfour fun htype' => ?_, hnone⟩
    rw [htype] at htype'
    cases htype'
  | next hfour hfits hnative hrest ih =>
    rintro s rfl rfl hstop hnone hsome
    have hpass := cdpPass_fits vlanType hfits (by omega)
    have hreads := hinside hstop hfits hfour hnative
    cases hdata : (tlvData vlanType p s).2 with
    | none =>
      rw [hdata] at hpass
      rw [ends_stop hpass]
      exact ⟨hreads, hnone⟩
    | some v =>
      rw [hdata] at hpass
      rw [ends_next hpass]
      refine ⟨hreads, ih rfl rfl (by omega) hnone fun hseq => ?_⟩
      exact hsome (.cons hfour hfits hseq)

end Loop

/-- **The TLVs of an accepted packet are handled right**, in bounded time and inside the packet, for
exactly the packets without a TLV of less than four bytes and without a native VLAN TLV of less than
six, as far as they are looked at. -/
theorem cdpHandler_right_iff (vlanType : Option UInt8) (c : CdpVars) (p : Contents) (h len : Nat)
    (hacc : cdpAccepted p h len) :
    (∃ fuel log c', cdpHandler vlanType c p h len fuel = some (log, c') ∧
        (∀ r ∈ log, r.Inside p (h + len)) ∧ (c' ≠ c → TlvSeq p (h + 12) (len - 12))) ↔
      TlvsOk p (h + 12) (len - 12) := by
  have hlen : 12 ≤ len := by
    simp only [cdpAccepted, Bool.and_eq_true, decide_eq_true_eq] at hacc
    exact hacc.1.1.1.1
  have hrun (fuel : Nat) : cdpHandler vlanType c p h len fuel =
      (cdpTlvs vlanType p h len fuel).map fun x => (x.1, cdpStore c x.2) := if_pos hacc
  constructor
  · rintro ⟨fuel, log, c', hrun', hin, -⟩
    rw [hrun, Option.map_eq_some_iff] at hrun'
    obtain ⟨x, hx, hxlog⟩ := hrun'
    cases hxlog
    exact tlvsOk_of_ends (Q := fun _ => True) ⟨fuel, x, hx, hin, trivial⟩
  · intro hok
    have hends : Ends (cdpPass vlanType p) (TlvRead.Inside p (h + len))
        (fun v => v.isSome → TlvSeq p (h + 12) (len - 12)) ⟨h + 12, len - 12, 0xffff, 0xffff⟩ :=
      ends_of_tlvsOk hok rfl rfl (by omega) (by simp) fun hseq _ _ => hseq
    obtain ⟨fuel, x, hx, hin, hQ⟩ := hends
    refine ⟨fuel, x.1, cdpStore c x.2, ?_, hin, fun hne => hQ ?_⟩
    · rw [hrun, cdpTlvs, hx]
      rfl
    · cases hv : x.2 with
      | none => exact absurd (by rw [hv]; rfl) hne
      | some v => rfl

/-- A packet of version 2 with the checksum and the TLVs, at the start of the buffer. -/
def cdpPacket (csum tlvs : Bytes) : Contents := fun i =>
  (cdpSnapHdr ++ [0x02, 0xB4] ++ csum ++ tlvs).getD i 0

theorem cdpHandler_right_native :
    cdpAccepted (cdpPacket [0xfd, 0x3a] [0, 10, 0, 6, 0, 1]) 0 18 ∧
      ∃ fuel log c', cdpHandler none ⟨0xffff, 0xffff, false⟩
          (cdpPacket [0xfd, 0x3a] [0, 10, 0, 6, 0, 1]) 0 18 fuel = some (log, c') ∧
        (∀ r ∈ log, r.Inside (cdpPacket [0xfd, 0x3a] [0, 10, 0, 6, 0, 1]) (0 + 18)) ∧
        (c' ≠ ⟨0xffff, 0xffff, false⟩ →
          TlvSeq (cdpPacket [0xfd, 0x3a] [0, 10, 0, 6, 0, 1]) (0 + 12) (18 - 12)) := by
  refine ⟨by decide +kernel, (cdpHandler_right_iff _ _ _ _ _ (by decide +kernel)).mpr ?_⟩
  exact .next (by decide) (by decide) (by decide)
    (.short (by decide))

/-- A TLV of no length is never left. -/
theorem cdpHandler_hangs :
    ¬ ∀ (vlanType : Option UInt8) (c : CdpVars) (p : Contents) (h len : Nat),
      cdpAccepted p h len →
        ∃ fuel log c', cdpHandler vlanType c p h len fuel = some (log, c') ∧
          (∀ r ∈ log, r.Inside p (h + len)) ∧ (c' ≠ c → TlvSeq p (h + 12) (len - 12)) := by
  intro hall
  have hacc : cdpAccepted (cdpPacket [0xfd, 0x4a] [0, 1, 0, 0]) 0 16 := by decide +kernel
  have hzero : tlvLen (cdpPacket [0xfd, 0x4a] [0, 1, 0, 0]) (0 + 12) = 0 := by decide
  obtain ⟨fuel, log, c', hrun, hin, -⟩ := hall none ⟨0xffff, 0xffff, false⟩ _ _ _ hacc
  rw [cdpHandler, if_pos hacc, Option.map_eq_some_iff] at hrun
  obtain ⟨x, hx, hxlog⟩ := hrun
  cases hxlog
  have hok : TlvsOk (cdpPacket [0xfd, 0x4a] [0, 1, 0, 0]) (0 + 12) 4 :=
    tlvsOk_of_ends (Q := fun _ => True) ⟨fuel, x, hx, hin, trivial⟩
  cases hok with
  | short hlen => omega
  | long hlen hover => omega
  | odd hfour => omega
  | next hfour => omega

end UBoot.Net
