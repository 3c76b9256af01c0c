import Mathlib.Data.Nat.Find
import UBoot.Net.DefragmentStep

/-!
# Runs of fragments

The fragments of a datagram come to `__NetDefragment` in any order, some of them more than
once.  As long as every fragment is welcome when it comes, each call leaves the hole list at
what is missing (`netDefragments_reassembly`), and the call that completes the datagram
returns its payload.
-/

namespace UBoot.Net

open UBoot.Lib

/-! ## Runs -/

/-- The static variables before the first call. -/
def Defrag.start : Defrag := ⟨fun _ => 0, 0, 0⟩

/-- The calls for packets one after the other: the static variables, and what the last call
has returned. -/
def netDefragments (d : Defrag) (ips : List Contents) : Exec (Defrag × Option Nat) :=
  ips.foldlM (fun s ip => netDefragment s.1 ip) (d, none)

/-- Every fragment is welcome when it comes. -/
def WelcomeRun (dg : Datagram) (ks : List Nat) : Prop :=
  ∀ pre k post, ks = pre ++ k :: post → Welcome dg pre k

section Run

variable {dg : Datagram} {id : Nat} {seen : List Nat} {H : List (Nat × Nat)} {k : Nat}
  {d : Defrag} {ip : Contents}

/-- The length check lets every fragment through. -/
theorem netDefragment_eq (hc : Carries dg id k ip) {d' : Defrag} (hreset : resetFor d ip = .ok d') :
    netDefragment d ip = insertFragment d' ip (dg.start k) (dg.size k) := by
  have hstop := Datagram.stop_eq hc.lt
  have hle := dg.length_le
  have hstople := dg.stop_le k
  unfold ipMaxUdp ipPktSize ipHdrSize at hle
  have hlen : (word ip 2 : Int) - ipHdrSize = dg.size k := by
    rw [hc.len]
    omega
  unfold netDefragment
  simp only
  rw [hlen, hc.offset, if_neg, hreset, ok_bind]
  unfold ipMaxUdp ipPktSize ipHdrSize
  omega

theorem netDefragment_started (h : Reassembly dg id seen d H) (hc : Carries dg id k ip) :
    netDefragment d ip = insertFragment d ip (dg.start k) (dg.size k) := by
  refine netDefragment_eq hc ?_
  have hlen := Datagram.start_lt_length hc.lt
  have htotal : d.totalLen ≠ 0 := by
    rw [h.total]
    split <;> omega
  rw [resetFor, if_neg]
  rintro (hzero | hid)
  · exact htotal hzero
  · exact hid (h.kept.ident.trans hc.ident.symm)

/-- A new packet sets up one hole for the whole payload, and its header is copied. -/
theorem resetFor_new (ip : Contents)
    (hnew : d.totalLen = 0 ∨ word d.pktBuff 4 ≠ word ip 4) :
    ∃ p, resetFor d ip = .ok ⟨p, 0, 0xffff⟩ ∧ holes p 0 = ⟨0xffff, 0, 0⟩ ∧
      word p 4 = word ip 4 := by
  generalize hp : putHole d.pktBuff 0 ⟨0xffff, 0, 0, (getHole d.pktBuff 0).unused⟩ = p
  have hlen : (readAt ip 0 ipHdrSize).length = ipHdrSize := length_readAt _ _ _
  refine ⟨storeAt p 0 (readAt ip 0 ipHdrSize), ?_, ?_, ?_⟩
  · rw [resetFor, if_pos hnew, modifyHole_eq (by decide), ok_bind, hp]
    rfl
  · have hhole : getHole (storeAt p 0 (readAt ip 0 ipHdrSize)) 0 =
        ⟨0xffff, 0, 0, (getHole d.pktBuff 0).unused⟩ := by
      rw [getHole_congr (p := p), ← hp, getHole_putHole_self]
      · exact ⟨by simp, by simp, by simp, (getHole_fits _ _).unused⟩
      · rintro a ⟨hlo, -⟩
        refine storeAt_of_not_inRange ?_
        rintro ⟨-, hhi⟩
        unfold holeAt at hlo
        omega
    rw [holes, hhole]
  · have hbyte (a : Nat) (ha : a < ipHdrSize) : storeAt p 0 (readAt ip 0 ipHdrSize) a = ip a := by
      have h : storeAt p 0 (readAt ip 0 ipHdrSize) (0 + a) = (readAt ip 0 ipHdrSize).getD a 0 :=
        storeAt_add (hlen.symm ▸ ha)
      rw [Nat.zero_add] at h
      rw [h, List.getD_eq_getElem?_getD, getElem?_readAt ha, Nat.zero_add, Option.getD_some]
    rw [word, word, hbyte 4 (by decide), hbyte (4 + 1) (by decide)]

theorem netDefragment_first (hzero : d.totalLen = 0) (hc : Carries dg id k ip) :
    ∃ d', netDefragment d ip = insertFragment d' ip (dg.start k) (dg.size k) ∧
      Reassembly dg id [] d' [(0, dg.count)] := by
  have htwo := dg.two_le
  have hstart := dg.start_zero
  obtain ⟨p, hreset, hhole, hident⟩ := resetFor_new ip (.inl hzero)
  have hgap : Gapped Prod.fst Prod.snd [(0, dg.count)] := List.pairwise_singleton _ _
  refine ⟨_, netDefragment_eq hc hreset, ⟨⟨hgap, ?_, ?_⟩, ?_, ?_, rfl, ⟨by simp, ?_⟩⟩⟩
  · simpa using Nat.lt_of_lt_of_le Nat.two_pos htwo
  · simp
  · have hend : dg.holeEnd dg.count = 0xffff := if_neg (Nat.lt_irrefl _)
    refine ⟨?_, trivial⟩
    simp only [hstart, hhole, hend]
    rfl
  · intro _
    exact hstart.symm
  · exact hident.trans hc.ident

theorem netDefragment_step (h : Reassembly dg id seen d H) (hc : Carries dg id k ip)
    (hw : Welcome dg seen k) (hne : H ≠ []) :
    ∃ d' H', netDefragment d ip =
        .ok (d', if H' = [] then some (dg.payload.length + ipHdrSize) else none) ∧
      Reassembly dg id (k :: seen) d' H' := by
  rw [netDefragment_started h hc]
  by_cases hk : k ∈ seen
  · obtain ⟨d', hcall, hinv⟩ := insertFragment_seen h hc hk hne
    exact ⟨d', H, by rw [hcall, if_neg hne], hinv⟩
  · exact insertFragment_new h hc hk hw

theorem Welcome.congr {seen' : List Nat} (h : Welcome dg seen k)
    (hmem : ∀ m, m ∈ seen ↔ m ∈ seen') : Welcome dg seen' k := by
  simpa only [Welcome, hmem] using h

/-- **Every run of welcome fragments**, up to the one that completes the datagram. -/
theorem netDefragments_reassembly (fs : List (Nat × Contents)) (hne : fs ≠ [])
    (hfs : ∀ f ∈ fs, Carries dg id f.1 f.2) (hwelcome : WelcomeRun dg (fs.map Prod.fst))
    (hmissing : ∃ m < dg.count, m ∉ fs.dropLast.map Prod.fst) :
    ∃ d H, netDefragments .start (fs.map Prod.snd) =
        .ok (d, if H = [] then some (dg.payload.length + ipHdrSize) else none) ∧
      Reassembly dg id (fs.map Prod.fst).reverse d H := by
  induction fs using List.reverseRecOn with
  | nil => exact absurd rfl hne
  | append_singleton fs f ih =>
    have hc : Carries dg id f.1 f.2 := hfs f (by simp)
    have hw : Welcome dg (fs.map Prod.fst) f.1 := by
      refine hwelcome _ _ [] ?_
      rw [List.map_append]
      rfl
    rw [List.dropLast_concat] at hmissing
    rw [netDefragments, List.map_append, List.foldlM_append, List.map_append, List.reverse_append]
    by_cases hfs₀ : fs = []
    · subst hfs₀
      obtain ⟨d₀, hcall, hinv⟩ := netDefragment_first (d := .start) rfl hc
      obtain ⟨d, H, hinsert, hinv'⟩ := insertFragment_new hinv hc (by simp) hw
      refine ⟨d, H, ?_, hinv'⟩
      simp only [List.map_nil, List.foldlM_nil, List.map_cons, List.foldlM_cons, pure_bind, hcall,
        hinsert, bind_pure]
    · have hrun := ih hfs₀ (fun g hg => hfs g (by simp [hg])) ?_ ?_
      · obtain ⟨d₀, H₀, hcalls, hinv⟩ := hrun
        have hH₀ : H₀ ≠ [] := by
          rintro rfl
          obtain ⟨m, hm, hnot⟩ := hmissing
          obtain ⟨x, hx, -⟩ := (hinv.missing.mem_iff m).mpr ⟨hm, by simpa using hnot⟩
          cases hx
        obtain ⟨d, H, hstep, hinv'⟩ :=
          netDefragment_step hinv hc (hw.congr fun m => (List.mem_reverse).symm) hH₀
        refine ⟨d, H, ?_, hinv'⟩
        rw [netDefragments] at hcalls
        rw [hcalls, ok_bind]
        simp only [List.map_cons, List.map_nil, List.foldlM_cons, List.foldlM_nil, hstep, ok_bind]
        rfl
      · intro pre k post hsplit
        refine hwelcome pre k (post ++ [f.1]) ?_
        rw [List.map_append, hsplit]
        simp
      · obtain ⟨m, hm, hnot⟩ := hmissing
        refine ⟨m, hm, fun hmem => hnot ?_⟩
        obtain ⟨g, hg, rfl⟩ := List.mem_map.mp hmem
        exact List.mem_map_of_mem (List.dropLast_subset fs hg)

end Run

/-! ## Bytes -/

/-- The byte is one of a fragment that has come. -/
def HasCome (dg : Datagram) (ks : List Nat) (b : Nat) : Prop :=
  ∃ k ∈ ks, k < dg.count ∧ 8 * dg.start k ≤ b ∧ b < dg.stop k

/-- The list of holes that begins at `first_hole` is that of the ranges of bytes that have
not come: `L` has the index and the end of each. -/
structure Describes (dg : Datagram) (ks : List Nat) (d : Defrag) (L : List (Nat × Nat)) : Prop where
  linked : Linked d.pktBuff L
  first : d.firstHole = headIdx L 0
  inOrder : L.Pairwise fun x y => x.2 < 8 * y.1
  descriptor : ∀ x ∈ L, 8 * x.1 + 8 ≤ x.2
  missing : ∀ b < dg.payload.length, (∃ x ∈ L, 8 * x.1 ≤ b ∧ b < x.2) ↔ ¬ HasCome dg ks b

section Bytes

variable {dg : Datagram} {id : Nat} {ks : List Nat} {H : List (Nat × Nat)} {b k m : Nat}
  {d : Defrag}

theorem exists_fragment (hb : b < dg.payload.length) :
    ∃ m < dg.count, 8 * dg.start m ≤ b ∧ b < dg.stop m := by
  have htwo := dg.two_le
  have hle := Nat.findGreatest_le (P := fun m => 8 * dg.start m ≤ b) (dg.count - 1)
  have hzero : 8 * dg.start 0 ≤ b := by
    rw [dg.start_zero]
    exact Nat.zero_le b
  have hstart := Nat.findGreatest_spec (P := fun m => 8 * dg.start m ≤ b)
    (Nat.zero_le (dg.count - 1)) hzero
  have hnext (m : Nat) := Nat.findGreatest_is_greatest (P := fun m => 8 * dg.start m ≤ b)
    (n := dg.count - 1) (k := m)
  generalize Nat.findGreatest (fun m => 8 * dg.start m ≤ b) (dg.count - 1) = m at *
  refine ⟨m, by omega, hstart, ?_⟩
  rw [Datagram.stop]
  split
  · exact Nat.lt_of_not_le (hnext (m + 1) (by omega) (by omega))
  · exact hb

theorem fragment_unique (hm : m < dg.count) (hk : k < dg.count) (hmb : 8 * dg.start m ≤ b)
    (hbm : b < dg.stop m) (hkb : 8 * dg.start k ≤ b) (hbk : b < dg.stop k) : m = k := by
  by_contra hne
  rcases Nat.lt_or_gt_of_ne hne with hlt | hlt
  · have := Datagram.stop_le_start hlt hk
    omega
  · have := Datagram.stop_le_start hlt hm
    omega

theorem hasCome_iff (hm : m < dg.count) (hmb : 8 * dg.start m ≤ b) (hbm : b < dg.stop m) :
    HasCome dg ks b ↔ m ∈ ks := by
  constructor
  · rintro ⟨k, hk, hkc, hkb, hbk⟩
    obtain rfl := fragment_unique hm hkc hmb hbm hkb hbk
    exact hk
  · intro hmem
    exact ⟨m, hmem, hm, hmb, hbm⟩

/-- All fragments have come when all bytes have. -/
theorem forall_hasCome_iff :
    (∀ b < dg.payload.length, HasCome dg ks b) ↔ ∀ m < dg.count, m ∈ ks := by
  constructor
  · intro hall m hm
    have hstop := Datagram.start_lt_stop hm
    exact (hasCome_iff hm le_rfl hstop).mp (hall _ (Datagram.start_lt_length hm))
  · intro hall b hb
    obtain ⟨m, hm, hmb, hbm⟩ := exists_fragment hb
    exact (hasCome_iff hm hmb hbm).mpr (hall m hm)

theorem Missing.in_hole_iff (h : Missing dg ks H) (hm : m < dg.count) (hmb : 8 * dg.start m ≤ b)
    (hbm : b < dg.stop m) :
    (∃ x ∈ dg.cells H, 8 * x.1 ≤ b ∧ b < x.2) ↔ m ∉ ks := by
  have hle := dg.length_le
  unfold ipMaxUdp ipPktSize ipHdrSize at hle
  have hstople := dg.stop_le m
  constructor
  · rintro ⟨y, hy, hlo, hhi⟩
    obtain ⟨x, hx, rfl⟩ := List.mem_map.mp hy
    obtain ⟨hxx, hxc⟩ := h.proper x hx
    refine ((h.mem_iff m).mp ⟨x, hx, ?_, ?_⟩).2
    · by_contra hlt
      have : dg.stop m ≤ 8 * dg.start x.1 := Datagram.stop_le_start (by omega) (by omega)
      omega
    · by_contra hge
      have hend : dg.holeEnd x.2 = 8 * dg.start x.2 := if_pos (by omega)
      have : dg.start x.2 ≤ dg.start m := Datagram.start_le_start (by omega) hm
      omega
  · intro hnot
    obtain ⟨x, hx, hlo, hhi⟩ := (h.mem_iff m).mpr ⟨hm, hnot⟩
    refine ⟨_, List.mem_map_of_mem hx, ?_, ?_⟩
    · have : dg.start x.1 ≤ dg.start m := Datagram.start_le_start hlo hm
      show 8 * dg.start x.1 ≤ b
      omega
    · show b < dg.holeEnd x.2
      rw [Datagram.holeEnd]
      split
      · rename_i hxc
        have : dg.stop m ≤ 8 * dg.start x.2 := Datagram.stop_le_start hhi hxc
        omega
      · omega

theorem Reassembly.describes (h : Reassembly dg id ks d H) (hne : H ≠ []) :
    Describes dg ks d (dg.cells H) := by
  have hle := dg.length_le
  unfold ipMaxUdp ipPktSize ipHdrSize at hle
  refine ⟨h.linked, h.first hne, ?_, ?_, ?_⟩
  · rw [Datagram.cells, List.pairwise_map]
    refine h.missing.gapped.imp_of_mem fun {x y} hx hy hxy => ?_
    have hyc := (h.missing.start_notMem hy).1
    have : dg.start x.2 < dg.start y.1 := Datagram.start_lt_start hxy hyc
    show dg.holeEnd x.2 < 8 * dg.start y.1
    rw [Datagram.holeEnd, if_pos (by omega)]
    omega
  · intro y hy
    obtain ⟨x, hx, rfl⟩ := List.mem_map.mp hy
    have hxx := (h.missing.proper x hx).1
    have hxc := (h.missing.start_notMem hx).1
    have hlen := Datagram.start_lt_length hxc
    show 8 * dg.start x.1 + 8 ≤ dg.holeEnd x.2
    rw [Datagram.holeEnd]
    split
    · rename_i hxc'
      have := Datagram.start_lt_start hxx hxc'
      omega
    · omega
  · intro b hb
    obtain ⟨m, hm, hmb, hbm⟩ := exists_fragment hb
    rw [h.missing.in_hole_iff hm hmb hbm, hasCome_iff hm hmb hbm]

theorem Reassembly.eq_nil_iff (h : Reassembly dg id ks d H) :
    H = [] ↔ ∀ m < dg.count, m ∈ ks := by
  constructor
  · rintro rfl m hm
    by_contra hnot
    obtain ⟨x, hx, -⟩ := (h.missing.mem_iff m).mpr ⟨hm, hnot⟩
    cases hx
  · intro hall
    by_contra hne
    obtain ⟨x, H, rfl⟩ := List.exists_cons_of_ne_nil hne
    obtain ⟨hxc, hnot⟩ := h.missing.start_notMem (x := x) (by simp)
    exact hnot (hall x.1 hxc)

/-- A byte that has come is in the buffer. -/
theorem Kept.byte {p : Contents} (h : Kept dg id ks p)
    (hreceived : HasCome dg ks b) : p (ipHdrSize + b) = dg.payload.getD b 0 := by
  obtain ⟨k, hk, hkc, hkb, hbk⟩ := hreceived
  have hstop := Datagram.stop_eq hkc
  have hdata := congrArg (fun l : Bytes => l[b - 8 * dg.start k]?) (h.data k hk hkc)
  rw [getElem?_readAt (by omega), Datagram.data, List.getElem?_take_of_lt (by omega),
    List.getElem?_drop] at hdata
  have hidx : ipHdrSize + 8 * dg.start k + (b - 8 * dg.start k) = ipHdrSize + b := by omega
  have hidx' : 8 * dg.start k + (b - 8 * dg.start k) = b := by omega
  rw [hidx, hidx'] at hdata
  rw [List.getD_eq_getElem?_getD, ← hdata]
  rfl

theorem Kept.payload {p : Contents} (h : Kept dg id ks p)
    (hall : ∀ b < dg.payload.length, HasCome dg ks b) :
    readAt p ipHdrSize dg.payload.length = dg.payload := by
  apply List.ext_getElem?
  intro b
  by_cases hb : b < dg.payload.length
  · rw [getElem?_readAt hb, h.byte (hall b hb), List.getD_eq_getElem?_getD,
      List.getElem?_eq_getElem hb]
    rfl
  · rw [List.getElem?_eq_none (by simpa using hb), List.getElem?_eq_none (by simpa using hb)]

end Bytes

/-- **Completeness**: the call for the fragment that completes a datagram returns its
payload. -/
theorem netDefragments_complete (dg : Datagram) (id : Nat) (fs : List (Nat × Contents))
    (f : Nat × Contents) (hcarries : ∀ g ∈ fs ++ [f], Carries dg id g.1 g.2)
    (hwelcome : WelcomeRun dg ((fs ++ [f]).map Prod.fst))
    (hbefore : ∃ m < dg.count, m ∉ fs.map Prod.fst)
    (hafter : ∀ m < dg.count, m ∈ (fs ++ [f]).map Prod.fst) :
    ∃ d, netDefragments .start ((fs ++ [f]).map Prod.snd) =
        .ok (d, some (dg.payload.length + ipHdrSize)) ∧
      readAt d.pktBuff ipHdrSize dg.payload.length = dg.payload := by
  obtain ⟨d, H, hcalls, hinv⟩ := netDefragments_reassembly (fs ++ [f]) (by simp) hcarries hwelcome
    (by rwa [List.dropLast_concat])
  have hall : ∀ m < dg.count, m ∈ ((fs ++ [f]).map Prod.fst).reverse := by
    intro m hm
    exact List.mem_reverse.mpr (hafter m hm)
  rw [if_pos (hinv.eq_nil_iff.mpr hall)] at hcalls
  exact ⟨d, hcalls, hinv.kept.payload (forall_hasCome_iff.mpr hall)⟩

/-- **Soundness**: after every call the hole list is that of the bytes that have not come, and
the bytes that have come are in the buffer; a packet is returned only when it is complete. -/
theorem netDefragments_sound (dg : Datagram) (id : Nat) (fs : List (Nat × Contents))
    (hne : fs ≠ []) (hcarries : ∀ g ∈ fs, Carries dg id g.1 g.2)
    (hwelcome : WelcomeRun dg (fs.map Prod.fst))
    (hbefore : ∃ m < dg.count, m ∉ fs.dropLast.map Prod.fst) :
    ∃ d r, netDefragments .start (fs.map Prod.snd) = .ok (d, r) ∧
      (∀ b < dg.payload.length, HasCome dg (fs.map Prod.fst) b →
        d.pktBuff (ipHdrSize + b) = dg.payload.getD b 0) ∧
      (r = none ∧ (∃ L, L ≠ [] ∧ Describes dg (fs.map Prod.fst) d L) ∨
        r = some (dg.payload.length + ipHdrSize) ∧
          (∀ b < dg.payload.length, HasCome dg (fs.map Prod.fst) b) ∧
          readAt d.pktBuff ipHdrSize dg.payload.length = dg.payload) := by
  obtain ⟨d, H, hcalls, hinv⟩ := netDefragments_reassembly fs hne hcarries hwelcome hbefore
  have hreceived (b : Nat) :
      HasCome dg (fs.map Prod.fst).reverse b ↔ HasCome dg (fs.map Prod.fst) b := by
    simp only [HasCome, List.mem_reverse]
  refine ⟨d, _, hcalls, fun b _ hb => hinv.kept.byte ((hreceived b).mpr hb), ?_⟩
  by_cases hH : H = []
  · right
    have hall := forall_hasCome_iff.mpr (hinv.eq_nil_iff.mp hH)
    exact ⟨if_pos hH, fun b hb => (hreceived b).mp (hall b hb), hinv.kept.payload hall⟩
  · left
    have hdesc := hinv.describes hH
    refine ⟨if_neg hH, dg.cells H, fun hnil => hH (List.map_eq_nil_iff.mp hnil), hdesc.linked,
      hdesc.first, hdesc.inOrder, hdesc.descriptor, fun b hb => ?_⟩
    rw [hdesc.missing b hb, hreceived]

/-! ## Small datagrams -/

/-- A datagram of `n` bytes in `count` fragments, all but the last one of eight bytes. -/
def smallDatagram (n count : Nat) (htwo : 2 ≤ count) (hlast : 8 * (count - 1) < n)
    (hle : n ≤ ipMaxUdp - 8) : Datagram where
  payload := (List.range n).map fun b => UInt8.ofNat (b + 1)
  count := count
  start k := k
  two_le := htwo
  start_zero := rfl
  start_lt k _ := Nat.lt_succ_self k
  last_lt := by simpa using hlast
  length_le := by simpa using hle

/-- The packet with the fragment `k`. -/
def Datagram.packet (dg : Datagram) (k : Nat) : Contents := fun i =>
  ([0x45, 0] ++ htons (ipHdrSize + dg.size k) ++ htons 7 ++
    htons (dg.start k + if k + 1 = dg.count then 0 else 0x2000) ++ [64, 17, 0, 0] ++
    [192, 168, 0, 1, 192, 168, 0, 2] ++ dg.data k).getD i 0

def sixteenBytes : Datagram := smallDatagram 16 2 (by decide) (by decide) (by decide)

theorem sixteenBytes_carries : ∀ g ∈ [0, 1].map (fun k => (k, sixteenBytes.packet k)),
    Carries sixteenBytes 7 g.1 g.2 := by
  have h0 : Carries sixteenBytes 7 0 (sixteenBytes.packet 0) :=
    ⟨by decide, by decide, by decide, by decide, by decide, by decide⟩
  have h1 : Carries sixteenBytes 7 1 (sixteenBytes.packet 1) :=
    ⟨by decide, by decide, by decide, by decide, by decide, by decide⟩
  simpa using ⟨h0, h1⟩

theorem sixteenBytes_welcome : WelcomeRun sixteenBytes [0, 1] := by
  intro pre k post hsplit
  right
  refine ⟨fun hlast hshort => ?_, fun j hpos hlt => ?_⟩
  · have hsize : sixteenBytes.size 1 = 8 := by decide
    have hk : k + 1 = 2 := hlast
    obtain rfl : k = 1 := by omega
    omega
  · rcases pre with _ | ⟨a, _ | ⟨b, pre⟩⟩
    · cases hsplit
      omega
    · cases hsplit
      omega
    · simp at hsplit

theorem netDefragments_complete_sixteenBytes :
    ∃ d, netDefragments .start [sixteenBytes.packet 0, sixteenBytes.packet 1] = .ok (d, some 36) ∧
      readAt d.pktBuff ipHdrSize 16 = sixteenBytes.payload :=
  netDefragments_complete sixteenBytes 7 [(0, sixteenBytes.packet 0)] (1, sixteenBytes.packet 1)
    sixteenBytes_carries sixteenBytes_welcome ⟨1, by decide, by decide⟩ (by decide)

theorem netDefragments_sound_sixteenBytes :
    ∃ d r, netDefragments .start [sixteenBytes.packet 0, sixteenBytes.packet 1] = .ok (d, r) ∧
      (∀ b < 16, HasCome sixteenBytes [0, 1] b →
        d.pktBuff (ipHdrSize + b) = sixteenBytes.payload.getD b 0) ∧
      (r = none ∧ (∃ L, L ≠ [] ∧ Describes sixteenBytes [0, 1] d L) ∨
        r = some 36 ∧ (∀ b < 16, HasCome sixteenBytes [0, 1] b) ∧
          readAt d.pktBuff ipHdrSize 16 = sixteenBytes.payload) :=
  netDefragments_sound sixteenBytes 7
    [(0, sixteenBytes.packet 0), (1, sixteenBytes.packet 1)] (by simp) sixteenBytes_carries
    sixteenBytes_welcome ⟨1, by decide, by decide⟩

/-- Eight bytes and then five: the five bytes are dropped as those of a duplicate. -/
theorem netDefragments_not_complete :
    ¬ ∀ (dg : Datagram) (id : Nat) (fs : List (Nat × Contents)) (f : Nat × Contents),
      (∀ g ∈ fs ++ [f], Carries dg id g.1 g.2) → (∃ m < dg.count, m ∉ fs.map Prod.fst) →
      (∀ m < dg.count, m ∈ (fs ++ [f]).map Prod.fst) →
      ∃ d, netDefragments .start ((fs ++ [f]).map Prod.snd) =
          .ok (d, some (dg.payload.length + ipHdrSize)) ∧
        readAt d.pktBuff ipHdrSize dg.payload.length = dg.payload := by
  intro h
  obtain ⟨dg, hdg⟩ : ∃ dg, dg = smallDatagram 13 2 (by decide) (by decide) (by decide) := ⟨_, rfl⟩
  have h0 : Carries dg 7 0 (dg.packet 0) := by
    subst hdg
    exact ⟨by decide, by decide, by decide, by decide, by decide, by decide⟩
  have h1 : Carries dg 7 1 (dg.packet 1) := by
    subst hdg
    exact ⟨by decide, by decide, by decide, by decide, by decide, by decide⟩
  obtain ⟨d, hcalls, -⟩ := h dg 7 [(0, dg.packet 0)] (1, dg.packet 1)
    (by simpa using ⟨h0, h1⟩) ⟨1, by subst hdg; decide, by simp⟩ (by subst hdg; decide)
  have hnone : (netDefragments .start [dg.packet 0, dg.packet 1]).map Prod.snd = .ok none := by
    subst hdg
    decide
  rw [show [dg.packet 0, dg.packet 1] = ([(0, dg.packet 0)] ++ [(1, dg.packet 1)]).map Prod.snd
    from rfl, hcalls] at hnone
  cases hnone

/-- Three times eight bytes: the second and the third fragment are returned as a packet, with
a descriptor for the first. -/
theorem netDefragments_not_sound :
    ¬ ∀ (dg : Datagram) (id : Nat) (fs : List (Nat × Contents)), fs ≠ [] →
      (∀ g ∈ fs, Carries dg id g.1 g.2) → (∃ m < dg.count, m ∉ fs.dropLast.map Prod.fst) →
      ∃ d r, netDefragments .start (fs.map Prod.snd) = .ok (d, r) ∧
        (∀ b < dg.payload.length, HasCome dg (fs.map Prod.fst) b →
          d.pktBuff (ipHdrSize + b) = dg.payload.getD b 0) ∧
        (r = none ∧ (∃ L, L ≠ [] ∧ Describes dg (fs.map Prod.fst) d L) ∨
          r = some (dg.payload.length + ipHdrSize) ∧
            (∀ b < dg.payload.length, HasCome dg (fs.map Prod.fst) b) ∧
            readAt d.pktBuff ipHdrSize dg.payload.length = dg.payload) := by
  intro h
  obtain ⟨dg, hdg⟩ : ∃ dg, dg = smallDatagram 24 3 (by decide) (by decide) (by decide) := ⟨_, rfl⟩
  have h1 : Carries dg 7 1 (dg.packet 1) := by
    subst hdg
    exact ⟨by decide, by decide, by decide, by decide, by decide, by decide⟩
  have h2 : Carries dg 7 2 (dg.packet 2) := by
    subst hdg
    exact ⟨by decide, by decide, by decide, by decide, by decide, by decide⟩
  obtain ⟨d, r, hcalls, -, hend⟩ := h dg 7 [(1, dg.packet 1), (2, dg.packet 2)] (by simp)
    (by simpa using ⟨h1, h2⟩) ⟨0, by subst hdg; decide, by simp⟩
  have hsome : (netDefragments .start [dg.packet 1, dg.packet 2]).map Prod.snd = .ok (some 44) := by
    subst hdg
    decide
  rw [show [dg.packet 1, dg.packet 2] = [(1, dg.packet 1), (2, dg.packet 2)].map Prod.snd
    from rfl, hcalls] at hsome
  rcases hend with ⟨rfl, -⟩ | ⟨-, hall, -⟩
  · cases hsome
  · have hmem := forall_hasCome_iff.mp hall 0 (by subst hdg; decide)
    simp at hmem

end UBoot.Net
