import UBoot.Net.Datagram

/-!
# The call for a fragment

The hole list in the buffer is the list of the runs that are missing, and the bytes of the
other fragments are there (`Reassembly`).  A welcome fragment that has not come before is
taken out of its run (`insertFragment_new`), and one that has come before changes nothing
(`insertFragment_seen`).
-/

namespace UBoot.Net

open UBoot.Lib

/-! ## The state -/

/-- The buffer has the bytes of the fragments that have come, and the identification. -/
structure Kept (dg : Datagram) (id : Nat) (seen : List Nat) (p : Contents) : Prop where
  data : ∀ k ∈ seen, k < dg.count →
    readAt p (ipHdrSize + 8 * dg.start k) (dg.size k) = dg.data k
  ident : word p 4 = id

/-- The state when the fragments of `seen` have come: the hole list is the list of the runs
that are missing, and the others are in the buffer. -/
structure Reassembly (dg : Datagram) (id : Nat) (seen : List Nat) (d : Defrag)
    (H : List (Nat × Nat)) : Prop where
  missing : Missing dg seen H
  seg : Seg (holes d.pktBuff) 0 (dg.cells H) 0
  first : H ≠ [] → d.firstHole = headIdx (dg.cells H) 0
  total : d.totalLen = if dg.count - 1 ∈ seen then dg.payload.length else 0xffff
  kept : Kept dg id seen d.pktBuff

/-- The packet carries the fragment `k`. -/
structure Carries (dg : Datagram) (id k : Nat) (ip : Contents) : Prop where
  lt : k < dg.count
  ident : word ip 4 = id
  offset : word ip 6 &&& 0x1fff = dg.start k
  more : word ip 6 &&& 0x2000 = 0 ↔ k + 1 = dg.count
  len : word ip 2 = ipHdrSize + dg.size k
  data : readAt ip ipHdrSize (dg.size k) = dg.data k

section State

variable {dg : Datagram} {id : Nat} {seen : List Nat} {H : List (Nat × Nat)} {k : Nat}
  {d : Defrag} {p p' : Contents} {J : List Nat}

theorem Reassembly.linked (h : Reassembly dg id seen d H) : Linked d.pktBuff (dg.cells H) :=
  ⟨h.seg, h.missing.sorted, h.missing.inside⟩

/-- Writes to the descriptors of fragments that have not come. -/
theorem Kept.of_same (h : Kept dg id seen p) (hsame : SameOutside J p p')
    (hJ : ∀ j ∈ J, ∃ m < dg.count, m ∉ seen ∧ j = dg.start m) : Kept dg id seen p' := by
  refine ⟨fun k hk hkc => ?_, ?_⟩
  · rw [← h.data k hk hkc]
    apply readAt_congr
    rintro a ⟨hlo, hhi⟩
    refine hsame a fun j hj => ?_
    obtain ⟨m, hm, hmseen, rfl⟩ := hJ j hj
    rintro ⟨hlo', hhi'⟩
    have hne : m ≠ k := by
      rintro rfl
      exact hmseen hk
    have hstop := Datagram.stop_eq hkc
    rcases Datagram.apart hm hkc hne with happ | happ <;> omega
  · rw [← h.ident, hsame.ident]

theorem Kept.copy (h : Kept dg id seen p) (hk : k < dg.count) :
    Kept dg id (k :: seen) (storeAt p (ipHdrSize + 8 * dg.start k) (dg.data k)) := by
  have hlen := Datagram.length_data hk
  have hstop := Datagram.stop_eq hk
  refine ⟨fun m hm hmc => ?_, ?_⟩
  · by_cases hmk : m = k
    · subst hmk
      rw [← hlen]
      exact readAt_storeAt _ _ _
    · have hm := (List.mem_cons.mp hm).resolve_left hmk
      rw [← h.data m hm hmc]
      refine readAt_storeAt_apart ?_
      have hstop' := Datagram.stop_eq hmc
      rw [hlen]
      rcases Nat.lt_or_gt_of_ne hmk with hlt | hlt
      · have := Datagram.stop_le_start hlt hk
        omega
      · have := Datagram.stop_le_start hlt hmc
        omega
  · rw [← h.ident, ident_storeAt (.inr (Nat.le_add_right _ _))]

/-- The length in the header of the finished packet. -/
theorem Kept.setLen (h : Kept dg id seen p) (n : Nat) :
    Kept dg id seen (storeAt p 2 (htons n)) := by
  have hlen : (htons n).length = 2 := rfl
  refine ⟨fun k hk hkc => ?_, ?_⟩
  · rw [← h.data k hk hkc]
    apply readAt_congr
    rintro a ⟨hlo, -⟩
    refine storeAt_of_not_inRange ?_
    rintro ⟨-, hhi⟩
    have : ipHdrSize = 20 := rfl
    omega
  · rw [← h.ident, ident_storeAt (.inl (by omega))]

/-- A fragment is copied beside the holes. -/
theorem holes_copy (hk : k < dg.count) (hmissing : Missing dg (k :: seen) H)
    (hseg : Seg (holes p) 0 (dg.cells H) 0) :
    Seg (holes (storeAt p (ipHdrSize + 8 * dg.start k) (dg.data k))) 0 (dg.cells H) 0 := by
  refine seg_storeAt hseg fun j hj => ?_
  obtain ⟨y, hy, rfl⟩ := List.mem_map.mp hj
  obtain ⟨x, hx, rfl⟩ := List.mem_map.mp hy
  obtain ⟨hxc, hxseen⟩ := hmissing.start_notMem hx
  have hne : x.1 ≠ k := by
    intro h
    exact hxseen (by simp [h])
  have hlen := Datagram.length_data hk
  have hstop := Datagram.stop_eq hk
  have happ := Datagram.apart hxc hk hne
  simp only
  unfold holeAt at happ
  omega

end State

/-! ## One fragment -/

section Fragment

variable {dg : Datagram} {id : Nat} {seen : List Nat} {H A B : List (Nat × Nat)}
  {i j k v : Nat} {d d' : Defrag} {p ip : Contents}

/-- The hole of the run around the fragment is edited as the runs are. -/
theorem fixHoles_edited (hl : Linked d.pktBuff (dg.cells A ++ (dg.start i, v) :: dg.cells B))
    (hfirst : d.firstHole = headIdx (dg.cells A ++ (dg.start i, v) :: dg.cells B) 0)
    (hmissing : Missing dg (k :: seen) (A ++ without i j k ++ B)) (hi : i ≤ k) (hj : k < j)
    (hjc : j ≤ dg.count) (hv : v ≤ dg.stop k ↔ j = k + 1) (hv' : k + 1 < j → v = dg.holeEnd j)
    (hsight : i = k → Sighted (dg.cells A)) :
    ∃ d', fixHoles d (dg.start i) (dg.start k) (dg.start k + dg.size k / 8) (dg.stop k) =
        .ok (d', decide (A ++ without i j k ++ B = [])) ∧
      Edited d d' (dg.cells (A ++ without i j k ++ B)) := by
  have hkc : k < dg.count := by omega
  obtain ⟨hlast, -, -⟩ := hl.getHole_eq
  obtain ⟨-, hin, -⟩ := hl.inside_parts
  have hsorted := hmissing.sorted
  have hinside := hmissing.inside
  -- Behind a fragment that is not the last one is the next.
  have hnext : k + 1 < j → dg.start k + dg.size k / 8 = dg.start (k + 1) := by
    intro hlt
    have := dg.start_lt k (by omega)
    rw [Datagram.size, Datagram.stop, if_pos (by omega)]
    omega
  have hik : dg.start k ≤ dg.start i ↔ i = k := by
    constructor
    · intro hle
      by_contra hne
      have : dg.start i < dg.start k := Datagram.start_lt_start (by omega) hkc
      omega
    · rintro rfl
      exact le_rfl
  have hvk : (v : Int) ≤ dg.stop k ↔ j = k + 1 := Int.ofNat_le.trans hv
  -- What is left of the hole in front of the fragment ends where the fragment starts.
  have hend := dg.holeEnd_of_lt hkc
  have hsmall : dg.start k * 8 < 65536 := by
    have hlen := Datagram.start_lt_length hkc
    have hle := dg.length_le
    unfold ipMaxUdp ipPktSize ipHdrSize at hle
    omega
  rw [fixHoles, loadHole_eq hin, ok_bind, hlast]
  simp only [hik, hvk]
  by_cases hik : i = k
  · subst hik
    by_cases hjk : j = i + 1
    · subst hjk
      have hwithout : without i (i + 1) i = [] := by simp [without]
      rw [if_pos ⟨rfl, rfl⟩, hwithout, List.append_nil]
      obtain ⟨d', hremove, hedited⟩ := removeHole_edited hl (hsight rfl) fun _ => hfirst
      refine ⟨d', ?_, by simpa using hedited⟩
      rw [hremove]
      congr 2
      simp [Datagram.cells]
    · have hlt : i + 1 < j := by omega
      have hwithout : without i j i = [(i + 1, j)] := by simp [without, hlt]
      rw [hwithout] at hsorted hinside ⊢
      simp only [Datagram.cells_append, Datagram.cells_cons, List.append_assoc,
        List.singleton_append] at hsorted hinside ⊢
      rw [hv' hlt] at hl hfirst
      obtain ⟨d', hmove, hedited⟩ := moveHole_edited hl (hsight rfl) (fun _ => hfirst)
        (hinside (dg.start (i + 1)) (by simp)) hsorted
      rw [if_neg (fun h => hjk h.2), if_neg hjk, if_pos trivial, hnext hlt, hmove]
      exact ⟨d', by simp, hedited⟩
  · by_cases hjk : j = k + 1
    · subst hjk
      have hlt : i < k := by omega
      have hwithout : without i (k + 1) k = [(i, k)] := by simp [without, hlt]
      obtain ⟨p', hmodify, hedited, -⟩ := modify_edited hl hfirst hsmall
      rw [if_neg (fun h => hik h.1), if_pos rfl, hwithout, hmodify, ok_bind]
      refine ⟨{ d with pktBuff := p' }, ?_, by simpa [hend] using hedited⟩
      rw [decide_eq_false (by simp)]
      rfl
    · have hlt : k + 1 < j := by omega
      have hlt' : i < k := by omega
      have hwithout : without i j k = [(i, k), (k + 1, j)] := by simp [without, hlt, hlt']
      rw [hwithout] at hsorted hinside ⊢
      simp only [Datagram.cells_append, Datagram.cells_cons, List.append_assoc, List.cons_append,
        List.nil_append] at hsorted hinside ⊢
      rw [hv' hlt] at hl hfirst
      have hnew :
          dg.start (k + 1) ∉ idxs (dg.cells A ++ (dg.start i, dg.holeEnd j) :: dg.cells B) := by
        have hnodup := hsorted.imp Nat.ne_of_lt
        simp only [idxs_append, idxs_cons] at hnodup ⊢
        grind
      obtain ⟨d', hsplit, hedited⟩ := splitHole_edited hl hfirst
        (hinside (dg.start (k + 1)) (by simp)) hsmall hnew
      rw [if_neg (fun h => hjk h.2), if_neg hjk, if_neg hik, hnext hlt, hsplit]
      exact ⟨d', by simp, by simpa [hend] using hedited⟩

/-- The total length, when the fragment has come. -/
theorem total_cons {total total' : Nat} (hkc : k < dg.count)
    (h : total = if dg.count - 1 ∈ seen then dg.payload.length else 0xffff)
    (h' : total' = if k + 1 = dg.count then dg.stop k else total) :
    total' = if dg.count - 1 ∈ k :: seen then dg.payload.length else 0xffff := by
  subst h'
  by_cases hlast : k + 1 = dg.count
  · have hmem : dg.count - 1 ∈ k :: seen := List.mem_cons.mpr (.inl (by omega))
    rw [if_pos hlast, if_pos hmem, Datagram.stop, if_neg (by omega)]
  · have hne : dg.count - 1 ≠ k := by omega
    rw [if_neg hlast, h]
    simp [hne]

/-- The hole that a fragment is in, when the last fragment has set its end. -/
theorem truncateHole_linked (h : Reassembly dg id seen d (A ++ (i, j) :: B))
    (hc : Carries dg id k ip) :
    ∃ d' v, truncateHole d ip (dg.start i) (dg.stop k) = .ok d' ∧
      Linked d'.pktBuff (dg.cells A ++ (dg.start i, v) :: dg.cells B) ∧
      d'.firstHole = headIdx (dg.cells A ++ (dg.start i, v) :: dg.cells B) 0 ∧
      d'.totalLen = (if dg.count - 1 ∈ k :: seen then dg.payload.length else 0xffff) ∧
      SameOutside [dg.start i] d.pktBuff d'.pktBuff ∧
      v = if k + 1 = dg.count then dg.stop k else dg.holeEnd j := by
  have hl := h.linked
  have hfirst := h.first (by simp)
  rw [Datagram.cells_append, Datagram.cells_cons] at hl hfirst
  have hle := dg.length_le
  unfold ipMaxUdp ipPktSize ipHdrSize at hle
  have hstop := dg.stop_le k
  obtain ⟨d', v, htrunc, hl', hfirst', hsame, hends⟩ :=
    truncateHole_edited ip hl hfirst (x := dg.stop k) (by omega)
  simp only [hc.more] at hends
  refine ⟨d', v, htrunc, hl', hfirst', total_cons hc.lt h.total ?_, hsame, ?_⟩
  · split at hends <;> simp_all
  · split at hends <;> simp_all

/-- The end of the hole compared with that of a fragment in it. -/
theorem end_le_stop_iff (hkc : k < dg.count) (hj : k < j) (hjc : j ≤ dg.count)
    (hv : v = if k + 1 = dg.count then dg.stop k else dg.holeEnd j) :
    (v ≤ dg.stop k ↔ j = k + 1) ∧ (k + 1 < j → v = dg.holeEnd j) := by
  subst hv
  by_cases hlast : k + 1 = dg.count
  · rw [if_pos hlast]
    exact ⟨⟨fun _ => by omega, fun _ => le_rfl⟩, fun _ => by omega⟩
  · rw [if_neg hlast]
    refine ⟨?_, fun _ => rfl⟩
    rw [Datagram.stop, if_pos (by omega), Datagram.holeEnd]
    have hnext : 8 * dg.start (k + 1) < dg.payload.length := Datagram.start_lt_length (by omega)
    have hle := dg.length_le
    unfold ipMaxUdp ipPktSize ipHdrSize at hle
    split
    · rename_i hjc'
      constructor
      · intro hle'
        by_contra hne
        have : dg.start (k + 1) < dg.start j := Datagram.start_lt_start (by omega) hjc'
        omega
      · rintro rfl
        exact le_rfl
    · omega

theorem size_div (k : Nat) : (dg.size k : Int).tdiv 8 = (dg.size k / 8 : Nat) := by
  rw [Int.tdiv_eq_ediv_of_nonneg (Int.natCast_nonneg _)]
  rfl

/-- The walk ends at the hole of the run around the fragment. -/
theorem findHole_run (h : Reassembly dg id seen d (A ++ (i, j) :: B)) (hi : i ≤ k) (hj : k < j)
    (hkc : k < dg.count) :
    findHole d.pktBuff (dg.start k * 8) 65537 d.firstHole = .ok (some (dg.start i)) := by
  have hl := h.linked
  have hlen := hl.length_le
  have hle := dg.length_le
  unfold ipMaxUdp ipPktSize ipHdrSize at hle
  rw [h.first (by simp)]
  rw [Datagram.cells_append, Datagram.cells_cons] at hl hlen ⊢
  refine findHole_eq_some hl.seg hl.sorted hl.inside ?_ ?_ ?_
  · intro y hy
    obtain ⟨x, hx, rfl⟩ := List.mem_map.mp hy
    have hxi : x.2 < i := (gapped_middle_iff.mp h.missing.gapped).2.1 x hx
    have : dg.start x.2 < dg.start k := Datagram.start_lt_start (by omega) hkc
    show dg.holeEnd x.2 < _
    rw [Datagram.holeEnd, if_pos (by omega)]
    omega
  · have hlt := Datagram.start_lt_length hkc
    rw [Datagram.holeEnd]
    split
    · rename_i hjc
      have : dg.start k < dg.start j := Datagram.start_lt_start hj hjc
      show _ ≤ 8 * dg.start j
      omega
    · omega
  · simp only [List.length_append, List.length_cons] at hlen
    omega

/-- A fragment that is welcome has a whole unit in its hole. -/
theorem start_lt_new (h : Missing dg seen (A ++ (i, j) :: B)) (hi : i ≤ k) (hkc : k < dg.count)
    (hnew : k ∉ seen) (hw : Welcome dg seen k) :
    dg.start i < dg.start k + dg.size k / 8 := by
  rcases hi.lt_or_eq with hlt | rfl
  · have := Datagram.start_lt_start hlt hkc
    omega
  · have hsize : 8 ≤ dg.size i := by
      by_contra hshort
      have hlast : i + 1 = dg.count := by
        by_contra hne
        have := dg.start_lt i (by omega)
        rw [Datagram.size, Datagram.stop, if_pos (by omega)] at hshort
        omega
      have hbefore := (hw.resolve_left hnew).1 hlast (by omega)
      -- The predecessor would be in a run that touches this one.
      have htwo := dg.two_le
      obtain ⟨x, hx, hlo, hhi⟩ := (h.mem_iff (i - 1)).mpr ⟨by omega, hbefore⟩
      obtain ⟨-, hAi, hjB⟩ := gapped_middle_iff.mp h.gapped
      have hij := (h.proper (i, j) (by simp)).1
      simp only at hij
      rcases List.mem_append.mp hx with hx | hx
      · have := hAi x hx
        simp only at this
        omega
      · rcases List.mem_cons.mp hx with rfl | hx
        · simp only at hlo
          omega
        · have := hjB x hx
          simp only at this
          omega
    omega

/-- A fragment that overlaps with a hole: what the call does, from the results of its parts. -/
theorem insertFragment_eq {d₁ d₂ : Defrag} {done : Bool} (hkc : k < dg.count)
    (hfind : findHole d.pktBuff (dg.start k * 8) 65537 d.firstHole = .ok (some (dg.start i)))
    (hunit : dg.start i < dg.start k + dg.size k / 8)
    (htrunc : truncateHole d ip (dg.start i) (dg.stop k) = .ok d₁)
    (hfix : fixHoles d₁ (dg.start i) (dg.start k) (dg.start k + dg.size k / 8) (dg.stop k) =
      .ok (d₂, done))
    (hcopy : copyFragment d₂.pktBuff ip (dg.start k * 8) (dg.size k) = .ok p) :
    insertFragment d ip (dg.start k) (dg.size k) = .ok (if done
      then (⟨storeAt p 2 (htons d₂.totalLen), d₂.firstHole, d₂.totalLen⟩,
        some (d₂.totalLen + ipHdrSize))
      else (⟨p, d₂.firstHole, d₂.totalLen⟩, none)) := by
  have hstop := Datagram.stop_eq hkc
  have hsum : ((dg.start k * 8 : Nat) : Int) + dg.size k = dg.stop k := by omega
  have hunits : ((dg.start k : Int) + (dg.size k : Int).tdiv 8).toNat =
      dg.start k + dg.size k / 8 := by
    rw [size_div]
    omega
  have hdup : ¬ ((dg.start k : Int) + (dg.size k : Int).tdiv 8 ≤ dg.start i) := by
    rw [size_div]
    omega
  rw [insertFragment, hfind, ok_bind]
  simp only
  rw [if_neg hdup, hsum, Int.toNat_natCast, htrunc, ok_bind, hunits, hfix, ok_bind]
  simp only
  rw [hcopy, ok_bind]
  cases done with
  | true => rfl
  | false => rfl

theorem copyFragment_eq (hc : Carries dg id k ip) :
    copyFragment p ip (dg.start k * 8) (dg.size k) =
      .ok (storeAt p (ipHdrSize + 8 * dg.start k) (dg.data k)) := by
  have hstop := Datagram.stop_eq hc.lt
  have hle := dg.length_le
  have hstople := dg.stop_le k
  have hroom : 0 ≤ (dg.size k : Int) ∧
      (ipHdrSize : Int) + (dg.start k * 8 : Nat) + dg.size k ≤ ipPktSize := by
    unfold ipMaxUdp ipPktSize ipHdrSize at *
    omega
  rw [copyFragment, if_pos hroom, Int.toNat_natCast, hc.data, Nat.mul_comm (dg.start k)]

/-- A fragment that overlaps with a hole, whose list is then that of `H'`. -/
theorem insertFragment_place {H' : List (Nat × Nat)}
    (h : Reassembly dg id seen d (A ++ (i, j) :: B)) (hc : Carries dg id k ip)
    (hfind : findHole d.pktBuff (dg.start k * 8) 65537 d.firstHole = .ok (some (dg.start i)))
    (hunit : dg.start i < dg.start k + dg.size k / 8) (hcut : Missing dg (k :: seen) H')
    (hfixes : ∀ d₁ v, Linked d₁.pktBuff (dg.cells A ++ (dg.start i, v) :: dg.cells B) →
      d₁.firstHole = headIdx (dg.cells A ++ (dg.start i, v) :: dg.cells B) 0 →
      v = (if k + 1 = dg.count then dg.stop k else dg.holeEnd j) →
      ∃ d₂, fixHoles d₁ (dg.start i) (dg.start k) (dg.start k + dg.size k / 8) (dg.stop k) =
          .ok (d₂, decide (H' = [])) ∧ Edited d₁ d₂ (dg.cells H')) :
    ∃ d', insertFragment d ip (dg.start k) (dg.size k) =
        .ok (d', if H' = [] then some (dg.payload.length + ipHdrSize) else none) ∧
      Reassembly dg id (k :: seen) d' H' := by
  have hkc := hc.lt
  obtain ⟨d₁, v, htrunc, hl₁, hfirst₁, htotal₁, hsame₁, hv⟩ := truncateHole_linked h hc
  obtain ⟨d₂, hfix, hedited⟩ := hfixes d₁ v hl₁ hfirst₁ hv
  -- Only descriptors of fragments that are still missing have been written.
  have hkept : Kept dg id seen d₂.pktBuff := by
    have hic := h.missing.start_notMem (x := (i, j)) (by simp)
    refine (h.kept.of_same hsame₁ ?_).of_same hedited.same ?_
    · intro m hm
      exact ⟨i, hic.1, hic.2, List.mem_singleton.mp hm⟩
    · intro m hm
      obtain ⟨y, hy, rfl⟩ := List.mem_map.mp hm
      obtain ⟨x, hx, rfl⟩ := List.mem_map.mp hy
      obtain ⟨hxc, hxseen⟩ := hcut.start_notMem hx
      exact ⟨x.1, hxc, fun hmem => hxseen (List.mem_cons_of_mem _ hmem), rfl⟩
  obtain ⟨p₃, hp₃⟩ : ∃ p₃, p₃ = storeAt d₂.pktBuff (ipHdrSize + 8 * dg.start k) (dg.data k) :=
    ⟨_, rfl⟩
  have hcall := insertFragment_eq hkc hfind hunit htrunc hfix (copyFragment_eq hc)
  rw [← hp₃] at hcall
  have htotal : d₂.totalLen = if dg.count - 1 ∈ k :: seen then dg.payload.length else 0xffff :=
    hedited.total.trans htotal₁
  have hseg := holes_copy hkc hcut hedited.seg
  have hdata := hkept.copy hkc
  rw [← hp₃] at hseg hdata
  by_cases hH : H' = []
  · subst hH
    have hall : dg.count - 1 ∈ k :: seen := by
      by_contra hmiss
      have htwo := dg.two_le
      obtain ⟨x, hx, -⟩ := (hcut.mem_iff (dg.count - 1)).mpr ⟨by omega, hmiss⟩
      cases hx
    rw [if_pos (decide_eq_true rfl)] at hcall
    refine ⟨⟨storeAt p₃ 2 (htons d₂.totalLen), d₂.firstHole, d₂.totalLen⟩, hcall.trans ?_,
      hcut, trivial, fun hne => absurd rfl hne, htotal, hdata.setLen _⟩
    have htotal' : d₂.totalLen = dg.payload.length := htotal.trans (if_pos hall)
    rw [if_pos rfl, htotal']
  · rw [if_neg (by simpa using hH)] at hcall
    refine ⟨⟨p₃, d₂.firstHole, d₂.totalLen⟩, hcall.trans ?_, hcut, hseg, ?_, htotal, hdata⟩
    · rw [if_neg hH]
    · intro _
      refine hedited.first ?_
      intro hcells
      exact hH (List.map_eq_nil_iff.mp hcells)

/-- **A fragment that has not come before** is taken out of what is missing. -/
theorem insertFragment_new (h : Reassembly dg id seen d H) (hc : Carries dg id k ip)
    (hnew : k ∉ seen) (hw : Welcome dg seen k) :
    ∃ d' H', insertFragment d ip (dg.start k) (dg.size k) =
        .ok (d', if H' = [] then some (dg.payload.length + ipHdrSize) else none) ∧
      Reassembly dg id (k :: seen) d' H' := by
  have hkc := hc.lt
  obtain ⟨A, i, j, B, rfl, hi, hj⟩ := h.missing.exists_run hkc hnew
  have hcut := h.missing.cut hi hj
  have hjc := (h.missing.proper (i, j) (by simp)).2
  have hunit := start_lt_new h.missing hi hkc hnew hw
  have hsight : i = k → Sighted (dg.cells A) := by
    rintro rfl
    exact h.missing.sighted hnew hw
  obtain ⟨d', hcall, hinv⟩ := insertFragment_place h hc (findHole_run h hi hj hkc) hunit hcut
    fun d₁ v hl₁ hfirst₁ hv => by
      obtain ⟨hv, hv'⟩ := end_le_stop_iff hkc hj hjc hv
      exact fixHoles_edited hl₁ hfirst₁ hcut hi hj hjc hv hv' hsight
  exact ⟨d', _, hcall, hinv⟩

theorem Missing.again (h : Missing dg seen H) (hk : k ∈ seen) : Missing dg (k :: seen) H := by
  refine ⟨h.gapped, h.proper, fun m => ?_⟩
  rw [h.mem_iff m, List.mem_cons]
  grind

theorem Reassembly.again (h : Reassembly dg id seen d H) (hk : k ∈ seen) :
    Reassembly dg id (k :: seen) d H := by
  refine ⟨h.missing.again hk, h.seg, h.first, ?_, ⟨fun m hm => ?_, h.kept.ident⟩⟩
  · rw [h.total]
    grind
  · exact h.kept.data m (by grind)

/-- The holes in front of the fragment, and the first one that is not. -/
theorem exists_first {P : Nat × Nat → Prop} [DecidablePred P] : ∀ H : List (Nat × Nat),
    (∀ x ∈ H, P x) ∨ ∃ A x B, H = A ++ x :: B ∧ (∀ y ∈ A, P y) ∧ ¬ P x := by
  intro H
  induction H with
  | nil => exact .inl (by simp)
  | cons y H ih =>
    by_cases hy : P y
    · rcases ih with hall | ⟨A, x, B, rfl, hA, hx⟩
      · exact .inl (List.forall_mem_cons.mpr ⟨hy, hall⟩)
      · exact .inr ⟨y :: A, x, B, rfl, List.forall_mem_cons.mpr ⟨hy, hA⟩, hx⟩
    · exact .inr ⟨[], y, H, rfl, by simp, hy⟩

/-- **A fragment that has come before** changes nothing. -/
theorem insertFragment_seen (h : Reassembly dg id seen d H) (hc : Carries dg id k ip)
    (hk : k ∈ seen) (hne : H ≠ []) :
    ∃ d', insertFragment d ip (dg.start k) (dg.size k) = .ok (d', none) ∧
      Reassembly dg id (k :: seen) d' H := by
  have hkc := hc.lt
  have hl := h.linked
  have hlen := hl.length_le
  have hle := dg.length_le
  unfold ipMaxUdp ipPktSize ipHdrSize at hle
  have hlt := Datagram.start_lt_length hkc
  rcases exists_first (P := fun x => dg.holeEnd x.2 < dg.start k * 8) H with
    hall | ⟨A, ⟨i, j⟩, B, rfl, hA, hx⟩
  · refine ⟨d, ?_, h.again hk⟩
    have hcells : ∀ y ∈ dg.cells H, y.2 < dg.start k * 8 := by
      intro y hy
      obtain ⟨x, hx, rfl⟩ := List.mem_map.mp hy
      exact hall x hx
    have hne' : dg.cells H ≠ [] := fun hnil => hne (List.map_eq_nil_iff.mp hnil)
    rw [insertFragment, h.first hne,
      findHole_eq_none hne' hl.seg hl.sorted hl.inside hcells (by omega), ok_bind]
    rfl
  · have hfind : findHole d.pktBuff (dg.start k * 8) 65537 d.firstHole =
        .ok (some (dg.start i)) := by
      rw [h.first hne]
      rw [Datagram.cells_append, Datagram.cells_cons] at hl hlen ⊢
      refine findHole_eq_some hl.seg hl.sorted hl.inside ?_ (Nat.le_of_not_lt hx) ?_
      · intro y hy
        obtain ⟨x, hx, rfl⟩ := List.mem_map.mp hy
        exact hA x hx
      · simp only [List.length_append, List.length_cons] at hlen
        omega
    obtain ⟨hij, hjc⟩ := h.missing.proper (i, j) (by simp)
    simp only at hij hjc hx
    have hout : k < i ∨ j ≤ k := by
      by_contra hin
      push Not at hin
      exact ((h.missing.mem_iff k).mp ⟨(i, j), by simp, hin.1, hin.2⟩).2 hk
    rcases hout with hki | hjk
    · -- The hole is behind the fragment.
      refine ⟨d, ?_, h.again hk⟩
      have hunits : (dg.start k : Int) + (dg.size k : Int).tdiv 8 ≤ dg.start i := by
        have hle' : dg.start (k + 1) ≤ dg.start i := Datagram.start_le_start hki (by omega)
        have := dg.start_lt k (by omega)
        rw [size_div, Datagram.size, Datagram.stop, if_pos (by omega)]
        omega
      rw [insertFragment, hfind, ok_bind]
      simp only
      rw [if_pos hunits]
      rfl
    · -- The hole ends where the fragment begins, and is made to end there once more.
      obtain rfl : j = k := by
        by_contra hne
        have : dg.start j < dg.start k := Datagram.start_lt_start (by omega) hkc
        rw [Datagram.holeEnd, if_pos (by omega)] at hx
        omega
      have hstart : dg.start i < dg.start j := Datagram.start_lt_start hij hkc
      have hend := dg.holeEnd_of_lt hkc
      obtain ⟨d', hcall, hinv⟩ := insertFragment_place h hc hfind (by omega) (h.missing.again hk)
        fun d₁ v hl₁ hfirst₁ hv => by
          obtain ⟨p', hmodify, hedited, -⟩ :=
            modify_edited hl₁ hfirst₁ (x := dg.start j * 8) (by omega)
          have hstop := Datagram.start_lt_stop hkc
          have hvle : (v : Int) ≤ dg.stop j := by
            rw [hv, hend]
            split <;> omega
          refine ⟨{ d₁ with pktBuff := p' }, ?_, ?_⟩
          · rw [fixHoles, loadHole_eq hl₁.inside_parts.2.1, ok_bind, hl₁.getHole_eq.1,
              if_neg (fun hle' => by omega), if_pos hvle, hmodify, ok_bind,
              decide_eq_false (by simp)]
            rfl
          · rw [Datagram.cells_append, Datagram.cells_cons]
            simpa only [hend] using hedited
      rw [if_neg (by simp)] at hcall
      exact ⟨d', hcall, hinv⟩

end Fragment

end UBoot.Net
