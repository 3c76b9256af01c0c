import UBoot.Fs.Jffs2ScanSpec
import UBoot.LibGeneric.Crc32

/-!
# The scan of a partition

Every pass goes on behind its place, or to the same place once more, which is then passed over
(`Place.rank`).  What is known of a place (`Place.Inv`) is known of the next one.

* `scan_robust`: where no sum leaves 32 bits, the scan ends and stays inside the partition and the
  buffer exactly if nothing is read again too close to the end of either.
-/

namespace UBoot.Fs.Jffs2

open UBoot.Lib UBoot.LibGeneric

/-! ## Where a pass leads -/

/-- What is known of every place. -/
def Place.Inv (part : PartInfo) (flash : Mem) : Place → Prop
  | .sector _ _ => True
  | .first i ofs buf => i < nrSectors part ∧ 4 ∣ ofs ∧ ofs ≤ bufSize ∧
      Mirrors flash (part.offset + sectorOfs part i) bufSize buf
  | .scanMore s => Window part flash s
  | .moreEmpty s inbufOfs scanEnd =>
      Window part flash s ∧ inbufOfs = s.index ∧ 4 ∣ scanEnd ∧ scanEnd ≤ s.bufLen

/-- More than any place in a sector is worth. -/
def sectorRank (part : PartInfo) : Nat := 4 * part.size + bufSize + 6

/-- How far the scan is from its end. -/
def Place.rank (part : PartInfo) : Place → Nat
  | .sector i _ => (nrSectors part - i) * sectorRank part
  | .first i ofs _ =>
    (nrSectors part - (i + 1)) * sectorRank part + (4 * part.size + 5 + (bufSize - ofs))
  | .scanMore s => (nrSectors part - (s.i + 1)) * sectorRank part +
      (4 * (part.size - s.ofs) + if s.ofs = s.prevofs then 1 else 2)
  | .moreEmpty s inbufOfs scanEnd => (nrSectors part - (s.i + 1)) * sectorRank part +
      (4 * (part.size - s.ofs) + if inbufOfs < scanEnd then 3 else 4)

section Next

variable {part : PartInfo} {flash : Mem} {crc : Bytes → Nat} {s : Scan} {q : Place} {need : Nat}

/-- What the buffer holds of a node is what is in flash. -/
theorem Window.node_eq (h : Window part flash s) {k : Nat} (hk : s.index + k < s.bufLen) :
    s.node k = view flash (part.offset + s.ofs) k := by
  have hle := h.bufOfs_le
  have hsum : part.offset + s.bufOfs + (s.index + k) = part.offset + s.ofs + k := by
    rw [h.index_eq]
    omega
  rw [Scan.node, ptr, h.mirrors _ hk, hsum, view]

theorem Window.magic_eq (h : Window part flash s)
    (hheader : s.index + sizeofUnknownNode ≤ s.bufLen) :
    magic s.node = magic (view flash (part.offset + s.ofs)) := by
  rw [sizeofUnknownNode] at hheader
  rw [magic, magic, load16, load16, h.node_eq (by omega), h.node_eq (by omega)]

theorem Window.totlen_eq (h : Window part flash s)
    (hheader : s.index + sizeofUnknownNode ≤ s.bufLen) :
    totlen s.node = totlen (view flash (part.offset + s.ofs)) := by
  rw [sizeofUnknownNode] at hheader
  exact load32_congr (by decide) fun k _ hk => h.node_eq (by omega)

/-- The length of a node stays the same when it is read again. -/
theorem Window.totlen_ensure (h : Window part flash s)
    (hheader : s.index + sizeofUnknownNode ≤ s.bufLen) (hread : s.ReadAgain part need) :
    totlen (s.ensure part flash need s.bufLen).node = totlen s.node := by
  rw [Scan.ensure]
  by_cases hshort : s.Short need
  · have hfetch := h.fetch h.four_dvd_bufLen h.bufLen_le (hread hshort)
    have hzero : (s.fetch part flash s.bufLen).index = 0 := fetch_index h.ofs_lt
    have hlen : sizeofUnknownNode ≤ (s.fetch part flash s.bufLen).bufLen :=
      (Nat.le_add_left _ _).trans hheader
    rw [if_pos hshort, h.totlen_eq hheader,
      hfetch.totlen_eq (by rw [hzero, Nat.zero_add]; exact hlen)]
    rfl
  · rw [if_neg hshort]

theorem Window.add_four_le (h : Window part flash s) {top : Nat} (hlt : s.ofs < top)
    (htop : 4 ∣ top) : s.ofs + 4 ≤ top := by
  have hofs := h.four_dvd_ofs
  omega

/-- The scan at another place behind the start of the buffer. -/
theorem Window.move (h : Window part flash s) {ofs : Nat} (hfour : 4 ∣ ofs) (hbuf : s.bufOfs ≤ ofs)
    (hle : ofs ≤ part.size) : Window part flash { s with ofs := ofs } :=
  { h with
    four_dvd_ofs := hfour
    bufOfs_le := hbuf
    ofs_le := hle }

theorem skip_ofs (hle : s.ofs + 4 ≤ part.size) :
    s.skip.ofs = s.ofs + 4 := by
  rw [Scan.skip]
  exact ulong_of_lt (Nat.lt_of_le_of_lt hle part.size_lt)

theorem Window.skip (h : Window part flash s) (hle : s.ofs + 4 ≤ part.size) :
    Window part flash s.skip := by
  rw [Scan.skip, ulong_of_lt (Nat.lt_of_le_of_lt hle part.size_lt)]
  exact h.move (Nat.dvd_add h.four_dvd_ofs (Nat.dvd_refl 4))
    (h.bufOfs_le.trans (Nat.le_add_right _ _)) hle

theorem advance_i : s.advance.i = s.i := by rw [Scan.advance]

theorem advance_prevofs : s.advance.prevofs = s.prevofs := by rw [Scan.advance]

theorem advance_ofs (hforward : s.ofs + align4 (totlen s.node) < 2 ^ 32) :
    s.advance.ofs = s.ofs + align4 (totlen s.node) := by
  rw [Scan.advance]
  exact ulong_of_lt hforward

/-- A node that passes the test of its range leads on inside the sector. -/
theorem Window.advance (h : Window part flash s)
    (hrange : ulong (s.ofs + totlen s.node) ≤ sectorEnd part s.i)
    (hforward : s.ofs + align4 (totlen s.node) < 2 ^ 32) : Window part flash s.advance := by
  have hend := sectorEnd_le h.sector
  obtain ⟨hfour, hle⟩ := ulong_add_align4 h.four_dvd_ofs (four_dvd_sectorEnd h.sector)
    (Nat.lt_of_le_of_lt hend part.size_lt) hrange
  rw [ulong_of_lt hforward] at hfour hle
  rw [Scan.advance, ulong_of_lt hforward]
  exact h.move hfour (h.bufOfs_le.trans (Nat.le_add_right _ _)) (hle.trans hend)

/-- A place behind another one in its sector. -/
structure Scan.Behind (part : PartInfo) (flash : Mem) (s t : Scan) : Prop where
  window : Window part flash t
  i : t.i = s.i
  prevofs : t.prevofs = s.prevofs
  ofs_le : s.ofs ≤ t.ofs

theorem Window.behind (h : Window part flash s)
    (hrange : ulong (s.ofs + totlen s.node) ≤ sectorEnd part s.i)
    (hforward : s.ofs + align4 (totlen s.node) < 2 ^ 32) : s.Behind part flash s.advance :=
  ⟨h.advance hrange hforward, advance_i, advance_prevofs, by
    rw [advance_ofs hforward]
    exact Nat.le_add_right _ _⟩

/-- A valid node leads behind itself also if it has been read again. -/
theorem Window.behind_ensure (h : Window part flash s)
    (hheader : s.index + sizeofUnknownNode ≤ s.bufLen)
    (hrange : ulong (s.ofs + totlen s.node) ≤ sectorEnd part s.i)
    (hforward : s.ofs + align4 (totlen s.node) < 2 ^ 32) (hread : s.ReadAgain part need) :
    s.Behind part flash (s.ensure part flash need s.bufLen).advance := by
  have hwindow : Window part flash (s.ensure part flash need s.bufLen) :=
    h.ensure h.four_dvd_bufLen h.bufLen_le hread
  have hlen := h.totlen_ensure hheader hread
  obtain ⟨hnext, hi, hprevofs, hle⟩ := hwindow.behind
    (by rw [ensure_ofs, hlen, ensure_i]; exact hrange) (by rw [ensure_ofs, hlen]; exact hforward)
  rw [ensure_ofs] at hle
  exact ⟨hnext, hi.trans ensure_i, hprevofs.trans ensure_prevofs, hle⟩

theorem Window.visitValid_next (h : Window part flash s)
    (hheader : s.index + sizeofUnknownNode ≤ s.bufLen) (hvalid : s.Valid part crc)
    (hforward : s.NodeForward part crc) (hheld : s.NodeHeld part crc) :
    ∃ t, (visitValid part flash crc s).next = some (.scanMore t) ∧ s.Behind part flash t := by
  have hadvance := hforward.advance hvalid
  rw [visitValid]
  by_cases hinode : nodetype s.node = jffs2NodetypeInode
  · refine ⟨_, ?_, h.behind_ensure hheader hvalid.range hadvance (hheld.inode hvalid hinode)⟩
    rw [if_pos hinode, visitInode]
    split <;> rfl
  · rw [if_neg hinode]
    by_cases hdirent : nodetype s.node = jffs2NodetypeDirent
    · refine ⟨_, ?_,
        h.behind_ensure hheader hvalid.range hadvance (hheld.dirent hvalid hdirent).2⟩
      rw [if_pos hdirent, visitDirent]
      split
      · split <;> rfl
      · rfl
    · rw [if_neg hdirent]
      exact ⟨_, rfl, h.behind hvalid.range hadvance⟩

/-- The rank at `scan_more` is at most this. -/
theorem rank_scanMore_le (part : PartInfo) (s : Scan) : (Place.scanMore s).rank part ≤
    (nrSectors part - (s.i + 1)) * sectorRank part + (4 * (part.size - s.ofs) + 2) := by
  rw [Place.rank]
  split <;> omega

theorem rank_skip_lt (hle : s.ofs + 4 ≤ part.size) : (Place.scanMore s.skip).rank part <
    (nrSectors part - (s.i + 1)) * sectorRank part + (4 * (part.size - s.ofs) + 1) := by
  have hrank := rank_scanMore_le part s.skip
  have hi : s.skip.i = s.i := rfl
  rw [skip_ofs hle, hi] at hrank
  omega

theorem rank_of_seen (hseen : s.ofs = s.prevofs) : (Place.scanMore s).rank part =
    (nrSectors part - (s.i + 1)) * sectorRank part + (4 * (part.size - s.ofs) + 1) := by
  rw [Place.rank, if_pos hseen]

theorem rank_of_unseen (hunseen : s.ofs ≠ s.prevofs) : (Place.scanMore s).rank part =
    (nrSectors part - (s.i + 1)) * sectorRank part + (4 * (part.size - s.ofs) + 2) := by
  rw [Place.rank, if_neg hunseen]

/-- A pass at a header. -/
theorem Window.visitNode_next (h : Window part flash s)
    (hheader : s.index + sizeofUnknownNode ≤ s.bufLen) (hbefore : s.ofs < sectorEnd part s.i)
    (hseen : s.prevofs = s.ofs) (hforward : s.NodeForward part crc)
    (hheld : s.NodeHeld part crc) (hq : (visitNode part flash crc s).next = some q) :
    q.Inv part flash ∧ q.rank part <
      (nrSectors part - (s.i + 1)) * sectorRank part + (4 * (part.size - s.ofs) + 2) := by
  have hend := sectorEnd_le h.sector
  have hfour := h.add_four_le hbefore (four_dvd_sectorEnd h.sector)
  have hroom : s.ofs + 4 ≤ part.size := hfour.trans hend
  have hskip := h.skip hroom
  have hofs := skip_ofs hroom
  have hmore : (Place.scanMore s.skip).rank part <
      (nrSectors part - (s.i + 1)) * sectorRank part + (4 * (part.size - s.ofs) + 2) :=
    (rank_skip_lt hroom).trans (Nat.lt_succ_self _)
  by_cases hvalid : s.Valid part crc
  · obtain ⟨t, hnext, hbehind⟩ := h.visitValid_next hheader hvalid hforward hheld
    rw [visitNode_of_valid hvalid, Visit.behind_next, hnext] at hq
    cases hq
    have hle := hbehind.ofs_le
    refine ⟨hbehind.window, ?_⟩
    rw [Place.rank, hbehind.i, hbehind.prevofs, hseen]
    have hofs_le := hbehind.window.ofs_le
    split <;> omega
  · by_cases hmagic : magic s.node = jffs2MagicBitmask
    · rw [visitNode_of_not_valid hvalid hmagic] at hq
      cases hq
      exact ⟨hskip, hmore⟩
    · rw [visitNode, if_pos hmagic] at hq
      split at hq
      · -- the search begins behind the first word
        cases hq
        have hi : s.skip.i = s.i := rfl
        refine ⟨⟨hskip, rfl, ?_, Nat.min_le_right _ _⟩, ?_⟩
        · rw [emptyScanSize_eq]
          have hlen := h.four_dvd_bufLen
          rw [bufSize, defaultEmptyScanSize]
          omega
        · rw [Place.rank, hofs, hi]
          split <;> omega
      · cases hq
        exact ⟨hskip, hmore⟩

theorem rank_sector_lt {i x : Nat} {buf : Mem} (hx : 0 < x) :
    (Place.sector (i + 1) buf).rank part <
      (nrSectors part - (i + 1)) * sectorRank part + x := Nat.lt_add_of_pos_right hx

theorem rank_sector_lt_scanMore (s : Scan) :
    (Place.sector (s.i + 1) s.buf).rank part < (Place.scanMore s).rank part := by
  by_cases hseen : s.ofs = s.prevofs
  · rw [rank_of_seen hseen]
    exact rank_sector_lt (Nat.succ_pos _)
  · rw [rank_of_unseen hseen]
    exact rank_sector_lt (Nat.succ_pos _)

theorem Window.visitMore_next (h : Window part flash s)
    (hforward : (Place.scanMore s).Forward part flash crc)
    (hheld : (Place.scanMore s).Held part flash crc)
    (hq : (visitMore part flash crc s).next = some q) :
    q.Inv part flash ∧ q.rank part < (Place.scanMore s).rank part := by
  by_cases hat : s.AtNode part
  · obtain ⟨hheader, hnode⟩ := hforward hat
    obtain ⟨hwindow, hindex⟩ := h.refill hat hheader
    rw [visitMore_of_atNode hat, Visit.behind_next] at hq
    have hnext := hwindow.visitNode_next hindex (by rw [refill_ofs, refill_i]; exact hat.before)
      (by rw [refill_prevofs, refill_ofs]) hnode (hheld hat) hq
    rw [refill_ofs, refill_i] at hnext
    rw [rank_of_unseen hat.unseen]
    exact hnext
  · rcases visitMore_of_not_atNode hat with heq | ⟨hbefore, hseen, heq⟩
    · rw [heq] at hq
      cases hq
      exact ⟨trivial, rank_sector_lt_scanMore s⟩
    · rw [heq] at hq
      cases hq
      have hend := sectorEnd_le h.sector
      have hfour := h.add_four_le hbefore (four_dvd_sectorEnd h.sector)
      have hroom : s.ofs + 4 ≤ part.size := hfour.trans hend
      rw [rank_of_seen hseen]
      exact ⟨h.skip hroom, rank_skip_lt hroom⟩

/-! ## The other passes -/

section Empty

variable {inbufOfs scanEnd : Nat}

theorem visitEmpty_of_lt (part : PartInfo) (flash : Mem) (s : Scan) (hlt : inbufOfs < scanEnd) :
    visitEmpty part flash s inbufOfs scanEnd = ⟨[.look inbufOfs 4], none, some (.scanMore s)⟩ ∨
      visitEmpty part flash s inbufOfs scanEnd =
        ⟨[.look inbufOfs 4], none, some (.moreEmpty s.skip (ulong (inbufOfs + 4)) scanEnd)⟩ := by
  rw [visitEmpty, if_pos hlt]
  split
  · exact .inl rfl
  · exact .inr rfl

theorem visitEmpty_of_zero (hle : scanEnd ≤ inbufOfs) (hzero : windowLen part s = 0) :
    visitEmpty part flash s inbufOfs scanEnd = ⟨[], none, some (.sector (s.i + 1) s.buf)⟩ := by
  rw [visitEmpty, if_neg (Nat.not_lt.mpr hle)]
  exact if_pos hzero

theorem visitEmpty_of_pos (hle : scanEnd ≤ inbufOfs) (hpos : windowLen part s ≠ 0) :
    visitEmpty part flash s inbufOfs scanEnd =
      ⟨[.read (ulong (part.offset + s.ofs)) (windowLen part s)], none,
        some (.moreEmpty (s.fetch part flash (windowLen part s))
          (s.fetch part flash (windowLen part s)).index (windowLen part s))⟩ := by
  rw [visitEmpty, if_neg (Nat.not_lt.mpr hle)]
  exact if_neg hpos

/-- A word that the search looks at is in the buffer. -/
theorem Window.word_inside (h : Window part flash s) (hindex : inbufOfs = s.index)
    (hfour : 4 ∣ scanEnd) (hend : scanEnd ≤ s.bufLen) (hlt : inbufOfs < scanEnd) :
    inbufOfs + 4 ≤ s.bufLen := by
  have hofs := h.four_dvd_ofs
  have hbuf := h.four_dvd_bufOfs
  rw [h.index_eq] at hindex
  omega

/-- The window that the search reads lies in the partition, unless the search has left its sector
and comes too close to the end. -/
theorem Window.windowLen_end_iff (h : Window part flash s) :
    s.ofs + windowLen part s ≤ part.size ↔
      (sectorEnd part s.i < s.ofs → s.ofs + bufSize ≤ part.size) := by
  by_cases hofs : s.ofs ≤ sectorEnd part s.i
  · exact iff_of_true (h.windowLen_end hofs) fun hlt => absurd hlt (Nat.not_lt.mpr hofs)
  · have hlt := Nat.lt_of_not_le hofs
    rw [h.windowLen_behind hlt]
    exact ⟨fun hle _ => hle, fun hheld => hheld hlt⟩

theorem visitEmpty_inside (hinv : (Place.moreEmpty s inbufOfs scanEnd).Inv part flash) :
    (∀ a ∈ (visitEmpty part flash s inbufOfs scanEnd).log, Inside part a) ↔
      (Place.moreEmpty s inbufOfs scanEnd).Held part flash crc := by
  obtain ⟨h, hindex, hfour, hend⟩ := hinv
  rw [Place.Held]
  by_cases hlt : inbufOfs < scanEnd
  · refine iff_of_true ?_ fun hle => absurd hlt (Nat.not_lt.mpr hle)
    have hword : Inside part (.look inbufOfs 4) :=
      (h.word_inside hindex hfour hend hlt).trans h.bufLen_le
    rcases visitEmpty_of_lt part flash s hlt with heq | heq <;>
    · rw [heq]
      exact List.forall_mem_singleton.mpr hword
  · have hle := Nat.le_of_not_lt hlt
    rw [forall_prop_of_true hle, ← h.windowLen_end_iff]
    by_cases hzero : windowLen part s = 0
    · rw [visitEmpty_of_zero hle hzero, hzero]
      exact iff_of_true (fun a ha => absurd ha List.not_mem_nil) h.ofs_le
    · rw [visitEmpty_of_pos hle hzero, List.forall_mem_singleton, Inside,
        ulongSub_ulong_add part.offset_lt h.ofs_lt]

theorem rank_of_lt (hlt : inbufOfs < scanEnd) : (Place.moreEmpty s inbufOfs scanEnd).rank part =
    (nrSectors part - (s.i + 1)) * sectorRank part + (4 * (part.size - s.ofs) + 3) := by
  rw [Place.rank, if_pos hlt]

theorem rank_of_le (hle : scanEnd ≤ inbufOfs) : (Place.moreEmpty s inbufOfs scanEnd).rank part =
    (nrSectors part - (s.i + 1)) * sectorRank part + (4 * (part.size - s.ofs) + 4) := by
  rw [Place.rank, if_neg (Nat.not_lt.mpr hle)]

theorem rank_moreEmpty_le : (Place.moreEmpty s inbufOfs scanEnd).rank part ≤
    (nrSectors part - (s.i + 1)) * sectorRank part + (4 * (part.size - s.ofs) + 4) := by
  by_cases hlt : inbufOfs < scanEnd
  · rw [rank_of_lt hlt]
    exact Nat.le_succ _
  · rw [rank_of_le (Nat.le_of_not_lt hlt)]

theorem visitEmpty_next (hinv : (Place.moreEmpty s inbufOfs scanEnd).Inv part flash)
    (hheld : (Place.moreEmpty s inbufOfs scanEnd).Held part flash crc)
    (hq : (visitEmpty part flash s inbufOfs scanEnd).next = some q) :
    q.Inv part flash ∧ q.rank part < (Place.moreEmpty s inbufOfs scanEnd).rank part := by
  obtain ⟨h, hindex, hfour, hend⟩ := hinv
  by_cases hlt : inbufOfs < scanEnd
  · rw [rank_of_lt hlt]
    rcases visitEmpty_of_lt part flash s hlt with heq | heq
    · rw [heq] at hq
      cases hq
      exact ⟨h, Nat.lt_of_le_of_lt (rank_scanMore_le part s) (Nat.lt_succ_self _)⟩
    · rw [heq] at hq
      cases hq
      have hword := h.word_inside hindex hfour hend hlt
      have hsum := h.index_eq
      have hbuf := h.bufOfs_le
      have hin := h.end_le
      have hlen := h.bufLen_le
      have hroom : s.ofs + 4 ≤ part.size := by omega
      have hskip := h.skip hroom
      have hsize := part.size_lt
      have hsmall : inbufOfs + 4 < 2 ^ 32 := by omega
      have hnext : ulong (inbufOfs + 4) = s.skip.index := by
        have hbufOfs : s.skip.bufOfs = s.bufOfs := rfl
        rw [hskip.index_eq, skip_ofs hroom, hbufOfs, ulong_of_lt hsmall]
        omega
      refine ⟨⟨hskip, hnext, hfour, hend⟩, ?_⟩
      have hle : (Place.moreEmpty s.skip (ulong (inbufOfs + 4)) scanEnd).rank part ≤ _ :=
        rank_moreEmpty_le
      have hi : s.skip.i = s.i := rfl
      rw [skip_ofs hroom, hi] at hle
      omega
  · have hle := Nat.le_of_not_lt hlt
    rw [rank_of_le hle]
    by_cases hzero : windowLen part s = 0
    · rw [visitEmpty_of_zero hle hzero] at hq
      cases hq
      exact ⟨trivial, rank_sector_lt (Nat.succ_pos _)⟩
    · rw [visitEmpty_of_pos hle hzero] at hq
      cases hq
      have hfetch := h.fetch h.four_dvd_windowLen (windowLen_le s)
        (h.windowLen_end_iff.mpr (hheld hle))
      refine ⟨⟨hfetch, rfl, h.four_dvd_windowLen, Nat.le_refl _⟩, ?_⟩
      rw [fetch_index h.ofs_lt, rank_of_lt (Nat.pos_of_ne_zero hzero)]
      exact Nat.lt_succ_self _

end Empty

theorem visitFirst_inside {i ofs : Nat} {buf : Mem}
    (hinv : (Place.first i ofs buf).Inv part flash) :
    ∀ a ∈ (visitFirst part i ofs buf).log, Inside part a := by
  obtain ⟨-, hfour, hle, -⟩ := hinv
  have hlog : (visitFirst part i ofs buf).log = if ofs < bufSize then [.look ofs 4] else [] := by
    rw [visitFirst, emptyScanSize_eq]
    dsimp only
    split
    · rfl
    · split <;> rfl
  rw [hlog]
  split
  · next hlt =>
    rw [List.forall_mem_singleton, inside_look]
    rw [bufSize, defaultEmptyScanSize] at hlt ⊢
    omega
  · exact fun a ha => absurd ha List.not_mem_nil

theorem visitFirst_next {i ofs : Nat} {buf : Mem}
    (hinv : (Place.first i ofs buf).Inv part flash)
    (hq : (visitFirst part i ofs buf).next = some q) :
    q.Inv part flash ∧ q.rank part < (Place.first i ofs buf).rank part := by
  obtain ⟨hi, hfour, hle, hmirrors⟩ := hinv
  have hbuf : bufSize = 4096 := rfl
  have hsize := part.size_lt
  have hend := sectorEnd_le hi
  have hsector := part.le_sectorSize
  have hsum := sectorEnd_eq hi
  rw [visitFirst, emptyScanSize_eq] at hq
  dsimp only at hq
  split at hq
  · next herased =>
    have hlt := herased.1
    cases hq
    have hnext : ulong (ofs + 4) = ofs + 4 := ulong_of_lt (by omega)
    refine ⟨⟨hi, ?_, ?_, hmirrors⟩, ?_⟩
    · rw [hnext]
      omega
    · rw [hnext]
      omega
    · rw [Place.rank, Place.rank, hnext]
      omega
  · split at hq
    · cases hq
      exact ⟨trivial, rank_sector_lt (by omega)⟩
    · next hne =>
      cases hq
      have hstart : ulong (ofs + sectorOfs part i) = ofs + sectorOfs part i :=
        ulong_of_lt (by omega)
      have hfirst : Window part flash ⟨i, ulong (ofs + sectorOfs part i),
          ulongSub (ulong (ofs + sectorOfs part i)) 1, sectorOfs part i, bufSize, buf⟩ := by
        have hofs := four_dvd_sectorOfs hi
        refine ⟨hi, ?_, hofs, ⟨1024, rfl⟩, ?_, ?_, Nat.le_refl _, ?_, hmirrors⟩
        · rw [hstart]
          exact Nat.dvd_add hfour hofs
        · rw [hstart]
          exact Nat.le_add_left _ _
        · show ulong (ofs + sectorOfs part i) ≤ part.size
          rw [hstart]
          omega
        · dsimp only
          omega
      refine ⟨hfirst, ?_⟩
      refine Nat.lt_of_le_of_lt (rank_scanMore_le part _) ?_
      rw [Place.rank]
      dsimp only
      omega

theorem visitSector_inside {i : Nat} {buf : Mem} :
    ∀ a ∈ (visitSector part flash i buf).log, Inside part a := by
  rw [visitSector]
  split
  · next hi =>
    have hend := sectorEnd_le hi
    have hsector := part.le_sectorSize
    have hsum := sectorEnd_eq hi
    have hsize := part.size_lt
    have hbuf : bufSize = 4096 := rfl
    rw [List.forall_mem_singleton, Inside, emptyScanSize_eq,
      ulongSub_ulong_add part.offset_lt (by omega)]
    omega
  · exact fun a ha => absurd ha List.not_mem_nil

theorem rank_first_zero_lt {i : Nat} {buf buf' : Mem} (hi : i < nrSectors part) :
    (Place.first i 0 buf').rank part < (Place.sector i buf).rank part := by
  have hlt : 4 * part.size + 5 + bufSize < sectorRank part := by
    rw [sectorRank]
    omega
  have hsucc : nrSectors part - i = nrSectors part - (i + 1) + 1 := by omega
  rw [Place.rank, Place.rank, Nat.sub_zero, hsucc, Nat.succ_mul (nrSectors part - (i + 1))]
  exact Nat.add_lt_add_left hlt _

theorem visitSector_next {i : Nat} {buf : Mem}
    (hq : (visitSector part flash i buf).next = some q) :
    q.Inv part flash ∧ q.rank part < (Place.sector i buf).rank part := by
  rw [visitSector] at hq
  split at hq
  · next hi =>
    cases hq
    refine ⟨⟨hi, Nat.dvd_zero _, Nat.zero_le _, ?_⟩, ?_⟩
    · rw [emptyScanSize_eq]
      exact mirrors_fill
    · exact rank_first_zero_lt hi
  · cases hq

/-! ## The scan -/

/-- What a pass does to the log. -/
theorem Place.visit_inside {p : Place} (hinv : p.Inv part flash)
    (hforward : p.Forward part flash crc) :
    (∀ a ∈ (visit part flash crc p).log, Inside part a) ↔ p.Held part flash crc := by
  cases p with
  | sector i buf => exact iff_of_true visitSector_inside trivial
  | first i ofs buf => exact iff_of_true (visitFirst_inside hinv) trivial
  | scanMore s => exact Window.visitMore_inside hinv hforward
  | moreEmpty s inbufOfs scanEnd => exact visitEmpty_inside hinv

/-- What is known of a place is known of the next one, and that is closer to the end. -/
theorem Place.visit_next {p : Place} (hinv : p.Inv part flash)
    (hforward : p.Forward part flash crc) (hheld : p.Held part flash crc)
    (hq : (visit part flash crc p).next = some q) :
    q.Inv part flash ∧ q.rank part < p.rank part := by
  cases p with
  | sector i buf => exact visitSector_next hq
  | first i ofs buf => exact visitFirst_next hinv hq
  | scanMore s => exact Window.visitMore_next hinv hforward hheld hq
  | moreEmpty s inbufOfs scanEnd => exact visitEmpty_next hinv hheld hq

end Next

section Run

variable {part : PartInfo} {flash : Mem} {crc : Bytes → Nat} {heap : Mem}

theorem scanPass_fst (room : Nat → Bool) (s : Place × Built) :
    (scanPass part flash crc room s).1 = (visit part flash crc s.1).log := by
  rw [scanPass]
  split
  · rfl
  · split <;> rfl

theorem goOn_inl {next : Option Place} {b : Built} {t : Place × Built}
    (h : goOn next b = .inl t) : next = some t.1 := by
  cases next with
  | none => cases h
  | some p =>
    cases h
    rfl

theorem scanPass_snd {room : Nat → Bool} {s t : Place × Built}
    (h : (scanPass part flash crc room s).2 = .inl t) :
    (visit part flash crc s.1).next = some t.1 := by
  rw [scanPass] at h
  split at h
  · exact goOn_inl h
  · split at h
    · exact goOn_inl h
    · cases h

/-- With memory for every node the scan goes on where its passes lead. -/
theorem scanPass_next {s : Place × Built} {q : Place}
    (h : (visit part flash crc s.1).next = some q) :
    ∃ b, (scanPass part flash crc (fun _ => true) s).2 = .inl (q, b) := by
  rw [scanPass]
  split
  · exact ⟨_, by rw [h, goOn]⟩
  · rw [if_pos rfl]
    exact ⟨_, by rw [h, goOn]⟩

theorem placeAt_succ {n : Nat} {p q : Place} (hp : placeAt part flash crc heap n = some p)
    (hq : (visit part flash crc p).next = some q) :
    placeAt part flash crc heap (n + 1) = some q := by
  rw [placeAt, orbit]
  rw [placeAt] at hp
  rw [hp]
  exact hq

/-- What is known of the places on the way, if each of them meets the two conditions. -/
theorem placeAt_inv (hplaces : ∀ n p, placeAt part flash crc heap n = some p → p.Inv part flash →
    p.Forward part flash crc ∧ p.Held part flash crc) :
    ∀ n p, placeAt part flash crc heap n = some p → p.Inv part flash := by
  refine orbit_inv trivial fun n p q hp hinv hnext => ?_
  obtain ⟨hforward, hheld⟩ := hplaces n p hp hinv
  exact (Place.visit_next hinv hforward hheld hnext).1

/-- The scan ends inside the partition and the buffer if every place on its way meets the two
conditions. -/
theorem robust_of_held (hplaces : ∀ n p, placeAt part flash crc heap n = some p →
    p.Forward part flash crc ∧ p.Held part flash crc) : Robust part flash crc heap := by
  intro room
  have hinv := placeAt_inv fun n p hp _ => hplaces n p hp
  have hends : Ends (scanPass part flash crc room) (Inside part) (fun _ => True)
      (.sector 0 heap, ⟨[], [], 0⟩) := by
    refine ends_of_rank (fun s => ∃ n, placeAt part flash crc heap n = some s.1)
      (fun s => s.1.rank part) ?_ ?_ (fun _ _ _ _ => trivial) ⟨0, rfl⟩
    · rintro s ⟨n, hn⟩
      obtain ⟨hforward, hheld⟩ := hplaces n _ hn
      rw [scanPass_fst]
      exact (Place.visit_inside (hinv n _ hn) hforward).mpr hheld
    · rintro s t ⟨n, hn⟩ hnext
      obtain ⟨hforward, hheld⟩ := hplaces n _ hn
      have hq := scanPass_snd hnext
      exact ⟨⟨n + 1, placeAt_succ hn hq⟩,
        (Place.visit_next (hinv n _ hn) hforward hheld hq).2⟩
  obtain ⟨fuel, x, hx, hreads, -⟩ := hends
  exact ⟨fuel, x.1, x.2, hx, hreads⟩

theorem Robust.ends (h : Robust part flash crc heap) (room : Nat → Bool) :
    Ends (scanPass part flash crc room) (Inside part) (fun _ => True)
      (.sector 0 heap, ⟨[], [], 0⟩) := by
  obtain ⟨fuel, log, ret, hrun, hlog⟩ := h room
  exact ⟨fuel, (log, ret), hrun, hlog, trivial⟩

/-- What the scan comes to without leaving 32 bits or the partition. -/
theorem places_of_robust (hforward : ∀ n p, placeAt part flash crc heap n = some p →
    p.Forward part flash crc) (h : Robust part flash crc heap) :
    ∀ n p, placeAt part flash crc heap n = some p → p.Inv part flash ∧
      ∃ b, Ends (scanPass part flash crc fun _ => true) (Inside part) (fun _ => True) (p, b) := by
  refine orbit_inv ⟨trivial, _, h.ends _⟩ fun n p q hp hknown hnext => ?_
  obtain ⟨hinv, b, hends⟩ := hknown
  have hlog := hends.forall_reads
  rw [scanPass_fst] at hlog
  have hheld := (Place.visit_inside hinv (hforward n p hp)).mp hlog
  obtain ⟨b', hstep⟩ := scanPass_next (s := (p, b)) hnext
  exact ⟨(Place.visit_next hinv (hforward n p hp) hheld hnext).1, b', hends.next hstep⟩

end Run

/-! ## A directory entry, and an inode at the end -/

def scanCrc (p : Bytes) : Nat := (crc32NoComp p).toNat

theorem oneSector_lt : 4096 < 2 ^ 32 := by decide

/-- A partition of one sector. -/
def oneSector : PartInfo where
  size := 4096
  offset := 0
  sectorSize := 4096
  size_lt := oneSector_lt
  offset_lt := Nat.two_pow_pos 32
  four_dvd_sectorSize := ⟨1024, rfl⟩
  le_sectorSize := Nat.le_refl _
  sectorSize_dvd_size := Nat.dvd_refl _

/-- An entry with the name "abcd". -/
def abcdEntry : Bytes :=
  [133, 25, 1, 224, 44, 0, 0, 0, 95, 86, 241, 224, 1, 0, 0, 0, 1, 0, 0, 0, 2, 0, 0, 0, 0, 0, 0, 0,
    4, 8, 0, 0, 167, 242, 69, 166, 13, 18, 198, 204, 97, 98, 99, 100]

def abcdFlash : Mem := fun i => abcdEntry.getD i 0xFF

theorem abcdFlash_magic {ofs : Nat} (hfour : 4 ∣ ofs) (hlt : ofs < 4096)
    (h : magic (view abcdFlash ofs) = jffs2MagicBitmask) : ofs = 0 := by
  have hall : ∀ k : Fin 11, magic (view abcdFlash (4 * k.val)) = jffs2MagicBitmask → k.val = 0 := by
    decide
  obtain ⟨k, rfl⟩ := hfour
  by_cases hk : k < 11
  · rw [show k = 0 from hall ⟨k, hk⟩ h]
  · have hlast : abcdEntry.length ≤ ulong (4 * k + 0) := by
      rw [ulong_of_lt (by omega)]
      show 44 ≤ 4 * k + 0
      omega
    have herased : view abcdFlash (4 * k) 0 = 0xFF := List.getD_eq_default _ _ hlast
    have hnext := (view abcdFlash (4 * k) (0 + 1)).toNat_lt
    rw [magic, load16, herased, jffs2MagicBitmask] at h
    have hff : (0xFF : UInt8).toNat = 255 := rfl
    omega

theorem oneSector_end {flash : Mem} {s : Scan} (h : Window oneSector flash s) :
    sectorEnd oneSector s.i = 4096 := by
  have hi := h.sector
  have hone : nrSectors oneSector = 1 := by decide
  have hzero : s.i = 0 := by omega
  rw [hzero]
  decide

/-- What is at a node of the partition with the entry: it is the entry, at the start of a window. -/
theorem abcd_node {s : Scan} (h : Window oneSector abcdFlash s) (hat : s.AtNode oneSector) :
    s.ofs + sizeofUnknownNode < 2 ^ 32 ∧
      ((s.refill oneSector abcdFlash).Valid oneSector scanCrc →
        (s.refill oneSector abcdFlash).ofs = 0 ∧ (s.refill oneSector abcdFlash).index = 0 ∧
          (s.refill oneSector abcdFlash).bufLen ≤ 4096 ∧
            totlen (s.refill oneSector abcdFlash).node = 44) := by
  have hbefore := hat.before
  rw [oneSector_end h] at hbefore
  have hheader : s.ofs + sizeofUnknownNode < 2 ^ 32 := by
    rw [sizeofUnknownNode]
    omega
  obtain ⟨hwindow, hindex⟩ := h.refill hat hheader
  refine ⟨hheader, fun hvalid => ?_⟩
  have hoffset : oneSector.offset + (s.refill oneSector abcdFlash).ofs = s.ofs := by
    rw [refill_ofs]
    exact Nat.zero_add _
  have hmagic := hvalid.magic
  rw [hwindow.magic_eq hindex, hoffset] at hmagic
  have hzero := abcdFlash_magic h.four_dvd_ofs hbefore hmagic
  have hofs : (s.refill oneSector abcdFlash).ofs = 0 := refill_ofs.trans hzero
  refine ⟨hofs, ?_, hwindow.bufLen_le, ?_⟩
  · rw [hwindow.index_eq, hofs, Nat.zero_sub]
  · rw [hwindow.totlen_eq hindex, hoffset, hzero]
    decide

theorem abcd_place (p : Place) (hinv : p.Inv oneSector abcdFlash) :
    p.Forward oneSector abcdFlash scanCrc ∧ p.Held oneSector abcdFlash scanCrc := by
  cases p with
  | sector i buf => exact ⟨trivial, trivial⟩
  | first i ofs buf => exact ⟨trivial, trivial⟩
  | moreEmpty s inbufOfs scanEnd =>
    refine ⟨trivial, fun _ hbehind => absurd hbehind (Nat.not_lt.mpr ?_)⟩
    rw [oneSector_end hinv.1]
    exact hinv.1.ofs_le
  | scanMore s =>
    have hnsize := direntNsize_lt (s.refill oneSector abcdFlash).node
    have hread (hat : s.AtNode oneSector) (need : Nat)
        (hvalid : (s.refill oneSector abcdFlash).Valid oneSector scanCrc) :
        (s.refill oneSector abcdFlash).ReadAgain oneSector need := by
      obtain ⟨hofs, -, hlen, -⟩ := (abcd_node hinv hat).2 hvalid
      intro _
      rw [hofs, Nat.zero_add]
      exact hlen
    refine ⟨fun hat => ⟨(abcd_node hinv hat).1, ?_, ?_, ?_⟩, fun hat => ⟨?_, ?_⟩⟩
    · intro hvalid
      obtain ⟨hofs, -, -, hlen⟩ := (abcd_node hinv hat).2 hvalid
      rw [hofs, hlen]
      decide
    · intro hvalid _
      rw [((abcd_node hinv hat).2 hvalid).1]
      decide
    · intro hvalid _
      rw [((abcd_node hinv hat).2 hvalid).1, sizeofRawDirent]
      omega
    · exact fun hvalid _ => hread hat _ hvalid
    · intro hvalid _
      refine ⟨?_, hread hat _ hvalid⟩
      rw [((abcd_node hinv hat).2 hvalid).2.1]
      decide

/-- Padding, and behind it an inode of 32 bytes at the end of the sector. -/
def inodeFlash : Mem := fun i =>
  if i < 4064 then ([133, 25, 4, 32, 224, 15, 0, 0, 180, 57, 238, 110] : Bytes).getD i 0
  else ([133, 25, 2, 224, 32, 0, 0, 0, 73, 155, 179, 44] : Bytes).getD (i - 4064) 0

def inodeBuf : Mem := fill inodeFlash 0 4096 fun _ => 0

/-- The scan with the whole sector in the buffer. -/
def inodeScan (ofs prevofs : Nat) : Scan := ⟨0, ofs, prevofs, 0, 4096, inodeBuf⟩

theorem inode_sector : (visit oneSector inodeFlash scanCrc (.sector 0 fun _ => 0)).next =
    some (.first 0 0 inodeBuf) := by
  rw [visit, visitSector, if_pos (by decide)]
  rfl

theorem inode_first : (visit oneSector inodeFlash scanCrc (.first 0 0 inodeBuf)).next =
    some (.scanMore (inodeScan 0 4294967295)) := by
  rw [visit, visitFirst]
  dsimp only
  rw [if_neg (by decide), if_neg (by decide)]
  rfl

theorem inode_padding :
    (visit oneSector inodeFlash scanCrc (.scanMore (inodeScan 0 4294967295))).next =
      some (.scanMore (inodeScan 4064 0)) := by
  have hat : (inodeScan 0 4294967295).AtNode oneSector := ⟨by decide, by decide, by decide⟩
  have hrefill : (inodeScan 0 4294967295).refill oneSector inodeFlash = inodeScan 0 0 := by
    rw [Scan.refill, Scan.ensure, if_neg (by decide)]
    rfl
  have hvalid : (inodeScan 0 0).Valid oneSector scanCrc :=
    ⟨by decide, by decide +kernel, by decide⟩
  have hofs : ulong ((inodeScan 0 0).ofs + align4 (totlen (inodeScan 0 0).node)) = 4064 := by
    decide
  rw [visit, visitMore_of_atNode hat, Visit.behind_next, hrefill, visitNode_of_valid hvalid,
    Visit.behind_next, visitValid, if_neg (by decide), if_neg (by decide), Scan.advance, hofs]
  rfl

/-- The inode is read again with the length of the buffer. -/
theorem inode_read : Access.read 4064 4096 ∈
    (visit oneSector inodeFlash scanCrc (.scanMore (inodeScan 4064 0))).log := by
  have hat : (inodeScan 4064 0).AtNode oneSector := ⟨by decide, by decide, by decide⟩
  have hrefill : (inodeScan 4064 0).refill oneSector inodeFlash = inodeScan 4064 4064 := by
    rw [Scan.refill, Scan.ensure, if_neg (by decide)]
    rfl
  have hvalid : (inodeScan 4064 4064).Valid oneSector scanCrc :=
    ⟨by decide, by decide +kernel, by decide⟩
  have hread : ensureLog oneSector (inodeScan 4064 4064) sizeofRawInode 4096 =
      [.read 4064 4096] := by decide
  rw [visit, visitMore_of_atNode hat, Visit.behind_log, hrefill, visitNode_of_valid hvalid,
    Visit.behind_log, visitValid, if_pos (by decide), visitInode_log]
  refine List.mem_append_right _ (List.mem_append_right _ (List.mem_append_left _ ?_))
  exact hread ▸ List.mem_cons_self

end UBoot.Fs.Jffs2
