import UBoot.Fs.Jffs2Scan
import UBoot.Lib.Orbit

/-!
# What a pass of the scan reads

The next offset is `ofs` and a length from flash, and the test of its range has the same sum; where
that leaves 32 bits, the scan goes back.  A node that is not all in the buffer is read again with
the length of the window before, which may be more than there is behind the node.  `Place.Forward`
and `Place.Held` exclude the one and the other before a pass.

Where no sum leaves 32 bits, a header at `scan_more` is in the buffer after the first refill
(`Window.refill`), and a pass stays inside the partition and the buffer exactly if its place is held
(`Window.visitMore_inside`).
-/

namespace UBoot.Fs.Jffs2

open UBoot.Lib UBoot.LibGeneric

/-! ## What is to be shown -/

/-- A read lies in the partition, and what is looked at lies in the buffer. -/
def Inside (part : PartInfo) : Access → Prop
  | .read off size => ulongSub off part.offset + size ≤ part.size
  | .look index size => index + size ≤ bufSize

/-- The scan comes to an end with nothing outside, whatever memory there is for nodes. -/
def Robust (part : PartInfo) (flash : Mem) (crc : Bytes → Nat) (heap : Mem) : Prop :=
  ∀ room, ∃ fuel log ret, jffs21passBuildLists part flash crc room heap fuel = some (log, ret) ∧
    ∀ a ∈ log, Inside part a

section Places

variable (part : PartInfo) (flash : Mem) (crc : Bytes → Nat)

/-- A pass from `scan_more` comes to a header. -/
structure Scan.AtNode (s : Scan) : Prop where
  before : s.ofs < sectorEnd part s.i
  unseen : s.ofs ≠ s.prevofs
  room : ulong (s.ofs + sizeofUnknownNode) ≤ sectorEnd part s.i

/-- The header has its magic and its checksum, and the node passes the test of its range. -/
structure Scan.Valid (s : Scan) : Prop where
  magic : magic s.node = jffs2MagicBitmask
  crc : hdrCrcOk crc s.node = true
  range : ulong (s.ofs + totlen s.node) ≤ sectorEnd part s.i

/-- The sums that the code makes at a node do not leave 32 bits. -/
structure Scan.NodeForward (s : Scan) : Prop where
  advance : s.Valid part crc → s.ofs + align4 (totlen s.node) < 2 ^ 32
  inode : s.Valid part crc → nodetype s.node = jffs2NodetypeInode →
    s.ofs + sizeofRawInode < 2 ^ 32
  dirent : s.Valid part crc → nodetype s.node = jffs2NodetypeDirent →
    s.ofs + (sizeofRawDirent + direntNsize s.node) < 2 ^ 32

/-- Where a node is read again, the partition goes on for as long as the window is. -/
def Scan.ReadAgain (s : Scan) (need : Nat) : Prop := s.Short need → s.ofs + s.bufLen ≤ part.size

/-- What is read again at a node is in the partition, and the `nsize` of a directory entry is in the
buffer. -/
structure Scan.NodeHeld (s : Scan) : Prop where
  inode : s.Valid part crc → nodetype s.node = jffs2NodetypeInode →
    s.ReadAgain part sizeofRawInode
  dirent : s.Valid part crc → nodetype s.node = jffs2NodetypeDirent →
    s.index + 29 ≤ bufSize ∧ s.ReadAgain part (sizeofRawDirent + direntNsize s.node)

/-- The sums of the next pass do not leave 32 bits. -/
def Place.Forward : Place → Prop
  | .sector _ _ => True
  | .first _ _ _ => True
  | .scanMore s => s.AtNode part → s.ofs + sizeofUnknownNode < 2 ^ 32 ∧
      (s.refill part flash).NodeForward part crc
  | .moreEmpty _ _ _ => True

/-- What the next pass reads with an old length is in the partition: a node that is read again, and
the next window of a search that has left its sector. -/
def Place.Held : Place → Prop
  | .sector _ _ => True
  | .first _ _ _ => True
  | .scanMore s => s.AtNode part → (s.refill part flash).NodeHeld part crc
  | .moreEmpty s inbufOfs scanEnd =>
    scanEnd ≤ inbufOfs → sectorEnd part s.i < s.ofs → s.ofs + bufSize ≤ part.size

/-- The place after so many passes, with memory for every node. -/
def placeAt (heap : Mem) : Nat → Option Place :=
  orbit (fun p => (visit part flash crc p).next) (.sector 0 heap)

end Places

/-! ## Arithmetic -/

theorem ulongSub_of_le {a b : Nat} (hle : b ≤ a) (hlt : a < 2 ^ 32) : ulongSub a b = a - b := by
  rw [ulongSub]
  omega

theorem ulongSub_ulong_add {a b : Nat} (ha : a < 2 ^ 32) (hb : b < 2 ^ 32) :
    ulongSub (ulong (a + b)) a = b := by
  rw [ulongSub, ulong]
  omega

/-- Where a node that passes the test of its range leads. -/
theorem ulong_add_align4 {ofs len top : Nat} (hofs : 4 ∣ ofs) (htop : 4 ∣ top)
    (htop_lt : top < 2 ^ 32) (hle : ulong (ofs + len) ≤ top) :
    4 ∣ ulong (ofs + align4 len) ∧ ulong (ofs + align4 len) ≤ top := by
  simp only [ulong, align4] at *
  omega

section Part

variable {part : PartInfo} {i : Nat}

theorem sector_end_le (hi : i < nrSectors part) :
    i * part.sectorSize + part.sectorSize ≤ part.size := by
  rw [← Nat.succ_mul]
  exact (Nat.mul_le_mul_right _ hi).trans (Nat.div_mul_le_self _ _)

theorem sectorOfs_eq (hi : i < nrSectors part) : sectorOfs part i = i * part.sectorSize := by
  have hle := sector_end_le hi
  have hlt := part.size_lt
  exact ulong_of_lt (by omega)

theorem sectorEnd_eq (hi : i < nrSectors part) :
    sectorEnd part i = sectorOfs part i + part.sectorSize := by
  have hle := sector_end_le hi
  have hlt := part.size_lt
  rw [sectorEnd, sectorOfs_eq hi]
  exact ulong_of_lt (by omega)

theorem sectorEnd_le (hi : i < nrSectors part) : sectorEnd part i ≤ part.size := by
  rw [sectorEnd_eq hi, sectorOfs_eq hi]
  exact sector_end_le hi

theorem four_dvd_sectorOfs (hi : i < nrSectors part) : 4 ∣ sectorOfs part i := by
  rw [sectorOfs_eq hi]
  exact Dvd.dvd.mul_left part.four_dvd_sectorSize i

theorem four_dvd_sectorEnd (hi : i < nrSectors part) : 4 ∣ sectorEnd part i := by
  rw [sectorEnd_eq hi]
  exact Nat.dvd_add (four_dvd_sectorOfs hi) part.four_dvd_sectorSize

theorem emptyScanSize_eq (part : PartInfo) : emptyScanSize part.sectorSize = bufSize :=
  if_neg (Nat.not_lt.mpr part.le_sectorSize)

end Part

/-! ## The window -/

/-- So many bytes of a buffer are those of flash. -/
def Mirrors (flash : Mem) (off len : Nat) (buf : Mem) : Prop :=
  ∀ k < len, buf k = flash (ulong (off + k))

/-- What `buf` holds, and where the scan is. -/
structure Window (part : PartInfo) (flash : Mem) (s : Scan) : Prop where
  sector : s.i < nrSectors part
  four_dvd_ofs : 4 ∣ s.ofs
  four_dvd_bufOfs : 4 ∣ s.bufOfs
  four_dvd_bufLen : 4 ∣ s.bufLen
  bufOfs_le : s.bufOfs ≤ s.ofs
  ofs_le : s.ofs ≤ part.size
  bufLen_le : s.bufLen ≤ bufSize
  end_le : s.bufOfs + s.bufLen ≤ part.size
  mirrors : Mirrors flash (part.offset + s.bufOfs) s.bufLen s.buf

theorem mirrors_fill {flash : Mem} {off len : Nat} {buf : Mem} :
    Mirrors flash off len (fill flash (ulong off) len buf) := by
  intro k hk
  rw [fill, if_pos hk, view, ulong_ulong_add]

section Window

variable {part : PartInfo} {flash : Mem} {crc : Bytes → Nat} {s : Scan} {need len : Nat}

theorem Window.ofs_lt (h : Window part flash s) : s.ofs < 2 ^ 32 :=
  Nat.lt_of_le_of_lt h.ofs_le part.size_lt

theorem Window.index_eq (h : Window part flash s) : s.index = s.ofs - s.bufOfs :=
  ulongSub_of_le h.bufOfs_le h.ofs_lt

theorem fetch_index (hlt : s.ofs < 2 ^ 32) : (s.fetch part flash len).index = 0 :=
  (ulongSub_of_le (Nat.le_refl _) hlt).trans (Nat.sub_self _)

theorem Window.fetch (h : Window part flash s) (hfour : 4 ∣ len) (hlen : len ≤ bufSize)
    (hend : s.ofs + len ≤ part.size) : Window part flash (s.fetch part flash len) :=
  { h with
    four_dvd_bufOfs := h.four_dvd_ofs
    four_dvd_bufLen := hfour
    bufOfs_le := Nat.le_refl _
    bufLen_le := hlen
    end_le := hend
    mirrors := mirrors_fill }

/-- What is seen to be short ends behind the buffer. -/
theorem Window.short_iff (h : Window part flash s) (hneed : s.ofs + need < 2 ^ 32) :
    s.Short need ↔ s.bufLen < s.index + need := by
  have hle := h.bufOfs_le
  have hend := h.end_le
  have hlt := part.size_lt
  rw [Scan.Short, ulong_of_lt (by omega), ulong_of_lt hneed, h.index_eq]
  omega

theorem Window.ensureLog_inside (h : Window part flash s) :
    (∀ a ∈ ensureLog part s need len, Inside part a) ↔
      (s.Short need → s.ofs + len ≤ part.size) := by
  rw [ensureLog]
  by_cases hshort : s.Short need
  · rw [if_pos hshort, List.forall_mem_singleton, Inside,
      ulongSub_ulong_add part.offset_lt h.ofs_lt]
    exact ⟨fun hle _ => hle, fun hle => hle hshort⟩
  · rw [if_neg hshort]
    exact iff_of_true (fun a ha => absurd ha List.not_mem_nil) fun hs => absurd hs hshort

theorem Window.ensure (h : Window part flash s) (hfour : 4 ∣ len) (hlen : len ≤ bufSize)
    (hend : s.Short need → s.ofs + len ≤ part.size) :
    Window part flash (s.ensure part flash need len) := by
  rw [Scan.ensure]
  split
  · next hshort => exact h.fetch hfour hlen (hend hshort)
  · exact h

@[simp] theorem ensure_ofs : (s.ensure part flash need len).ofs = s.ofs := by
  rw [Scan.ensure]
  split <;> rfl

@[simp] theorem ensure_prevofs : (s.ensure part flash need len).prevofs = s.prevofs := by
  rw [Scan.ensure]
  split <;> rfl

@[simp] theorem ensure_i : (s.ensure part flash need len).i = s.i := by
  rw [Scan.ensure]
  split <;> rfl

/-- All of a node is in the buffer once it has been ensured. -/
theorem Window.ensure_index (h : Window part flash s) (hneed : s.ofs + need < 2 ^ 32)
    (hle : need ≤ bufSize) : (s.ensure part flash need len).index + need ≤ bufSize := by
  have hlen := h.bufLen_le
  rw [Scan.ensure]
  by_cases hshort : s.Short need
  · rw [if_pos hshort, fetch_index h.ofs_lt]
    omega
  · rw [if_neg hshort]
    rw [h.short_iff hneed] at hshort
    omega

theorem windowLen_eq (hi : s.i < nrSectors part) (hofs : s.ofs ≤ sectorEnd part s.i) :
    windowLen part s = min bufSize (sectorEnd part s.i - s.ofs) := by
  have hle := sectorEnd_le hi
  have hlt := part.size_lt
  rw [windowLen, ulongSub_of_le hofs (by omega)]

theorem windowLen_le (s : Scan) : windowLen part s ≤ bufSize := Nat.min_le_left _ _

theorem Window.four_dvd_windowLen (h : Window part flash s) : 4 ∣ windowLen part s := by
  have hofs := h.four_dvd_ofs
  have hend := four_dvd_sectorEnd h.sector
  rw [windowLen, ulongSub, bufSize, defaultEmptyScanSize]
  omega

/-- A window up to the end of the sector lies in the partition. -/
theorem Window.windowLen_end (h : Window part flash s) (hofs : s.ofs ≤ sectorEnd part s.i) :
    s.ofs + windowLen part s ≤ part.size := by
  have hle := sectorEnd_le h.sector
  rw [windowLen_eq h.sector hofs]
  omega

/-- Behind the sector the window is as long as the buffer. -/
theorem Window.windowLen_behind (h : Window part flash s) (hofs : sectorEnd part s.i < s.ofs) :
    windowLen part s = bufSize := by
  have hlt := h.ofs_lt
  have hle := part.le_sectorSize
  have hend := sectorEnd_eq h.sector
  rw [windowLen, ulongSub, bufSize, defaultEmptyScanSize]
  omega

end Window

/-! ## What a pass looks at -/

section Log

variable {part : PartInfo} {flash : Mem} {crc : Bytes → Nat} {s : Scan}

theorem inside_look {index size : Nat} :
    Inside part (.look index size) ↔ index + size ≤ bufSize := Iff.rfl

/-- An erased word is no magic. -/
theorem magic_of_erased {node : Mem} (h : load32 node 0 = 0xffffffff) :
    magic node ≠ jffs2MagicBitmask := by
  have h0 := (node 0).toNat_lt
  have h1 := (node 1).toNat_lt
  have h2 := (node 2).toNat_lt
  have h3 := (node 3).toNat_lt
  rw [magic, load16, jffs2MagicBitmask]
  simp only [load32, ulong, Nat.zero_add, Nat.reduceMod, Nat.reducePow] at h
  omega

theorem visitInode_log : (visitInode part flash crc s).log =
    ensureLog part s sizeofRawInode s.bufLen ++
      [.look (s.ensure part flash sizeofRawInode s.bufLen).index 60,
        .look ((s.ensure part flash sizeofRawInode s.bufLen).index + 64) 4] := by
  rw [visitInode]
  split <;> rfl

theorem Window.visitInode_inside (h : Window part flash s)
    (hforward : s.ofs + sizeofRawInode < 2 ^ 32) :
    (∀ a ∈ (visitInode part flash crc s).log, Inside part a) ↔
      s.ReadAgain part sizeofRawInode := by
  have hindex : (s.ensure part flash sizeofRawInode s.bufLen).index + 68 ≤ bufSize :=
    h.ensure_index hforward (by decide)
  rw [visitInode_log, List.forall_mem_append, h.ensureLog_inside, List.forall_mem_cons,
    List.forall_mem_singleton, inside_look, inside_look]
  exact and_iff_left ⟨by omega, by omega⟩

theorem direntNsize_lt (node : Mem) : direntNsize node < 256 := (node 28).toNat_lt

/-- The name of a directory entry is in the buffer: the entry is where it was found, or at the
start. -/
theorem Window.ensure_name (h : Window part flash s)
    (hforward : s.ofs + (sizeofRawDirent + direntNsize s.node) < 2 ^ 32) :
    (s.ensure part flash (sizeofRawDirent + direntNsize s.node) s.bufLen).index +
      (40 + direntNsize
        (s.ensure part flash (sizeofRawDirent + direntNsize s.node) s.bufLen).node) ≤ bufSize := by
  have hlen := h.bufLen_le
  rw [Scan.ensure]
  by_cases hshort : s.Short (sizeofRawDirent + direntNsize s.node)
  · have hlt := direntNsize_lt (s.fetch part flash s.bufLen).node
    rw [if_pos hshort, fetch_index h.ofs_lt, bufSize, defaultEmptyScanSize]
    omega
  · rw [if_neg hshort]
    rw [h.short_iff hforward, sizeofRawDirent] at hshort
    omega

theorem Window.visitDirent_inside (h : Window part flash s)
    (hforward : s.ofs + (sizeofRawDirent + direntNsize s.node) < 2 ^ 32) :
    (∀ a ∈ (visitDirent part flash crc s).log, Inside part a) ↔
      s.index + 29 ≤ bufSize ∧ s.ReadAgain part (sizeofRawDirent + direntNsize s.node) := by
  have hname := h.ensure_name hforward
  obtain ⟨need, hneed⟩ : ∃ need, need = sizeofRawDirent + direntNsize s.node := ⟨_, rfl⟩
  rw [← hneed] at hname ⊢
  obtain ⟨t, ht⟩ : ∃ t, t = s.ensure part flash need s.bufLen := ⟨_, rfl⟩
  rw [← ht] at hname
  have hlook : Inside part (.look t.index (sizeofRawDirent - 4)) := by
    rw [inside_look, sizeofRawDirent]
    omega
  have hrest : Inside part
      (.look (t.index + (sizeofRawDirent - 4)) (4 + direntNsize t.node)) := by
    rw [inside_look, sizeofRawDirent]
    omega
  have hnsize : Inside part (.look (s.index + 28) 1) ↔ s.index + 29 ≤ bufSize := Iff.rfl
  rw [visitDirent, ← hneed, ← ht, Scan.ReadAgain]
  by_cases hcrc : direntCrcOk crc t.node = true
  · rw [if_pos hcrc]
    split <;>
      simp only [List.forall_mem_append, List.forall_mem_cons, List.not_mem_nil,
        h.ensureLog_inside, hnsize, hlook, hrest, false_imp_iff, implies_true, and_true]
  · rw [if_neg hcrc]
    simp only [List.forall_mem_append, List.forall_mem_cons, List.not_mem_nil,
      h.ensureLog_inside, hnsize, hlook, false_imp_iff, implies_true, and_true]

theorem Window.visitValid_inside (h : Window part flash s)
    (hinode : nodetype s.node = jffs2NodetypeInode → s.ofs + sizeofRawInode < 2 ^ 32)
    (hdirent : nodetype s.node = jffs2NodetypeDirent →
      s.ofs + (sizeofRawDirent + direntNsize s.node) < 2 ^ 32) :
    (∀ a ∈ (visitValid part flash crc s).log, Inside part a) ↔
      (nodetype s.node = jffs2NodetypeInode → s.ReadAgain part sizeofRawInode) ∧
        (nodetype s.node = jffs2NodetypeDirent → s.index + 29 ≤ bufSize ∧
          s.ReadAgain part (sizeofRawDirent + direntNsize s.node)) := by
  rw [visitValid]
  by_cases htype : nodetype s.node = jffs2NodetypeInode
  · have hne : nodetype s.node ≠ jffs2NodetypeDirent := by
      rw [htype]
      decide
    rw [if_pos htype, h.visitInode_inside (hinode htype)]
    exact ⟨fun hheld => ⟨fun _ => hheld, fun hd => absurd hd hne⟩, fun hall => hall.1 htype⟩
  · rw [if_neg htype]
    by_cases htype' : nodetype s.node = jffs2NodetypeDirent
    · rw [if_pos htype', h.visitDirent_inside (hdirent htype')]
      exact ⟨fun hheld => ⟨fun hi => absurd hi htype, fun _ => hheld⟩,
        fun hall => hall.2 htype'⟩
    · rw [if_neg htype']
      exact iff_of_true (fun a ha => absurd ha List.not_mem_nil)
        ⟨fun hi => absurd hi htype, fun hd => absurd hd htype'⟩

/-- The pass at a header that is not valid goes on behind its first word. -/
theorem visitNode_of_not_valid (hvalid : ¬ s.Valid part crc)
    (hmagic : magic s.node = jffs2MagicBitmask) : visitNode part flash crc s =
      ⟨[.look s.index 4, .look s.index sizeofUnknownNode], none, some (.scanMore s.skip)⟩ := by
  have hword : load32 s.node 0 ≠ 0xffffffff := fun he => magic_of_erased he hmagic
  rw [visitNode, if_neg hword, if_neg (not_not.mpr hmagic)]
  by_cases hcrc : hdrCrcOk crc s.node = true
  · rw [if_neg (not_not.mpr hcrc), if_pos]
    exact Nat.lt_of_not_le fun hle => hvalid ⟨hmagic, hcrc, hle⟩
  · rw [if_pos hcrc]

theorem visitNode_of_valid (hvalid : s.Valid part crc) : visitNode part flash crc s =
    (visitValid part flash crc s).behind
      [.look s.index 4, .look s.index sizeofUnknownNode] := by
  have hword : load32 s.node 0 ≠ 0xffffffff := fun he => magic_of_erased he hvalid.magic
  rw [visitNode, if_neg hword, if_neg (not_not.mpr hvalid.magic), if_neg (not_not.mpr hvalid.crc),
    if_neg (Nat.not_lt.mpr hvalid.range)]

theorem Window.visitNode_inside (h : Window part flash s)
    (hheader : s.index + sizeofUnknownNode ≤ bufSize) (hforward : s.NodeForward part crc) :
    (∀ a ∈ (visitNode part flash crc s).log, Inside part a) ↔ s.NodeHeld part crc := by
  have hword : Inside part (.look s.index 4) := by
    rw [sizeofUnknownNode] at hheader
    rw [inside_look]
    omega
  have hboth : ∀ a ∈ [Access.look s.index 4, .look s.index sizeofUnknownNode], Inside part a :=
    List.forall_mem_cons.mpr ⟨hword, List.forall_mem_singleton.mpr hheader⟩
  by_cases hvalid : s.Valid part crc
  · rw [visitNode_of_valid hvalid, Visit.behind_log, List.forall_mem_append,
      h.visitValid_inside (hforward.inode hvalid) (hforward.dirent hvalid)]
    exact ⟨fun hall => ⟨fun _ => hall.2.1, fun _ => hall.2.2⟩,
      fun hheld => ⟨hboth, hheld.inode hvalid, hheld.dirent hvalid⟩⟩
  · refine iff_of_true ?_ ⟨fun hv => absurd hv hvalid, fun hv => absurd hv hvalid⟩
    by_cases hmagic : magic s.node = jffs2MagicBitmask
    · rw [visitNode_of_not_valid hvalid hmagic]
      exact hboth
    · rw [visitNode, if_pos hmagic]
      split <;> exact List.forall_mem_singleton.mpr hword

theorem Window.seen (h : Window part flash s) :
    Window part flash { s with prevofs := s.ofs } := { h with }

@[simp] theorem refill_ofs : (s.refill part flash).ofs = s.ofs := ensure_ofs

@[simp] theorem refill_prevofs : (s.refill part flash).prevofs = s.ofs := ensure_prevofs

@[simp] theorem refill_i : (s.refill part flash).i = s.i := ensure_i

/-- The buffer holds the header once it has been refilled. -/
theorem Window.refill (h : Window part flash s) (hat : s.AtNode part)
    (hforward : s.ofs + sizeofUnknownNode < 2 ^ 32) :
    Window part flash (s.refill part flash) ∧
      (s.refill part flash).index + sizeofUnknownNode ≤ (s.refill part flash).bufLen := by
  have hbefore := Nat.le_of_lt hat.before
  have hroom := hat.room
  rw [ulong_of_lt hforward] at hroom
  refine ⟨h.seen.ensure h.four_dvd_windowLen (windowLen_le s) fun _ => h.windowLen_end hbefore, ?_⟩
  rw [Scan.refill, Scan.ensure]
  by_cases hshort : { s with prevofs := s.ofs }.Short sizeofUnknownNode
  · have hlen : (({ s with prevofs := s.ofs } : Scan).fetch part flash (windowLen part s)).bufLen =
        windowLen part s := rfl
    rw [if_pos hshort, fetch_index (s := { s with prevofs := s.ofs }) h.ofs_lt, hlen,
      windowLen_eq h.sector hbefore, bufSize, defaultEmptyScanSize]
    rw [sizeofUnknownNode] at hroom ⊢
    omega
  · rw [if_neg hshort]
    rw [h.seen.short_iff hforward] at hshort
    omega

theorem visitMore_of_atNode (hat : s.AtNode part) : visitMore part flash crc s =
    (visitNode part flash crc (s.refill part flash)).behind
      (ensureLog part s sizeofUnknownNode (windowLen part s)) := by
  rw [visitMore, if_neg (not_not.mpr hat.before), if_neg hat.unseen,
    if_neg (Nat.not_lt.mpr hat.room)]

theorem visitMore_of_not_atNode (hat : ¬ s.AtNode part) :
    visitMore part flash crc s = ⟨[], none, some (.sector (s.i + 1) s.buf)⟩ ∨
      (s.ofs < sectorEnd part s.i ∧ s.ofs = s.prevofs ∧
        visitMore part flash crc s = ⟨[], none, some (.scanMore s.skip)⟩) := by
  rw [visitMore]
  by_cases hbefore : s.ofs < sectorEnd part s.i
  · by_cases hseen : s.ofs = s.prevofs
    · rw [if_neg (not_not.mpr hbefore), if_pos hseen]
      exact .inr ⟨hbefore, hseen, rfl⟩
    · rw [if_neg (not_not.mpr hbefore), if_neg hseen, if_pos]
      · exact .inl rfl
      · exact Nat.lt_of_not_le fun hroom => hat ⟨hbefore, hseen, hroom⟩
  · rw [if_pos hbefore]
    exact .inl rfl

theorem Window.visitMore_inside (h : Window part flash s)
    (hforward : (Place.scanMore s).Forward part flash crc) :
    (∀ a ∈ (visitMore part flash crc s).log, Inside part a) ↔
      (Place.scanMore s).Held part flash crc := by
  by_cases hat : s.AtNode part
  · obtain ⟨hheader, hnode⟩ := hforward hat
    obtain ⟨hwindow, hindex⟩ := h.refill hat hheader
    have hread : ∀ a ∈ ensureLog part s sizeofUnknownNode (windowLen part s), Inside part a :=
      h.ensureLog_inside.mpr fun _ => h.windowLen_end (Nat.le_of_lt hat.before)
    rw [visitMore_of_atNode hat, Visit.behind_log, List.forall_mem_append,
      hwindow.visitNode_inside (hindex.trans hwindow.bufLen_le) hnode, Place.Held]
    exact ⟨fun hall _ => hall.2, fun hheld => ⟨hread, hheld hat⟩⟩
  · refine iff_of_true ?_ fun h => absurd h hat
    intro a ha
    rcases visitMore_of_not_atNode hat with heq | ⟨-, -, heq⟩ <;>
    · rw [heq] at ha
      cases ha

end Log

end UBoot.Fs.Jffs2
