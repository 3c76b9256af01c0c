import UBoot.Fs.FatContents

/-!
# The file allocation table

`get_fatent` keeps a window of six sectors of the FAT in `fatbuf`, and a window holds a whole number
of entries of each width.  Whatever window an earlier call has left there, the entry that comes back
is the one on the disk (`getFatents_eq`), if the window is read at all: `fatlength` has 16 bits, and
a FAT32 of a multiple of 65536 sectors has the length 0.  An entry of FAT32 comes back with its
reserved bits (`getFatents_right_iff`).
-/

namespace UBoot.Fs.Fat

open UBoot.Lib

/-- A sequence of calls of `get_fatent`: what they return, and what they leave. -/
def getFatents (dev : BlockDev) (d : FsData) : List Nat → List Nat × FsData
  | [] => ([], d)
  | e :: es =>
    let rest := getFatents dev (getFatent dev d e).2 es
    ((getFatent dev d e).1 :: rest.1, rest.2)

/-! ## The table on the disk -/

/-- The first byte of the FAT. -/
def fatStart (dev : BlockDev) (d : FsData) : Nat := (dev.partOffset + d.fatSect.toNat) * sectorSize

/-- An entry with all its bits, in a table that begins at `pos`. -/
def rawEntry (fatsize : Int) (c : Contents) (pos entry : Nat) : Nat :=
  if fatsize = 32 then le32 c (pos + 4 * entry)
  else if fatsize = 16 then le16 c (pos + 2 * entry)
  else le16 c (pos + 12 * entry / 8) / 2 ^ (12 * entry % 8) % 4096

/-- The value of an entry, without the four reserved bits of FAT32. -/
def tableEntry (fatsize : Int) (c : Contents) (pos entry : Nat) : Nat :=
  if fatsize = 32 then rawEntry fatsize c pos entry % 2 ^ 28 else rawEntry fatsize c pos entry

/-- The file system has a FAT of so many sectors, and no part of it in the buffer. -/
structure IsTable (dev : BlockDev) (d : FsData) (sectors : Nat) : Prop where
  width : d.fatsize = 12 ∨ d.fatsize = 16 ∨ d.fatsize = 32
  length : d.fatlength = UInt16.ofNat sectors
  small : d.fatsize ≠ 32 → sectors < 65536
  fits : dev.partOffset + d.fatSect.toNat + sectors ≤ 2 ^ 32
  fresh : d.fatbufnum = 2 ^ 32 - 1

/-- The entry lies in the table. -/
def InTable (d : FsData) (sectors entry : Nat) : Prop :=
  entry < 2 ^ 32 ∧ (entry + 1) * d.fatsize.toNat ≤ sectors * sectorSize * 8

instance (d : FsData) (sectors entry : Nat) : Decidable (InTable d sectors entry) :=
  inferInstanceAs (Decidable (_ ∧ _))

/-- What `get_fatent` touches of `fatbuf`: the bytes that `disk_read` fills, and the words of the
entry. -/
def fatAccesses (d : FsData) (entry : Nat) : List (Nat × Nat) :=
  match fatBufEntries d.fatsize with
  | none => []
  | some n =>
    let fatlength := d.fatlength.toNat * sectorSize
    let getsize :=
      if fatlength < fatBufSize / sectorSize then fatlength else fatBufSize / sectorSize
    let offset := entry - entry / n * n
    let off16 := offset * 3 / 4
    (0, getsize * sectorSize) ::
      if d.fatsize = 32 then [(4 * offset, 4)]
      else if d.fatsize = 16 then [(2 * offset, 2)]
      else if offset % 4 = 1 ∨ offset % 4 = 2 then [(2 * off16, 2), (2 * (off16 + 1), 2)]
      else [(2 * off16, 2)]

section Entries

variable {dev : BlockDev} {d e : FsData} {disk c : Contents} {sectors n entry offset pos : Nat}

/-! ## One window -/

/-- The four ways to take 12 bits from one or two words. -/
theorem fatEntry_twelve (h32 : ¬ d.fatsize = 32) (h16 : ¬ d.fatsize = 16) (offset : Nat) :
    fatEntry d offset =
      le16 d.fatbuf (12 * offset / 8) / 2 ^ (12 * offset % 8) % 4096 := by
  have hlt (i : Nat) := (d.fatbuf i).toNat_lt
  obtain ⟨k, hk⟩ : ∃ k, offset = 4 * k ∨ offset = 4 * k + 1 ∨ offset = 4 * k + 2 ∨
      offset = 4 * k + 3 := ⟨offset / 4, by omega⟩
  rw [fatEntry, if_neg h32, if_neg h16]
  rcases hk with rfl | rfl | rfl | rfl
  · have hcase : 4 * k % 4 = 0 := by omega
    have hword : 2 * (4 * k * 3 / 4) = 6 * k := by omega
    have hbyte : 12 * (4 * k) / 8 = 6 * k := by omega
    have hbit : 12 * (4 * k) % 8 = 0 := by omega
    simp only [hcase, hword, hbyte, hbit, Nat.pow_zero, Nat.div_one]
  · have hcase : (4 * k + 1) % 4 = 1 := by omega
    have hword : 2 * ((4 * k + 1) * 3 / 4) = 6 * k := by omega
    have hnext : 2 * ((4 * k + 1) * 3 / 4 + 1) = 6 * k + 2 := by omega
    have hbyte : 12 * (4 * k + 1) / 8 = 6 * k + 1 := by omega
    have hbit : 12 * (4 * k + 1) % 8 = 4 := by omega
    have h0 := hlt (6 * k)
    have h1 := hlt (6 * k + 1)
    have h2 := hlt (6 * k + 2)
    simp only [hcase, hword, hnext, hbyte, hbit, le16, Nat.add_assoc, Nat.reduceAdd]
    omega
  · have hcase : (4 * k + 2) % 4 = 2 := by omega
    have hword : 2 * ((4 * k + 2) * 3 / 4) = 6 * k + 2 := by omega
    have hnext : 2 * ((4 * k + 2) * 3 / 4 + 1) = 6 * k + 4 := by omega
    have hbyte : 12 * (4 * k + 2) / 8 = 6 * k + 3 := by omega
    have hbit : 12 * (4 * k + 2) % 8 = 0 := by omega
    have h2 := hlt (6 * k + 2)
    have h3 := hlt (6 * k + 3)
    have h4 := hlt (6 * k + 4)
    simp only [hcase, hword, hnext, hbyte, hbit, le16, Nat.pow_zero, Nat.div_one, Nat.add_assoc,
      Nat.reduceAdd]
    omega
  · have hcase : (4 * k + 3) % 4 = 3 := by omega
    have hword : 2 * ((4 * k + 3) * 3 / 4) = 6 * k + 4 := by omega
    have hbyte : 12 * (4 * k + 3) / 8 = 6 * k + 4 := by omega
    have hbit : 12 * (4 * k + 3) % 8 = 4 := by omega
    have h4 := hlt (6 * k + 4)
    have h5 := hlt (6 * k + 5)
    simp only [hcase, hword, hbyte, hbit, le16, Nat.add_assoc, Nat.reduceAdd]
    omega

/-- What is taken from the buffer is the entry of a table that begins with it. -/
theorem fatEntry_eq (d : FsData) (offset : Nat) :
    fatEntry d offset = rawEntry d.fatsize d.fatbuf 0 offset := by
  by_cases h32 : d.fatsize = 32
  · rw [fatEntry, if_pos h32, rawEntry, if_pos h32, Nat.zero_add]
  · by_cases h16 : d.fatsize = 16
    · rw [fatEntry, if_neg h32, if_pos h16, rawEntry, if_neg h32, if_pos h16, Nat.zero_add]
    · rw [fatEntry_twelve h32 h16, rawEntry, if_neg h32, if_neg h16, Nat.zero_add]

theorem fatBufSize_eq : fatBufSize = 3072 := rfl

/-- The window with the number `n` of the table at `pos` is in the buffer. -/
def HasWindow (d : FsData) (disk : Contents) (pos n : Nat) : Prop :=
  ∀ k < fatBufSize, d.fatbuf k = disk (pos + n * fatBufSize + k)

theorem le16_window (h : HasWindow d disk pos n) {i j : Nat} (hi : i + 2 ≤ 3072)
    (hj : j = pos + n * 3072 + i) : le16 d.fatbuf i = le16 disk j := by
  have hsize := fatBufSize_eq
  rw [le16, le16, h i (by omega), h (i + 1) (by omega), hj]
  rfl

/-- An entry of the window is the one on the disk. -/
theorem fatEntry_window {q : Nat} (hq : fatBufEntries d.fatsize = some q)
    (h : HasWindow d disk pos n) (hoffset : offset < q) :
    fatEntry d offset = rawEntry d.fatsize disk pos (n * q + offset) := by
  rw [fatEntry_eq]
  unfold fatBufEntries at hq
  split at hq
  · rename_i h32
    obtain rfl : 768 = q := Option.some.inj hq
    have hlo := le16_window h (i := 0 + 4 * offset) (j := pos + 4 * (n * 768 + offset))
      (by omega) (by omega)
    have hhi := le16_window h (i := 0 + 4 * offset + 2) (j := pos + 4 * (n * 768 + offset) + 2)
      (by omega) (by omega)
    rw [rawEntry, rawEntry, if_pos h32, if_pos h32, le32, le32, hlo, hhi]
  · rename_i h32
    split at hq
    · rename_i h16
      obtain rfl : 1536 = q := Option.some.inj hq
      have hword := le16_window h (i := 0 + 2 * offset) (j := pos + 2 * (n * 1536 + offset))
        (by omega) (by omega)
      rw [rawEntry, rawEntry, if_neg h32, if_neg h32, if_pos h16, if_pos h16, hword]
    · rename_i h16
      split at hq
      · obtain rfl : 2048 = q := Option.some.inj hq
        have hword := le16_window h (i := 0 + 12 * offset / 8)
          (j := pos + 12 * (n * 2048 + offset) / 8) (by omega) (by omega)
        have hbit : 12 * offset % 8 = 12 * (n * 2048 + offset) % 8 := by omega
        rw [rawEntry, rawEntry, if_neg h32, if_neg h32, if_neg h16, if_neg h16, hword, hbit]
      · cases hq

/-! ## The calls -/

/-- The sector that a window begins with is on the disk. -/
theorem window_fits {q sectors : Nat} (htable : IsTable dev d sectors)
    (hq : fatBufEntries d.fatsize = some q) (hin : InTable d sectors entry) :
    entry / q * fatBufBlocks < sectors := by
  obtain ⟨-, hin⟩ := hin
  have hpos : 0 < q ∧ 8 * fatBufSize = q * d.fatsize.toNat := by
    rcases htable.width with h | h | h <;> rw [h] at hq ⊢ <;> cases hq <;> decide
  have hle : entry / q * q ≤ entry := Nat.div_mul_le_self _ _
  have hbits : entry / q * (8 * fatBufSize) < sectors * sectorSize * 8 := by
    rw [hpos.2, ← Nat.mul_assoc]
    have hmul := Nat.mul_le_mul_right d.fatsize.toNat (Nat.succ_le_succ hle)
    have hwidth : 0 < d.fatsize.toNat := by
      rcases htable.width with h | h | h <;> rw [h] <;> decide
    rw [Nat.succ_mul] at hmul
    rw [Nat.succ_mul] at hmul
    rw [Nat.succ_mul] at hin
    omega
  have hsector : sectorSize = 512 := rfl
  have hsize := fatBufSize_eq
  have hblocks : fatBufBlocks = 6 := rfl
  rw [hsector, hsize] at hbits
  rw [hblocks]
  omega

/-- The buffer is as it was at the start, or it holds a window of the table. -/
structure Cached (dev : BlockDev) (d e : FsData) (disk : Contents) : Prop where
  fatsize : e.fatsize = d.fatsize
  fatlength : e.fatlength = d.fatlength
  fatSect : e.fatSect = d.fatSect
  window : e.fatbufnum = 2 ^ 32 - 1 ∨ HasWindow e disk (fatStart dev d) e.fatbufnum

theorem readFatBlock_eq (hread : Reads dev disk) (hlen : d.fatlength ≠ 0) (n : Nat) :
    readFatBlock dev d n = some { d with
      fatbuf := storeAt d.fatbuf 0 (readAt disk
        (((n * fatBufBlocks + d.fatSect.toNat) % 2 ^ 32 + dev.partOffset) % 2 ^ 32 * sectorSize)
        fatBufSize)
      fatbufnum := n } := by
  have hpos : d.fatlength.toNat ≠ 0 := fun h => hlen (UInt16.toNat_inj.mp h)
  have hfull : ¬ d.fatlength.toNat * sectorSize < fatBufSize / sectorSize := by
    have hsize : fatBufSize / sectorSize = 6 := rfl
    have hsector : sectorSize = 512 := rfl
    rw [hsize, hsector]
    omega
  unfold readFatBlock diskRead
  dsimp only
  rw [if_neg hfull, hread]
  rfl

/-- A window that has been read. -/
theorem hasWindow_store (d : FsData) (buf disk : Contents) {s : Nat}
    (hs : s = pos + n * fatBufSize) :
    HasWindow { d with fatbuf := storeAt buf 0 (readAt disk s fatBufSize), fatbufnum := n }
      disk pos n := by
  intro k hk
  have hin : InRange 0 (readAt disk s fatBufSize).length k := ⟨Nat.zero_le k, by simpa using hk⟩
  refine (if_pos hin).trans ?_
  rw [Nat.sub_zero, List.getD_eq_getElem?_getD, getElem?_readAt hk, Option.getD_some, hs]

/-- The sectors of a window are where they are looked for. -/
theorem window_start {q : Nat} (htable : IsTable dev d sectors)
    (hq : fatBufEntries d.fatsize = some q) (hin : InTable d sectors entry) :
    ((entry / q * fatBufBlocks + d.fatSect.toNat) % 2 ^ 32 + dev.partOffset) % 2 ^ 32 *
      sectorSize = fatStart dev d + entry / q * fatBufSize := by
  have hfits := window_fits htable hq hin
  have hdisk := htable.fits
  have hsize : fatBufSize = fatBufBlocks * sectorSize := rfl
  rw [Nat.mod_eq_of_lt (by omega), Nat.mod_eq_of_lt (by omega), fatStart, hsize, ← Nat.mul_assoc,
    ← Nat.add_mul]
  congr 1
  omega

/-- **A call returns the entry on the disk**, whatever window it finds in the buffer. -/
theorem getFatent_right (htable : IsTable dev d sectors) (hread : Reads dev disk)
    (hlen : d.fatlength ≠ 0) (hin : InTable d sectors entry) (he : Cached dev d e disk) :
    (getFatent dev e entry).1 = rawEntry d.fatsize disk (fatStart dev d) entry ∧
      Cached dev d (getFatent dev e entry).2 disk := by
  obtain ⟨q, hq, hpos⟩ : ∃ q, fatBufEntries d.fatsize = some q ∧ 2 ≤ q := by
    rcases htable.width with h | h | h <;> rw [h] <;> exact ⟨_, rfl, by decide⟩
  have hmod : entry / q * q + (entry - entry / q * q) = entry := by
    have hle := Nat.div_mul_le_self entry q
    omega
  have hoffset : entry - entry / q * q < q := by
    have hlt := Nat.lt_div_mul_add (a := entry) (b := q) (by omega)
    omega
  have hnum : entry / q ≠ 2 ^ 32 - 1 := by
    have hlt := hin.1
    have hhalf : entry / q ≤ entry / 2 := Nat.div_le_div_left hpos (by decide)
    omega
  have hq' := hq
  rw [← he.fatsize] at hq'
  unfold getFatent
  rw [hq']
  dsimp only
  by_cases hbuf : entry / q = e.fatbufnum
  · rw [if_pos hbuf]
    have hhas := he.window.resolve_left (by omega)
    refine ⟨?_, he⟩
    rw [fatEntry_window hq' hhas hoffset, ← hbuf, hmod, he.fatsize]
  · have hlen' := hlen
    rw [← he.fatlength] at hlen'
    rw [if_neg hbuf, readFatBlock_eq hread hlen']
    have hstart := window_start htable hq hin
    rw [← he.fatSect] at hstart
    have hhas := hasWindow_store e e.fatbuf disk hstart
    refine ⟨?_, ⟨he.fatsize, he.fatlength, he.fatSect, .inr hhas⟩⟩
    refine (fatEntry_window (by exact hq') hhas hoffset).trans ?_
    rw [hmod]
    exact congrArg (rawEntry · disk (fatStart dev d) entry) he.fatsize

/-- So it is for any sequence of calls. -/
theorem getFatents_eq {es : List Nat} (htable : IsTable dev d sectors) (hread : Reads dev disk)
    (hlen : d.fatlength ≠ 0) (hes : ∀ x ∈ es, InTable d sectors x) :
    ∀ {e : FsData}, Cached dev d e disk →
      (getFatents dev e es).1 = es.map (rawEntry d.fatsize disk (fatStart dev d)) := by
  induction es with
  | nil => intro e _; rfl
  | cons x es ih =>
    intro e he
    obtain ⟨hfirst, hcached⟩ := getFatent_right htable hread hlen (hes x List.mem_cons_self) he
    rw [getFatents, List.map_cons, hfirst,
      ih (fun y hy => hes y (List.mem_cons_of_mem _ hy)) hcached]

/-- With a length of 0 nothing is read, and the entry is taken from what is in the buffer. -/
theorem getFatent_unread (hread : Reads dev disk) (h32 : d.fatsize = 32) (hlen : d.fatlength = 0)
    (entry : Nat) (buf : Contents) : ∃ offset,
      (getFatent dev { d with fatbuf := buf } entry).1 = le32 buf (4 * offset) := by
  have hq : fatBufEntries d.fatsize = some 768 := by rw [h32]; rfl
  have hempty (s : Nat) : storeAt buf 0 (readAt disk s (0 * sectorSize)) = buf := by
    funext k
    refine storeAt_of_not_inRange ?_
    rw [length_readAt, Nat.zero_mul]
    rintro ⟨-, h⟩
    omega
  have hsize : (if (0 : UInt16).toNat * sectorSize < fatBufSize / sectorSize then
      (0 : UInt16).toNat * sectorSize else fatBufSize / sectorSize) = 0 := by
    rw [UInt16.toNat_zero, Nat.zero_mul]
    exact if_pos (by decide)
  have hnone (n : Nat) : readFatBlock dev { d with fatbuf := buf } n =
      some { d with fatbuf := buf, fatbufnum := n } := by
    unfold readFatBlock diskRead
    dsimp only
    rw [hlen, hsize, hread, Option.map_some, hempty]
  refine ⟨entry - entry / 768 * 768, ?_⟩
  unfold getFatent
  dsimp only
  rw [hq]
  dsimp only
  split
  · exact if_pos h32
  · rw [hnone]
    exact if_pos h32

/-- Nothing is touched outside the buffer. -/
theorem fatAccesses_inside (d : FsData) (entry : Nat) :
    ∀ r ∈ fatAccesses d entry, r.1 + r.2 ≤ fatBufSize := by
  have hread (n : Nat) : 0 + (if n < fatBufSize / sectorSize then n else fatBufSize / sectorSize) *
      sectorSize ≤ 3072 := by
    have hblocks : fatBufSize / sectorSize = 6 := rfl
    have hsector : sectorSize = 512 := rfl
    rw [hblocks, hsector]
    split <;> omega
  have hoffset (q : Nat) (hq : 0 < q) : entry - entry / q * q < q := by
    have hlt := Nat.lt_div_mul_add (a := entry) hq
    omega
  rw [fatBufSize_eq]
  unfold fatAccesses fatBufEntries
  by_cases h32 : d.fatsize = 32
  · have hlt : entry - entry / (fatBufSize / 4) * (fatBufSize / 4) < 768 := hoffset 768 (by decide)
    simp only [if_pos h32, List.forall_mem_cons]
    exact ⟨hread _, by omega, by simp⟩
  · by_cases h16 : d.fatsize = 16
    · have hlt : entry - entry / (fatBufSize / 2) * (fatBufSize / 2) < 1536 :=
        hoffset 1536 (by decide)
      simp only [if_neg h32, if_pos h16, List.forall_mem_cons]
      exact ⟨hread _, by omega, by simp⟩
    · by_cases h12 : d.fatsize = 12
      · have hlt : entry - entry / (fatBufSize * 2 / 3) * (fatBufSize * 2 / 3) < 2048 :=
          hoffset 2048 (by decide)
        simp only [if_neg h32, if_neg h16, if_pos h12, List.forall_mem_cons]
        refine ⟨hread _, ?_⟩
        generalize entry - entry / (fatBufSize * 2 / 3) * (fatBufSize * 2 / 3) = offset at hlt
        split
        · simp only [List.forall_mem_cons]
          exact ⟨by omega, by omega, by simp⟩
        · simp only [List.forall_mem_cons]
          exact ⟨by omega, by simp⟩
      · simp [if_neg h32, if_neg h16, if_neg h12]

end Entries

/-- **`get_fatent` returns the entries of the table** for exactly the tables with a length that is
not 0 in 16 bits, and for the entries of FAT32 whose reserved bits are zero. -/
theorem getFatents_right_iff {dev : BlockDev} {d : FsData} {disk : Contents} {sectors : Nat}
    {es : List Nat} (htable : IsTable dev d sectors) (hread : Reads dev disk)
    (hes : ∀ x ∈ es, InTable d sectors x) :
    ((∀ buf, (getFatents dev { d with fatbuf := buf } es).1 =
          es.map (tableEntry d.fatsize disk (fatStart dev d))) ∧
        ∀ x ∈ es, ∀ r ∈ fatAccesses d x, r.1 + r.2 ≤ fatBufSize) ↔
      (d.fatsize = 32 → ∀ x ∈ es, le32 disk (fatStart dev d + 4 * x) < 2 ^ 28) ∧
        (d.fatlength = 0 → es = []) := by
  have hcached (buf : Contents) : Cached dev d { d with fatbuf := buf } disk :=
    ⟨rfl, rfl, rfl, .inl htable.fresh⟩
  by_cases hlen : d.fatlength = 0
  · cases es with
    | nil => simp [getFatents]
    | cons x es =>
      refine ⟨?_, fun h => absurd (h.2 hlen) (List.cons_ne_nil x es)⟩
      rintro ⟨hright, -⟩
      -- Nothing but FAT32 has an entry in a table of such a length.
      have h32 : d.fatsize = 32 := by
        by_contra h32
        have hsmall := htable.small h32
        have hzero : sectors = 0 := by
          have hlength := congrArg UInt16.toNat htable.length
          rw [hlen, UInt16.toNat_ofNat', Nat.mod_eq_of_lt hsmall] at hlength
          exact hlength.symm
        have hx := (hes x List.mem_cons_self).2
        have hwidth : 0 < d.fatsize.toNat := by
          rcases htable.width with h | h | h <;> rw [h] <;> decide
        have hmul := Nat.mul_pos (by omega : 0 < x + 1) hwidth
        rw [hzero, Nat.zero_mul, Nat.zero_mul] at hx
        omega
      have hfirst (buf : Contents) : (getFatent dev { d with fatbuf := buf } x).1 =
          tableEntry d.fatsize disk (fatStart dev d) x := by
        have hbuf := hright buf
        rw [getFatents, List.map_cons] at hbuf
        exact (List.cons.inj hbuf).1
      obtain ⟨i, hi⟩ := getFatent_unread hread h32 hlen x fun _ => 0
      obtain ⟨j, hj⟩ := getFatent_unread hread h32 hlen x fun _ => 1
      have hsame := (hfirst fun _ => 0).trans (hfirst fun _ => 1).symm
      rw [hi, hj] at hsame
      cases hsame
  · rw [and_iff_left fun x _ => fatAccesses_inside d x, and_iff_left fun h => absurd h hlen]
    have hall (buf : Contents) := getFatents_eq htable hread hlen hes (hcached buf)
    constructor
    · intro hright h32 x hx
      have hsame := (hall d.fatbuf).symm.trans (hright d.fatbuf)
      have hentry := List.map_inj_left.mp hsame x hx
      rw [tableEntry, if_pos h32, rawEntry, if_pos h32] at hentry
      rw [hentry]
      exact Nat.mod_lt _ (by decide)
    · intro hbits buf
      rw [hall buf]
      refine List.map_congr_left fun x hx => ?_
      by_cases h32 : d.fatsize = 32
      · rw [tableEntry, if_pos h32, rawEntry, if_pos h32, Nat.mod_eq_of_lt (hbits h32 x hx)]
      · rw [tableEntry, if_neg h32]

theorem isTable_fat16 : IsTable (devWith (diskWith 2 3)) fat16 256 where
  width := .inr (.inl rfl)
  length := rfl
  small := fun _ => by decide
  fits := by decide
  fresh := rfl

/-- Entries of two windows, and of the first one again. -/
theorem getFatents_right_fat16 :
    (∀ buf, (getFatents (devWith (diskWith 2 3)) { fat16 with fatbuf := buf } [2, 3000, 3]).1 =
        [2, 3000, 3].map (tableEntry 16 (diskWith 2 3) (fatStart (devWith (diskWith 2 3)) fat16))) ∧
      ∀ x ∈ [2, 3000, 3], ∀ r ∈ fatAccesses fat16 x, r.1 + r.2 ≤ fatBufSize :=
  (getFatents_right_iff isTable_fat16 reads_devWith (by decide)).mpr
    ⟨fun h => absurd h (by decide), fun h => absurd h (by decide)⟩

/-- A FAT32 of one sector behind 32 reserved ones. -/
def fat32 : FsData := { fat16 with fatsize := 32, fatlength := 1, fatSect := 32 }

/-- Cluster 2 is followed by cluster 3, and the reserved bits are set. -/
def reservedDisk : Contents := storeAt (fun _ => 0) 16392 [0x03, 0x00, 0x00, 0xf0]

/-- The entry comes back as 0xf0000003. -/
theorem getFatents_reserved_wrong :
    ¬ ∀ (dev : BlockDev) (d : FsData) (disk : Contents) (sectors : Nat) (es : List Nat),
      IsTable dev d sectors → Reads dev disk → (∀ x ∈ es, InTable d sectors x) →
        (∀ buf, (getFatents dev { d with fatbuf := buf } es).1 =
          es.map (tableEntry d.fatsize disk (fatStart dev d))) ∧
        ∀ x ∈ es, ∀ r ∈ fatAccesses d x, r.1 + r.2 ≤ fatBufSize := by
  intro h
  have htable : IsTable (devWith reservedDisk) fat32 1 :=
    ⟨.inr (.inr rfl), rfl, fun _ => by decide, by decide, rfl⟩
  have hin : ∀ x ∈ [2], InTable fat32 1 x := by decide
  have hright := (h _ _ _ _ _ htable reads_devWith hin).1 fat32.fatbuf
  have hraw := getFatents_eq htable reads_devWith (by decide) hin
    (e := { fat32 with fatbuf := fat32.fatbuf }) ⟨rfl, rfl, rfl, .inl rfl⟩
  rw [hraw] at hright
  revert hright
  decide

end UBoot.Fs.Fat
