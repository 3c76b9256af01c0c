import UBoot.Fs.Fat

/-!
# Files are read cluster by cluster

The plain reader reads one cluster after the other and follows the FAT behind each.  It makes a
round for each link of the chain, and so does `get_contents`, which has not read the clusters of the
run that it searches (`Behind`).

They part where an entry that is no cluster is the number behind its cluster: `get_contents` drops
the run that it has not read (`EndsApart`).  And `actsize` wraps around if a file of almost 4 GiB is
a single run (`NoOverflow`).
-/

namespace UBoot.Fs.Fat

open UBoot.Lib

/-! ## The plain reader -/

structure PlainReading where
  mydata : FsData
  clust : Nat
  filesize : Nat
  gotsize : Nat
  out : Bytes

/-- The last cluster of the size, or a whole cluster and the entry behind it. -/
def plainStep (dev : BlockDev) (p : PlainReading) : Round PlainReading :=
  if p.filesize ≤ p.mydata.bytesPerClust then
    .done ((getCluster dev p.mydata p.clust p.filesize).map fun bytes =>
      ⟨(p.gotsize + p.filesize) % 2 ^ 32, p.out ++ bytes⟩)
  else
    match getCluster dev p.mydata p.clust p.mydata.bytesPerClust with
    | none => .done none
    | some bytes =>
      let gotsize := (p.gotsize + p.mydata.bytesPerClust) % 2 ^ 32
      let (newclust, mydata) := getFatent dev p.mydata p.clust
      if checkClust newclust mydata.fatsize then .done (some ⟨gotsize, p.out ++ bytes⟩)
      else
        .more
          { mydata := mydata
            clust := newclust
            filesize := p.filesize - p.mydata.bytesPerClust
            gotsize := gotsize
            out := p.out ++ bytes }

def plainContents (dev : BlockDev) (d : FsData) (dent : DirEntry) (maxsize fuel : Nat) :
    Option (Option FatRead) :=
  rounds (plainStep dev) fuel
    { mydata := d
      clust := startOf d dent
      filesize := limitedSize dent maxsize
      gotsize := 0
      out := [] }

/-! ## What two readers return -/

/-- A reader returns the result, after some rounds. -/
def Returns (run : Nat → Option (Option FatRead)) (r : Option FatRead) : Prop :=
  ∃ fuel, run fuel = some r

/-- Two readers return the same. -/
def Same (run run' : Nat → Option (Option FatRead)) : Prop :=
  ∀ r, Returns run r ↔ Returns run' r

/-- `get_contents` returns what the plain reader returns, and it does return, if there are sectors
in a cluster. -/
def Agrees (dev : BlockDev) (d : FsData) (dent : DirEntry) (maxsize : Nat) : Prop :=
  (d.clustSize ≠ 0 → ∃ r, Returns (getContents dev d dent maxsize) r) ∧
    Same (getContents dev d dent maxsize) (plainContents dev d dent maxsize)

/-- All reads succeed. -/
def Reads (dev : BlockDev) (disk : Contents) : Prop :=
  ∀ start count, dev.blockRead start count =
    some (readAt disk (start * sectorSize) (count * sectorSize))

/-- The links of the chain that starts with a cluster, with the buffer at each. -/
def chain (dev : BlockDev) (d : FsData) (clust : Nat) : Nat → Option (FsData × Nat)
  | 0 => some (d, clust)
  | i + 1 => do
    let (d, clust) ← chain dev d clust i
    let (newclust, d) := getFatent dev d clust
    if checkClust newclust d.fatsize then none else some (d, newclust)

/-- The sectors of a cluster do not wrap around. -/
def Fits (dev : BlockDev) (d : FsData) (clust : Nat) : Prop :=
  0 ≤ d.dataBegin.toInt + clust * d.clustSize.toNat ∧
    dev.partOffset + d.dataBegin.toInt + (clust + 1) * d.clustSize.toNat ≤ 2 ^ 32

/-- The clusters of a file do not wrap around. -/
def ClustersFit (dev : BlockDev) (d : FsData) (clust size : Nat) : Prop :=
  ∀ i e c, chain dev d clust i = some (e, c) → i * d.bytesPerClust < size → Fits dev d c

/-- No run of clusters from the start of the file holds 4 GiB. -/
def NoOverflow (dev : BlockDev) (d : FsData) (clust size : Nat) : Prop :=
  ∀ m, (∀ i ≤ m, (chain dev d clust i).map Prod.snd = some (clust + i)) →
    m * d.bytesPerClust < size → (m + 1) * d.bytesPerClust < 2 ^ 32

/-- An entry that ends the chain in front of the size is not the number behind its cluster. -/
def EndsApart (dev : BlockDev) (d : FsData) (clust size : Nat) : Prop :=
  ∀ i e c, chain dev d clust i = some (e, c) → (i + 1) * d.bytesPerClust < size →
    checkClust (getFatent dev e c).1 d.fatsize = true →
      ((getFatent dev e c).1 + 2 ^ 32 - 1) % 2 ^ 32 ≠ c

section Readers

variable {dev : BlockDev} {d e : FsData} {disk : Contents} {c n m i k clust size : Nat}
  {s s' : Reading} {p p' : PlainReading}

/-! ## The FAT -/

/-- `get_fatent` changes the buffer only. -/
theorem getFatent_frame : ∃ buf num, (getFatent dev d c).2 =
    { d with fatbuf := buf, fatbufnum := num } := by
  unfold getFatent
  split
  · exact ⟨_, _, rfl⟩
  dsimp only
  split
  · exact ⟨_, _, rfl⟩
  split
  · exact ⟨_, _, rfl⟩
  · rename_i heq
    obtain ⟨data, -, rfl⟩ := Option.map_eq_some_iff.mp heq
    exact ⟨_, _, rfl⟩

/-- The same entry again is in the buffer. -/
theorem getFatent_again (hread : Reads dev disk) :
    getFatent dev (getFatent dev d c).2 c = getFatent dev d c := by
  have hsome : ∀ bufnum, ∃ data, readFatBlock dev d bufnum =
      some { d with fatbuf := storeAt d.fatbuf 0 data, fatbufnum := bufnum } := by
    intro bufnum
    unfold readFatBlock diskRead
    dsimp only
    rw [hread]
    exact ⟨_, rfl⟩
  cases hsize : fatBufEntries d.fatsize with
  | none =>
    have hsame : getFatent dev d c = (0, d) := by
      rw [getFatent, hsize]
    rw [hsame, hsame]
  | some n =>
    by_cases hbuf : c / n = d.fatbufnum
    · have hsame : getFatent dev d c = (fatEntry d (c - c / n * n), d) := by
        rw [getFatent, hsize]
        exact if_pos hbuf
      rw [hsame, hsame]
    · obtain ⟨data, hdata⟩ := hsome (c / n)
      have hload : getFatent dev d c =
          (fatEntry { d with fatbuf := storeAt d.fatbuf 0 data, fatbufnum := c / n }
            (c - c / n * n), { d with fatbuf := storeAt d.fatbuf 0 data, fatbufnum := c / n }) := by
        rw [getFatent, hsize]
        dsimp only
        rw [if_neg hbuf, hdata]
      rw [hload]
      dsimp only
      rw [getFatent]
      dsimp only
      rw [hsize]
      exact if_pos rfl

/-- The geometry is the same along a chain. -/
structure SameGeometry (d e : FsData) : Prop where
  fatsize : e.fatsize = d.fatsize
  rootdirSect : e.rootdirSect = d.rootdirSect
  clustSize : e.clustSize = d.clustSize
  dataBegin : e.dataBegin = d.dataBegin

theorem getFatent_geometry (h : SameGeometry d e) : SameGeometry d (getFatent dev e c).2 := by
  obtain ⟨buf, num, heq⟩ := @getFatent_frame dev e c
  rw [heq]
  exact ⟨h.fatsize, h.rootdirSect, h.clustSize, h.dataBegin⟩

theorem SameGeometry.startSect (h : SameGeometry d e) : startSect e c = startSect d c := by
  unfold Fat.startSect
  rw [h.rootdirSect, h.clustSize, h.dataBegin]

theorem SameGeometry.getCluster (h : SameGeometry d e) :
    getCluster dev e c n = getCluster dev d c n := by
  unfold Fat.getCluster
  rw [h.startSect]

theorem SameGeometry.bytesPerClust (h : SameGeometry d e) : e.bytesPerClust = d.bytesPerClust := by
  unfold FsData.bytesPerClust
  rw [h.clustSize]

/-! ## Clusters -/

/-- The first byte of a cluster on the disk. -/
def clusterPos (dev : BlockDev) (d : FsData) (clust : Nat) : Nat :=
  (startSect d clust + dev.partOffset) % 2 ^ 32 * sectorSize

/-- Whole sectors are read at once. -/
theorem getCluster_sectors (hread : Reads dev disk) (hn : n % sectorSize = 0) :
    getCluster dev d c n = some (readAt disk (clusterPos dev d c) n) := by
  have hsize : n / sectorSize * sectorSize = n := Nat.div_mul_cancel (Nat.dvd_of_mod_eq_zero hn)
  unfold getCluster diskRead
  rw [hread, hsize]
  simp only [Option.bind_eq_bind, Option.bind_some, hn]
  rfl

theorem bytesPerClust_mod (k : Nat) : k * d.bytesPerClust % sectorSize = 0 := by
  unfold FsData.bytesPerClust
  rw [← Nat.mul_assoc]
  exact Nat.mul_mod_left _ _

/-- Some bytes are read. -/
theorem exists_getCluster (hread : Reads dev disk) :
    ∃ bytes, getCluster dev d c n = some bytes := by
  unfold getCluster diskRead
  rw [hread, hread]
  simp only [Option.bind_eq_bind, Option.bind_some]
  split
  · exact ⟨_, rfl⟩
  · exact ⟨_, rfl⟩

theorem clusterPos_eq (hc : 0 < c) (hfits : Fits dev d c) (hsize : 0 < d.clustSize.toNat) :
    (clusterPos dev d c : Int) =
      (dev.partOffset + d.dataBegin.toInt + c * d.clustSize.toNat) * sectorSize := by
  obtain ⟨hlow, hhigh⟩ := hfits
  rw [Int.add_mul, Int.one_mul] at hhigh
  unfold clusterPos startSect
  rw [if_pos hc]
  generalize (c : Int) * d.clustSize.toNat = x at hlow hhigh ⊢
  have hsect : ((d.dataBegin.toInt + x) % 2 ^ 32).toNat + dev.partOffset < 2 ^ 32 ∧
      (((d.dataBegin.toInt + x) % 2 ^ 32).toNat : Int) = d.dataBegin.toInt + x := by
    omega
  rw [Nat.mod_eq_of_lt hsect.1, Int.natCast_mul, Int.natCast_add, hsect.2]
  congr 1
  omega

/-- The cluster behind a cluster stands behind it on the disk. -/
theorem clusterPos_succ (hc : 0 < c) (hfits : Fits dev d c) (hfits' : Fits dev d (c + 1)) :
    clusterPos dev d (c + 1) = clusterPos dev d c + d.bytesPerClust := by
  rcases Nat.eq_zero_or_pos d.clustSize.toNat with hzero | hpos
  · unfold clusterPos startSect FsData.bytesPerClust
    rw [if_pos hc, if_pos (Nat.succ_pos c), hzero, Int.natCast_zero, Int.mul_zero, Int.mul_zero,
      Nat.zero_mul, Nat.add_zero]
  · have hfirst := clusterPos_eq hc hfits hpos
    have hsecond := clusterPos_eq (c := c + 1) (Nat.succ_pos c) hfits' hpos
    unfold FsData.bytesPerClust
    rw [Int.natCast_add, Int.natCast_one, Int.add_mul (c : Int) 1, Int.one_mul] at hsecond
    generalize (c : Int) * d.clustSize.toNat = x at hfirst hsecond
    unfold sectorSize at *
    omega

/-- The bytes of a run of clusters. -/
theorem readAt_run (k : Nat) (hc : 0 < c ∨ k = 0) (hfits : ∀ i ≤ k, Fits dev d (c + i)) :
    readAt disk (clusterPos dev d c) ((k + 1) * d.bytesPerClust) =
      readAt disk (clusterPos dev d c) (k * d.bytesPerClust) ++
        readAt disk (clusterPos dev d (c + k)) d.bytesPerClust := by
  have hplace : clusterPos dev d (c + k) = clusterPos dev d c + k * d.bytesPerClust := by
    induction k with
    | zero => rw [Nat.zero_mul, Nat.add_zero, Nat.add_zero]
    | succ k ih =>
      have hpos : 0 < c := hc.resolve_right (Nat.succ_ne_zero k)
      have hbefore := ih (Or.inl hpos) fun i hi => hfits i (Nat.le_succ_of_le hi)
      rw [← Nat.add_assoc, clusterPos_succ (by omega) (hfits k (Nat.le_succ k)) (hfits _ le_rfl),
        hbefore, Nat.succ_mul, Nat.add_assoc]
  rw [Nat.succ_mul, readAt_add, hplace]

/-! ## The run that is searched -/

/-- `get_contents` stands at a link of the chain, and has not read the clusters of its run. -/
structure Behind (dev : BlockDev) (d : FsData) (disk : Contents) (clust size : Nat) (i k : Nat)
    (s : Reading) (p : PlainReading) : Prop where
  link : chain dev d clust i = some (p.mydata, p.clust)
  run_le : k ≤ i
  run : ∀ j ≤ k, (chain dev d clust (i - k + j)).map Prod.snd = some (s.curclust + j)
  mydata : s.mydata = p.mydata
  geometry : SameGeometry d p.mydata
  endclust : s.endclust = p.clust
  actsize : s.actsize = (k + 1) * d.bytesPerClust
  filesize : s.filesize + (i - k) * d.bytesPerClust = size
  plainsize : p.filesize + i * d.bytesPerClust = size
  gotsize : s.gotsize = (i - k) * d.bytesPerClust
  plaingot : p.gotsize = i * d.bytesPerClust
  out : p.out = s.out ++ readAt disk (clusterPos dev d s.curclust) (k * d.bytesPerClust)

/-- At the start, the run is the first cluster. -/
theorem behind_start :
    Behind dev d disk clust size 0 0
      { mydata := d, curclust := clust, endclust := clust, actsize := d.bytesPerClust,
        filesize := size, gotsize := 0, out := [] }
      { mydata := d, clust := clust, filesize := size, gotsize := 0, out := [] } where
  link := rfl
  run_le := le_rfl
  run j hj := by
    rw [Nat.le_zero.mp hj]
    rfl
  mydata := rfl
  geometry := ⟨rfl, rfl, rfl, rfl⟩
  endclust := rfl
  actsize := by rw [Nat.zero_add, Nat.one_mul]
  filesize := by rw [Nat.sub_zero, Nat.zero_mul, Nat.add_zero]
  plainsize := by rw [Nat.zero_mul, Nat.add_zero]
  gotsize := by rw [Nat.sub_zero, Nat.zero_mul]
  plaingot := by rw [Nat.zero_mul]
  out := by
    rw [Nat.zero_mul]
    rfl

/-- The next link of the chain. -/
theorem chain_succ (h : chain dev d clust i = some (e, c))
    (hcheck : checkClust (getFatent dev e c).1 (getFatent dev e c).2.fatsize = false) :
    chain dev d clust (i + 1) = some ((getFatent dev e c).2, (getFatent dev e c).1) := by
  rw [chain, h]
  simp only [Option.bind_eq_bind, Option.bind_some, hcheck, Bool.false_eq_true, if_false]

/-- Behind the first one, the links are clusters. -/
theorem one_lt_of_chain (h : chain dev d clust (i + 1) = some (e, c)) : 1 < c := by
  rw [chain] at h
  obtain ⟨⟨e₀, c₀⟩, -, h⟩ := Option.bind_eq_some_iff.mp h
  dsimp only at h
  split at h
  · cases h
  · rename_i hcheck
    cases h
    simp only [checkClust, Bool.or_eq_true, decide_eq_true_eq, not_or, Nat.not_le] at hcheck
    exact hcheck.1

theorem le16_lt {buf : Contents} {pos : Nat} : le16 buf pos < 65536 := by
  have hlow := (buf pos).toNat_lt
  have hhigh := (buf (pos + 1)).toNat_lt
  unfold le16
  omega

theorem fatEntry_lt {offset : Nat} : fatEntry d offset < 2 ^ 32 := by
  unfold fatEntry
  split
  · have hlow := @le16_lt d.fatbuf (4 * offset)
    have hhigh := @le16_lt d.fatbuf (4 * offset + 2)
    unfold le32
    omega
  split
  · have hentry := @le16_lt d.fatbuf (2 * offset)
    omega
  · have hval := @le16_lt d.fatbuf (2 * (offset * 3 / 4))
    dsimp only
    split
    · omega
    · omega
    · omega
    · omega

theorem getFatent_lt : (getFatent dev d c).1 < 2 ^ 32 := by
  unfold getFatent
  split
  · exact Nat.two_pow_pos 32
  dsimp only
  split
  · exact fatEntry_lt
  split
  · exact Nat.two_pow_pos 32
  · exact fatEntry_lt

/-- The sizes that go with a link. -/
theorem Behind.sizes (h : Behind dev d disk clust size i k s p) :
    k * d.bytesPerClust ≤ i * d.bytesPerClust ∧
      (i - k) * d.bytesPerClust = i * d.bytesPerClust - k * d.bytesPerClust ∧
      (i + 1) * d.bytesPerClust = i * d.bytesPerClust + d.bytesPerClust ∧
      s.actsize = k * d.bytesPerClust + d.bytesPerClust := by
  refine ⟨Nat.mul_le_mul_right _ h.run_le, Nat.sub_mul .., Nat.succ_mul .., ?_⟩
  rw [h.actsize, Nat.succ_mul]

/-- The run ends at the link. -/
theorem Behind.clust_eq (h : Behind dev d disk clust size i k s p) : p.clust = s.curclust + k := by
  have hlast := h.run k le_rfl
  rw [Nat.sub_add_cancel h.run_le, h.link] at hlast
  exact Option.some.inj hlast

/-- The clusters of the run stand one behind the other. -/
theorem Behind.run_fits (h : Behind dev d disk clust size i k s p)
    (hfits : ClustersFit dev d clust size) (hlt : (i + 1) * d.bytesPerClust < size) :
    (0 < s.curclust ∨ k = 0) ∧ ∀ j ≤ k, Fits dev d (s.curclust + j) := by
  constructor
  · rcases Nat.eq_zero_or_pos k with hzero | hpos
    · exact Or.inr hzero
    · have hone := h.run 1 hpos
      obtain ⟨⟨e, c⟩, hlink, hc⟩ := Option.map_eq_some_iff.mp hone
      have hlt := one_lt_of_chain hlink
      dsimp only at hc
      exact Or.inl (by omega)
  · intro j hj
    obtain ⟨⟨e, c⟩, hlink, hc⟩ := Option.map_eq_some_iff.mp (h.run j hj)
    dsimp only at hc
    have hindex : (i - k + j) * d.bytesPerClust ≤ i * d.bytesPerClust := by
      refine Nat.mul_le_mul_right _ ?_
      have := h.run_le
      omega
    obtain ⟨-, -, hsucc, -⟩ := h.sizes
    exact hc ▸ hfits _ e c hlink (by omega)

/-- What the plain reader reads at a link. -/
theorem Behind.plain_cluster (h : Behind dev d disk clust size i k s p) (hread : Reads dev disk) :
    getCluster dev p.mydata p.clust d.bytesPerClust =
      some (readAt disk (clusterPos dev d p.clust) d.bytesPerClust) := by
  rw [h.geometry.getCluster]
  exact getCluster_sectors hread (by simpa using bytesPerClust_mod (d := d) 1)

/-- Whole clusters that are read at once are those of the run. -/
theorem Behind.run_data (h : Behind dev d disk clust size i k s p)
    (hfits : ClustersFit dev d clust size) (hlt : (i + 1) * d.bytesPerClust < size) :
    s.out ++ readAt disk (clusterPos dev d s.curclust) s.actsize =
      p.out ++ readAt disk (clusterPos dev d p.clust) d.bytesPerClust := by
  obtain ⟨hpos, hall⟩ := h.run_fits hfits hlt
  rw [h.actsize, readAt_run k hpos hall, h.out, h.clust_eq, List.append_assoc]

/-- What the plain reader does in front of the size. -/
theorem Behind.plainStep_eq (h : Behind dev d disk clust size i k s p) (hread : Reads dev disk)
    (hsize : size < 2 ^ 32) (hlt : (i + 1) * d.bytesPerClust < size) :
    plainStep dev p =
      if checkClust (getFatent dev p.mydata p.clust).1
          (getFatent dev p.mydata p.clust).2.fatsize then
        .done (some ⟨(i + 1) * d.bytesPerClust,
          p.out ++ readAt disk (clusterPos dev d p.clust) d.bytesPerClust⟩)
      else
        .more
          { mydata := (getFatent dev p.mydata p.clust).2
            clust := (getFatent dev p.mydata p.clust).1
            filesize := p.filesize - d.bytesPerClust
            gotsize := (i + 1) * d.bytesPerClust
            out := p.out ++ readAt disk (clusterPos dev d p.clust) d.bytesPerClust } := by
  obtain ⟨-, -, hsucc, -⟩ := h.sizes
  have hplain := h.plainsize
  have hnot : ¬ p.filesize ≤ d.bytesPerClust := by omega
  have hgot : (p.gotsize + d.bytesPerClust) % 2 ^ 32 = (i + 1) * d.bytesPerClust := by
    rw [h.plaingot, ← hsucc, Nat.mod_eq_of_lt (by omega)]
  unfold plainStep
  rw [h.geometry.bytesPerClust, if_neg hnot, h.plain_cluster hread]
  dsimp only
  rw [hgot]

/-- What `get_contents` does in front of the size. -/
theorem Behind.step_eq (h : Behind dev d disk clust size i k s p) (hread : Reads dev disk)
    (hfits : ClustersFit dev d clust size)
    (hsize : size < 2 ^ 32) (hlt : (i + 1) * d.bytesPerClust < size) :
    getContentsStep dev s =
      if ((getFatent dev p.mydata p.clust).1 + 2 ^ 32 - 1) % 2 ^ 32 ≠ p.clust then
        if checkClust (getFatent dev p.mydata p.clust).1
            (getFatent dev p.mydata p.clust).2.fatsize then
          .done (some ⟨(i + 1) * d.bytesPerClust,
            p.out ++ readAt disk (clusterPos dev d p.clust) d.bytesPerClust⟩)
        else
          .more
            { mydata := (getFatent dev p.mydata p.clust).2
              curclust := (getFatent dev p.mydata p.clust).1
              endclust := (getFatent dev p.mydata p.clust).1
              actsize := d.bytesPerClust
              filesize := s.filesize - s.actsize
              gotsize := (i + 1) * d.bytesPerClust
              out := p.out ++ readAt disk (clusterPos dev d p.clust) d.bytesPerClust }
      else if checkClust (getFatent dev p.mydata p.clust).1
          (getFatent dev p.mydata p.clust).2.fatsize then
        .done (some ⟨(i - k) * d.bytesPerClust, s.out⟩)
      else
        .more
          { s with
            mydata := (getFatent dev p.mydata p.clust).2
            endclust := (getFatent dev p.mydata p.clust).1
            actsize := (s.actsize + d.bytesPerClust) % 2 ^ 32 } := by
  obtain ⟨hle, hsub, hsucc, hact⟩ := h.sizes
  have hfile := h.filesize
  have hgeometry : SameGeometry d (getFatent dev p.mydata p.clust).2 :=
    getFatent_geometry h.geometry
  have hmore : s.actsize < s.filesize := by omega
  have hgot : (s.gotsize + s.actsize) % 2 ^ 32 = (i + 1) * d.bytesPerClust := by
    rw [h.gotsize]
    omega
  have hcluster : getCluster dev (getFatent dev p.mydata p.clust).2 s.curclust s.actsize =
      some (readAt disk (clusterPos dev d s.curclust) s.actsize) := by
    rw [hgeometry.getCluster]
    refine getCluster_sectors hread ?_
    rw [h.actsize]
    exact bytesPerClust_mod (k + 1)
  have hdata := h.run_data hfits hlt
  unfold getContentsStep
  rw [if_pos hmore, h.mydata, h.endclust]
  dsimp only
  rw [hgeometry.bytesPerClust, h.gotsize]
  by_cases hapart : ((getFatent dev p.mydata p.clust).1 + 2 ^ 32 - 1) % 2 ^ 32 ≠ p.clust
  · rw [if_pos hapart, if_pos hapart]
    unfold getit
    dsimp only
    rw [hcluster]
    dsimp only
    rw [getFatent_again hread, ← h.gotsize, hgot, hdata, hgeometry.bytesPerClust]
  · rw [if_neg hapart, if_neg hapart]

/-- Both go on at a link. -/
theorem Behind.next (h : Behind dev d disk clust size i k s p) (hread : Reads dev disk)
    (hfits : ClustersFit dev d clust size)
    (hsize : size < 2 ^ 32) (hflow : NoOverflow dev d clust size)
    (hlt : (i + 1) * d.bytesPerClust < size)
    (hcheck : checkClust (getFatent dev p.mydata p.clust).1
      (getFatent dev p.mydata p.clust).2.fatsize = false) :
    ∃ k' s' p', getContentsStep dev s = .more s' ∧ plainStep dev p = .more p' ∧
      Behind dev d disk clust size (i + 1) k' s' p' := by
  obtain ⟨hle, hsub, hsucc, hact⟩ := h.sizes
  have hfile := h.filesize
  have hplain := h.plainsize
  have hlink := chain_succ h.link hcheck
  have hgeometry : SameGeometry d (getFatent dev p.mydata p.clust).2 :=
    getFatent_geometry h.geometry
  have hsecond : (i + 1 + 1) * d.bytesPerClust = (i + 1) * d.bytesPerClust + d.bytesPerClust :=
    Nat.succ_mul ..
  rw [h.plainStep_eq hread hsize hlt, h.step_eq hread hfits hsize hlt, hcheck]
  simp only [Bool.false_eq_true, if_false]
  by_cases hapart : ((getFatent dev p.mydata p.clust).1 + 2 ^ 32 - 1) % 2 ^ 32 ≠ p.clust
  · rw [if_pos hapart]
    refine ⟨0, _, _, rfl, rfl, ?_⟩
    exact
      { link := hlink
        run_le := Nat.zero_le _
        run := fun j hj => by rw [Nat.le_zero.mp hj, Nat.sub_zero, Nat.add_zero, hlink]; rfl
        mydata := rfl
        geometry := hgeometry
        endclust := rfl
        actsize := by rw [Nat.zero_add, Nat.one_mul]
        filesize := by
          dsimp only
          rw [Nat.sub_zero]
          omega
        plainsize := by
          dsimp only
          omega
        gotsize := rfl
        plaingot := rfl
        out := by
          dsimp only
          rw [Nat.zero_mul]
          exact (List.append_nil _).symm }
  · rw [if_neg hapart]
    have hnext : (getFatent dev p.mydata p.clust).1 = p.clust + 1 := by
      have hlt32 := @getFatent_lt dev p.mydata p.clust
      have hone := one_lt_of_chain hlink
      omega
    have hrun : ∀ j ≤ k + 1, (chain dev d clust (i + 1 - (k + 1) + j)).map Prod.snd =
        some (s.curclust + j) := by
      intro j hj
      rw [Nat.succ_sub_succ]
      rcases Nat.lt_or_ge k j with hkj | hkj
      · have hj : j = k + 1 := by omega
        have hindex : i - k + (k + 1) = i + 1 := by
          have := h.run_le
          omega
        rw [hj, hindex, hlink, Option.map_some, hnext, h.clust_eq]
        rfl
      · exact h.run j hkj
    have hfit : (k + 1 + 1) * d.bytesPerClust < 2 ^ 32 := by
      have hthird : (k + 1 + 1) * d.bytesPerClust = (k + 1) * d.bytesPerClust + d.bytesPerClust :=
        Nat.succ_mul ..
      rcases Nat.eq_or_lt_of_le h.run_le with heq | hlt
      · -- The run starts at the first link.
        subst heq
        have hfirst := h.run 0 (Nat.zero_le _)
        rw [Nat.sub_self] at hfirst
        have hclust : clust = s.curclust := Option.some.inj hfirst
        refine hflow (k + 1) (fun j hj => ?_) hlt
        have hlinkj := hrun j hj
        rwa [Nat.sub_self, Nat.zero_add, ← hclust] at hlinkj
      · have hmul : (k + 1) * d.bytesPerClust ≤ i * d.bytesPerClust :=
          Nat.mul_le_mul_right _ hlt
        omega
    have hwrap : (s.actsize + d.bytesPerClust) % 2 ^ 32 = (k + 1 + 1) * d.bytesPerClust := by
      rw [h.actsize, ← Nat.succ_mul, Nat.mod_eq_of_lt hfit]
    refine ⟨k + 1, _, _, rfl, rfl, ?_⟩
    obtain ⟨hpos, hall⟩ := h.run_fits hfits hlt
    exact
      { link := hlink
        run_le := Nat.succ_le_succ h.run_le
        run := hrun
        mydata := rfl
        geometry := hgeometry
        endclust := rfl
        actsize := hwrap
        filesize := by
          dsimp only
          rw [Nat.succ_sub_succ]
          exact hfile
        plainsize := by
          dsimp only
          omega
        gotsize := by
          dsimp only
          rw [Nat.succ_sub_succ]
          exact h.gotsize
        plaingot := rfl
        out := by
          dsimp only
          rw [readAt_run k hpos hall, h.out, h.clust_eq, List.append_assoc] }

/-- Both come to their end where the size is reached. -/
theorem Behind.last (h : Behind dev d disk clust size i k s p) (hread : Reads dev disk)
    (hend : size ≤ (i + 1) * d.bytesPerClust) :
    ∃ r, getContentsStep dev s = .done r ∧ plainStep dev p = .done r := by
  obtain ⟨hle, hsub, hsucc, hact⟩ := h.sizes
  have hfile := h.filesize
  have hplain := h.plainsize
  obtain ⟨bytes, hbytes⟩ := exists_getCluster (d := d) (c := p.clust) (n := p.filesize) hread
  have hrest : s.filesize - (s.actsize - d.bytesPerClust) = p.filesize := by omega
  have hact' : s.actsize - d.bytesPerClust = k * d.bytesPerClust := by omega
  have hclusters : getCluster dev d s.curclust (k * d.bytesPerClust) =
      some (readAt disk (clusterPos dev d s.curclust) (k * d.bytesPerClust)) :=
    getCluster_sectors hread (bytesPerClust_mod k)
  refine ⟨some ⟨(p.gotsize + p.filesize) % 2 ^ 32, p.out ++ bytes⟩, ?_, ?_⟩
  · unfold getContentsStep
    rw [if_neg (by omega)]
    unfold getRest
    rw [h.mydata, h.endclust, h.geometry.bytesPerClust]
    dsimp only
    rw [hrest, hact', h.geometry.getCluster, h.geometry.getCluster, hclusters, hbytes]
    simp only [Option.bind_eq_bind, Option.bind_some, Option.pure_def]
    rw [h.out, h.plaingot, h.gotsize, hsub, Nat.sub_add_cancel hle]
  · unfold plainStep
    rw [h.geometry.bytesPerClust, if_pos (by omega), h.geometry.getCluster, hbytes]
    rfl

/-- Both come to their end where the chain does. -/
theorem Behind.broken (h : Behind dev d disk clust size i k s p) (hread : Reads dev disk)
    (hfits : ClustersFit dev d clust size)
    (hsize : size < 2 ^ 32) (hlt : (i + 1) * d.bytesPerClust < size)
    (hcheck : checkClust (getFatent dev p.mydata p.clust).1
      (getFatent dev p.mydata p.clust).2.fatsize = true) :
    plainStep dev p = .done (some ⟨(i + 1) * d.bytesPerClust,
        p.out ++ readAt disk (clusterPos dev d p.clust) d.bytesPerClust⟩) ∧
      getContentsStep dev s = .done (some
        (if ((getFatent dev p.mydata p.clust).1 + 2 ^ 32 - 1) % 2 ^ 32 ≠ p.clust then
          ⟨(i + 1) * d.bytesPerClust,
            p.out ++ readAt disk (clusterPos dev d p.clust) d.bytesPerClust⟩
        else ⟨(i - k) * d.bytesPerClust, s.out⟩)) := by
  constructor
  · rw [h.plainStep_eq hread hsize hlt, hcheck]
    exact if_pos rfl
  · rw [h.step_eq hread hfits hsize hlt, hcheck, if_pos rfl, if_pos rfl]
    split
    · rfl
    · rfl

/-! ## Whole readings -/

theorem rounds_mono {σ : Type} {step : σ → Round σ} {x : σ} {r : Option FatRead} {fuel : Nat}
    (h : rounds step fuel x = some r) (more : Nat) : rounds step (fuel + more) x = some r := by
  induction fuel generalizing x with
  | zero => cases h
  | succ fuel ih =>
    rw [Nat.succ_add, rounds]
    rw [rounds] at h
    split
    · rename_i result heq
      rwa [heq] at h
    · rename_i y heq
      rw [heq] at h
      exact ih h

/-- A reading has one result. -/
theorem rounds_inj {σ : Type} {step : σ → Round σ} {x : σ} {r r' : Option FatRead}
    {fuel fuel' : Nat} (h : rounds step fuel x = some r) (h' : rounds step fuel' x = some r') :
    r = r' := by
  have hfirst := rounds_mono h fuel'
  have hsecond := rounds_mono h' fuel
  rw [Nat.add_comm, hsecond] at hfirst
  exact (Option.some.inj hfirst).symm

theorem rounds_one {σ : Type} {step : σ → Round σ} {x : σ} {r : Option FatRead}
    (h : step x = .done r) : rounds step 1 x = some r := by
  rw [rounds, h]

theorem bytesPerClust_pos (h : d.clustSize ≠ 0) : 0 < d.bytesPerClust := by
  have hpos : d.clustSize.toNat ≠ 0 := fun hzero => h (UInt16.toNat_inj.mp hzero)
  exact Nat.mul_pos (Nat.pos_of_ne_zero hpos) (by decide)

/-- If nothing is dropped, both make the same rounds. -/
theorem Behind.rounds_eq (h : Behind dev d disk clust size i k s p) (hread : Reads dev disk)
    (hfits : ClustersFit dev d clust size) (hsize : size < 2 ^ 32)
    (hflow : NoOverflow dev d clust size)
    (hends : d.bytesPerClust = 0 ∨ EndsApart dev d clust size) (fuel : Nat) :
    rounds (getContentsStep dev) fuel s = rounds (plainStep dev) fuel p := by
  induction fuel generalizing i k s p with
  | zero => rfl
  | succ fuel ih =>
    rw [rounds, rounds]
    rcases Nat.lt_or_ge ((i + 1) * d.bytesPerClust) size with hlt | hge
    · cases hcheck : checkClust (getFatent dev p.mydata p.clust).1
          (getFatent dev p.mydata p.clust).2.fatsize with
      | false =>
        obtain ⟨k', s', p', hs, hp, hnext⟩ := h.next hread hfits hsize hflow hlt hcheck
        rw [hs, hp]
        exact ih hnext
      | true =>
        obtain ⟨hp, hs⟩ := h.broken hread hfits hsize hlt hcheck
        rw [hp, hs]
        dsimp only
        split
        · rfl
        · rename_i hjoined
          rcases hends with hzero | hends
          · rw [h.out, hzero, Nat.mul_zero, Nat.mul_zero, Nat.mul_zero]
            show some (some (FatRead.mk 0 s.out)) = some (some ⟨0, s.out ++ [] ++ []⟩)
            rw [List.append_nil, List.append_nil]
          · rw [(getFatent_geometry h.geometry).fatsize] at hcheck
            exact absurd hjoined (not_not_intro (hends i _ _ h.link hlt hcheck))
    · obtain ⟨r, hs, hp⟩ := h.last hread hge
      rw [hs, hp]

/-- Both come to every link in front of the size. -/
theorem exists_behind (hread : Reads dev disk) (hfits : ClustersFit dev d clust size)
    (hsize : size < 2 ^ 32) (hflow : NoOverflow dev d clust size) {s₀ : Reading} {p₀ : PlainReading}
    (hstart : Behind dev d disk clust size 0 0 s₀ p₀) (hi : i = 0 ∨ i * d.bytesPerClust < size)
    (hlink : chain dev d clust i = some (e, c)) :
    ∃ k s p, Behind dev d disk clust size i k s p ∧
      ∀ fuel, rounds (getContentsStep dev) (i + fuel) s₀ = rounds (getContentsStep dev) fuel s ∧
        rounds (plainStep dev) (i + fuel) p₀ = rounds (plainStep dev) fuel p := by
  induction i generalizing e c with
  | zero =>
    refine ⟨0, s₀, p₀, hstart, fun fuel => ?_⟩
    rw [Nat.zero_add]
    exact ⟨rfl, rfl⟩
  | succ i ih =>
    have hlt : (i + 1) * d.bytesPerClust < size := hi.resolve_left (Nat.succ_ne_zero i)
    have hsucc : (i + 1) * d.bytesPerClust = i * d.bytesPerClust + d.bytesPerClust :=
      Nat.succ_mul ..
    rw [chain] at hlink
    obtain ⟨⟨e₀, c₀⟩, hbefore, hlink⟩ := Option.bind_eq_some_iff.mp hlink
    obtain ⟨k, s, p, hbehind, hrounds⟩ := ih (Or.inr (by omega)) hbefore
    have hsame : (p.mydata, p.clust) = (e₀, c₀) := Option.some.inj (hbehind.link.symm.trans hbefore)
    obtain ⟨rfl, rfl⟩ := Prod.mk.inj hsame
    dsimp only at hlink
    split at hlink
    · cases hlink
    · rename_i hcheck
      obtain ⟨k', s', p', hs, hp, hnext⟩ :=
        hbehind.next hread hfits hsize hflow hlt (Bool.eq_false_iff.mpr hcheck)
      refine ⟨k', s', p', hnext, fun fuel => ?_⟩
      obtain ⟨hfirst, hsecond⟩ := hrounds (fuel + 1)
      rw [Nat.add_right_comm, Nat.add_assoc, hfirst, hsecond, rounds, rounds, hs, hp]
      exact ⟨rfl, rfl⟩

/-- The plain reader comes to its end. -/
theorem plain_returns {fuel : Nat} (hgeometry : SameGeometry d p.mydata)
    (hfuel : p.filesize ≤ (fuel + 1) * d.bytesPerClust) :
    ∃ r, rounds (plainStep dev) (fuel + 1) p = some r := by
  induction fuel generalizing p with
  | zero =>
    rw [Nat.zero_add, Nat.one_mul] at hfuel
    rw [rounds, plainStep, hgeometry.bytesPerClust, if_pos hfuel]
    exact ⟨_, rfl⟩
  | succ fuel ih =>
    have hsucc : (fuel + 1 + 1) * d.bytesPerClust =
        (fuel + 1) * d.bytesPerClust + d.bytesPerClust := Nat.succ_mul ..
    rw [rounds, plainStep, hgeometry.bytesPerClust]
    split
    · rename_i hdone
      split at hdone
      · exact ⟨_, rfl⟩
      split at hdone
      · exact ⟨_, rfl⟩
      dsimp only at hdone
      split at hdone
      · exact ⟨_, rfl⟩
      · cases hdone
    · rename_i p' hmore
      split at hmore
      · cases hmore
      split at hmore
      · cases hmore
      dsimp only at hmore
      split at hmore
      · cases hmore
      · cases hmore
        refine ih (getFatent_geometry hgeometry) ?_
        dsimp only
        omega

theorem limitedSize_lt {dent : DirEntry} {maxsize : Nat} : limitedSize dent maxsize < 2 ^ 32 := by
  have hlt := dent.size.toNat_lt
  unfold limitedSize
  split
  · omega
  · exact hlt

/-- `get_contents` reads what the plain reader reads if the chain does not end in front of the size
with the number behind its cluster, and only then, if no single run holds 4 GiB. -/
theorem getContents_agrees {dent : DirEntry} {maxsize : Nat} (hread : Reads dev disk)
    (hfits : ClustersFit dev d (startOf d dent) (limitedSize dent maxsize)) :
    (NoOverflow dev d (startOf d dent) (limitedSize dent maxsize) ∧
      (d.clustSize = 0 ∨ EndsApart dev d (startOf d dent) (limitedSize dent maxsize)) →
        Agrees dev d dent maxsize) ∧
    (NoOverflow dev d (startOf d dent) (limitedSize dent maxsize) → Agrees dev d dent maxsize →
      d.clustSize = 0 ∨ EndsApart dev d (startOf d dent) (limitedSize dent maxsize)) := by
  have hsize := @limitedSize_lt dent maxsize
  have hstart := @behind_start dev d disk (startOf d dent) (limitedSize dent maxsize)
  constructor
  · rintro ⟨hflow, hends⟩
    have hbytes : d.bytesPerClust = 0 ∨
        EndsApart dev d (startOf d dent) (limitedSize dent maxsize) := by
      refine hends.imp (fun hzero => ?_) id
      rw [FsData.bytesPerClust, hzero]
      rfl
    have heq := hstart.rounds_eq hread hfits hsize hflow hbytes
    refine ⟨fun hpos => ?_, fun r => exists_congr fun fuel => ?_⟩
    · have hfuel : limitedSize dent maxsize ≤
          (limitedSize dent maxsize + 1) * d.bytesPerClust :=
        (Nat.le_succ _).trans (Nat.le_mul_of_pos_right _ (bytesPerClust_pos hpos))
      obtain ⟨r, hr⟩ := @plain_returns dev d ⟨d, startOf d dent, limitedSize dent maxsize, 0, []⟩ _
        ⟨rfl, rfl, rfl, rfl⟩ hfuel
      exact ⟨r, _, (heq _).trans hr⟩
    · exact iff_of_eq (congrArg (· = some r) (heq fuel))
  · intro hflow hagrees
    by_contra hnot
    obtain ⟨hclust, hnot⟩ := not_or.mp hnot
    unfold EndsApart at hnot
    push Not at hnot
    obtain ⟨i, e, c, hlink, hlt, hcheck, hjoined⟩ := hnot
    have hi : i * d.bytesPerClust ≤ (i + 1) * d.bytesPerClust :=
      Nat.mul_le_mul_right _ (Nat.le_succ i)
    obtain ⟨k, s, p, hbehind, hrounds⟩ :=
      exists_behind hread hfits hsize hflow hstart (Or.inr (by omega)) hlink
    have hsame : (p.mydata, p.clust) = (e, c) := Option.some.inj (hbehind.link.symm.trans hlink)
    obtain ⟨rfl, rfl⟩ := Prod.mk.inj hsame
    rw [← (getFatent_geometry hbehind.geometry).fatsize] at hcheck
    obtain ⟨hplain, hstep⟩ := hbehind.broken hread hfits hsize hlt hcheck
    rw [if_neg (not_not_intro hjoined)] at hstep
    obtain ⟨hfirst, hsecond⟩ := hrounds 1
    have hmerged := hfirst.trans (rounds_one hstep)
    obtain ⟨fuel, hfuel⟩ := (hagrees.2 _).mp ⟨_, hmerged⟩
    have hres := rounds_inj hfuel (hsecond.trans (rounds_one hplain))
    have hgot : (i - k) * d.bytesPerClust = (i + 1) * d.bytesPerClust :=
      congrArg FatRead.gotsize (Option.some.inj hres)
    have hindex := Nat.eq_of_mul_eq_mul_right (bytesPerClust_pos hclust) hgot
    omega

/-! ## A large FAT16 volume -/

/-- The disk: one entry of the FAT behind the boot sector, with the number behind its cluster. -/
def diskWith (cluster entry : Nat) : Contents := fun a =>
  if a = sectorSize + 2 * cluster then UInt8.ofNat (entry % 256)
  else if a = sectorSize + 2 * cluster + 1 then UInt8.ofNat (entry / 256)
  else UInt8.ofNat (a / sectorSize)

def devWith (disk : Contents) : BlockDev :=
  ⟨0, fun start count => some (readAt disk (start * sectorSize) (count * sectorSize))⟩

theorem reads_devWith {disk : Contents} : Reads (devWith disk) disk := fun _ _ => rfl

/-- Clusters of one sector, a FAT of 256 sectors and a root directory of 32. -/
def fat16 : FsData where
  fatbuf := fun _ => 0
  fatsize := 16
  fatlength := 256
  fatSect := 1
  rootdirSect := 257
  clustSize := 1
  dataBegin := 287
  fatbufnum := 2 ^ 32 - 1

/-- A file of 600 bytes. -/
def fileAt (start : UInt16) : DirEntry := ⟨[], [], 0, 0, start, 600⟩

theorem getFatent_lt16 (h : d.fatsize = 16) : (getFatent dev d c).1 < 65536 := by
  have hentry : ∀ e : FsData, e.fatsize = 16 → ∀ offset, fatEntry e offset < 65536 := by
    intro e he offset
    unfold fatEntry
    rw [if_neg (by rw [he]; decide), if_pos he]
    exact le16_lt
  unfold getFatent
  split
  · exact Nat.succ_pos _
  dsimp only
  split
  · exact hentry d h _
  split
  · exact Nat.succ_pos _
  · rename_i hsome
    obtain ⟨data, -, rfl⟩ := Option.map_eq_some_iff.mp hsome
    exact hentry { d with fatbuf := storeAt d.fatbuf 0 data, fatbufnum := _ } h _

theorem clustersFit_fat16 (hclust : clust < 65536) (hdev : dev.partOffset = 0) :
    ClustersFit dev fat16 clust size := by
  have hchain : ∀ i e c, chain dev fat16 clust i = some (e, c) →
      SameGeometry fat16 e ∧ c < 65536 := by
    intro i
    induction i with
    | zero =>
      intro e c hlink
      cases hlink
      exact ⟨⟨rfl, rfl, rfl, rfl⟩, hclust⟩
    | succ i ih =>
      intro e c hlink
      rw [chain] at hlink
      obtain ⟨⟨e₀, c₀⟩, hbefore, hlink⟩ := Option.bind_eq_some_iff.mp hlink
      obtain ⟨hgeometry, -⟩ := ih _ _ hbefore
      dsimp only at hlink
      split at hlink
      · cases hlink
      · cases hlink
        exact ⟨getFatent_geometry hgeometry, getFatent_lt16 hgeometry.fatsize⟩
  intro i e c hlink _
  obtain ⟨-, hlt⟩ := hchain i e c hlink
  have hbegin : fat16.dataBegin.toInt = 287 := rfl
  have hsize : (fat16.clustSize.toNat : Int) = 1 := rfl
  unfold Fits
  rw [hdev, hbegin, hsize]
  omega

/-- A file of two clusters. -/
theorem getContents_agrees_two : Agrees (devWith (diskWith 2 3)) fat16 (fileAt 2) 0 := by
  have hflow : ∀ m, m * 512 < 600 → (m + 1) * 512 < 2 ^ 32 := by
    intro m hm
    have hone : m + 1 ≤ 2 := by omega
    exact (Nat.mul_le_mul_right 512 hone).trans_lt (by decide)
  have hfirst : ∀ i, (i + 1) * 512 < 600 → i = 0 := by
    intro i hi
    omega
  have hbytes : fat16.bytesPerClust = 512 := by decide
  have hsize : limitedSize (fileAt 2) 0 = 600 := by decide
  refine (getContents_agrees reads_devWith (clustersFit_fat16 (by decide) rfl)).1
    ⟨fun m _ hm => ?_, Or.inr fun i e c hlink hlt hcheck => ?_⟩
  · rw [hbytes, hsize] at hm
    rw [hbytes]
    exact hflow m hm
  · rw [hbytes, hsize] at hlt
    cases hfirst i hlt
    cases hlink
    have hgood : checkClust (getFatent (devWith (diskWith 2 3)) fat16 2).1 16 = false := by
      decide +kernel
    exact absurd (hcheck.symm.trans hgood) (by decide)

/-- Behind cluster 0xffef stands the number 0xfff0, which is no cluster: its bytes are not read. -/
theorem getContents_drops : Reads (devWith (diskWith 0xffef 0xfff0)) (diskWith 0xffef 0xfff0) ∧
    ClustersFit (devWith (diskWith 0xffef 0xfff0)) fat16 0xffef 600 ∧
    getContents (devWith (diskWith 0xffef 0xfff0)) fat16 (fileAt 0xffef) 0 1 =
      some (some ⟨0, []⟩) ∧
    (plainContents (devWith (diskWith 0xffef 0xfff0)) fat16 (fileAt 0xffef) 0 1).map
      (fun r => r.map FatRead.gotsize) = some (some 512) ∧
    ¬ Agrees (devWith (diskWith 0xffef 0xfff0)) fat16 (fileAt 0xffef) 0 := by
  have hmerged : getContents (devWith (diskWith 0xffef 0xfff0)) fat16 (fileAt 0xffef) 0 1 =
      some (some ⟨0, []⟩) := by decide +kernel
  have hplain : (plainContents (devWith (diskWith 0xffef 0xfff0)) fat16 (fileAt 0xffef) 0 1).map
      (fun r => r.map FatRead.gotsize) = some (some 512) := by decide +kernel
  refine ⟨reads_devWith, clustersFit_fat16 (by decide) rfl, hmerged, hplain, fun hagrees => ?_⟩
  obtain ⟨r, hr, hgot⟩ := Option.map_eq_some_iff.mp hplain
  obtain ⟨fuel, hfuel⟩ := (hagrees.2 _).mp ⟨1, hmerged⟩
  rw [← rounds_inj hfuel hr] at hgot
  cases hgot

end Readers

end UBoot.Fs.Fat
