import Mathlib.Tactic.Ring
import UBoot.Fs.FatRoot

/-!
# Looking up a name in a FAT volume

What the volume says of its root directory and of its clusters, and what `do_fat_read` makes of it.
The first sector of a cluster is right exactly if the data begins in front of a bound that comes
from 16 bits with a sign.  The root directory is searched as it should be if it is in one piece
behind the FATs, has an end marker, has no long name that runs over the end of what is read, and
has no other name that is read as the one looked for.
-/

namespace UBoot.Fs.Fat

open UBoot.Lib

variable {dev : BlockDev} {disk : Contents} {bs : BootSector} {fatsize : Int} {addrs : List Nat}
  {items : List Item} {rest : List Bytes} {fatbuf : Contents} {name : Bytes}

/-! ## The volume -/

/-- The sectors of a FAT. -/
def fatSectors (bs : BootSector) (fatsize : Int) : Nat :=
  if fatsize = 32 then bs.fat32Length.toNat else bs.fatLength.toNat

/-- The sector behind the FATs. -/
def rootStart (bs : BootSector) (fatsize : Int) : Nat :=
  bs.reserved.toNat + fatSectors bs fatsize * bs.fats.toNat

/-- The sector behind the root directory, if this is not a chain of clusters. -/
def dataStart (bs : BootSector) (fatsize : Int) : Nat :=
  rootStart bs fatsize + if fatsize = 32 then 0 else rootdirSize bs fatsize

/-- The first sector of a cluster. -/
def firstSector (bs : BootSector) (fatsize : Int) (c : Nat) : Nat :=
  dataStart bs fatsize + (c - 2) * bs.clusterSize.toNat

/-- The entry of a cluster in a FAT32. -/
def fat32Entry (dev : BlockDev) (disk : Contents) (bs : BootSector) (c : Nat) : Nat :=
  le32 disk ((dev.partOffset + bs.reserved.toNat) * sectorSize + 4 * c) % 2 ^ 28

/-- A chain of clusters, up to an end mark. -/
def IsChain (next : Nat → Nat) : List Nat → Prop
  | [] => False
  | [c] => 2 ≤ c ∧ 0x0ffffff8 ≤ next c
  | c :: c' :: clusters => 2 ≤ c ∧ next c = c' ∧ IsChain next (c' :: clusters)

/-- So many entries, one behind the other from a sector on. -/
def entriesFrom (dev : BlockDev) (sector count : Nat) : List Nat :=
  (List.range count).map fun i => (dev.partOffset + sector) * sectorSize + 32 * i

/-- Where the entries of the root directory are: behind the FATs, or in the clusters of its
chain. -/
def RootAddrs (dev : BlockDev) (disk : Contents) (bs : BootSector) (fatsize : Int)
    (addrs : List Nat) : Prop :=
  if fatsize = 32 then
    ∃ clusters, clusters.head? = some bs.rootCluster.toNat ∧
      IsChain (fat32Entry dev disk bs) clusters ∧ addrs = clusters.flatMap fun c =>
        entriesFrom dev (firstSector bs fatsize c) (16 * bs.clusterSize.toNat)
  else addrs = entriesFrom dev (rootStart bs fatsize) bs.dirEntries

/-- A well-formed volume, with the addresses of the entries of its root directory, what is in them,
and what is behind: nothing, or an end marker and whatever follows.  A device has fewer than 2 ^ 32
sectors, and a FAT32 has entries of no more than 28 bits. -/
structure Volume (dev : BlockDev) (disk : Contents) (bs : BootSector) (fatsize : Int)
    (addrs : List Nat) (items : List Item) (rest : List Bytes) : Prop where
  reads : Reads dev disk
  boot : readBootsectandvi dev = some (bs, fatsize)
  clusters : LegalClusters bs
  reserved : bs.reserved ≠ 0
  fats : bs.fats ≠ 0
  fatSectors : 0 < fatSectors bs fatsize ∧ fatSectors bs fatsize ≤ 2 ^ 21
  dirEntries : fatsize ≠ 32 → bs.dirEntries < 2 ^ 16 ∧ bs.dirEntries % 16 = 0
  root : RootAddrs dev disk bs fatsize addrs
  device : ∀ a ∈ addrs, a / sectorSize + 1 < 2 ^ 32
  content : addrs.map (fun a => readAt disk a 32) = items.flatMap Item.slots ++ rest
  entries : Entries items rest

/-- The root directory is what `do_fat_read` takes it to be, as far as it is searched for a name. -/
structure TakenRight (dev : BlockDev) (disk : Contents) (bs : BootSector) (fatsize : Int)
    (addrs : List Nat) (items : List Item) (rest : List Bytes) (name : Bytes) : Prop where
  small : dataStart bs fatsize < 2 ^ 15 + 2 * bs.clusterSize.toNat
  inOrder : ∀ i ≤ stopIndex name items, ∀ a, addrs[i]? = some a →
    a = (dev.partOffset + rootStart bs fatsize) * sectorSize + 32 * i
  ends : lookup name items = none → ∃ m, rest.head? = some m ∧ IsMarker m
  readable : Readable name (16 * bs.clusterSize.toNat)
    (slotAt disk ((dev.partOffset + rootStart bs fatsize) * sectorSize)) 0 items

/-- `do_fat_read` uses the right first sector for each cluster. -/
def SectorsRight (bs : BootSector) (fatsize : Int) (fatbuf : Contents) : Prop :=
  ∀ c, 2 ≤ c → firstSector bs fatsize c < 2 ^ 32 →
    startSect (fsData bs fatsize fatbuf) c = firstSector bs fatsize c

/-- The entries of the root directory that are to be examined for a name. -/
def ExaminesRoot (dev : BlockDev) (addrs : List Nat) (items : List Item) (name : Bytes)
    (log : List Access) : Prop :=
  ∀ a, a ∈ examined dev 0 log ↔ ∃ i ≤ stopIndex name items, addrs[i]? = some a

/-- What is returned of the file that has been found; -1 for none. -/
def readFound (dev : BlockDev) (d : FsData) (maxsize fuel : Nat) :
    Option Bytes → Option (Option FatRead)
  | none => some none
  | some dent => getContents dev d (dirEntry dent) maxsize fuel

/-- `do_fat_read` searches the root directory: it comes to an end, having looked at the entries up
to the file or the end marker, with the first file of the name; and then it reads that file. -/
def LooksUp (dev : BlockDev) (bs : BootSector) (fatsize : Int) (fatbuf : Contents)
    (addrs : List Nat) (items : List Item) (name : Bytes) : Prop :=
  ∀ bufs, ∃ n, ∀ fuel ≥ n,
    (∀ dols ≠ .root, ∃ log w, ExaminesRoot dev addrs items name log ∧
      rootSectors dev name dols fuel (fsData bs fatsize fatbuf).rootdirSect.toNat
        ⟨fsData bs fatsize fatbuf, bufs⟩ = (log, some (.done (lookup name items), w))) ∧
    ∀ maxsize filename, (skipDelims filename).map toLower = name →
      ∃ log, ExaminesRoot dev addrs items name log ∧
        doFatRead dev fuel maxsize fatbuf bufs filename false =
          (log, readFound dev (fsData bs fatsize fatbuf) maxsize fuel (lookup name items))

/-! ## The sectors of the clusters -/

theorem rootdirSect_toNat (bs : BootSector) (fatsize : Int) (fatbuf : Contents) :
    (fsData bs fatsize fatbuf).rootdirSect.toNat = rootStart bs fatsize % 2 ^ 16 := by
  have hsect : (fsData bs fatsize fatbuf).rootdirSect = UInt16.ofNat (bs.reserved.toNat +
      (if fatsize = 32 then bs.fat32Length.toUInt16 else bs.fatLength).toNat * bs.fats.toNat) := rfl
  rw [hsect, UInt16.toNat_ofNat', rootStart, fatSectors]
  by_cases h : fatsize = 32
  · rw [if_pos h, if_pos h, UInt32.toNat_toUInt16, Nat.add_mod, Nat.mod_mul_mod, ← Nat.add_mod]
  · rw [if_neg h, if_neg h]

theorem clustSize_toNat (bs : BootSector) (fatsize : Int) (fatbuf : Contents) :
    (fsData bs fatsize fatbuf).clustSize.toNat = bs.clusterSize.toNat := by
  have hclust : (fsData bs fatsize fatbuf).clustSize = bs.clusterSize.toUInt16 := rfl
  rw [hclust, UInt8.toNat_toUInt16]

/-- `data_begin` keeps 16 bits of the right value. -/
theorem dataBegin_toInt (bs : BootSector) (fatsize : Int) (fatbuf : Contents) :
    (fsData bs fatsize fatbuf).dataBegin.toInt =
      ((dataStart bs fatsize : Int) - 2 * bs.clusterSize.toNat).bmod (2 ^ 16) := by
  have hroot := rootdirSect_toNat bs fatsize fatbuf
  have hclust := clustSize_toNat bs fatsize fatbuf
  have hbegin : (fsData bs fatsize fatbuf).dataBegin = Int16.ofInt (if fatsize = 32 then
      (fsData bs fatsize fatbuf).rootdirSect.toNat - (fsData bs fatsize fatbuf).clustSize.toNat * 2
    else (fsData bs fatsize fatbuf).rootdirSect.toNat + rootdirSize bs fatsize -
      (fsData bs fatsize fatbuf).clustSize.toNat * 2) := rfl
  rw [hbegin, hroot, hclust, Int16.toInt_ofInt, dataStart, show Int16.size = 2 ^ 16 from rfl]
  have hbmod (x y : Nat) (z : Int) (h : x = y % 2 ^ 16) :
      ((x : Int) + z).bmod (2 ^ 16) = ((y : Int) + z).bmod (2 ^ 16) := by
    simp only [Int.bmod_def]
    omega
  by_cases h : fatsize = 32
  · rw [if_pos h, if_pos h, Nat.add_zero, Int.sub_eq_add_neg, hbmod _ _ _ rfl]
    congr 1
    omega
  · rw [if_neg h, if_neg h, Int.add_sub_assoc, hbmod _ _ _ rfl]
    congr 1
    push_cast
    omega

theorem dataStart_lt (hv : Volume dev disk bs fatsize addrs items rest) :
    dataStart bs fatsize < 2 ^ 30 := by
  have hfats : bs.fats.toNat < 256 := bs.fats.toNat_lt
  have hreserved : bs.reserved.toNat < 2 ^ 16 := bs.reserved.toNat_lt
  have hsectors := hv.fatSectors.2
  have hprod : fatSectors bs fatsize * bs.fats.toNat ≤ 2 ^ 21 * 255 :=
    Nat.mul_le_mul hsectors (by omega)
  have hrest : (if fatsize = 32 then 0 else rootdirSize bs fatsize) < 2 ^ 13 := by
    by_cases h : fatsize = 32
    · rw [if_pos h]
      omega
    · have hentries := (hv.dirEntries h).1
      rw [if_neg h, rootdirSize, if_neg h, sectorSize]
      omega
  rw [dataStart, rootStart]
  omega

/-- The first sectors are right exactly if the data begins in front of the bound. -/
theorem sectorsRight_iff (hv : Volume dev disk bs fatsize addrs items rest) :
    SectorsRight bs fatsize fatbuf ↔
      dataStart bs fatsize < 2 ^ 15 + 2 * bs.clusterSize.toNat := by
  have hlt := dataStart_lt hv
  have hclust : bs.clusterSize.toNat < 256 := bs.clusterSize.toNat_lt
  have hbegin := dataBegin_toInt bs fatsize fatbuf
  have hbmod : ((dataStart bs fatsize : Int) - 2 * bs.clusterSize.toNat).bmod (2 ^ 16) =
      dataStart bs fatsize - 2 * bs.clusterSize.toNat ↔
      dataStart bs fatsize < 2 ^ 15 + 2 * bs.clusterSize.toNat := by
    simp only [Int.bmod_def]
    omega
  have hrange : -2 ^ 15 ≤ ((dataStart bs fatsize : Int) - 2 * bs.clusterSize.toNat).bmod (2 ^ 16) ∧
      ((dataStart bs fatsize : Int) - 2 * bs.clusterSize.toNat).bmod (2 ^ 16) < 2 ^ 15 := by
    simp only [Int.bmod_def]
    omega
  rw [← hbmod, ← hbegin]
  rw [← hbegin] at hrange
  have hstart (c : Nat) (hc : 2 ≤ c) : startSect (fsData bs fatsize fatbuf) c =
      (((fsData bs fatsize fatbuf).dataBegin.toInt +
        (c * bs.clusterSize.toNat : Nat)) % 2 ^ 32).toNat := by
    rw [startSect, if_pos (by omega), clustSize_toNat]
    push_cast
    rfl
  rw [SectorsRight]
  generalize (fsData bs fatsize fatbuf).dataBegin.toInt = x at hrange hstart
  constructor
  · intro hright
    have htwo := hright 2 (Nat.le_refl 2) (by rw [firstSector]; omega)
    rw [hstart 2 (Nat.le_refl 2), firstSector] at htwo
    omega
  · rintro rfl c hc hlt
    rw [hstart c hc]
    rw [firstSector] at hlt ⊢
    have hmul : c * bs.clusterSize.toNat =
        (c - 2) * bs.clusterSize.toNat + 2 * bs.clusterSize.toNat := by
      rw [← Nat.add_mul, Nat.sub_add_cancel hc]
    rw [hmul]
    omega

/-! ## The search -/

/-- What is in an entry of the directory that is looked at. -/
theorem Volume.slot_eq (hv : Volume dev disk bs fatsize addrs items rest)
    (ht : TakenRight dev disk bs fatsize addrs items rest name) {i : Nat} {x : Bytes}
    (hi : i ≤ stopIndex name items) (hx : (items.flatMap Item.slots ++ rest)[i]? = some x) :
    slotAt disk ((dev.partOffset + rootStart bs fatsize) * sectorSize) i = x ∧
      addrs[i]? = some ((dev.partOffset + rootStart bs fatsize) * sectorSize + 32 * i) := by
  rw [← hv.content, List.getElem?_map, Option.map_eq_some_iff] at hx
  obtain ⟨a, ha, rfl⟩ := hx
  have haddr := ht.inOrder i hi a ha
  rw [haddr] at ha
  refine ⟨?_, ha⟩
  rw [slotAt, haddr]

/-- There is an entry where the search stops. -/
theorem Volume.stop_some (ht : TakenRight dev disk bs fatsize addrs items rest name) :
    ∃ x, (items.flatMap Item.slots ++ rest)[stopIndex name items]? = some x ∧
      (lookup name items = none → IsMarker x) := by
  by_cases h : lookup name items = none
  · obtain ⟨m, hhead, hmarker⟩ := ht.ends h
    refine ⟨m, ?_, fun _ => hmarker⟩
    rw [stopIndex_of_none h, List.getElem?_append_right (Nat.le_refl _), Nat.sub_self,
      ← List.head?_eq_getElem?, hhead]
  · have hlt := stopIndex_lt h
    refine ⟨(items.flatMap Item.slots)[stopIndex name items], ?_, fun hnone => absurd hnone h⟩
    rw [List.getElem?_append_left hlt, List.getElem?_eq_getElem hlt]

theorem Volume.scanning (hv : Volume dev disk bs fatsize addrs items rest) (fatbuf : Contents) :
    Scanning dev (fsData bs fatsize fatbuf) disk
      ((dev.partOffset + rootStart bs fatsize) * sectorSize) (rootStart bs fatsize)
      (16 * bs.clusterSize.toNat) := by
  obtain ⟨k, -, hk⟩ := hv.clusters
  have hpos : 0 < 2 ^ k := Nat.two_pow_pos k
  exact ⟨hv.reads, by rw [clustSize_toNat], by omega, rfl⟩

/-- The sectors of the search have numbers of 32 bits. -/
theorem Volume.bound (hv : Volume dev disk bs fatsize addrs items rest)
    (ht : TakenRight dev disk bs fatsize addrs items rest name) :
    dev.partOffset + rootStart bs fatsize + (stopIndex name items + 1) / 16 < 2 ^ 32 := by
  obtain ⟨x, hx, -⟩ := Volume.stop_some ht
  obtain ⟨-, ha⟩ := hv.slot_eq ht (Nat.le_refl _) hx
  have hdevice := hv.device _ (List.mem_of_getElem? ha)
  rw [sectorSize] at hdevice
  omega

/-- The search through the root directory. -/
theorem Volume.search (hv : Volume dev disk bs fatsize addrs items rest)
    (ht : TakenRight dev disk bs fatsize addrs items rest name) (hname : name ≠ []) {dols : Ls}
    (hdols : dols ≠ .root) (fatbuf : Contents) (bufs : Buf → Int → UInt8) {fuel : Nat}
    (hfuel : stopIndex name items + 22 ≤ fuel) :
    ∃ log w, Does (rootSectors dev name dols (fuel + 1)
        (fsData bs fatsize fatbuf).rootdirSect.toNat) ⟨fsData bs fatsize fatbuf, bufs⟩ log
        (.done (lookup name items)) w ∧
      w.mydata = fsData bs fatsize fatbuf ∧ ExaminesRoot dev addrs items name log := by
  have hs := hv.scanning fatbuf
  have hbound := hv.bound ht
  have hsmall := ht.small
  have hclust : bs.clusterSize.toNat < 256 := bs.clusterSize.toNat_lt
  have hstart : (fsData bs fatsize fatbuf).rootdirSect.toNat = rootStart bs fatsize + 0 := by
    rw [rootdirSect_toNat, Nat.add_zero]
    rw [dataStart] at hsmall
    exact Nat.mod_eq_of_lt (by omega)
  obtain ⟨w₀, hat, hrun⟩ := rootSectors_search name dols fuel 0 hs
    (w := ⟨fsData bs fatsize fatbuf, bufs⟩) rfl (by omega)
  have hzero : (Place.mk fuel 0 0 w₀).index = 0 := rfl
  obtain ⟨log, w, hdoes, hw, hseen⟩ := search_items hs hname hdols hat hv.entries.wf
    (fun i x hi hx => by
      have hlt := (List.getElem?_eq_some_iff.mp hx).1
      rw [hzero, Nat.zero_add]
      exact (hv.slot_eq ht hi (by rw [List.getElem?_append_left hlt, hx])).1)
    (fun hnone => by
      obtain ⟨x, hx, hmarker⟩ := Volume.stop_some ht
      rw [hzero, Nat.zero_add, (hv.slot_eq ht (Nat.le_refl _) hx).1]
      exact hmarker hnone)
    ht.readable hfuel (by rw [hzero, Nat.zero_add]; exact hbound)
  rw [hstart]
  refine ⟨_, w, hrun log _ w hdoes, hw, fun a => ?_⟩
  have hexamined : examined dev 0 (.read .doFatRead (rootStart bs fatsize + 0)
      (fsData bs fatsize fatbuf).bytesPerClust :: log) =
      examined dev (rootStart bs fatsize + 0) log := by
    rw [examined]
  rw [hexamined, hseen]
  obtain ⟨y, hy, -⟩ := Volume.stop_some ht
  have hlen := (List.getElem?_eq_some_iff.mp hy).1
  constructor
  · rintro ⟨i, ⟨-, hi⟩, rfl⟩
    rw [hzero, Nat.zero_add] at hi
    have hlt : i < (items.flatMap Item.slots ++ rest).length := by omega
    exact ⟨i, hi, (hv.slot_eq ht hi (List.getElem?_eq_getElem hlt)).2⟩
  · rintro ⟨i, hi, ha⟩
    rw [hzero, Nat.zero_add]
    exact ⟨i, ⟨Nat.zero_le i, hi⟩, ht.inOrder i hi a ha⟩

/-- `do_fat_read` of a name in the root directory, once it has been searched. -/
theorem doFatReadFrom_root (maxsize : Nat) {d : FsData} {w w' : World} {log : List Access}
    {fuel : Nat} {found : Option Bytes} (hd : w.mydata = d) (hd' : w'.mydata = d)
    (hroot : Does (rootSectors dev name .no fuel d.rootdirSect.toNat) w log (.done found) w') :
    (doFatReadFrom dev fuel maxsize name [] false .no w).1 = log ∧
      (doFatReadFrom dev fuel maxsize name [] false .no w).2.map Prod.fst =
        readFound dev d maxsize fuel found := by
  rw [doFatReadFrom, FatM.mydata_bind, hd, hroot.bind_eq]
  cases found with
  | none => exact ⟨List.append_nil log, rfl⟩
  | some dent =>
    have hread : Does (FatM.mydata) w' [] d w' := by
      rw [← hd']
      exact Does.mydata
    simp only [Bool.false_eq_true, false_and, if_false]
    rw [Does.bind_eq Does.pure]
    simp only
    rw [hread.bind_eq, readFound]
    cases getContents dev d (dirEntry dent) maxsize fuel with
    | none => exact ⟨List.append_nil log, rfl⟩
    | some ret => exact ⟨List.append_nil log, rfl⟩

/-- A FAT16 of one sector, twice, behind so many reserved sectors, with clusters of one sector and
a root directory of 16 entries that begins with some bytes. -/
def volumeDisk (reservedLow reservedHigh : UInt8) (dents : Bytes) : Contents := fun a =>
  let root := (reservedLow.toNat + 256 * reservedHigh.toNat + 2) * sectorSize
  if a < sectorSize then
    (List.replicate 13 0 ++ [1, reservedLow, reservedHigh, 2, 16, 0, 64, 0, 0xf8, 1, 0] ++
      List.replicate 30 0 ++ fat16Sign).getD a 0
  else if root ≤ a ∧ a < root + dents.length then dents.getD (a - root) 0
  else 0

def volumeBoot (disk : Contents) : BootSector := bootSector (readAt disk 0 sectorSize)

/-- The label ALPHA. -/
def labelSlot : Bytes :=
  [65, 76, 80, 72, 65, 32, 32, 32, 32, 32, 32, 8] ++ List.replicate 20 0

/-- A file that has been deleted. -/
def deletedSlot : Bytes :=
  [0xe5, 79, 79, 32, 32, 32, 32, 32, 84, 88, 84, 32] ++ List.replicate 20 0

def smallDisk : Contents :=
  volumeDisk 1 0 (labelSlot ++ deletedSlot ++ readMeSlot ++ readMeDent)

def smallItems : List Item :=
  [.other labelSlot, .other deletedSlot, .longFile readMeSlot [] readMeDent]

/-- Neither the label nor the deleted file begins a set. -/
theorem orphan_small {slot : Bytes} (hslot : attr slot ≠ attrVfat) (behind : List Bytes) :
    Orphan slot behind := fun _ _ hset => absurd hset.2.2.1 hslot

theorem smallVolume : Volume (devWith smallDisk) smallDisk (volumeBoot smallDisk) 16
    (entriesFrom (devWith smallDisk) 3 16) smallItems
    (List.replicate 12 (List.replicate 32 0)) where
  reads := reads_devWith
  boot := by decide
  clusters := ⟨0, by decide, by decide⟩
  reserved := by decide
  fats := by decide
  fatSectors := by decide
  dirEntries := by decide
  root := by
    rw [RootAddrs, if_neg (by decide)]
    decide
  device := by decide
  content := by decide +kernel
  entries := by
    refine ⟨⟨by decide, .inr (by decide)⟩, ?_, ⟨by decide, .inl (by decide)⟩, ?_,
      ⟨by decide, by decide, by decide, trivial, readMe_file⟩, ?_, ?_⟩
    · intro slot hslot
      cases hslot
      exact orphan_small (by decide) _
    · intro slot hslot
      cases hslot
      exact orphan_small (by decide) _
    · intro slot hslot
      cases hslot
    · intro m hm
      obtain rfl : List.replicate 32 0 = m := by simpa using hm
      decide

/-- The label has an A in front, and the file behind it is not taken for the one looked for. -/
theorem smallVolume_taken : TakenRight (devWith smallDisk) smallDisk (volumeBoot smallDisk) 16
    (entriesFrom (devWith smallDisk) 3 16) smallItems
    (List.replicate 12 (List.replicate 32 0)) readMeName where
  small := by decide
  inOrder := by
    intro i _ a ha
    rw [entriesFrom, List.getElem?_map, Option.map_eq_some_iff] at ha
    obtain ⟨j, hj, rfl⟩ := ha
    obtain ⟨hlt, rfl⟩ := List.getElem?_eq_some_iff.mp hj
    rw [List.getElem_range]
    rfl
  ends := fun h => absurd h (by decide)
  readable := by
    refine ⟨.inr ⟨by decide, by decide, by decide, by decide, by decide, ?_⟩, fun _ => ?_⟩
    · intro h
      exact absurd h (by decide +kernel)
    refine ⟨.inl ⟨fun h => absurd (by decide) h, fun h => absurd (by decide) h⟩, fun _ => ?_⟩
    exact ⟨.inl ⟨(by decide : 2 ≤ 16 - 2), readMe_right readMeName⟩, fun _ => trivial⟩

/-- A volume with 40000 reserved sectors and nothing in its root directory. -/
theorem reservedVolume : Volume (devWith (volumeDisk 64 156 [])) (volumeDisk 64 156 [])
    (volumeBoot (volumeDisk 64 156 [])) 16 (entriesFrom (devWith (volumeDisk 64 156 [])) 40002 16)
    [] (List.replicate 16 (List.replicate 32 0)) where
  reads := reads_devWith
  boot := by decide
  clusters := ⟨0, by decide, by decide⟩
  reserved := by decide
  fats := by decide
  fatSectors := by decide
  dirEntries := by decide
  root := by
    rw [RootAddrs, if_neg (by decide)]
    decide
  device := by decide
  content := by decide
  entries := by
    intro m hm
    obtain rfl : List.replicate 32 0 = m := by simpa using hm
    decide

end UBoot.Fs.Fat
