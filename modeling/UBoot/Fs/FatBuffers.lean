import Mathlib.Data.List.TakeWhile
import UBoot.Fs.FatDir

/-!
# The buffers of directory data

A read of a directory is as long as a cluster, and no cluster fits into one of the buffers: the
first read of `do_fat_read` already leaves it.  So nothing is out of bounds only where there is
nothing to read.
-/

namespace UBoot.Fs.Fat

open UBoot.Lib

variable {dev : BlockDev} {α β : Type}

/-- Each read fits into its buffer, and each entry or slot that is looked at lies inside what has
been read into the buffer last. -/
def FitsIn : (Buf → Nat) → List Access → Prop
  | _, [] => True
  | inside, .read b _ size :: log =>
    size ≤ maxClustsize ∧ FitsIn (fun b' => if b' = b then size else inside b') log
  | inside, .look b pos :: log => 0 ≤ pos ∧ pos + 32 ≤ inside b ∧ FitsIn inside log

/-- Nothing that `do_fat_read` does with its buffers is out of bounds. -/
def StaysInside (dev : BlockDev) (maxsize : Nat) (fatbuf : Contents) (bufs : Buf → Int → UInt8)
    (filename : Bytes) (dols : Bool) : Prop :=
  ∀ fuel, FitsIn (fun _ => 0) (doFatRead dev fuel maxsize fatbuf bufs filename dols).1

/-- A legal size of the clusters. -/
def LegalClusters (bs : BootSector) : Prop := ∃ k < 8, bs.clusterSize.toNat = 2 ^ k

/-! ## Logs -/

/-- What comes first is logged first. -/
theorem FatM.log_bind (x : FatM α) (f : α → FatM β) (w : World) : (x w).1 <+: ((x >>= f) w).1 := by
  rcases hx : x w with ⟨log, _ | ⟨a, w'⟩⟩
  · exact ⟨[], by rw [FatM.bind_failed hx, List.append_nil]⟩
  · rw [FatM.bind_done hx]
    exact List.prefix_append log _

theorem FatM.mydata_bind (f : FsData → FatM α) (w : World) :
    (FatM.mydata >>= f) w = f w.mydata w := rfl

theorem FatM.log_readInto (b : Buf) (sector size : Nat) (data : Option Bytes) (w : World) :
    [.read b sector size] <+: (FatM.readInto b sector size data w).1 := by
  cases data with
  | none => exact List.prefix_refl _
  | some data => exact List.prefix_refl _

/-- The loop over the root directory begins with a read of a cluster. -/
theorem rootSectors_log {fnamecopy : Bytes} {dols : Ls} {fuel cursect : Nat} {w : World} :
    [.read .doFatRead cursect w.mydata.bytesPerClust] <+:
      (rootSectors dev fnamecopy dols (fuel + 1) cursect w).1 := by
  rw [rootSectors, FatM.mydata_bind]
  exact (FatM.log_readInto _ _ _ _ w).trans (FatM.log_bind _ _ w)

theorem doFatReadFrom_log {fuel maxsize : Nat} {fnamecopy subname : Bytes} {isdir : Bool}
    {dols : Ls} {w : World} :
    [.read .doFatRead w.mydata.rootdirSect.toNat w.mydata.bytesPerClust] <+:
      (doFatReadFrom dev (fuel + 1) maxsize fnamecopy subname isdir dols w).1 := by
  rw [doFatReadFrom, FatM.mydata_bind]
  exact rootSectors_log.trans (FatM.log_bind _ _ w)

theorem bytesPerClust_fsData (bs : BootSector) (fatsize : Int) (fatbuf : Contents) :
    (fsData bs fatsize fatbuf).bytesPerClust = bs.clusterSize.toNat * sectorSize := by
  simp [fsData, FsData.bytesPerClust]

/-- A name without a component, for a read. -/
def NoName (filename : Bytes) (dols : Bool) : Prop := (∀ c ∈ filename, isDirDelim c) ∧ dols = false

theorem skipDelims_eq_nil_iff {filename : Bytes} :
    (skipDelims filename).map toLower = [] ↔ ∀ c ∈ filename, isDirDelim c := by
  rw [List.map_eq_nil_iff, skipDelims, List.dropWhile_eq_nil_iff]

/-- Nothing is read for no name. -/
theorem doFatRead_noName {fuel maxsize : Nat} {fatbuf : Contents} {bufs : Buf → Int → UInt8}
    {filename : Bytes} {dols : Bool} (h : NoName filename dols) :
    (doFatRead dev fuel maxsize fatbuf bufs filename dols).1 = [] := by
  obtain ⟨hname, rfl⟩ := h
  have hnil := skipDelims_eq_nil_iff.mpr hname
  cases hbs : readBootsectandvi dev with
  | none => simp only [doFatRead, hbs]
  | some v => simp only [doFatRead, hbs, hnil, if_true, Bool.false_eq_true, if_false]

/-- Otherwise a cluster of the root directory is. -/
theorem doFatRead_log {fuel maxsize : Nat} {fatbuf : Contents} {bufs : Buf → Int → UInt8}
    {filename : Bytes} {dols : Bool} {bs : BootSector} {fatsize : Int}
    (hbs : readBootsectandvi dev = some (bs, fatsize)) (h : ¬ NoName filename dols) :
    ∃ sector, [.read .doFatRead sector (bs.clusterSize.toNat * sectorSize)] <+:
      (doFatRead dev (fuel + 1) maxsize fatbuf bufs filename dols).1 := by
  rw [← bytesPerClust_fsData bs fatsize fatbuf]
  simp only [doFatRead, hbs]
  generalize fsData bs fatsize fatbuf = d
  by_cases hnil : (skipDelims filename).map toLower = []
  · have hdols : dols = true := by
      by_contra hno
      exact h ⟨skipDelims_eq_nil_iff.mp hnil, Bool.eq_false_iff.mpr hno⟩
    rw [if_pos hnil, if_pos hdols]
    exact ⟨_, doFatReadFrom_log (w := ⟨d, bufs⟩)⟩
  · rw [if_neg hnil]
    split
    · exact ⟨_, doFatReadFrom_log (w := ⟨d, bufs⟩)⟩
    · exact ⟨_, doFatReadFrom_log (w := ⟨d, bufs⟩)⟩

/-- No log that begins with a read of a cluster fits. -/
theorem not_fitsIn {inside : Buf → Nat} {b : Buf} {bs : BootSector} {log : List Access}
    (hlegal : LegalClusters bs)
    (h : ∃ sector, [.read b sector (bs.clusterSize.toNat * sectorSize)] <+: log) :
    ¬ FitsIn inside log := by
  obtain ⟨sector, rest, rfl⟩ := h
  obtain ⟨k, -, hk⟩ := hlegal
  rintro ⟨hle, -⟩
  have hpos : 0 < 2 ^ k := Nat.two_pow_pos k
  rw [hk, sectorSize, maxClustsize] at hle
  omega

theorem not_staysInside {maxsize : Nat} {fatbuf : Contents} {bufs : Buf → Int → UInt8}
    {filename : Bytes} {dols : Bool} {bs : BootSector} {fatsize : Int}
    (hbs : readBootsectandvi dev = some (bs, fatsize)) (hlegal : LegalClusters bs)
    (h : ¬ NoName filename dols) : ¬ StaysInside dev maxsize fatbuf bufs filename dols :=
  fun hinside => not_fitsIn hlegal (doFatRead_log hbs h) (hinside 1)

/-- Everything stays inside the buffers exactly if there is no name to look for and nothing to
list. -/
theorem dirBuffers_fit_iff {maxsize : Nat} {fatbuf : Contents} {bufs : Buf → Int → UInt8}
    {filename : Bytes} {dols : Bool} {bs : BootSector} {fatsize : Int}
    (hbs : readBootsectandvi dev = some (bs, fatsize)) (hlegal : LegalClusters bs) :
    StaysInside dev maxsize fatbuf bufs filename dols ↔
      (∀ c ∈ filename, isDirDelim c) ∧ dols = false := by
  constructor
  · intro hinside
    by_contra h
    exact not_staysInside hbs hlegal h hinside
  · intro h fuel
    rw [doFatRead_noName h]
    exact trivial

/-- A boot sector of a FAT16 file system with clusters of one sector. -/
def smallBoot : Bytes :=
  List.replicate 13 0 ++ [1, 1, 0, 2, 16, 0, 64, 0, 0xf8, 1, 0] ++ List.replicate 30 0 ++
    fat16Sign ++ List.replicate 450 0

/-- A device with this boot sector, and nothing else. -/
def smallDev : BlockDev where
  partOffset := 0
  blockRead := fun start count =>
    some (if start = 0 then smallBoot else List.replicate (count * sectorSize) 0)

theorem smallDev_boot : readBootsectandvi smallDev = some (bootSector smallBoot, 16) := by rfl

theorem smallDev_legal : LegalClusters (bootSector smallBoot) := ⟨0, by decide, by rfl⟩

/-- A name of slashes only. -/
theorem dirBuffers_fit_slash :
    StaysInside smallDev 0 (fun _ => 0) (fun _ _ => 0) [47] false :=
  (dirBuffers_fit_iff smallDev_boot smallDev_legal).mpr
    ⟨fun c hc => by rw [List.mem_singleton.mp hc]; rfl, rfl⟩

/-- Any name of a file makes a read of 512 bytes into a buffer of 255. -/
theorem dirBuffers_overrun : ¬ ∀ (dev : BlockDev) (bs : BootSector) (fatsize : Int),
    readBootsectandvi dev = some (bs, fatsize) → LegalClusters bs →
    ∀ maxsize fatbuf bufs filename dols,
      StaysInside dev maxsize fatbuf bufs filename dols := by
  intro hall
  have hname : ¬ NoName [97] false := by
    rintro ⟨hdelim, -⟩
    exact absurd (hdelim 97 List.mem_cons_self) (by decide)
  exact not_staysInside smallDev_boot smallDev_legal hname
    (hall smallDev _ _ smallDev_boot smallDev_legal 0 (fun _ => 0) (fun _ _ => 0) [97] false)

end UBoot.Fs.Fat
