import UBoot.Fs.FatTable

/-!
# The window of the FAT in between

`get_fatent` reads windows of the FAT into one buffer, and a read may fail.  As long as the buffer
holds a window that has been read, or none, the value of an entry depends on the device only, and
not on the calls in between (`Steady.getFatent`).
-/

namespace UBoot.Fs.Fat

open UBoot.Lib

/-- A read gives what is on the disk, or it fails. -/
def ReadsOf (dev : BlockDev) (disk : Contents) : Prop :=
  ∀ start count data, dev.blockRead start count = some data →
    data = readAt disk (start * sectorSize) (count * sectorSize)

/-- To read the window that is in the buffer again would change nothing. -/
def CacheOk (dev : BlockDev) (d : FsData) : Prop :=
  d.fatbufnum ≠ 2 ^ 32 - 1 → readFatBlock dev d d.fatbufnum = some d

/-- What calls of `get_fatent` leave of a file system. -/
def Steady (dev : BlockDev) (d e : FsData) : Prop :=
  ∃ buf num, e = { d with fatbuf := buf, fatbufnum := num } ∧ CacheOk dev e ∧
    (d.fatlength = 0 → buf = d.fatbuf)

/-- The sectors of a window. -/
def readWindow (dev : BlockDev) (d : FsData) (n : Nat) : Option Bytes :=
  let fatlength := d.fatlength.toNat * sectorSize
  diskRead dev ((n * fatBufBlocks + d.fatSect.toNat) % 2 ^ 32)
    (if fatlength < fatBufSize / sectorSize then fatlength else fatBufSize / sectorSize)

section Window

variable {dev : BlockDev} {d e : FsData} {disk buf buf' : Contents} {n num q entry offset : Nat}
  {data : Bytes}

theorem readFatBlock_window :
    readFatBlock dev { d with fatbuf := buf, fatbufnum := num } n =
      (readWindow dev d n).map fun data =>
        { d with fatbuf := storeAt buf 0 data, fatbufnum := n } := rfl

/-- A window is read as a whole, or nothing is read of a FAT without a length. -/
theorem length_readWindow (hdev : ReadsOf dev disk) (h : readWindow dev d n = some data) :
    (d.fatlength ≠ 0 ∧ data.length = fatBufSize) ∨ (d.fatlength = 0 ∧ data = []) := by
  have hdata := hdev _ _ _ h
  have hsize : fatBufSize / sectorSize = 6 := rfl
  have hsector : sectorSize = 512 := rfl
  have hfull : fatBufSize = 3072 := rfl
  by_cases hlen : d.fatlength = 0
  · refine .inr ⟨hlen, ?_⟩
    rw [hlen, UInt16.toNat_zero, Nat.zero_mul, hsize, if_pos (by decide), Nat.zero_mul] at hdata
    exact hdata
  · have hpos : d.fatlength.toNat ≠ 0 := fun h => hlen (UInt16.toNat_inj.mp h)
    rw [hsize, hsector, if_neg (by omega)] at hdata
    refine .inl ⟨hlen, ?_⟩
    rw [hdata, length_readAt]
    rfl

theorem storeAt_twice : storeAt (storeAt buf 0 data) 0 data = storeAt buf 0 data := by
  funext a
  by_cases hin : InRange 0 data.length a
  · rw [storeAt, storeAt, if_pos hin, if_pos hin]
  · rw [storeAt, if_neg hin]

/-- What has been read would be read again. -/
theorem cacheOk_read (h : readWindow dev d n = some data) :
    CacheOk dev { d with fatbuf := storeAt buf 0 data, fatbufnum := n } := by
  intro _
  rw [readFatBlock_window, h]
  simp only [Option.map_some, storeAt_twice]

/-- An entry of a window does not depend on what has been in the buffer. -/
theorem fatEntry_read (hq : fatBufEntries d.fatsize = some q) (hoffset : offset < q)
    (h : data.length = fatBufSize ∨ buf = buf') :
    fatEntry { d with fatbuf := storeAt buf 0 data, fatbufnum := n } offset =
      fatEntry { d with fatbuf := storeAt buf' 0 data, fatbufnum := n } offset := by
  rcases h with hlen | rfl
  · have hwindow : HasWindow { d with fatbuf := storeAt buf 0 data, fatbufnum := n }
        (storeAt buf' 0 data) 0 0 := by
      intro k hk
      have hin : InRange 0 data.length k := ⟨Nat.zero_le k, by omega⟩
      rw [Nat.zero_mul, Nat.zero_add]
      show storeAt buf 0 data k = storeAt buf' 0 data k
      rw [storeAt, storeAt, if_pos hin, if_pos hin]
    rw [fatEntry_window (by exact hq) hwindow hoffset, fatEntry_eq, Nat.zero_mul, Nat.zero_add]
  · rfl

/-! ## Calls -/

theorem getFatent_unsupported (h : fatBufEntries d.fatsize = none) (entry : Nat) :
    getFatent dev d entry = (0, d) := by
  rw [getFatent, h]

/-- A call comes to the same as one that reads the window in any case. -/
theorem getFatent_reads (hcache : CacheOk dev d) (hq : fatBufEntries d.fatsize = some q)
    (hentry : entry / q ≠ 2 ^ 32 - 1) :
    getFatent dev d entry = match readFatBlock dev d (entry / q) with
      | none => (0, d)
      | some d => (fatEntry d (entry - entry / q * q), d) := by
  rw [getFatent, hq]
  dsimp only
  by_cases hbuf : entry / q = d.fatbufnum
  · rw [hbuf] at hentry
    rw [if_pos hbuf, hbuf, hcache hentry]
  · exact if_neg hbuf

theorem fatBufEntries_ge (hq : fatBufEntries d.fatsize = some q) : 2 ≤ q := by
  unfold fatBufEntries at hq
  split at hq
  · cases hq
    decide
  · split at hq
    · cases hq
      decide
    · split at hq
      · cases hq
        decide
      · cases hq

theorem Steady.refl (h : CacheOk dev d) : Steady dev d d :=
  ⟨d.fatbuf, d.fatbufnum, rfl, h, fun _ => rfl⟩

theorem Steady.geometry (h : Steady dev d e) : SameGeometry d e := by
  obtain ⟨buf, num, rfl, -⟩ := h
  exact ⟨rfl, rfl, rfl, rfl⟩

/-- **A call returns what it would return at the start**, and leaves the rest as it is. -/
theorem Steady.getFatent (hdev : ReadsOf dev disk) (hd : CacheOk dev d) (h : Steady dev d e)
    (hentry : entry < 2 ^ 32) :
    (Fat.getFatent dev e entry).1 = (Fat.getFatent dev d entry).1 ∧
      Steady dev d (Fat.getFatent dev e entry).2 := by
  obtain ⟨buf, num, rfl, hcache, hunread⟩ := id h
  cases hq : fatBufEntries d.fatsize with
  | none =>
    rw [getFatent_unsupported hq, getFatent_unsupported (by exact hq)]
    exact ⟨rfl, h⟩
  | some q =>
    have hge := fatBufEntries_ge hq
    have hnum : entry / q ≠ 2 ^ 32 - 1 := by
      have hhalf : entry / q ≤ entry / 2 := Nat.div_le_div_left hge (by decide)
      omega
    have hoffset : entry - entry / q * q < q := by
      have hlt := Nat.lt_div_mul_add (a := entry) (b := q) (by omega)
      omega
    have hstart : readFatBlock dev d (entry / q) = (readWindow dev d (entry / q)).map fun data =>
        { d with fatbuf := storeAt d.fatbuf 0 data, fatbufnum := entry / q } := rfl
    rw [getFatent_reads hcache (by exact hq) hnum, getFatent_reads hd hq hnum,
      readFatBlock_window, hstart]
    cases hread : readWindow dev d (entry / q) with
    | none => exact ⟨rfl, h⟩
    | some data =>
      refine ⟨?_, storeAt buf 0 data, entry / q, rfl, cacheOk_read hread, fun hlen => ?_⟩
      · refine fatEntry_read hq hoffset ?_
        rcases length_readWindow hdev hread with ⟨-, hlen⟩ | ⟨hlen, -⟩
        · exact .inl hlen
        · exact .inr (hunread hlen)
      · rcases length_readWindow hdev hread with ⟨hpos, -⟩ | ⟨-, rfl⟩
        · exact absurd hlen hpos
        · rw [← hunread hlen]
          funext a
          exact storeAt_of_not_inRange (by rintro ⟨-, hlt⟩; exact absurd hlt (Nat.not_lt_zero a))

end Window

end UBoot.Fs.Fat
