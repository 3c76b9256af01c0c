import UBoot.Disk.PartEfi

/-!
# What a lookup relies on

`GptLookup` says what is to stand behind a partition that has been found: what has been read of the
disk and checked, and where the two numbers come from.  `Accepts` are the tests that the code makes,
and `Sound` is what it does not test.  A partition that is found is as it should be exactly if what
passes the tests is sound (`lookup_iff`).
-/

namespace UBoot.Disk

open UBoot.Lib UBoot.LibGeneric

/-! ## The table on the disk -/

/-- The block of the primary header. -/
def gptHead (dev : GptDev) : Contents := fun i => dev.disk (512 + i)

/-- The array of the entries. -/
def gptArray (dev : GptDev) : Contents := fun i =>
  dev.disk (512 * partitionEntryLba (gptHead dev) + i)

/-- The size of the array, without a limit. -/
def arraySize (dev : GptDev) : Nat :=
  numPartitionEntries (gptHead dev) * sizeofPartitionEntry (gptHead dev)

/-- The place of an entry in the array. -/
def entryOffset (dev : GptDev) (part : Int) : Nat :=
  (part - 1).toNat * sizeofPartitionEntry (gptHead dev)

/-- The type GUID of an entry is not zero. -/
def EntryUsed (dev : GptDev) (part : Int) : Prop :=
  ∃ i < 16, gptArray dev (entryOffset dev part + i) ≠ 0

def startingLba (dev : GptDev) (part : Int) : Nat :=
  le64At (gptArray dev) (entryOffset dev part + 32)

def endingLba (dev : GptDev) (part : Int) : Nat :=
  le64At (gptArray dev) (entryOffset dev part + 40)

/-- What a partition that is found has to rest on. -/
structure GptLookup (dev : GptDev) (log : List GptStep) (part : Int) (info : DiskPartition) :
    Prop where
  head : .read .head 1 1 ∈ log
  entries : ∃ count, .read .pte (partitionEntryLba (gptHead dev)) count ∈ log ∧
    arraySize dev ≤ 512 * count
  product : arraySize dev < 2 ^ 32
  headCrc : efiCrc32 (clearCrc (gptHead dev)) (headerSize (gptHead dev)) =
    headerCrc32 (gptHead dev)
  entriesCrc : efiCrc32 (gptArray dev) (arraySize dev) = partitionEntryArrayCrc32 (gptHead dev)
  range : 1 ≤ part ∧ part ≤ numPartitionEntries (gptHead dev)
  used : EntryUsed dev part
  start : info.start = startingLba dev part
  size : (info.size : Int) = endingLba dev part - startingLba dev part + 1
  covered : ∀ buf len, .crc buf len ∈ log → ∀ i < len, ∃ start count,
    .read buf start count ∈ log ∧ i < 512 * count

/-- Every partition that is found rests on that. -/
def LooksUp (dev : GptDev) (env : GptEnv) (part : Int) : Prop :=
  ∀ info, (getPartitionInfoEfi dev env part).2 = .value info →
    GptLookup dev (getPartitionInfoEfi dev env part).1 part info

/-! ## The tests of the code -/

/-- The header passes the tests. -/
structure HeadAccepted (dev : GptDev) (env : GptEnv) : Prop where
  read : dev.blockRead 1 1 = 1
  signature : le64At (headAt dev env 1) 0 = gptHeaderSignature
  crc : efiCrc32 (clearCrc (headAt dev env 1)) (headerSize (headAt dev env 1)) =
    headerCrc32 (headAt dev env 1)
  lba : myLba (headAt dev env 1) = 1
  first : firstUsableLba (headAt dev env 1) ≤ dev.lba
  last : lastUsableLba (headAt dev env 1) ≤ dev.lba

/-- So do the entries that are found through the address 0. -/
def EntriesAccepted (dev : GptDev) (env : GptEnv) (buf : GptBuffer) (ptes : Contents) : Prop :=
  throughZero env (allocReadGptEntries dev env (headAt dev env 1)).2 = .value (some (buf, ptes)) ∧
    efiCrc32 ptes (entryCount (headAt dev env 1)) =
      partitionEntryArrayCrc32 (headAt dev env 1)

/-- All tests are passed. -/
def Accepts (dev : GptDev) (env : GptEnv) (part : Int) : Prop :=
  1 ≤ part ∧ HeadAccepted dev env ∧ ∃ buf ptes, EntriesAccepted dev env buf ptes

/-- The array and what lies behind it in memory. -/
def entriesArea (dev : GptDev) (env : GptEnv) : Contents := fun i =>
  if i < arraySize dev then gptArray dev i else env.heap i

/-- The place of an entry of 128 bytes. -/
def fixedOffset (part : Int) : Nat := 128 * (part - 1).toNat % 2 ^ 32

/-- What the code does not test. -/
structure Sound (dev : GptDev) (env : GptEnv) (part : Int) : Prop where
  ram : env.zero = .ram
  header : headerSize (gptHead dev) ≤ 512
  product : arraySize dev < 2 ^ 32
  blocks : 512 ∣ arraySize dev
  lba : partitionEntryLba (gptHead dev) < 2 ^ 32
  range : part ≤ numPartitionEntries (gptHead dev)
  used : EntryUsed dev part
  start : le64At (entriesArea dev env) (fixedOffset part + 32) % 2 ^ 32 = startingLba dev part
  ending : le64At (entriesArea dev env) (fixedOffset part + 40) % 2 ^ 32 =
    endingLba dev part % 2 ^ 32
  length : startingLba dev part ≤ endingLba dev part + 1 ∧
    endingLba dev part + 1 < startingLba dev part + 2 ^ 32

section Lookup

variable {dev : GptDev} {env : GptEnv} {part : Int} {ptes : Contents} {buf : GptBuffer}

/-- The fields of the header are those on the disk. -/
theorem le32At_headAt {pos : Nat} (h : pos + 3 < 512) :
    le32At (headAt dev env 1) pos = le32At (gptHead dev) pos := by
  have hbyte : ∀ i < 512, headAt dev env 1 i = gptHead dev i := fun i hi => if_pos hi
  rw [le32At, le32At, hbyte _ (by omega), hbyte _ (by omega), hbyte _ (by omega),
    hbyte _ (by omega)]

theorem le64At_headAt {pos : Nat} (h : pos + 7 < 512) :
    le64At (headAt dev env 1) pos = le64At (gptHead dev) pos := by
  rw [le64At, le64At, le32At_headAt (by omega), le32At_headAt (by omega)]

/-- The log of a lookup that passes all tests. -/
def acceptLog (dev : GptDev) (env : GptEnv) (buf : GptBuffer) : List GptStep :=
  [.read .head 1 1] ++ [.crc .head (headerSize (headAt dev env 1))] ++
    (allocReadGptEntries dev env (headAt dev env 1)).1 ++
    [.crc buf (entryCount (headAt dev env 1))]

theorem isGptValid_accept (hhead : HeadAccepted dev env)
    (hentries : EntriesAccepted dev env buf ptes) :
    isGptValid dev env 1 = (acceptLog dev env buf, .value (headAt dev env 1, ptes)) := by
  obtain ⟨hread, hsig, hcrc, hlba, hfirst, hlast⟩ := hhead
  obtain ⟨hzero, hcrc'⟩ := hentries
  rw [isGptValid, if_neg (not_not_intro hread)]
  simp only [if_neg (not_not_intro hsig), if_neg (not_not_intro hcrc), if_neg (not_not_intro hlba),
    if_neg (Nat.not_lt_of_le hfirst), if_neg (Nat.not_lt_of_le hlast), hzero,
    if_neg (not_not_intro hcrc')]
  rfl

theorem accept_of_isGptValid {x : Contents × Contents} (h : (isGptValid dev env 1).2 = .value x) :
    HeadAccepted dev env ∧ ∃ buf, EntriesAccepted dev env buf x.2 := by
  rw [isGptValid] at h
  by_cases hread : dev.blockRead 1 1 ≠ 1
  · rw [if_pos hread] at h
    cases h
  rw [if_neg hread] at h
  dsimp only at h
  by_cases hsig : le64At (headAt dev env 1) 0 ≠ gptHeaderSignature
  · rw [if_pos hsig] at h
    cases h
  rw [if_neg hsig] at h
  by_cases hcrc : efiCrc32 (clearCrc (headAt dev env 1)) (headerSize (headAt dev env 1)) ≠
      headerCrc32 (headAt dev env 1)
  · rw [if_pos hcrc] at h
    cases h
  rw [if_neg hcrc] at h
  by_cases hlba : myLba (headAt dev env 1) ≠ 1
  · rw [if_pos hlba] at h
    cases h
  rw [if_neg hlba] at h
  by_cases hfirst : firstUsableLba (headAt dev env 1) > dev.lba
  · rw [if_pos hfirst] at h
    cases h
  rw [if_neg hfirst] at h
  by_cases hlast : lastUsableLba (headAt dev env 1) > dev.lba
  · rw [if_pos hlast] at h
    cases h
  rw [if_neg hlast] at h
  refine ⟨⟨not_not.mp hread, not_not.mp hsig, not_not.mp hcrc, not_not.mp hlba,
    Nat.le_of_not_lt hfirst, Nat.le_of_not_lt hlast⟩, ?_⟩
  cases hzero : throughZero env (allocReadGptEntries dev env (headAt dev env 1)).2 with
  | error =>
    rw [hzero] at h
    cases h
  | fault =>
    rw [hzero] at h
    cases h
  | value ptes =>
    rw [hzero] at h
    cases ptes with
    | none => cases h
    | some found =>
      obtain ⟨buf, ptes⟩ := found
      dsimp only at h
      by_cases hcrc' : efiCrc32 ptes (entryCount (headAt dev env 1)) ≠
          partitionEntryArrayCrc32 (headAt dev env 1)
      · rw [if_pos hcrc'] at h
        cases h
      · rw [if_neg hcrc'] at h
        cases h
        exact ⟨buf, hzero, not_not.mp hcrc'⟩

/-- A partition is found exactly if all tests are passed. -/
theorem getPartitionInfoEfi_value {info : DiskPartition} :
    (getPartitionInfoEfi dev env part).2 = .value info ↔
      1 ≤ part ∧ HeadAccepted dev env ∧
        ∃ buf ptes, EntriesAccepted dev env buf ptes ∧ info = gptInfo ptes part := by
  constructor
  · intro h
    rw [getPartitionInfoEfi] at h
    by_cases hpart : part < 1
    · rw [if_pos hpart] at h
      cases h
    rw [if_neg hpart] at h
    cases hvalid : isGptValid dev env 1 with
    | mk log outcome =>
      rw [hvalid] at h
      cases outcome with
      | error => cases h
      | fault => cases h
      | value x =>
        cases h
        obtain ⟨hhead, buf, hentries⟩ := accept_of_isGptValid (congrArg Prod.snd hvalid)
        exact ⟨Int.not_lt.mp hpart, hhead, buf, x.2, hentries, rfl⟩
  · rintro ⟨hpart, hhead, buf, ptes, hentries, rfl⟩
    rw [getPartitionInfoEfi, if_neg (Int.not_lt.mpr hpart), isGptValid_accept hhead hentries]

theorem getPartitionInfoEfi_log (hpart : 1 ≤ part) (hhead : HeadAccepted dev env)
    (hentries : EntriesAccepted dev env buf ptes) :
    (getPartitionInfoEfi dev env part).1 = acceptLog dev env buf := by
  rw [getPartitionInfoEfi, if_neg (Int.not_lt.mpr hpart), isGptValid_accept hhead hentries]

/-! ## The entries -/

theorem entryCount_eq : entryCount (headAt dev env 1) = arraySize dev % 2 ^ 32 := by
  rw [entryCount, numPartitionEntries, sizeofPartitionEntry, le32At_headAt (by decide),
    le32At_headAt (by decide)]
  rfl

theorem partitionEntryLba_headAt :
    partitionEntryLba (headAt dev env 1) = partitionEntryLba (gptHead dev) :=
  le64At_headAt (by decide)

/-- The entries are read, or nothing is. -/
theorem allocReadGptEntries_cases (dev : GptDev) (env : GptEnv) :
    (allocReadGptEntries dev env (headAt dev env 1) = ([], none)) ∨
      (entryCount (headAt dev env 1) ≠ 0 ∧
        allocReadGptEntries dev env (headAt dev env 1) =
          ([.read .pte (partitionEntryLba (gptHead dev) % 2 ^ 32) (arraySize dev % 2 ^ 32 / 512)],
            some (pteAt dev env (partitionEntryLba (gptHead dev) % 2 ^ 32)
              (arraySize dev % 2 ^ 32)))) := by
  rw [allocReadGptEntries, entryCount_eq, partitionEntryLba_headAt]
  by_cases hroom : arraySize dev % 2 ^ 32 = 0 ∨ env.malloc (arraySize dev % 2 ^ 32) = false
  · rw [if_pos hroom]
    exact .inl rfl
  · rw [if_neg hroom]
    by_cases hread : dev.blockRead (partitionEntryLba (gptHead dev) % 2 ^ 32)
        (arraySize dev % 2 ^ 32 / 512) ≠ arraySize dev % 2 ^ 32 / 512
    · rw [if_pos hread]
      exact .inl rfl
    · rw [if_neg hread]
      exact .inr ⟨fun h => hroom (.inl h), rfl⟩

/-- With RAM at the address 0 the entries that are found are those that have been read. -/
theorem entriesAccepted_ram (hram : env.zero = .ram) (h : EntriesAccepted dev env buf ptes) :
    buf = .pte ∧ ptes = pteAt dev env (partitionEntryLba (gptHead dev) % 2 ^ 32)
      (arraySize dev % 2 ^ 32) ∧
    (allocReadGptEntries dev env (headAt dev env 1)).1 =
      [.read .pte (partitionEntryLba (gptHead dev) % 2 ^ 32) (arraySize dev % 2 ^ 32 / 512)] := by
  have hzero := h.1
  rw [throughZero, hram] at hzero
  rcases allocReadGptEntries_cases dev env with hnone | ⟨-, hsome⟩
  · rw [hnone] at hzero
    cases hzero
  · rw [hsome] at hzero ⊢
    cases hzero
    exact ⟨rfl, rfl, rfl⟩

/-- Without RAM they are other memory. -/
theorem entriesAccepted_other (hram : env.zero ≠ .ram) (h : EntriesAccepted dev env buf ptes) :
    buf = .other := by
  have hzero := h.1
  rw [throughZero] at hzero
  cases hkind : env.zero with
  | ram => exact absurd hkind hram
  | fault =>
    rw [hkind] at hzero
    cases hzero
  | rom word =>
    rw [hkind] at hzero
    cases word with
    | none => cases hzero
    | some m =>
      cases hzero
      rfl

/-- Only the header and the entries are read. -/
theorem mem_acceptLog_read {b : GptBuffer} {start count : Nat}
    (h : .read b start count ∈ acceptLog dev env buf) :
    (b = .head ∧ start = 1 ∧ count = 1) ∨ (b = .pte ∧ entryCount (headAt dev env 1) ≠ 0 ∧
      start = partitionEntryLba (gptHead dev) % 2 ^ 32 ∧ count = arraySize dev % 2 ^ 32 / 512) := by
  rw [acceptLog, List.mem_append, List.mem_append, List.mem_append] at h
  rcases h with ((hhead | hcrc) | halloc) | hcrc
  · cases List.mem_singleton.mp hhead
    exact .inl ⟨rfl, rfl, rfl⟩
  · cases List.mem_singleton.mp hcrc
  · rcases allocReadGptEntries_cases dev env with hnone | ⟨hcount, hsome⟩
    · rw [hnone] at halloc
      cases halloc
    · rw [hsome] at halloc
      cases List.mem_singleton.mp halloc
      exact .inr ⟨rfl, hcount, rfl, rfl⟩
  · cases List.mem_singleton.mp hcrc

/-- An array of whole blocks is all there. -/
theorem pteAt_eq (hblocks : 512 ∣ arraySize dev) :
    pteAt dev env (partitionEntryLba (gptHead dev)) (arraySize dev) = entriesArea dev env := by
  funext i
  rw [pteAt, Nat.mul_div_cancel' hblocks]
  rfl

/-! ## What is not tested -/

/-- The size of a partition as a difference of two numbers of 32 bits. -/
theorem size_iff {first last found : Nat} (hfirst : first < 2 ^ 32) (hfound : found < 2 ^ 32) :
    (((found + 1 + 2 ^ 32 - first) % 2 ^ 32 : Nat) : Int) = (last : Int) - first + 1 ↔
      found = last % 2 ^ 32 ∧ first ≤ last + 1 ∧ last + 1 < first + 2 ^ 32 := by
  have hmod := Nat.mod_lt (found + 1 + 2 ^ 32 - first) (Nat.two_pow_pos 32)
  omega

/-- What is as it should be is sound. -/
theorem sound_of_lookup (hentries : EntriesAccepted dev env buf ptes)
    (h : GptLookup dev (acceptLog dev env buf) part (gptInfo ptes part)) :
    Sound dev env part := by
  obtain ⟨count, hread, hle⟩ := h.entries
  obtain ⟨hcount, hstart, hblocks⟩ : entryCount (headAt dev env 1) ≠ 0 ∧
      partitionEntryLba (gptHead dev) = partitionEntryLba (gptHead dev) % 2 ^ 32 ∧
      count = arraySize dev % 2 ^ 32 / 512 := by
    rcases mem_acceptLog_read hread with ⟨hbuf, -⟩ | ⟨-, hpte⟩
    · cases hbuf
    · exact hpte
  have hproduct := h.product
  have hlba : partitionEntryLba (gptHead dev) < 2 ^ 32 := by
    rw [hstart]
    exact Nat.mod_lt _ (by decide)
  have hwhole : 512 ∣ arraySize dev := by
    rw [hblocks, Nat.mod_eq_of_lt hproduct] at hle
    omega
  have hram : env.zero = .ram := by
    -- the checksum of the entries has been taken of what has been read
    by_contra hram
    have hother := entriesAccepted_other hram hentries
    obtain ⟨start, n, hmem, -⟩ := h.covered buf (entryCount (headAt dev env 1))
      (by rw [acceptLog]; exact List.mem_append_right _ (List.mem_singleton_self _))
      0 (Nat.pos_of_ne_zero hcount)
    rcases mem_acceptLog_read hmem with ⟨hbuf, -⟩ | ⟨hbuf, -⟩
    · cases hother.symm.trans hbuf
    · cases hother.symm.trans hbuf
  have hheader : headerSize (gptHead dev) ≤ 512 := by
    by_contra hlong
    have hsize : headerSize (headAt dev env 1) = headerSize (gptHead dev) :=
      le32At_headAt (by decide)
    obtain ⟨start, n, hmem, hlt⟩ := h.covered .head (headerSize (headAt dev env 1))
      (by simp [acceptLog]) 512 (by omega)
    rcases mem_acceptLog_read hmem with ⟨-, -, hone⟩ | ⟨hbuf, -⟩
    · omega
    · cases hbuf
  have hptes : ptes = entriesArea dev env := by
    rw [(entriesAccepted_ram hram hentries).2.1, Nat.mod_eq_of_lt hlba, Nat.mod_eq_of_lt hproduct,
      pteAt_eq hwhole]
  rw [hptes] at h
  have hfirst : le64At (entriesArea dev env) (fixedOffset part + 32) % 2 ^ 32 =
    startingLba dev part := h.start
  have hsize := h.size
  rw [← h.start] at hsize
  obtain ⟨hlast, hlength⟩ :=
    (size_iff (Nat.mod_lt _ (by decide)) (Nat.mod_lt _ (by decide))).mp hsize
  exact ⟨hram, hheader, hproduct, hwhole, hlba, h.range.2, h.used, hfirst, hlast,
    hfirst ▸ hlength⟩

/-- What is sound and passes the tests is as it should be. -/
theorem lookup_of_sound (hpart : 1 ≤ part) (hhead : HeadAccepted dev env)
    (hentries : EntriesAccepted dev env buf ptes) (h : Sound dev env part) :
    GptLookup dev (acceptLog dev env buf) part (gptInfo ptes part) := by
  obtain ⟨hram, hheader, hproduct, hblocks, hlba, hrange, hused, hstart, hending, hlength⟩ := h
  obtain ⟨rfl, hptes, halloc⟩ := entriesAccepted_ram hram hentries
  rw [Nat.mod_eq_of_lt hlba, Nat.mod_eq_of_lt hproduct] at hptes halloc
  rw [pteAt_eq hblocks] at hptes
  subst hptes
  have hcount : entryCount (headAt dev env 1) = arraySize dev := by
    rw [entryCount_eq, Nat.mod_eq_of_lt hproduct]
  have hsize : headerSize (headAt dev env 1) = headerSize (gptHead dev) :=
    le32At_headAt (by decide)
  have hlog : acceptLog dev env .pte = [.read .head 1 1,
      .crc .head (headerSize (gptHead dev)),
      .read .pte (partitionEntryLba (gptHead dev)) (arraySize dev / 512),
      .crc .pte (arraySize dev)] := by
    rw [acceptLog, halloc, hcount, hsize]
    rfl
  have hwhole : 512 * (arraySize dev / 512) = arraySize dev := Nat.mul_div_cancel' hblocks
  refine ⟨?_, ⟨arraySize dev / 512, ?_, hwhole.ge⟩, hproduct, ?_, ?_, ⟨hpart, hrange⟩, hused,
    hstart, ?_, ?_⟩
  · rw [hlog]
    exact List.mem_cons_self
  · rw [hlog]
    simp
  · have hcrc := hhead.crc
    rw [hsize, efiCrc32, headerCrc32, le32At_headAt (by decide)] at hcrc
    rw [efiCrc32, headerCrc32, ← hcrc]
    refine congrArg (fun bytes => (crc32 bytes).toNat) (readAt_congr fun i hi => ?_)
    have hbyte : headAt dev env 1 i = gptHead dev i := if_pos (by have := hi.2; omega)
    rw [clearCrc, clearCrc, hbyte]
  · have hcrc := hentries.2
    rw [hcount, efiCrc32, partitionEntryArrayCrc32, le32At_headAt (by decide)] at hcrc
    rw [efiCrc32, partitionEntryArrayCrc32, ← hcrc]
    refine congrArg (fun bytes => (crc32 bytes).toNat) (readAt_congr fun i hi => ?_)
    rw [entriesArea, if_pos (by have := hi.2; omega)]
  · have hfirst : (gptInfo (entriesArea dev env) part).start = startingLba dev part := hstart
    rw [← hfirst] at hlength ⊢
    exact (size_iff (Nat.mod_lt _ (by decide)) (Nat.mod_lt _ (by decide))).mpr ⟨hending, hlength⟩
  · intro b len hmem i hi
    rw [hlog] at hmem ⊢
    cases b with
    | head =>
      have hlen : len = headerSize (gptHead dev) := by simpa using hmem
      exact ⟨1, 1, List.mem_cons_self, by omega⟩
    | pte =>
      have hlen : len = arraySize dev := by simpa using hmem
      exact ⟨partitionEntryLba (gptHead dev), arraySize dev / 512, by simp, by omega⟩
    | other => simp at hmem

end Lookup

/-- A partition that is found rests on what has been read and checked, exactly if the tests of the
code leave nothing unsound. -/
theorem lookup_iff (dev : GptDev) (env : GptEnv) (part : Int) :
    LooksUp dev env part ↔ (Accepts dev env part → Sound dev env part) := by
  constructor
  · rintro h ⟨hpart, hhead, buf, ptes, hentries⟩
    have hlookup := h _ (getPartitionInfoEfi_value.mpr ⟨hpart, hhead, buf, ptes, hentries, rfl⟩)
    rw [getPartitionInfoEfi_log hpart hhead hentries] at hlookup
    exact sound_of_lookup hentries hlookup
  · intro h info hvalue
    obtain ⟨hpart, hhead, buf, ptes, hentries, rfl⟩ := getPartitionInfoEfi_value.mp hvalue
    rw [getPartitionInfoEfi_log hpart hhead hentries]
    exact lookup_of_sound hpart hhead hentries (h ⟨hpart, hhead, buf, ptes, hentries⟩)

/-! ## An entry that is not used -/

/-- A byte of a number of 32 bits, the lowest first. -/
def byteOf (n i : Nat) : UInt8 := UInt8.ofNat (n / 256 ^ i)

theorem le32At_of_bytes {m : Contents} {pos n : Nat} (hn : n < 2 ^ 32)
    (h : ∀ i < 4, m (pos + i) = byteOf n i) : le32At m pos = n := by
  have h0 : m pos = byteOf n 0 := h 0 (by decide)
  have h1 := h 1 (by decide)
  have h2 := h 2 (by decide)
  have h3 := h 3 (by decide)
  rw [le32At, h0, h1, h2, h3]
  simp only [byteOf, UInt8.toNat_ofNat']
  omega

/-- The header of a table of four entries of 128 bytes, before the checksums are put in. -/
def blankFields : Bytes :=
  str "EFI PART" ++ [0, 0, 1, 0] ++ [92, 0, 0, 0] ++ List.replicate 8 0 ++
    [1, 0, 0, 0, 0, 0, 0, 0] ++ [63, 0, 0, 0, 0, 0, 0, 0] ++ [3, 0, 0, 0, 0, 0, 0, 0] ++
    [62, 0, 0, 0, 0, 0, 0, 0] ++ List.replicate 16 0 ++ [2, 0, 0, 0, 0, 0, 0, 0] ++
    [4, 0, 0, 0] ++ [128, 0, 0, 0]

/-- That of the entries is put in first. -/
def blankHeader : Contents := fun i =>
  if 88 ≤ i ∧ i < 92 then byteOf (efiCrc32 (fun _ => 0) 512) (i - 88) else blankFields.getD i 0

/-- A disk with such a table, and no entry in use. -/
def blankGpt : GptDev where
  lba := 64
  disk i :=
    if 528 ≤ i ∧ i < 532 then byteOf (efiCrc32 blankHeader 92) (i - 528)
    else if 512 ≤ i then blankHeader (i - 512) else 0
  blockRead _ count := count

/-- A board with RAM at the address 0. -/
def ramEnv : GptEnv where
  stack _ := 0
  malloc _ := true
  heap _ := 0
  zero := .ram

theorem efiCrc32_lt (m : Contents) (len : Nat) : efiCrc32 m len < 2 ^ 32 :=
  (crc32 (readAt m 0 len)).toNat_lt

theorem headAt_blankGpt {i : Nat} (hi : i < 512) (hcrc : ¬ (16 ≤ i ∧ i < 20)) :
    headAt blankGpt ramEnv 1 i = blankHeader i := by
  have hbyte : headAt blankGpt ramEnv 1 i = blankGpt.disk (512 + i) := if_pos hi
  rw [hbyte, blankGpt]
  dsimp only
  rw [if_neg (by omega), if_pos (by omega), Nat.add_sub_cancel_left]

theorem headAccepted_blankGpt : HeadAccepted blankGpt ramEnv where
  read := rfl
  signature := by decide
  crc := by
    have hsize : headerSize (headAt blankGpt ramEnv 1) = 92 := by decide
    have hcrc : headerCrc32 (headAt blankGpt ramEnv 1) = efiCrc32 blankHeader 92 := by
      refine le32At_of_bytes (efiCrc32_lt _ _) fun i hi => ?_
      have hbyte : headAt blankGpt ramEnv 1 (16 + i) = blankGpt.disk (512 + (16 + i)) :=
        if_pos (by omega)
      rw [hbyte, blankGpt]
      dsimp only
      rw [if_pos (by omega), show 512 + (16 + i) - 528 = i by omega]
    rw [hsize, hcrc]
    refine congrArg (fun bytes => (crc32 bytes).toNat) (readAt_congr fun i hi => ?_)
    have hlt : i < 92 := by
      have := hi.2
      omega
    rw [clearCrc]
    by_cases hfield : 16 ≤ i ∧ i < 20
    · rw [if_pos hfield]
      obtain rfl | rfl | rfl | rfl : i = 16 ∨ i = 17 ∨ i = 18 ∨ i = 19 := by omega
      all_goals decide
    · rw [if_neg hfield, headAt_blankGpt (by omega) hfield]
  lba := by decide
  first := by decide
  last := by decide

/-- The array of the entries is blank. -/
theorem gptArray_blankGpt (i : Nat) : gptArray blankGpt i = 0 := by
  have hlba : partitionEntryLba (gptHead blankGpt) = 2 := by decide
  rw [gptArray, hlba, blankGpt]
  dsimp only
  rw [if_neg (by omega), if_pos (by omega), blankHeader, if_neg (by omega)]
  have hlength : blankFields.length = 88 := by decide
  rw [List.getD_eq_getElem?_getD, List.getElem?_eq_none (by omega)]
  rfl

theorem entriesAccepted_blankGpt :
    EntriesAccepted blankGpt ramEnv .pte (pteAt blankGpt ramEnv 2 512) := by
  have hcount : entryCount (headAt blankGpt ramEnv 1) = 512 := by decide
  have hlba : partitionEntryLba (headAt blankGpt ramEnv 1) % 2 ^ 32 = 2 := by decide
  have halloc : allocReadGptEntries blankGpt ramEnv (headAt blankGpt ramEnv 1) =
      ([.read .pte 2 1], some (pteAt blankGpt ramEnv 2 512)) := by
    rw [allocReadGptEntries, hcount, hlba]
    rfl
  refine ⟨by rw [halloc]; rfl, ?_⟩
  have hcrc : partitionEntryArrayCrc32 (headAt blankGpt ramEnv 1) = efiCrc32 (fun _ => 0) 512 := by
    refine le32At_of_bytes (efiCrc32_lt _ _) fun i hi => ?_
    rw [headAt_blankGpt (by omega) (by omega), blankHeader, if_pos (by omega),
      Nat.add_sub_cancel_left]
  rw [hcount, hcrc]
  refine congrArg (fun bytes => (crc32 bytes).toNat) (readAt_congr fun i hi => ?_)
  have hbyte : pteAt blankGpt ramEnv 2 512 i = gptArray blankGpt i := by
    have hlba : partitionEntryLba (gptHead blankGpt) = 2 := by decide
    rw [pteAt, if_pos (by have := hi.2; omega), gptArray, hlba]
  rw [hbyte, gptArray_blankGpt]

/-- The first partition of that disk is found. -/
theorem not_looksUp_blankGpt : ¬ LooksUp blankGpt ramEnv 1 := by
  intro h
  obtain ⟨i, -, hbyte⟩ := (h _ (getPartitionInfoEfi_value.mpr
    ⟨by decide, headAccepted_blankGpt, .pte, _, entriesAccepted_blankGpt, rfl⟩)).used
  exact hbyte (gptArray_blankGpt _)

end UBoot.Disk
