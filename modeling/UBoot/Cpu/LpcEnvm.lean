import UBoot.Lib.Blocks
import Mathlib.Data.List.Basic

/-!
# Writing to the embedded flash of the LPC178x

`cpu/arm_cortexm3/lpc178x/envm.c`.  `envm_write` checks the range, erases the sectors of the start
and the end and what is between them, and programs blocks of 256 bytes.  The calls of the boot ROM
succeed on arguments that are valid for them; reading behind the flash is a fault.

* `envmWrite_sectors_iff`: the write does what it is for exactly if a range in the flash starts on
  a boundary of 256 bytes, and a sum of offset and size that wraps does not end in the sector in
  which the range starts.
-/

namespace UBoot.Cpu.Lpc178x

open UBoot.Lib

/-- `flash_bsize` -/
def flashBsize : List Nat := List.replicate 16 (4 * 1024) ++ List.replicate 14 (32 * 1024)

/-- `iap_num_sectors` and `iap_flash_size`. -/
structure Iap where
  numSectors : Nat
  flashSize : Nat
  le : numSectors ≤ 30
  sum : (flashBsize.take numSectors).sum = flashSize

/-- `lpc178x_iap_init`, with the part identification number. -/
def lpc178xIapInit (val : Nat) : Iap :=
  if val &&& 0x08000000 ≠ 0 then
    if val &&& 0x00000004 ≠ 0 then ⟨30, 512 * 1024, by decide, by decide⟩
    else ⟨22, 256 * 1024, by decide, by decide⟩
  else if val &&& 0x00000004 ≠ 0 then ⟨30, 512 * 1024, by decide, by decide⟩
  else if val &&& 0x00000002 ≠ 0 then ⟨22, 256 * 1024, by decide, by decide⟩
  else ⟨18, 128 * 1024, by decide, by decide⟩

/-- A call of the boot ROM that changes the flash: `lpc178x_iap_erase_sectors` or
`lpc178x_iap_ram_to_flash`. -/
inductive IapOp where
  | eraseSectors (first last : Nat)
  | ramToFlash (dst : Nat)
  deriving DecidableEq, Repr

/-- The flash, and the calls that have changed it. -/
structure St where
  flash : Contents
  ops : List IapOp

/-- The first address of a sector. -/
def sectStart (k : Nat) : Nat := (flashBsize.take k).sum

/-- `lpc178x_iap_prepare_sectors`, with 7 for `INVALID_SECTOR`. -/
def lpc178xIapPrepareSectors (iap : Iap) (first last : Nat) : Nat :=
  if first ≤ last ∧ last < iap.numSectors then 0 else 7

/-- `lpc178x_iap_erase_sectors` -/
def lpc178xIapEraseSectors (iap : Iap) (first last : Nat) (s : St) : Nat × St :=
  if first ≤ last ∧ last < iap.numSectors then
    (0, ⟨eraseAt s.flash (sectStart first) (sectStart (last + 1) - sectStart first),
      s.ops ++ [.eraseSectors first last]⟩)
  else (7, s)

/-- `lpc178x_iap_blank_check_sectors`, with 8 for `SECTOR_NOT_BLANK`. -/
def lpc178xIapBlankCheckSectors (iap : Iap) (first last : Nat) (s : St) : Nat :=
  if first ≤ last ∧ last < iap.numSectors then
    if (readAt s.flash (sectStart first) (sectStart (last + 1) - sectStart first)).all (· == 0xFF)
    then 0 else 8
  else 7

/-- `lpc178x_iap_ram_to_flash`, with 3 for `DST_ADDR_NOT_MAPPED`. -/
def lpc178xIapRamToFlash (iap : Iap) (dst : Nat) (data : Bytes) (s : St) : Nat × St :=
  if dst % 256 = 0 ∧ dst + data.length ≤ iap.flashSize then
    (0, ⟨storeAt s.flash dst data, s.ops ++ [.ramToFlash dst]⟩)
  else (3, s)

/-- The loop of `find_sector`. -/
def findSectorFrom (addr : Nat) : List Nat → Nat → Nat → Nat
  | [], _, _ => 2 ^ 32 - 1
  | bsize :: rest, sectBase, i =>
    if sectBase ≤ addr ∧ addr < sectBase + bsize then i
    else findSectorFrom addr rest (sectBase + bsize) (i + 1)

/-- `find_sector` -/
def findSector (iap : Iap) (addr : Nat) : Nat :=
  findSectorFrom addr (flashBsize.take iap.numSectors) 0 0

/-- `lpc178x_flash_erase` -/
def lpc178xFlashErase (iap : Iap) (offset size : Nat) (s : St) : Int × St :=
  let first := findSector iap offset
  let last := findSector iap ((offset + size + 2 ^ 32 - 1) % 2 ^ 32)
  if last < first ∨ iap.numSectors ≤ last then (-22, s)
  else if lpc178xIapPrepareSectors iap first last ≠ 0 then (-5, s)
  else
    let (status, s) := lpc178xIapEraseSectors iap first last s
    if status ≠ 0 then (-5, s)
    else if lpc178xIapBlankCheckSectors iap first last s ≠ 0 then (-5, s) else (0, s)

/-- `dest[i]` in the flash. -/
def loadFlash (iap : Iap) (s : St) (a : Nat) : Exec UInt8 :=
  if a < iap.flashSize then .ok (s.flash a) else .error (.load a)

/-- "Check that the destination area is erased", with the bytes that are left. -/
def checkErased (iap : Iap) (s : St) : Nat → Nat → Exec Bool
  | _, 0 => .ok true
  | a, n + 1 => do
    let c ← loadFlash iap s a
    if c ≠ 0xFF then .ok false else checkErased iap s (a + 1) n

/-- "Write data in blocks of size IAP_BLOCK_SIZE", with the blocks that are left. -/
def writeBlocks (iap : Iap) (destAddr : Nat) (src : Contents) : Nat → Nat → St → Int × St
  | _, 0, s => (0, s)
  | offset, n + 1, s =>
    let sect := findSector iap ((destAddr + offset) % 2 ^ 32)
    if lpc178xIapPrepareSectors iap sect sect ≠ 0 then (-13, s)
    else
      let (status, s) :=
        lpc178xIapRamToFlash iap ((destAddr + offset) % 2 ^ 32) (readAt src offset 256) s
      if status ≠ 0 then (-13, s) else writeBlocks iap destAddr src (offset + 256) n s

/-- "Verify", with the bytes that are left. -/
def verify (iap : Iap) (destAddr : Nat) (src : Contents) (s : St) : Nat → Nat → Exec Bool
  | _, 0 => .ok true
  | i, n + 1 => do
    let c ← loadFlash iap s (destAddr + i)
    if c ≠ src i then .ok false else verify iap destAddr src s (i + 1) n

/-- `lpc178x_flash_program` -/
def lpc178xFlashProgram (iap : Iap) (destAddr : Nat) (src : Contents) (size : Nat) (s : St) :
    Exec (Int × St) :=
  if size % 256 ≠ 0 then .ok (-22, s)
  else if destAddr % 256 ≠ 0 then .ok (-22, s)
  else if iap.flashSize < (destAddr + size) % 2 ^ 32 then .ok (-22, s)
  else do
    let erased ← checkErased iap s destAddr size
    if erased = false then .ok (-17, s)
    else
      let (rv, s) := writeBlocks iap destAddr src 0 (size / 256) s
      if rv ≠ 0 then .ok (rv, s)
      else do
        let same ← verify iap destAddr src s 0 size
        if same = false then .ok (-11, s) else .ok (0, s)

/-- `envm_write` -/
def envmWrite (iap : Iap) (offset : Nat) (buf : Contents) (size : Nat) (s : St) :
    Exec (Nat × St) :=
  if iap.flashSize < (offset + size) % 2 ^ 32 then .ok (0, s)
  else
    let (rv, s) := lpc178xFlashErase iap offset size s
    if rv < 0 then .ok (0, s)
    else do
      let (rv, s) ← lpc178xFlashProgram iap offset buf ((size + 255) % 2 ^ 32 / 256 * 256) s
      if rv < 0 then .ok (0, s) else .ok (size, s)

/-! ## The sectors -/

section Sectors

variable {iap : Iap} {addr k n : Nat}

theorem flashBsize_length : flashBsize.length = 30 := rfl

theorem sectStart_eq : ∀ k ≤ 30, sectStart k = min k 16 * 4096 + (k - 16) * 32768 := by
  decide

theorem sectStart_mod (hk : k ≤ 30) : sectStart k % 256 = 0 := by
  rw [sectStart_eq k hk]
  omega

theorem sectStart_lt {j : Nat} (hk : k ≤ 30) (h : j < k) : sectStart j < sectStart k := by
  rw [sectStart_eq k hk, sectStart_eq j (by omega)]
  omega

theorem sectStart_le {j : Nat} (hk : k ≤ 30) (h : j ≤ k) : sectStart j ≤ sectStart k := by
  rcases h.lt_or_eq with hlt | rfl
  · exact (sectStart_lt hk hlt).le
  · exact le_rfl

theorem sectStart_numSectors (iap : Iap) : sectStart iap.numSectors = iap.flashSize := iap.sum

theorem Iap.flashSize_le (iap : Iap) : iap.flashSize ≤ 512 * 1024 := by
  rw [← sectStart_numSectors]
  exact (sectStart_le le_rfl iap.le).trans (by decide)

theorem sectStart_succ (hk : k < 30) : sectStart (k + 1) = sectStart k + flashBsize[k]! := by
  have hlt : k < flashBsize.length := hk
  unfold sectStart
  rw [List.take_add_one, List.getElem?_eq_getElem hlt, List.sum_append,
    List.getElem!_eq_getElem?_getD, List.getElem?_eq_getElem hlt]
  simp

/-- The address lies in the sector. -/
def InSector (k a : Nat) : Prop := sectStart k ≤ a ∧ a < sectStart (k + 1)

/-- The search from sector `n` on. -/
theorem findSectorFrom_eq (hn : n ≤ iap.numSectors) (haddr : sectStart n ≤ addr) :
    (∃ k < iap.numSectors, InSector k addr ∧
      findSectorFrom addr ((flashBsize.take iap.numSectors).drop n) (sectStart n) n = k) ∨
    (iap.flashSize ≤ addr ∧
      findSectorFrom addr ((flashBsize.take iap.numSectors).drop n) (sectStart n) n =
        2 ^ 32 - 1) := by
  have hle := iap.le
  have hlen : (flashBsize.take iap.numSectors).length = iap.numSectors := by
    rw [List.length_take, flashBsize_length]
    omega
  induction hleft : iap.numSectors - n generalizing n with
  | zero =>
    have hall : n = iap.numSectors := by omega
    subst hall
    right
    rw [sectStart_numSectors] at haddr
    refine ⟨haddr, ?_⟩
    rw [List.drop_of_length_le (by omega)]
    rfl
  | succ left ih =>
    have hlt : n < (flashBsize.take iap.numSectors).length := by omega
    have hnext : sectStart n + (flashBsize.take iap.numSectors)[n] = sectStart (n + 1) := by
      rw [sectStart_succ (by omega), List.getElem_take,
        List.getElem!_eq_getElem?_getD, List.getElem?_eq_getElem (by rw [flashBsize_length]; omega)]
      rfl
    rw [List.drop_eq_getElem_cons hlt, findSectorFrom, hnext]
    split
    · rename_i hin
      exact Or.inl ⟨n, by omega, hin, rfl⟩
    · exact ih (by omega) (by omega) (by omega)

theorem findSector_cases (iap : Iap) (addr : Nat) :
    (∃ k < iap.numSectors, InSector k addr ∧ findSector iap addr = k) ∨
    (iap.flashSize ≤ addr ∧ findSector iap addr = 2 ^ 32 - 1) :=
  @findSectorFrom_eq iap addr 0 (Nat.zero_le _) (Nat.zero_le _)

/-- An address of the flash is found in its sector. -/
theorem findSector_of_lt (h : addr < iap.flashSize) :
    findSector iap addr < iap.numSectors ∧ InSector (findSector iap addr) addr := by
  rcases findSector_cases iap addr with ⟨k, hk, hin, heq⟩ | ⟨hout, -⟩
  · rw [heq]
    exact ⟨hk, hin⟩
  · omega

theorem findSector_of_le (h : iap.flashSize ≤ addr) : findSector iap addr = 2 ^ 32 - 1 := by
  rcases findSector_cases iap addr with ⟨k, hk, hin, -⟩ | ⟨-, heq⟩
  · have hle : sectStart (k + 1) ≤ sectStart iap.numSectors := sectStart_le iap.le hk
    rw [sectStart_numSectors] at hle
    unfold InSector at hin
    omega
  · exact heq

theorem InSector.unique {j : Nat} (hj : j ≤ 29) (hk : k ≤ 29) (h : InSector j addr)
    (h' : InSector k addr) : j = k := by
  unfold InSector at h h'
  rcases Nat.lt_trichotomy j k with hlt | heq | hlt
  · have := @sectStart_le k (j + 1) (by omega) hlt
    omega
  · exact heq
  · have := @sectStart_le j (k + 1) (by omega) hlt
    omega

theorem findSector_eq_iff (hk : k < iap.numSectors) :
    findSector iap addr = k ↔ InSector k addr := by
  have hle := iap.le
  constructor
  · rintro rfl
    rcases findSector_cases iap addr with ⟨j, hj, hin, heq⟩ | ⟨-, heq⟩
    · rw [heq]
      exact hin
    · omega
  · intro hin
    rcases findSector_cases iap addr with ⟨j, hj, hin', heq⟩ | ⟨hout, -⟩
    · rw [heq]
      exact hin'.unique (by omega) (by omega) hin
    · have hend : sectStart (k + 1) ≤ sectStart iap.numSectors := sectStart_le hle hk
      rw [sectStart_numSectors] at hend
      unfold InSector at hin
      omega

/-- A higher address is in the same sector or in a later one. -/
theorem findSector_mono {a : Nat} (h : a ≤ addr) (haddr : addr < iap.flashSize) :
    findSector iap a ≤ findSector iap addr := by
  have hle := iap.le
  obtain ⟨hj, hinj⟩ := @findSector_of_lt iap a (by omega)
  obtain ⟨hk, hink⟩ := findSector_of_lt haddr
  by_contra hlt
  have := @sectStart_le (findSector iap a) (findSector iap addr + 1) (by omega) (by omega)
  unfold InSector at hinj hink
  omega

end Sectors

/-! ## Erasing and programming -/

section Program

variable {iap : Iap} {src : Contents} {s s' : St} {rv : Int} {a n first last offset size dest : Nat}

/-- The calls that change a flash byte. -/
def IapOp.Touches (a : Nat) : IapOp → Prop
  | eraseSectors first last => sectStart first ≤ a ∧ a < sectStart (last + 1)
  | ramToFlash dst => dst ≤ a ∧ a < dst + 256

/-- The flash after the erase of sectors. -/
def erased (first last : Nat) (s : St) : St :=
  ⟨eraseAt s.flash (sectStart first) (sectStart (last + 1) - sectStart first),
    s.ops ++ [.eraseSectors first last]⟩

theorem erased_flash (hle : first ≤ last) (hlast : last < iap.numSectors) :
    (erased first last s).flash a =
      if sectStart first ≤ a ∧ a < sectStart (last + 1) then 0xFF else s.flash a := by
  have hstart := @sectStart_le (last + 1) first (hlast.trans_le iap.le) (by omega)
  show eraseAt s.flash _ _ a = _
  rw [eraseAt]
  by_cases hin : InRange (sectStart first) (sectStart (last + 1) - sectStart first) a
  · rw [if_pos hin]
    unfold InRange at hin
    rw [if_pos (by omega)]
  · rw [if_neg hin]
    unfold InRange at hin
    rw [if_neg (by omega)]

theorem prepareSectors_ok (hle : first ≤ last) (hlt : last < iap.numSectors) :
    lpc178xIapPrepareSectors iap first last = 0 := if_pos ⟨hle, hlt⟩

theorem eraseSectors_ok (hle : first ≤ last) (hlt : last < iap.numSectors) :
    lpc178xIapEraseSectors iap first last s = (0, erased first last s) := if_pos ⟨hle, hlt⟩

theorem blankCheckSectors_ok (hle : first ≤ last) (hlt : last < iap.numSectors) :
    lpc178xIapBlankCheckSectors iap first last (erased first last s) = 0 := by
  have hblank : (readAt (erased first last s).flash (sectStart first)
      (sectStart (last + 1) - sectStart first)).all (· == 0xFF) = true := by
    rw [List.all_eq_true]
    intro c hc
    obtain ⟨a, ha, rfl⟩ := List.mem_map.mp hc
    have ha := List.mem_range'_1.mp ha
    rw [erased_flash hle hlt, if_pos (by omega)]
    rfl
  rw [lpc178xIapBlankCheckSectors, if_pos ⟨hle, hlt⟩, if_pos hblank]

theorem ramToFlash_ok {data : Bytes} (halign : dest % 256 = 0)
    (hfit : dest + data.length ≤ iap.flashSize) : lpc178xIapRamToFlash iap dest data s =
      (0, ⟨storeAt s.flash dest data, s.ops ++ [.ramToFlash dest]⟩) := if_pos ⟨halign, hfit⟩

theorem flashErase_ok (hfirst : findSector iap offset = first)
    (hlast : findSector iap ((offset + size + 2 ^ 32 - 1) % 2 ^ 32) = last) (hle : first ≤ last)
    (hlt : last < iap.numSectors) :
    lpc178xFlashErase iap offset size s = (0, erased first last s) := by
  unfold lpc178xFlashErase
  rw [hfirst, hlast]
  dsimp only
  rw [if_neg (by omega), prepareSectors_ok hle hlt, if_neg (by simp), eraseSectors_ok hle hlt]
  dsimp only
  rw [if_neg (by simp), blankCheckSectors_ok hle hlt, if_neg (by simp)]

theorem flashErase_refused (h : findSector iap ((offset + size + 2 ^ 32 - 1) % 2 ^ 32) <
      findSector iap offset ∨
      iap.numSectors ≤ findSector iap ((offset + size + 2 ^ 32 - 1) % 2 ^ 32)) :
    lpc178xFlashErase iap offset size s = (-22, s) := by
  unfold lpc178xFlashErase
  dsimp only
  rw [if_pos h]

theorem loadFlash_ok (h : a < iap.flashSize) : loadFlash iap s a = .ok (s.flash a) := if_pos h

theorem checkErased_ok (hfit : a + n ≤ iap.flashSize)
    (hblank : ∀ i, a ≤ i → i < a + n → s.flash i = 0xFF) : checkErased iap s a n = .ok true := by
  induction n generalizing a with
  | zero => rfl
  | succ n ih =>
    rw [checkErased, loadFlash_ok (by omega), ok_bind, hblank a le_rfl (by omega), if_neg (by simp)]
    exact ih (by omega) fun i hlo hhi => hblank i (by omega) (by omega)

/-- An area that is found to be erased lies in the flash. -/
theorem checkErased_fits (hpos : 0 < n) (h : checkErased iap s a n = .ok true) :
    a + n ≤ iap.flashSize := by
  induction n generalizing a with
  | zero => omega
  | succ n ih =>
    obtain ⟨c, hload, h⟩ := bind_eq_ok.mp h
    have ha : a < iap.flashSize := by
      by_contra hout
      rw [loadFlash, if_neg hout] at hload
      cases hload
    split at h
    · cases h
    · rcases Nat.eq_zero_or_pos n with rfl | hn
      · omega
      · have := ih hn h
        omega

theorem verify_ok {i : Nat} (hfit : dest + i + n ≤ iap.flashSize)
    (hsame : ∀ j, i ≤ j → j < i + n → s.flash (dest + j) = src j) :
    verify iap dest src s i n = .ok true := by
  induction n generalizing i with
  | zero => rfl
  | succ n ih =>
    rw [verify, loadFlash_ok (by omega), ok_bind, hsame i le_rfl (by omega), if_neg (by simp)]
    exact ih (by omega) fun j hlo hhi => hsame j (by omega) (by omega)

/-- A block and the data behind it. -/
theorem storeAt_block {c : Contents} :
    (if dest + (offset + 256) ≤ a ∧ a < dest + (offset + 256) + n * 256 then src (a - dest)
      else storeAt c (dest + offset) (readAt src offset 256) a) =
    if dest + offset ≤ a ∧ a < dest + offset + (n + 1) * 256 then src (a - dest) else c a := by
  by_cases hlater : dest + (offset + 256) ≤ a ∧ a < dest + (offset + 256) + n * 256
  · rw [if_pos hlater, if_pos (by omega)]
  · rw [if_neg hlater, storeAt, length_readAt]
    by_cases hin : InRange (dest + offset) 256 a
    · rw [if_pos hin]
      unfold InRange at hin
      have hpos : offset + (a - (dest + offset)) = a - dest := by omega
      rw [if_pos (by omega), List.getD_eq_getElem?_getD, getElem?_readAt (by omega),
        Option.getD_some, hpos]
    · rw [if_neg hin]
      unfold InRange at hin
      rw [if_neg (by omega)]

/-- The loop over the blocks stores the data that is left. -/
theorem writeBlocks_ok (halign : (dest + offset) % 256 = 0)
    (hfit : dest + offset + n * 256 ≤ iap.flashSize) :
    ∃ s', writeBlocks iap dest src offset n s = (0, s') ∧
      (∀ a, s'.flash a = if dest + offset ≤ a ∧ a < dest + offset + n * 256 then src (a - dest)
        else s.flash a) ∧
      ∃ ops, s'.ops = s.ops ++ ops ∧ ∀ op ∈ ops, ∀ a, op.Touches a →
        dest + offset ≤ a ∧ a < dest + offset + n * 256 := by
  have hsize := iap.flashSize_le
  induction n generalizing offset s with
  | zero =>
    refine ⟨s, rfl, ?_, [], (List.append_nil _).symm, fun op hop => by cases hop⟩
    intro a
    rw [if_neg (by omega)]
  | succ n ih =>
    have hblock : dest + offset + 256 ≤ iap.flashSize := by omega
    have hmod : (dest + offset) % 2 ^ 32 = dest + offset := Nat.mod_eq_of_lt (by omega)
    obtain ⟨hsect, -⟩ := @findSector_of_lt iap (dest + offset) (by omega)
    obtain ⟨s', heq, hflash, ops, hops, htouch⟩ := @ih
      ⟨storeAt s.flash (dest + offset) (readAt src offset 256),
        s.ops ++ [.ramToFlash (dest + offset)]⟩
      (offset + 256) (by omega) (by omega)
    refine ⟨s', ?_, ?_, .ramToFlash (dest + offset) :: ops, ?_, ?_⟩
    · rw [writeBlocks, hmod]
      dsimp only
      rw [prepareSectors_ok le_rfl hsect, if_neg (by simp),
        ramToFlash_ok halign (by rw [length_readAt]; exact hblock)]
      dsimp only
      rw [if_neg (by simp), heq]
    · intro a
      rw [hflash a]
      exact storeAt_block
    · rw [hops, List.append_assoc, List.singleton_append]
    · intro op hop a ha
      rcases List.mem_cons.mp hop with rfl | hop
      · obtain ⟨hlo, hhi⟩ := ha
        exact ⟨hlo, by omega⟩
      · have := htouch op hop a ha
        omega

/-- The program of an erased area. -/
theorem flashProgram_ok (hsize : size % 256 = 0) (hdest : dest % 256 = 0)
    (hfit : dest + size ≤ iap.flashSize)
    (hblank : ∀ a, dest ≤ a → a < dest + size → s.flash a = 0xFF) :
    ∃ s', lpc178xFlashProgram iap dest src size s = .ok (0, s') ∧
      (∀ a, s'.flash a = if dest ≤ a ∧ a < dest + size then src (a - dest) else s.flash a) ∧
      ∃ ops, s'.ops = s.ops ++ ops ∧ ∀ op ∈ ops, ∀ a, op.Touches a →
        dest ≤ a ∧ a < dest + size := by
  have hlimit := iap.flashSize_le
  have hblocks : size / 256 * 256 = size := by omega
  obtain ⟨s', heq, hflash, hops⟩ :=
    @writeBlocks_ok iap src s (size / 256) 0 dest hdest (by omega)
  rw [Nat.add_zero, hblocks] at hflash hops
  refine ⟨s', ?_, hflash, hops⟩
  have hsame : ∀ j, 0 ≤ j → j < 0 + size → s'.flash (dest + j) = src j := by
    intro j _ hj
    rw [hflash, if_pos (by omega), Nat.add_sub_cancel_left]
  unfold lpc178xFlashProgram
  rw [if_neg (by omega), if_neg (by omega), Nat.mod_eq_of_lt (by omega), if_neg (by omega),
    checkErased_ok hfit hblank, ok_bind, if_neg (by simp), heq]
  dsimp only
  rw [if_neg (by simp), verify_ok (by omega) hsame, ok_bind, if_neg (by simp)]

/-- A program of nothing, or of more than the flash, stores nothing. -/
theorem flashProgram_keeps (hsize : size = 0 ∨ iap.flashSize < dest + size)
    (h : lpc178xFlashProgram iap dest src size s = .ok (rv, s')) : s'.flash = s.flash := by
  unfold lpc178xFlashProgram at h
  split at h
  · cases h
    rfl
  split at h
  · cases h
    rfl
  split at h
  · cases h
    rfl
  obtain ⟨blank, hcheck, h⟩ := bind_eq_ok.mp h
  split at h
  · cases h
    rfl
  · rename_i hblank
    rw [Bool.not_eq_false] at hblank
    subst hblank
    rcases Nat.eq_zero_or_pos size with rfl | hpos
    · obtain ⟨same, hsame, h⟩ := bind_eq_ok.mp h
      cases hsame
      cases h
      rfl
    · have := checkErased_fits hpos hcheck
      omega

end Program

/-! ## The write -/

section Write

variable {iap : Iap} {buf : Contents} {s : St} {offset size : Nat}

/-- The sector of the address meets the range. -/
def Meets (iap : Iap) (offset size a : Nat) : Prop :=
  ∃ i < size, findSector iap a = findSector iap (offset + i)

/-- What `envm_write` is for.  If it returns the size then the data is in the flash, no sector
but those of the range was touched, and what the buffer holds behind the data decides nothing
outside the sector of the last byte; and what has to be refused leaves the flash as it was. -/
def EnvmOk (iap : Iap) (offset size : Nat) : Prop :=
  ∀ buf flash, ∃ ret s', envmWrite iap offset buf size ⟨flash, []⟩ = .ok (ret, s') ∧
    (ret = size →
      (∀ i < size, s'.flash (offset + i) = buf i) ∧
      (∀ op ∈ s'.ops, ∀ a, op.Touches a → Meets iap offset size a) ∧
      ∀ buf' ret' s'', (∀ i < size, buf' i = buf i) →
        envmWrite iap offset buf' size ⟨flash, []⟩ = .ok (ret', s'') →
        ∀ a, findSector iap a ≠ findSector iap (offset + size - 1) →
          s''.flash a = s'.flash a) ∧
    (¬ (offset + size ≤ iap.flashSize ∧ 256 ∣ offset) →
      ret = 0 ∧ ∀ a < iap.flashSize, s'.flash a = flash a)

/-- A range in the flash starts on a boundary of 256 bytes; and a sum that wraps does not end in
the sector in which the range starts. -/
def RangeOk (iap : Iap) (offset size : Nat) : Prop :=
  (offset + size ≤ iap.flashSize → 256 ∣ offset) ∧
    (2 ^ 32 ≤ offset + size → offset < iap.flashSize → (offset + size) % 2 ^ 32 ≠ 0 →
      findSector iap ((offset + size) % 2 ^ 32 - 1) ≠ findSector iap offset)

theorem envmWrite_refused (h : iap.flashSize < (offset + size) % 2 ^ 32) :
    envmWrite iap offset buf size s = .ok (0, s) := if_pos h

/-- What the erase refuses. -/
theorem envmWrite_noErase (hcheck : (offset + size) % 2 ^ 32 ≤ iap.flashSize)
    (h : findSector iap ((offset + size + 2 ^ 32 - 1) % 2 ^ 32) < findSector iap offset ∨
      iap.numSectors ≤ findSector iap ((offset + size + 2 ^ 32 - 1) % 2 ^ 32)) :
    envmWrite iap offset buf size s = .ok (0, s) := by
  unfold envmWrite
  rw [if_neg (by omega), flashErase_refused h]
  rfl

/-- What is erased is programmed. -/
theorem envmWrite_erased (hcheck : (offset + size) % 2 ^ 32 ≤ iap.flashSize)
    (hle : findSector iap offset ≤ findSector iap ((offset + size + 2 ^ 32 - 1) % 2 ^ 32))
    (hlt : findSector iap ((offset + size + 2 ^ 32 - 1) % 2 ^ 32) < iap.numSectors) :
    envmWrite iap offset buf size s =
      (lpc178xFlashProgram iap offset buf ((size + 255) % 2 ^ 32 / 256 * 256)
        (erased (findSector iap offset)
          (findSector iap ((offset + size + 2 ^ 32 - 1) % 2 ^ 32)) s) >>=
        fun r => if r.1 < 0 then .ok (0, r.2) else .ok (size, r.2)) := by
  unfold envmWrite
  rw [if_neg (by omega), flashErase_ok rfl rfl hle hlt]
  rfl

/-- The flash after a write that is accepted. -/
def stored (iap : Iap) (offset : Nat) (buf : Contents) (size : Nat) (flash : Contents) :
    Contents := fun a =>
  if offset ≤ a ∧ a < offset + (size + 255) / 256 * 256 then buf (a - offset)
  else if sectStart (findSector iap offset) ≤ a ∧
      a < sectStart (findSector iap (offset + size - 1) + 1) then 0xFF
  else flash a

theorem envmWrite_accepted (hpos : 0 < size) (hfit : offset + size ≤ iap.flashSize)
    (halign : 256 ∣ offset) :
    ∃ s', envmWrite iap offset buf size s = .ok (size, s') ∧
      (∀ a, s'.flash a = stored iap offset buf size s.flash a) ∧
      ∃ ops, s'.ops = s.ops ++ ops ∧ ∀ op ∈ ops, ∀ a, op.Touches a →
        sectStart (findSector iap offset) ≤ a ∧
          a < sectStart (findSector iap (offset + size - 1) + 1) := by
  have hlimit := iap.flashSize_le
  have hle := iap.le
  have hmod : (offset + size) % 2 ^ 32 = offset + size := Nat.mod_eq_of_lt (by omega)
  have hend : (offset + size + 2 ^ 32 - 1) % 2 ^ 32 = offset + size - 1 := by omega
  have hround : (size + 255) % 2 ^ 32 = size + 255 := Nat.mod_eq_of_lt (by omega)
  obtain ⟨-, hinFirst⟩ := @findSector_of_lt iap offset (by omega)
  obtain ⟨hlast, hinLast⟩ := @findSector_of_lt iap (offset + size - 1) (by omega)
  have hmono : findSector iap offset ≤ findSector iap (offset + size - 1) :=
    findSector_mono (by omega) (by omega)
  -- The rounded range stays in the sector of the last byte.
  have hpad : offset + (size + 255) / 256 * 256 ≤
      sectStart (findSector iap (offset + size - 1) + 1) := by
    have hblock := @sectStart_mod (findSector iap (offset + size - 1) + 1) (by omega)
    have hbehind := hinLast.2
    omega
  have hflashEnd := @sectStart_le iap.numSectors (findSector iap (offset + size - 1) + 1) hle hlast
  rw [sectStart_numSectors] at hflashEnd
  have hstart := hinFirst.1
  obtain ⟨s', heq, hflash, ops, hops, htouch⟩ := @flashProgram_ok iap buf
    (erased (findSector iap offset) (findSector iap (offset + size - 1)) s)
    ((size + 255) / 256 * 256) offset (by omega) (by omega) (by omega) (by
      intro a hlo hhi
      rw [erased_flash hmono hlast, if_pos (by omega)])
  refine ⟨s', ?_, ?_, .eraseSectors (findSector iap offset)
    (findSector iap (offset + size - 1)) :: ops, ?_, ?_⟩
  · rw [envmWrite_erased (by rw [hmod]; exact hfit) (by rw [hend]; exact hmono)
      (by rw [hend]; exact hlast), hend, hround, heq]
    rfl
  · intro a
    rw [hflash, erased_flash hmono hlast]
    rfl
  · rw [hops, erased, List.append_assoc, List.singleton_append]
  · intro op hop a ha
    rcases List.mem_cons.mp hop with rfl | hop
    · exact ha
    · have := htouch op hop a ha
      omega

/-- The sectors from that of the start to that of the last byte meet the range. -/
theorem meets_of_mem {a : Nat} (hpos : 0 < size) (hfit : offset + size ≤ iap.flashSize)
    (hlo : sectStart (findSector iap offset) ≤ a)
    (hhi : a < sectStart (findSector iap (offset + size - 1) + 1)) :
    Meets iap offset size a := by
  have hle := iap.le
  obtain ⟨hlast, hinLast⟩ := @findSector_of_lt iap (offset + size - 1) (by omega)
  obtain ⟨hfirst, hinFirst⟩ := @findSector_of_lt iap offset (by omega)
  have hflashEnd := @sectStart_le iap.numSectors (findSector iap (offset + size - 1) + 1) hle hlast
  rw [sectStart_numSectors] at hflashEnd
  obtain ⟨hsect, hin⟩ := @findSector_of_lt iap a (by omega)
  -- The address is in front of the range, in it or behind it.
  rcases Nat.lt_or_ge a offset with hfront | hge
  · refine ⟨0, hpos, ?_⟩
    rw [Nat.add_zero, findSector_eq_iff hfirst]
    have := hinFirst.2
    exact ⟨hlo, by omega⟩
  · rcases Nat.lt_or_ge a (offset + size) with hinside | hbehind
    · exact ⟨a - offset, by omega, by rw [Nat.add_sub_cancel' hge]⟩
    · refine ⟨size - 1, by omega, ?_⟩
      rw [← Nat.add_sub_assoc hpos, findSector_eq_iff hlast]
      have := hinLast.1
      exact ⟨by omega, hhi⟩

/-- What is erased for a range that is refused afterwards. -/
theorem envmWrite_erases {ret : Nat} {s' : St}
    (hcheck : (offset + size) % 2 ^ 32 ≤ iap.flashSize)
    (hin : offset < iap.flashSize)
    (hle : findSector iap offset ≤ findSector iap ((offset + size + 2 ^ 32 - 1) % 2 ^ 32))
    (hlt : findSector iap ((offset + size + 2 ^ 32 - 1) % 2 ^ 32) < iap.numSectors)
    (hnone : offset % 256 ≠ 0 ∨ (size + 255) % 2 ^ 32 / 256 * 256 = 0 ∨
      iap.flashSize < offset + (size + 255) % 2 ^ 32 / 256 * 256)
    (h : envmWrite iap offset buf size s = .ok (ret, s')) : s'.flash offset = 0xFF := by
  rw [envmWrite_erased hcheck hle hlt] at h
  obtain ⟨⟨rv, s₁⟩, hprogram, hret⟩ := bind_eq_ok.mp h
  have hs : s₁ = s' := by
    dsimp only at hret
    split at hret <;> cases hret <;> rfl
  subst hs
  have hkept : s₁.flash = (erased (findSector iap offset)
      (findSector iap ((offset + size + 2 ^ 32 - 1) % 2 ^ 32)) s).flash := by
    rcases hnone with hodd | hlarge
    · rw [lpc178xFlashProgram, if_neg (by omega), if_pos hodd] at hprogram
      cases hprogram
      rfl
    · exact flashProgram_keeps hlarge hprogram
  have hsector := (findSector_of_lt hin).2
  have hend := @sectStart_le (findSector iap ((offset + size + 2 ^ 32 - 1) % 2 ^ 32) + 1)
    (findSector iap offset + 1) (by have := iap.le; omega) (by omega)
  unfold InSector at hsector
  rw [hkept, erased_flash hle hlt, if_pos (by omega)]

theorem rangeOk_of_envmOk (hpos : 0 < size) (hoffset : offset < 2 ^ 32) (hsize : size < 2 ^ 32)
    (hok : EnvmOk iap offset size) : RangeOk iap offset size := by
  have hlimit := iap.flashSize_le
  obtain ⟨ret, s', heq, -, hrefused⟩ := hok (fun _ => 0) (fun _ => 0)
  refine ⟨?_, ?_⟩
  · intro hfit
    by_contra halign
    have hin : offset < iap.flashSize := by omega
    have hend : (offset + size + 2 ^ 32 - 1) % 2 ^ 32 = offset + size - 1 := by omega
    have herased := envmWrite_erases (by omega) hin
      (by rw [hend]; exact findSector_mono (by omega) (by omega))
      (by rw [hend]; exact (findSector_of_lt (by omega)).1) (Or.inl (by omega)) heq
    have hkept := (hrefused fun h => halign h.2).2 offset hin
    rw [herased] at hkept
    exact absurd hkept (by decide)
  · intro hwrap hin hne hsame
    have hend : (offset + size + 2 ^ 32 - 1) % 2 ^ 32 = (offset + size) % 2 ^ 32 - 1 := by omega
    obtain ⟨hfirst, hsector⟩ := findSector_of_lt hin
    have hend' := (findSector_eq_iff hfirst).mp hsame
    have hstop := @sectStart_le iap.numSectors (findSector iap offset + 1) iap.le hfirst
    rw [sectStart_numSectors] at hstop
    unfold InSector at hend'
    have herased := envmWrite_erases (by omega) hin (by rw [hend, hsame])
      (by rw [hend, hsame]; exact hfirst) (Or.inr (by omega)) heq
    have hkept := (hrefused fun h => by omega).2 offset hin
    rw [herased] at hkept
    exact absurd hkept (by decide)

/-- A range outside the flash is refused, unless its sum wraps into the sector of its start. -/
theorem envmWrite_outside (hpos : 0 < size) (hoffset : offset < 2 ^ 32) (hsize : size < 2 ^ 32)
    (hout : ¬ offset + size ≤ iap.flashSize) (hok : RangeOk iap offset size) :
    envmWrite iap offset buf size s = .ok (0, s) := by
  have hlimit := iap.flashSize_le
  have hle := iap.le
  by_cases hcheck : iap.flashSize < (offset + size) % 2 ^ 32
  · exact envmWrite_refused hcheck
  · refine envmWrite_noErase (by omega) ?_
    by_cases hin : offset < iap.flashSize
    · by_cases hne : (offset + size) % 2 ^ 32 = 0
      · have hend : (offset + size + 2 ^ 32 - 1) % 2 ^ 32 = 2 ^ 32 - 1 := by omega
        right
        rw [hend, findSector_of_le (by omega)]
        omega
      · have hend : (offset + size + 2 ^ 32 - 1) % 2 ^ 32 = (offset + size) % 2 ^ 32 - 1 := by
          omega
        have hother := hok.2 (by omega) hin hne
        have hmono : findSector iap ((offset + size) % 2 ^ 32 - 1) ≤ findSector iap offset :=
          findSector_mono (by omega) hin
        left
        rw [hend]
        omega
    · have hfirst := @findSector_of_le iap offset (by omega)
      rcases findSector_cases iap ((offset + size + 2 ^ 32 - 1) % 2 ^ 32) with
        ⟨k, hk, -, heq⟩ | ⟨-, heq⟩
      · left
        omega
      · right
        omega

/-- `envm_write` does what it is for exactly for the ranges above. -/
theorem envmWrite_sectors_iff (hpos : 0 < size) (hoffset : offset < 2 ^ 32)
    (hsize : size < 2 ^ 32) : EnvmOk iap offset size ↔ RangeOk iap offset size := by
  constructor
  · exact rangeOk_of_envmOk hpos hoffset hsize
  · intro hok buf flash
    by_cases hfit : offset + size ≤ iap.flashSize
    · have halign := hok.1 hfit
      obtain ⟨s', heq, hflash, ops, hops, htouch⟩ :=
        @envmWrite_accepted iap buf ⟨flash, []⟩ offset size hpos hfit halign
      refine ⟨size, s', heq, fun _ => ⟨?_, ?_, ?_⟩, fun h => absurd ⟨hfit, halign⟩ h⟩
      · intro i hi
        rw [hflash, stored, if_pos (by omega), Nat.add_sub_cancel_left]
      · intro op hop a ha
        rw [hops, List.nil_append] at hop
        obtain ⟨hlo, hhi⟩ := htouch op hop a ha
        exact meets_of_mem hpos hfit hlo hhi
      · intro buf' ret' s'' hsame heq' a ha
        obtain ⟨s₁, heq₁, hflash₁, -⟩ :=
          @envmWrite_accepted iap buf' ⟨flash, []⟩ offset size hpos hfit halign
        rw [heq₁] at heq'
        cases heq'
        rw [hflash, hflash₁, stored, stored]
        split
        · rename_i hin
          -- Behind the data the block is still in the sector of the last byte.
          have hdata : a - offset < size := by
            by_contra hpad
            apply ha
            obtain ⟨hlast, hinLast⟩ := @findSector_of_lt iap (offset + size - 1) (by omega)
            have hblock := @sectStart_mod (findSector iap (offset + size - 1) + 1)
              (by have := iap.le; omega)
            rw [findSector_eq_iff hlast]
            unfold InSector at *
            omega
          exact hsame _ hdata
        · rfl
    · refine ⟨0, ⟨flash, []⟩, envmWrite_outside hpos hoffset hsize hfit hok, fun h => by omega,
        fun _ => ⟨rfl, fun _ _ => rfl⟩⟩

/-- Eight bytes to the second sector of the LPC1788. -/
theorem envmWrite_sectors_lpc1788 : 0 < 8 ∧ 0x1000 < 2 ^ 32 ∧ 8 < 2 ^ 32 ∧
    RangeOk (lpc178xIapInit 0x281D3F47) 0x1000 8 ∧ EnvmOk (lpc178xIapInit 0x281D3F47) 0x1000 8 := by
  have hok : RangeOk (lpc178xIapInit 0x281D3F47) 0x1000 8 :=
    ⟨fun _ => by decide, fun h => absurd h (by decide)⟩
  exact ⟨by decide, by decide, by decide, hok,
    (envmWrite_sectors_iff (by decide) (by decide) (by decide)).mpr hok⟩

/-- A write that does not start on a boundary of 256 bytes is refused after the erase. -/
theorem envmWrite_not_sectors : ¬ EnvmOk (lpc178xIapInit 0x281D3F47) 0x1004 8 := by
  intro hok
  exact absurd ((rangeOk_of_envmOk (by decide) (by decide) (by decide) hok).1 (by decide))
    (by decide)

end Write

end UBoot.Cpu.Lpc178x
