import Mathlib

/-!
# Flash banks

`common/flash.c`: the banks of `flash_info` and the copy of a range of memory to flash.  An
`ulong` has 32 bits, so the address behind a bank at the end of the address space is 0, which
`addr2info` is careful about and the two loops of `flash_write` are not.  The loops go through
the banks in the order of the array, from the one of the first address to the one of the last.

`write_buff` is the driver's.  A run of `flash_write` calls it at most once for a bank, so its
answers are a function of the index of the bank, and the calls are part of the result.
-/

namespace UBoot.Common

/-- `flash_info_t`, with sectors that are in order and fill the bank.  `known` is
`flash_id != FLASH_UNKNOWN`, and `protect` is `protect[i] != 0`. -/
structure FlashInfo where
  size : Nat
  sectorCount : Nat
  known : Bool
  start : Nat → Nat
  protect : Nat → Bool
  size_lt : size < 2 ^ 32
  count_pos : 0 < sectorCount
  count_le : sectorCount ≤ 2 ^ 15
  start_lt : ∀ i, i + 1 < sectorCount → start i < start (i + 1)
  last_lt : start (sectorCount - 1) < start 0 + size
  end_le : start 0 + size ≤ 2 ^ 32

namespace FlashInfo

/-- The address behind the bank. -/
def stop (b : FlashInfo) : Nat := b.start 0 + b.size

/-- The address behind the sector. -/
def sectorStop (b : FlashInfo) (i : Nat) : Nat :=
  if i + 1 = b.sectorCount then b.stop else b.start (i + 1)

/-- The address lies in the sector. -/
def InSector (b : FlashInfo) (i a : Nat) : Prop :=
  i < b.sectorCount ∧ b.start i ≤ a ∧ a < b.sectorStop i

/-- The address lies in the bank. -/
def InBank (b : FlashInfo) (a : Nat) : Prop := b.start 0 ≤ a ∧ a < b.stop

/-- `info->start[0] + info->size` -/
def bEnd (b : FlashInfo) : Nat := (b.start 0 + b.size) % 2 ^ 32

/-- A bank of `count` sectors of one size. -/
def uniform (base sector count : Nat) (protect : Nat → Bool) (hsector : 0 < sector)
    (hcount : 0 < count ∧ count ≤ 2 ^ 15) (hsize : count * sector < 2 ^ 32)
    (hend : base + count * sector ≤ 2 ^ 32) : FlashInfo where
  size := count * sector
  sectorCount := count
  known := true
  start i := base + i * sector
  protect := protect
  size_lt := hsize
  count_pos := hcount.1
  count_le := hcount.2
  start_lt i _ := by
    rw [Nat.succ_mul]
    omega
  last_lt := by
    have hlast : (count - 1) * sector < count * sector :=
      Nat.mul_lt_mul_of_pos_right (by omega) hsector
    omega
  end_le := by
    rw [Nat.zero_mul]
    exact hend

end FlashInfo

/-! Sectors of 64 KiB, two in a bank. -/

theorem sector_pos : 0 < 0x10000 := by decide

theorem two_sectors : 0 < 2 ∧ 2 ≤ 2 ^ 15 := by decide

theorem two_sectors_lt : 2 * 0x10000 < 2 ^ 32 := by decide

theorem two_sectors_le : 0 + 2 * 0x10000 ≤ 2 ^ 32 := by decide

/-- `addr2info`, as the index of the bank. -/
def addr2info (banks : List FlashInfo) (addr : Nat) : Option Nat :=
  banks.findIdx? fun b => b.known && decide (b.start 0 ≤ addr) &&
    decide (addr ≤ (b.start 0 + b.size - 1) % 2 ^ 32)

/-- The test of one bank for protected sectors. -/
def hitsProtected (b : FlashInfo) (addr last : Nat) : Bool :=
  (List.range b.sectorCount).any fun i =>
    decide (b.start i ≤ last) &&
      decide (addr < if i + 1 = b.sectorCount then b.bEnd else b.start (i + 1)) && b.protect i

/-- A call of `write_buff`: the bank, the offset from `src`, the address and the length. -/
structure WriteCall where
  bank : Nat
  src : Nat
  addr : Nat
  len : Nat
  deriving DecidableEq, Repr

/-- The length for a bank: `info->start[0] + info->size - addr`, at most `cnt`. -/
def chunk (b : FlashInfo) (addr cnt : Nat) : Nat :=
  min ((b.bEnd + 2 ^ 32 - addr) % 2 ^ 32) cnt

/-- "finally write data to flash": the calls and the return value. -/
def writeBanks (answer : Nat → Int) : List (FlashInfo × Nat) → Nat → Nat → Nat →
    List WriteCall × Int
  | [], _, _, _ => ([], 0)
  | (b, k) :: banks, src, addr, cnt =>
    if cnt = 0 then ([], 0)
    else
      let len := chunk b addr cnt
      if answer k ≠ 0 then ([⟨k, src, addr, len⟩], answer k)
      else
        let (calls, rc) :=
          writeBanks answer banks (src + len) ((addr + len) % 2 ^ 32) (cnt - len)
        (⟨k, src, addr, len⟩ :: calls, rc)

/-- The banks of the loops, with their indices. -/
def bankRange (banks : List FlashInfo) (first final : Nat) : List (FlashInfo × Nat) :=
  (banks.zipIdx.drop first).take (final + 1 - first)

/-- `ERR_PROTECTED` -/
def errProtected : Int := 4

/-- `ERR_INVAL` -/
def errInval : Int := 8

/-- `flash_write`: the calls of `write_buff` and the return value. -/
def flashWrite (banks : List FlashInfo) (answer : Nat → Int) (addr cnt : Nat) :
    List WriteCall × Int :=
  let last := (addr + cnt + 2 ^ 32 - 1) % 2 ^ 32
  if cnt = 0 then ([], 0)
  else
    match addr2info banks addr, addr2info banks last with
    | some first, some final =>
      let range := bankRange banks first final
      if range.any fun p => hitsProtected p.1 addr last then ([], errProtected)
      else writeBanks answer range 0 addr cnt
    | _, _ => ([], errInval)

/-! ## Sectors and banks -/

namespace FlashInfo

variable {b : FlashInfo} {i j a : Nat}

theorem start_lt_start (hij : i < j) (hj : j < b.sectorCount) : b.start i < b.start j := by
  induction j with
  | zero => exact absurd hij (Nat.not_lt_zero i)
  | succ j ih =>
    have hstep := b.start_lt j hj
    rcases Nat.lt_succ_iff_lt_or_eq.mp hij with hlt | rfl
    · exact (ih hlt (by omega)).trans hstep
    · exact hstep

theorem start_le_start (hij : i ≤ j) (hj : j < b.sectorCount) : b.start i ≤ b.start j := by
  rcases hij.lt_or_eq with hlt | rfl
  · exact (start_lt_start hlt hj).le
  · exact le_rfl

theorem start_lt_sectorStop (hi : i < b.sectorCount) : b.start i < b.sectorStop i := by
  unfold sectorStop
  split
  · rename_i hlast
    have := b.last_lt
    rw [← hlast, Nat.add_sub_cancel] at this
    exact this
  · exact b.start_lt i (by omega)

theorem sectorStop_le_start (hij : i < j) (hj : j < b.sectorCount) :
    b.sectorStop i ≤ b.start j := by
  rw [sectorStop, if_neg (by omega)]
  exact start_le_start hij hj

theorem sectorStop_le_stop (hi : i < b.sectorCount) : b.sectorStop i ≤ b.stop := by
  unfold sectorStop
  split
  · exact le_rfl
  · have hlt := b.last_lt
    have hle : b.start (i + 1) ≤ b.start (b.sectorCount - 1) :=
      start_le_start (by omega) (by omega)
    exact hle.trans hlt.le

theorem InSector.inBank (h : b.InSector i a) : b.InBank a := by
  obtain ⟨hi, hlo, hhi⟩ := h
  have hzero : b.start 0 ≤ b.start i := start_le_start (Nat.zero_le i) hi
  exact ⟨hzero.trans hlo, hhi.trans_le (sectorStop_le_stop hi)⟩

theorem start_lt_stop (b : FlashInfo) : b.start 0 < b.stop :=
  (start_lt_sectorStop b.count_pos).trans_le (sectorStop_le_stop b.count_pos)

theorem stop_le (b : FlashInfo) : b.stop ≤ 2 ^ 32 := b.end_le

/-- The sum of base and size, as the code has it. -/
theorem bEnd_eq (b : FlashInfo) : b.bEnd = if b.stop = 2 ^ 32 then 0 else b.stop := by
  have hle := b.stop_le
  unfold bEnd
  rw [← stop]
  split
  · rename_i htop
    rw [htop, Nat.mod_self]
  · exact Nat.mod_eq_of_lt (by omega)

end FlashInfo

section Banks

variable {banks : List FlashInfo} {addr last first final k : Nat} {b : FlashInfo}

theorem addr2info_eq_some (h : addr2info banks addr = some k) :
    ∃ b, banks[k]? = some b ∧ b.InBank addr := by
  obtain ⟨hk, htest, -⟩ := List.findIdx?_eq_some_iff_getElem.mp h
  refine ⟨banks[k], List.getElem?_eq_getElem hk, ?_⟩
  simp only [Bool.and_eq_true, decide_eq_true_eq] at htest
  have hsize := (banks[k]).start_lt_stop
  have hle := (banks[k]).stop_le
  have hmod : ((banks[k]).start 0 + (banks[k]).size - 1) % 2 ^ 32 = (banks[k]).stop - 1 :=
    Nat.mod_eq_of_lt (by unfold FlashInfo.stop at *; omega)
  rw [hmod] at htest
  exact ⟨htest.1.2, by omega⟩

/-- No two banks have an address in common. -/
def BanksApart (banks : List FlashInfo) : Prop :=
  banks.Pairwise fun b c => b.stop ≤ c.start 0 ∨ c.stop ≤ b.start 0

theorem BanksApart.apart (hapart : BanksApart banks) {j : Nat} {c : FlashInfo} (hne : j ≠ k)
    (hb : banks[k]? = some b) (hc : banks[j]? = some c) :
    b.stop ≤ c.start 0 ∨ c.stop ≤ b.start 0 := by
  obtain ⟨hk, rfl⟩ := List.getElem?_eq_some_iff.mp hb
  obtain ⟨hj, rfl⟩ := List.getElem?_eq_some_iff.mp hc
  have hpair := List.pairwise_iff_getElem.mp hapart
  rcases Nat.lt_or_gt_of_ne hne with hlt | hgt
  · exact (hpair j k hj hk hlt).symm
  · exact hpair k j hk hj hgt

theorem getElem?_bankRange (k : Nat) : (bankRange banks first final)[k]? =
    if k < final + 1 - first then banks[first + k]?.map (·, first + k) else none := by
  rw [bankRange, List.getElem?_take]
  split
  · rw [List.getElem?_drop, List.getElem?_zipIdx, Nat.zero_add]
  · rfl

theorem mem_bankRange : (b, k) ∈ bankRange banks first final ↔
    first ≤ k ∧ k ≤ final ∧ banks[k]? = some b := by
  rw [List.mem_iff_getElem?]
  simp only [getElem?_bankRange]
  constructor
  · rintro ⟨j, hj⟩
    split at hj
    · obtain ⟨x, hx, heq⟩ := Option.map_eq_some_iff.mp hj
      cases heq
      exact ⟨by omega, by omega, hx⟩
    · cases hj
  · rintro ⟨hlo, hhi, hb⟩
    refine ⟨k - first, ?_⟩
    rw [if_pos (by omega), Nat.add_sub_cancel' hlo, hb]
    rfl

/-- What the test for protected sectors sees: the last sector of a bank at the end of the
address space is hidden from it. -/
theorem hitsProtected_iff (hle : addr ≤ last) : hitsProtected b addr last = true ↔
    ∃ i a, b.protect i = true ∧ b.InSector i a ∧ addr ≤ a ∧ a ≤ last ∧ b.sectorStop i ≠ 2 ^ 32 := by
  have hstop := b.stop_le
  have hend := b.bEnd_eq
  -- The end that the test uses.
  have hscan {i : Nat} (hi : i < b.sectorCount) :
      (if i + 1 = b.sectorCount then b.bEnd else b.start (i + 1)) =
        if b.sectorStop i = 2 ^ 32 then 0 else b.sectorStop i := by
    rw [hend, FlashInfo.sectorStop]
    split
    · rfl
    · have hnext := FlashInfo.start_lt_sectorStop (b := b) (i := i + 1) (by omega)
      have hle := FlashInfo.sectorStop_le_stop (b := b) (i := i + 1) (by omega)
      rw [if_neg (by omega)]
  simp only [hitsProtected, List.any_eq_true, List.mem_range, Bool.and_eq_true, decide_eq_true_eq]
  constructor
  · rintro ⟨i, hi, ⟨hlo, hhi⟩, hprotect⟩
    rw [hscan hi] at hhi
    have hsector := FlashInfo.start_lt_sectorStop hi
    split at hhi
    · omega
    · rename_i htop
      refine ⟨i, max addr (b.start i), hprotect, ⟨hi, by omega, by omega⟩, by omega, by omega, htop⟩
  · rintro ⟨i, a, hprotect, ⟨hi, hlo, hhi⟩, ha, hlast, htop⟩
    refine ⟨i, hi, ⟨by omega, ?_⟩, hprotect⟩
    rw [hscan hi, if_neg htop]
    omega

end Banks

end UBoot.Common
