import UBoot.Drivers.PciAuto
import UBoot.Lib.Run
import Mathlib.Tactic.Common

/-!
# What is allocated from a PCI region

The lower bound is a number from 1 to `2 ^ 32`, of which the last one is stored as 0 (`lower`).
Rounding it up to a power of two stays in this range (`lower_roundUp`), but the test for room may
wrap: an allocation that goes behind the end of the address space looks as if it fitted.

* `pciautoRegionAllocate_disjoint`: as long as that does not happen, the ranges that are returned
  are aligned, lie in the region and are disjoint.
-/

namespace UBoot.Drivers

open UBoot.Lib

/-- A size that is a power of two. -/
def PowerOfTwo (size : BitVec 32) : Prop := ∃ k, size.toNat = 2 ^ k

theorem PowerOfTwo.pos {size : BitVec 32} (h : PowerOfTwo size) : 0 < size.toNat := by
  obtain ⟨k, hk⟩ := h
  rw [hk]
  exact Nat.two_pow_pos k

/-- The number that an address stands for, with the end of the address space in place of 0. -/
def lower (addr : BitVec 32) : Nat := if addr = 0 then 2 ^ 32 else addr.toNat

theorem lower_pos (addr : BitVec 32) : 0 < lower addr := by
  rw [lower]
  split
  case isTrue => decide
  case isFalse h =>
    refine Nat.pos_of_ne_zero fun hzero => h ?_
    exact BitVec.eq_of_toNat_eq hzero

theorem lower_le (addr : BitVec 32) : lower addr ≤ 2 ^ 32 := by
  rw [lower]
  split
  · exact Nat.le_refl _
  · exact Nat.le_of_lt addr.isLt

/-- The number before it. -/
theorem toNat_sub_one (addr : BitVec 32) : (addr - 1).toNat = lower addr - 1 := by
  rw [lower]
  split
  case isTrue h =>
    subst h
    rfl
  case isFalse h =>
    have hpos : addr.toNat ≠ 0 := fun hzero => h (BitVec.eq_of_toNat_eq hzero)
    have hlt := addr.isLt
    rw [BitVec.toNat_sub]
    change (2 ^ 32 - 1 + addr.toNat) % 2 ^ 32 = _
    omega

theorem toNat_eq_lower {addr : BitVec 32} (h : lower addr < 2 ^ 32) : addr.toNat = lower addr := by
  rw [lower] at h ⊢
  split
  case isTrue hzero =>
    rw [if_pos hzero] at h
    exact absurd h (Nat.lt_irrefl _)
  case isFalse => rfl

theorem lower_of_toNat {addr : BitVec 32} {n : Nat} (hpos : 0 < n) (hle : n ≤ 2 ^ 32)
    (h : addr.toNat = n % 2 ^ 32) : lower addr = n := by
  rw [lower]
  split
  case isTrue hzero =>
    subst hzero
    change 0 = n % 2 ^ 32 at h
    omega
  case isFalse hne =>
    have hpos' : addr.toNat ≠ 0 := fun hzero => hne (BitVec.eq_of_toNat_eq hzero)
    omega

theorem or_two_pow_sub_one (x k : Nat) : x ||| (2 ^ k - 1) = x / 2 ^ k * 2 ^ k + (2 ^ k - 1) := by
  have hpos := Nat.two_pow_pos k
  refine Nat.eq_of_testBit_eq fun i => ?_
  rw [Nat.mul_comm, Nat.testBit_or, Nat.testBit_two_pow_sub_one,
    Nat.testBit_two_pow_mul_add _ (by omega), Nat.testBit_two_pow_sub_one]
  split
  case isTrue h => simp [h]
  case isFalse h =>
    rw [decide_eq_false h, Bool.or_false, Nat.testBit_div_two_pow, Nat.sub_add_cancel (by omega)]

/-- Rounding up to a power of two. -/
theorem lower_roundUp (addr : BitVec 32) {size : BitVec 32} (hsize : PowerOfTwo size) :
    lower (roundUp addr size) = ((lower addr - 1) / size.toNat + 1) * size.toNat := by
  obtain ⟨k, hk⟩ := hsize
  have hpos := lower_pos addr
  have hle := lower_le addr
  have hlt := size.isLt
  have hk32 : k < 32 := by
    rw [hk] at hlt
    exact (Nat.pow_lt_pow_iff_right (by decide)).mp hlt
  have hone : (size - 1).toNat = 2 ^ k - 1 := by
    have hpow := Nat.two_pow_pos k
    rw [BitVec.toNat_sub]
    change (2 ^ 32 - 1 + size.toNat) % 2 ^ 32 = _
    omega
  -- the next multiple is not above the end of the address space, itself a multiple
  have hbound : ((lower addr - 1) / 2 ^ k + 1) * 2 ^ k ≤ 2 ^ 32 := by
    obtain ⟨c, hc⟩ : 2 ^ k ∣ 2 ^ 32 := Nat.pow_dvd_pow 2 (Nat.le_of_lt hk32)
    rw [hc, Nat.mul_comm (2 ^ k)]
    refine Nat.mul_le_mul_right _ (Nat.succ_le_of_lt ?_)
    refine Nat.div_lt_of_lt_mul ?_
    rw [← hc]
    omega
  have hpow := Nat.two_pow_pos k
  rw [hk]
  refine lower_of_toNat (Nat.mul_pos (Nat.succ_pos _) hpow) hbound ?_
  rw [roundUp, BitVec.toNat_add, BitVec.toNat_or, toNat_sub_one, hone, or_two_pow_sub_one]
  congr 1
  change _ + 1 = _
  rw [Nat.add_one_mul]
  omega

/-! ## Runs -/

/-- A call for the region. -/
inductive PciCall where
  | init
  | align (size : BitVec 32) (h : PowerOfTwo size)
  | allocate (size : BitVec 32) (h : PowerOfTwo size)

/-- The region, and the ranges returned since the last `pciauto_region_init`. -/
structure PciState where
  res : PciRegion
  returned : List (Nat × Nat)

/-- One call. -/
def pciStep (s : PciState) : PciCall → PciState
  | .init => ⟨pciautoRegionInit s.res, []⟩
  | .align size _ => ⟨pciautoRegionAlign s.res size, s.returned⟩
  | .allocate size _ =>
    let r := pciautoRegionAllocate (some s.res) size
    ⟨r.res.getD s.res,
      if r.ret = 0 then (r.bar.toNat, size.toNat) :: s.returned else s.returned⟩

/-- A run of calls on a region that has just been initialised. -/
abbrev PciRun (res : PciRegion) (tr : List (PciState × PciCall)) (s : PciState) : Prop :=
  Run (fun s c t => pciStep s c = t) ⟨pciautoRegionInit res, []⟩ tr s

/-- Where the end of the range would lie, counted from the start of the region. -/
def reach (res : PciRegion) (size : BitVec 32) : Nat :=
  lower (roundUp res.busLower size) - res.busStart.toNat + size.toNat

/-- The test for room does not take a range behind the end of the address space for one that
fits. -/
def SeesEnd (s : PciState) : PciCall → Prop
  | .allocate size _ => reach s.res size < 2 ^ 32 ∨ s.res.size.toNat + 2 ^ 32 < reach s.res size
  | _ => True

/-- The range is aligned to its size and lies in the region. -/
def Within (res : PciRegion) (r : Nat × Nat) : Prop :=
  r.2 ∣ r.1 ∧ res.busStart.toNat ≤ r.1 ∧ r.1 + r.2 ≤ res.busStart.toNat + res.size.toNat

def Apart (r r' : Nat × Nat) : Prop := r.1 + r.2 ≤ r'.1 ∨ r'.1 + r'.2 ≤ r.1

structure PciInv (res : PciRegion) (s : PciState) : Prop where
  busStart : s.res.busStart = res.busStart
  size : s.res.size = res.size
  start_le : res.busStart.toNat ≤ lower s.res.busLower
  within : ∀ r ∈ s.returned, Within res r
  below : ∀ r ∈ s.returned, r.1 + r.2 ≤ lower s.res.busLower
  apart : s.returned.Pairwise Apart

/-- Rounding up does not go down, and gives a multiple. -/
theorem le_lower_roundUp (addr : BitVec 32) {size : BitVec 32} (hsize : PowerOfTwo size) :
    lower addr ≤ lower (roundUp addr size) := by
  have hpos := lower_pos addr
  have hsz := hsize.pos
  have hdiv := Nat.lt_div_mul_add (a := lower addr - 1) hsz
  rw [lower_roundUp addr hsize, Nat.add_one_mul]
  omega

theorem dvd_lower_roundUp (addr : BitVec 32) {size : BitVec 32} (hsize : PowerOfTwo size) :
    size.toNat ∣ lower (roundUp addr size) := by
  rw [lower_roundUp addr hsize]
  exact Nat.dvd_mul_left _ _

theorem lower_init_le (res : PciRegion) :
    res.busStart.toNat ≤ lower (pciautoRegionInit res).busLower := by
  rw [pciautoRegionInit]
  dsimp only
  split
  case isTrue h => exact Nat.le_of_eq (if_neg h).symm
  case isFalse h =>
    rw [not_not.mp h]
    exact Nat.zero_le _

theorem pciInv_init {res res' : PciRegion} (hstart : res'.busStart = res.busStart)
    (hsize : res'.size = res.size) : PciInv res ⟨pciautoRegionInit res', []⟩ where
  busStart := hstart
  size := hsize
  start_le := hstart ▸ lower_init_le res'
  within _ hr := absurd hr List.not_mem_nil
  below _ hr := absurd hr List.not_mem_nil
  apart := List.Pairwise.nil

/-- The test for room, where it does not wrap. -/
theorem toNat_reach (res : PciRegion) (size : BitVec 32)
    (h : res.busStart.toNat ≤ lower (roundUp res.busLower size)) :
    (roundUp res.busLower size - res.busStart + size).toNat = reach res size % 2 ^ 32 := by
  have hlt := res.busStart.isLt
  have hmod : (roundUp res.busLower size).toNat = lower (roundUp res.busLower size) % 2 ^ 32 := by
    rw [lower]
    split
    case isTrue hzero =>
      rw [hzero]
      rfl
    case isFalse => exact (Nat.mod_eq_of_lt (BitVec.isLt _)).symm
  rw [BitVec.toNat_add, BitVec.toNat_sub, hmod, reach]
  omega

section Allocate

variable {res : PciRegion} {size : BitVec 32}

theorem pciautoRegionAllocate_full
    (h : roundUp res.busLower size - res.busStart + size > res.size) :
    pciautoRegionAllocate (some res) size = ⟨-1, some res, -1⟩ := if_pos h

theorem pciautoRegionAllocate_room
    (h : ¬ roundUp res.busLower size - res.busStart + size > res.size) :
    pciautoRegionAllocate (some res) size =
      ⟨0, some { res with busLower := roundUp res.busLower size + size },
        roundUp res.busLower size⟩ := if_neg h

end Allocate

/-- A range that is taken to fit does. -/
theorem end_le {res : PciRegion} {s : PciState} {size : BitVec 32} {hsize : PowerOfTwo size}
    (h : PciInv res s) (hok : SeesEnd s (.allocate size hsize))
    (hroom : ¬ roundUp s.res.busLower size - s.res.busStart + size > s.res.size)
    (hle : res.busStart.toNat ≤ lower (roundUp s.res.busLower size)) :
    lower (roundUp s.res.busLower size) + size.toNat ≤ res.busStart.toNat + res.size.toNat := by
  have hreach := toNat_reach s.res size (by rw [h.busStart]; exact hle)
  have hroom' : _ ≤ s.res.size.toNat := Nat.not_lt.mp hroom
  rw [hreach] at hroom'
  have hup := lower_le (roundUp s.res.busLower size)
  have hsz := size.isLt
  rw [SeesEnd] at hok
  rw [reach, h.busStart, h.size] at hok hroom'
  omega

theorem pciInv_step {res : PciRegion} (hfit : res.busStart.toNat + res.size.toNat ≤ 2 ^ 32)
    {s : PciState} {c : PciCall} (h : PciInv res s) (hok : SeesEnd s c) :
    PciInv res (pciStep s c) := by
  cases c with
  | init => exact pciInv_init h.busStart h.size
  | align size hsize =>
    have hle := le_lower_roundUp s.res.busLower hsize
    exact ⟨h.busStart, h.size, Nat.le_trans h.start_le hle, h.within,
      fun r hr => Nat.le_trans (h.below r hr) hle, h.apart⟩
  | allocate size hsize =>
    have hle := le_lower_roundUp s.res.busLower hsize
    have hdvd := dvd_lower_roundUp s.res.busLower hsize
    have hstart := h.start_le
    by_cases hroom : roundUp s.res.busLower size - s.res.busStart + size > s.res.size
    · rw [pciStep, pciautoRegionAllocate_full hroom]
      exact h
    · rw [pciStep, pciautoRegionAllocate_room hroom]
      have hin : lower (roundUp s.res.busLower size) + size.toNat ≤
          res.busStart.toNat + res.size.toNat := 
        end_le h hok hroom (Nat.le_trans hstart hle)
      have hsz : 0 < size.toNat := hsize.pos
      have haddr : (roundUp s.res.busLower size).toNat = lower (roundUp s.res.busLower size) :=
        toNat_eq_lower (by omega)
      have hnew : lower (roundUp s.res.busLower size + size) =
          lower (roundUp s.res.busLower size) + size.toNat :=
        lower_of_toNat (by omega) (by omega) (by rw [BitVec.toNat_add, haddr])
      dsimp only
      rw [if_pos rfl, haddr]
      refine ⟨h.busStart, h.size, ?_, ?_, ?_, ?_⟩
      · change _ ≤ lower (roundUp s.res.busLower size + size)
        omega
      · exact List.forall_mem_cons.mpr ⟨⟨hdvd, Nat.le_trans hstart hle, hin⟩, h.within⟩
      · change ∀ r ∈ _, _ ≤ lower (roundUp s.res.busLower size + size)
        rw [hnew]
        refine List.forall_mem_cons.mpr ⟨Nat.le_refl _, fun r hr => ?_⟩
        have hbelow := h.below r hr
        omega
      · refine List.pairwise_cons.mpr ⟨fun r hr => Or.inr ?_, h.apart⟩
        exact Nat.le_trans (h.below r hr) hle

/-- In every run in which the test for room sees the end of the address space, each range that is
returned is aligned to its size and lies in the region, and no two of them overlap.  An allocation
that fails leaves the region as it is. -/
theorem pciautoRegionAllocate_disjoint {res : PciRegion}
    (hfit : res.busStart.toNat + res.size.toNat ≤ 2 ^ 32) {tr : List (PciState × PciCall)}
    {s : PciState} (hrun : PciRun res tr s) (hok : ∀ p ∈ tr, SeesEnd p.1 p.2) :
    (∀ r ∈ s.returned, Within res r) ∧ s.returned.Pairwise Apart ∧
      ∀ size, (pciautoRegionAllocate (some s.res) size).ret ≠ 0 →
        (pciautoRegionAllocate (some s.res) size).res = some s.res := by
  have hinv : PciInv res s := hrun.invariant (PciInv res) SeesEnd
    (fun hinv hsees hstep => by
      subst hstep
      exact pciInv_step hfit hinv hsees)
    (pciInv_init rfl rfl) hok
  refine ⟨hinv.within, hinv.apart, fun size hret => ?_⟩
  by_cases hroom : roundUp s.res.busLower size - s.res.busStart + size > s.res.size
  · rw [pciautoRegionAllocate_full hroom]
  · rw [pciautoRegionAllocate_room hroom] at hret
    exact absurd rfl hret

/-- A region of 16 MiB behind `pciauto_region_init`. -/
def freshWindow : PciState := ⟨pciautoRegionInit ⟨0x10000000, 0x1000000, 0⟩, []⟩

def takeSmall : PciCall := .allocate 0x10 ⟨4, rfl⟩

def takeLarge : PciCall := .allocate 0x100000 ⟨20, rfl⟩

def takePage : PciCall := .allocate 0x1000 ⟨12, rfl⟩

/-- The region with ranges of three sizes taken. -/
def threeTaken : PciState :=
  pciStep (pciStep (pciStep freshWindow takeSmall) takeLarge) takePage

/-- The three lie in the region and apart, and all of the region is refused then. -/
theorem pciautoRegionAllocate_disjoint_three :
    threeTaken.returned = [(0x10200000, 0x1000), (0x10100000, 0x100000), (0x10000000, 0x10)] ∧
      (∀ r ∈ threeTaken.returned, Within freshWindow.res r) ∧
      threeTaken.returned.Pairwise Apart ∧
      (pciautoRegionAllocate (some threeTaken.res) 0x1000000).res = some threeTaken.res := by
  have hrun : PciRun freshWindow.res (([(freshWindow, takeSmall)] ++
      [(pciStep freshWindow takeSmall, takeLarge)]) ++
      [(pciStep (pciStep freshWindow takeSmall) takeLarge, takePage)]) threeTaken :=
    .tail (.tail (.tail .refl rfl) rfl) rfl
  obtain ⟨hwithin, hapart, hkept⟩ := pciautoRegionAllocate_disjoint (by decide) hrun (by
    intro p hp
    simp only [List.cons_append, List.nil_append, List.mem_cons, List.not_mem_nil, or_false] at hp
    rcases hp with rfl | rfl | rfl
    · exact .inl (by decide)
    · exact .inl (by decide)
    · exact .inl (by decide))
  exact ⟨by decide, hwithin, hapart, hkept 0x1000000 (by decide)⟩

/-- The upper half of the address space, and a call that asks for all of it. -/
def upperHalf : PciRegion := ⟨0x80000000, 0x80000000, 0⟩

def allOfIt : PciCall := .allocate 0x80000000 ⟨31, rfl⟩

/-- The region behind `pciauto_region_init`. -/
def fresh : PciState := ⟨pciautoRegionInit upperHalf, []⟩

/-- All of the region is given out, and then the other half of the address space. -/
theorem pciautoRegionAllocate_outside :
    ¬ ∀ tr s, PciRun upperHalf tr s → ∀ r ∈ s.returned, Within upperHalf r := by
  intro h
  have hrun : PciRun upperHalf ([(fresh, allOfIt)] ++ [(pciStep fresh allOfIt, allOfIt)])
      (pciStep (pciStep fresh allOfIt) allOfIt) := .tail (.tail .refl rfl) rfl
  have hwithin := h _ _ hrun (0, 0x80000000) (by decide)
  exact absurd hwithin.2.1 (by decide)

end UBoot.Drivers
