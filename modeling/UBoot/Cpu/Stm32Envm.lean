import UBoot.Cpu.Envm
import Mathlib.Data.List.Nodup

/-!
# Writing to the embedded flash of the STM32F2

`cpu/arm_cortexm3/stm32/envm.c`.  The table of block sizes, the search for the block of the start
and the count of the blocks are those of `stm32f10x/envm.c`, line by line; here they fit the chip,
and the operations are those of the registers.

* `envmWrite_blocks_iff`: the blocks of the range are erased and its words programmed, or the
  request is refused, unless it starts with a block and the sum in the range check wraps to an
  address that is accepted.
-/

namespace UBoot.Cpu.Stm32

open UBoot.Lib

/-- `STM32_FLASH_SIZE` -/
def flashSize : Nat := (4 * 16 + 64 + 7 * 128) * 1024

/-- An operation of the flash interface: `SER` with a block number, or a store of a word with `PG`
set. -/
inductive FlashOp where
  | erase (block : Nat)
  | program (addr word : Nat)
  deriving DecidableEq, Repr

/-- `stm32_flash_erase`, where `busy` is the first look at `SR`: the return value and the
operations.  The table is read before. -/
def stm32FlashErase (busy : Bool) (offset size : Nat) : Exec (Int × List FlashOp) :=
  match stm32FlashGetBlock offset with
  | none => .ok (-22, [])
  | some n => do
    let num ← countBlocks size (flashBsize.drop n) 0 n
    if busy then .ok (-16, []) else .ok (0, (List.range' n (num - n)).map FlashOp.erase)

/-- `stm32_flash_program` -/
def stm32FlashProgram (busy : Bool) (offset : Nat) (buf : Contents) (size : Nat) :
    Int × List FlashOp :=
  if busy then (-16, [])
  else (0, (List.range ((size + 4 - 1) % 2 ^ 32 / 4)).map fun k =>
    FlashOp.program ((offset + 4 * k) % 2 ^ 32) (wordAt buf (4 * k)))

/-- `envm_write`, with the looks at `SR` of its two parts: the return value and the operations. -/
def envmWrite (busyErase busyProgram : Bool) (offset : Nat) (buf : Contents) (size : Nat) :
    Exec (Nat × List FlashOp) :=
  if offset < flashBase ∨ flashBase + flashSize < (offset + size) % 2 ^ 32 then .ok (0, [])
  else do
    let (ret, erased) ← stm32FlashErase busyErase offset size
    if ret < 0 then .ok (0, erased)
    else
      let (ret, programmed) := stm32FlashProgram busyProgram offset buf size
      if ret < 0 then .ok (0, erased ++ programmed) else .ok (size, erased ++ programmed)

/-! ## The blocks and the words of a range -/

/-- The blocks that are erased. -/
def erasedBlocks (ops : List FlashOp) : List Nat :=
  ops.filterMap fun
    | .erase block => some block
    | .program _ _ => none

/-- The addresses of the words that are programmed. -/
def programmedWords (ops : List FlashOp) : List Nat :=
  ops.filterMap fun
    | .erase _ => none
    | .program addr _ => some addr

/-- The blocks from the one that starts at `offset` on, as far as it takes to cover the range. -/
def CoveringBlocks (offset size : Nat) (blocks : List Nat) : Prop :=
  ∃ n num, n < 12 ∧ offset = blockStart n ∧ n ≤ num ∧ num ≤ 12 ∧
    blocks = List.range' n (num - n) ∧
    ∀ m, n ≤ m → (offset + size ≤ blockStart m ↔ num ≤ m)

/-- The words are those that have a byte in the range, each once, and they lie in the blocks. -/
structure CoveringWords (offset size : Nat) (blocks words : List Nat) : Prop where
  nodup : words.Nodup
  mem_iff : ∀ w, w ∈ words ↔ w % 4 = 0 ∧ offset ≤ w ∧ w < offset + size
  inside : ∀ w ∈ words, w + 4 ≤ flashBase + flashSize ∧
    ∃ k ∈ blocks, blockStart k ≤ w ∧ w + 4 ≤ blockStart (k + 1)

/-- A write that reads the table inside its bounds.  If it reaches the erase with a range that
starts with a block, and the flash is not busy, the blocks of the range are erased; a request that
is refused leaves the flash alone; and behind a write that returns its size the words are
programmed. -/
def EnvmRight (busyErase busyProgram : Bool) (offset : Nat) (buf : Contents) (size : Nat) : Prop :=
  ∃ ret ops, envmWrite busyErase busyProgram offset buf size = .ok (ret, ops) ∧
    (if offset < flashBase ∨ flashBase + flashSize < (offset + size) % 2 ^ 32 ∨
        (∀ n < 12, offset ≠ blockStart n) ∨ busyErase = true then ret = 0 ∧ ops = []
      else CoveringBlocks offset size (erasedBlocks ops)) ∧
    (0 < size → ret = size →
      CoveringWords offset size (erasedBlocks ops) (programmedWords ops))

/-- The sum in the range check wraps to an address that is accepted. -/
def WrapsBack (offset size : Nat) : Prop :=
  2 ^ 32 ≤ offset + size ∧ (offset + size) % 2 ^ 32 ≤ flashBase + flashSize

section Ops

variable {offset size n num words : Nat} {buf : Contents}

theorem flashEnd_eq : flashBase + flashSize = blockStart 12 := by decide

@[simp] theorem erasedBlocks_append (a b : List FlashOp) :
    erasedBlocks (a ++ b) = erasedBlocks a ++ erasedBlocks b := List.filterMap_append ..

@[simp] theorem programmedWords_append (a b : List FlashOp) :
    programmedWords (a ++ b) = programmedWords a ++ programmedWords b := List.filterMap_append ..

@[simp] theorem erasedBlocks_erase (blocks : List Nat) :
    erasedBlocks (blocks.map FlashOp.erase) = blocks := by
  induction blocks with
  | nil => rfl
  | cons k blocks ih =>
    rw [List.map_cons, erasedBlocks, List.filterMap_cons]
    exact congrArg (k :: ·) ih

@[simp] theorem programmedWords_erase (blocks : List Nat) :
    programmedWords (blocks.map FlashOp.erase) = [] := by
  induction blocks with
  | nil => rfl
  | cons k blocks ih => exact ih

@[simp] theorem erasedBlocks_program {α : Type} (xs : List α) (addr word : α → Nat) :
    erasedBlocks (xs.map fun k => FlashOp.program (addr k) (word k)) = [] := by
  induction xs with
  | nil => rfl
  | cons x xs ih => exact ih

@[simp] theorem programmedWords_program {α : Type} (xs : List α) (addr word : α → Nat) :
    programmedWords (xs.map fun k => FlashOp.program (addr k) (word k)) = xs.map addr := by
  induction xs with
  | nil => rfl
  | cons x xs ih =>
    rw [List.map_cons, programmedWords, List.filterMap_cons]
    exact congrArg (addr x :: ·) ih

theorem blockStart_mod4 (hn : n ≤ 12) : blockStart n % 4 = 0 := by
  rcases hn.lt_or_eq with hlt | rfl
  · have := blockStart_mod hlt
    omega
  · decide

/-- The block of an address. -/
theorem blockOf {a : Nat} (hle : n ≤ num) (hlo : blockStart n ≤ a) (hhi : a < blockStart num) :
    ∃ m, n ≤ m ∧ m < num ∧ blockStart m ≤ a ∧ a < blockStart (m + 1) := by
  induction num, hle using Nat.le_induction with
  | base => omega
  | succ num hle ih =>
    rcases Nat.lt_or_ge a (blockStart num) with hlt | hge
    · obtain ⟨m, hnm, hm, rest⟩ := ih hlt
      exact ⟨m, hnm, by omega, rest⟩
    · exact ⟨num, hle, by omega, hge, hhi⟩

/-- The words from the start of a block on lie in the blocks of the range. -/
theorem coveringWords_of (hn : n < 12) (hnum : num ≤ 12)
    (hcover : ∀ m, n ≤ m → (blockStart n + size ≤ blockStart m ↔ num ≤ m)) (hle : n ≤ num) :
    CoveringWords (blockStart n) size (List.range' n (num - n))
      ((List.range ((size + 3) / 4)).map fun k => blockStart n + 4 * k) := by
  have hmod := blockStart_mod hn
  have hfit := (hcover num hle).mpr (Nat.le_refl num)
  have hend := blockStart_le hnum
  refine ⟨?_, ?_, ?_⟩
  · refine List.Nodup.map ?_ List.nodup_range
    intro a b hab
    dsimp only at hab
    omega
  · intro w
    rw [List.mem_map]
    constructor
    · rintro ⟨k, hk, rfl⟩
      have hk := List.mem_range.mp hk
      exact ⟨by omega, by omega, by omega⟩
    · rintro ⟨hw, hlo, hhi⟩
      refine ⟨(w - blockStart n) / 4, List.mem_range.mpr (by omega), by omega⟩
  · intro w hw
    obtain ⟨k, hk, rfl⟩ := List.mem_map.mp hw
    have hk := List.mem_range.mp hk
    obtain ⟨m, hnm, hmnum, hlo, hhi⟩ :=
      blockOf hle (show blockStart n ≤ blockStart n + 4 * k by omega)
      (show blockStart n + 4 * k < blockStart num by omega)
    have hmod' := blockStart_mod4 (n := m + 1) (by omega)
    have hlast := blockStart_le (show m + 1 ≤ 12 by omega)
    rw [flashEnd_eq]
    exact ⟨by omega, m, List.mem_range'_1.mpr ⟨hnm, by omega⟩, hlo, by omega⟩

end Ops

/-! ## The write -/

section Write

variable {busyErase busyProgram : Bool} {buf : Contents} {offset size n : Nat}

theorem envmWrite_outside
    (h : offset < flashBase ∨ flashBase + flashSize < (offset + size) % 2 ^ 32) :
    envmWrite busyErase busyProgram offset buf size = .ok (0, []) := by
  rw [envmWrite, if_pos h]

theorem envmWrite_unaligned (h : ∀ n < 12, offset ≠ blockStart n) :
    envmWrite busyErase busyProgram offset buf size = .ok (0, []) := by
  have hnone : stm32FlashGetBlock offset = none := by
    rw [Option.eq_none_iff_forall_ne_some]
    intro n hn
    obtain ⟨hlt, heq⟩ := stm32FlashGetBlock_eq_some.mp hn
    exact h n hlt heq
  rw [envmWrite, stm32FlashErase, hnone]
  split
  · rfl
  · rfl

/-- A range that wraps is looked for behind the table. -/
theorem envmWrite_fault (hn : n < 12) (hwrap : WrapsBack (blockStart n) size) :
    ∃ fault, envmWrite busyErase busyProgram (blockStart n) buf size = .error fault := by
  obtain ⟨hlarge, hsmall⟩ := hwrap
  have hmax := blockStart_max 12
  have hbase : flashBase ≤ blockStart n := Nat.le_add_right _ _
  have hget : stm32FlashGetBlock (blockStart n) = some n :=
    stm32FlashGetBlock_eq_some.mpr ⟨hn, rfl⟩
  obtain ⟨fault, hfault⟩ := @countBlocks_fault (blockStart n) size n 0 rfl (by omega)
  refine ⟨fault, ?_⟩
  rw [envmWrite, if_neg (by omega), stm32FlashErase, hget]
  dsimp only
  rw [hfault]
  rfl

/-- A range in the flash that starts with a block. -/
theorem envmWrite_aligned (hn : n < 12) (hfit : blockStart n + size ≤ blockStart 12) :
    ∃ num, n ≤ num ∧ num ≤ 12 ∧
      (∀ m, n ≤ m → (blockStart n + size ≤ blockStart m ↔ num ≤ m)) ∧
      envmWrite busyErase busyProgram (blockStart n) buf size =
        if busyErase then .ok (0, [])
        else if busyProgram then .ok (0, (List.range' n (num - n)).map FlashOp.erase)
        else .ok (size, (List.range' n (num - n)).map FlashOp.erase ++
          (List.range ((size + 3) / 4)).map fun k =>
            FlashOp.program (blockStart n + 4 * k) (wordAt buf (4 * k))) := by
  have hmax := blockStart_max 12
  have hbase : flashBase ≤ blockStart n := Nat.le_add_right _ _
  have hget : stm32FlashGetBlock (blockStart n) = some n :=
    stm32FlashGetBlock_eq_some.mpr ⟨hn, rfl⟩
  obtain ⟨num, hnum, hle, hiff⟩ := @countBlocks_ok (blockStart n) size n 0 rfl hfit
  have hcover : ∀ m, n ≤ m → (blockStart n + size ≤ blockStart m ↔ num ≤ m) := by
    intro m hm
    have := hiff m hm
    omega
  refine ⟨num, hle, (hcover 12 (by omega)).mp hfit, hcover, ?_⟩
  have hsum : ¬ (blockStart n < flashBase ∨
      flashBase + flashSize < (blockStart n + size) % 2 ^ 32) := by
    rw [flashEnd_eq, Nat.mod_eq_of_lt (by omega)]
    omega
  rw [envmWrite, if_neg hsum, stm32FlashErase, hget]
  dsimp only
  rw [hnum]
  cases busyErase with
  | true => rfl
  | false =>
    cases busyProgram with
    | true =>
      simp [stm32FlashProgram]
    | false =>
      have hwords : (size + 4 - 1) % 2 ^ 32 / 4 = (size + 3) / 4 := by
        rw [Nat.mod_eq_of_lt (by omega)]
        omega
      have haddr : ∀ k ∈ List.range ((size + 3) / 4),
          FlashOp.program ((blockStart n + 4 * k) % 2 ^ 32) (wordAt buf (4 * k)) =
            FlashOp.program (blockStart n + 4 * k) (wordAt buf (4 * k)) := by
        intro k hk
        have hk := List.mem_range.mp hk
        rw [Nat.mod_eq_of_lt (by omega)]
      simp only [stm32FlashProgram, hwords, List.map_congr_left haddr]
      rfl

/-- `envm_write` is right unless a range that starts with a block wraps to an address that the
check accepts. -/
theorem envmWrite_blocks_iff (busyErase busyProgram : Bool) (offset size : UInt32)
    (buf : Contents) :
    EnvmRight busyErase busyProgram offset.toNat buf size.toNat ↔
      ∀ n < 12, offset.toNat = blockStart n → ¬ WrapsBack offset.toNat size.toNat := by
  have hsize := size.toNat_lt
  have hoffset := offset.toNat_lt
  generalize offset.toNat = offset at hoffset
  generalize size.toNat = size at hsize
  constructor
  · rintro ⟨ret, ops, heq, -⟩ n hn rfl hwrap
    obtain ⟨fault, hfault⟩ := @envmWrite_fault busyErase busyProgram buf size n hn hwrap
    rw [hfault] at heq
    cases heq
  · intro hcond
    by_cases hblock : ∃ n < 12, offset = blockStart n
    · obtain ⟨n, hn, rfl⟩ := hblock
      have hwrap := hcond n hn rfl
      have hbase : flashBase ≤ blockStart n := Nat.le_add_right _ _
      have hmax := blockStart_max 12
      rw [EnvmRight]
      by_cases hfit : blockStart n + size ≤ blockStart 12
      · obtain ⟨num, hle, hnum, hcover, heq⟩ :=
          @envmWrite_aligned busyErase busyProgram buf size n hn hfit
        have haccept : ¬ (flashBase + flashSize < (blockStart n + size) % 2 ^ 32) := by
          rw [flashEnd_eq, Nat.mod_eq_of_lt (by omega)]
          omega
        have hblocks : CoveringBlocks (blockStart n) size (List.range' n (num - n)) :=
          ⟨n, num, hn, rfl, hle, hnum, rfl, hcover⟩
        have hstart : ¬ ∀ m < 12, blockStart n ≠ blockStart m := fun h => h n hn rfl
        cases busyErase with
        | true =>
          refine ⟨0, [], heq, ?_, fun hpos h => by omega⟩
          rw [if_pos (Or.inr (Or.inr (Or.inr rfl)))]
          exact ⟨rfl, rfl⟩
        | false =>
          have hreached : ¬ (blockStart n < flashBase ∨
              flashBase + flashSize < (blockStart n + size) % 2 ^ 32 ∨
              (∀ m < 12, blockStart n ≠ blockStart m) ∨ false = true) := by
            rintro (h | h | h | h)
            · omega
            · exact haccept h
            · exact hstart h
            · cases h
          cases busyProgram with
          | true =>
            refine ⟨_, _, heq, ?_, fun hpos h => by omega⟩
            rw [if_neg hreached, erasedBlocks_erase]
            exact hblocks
          | false =>
            refine ⟨_, _, heq, ?_, fun _ _ => ?_⟩
            · rw [if_neg hreached, erasedBlocks_append, erasedBlocks_erase, erasedBlocks_program,
                List.append_nil]
              exact hblocks
            · rw [erasedBlocks_append, erasedBlocks_erase, erasedBlocks_program, List.append_nil,
                programmedWords_append, programmedWords_erase, programmedWords_program,
                List.nil_append]
              exact coveringWords_of hn hnum hcover hle
      · have hout : flashBase + flashSize < (blockStart n + size) % 2 ^ 32 := by
          have htop := flashEnd_eq
          unfold WrapsBack at hwrap
          rcases Nat.lt_or_ge (blockStart n + size) (2 ^ 32) with hlt | hge
          · rw [Nat.mod_eq_of_lt hlt]
            omega
          · omega
        refine ⟨0, [], envmWrite_outside (Or.inr hout), ?_, fun hpos h => by omega⟩
        rw [if_pos (Or.inr (Or.inl hout))]
        exact ⟨rfl, rfl⟩
    · have hnone : ∀ n < 12, offset ≠ blockStart n := fun n hn heq => hblock ⟨n, hn, heq⟩
      refine ⟨0, [], envmWrite_unaligned hnone, ?_, fun hpos h => by omega⟩
      rw [if_pos (Or.inr (Or.inr (Or.inl hnone)))]
      exact ⟨rfl, rfl⟩

/-- The whole address space from the first block on: the sum in the check is 0, and the count of
the blocks reads the table behind its end. -/
theorem envmWrite_blocks_wraps :
    envmWrite false false 0x08000000 (fun _ => 0) 0xF8000000 = .error (.load 12) ∧
      ¬ EnvmRight false false 0x08000000 (fun _ => 0) 0xF8000000 := by
  have hfault : envmWrite false false 0x08000000 (fun _ => 0) 0xF8000000 =
      .error (.load 12) := by
    rfl
  refine ⟨hfault, ?_⟩
  rintro ⟨ret, ops, heq, -⟩
  rw [hfault] at heq
  cases heq

end Write

end UBoot.Cpu.Stm32
