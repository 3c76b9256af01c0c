import UBoot.Lib.Blocks
import Mathlib.Data.List.Basic
import Mathlib.Tactic.IntervalCases

/-!
# Writing to the embedded flash of the STM32F10x

`cpu/arm_cortexm3/stm32f10x/envm.c`.  `envm_write` checks the range, erases and programs.  The
address of the start is looked up in the table of block sizes, which is that of another chip: it
has twelve blocks and 1 MiB, where this flash has pages of 2 KiB and 512 KiB in all.

The operations on the flash are a part of the result.  A plain store to flash has no effect and
is left out; reading the table behind its end is a fault.

* `envmWrite_ok_iff`: the write does what it is for only for data that repeats itself in the way
  in which the loop reads it, and the sum in the range check must not wrap.
-/

namespace UBoot.Cpu

open UBoot.Lib

/-- `STM32_FLASH_BASE` -/
def flashBase : Nat := 0x08000000

/-- `STM32_FLASH_SIZE` -/
def flashSize : Nat := 512 * 1024

/-- `flash_bsize` -/
def flashBsize : List Nat :=
  List.replicate 4 (16 * 1024) ++ [64 * 1024] ++ List.replicate 7 (128 * 1024)

/-- A call of the flash driver: `FLASH_ErasePage` or `FLASH_ProgramWord`. -/
inductive FlashOp where
  | erasePage (addr : Nat)
  | programWord (addr word : Nat)
  deriving DecidableEq, Repr

/-- The bytes of a word in memory. -/
def wordBytes (w : Nat) : Bytes :=
  [UInt8.ofNat w, UInt8.ofNat (w / 2 ^ 8), UInt8.ofNat (w / 2 ^ 16), UInt8.ofNat (w / 2 ^ 24)]

/-- The word in memory at an address. -/
def wordAt (buf : Contents) (i : Nat) : Nat :=
  (buf i).toNat + 2 ^ 8 * (buf (i + 1)).toNat + 2 ^ 16 * (buf (i + 2)).toNat +
    2 ^ 24 * (buf (i + 3)).toNat

namespace FlashOp

/-- What the call does to the flash, which has pages of 2 KiB. -/
def apply (c : Contents) : FlashOp → Contents
  | erasePage addr => eraseAt c (addr / 2048 * 2048) 2048
  | programWord addr word => storeAt c addr (wordBytes word)

/-- The call is about the address. -/
def Touches (a : Nat) : FlashOp → Prop
  | erasePage addr => InRange (addr / 2048 * 2048) 2048 a
  | programWord addr _ => InRange addr 4 a

end FlashOp

/-- The loop of `stm32_flash_get_block`. -/
def getBlock (addr : Nat) : List Nat → Nat → Nat → Option Nat
  | [], _, _ => none
  | bsize :: rest, base, i =>
    if addr = base then some i else getBlock addr rest (base + bsize) (i + 1)

/-- `stm32_flash_get_block`, with `none` for `-EINVAL`. -/
def stm32FlashGetBlock (addr : Nat) : Option Nat := getBlock addr flashBsize flashBase 0

/-- "Calculate the number of blocks to erase", with the part of the table from `num` on. -/
def countBlocks (size : Nat) : List Nat → Nat → Nat → Exec Nat
  | bsizes, erasesize, num =>
    if size ≤ erasesize then .ok num
    else
      match bsizes with
      | [] => .error (.load num)
      | bsize :: rest => countBlocks size rest ((erasesize + bsize) % 2 ^ 32) (num + 1)

/-- `stm32_flash_erase`: the return value and the calls. -/
def stm32FlashErase (offset size : Nat) : Exec (Int × List FlashOp) :=
  match stm32FlashGetBlock offset with
  | none => .ok (-22, [])
  | some n => do
    let num ← countBlocks size (flashBsize.drop n) 0 n
    .ok (0, (List.range' n (num - n)).map fun k =>
      FlashOp.erasePage ((offset + k * 2048) % 2 ^ 32))

/-- `stm32_flash_program`, where `busy` is the answer of `FLASH_GetFlagStatus`.  In each turn of
the loop `src` is advanced twice and `offset` by one byte. -/
def stm32FlashProgram (busy : Bool) (offset : Nat) (buf : Contents) (size : Nat) :
    Int × List FlashOp :=
  if busy then (-16, [])
  else (0, (List.range ((size + 4 - 1) % 2 ^ 32 / 4)).map fun k =>
    FlashOp.programWord ((offset + k) % 2 ^ 32) (wordAt buf (4 * (2 * k + 1))))

/-- `envm_write`: the return value and the calls. -/
def envmWrite (busy : Bool) (offset : Nat) (buf : Contents) (size : Nat) :
    Exec (Nat × List FlashOp) :=
  if offset < flashBase ∨ flashBase + flashSize < (offset + size) % 2 ^ 32 then .ok (0, [])
  else do
    let (ret, erased) ← stm32FlashErase offset size
    if ret < 0 then .ok (0, erased)
    else
      let (ret, programmed) := stm32FlashProgram busy offset buf size
      if ret < 0 then .ok (0, erased ++ programmed) else .ok (size, erased ++ programmed)

/-! ## The table -/

/-- The start of a block, or the end of the last one. -/
def blockStart (n : Nat) : Nat := flashBase + (flashBsize.take n).sum

section Table

variable {addr offset size n m e : Nat}

theorem flashBsize_length : flashBsize.length = 12 := rfl

theorem blockStart_succ (h : flashBsize[n]? = some e) : blockStart (n + 1) = blockStart n + e := by
  rw [blockStart, blockStart, List.take_add_one, h, List.sum_append]
  simp [Nat.add_assoc]

theorem blockStart_le (h : n ≤ m) : blockStart n ≤ blockStart m := by
  unfold blockStart
  have hprefix : flashBsize.take n <+: flashBsize.take m := List.take_prefix_take_left h
  obtain ⟨rest, hrest⟩ := hprefix
  rw [← hrest, List.sum_append]
  omega

/-- Every block has at least 16 KiB. -/
theorem blockStart_add_le (hn : n < 12) (h : n < m) : blockStart n + 0x4000 ≤ blockStart m := by
  have hstep : blockStart n + 0x4000 ≤ blockStart (n + 1) := by
    interval_cases n <;> decide
  exact hstep.trans (blockStart_le h)

theorem blockStart_mod (hn : n < 12) : blockStart n % 2048 = 0 := by
  interval_cases n <;> decide

theorem blockStart_max (n : Nat) : blockStart n ≤ 0x08100000 := by
  rcases Nat.le_total n 12 with h | h
  · exact (blockStart_le h).trans (by decide)
  · rw [blockStart, List.take_of_length_le (by rw [flashBsize_length]; exact h)]
    decide

theorem flashBsize_drop {bsize : Nat} {rest : List Nat} (h : flashBsize.drop n = bsize :: rest) :
    n < 12 ∧ blockStart (n + 1) = blockStart n + bsize ∧ flashBsize.drop (n + 1) = rest := by
  have hlen := congrArg List.length h
  have hhead := congrArg List.head? h
  rw [List.length_drop, flashBsize_length, List.length_cons] at hlen
  rw [List.head?_drop] at hhead
  refine ⟨by omega, blockStart_succ hhead, ?_⟩
  rw [← List.tail_drop, h, List.tail_cons]

theorem flashBsize_drop_nil (h : flashBsize.drop n = []) : 12 ≤ n := by
  have hlen := congrArg List.length h
  rw [List.length_drop, flashBsize_length, List.length_nil] at hlen
  omega

/-- The search from block `n` on. -/
theorem getBlock_iff {k : Nat} : getBlock addr (flashBsize.drop n) (blockStart n) n = some k ↔
    n ≤ k ∧ k < 12 ∧ addr = blockStart k := by
  induction hsizes : flashBsize.drop n generalizing n with
  | nil =>
    have hn := flashBsize_drop_nil hsizes
    refine iff_of_false (by simp [getBlock]) (fun h => by omega)
  | cons bsize rest ih =>
    obtain ⟨hlt, hnext, hrest⟩ := flashBsize_drop hsizes
    rw [getBlock]
    split
    · rename_i haddr
      constructor
      · intro h
        cases h
        exact ⟨le_rfl, hlt, haddr⟩
      · rintro ⟨hle, hk, hk'⟩
        rcases hle.lt_or_eq with hgt | rfl
        · have := blockStart_add_le hlt hgt
          omega
        · rfl
    · rename_i haddr
      rw [← hnext, ih hrest]
      constructor
      · rintro ⟨hle, hk, hk'⟩
        exact ⟨by omega, hk, hk'⟩
      · rintro ⟨hle, hk, hk'⟩
        rcases hle.lt_or_eq with hgt | rfl
        · exact ⟨hgt, hk, hk'⟩
        · exact absurd hk' haddr

theorem stm32FlashGetBlock_eq_some :
    stm32FlashGetBlock addr = some n ↔ n < 12 ∧ addr = blockStart n := by
  have h := @getBlock_iff addr 0 n
  rw [List.drop_zero] at h
  exact h.trans ⟨fun h => h.2, fun h => ⟨Nat.zero_le n, h⟩⟩

/-- The blocks to erase are those that start in the range. -/
theorem countBlocks_ok (hn : blockStart n = offset + e) (hfit : offset + size ≤ blockStart 12) :
    ∃ num, countBlocks size (flashBsize.drop n) e n = .ok num ∧ n ≤ num ∧
      ∀ k, n ≤ k → (k < num ↔ blockStart k < offset + size) := by
  induction hsizes : flashBsize.drop n generalizing n e with
  | nil =>
    have hend := blockStart_le (flashBsize_drop_nil hsizes)
    refine ⟨n, by rw [countBlocks, if_pos (by omega)], le_rfl, ?_⟩
    intro k hk
    have := blockStart_le hk
    omega
  | cons bsize rest ih =>
    obtain ⟨hlt, hnext, hrest⟩ := flashBsize_drop hsizes
    have hmax := blockStart_max (n + 1)
    rw [countBlocks]
    split
    · refine ⟨n, rfl, le_rfl, ?_⟩
      intro k hk
      have := blockStart_le hk
      omega
    · rw [Nat.mod_eq_of_lt (by omega)]
      obtain ⟨num, hnum, hle, hiff⟩ := ih (n := n + 1) (e := e + bsize) (by omega) hrest
      refine ⟨num, hnum, by omega, ?_⟩
      intro k hk
      rcases hk.lt_or_eq with hgt | rfl
      · exact hiff k hgt
      · omega

/-- A size beyond the table is looked for behind its end. -/
theorem countBlocks_fault (hn : blockStart n = offset + e) (hfit : blockStart 12 < offset + size) :
    ∃ fault, countBlocks size (flashBsize.drop n) e n = .error fault := by
  have hend {k : Nat} : blockStart k ≤ blockStart 12 := by
    rcases Nat.le_total k 12 with h | h
    · exact blockStart_le h
    · rw [blockStart, List.take_of_length_le (by rw [flashBsize_length]; exact h)]
      exact le_rfl
  induction hsizes : flashBsize.drop n generalizing n e with
  | nil =>
    have := hend (k := n)
    exact ⟨_, by rw [countBlocks, if_neg (by omega)]⟩
  | cons bsize rest ih =>
    obtain ⟨hlt, hnext, hrest⟩ := flashBsize_drop hsizes
    have hmax := blockStart_max (n + 1)
    have := hend (k := n)
    rw [countBlocks, if_neg (by omega), Nat.mod_eq_of_lt (by omega)]
    exact ih (by omega) hrest

end Table

/-! ## What is written -/

section Effect

variable {c buf : Contents} {offset size n num i words : Nat}

theorem wordBytes_wordAt (buf : Contents) (i : Nat) :
    wordBytes (wordAt buf i) = readAt buf i 4 := by
  have h0 := (buf i).toNat_lt
  have h1 := (buf (i + 1)).toNat_lt
  have h2 := (buf (i + 2)).toNat_lt
  have h3 := (buf (i + 3)).toNat_lt
  have hread : readAt buf i 4 = [buf i, buf (i + 1), buf (i + 2), buf (i + 3)] := rfl
  rw [hread, wordBytes]
  simp only [List.cons.injEq, and_true, ← UInt8.toNat_inj, UInt8.toNat_ofNat']
  unfold wordAt
  refine ⟨?_, ?_, ?_, ?_⟩ <;> omega

/-- The place in the buffer of the byte that ends up at `offset + i`: that of the last word
written over it. -/
def sourceOf (words i : Nat) : Nat := 8 * min i (words - 1) + 4 + (i - min i (words - 1))

/-- The loop of `stm32_flash_program` on the flash. -/
theorem apply_program (hfit : offset + words ≤ 2 ^ 32) :
    ((List.range words).map fun k =>
      FlashOp.programWord ((offset + k) % 2 ^ 32) (wordAt buf (4 * (2 * k + 1)))).foldl
        FlashOp.apply c (offset + i) =
      if 0 < words ∧ i < words + 3 then buf (sourceOf words i) else c (offset + i) := by
  induction words with
  | zero => simp
  | succ words ih =>
    rw [List.range_succ, List.map_append, List.foldl_append, List.map_singleton, List.foldl_cons,
      List.foldl_nil, FlashOp.apply, Nat.mod_eq_of_lt (by omega), storeAt, wordBytes_wordAt,
      length_readAt]
    split
    · -- The new word.
      rename_i hin
      unfold InRange at hin
      rw [if_pos (by omega), List.getD_eq_getElem?_getD, getElem?_readAt (by omega),
        Option.getD_some]
      congr 1
      unfold sourceOf
      omega
    · rename_i hout
      unfold InRange at hout
      rw [ih (by omega)]
      by_cases hi : i < words
      · rw [if_pos (by omega), if_pos (by omega)]
        congr 1
        unfold sourceOf
        omega
      · rw [if_neg (by omega), if_neg (by omega)]

/-- The loop of `stm32_flash_erase` on the flash: it takes the number of the block for that of a
page. -/
theorem apply_erase (hoffset : offset % 2048 = 0) (hfit : offset + num * 2048 ≤ 2 ^ 32)
    (hle : n ≤ num) :
    ((List.range' n (num - n)).map fun k =>
      FlashOp.erasePage ((offset + k * 2048) % 2 ^ 32)).foldl FlashOp.apply c (offset + i) =
      if n ≤ i / 2048 ∧ i / 2048 < num then 0xFF else c (offset + i) := by
  induction num, hle using Nat.le_induction with
  | base =>
    rw [Nat.sub_self, if_neg (by omega)]
    rfl
  | succ num hle ih =>
    have hstep : num + 1 - n = num - n + 1 := by omega
    have hnum : n + 1 * (num - n) = num := by omega
    rw [Nat.succ_mul] at hfit
    have hrec := ih ((Nat.le_add_right _ 2048).trans (by rw [Nat.add_assoc]; exact hfit))
    rw [hstep, List.range'_concat, List.map_append, List.foldl_append, List.map_singleton,
      List.foldl_cons, List.foldl_nil, FlashOp.apply, eraseAt, hrec, hnum,
      Nat.mod_eq_of_lt (by omega)]
    split
    · rename_i hin
      unfold InRange at *
      rw [if_pos (by omega)]
    · rename_i hout
      unfold InRange at *
      by_cases hi : n ≤ i / 2048 ∧ i / 2048 < num
      · rw [if_pos hi, if_pos (by omega)]
      · rw [if_neg hi, if_neg (by omega)]

end Effect

/-! ## The write -/

section Write

variable {busy : Bool} {buf old : Contents} {offset size n i : Nat}

/-- The address lies in the pages that cover the range up to the end of its last block. -/
def InCover (offset size a : Nat) : Prop :=
  offset / 2048 * 2048 ≤ a ∧ ∀ k ≤ 12, offset + size ≤ blockStart k → a < blockStart k

/-- What `envm_write` is for.  It does not read the table behind its end; if it returns the size
then the flash holds the data and no page but those of the range was touched; and arguments
outside the flash are refused. -/
def EnvmOk (busy : Bool) (offset : Nat) (buf : Contents) (size : Nat) (old : Contents) : Prop :=
  ∃ ret ops, envmWrite busy offset buf size = .ok (ret, ops) ∧
    (ret = size → (∀ i < size, ops.foldl FlashOp.apply old (offset + i) = buf i) ∧
      ∀ op ∈ ops, ∀ a, op.Touches a → InCover offset size a) ∧
    (¬ (flashBase ≤ offset ∧ offset + size ≤ flashBase + flashSize) → ret = 0 ∧ ops = [])

/-- The number of words of the data. -/
def wordCount (size : Nat) : Nat := (size + 3) / 4

/-- The data is what a write to block `n` leaves in its place: what the loop reads in the first
part, and behind it what is erased or was there before. -/
def Repeats (n size : Nat) (buf old : Contents) : Prop :=
  ∀ i < size, buf i =
    if i < wordCount size + 3 then buf (sourceOf (wordCount size) i)
    else if n ≤ i / 2048 ∧ blockStart (i / 2048) < blockStart n + size then 0xFF
    else old (blockStart n + i)

/-- The sum in the range check wraps to an address that is accepted. -/
def WrapsBack (offset size : Nat) : Prop :=
  2 ^ 32 ≤ offset + size ∧ (offset + size) % 2 ^ 32 ≤ flashBase + flashSize

theorem envmWrite_refused (h : ∀ n < 12, offset ≠ blockStart n) :
    envmWrite busy offset buf size = .ok (0, []) := by
  have hnone : stm32FlashGetBlock offset = none := by
    rw [Option.eq_none_iff_forall_ne_some]
    intro n hn
    obtain ⟨hlt, heq⟩ := stm32FlashGetBlock_eq_some.mp hn
    exact h n hlt heq
  unfold envmWrite stm32FlashErase
  rw [hnone]
  split
  · rfl
  · rfl

theorem envmWrite_outside (h : flashBase + flashSize < (offset + size) % 2 ^ 32) :
    envmWrite busy offset buf size = .ok (0, []) := by
  rw [envmWrite, if_pos (Or.inr h)]

/-- A range that wraps is looked for in the table. -/
theorem envmWrite_fault (hn : n < 12) (hwrap : WrapsBack (blockStart n) size) :
    ∃ fault, envmWrite busy (blockStart n) buf size = .error fault := by
  obtain ⟨hlarge, hsmall⟩ := hwrap
  have hmax := blockStart_max 12
  have hbase : flashBase ≤ blockStart n := Nat.le_add_right _ _
  have hget : stm32FlashGetBlock (blockStart n) = some n :=
    stm32FlashGetBlock_eq_some.mpr ⟨hn, rfl⟩
  obtain ⟨fault, hfault⟩ := @countBlocks_fault (blockStart n) size n 0 rfl (by omega)
  refine ⟨fault, ?_⟩
  rw [envmWrite, if_neg (by omega), stm32FlashErase, hget]
  dsimp only
  rw [hfault]
  rfl

/-- A range in the flash that starts with a block is erased and programmed. -/
theorem envmWrite_accepted (hn : n < 12) (hpos : 0 < size)
    (hfit : blockStart n + size ≤ flashBase + flashSize) :
    ∃ num, n ≤ num ∧ num ≤ 8 ∧
      (∀ k, n ≤ k → (k < num ↔ blockStart k < blockStart n + size)) ∧
      envmWrite busy (blockStart n) buf size =
        if busy then .ok (0, (List.range' n (num - n)).map fun k =>
          FlashOp.erasePage ((blockStart n + k * 2048) % 2 ^ 32))
        else .ok (size, ((List.range' n (num - n)).map fun k =>
            FlashOp.erasePage ((blockStart n + k * 2048) % 2 ^ 32)) ++
          (List.range (wordCount size)).map fun k =>
            FlashOp.programWord ((blockStart n + k) % 2 ^ 32) (wordAt buf (4 * (2 * k + 1)))) := by
  have hend : blockStart 8 = flashBase + flashSize := by decide
  have htop : flashBase + flashSize ≤ blockStart 12 := by decide
  have hmax := blockStart_max 8
  have hget : stm32FlashGetBlock (blockStart n) = some n :=
    stm32FlashGetBlock_eq_some.mpr ⟨hn, rfl⟩
  obtain ⟨num, hnum, hle, hiff⟩ := @countBlocks_ok (blockStart n) size n 0 rfl (by omega)
  have hbase : flashBase ≤ blockStart n := Nat.le_add_right _ _
  have hnum8 : num ≤ 8 := by
    by_contra hgt
    rcases Nat.le_total n 8 with h8 | h8
    · have := (hiff 8 h8).mp (by omega)
      omega
    · have := blockStart_le h8
      omega
  refine ⟨num, hle, hnum8, hiff, ?_⟩
  rw [envmWrite, if_neg (by rw [Nat.mod_eq_of_lt (by omega)]; omega), stm32FlashErase, hget]
  dsimp only
  rw [hnum]
  cases busy with
  | true =>
    rw [if_pos rfl, stm32FlashProgram, if_pos rfl]
    simp
  | false =>
    have hwords : (size + 4 - 1) % 2 ^ 32 / 4 = wordCount size := by
      rw [wordCount, Nat.mod_eq_of_lt (by omega)]
      omega
    rw [if_neg (by simp), stm32FlashProgram, if_neg (by simp), hwords]
    rfl

theorem inCover_of (hn : n < 12) (hpos : 0 < size) {a : Nat} (hlo : blockStart n ≤ a)
    (hhi : a < blockStart n + max 0x4000 size) : InCover (blockStart n) size a := by
  have hmod := blockStart_mod hn
  refine ⟨by omega, ?_⟩
  intro k hk hend
  have hlt : n < k := by
    by_contra hge
    have := blockStart_le (not_lt.mp hge)
    omega
  have := blockStart_add_le hn hlt
  omega

/-- The calls of an accepted write stay in the blocks of the range. -/
theorem touches_inCover (hn : n < 12) (hpos : 0 < size)
    (hfit : blockStart n + size ≤ flashBase + flashSize) {num : Nat} (hnum : num ≤ 8)
    {op : FlashOp}
    (hop : op ∈ ((List.range' n (num - n)).map fun k =>
        FlashOp.erasePage ((blockStart n + k * 2048) % 2 ^ 32)) ++
      (List.range (wordCount size)).map fun k =>
        FlashOp.programWord ((blockStart n + k) % 2 ^ 32) (wordAt buf (4 * (2 * k + 1))))
    {a : Nat} (ha : op.Touches a) : InCover (blockStart n) size a := by
  have hmod := blockStart_mod hn
  have hmax := blockStart_max n
  have hlimit : flashBase + flashSize < 2 ^ 31 := by decide
  rcases List.mem_append.mp hop with hmem | hmem
  · obtain ⟨k, hk, rfl⟩ := List.mem_map.mp hmem
    have hk := List.mem_range'_1.mp hk
    unfold FlashOp.Touches InRange at ha
    rw [Nat.mod_eq_of_lt (by omega)] at ha
    exact inCover_of hn hpos (by omega) (by omega)
  · obtain ⟨k, hk, rfl⟩ := List.mem_map.mp hmem
    have hk := List.mem_range.mp hk
    have hle : k ≤ size := by
      unfold wordCount at hk
      omega
    unfold FlashOp.Touches InRange at ha
    rw [Nat.mod_eq_of_lt (by omega)] at ha
    unfold wordCount at hk
    exact inCover_of hn hpos (by omega) (by omega)

/-- The flash after an accepted write. -/
theorem apply_accepted (hn : n < 12) (hpos : 0 < size)
    (hfit : blockStart n + size ≤ flashBase + flashSize) {num : Nat} (hle : n ≤ num)
    (hnum : num ≤ 8) (hiff : ∀ k, n ≤ k → (k < num ↔ blockStart k < blockStart n + size)) :
    (((List.range' n (num - n)).map fun k =>
        FlashOp.erasePage ((blockStart n + k * 2048) % 2 ^ 32)) ++
      (List.range (wordCount size)).map fun k => FlashOp.programWord ((blockStart n + k) % 2 ^ 32)
        (wordAt buf (4 * (2 * k + 1)))).foldl FlashOp.apply old (blockStart n + i) =
      if i < wordCount size + 3 then buf (sourceOf (wordCount size) i)
      else if n ≤ i / 2048 ∧ blockStart (i / 2048) < blockStart n + size then 0xFF
      else old (blockStart n + i) := by
  have hmax := blockStart_max n
  have hlimit : flashBase + flashSize < 2 ^ 31 := by decide
  have hwords : 0 < wordCount size ∧ wordCount size ≤ size := by
    unfold wordCount
    omega
  rw [List.foldl_append, apply_program (by omega), apply_erase (blockStart_mod hn) (by omega) hle]
  have hpage : n ≤ i / 2048 ∧ i / 2048 < num ↔
      n ≤ i / 2048 ∧ blockStart (i / 2048) < blockStart n + size :=
    and_congr_right fun h => hiff _ h
  simp only [hwords.1, true_and, hpage]

/-- `envm_write` does what it is for exactly if a block start does not come with a size that wraps
the range check, and data that is written repeats itself in the right way. -/
theorem envmWrite_ok_iff (hpos : 0 < size) (hsize : size < 2 ^ 32) :
    EnvmOk busy offset buf size old ↔ ∀ n < 12, offset = blockStart n →
      ¬ WrapsBack offset size ∧
      (offset + size ≤ flashBase + flashSize → busy = false → Repeats n size buf old) := by
  have hlimit : flashBase + flashSize < 2 ^ 31 := by decide
  constructor
  · rintro ⟨ret, ops, heq, hwritten, -⟩ n hn rfl
    refine ⟨?_, ?_⟩
    · intro hwrap
      obtain ⟨fault, hfault⟩ := @envmWrite_fault busy buf size n hn hwrap
      rw [hfault] at heq
      cases heq
    · rintro hfit rfl
      obtain ⟨num, hle, hnum, hiff, hacc⟩ := @envmWrite_accepted false buf size n hn hpos hfit
      rw [hacc, if_neg (by simp)] at heq
      cases heq
      intro i hi
      rw [← (hwritten rfl).1 i hi, apply_accepted hn hpos hfit hle hnum hiff]
  · intro hcond
    by_cases hblock : ∃ n < 12, offset = blockStart n
    · obtain ⟨n, hn, rfl⟩ := hblock
      obtain ⟨hwrap, hrepeats⟩ := hcond n hn rfl
      have hbase : flashBase ≤ blockStart n := Nat.le_add_right _ _
      by_cases hfit : blockStart n + size ≤ flashBase + flashSize
      · obtain ⟨num, hle, hnum, hiff, hacc⟩ := @envmWrite_accepted busy buf size n hn hpos hfit
        cases busy with
        | true =>
          refine ⟨_, _, hacc, fun h => by omega, fun h => absurd ⟨hbase, hfit⟩ h⟩
        | false =>
          refine ⟨_, _, hacc, fun _ => ⟨?_, ?_⟩, fun h => absurd ⟨hbase, hfit⟩ h⟩
          · intro i hi
            rw [apply_accepted hn hpos hfit hle hnum hiff]
            exact (hrepeats hfit rfl i hi).symm
          · intro op hop a ha
            exact touches_inCover hn hpos hfit hnum hop ha
      · have hout : flashBase + flashSize < (blockStart n + size) % 2 ^ 32 := by
          have hmax := blockStart_max n
          unfold WrapsBack at hwrap
          rcases Nat.lt_or_ge (blockStart n + size) (2 ^ 32) with hlt | hge
          · rw [Nat.mod_eq_of_lt hlt]
            omega
          · omega
        exact ⟨0, [], envmWrite_outside hout, fun h => by omega, fun _ => ⟨rfl, rfl⟩⟩
    · have hnone : ∀ n < 12, offset ≠ blockStart n := by
        intro n hn heq
        exact hblock ⟨n, hn, heq⟩
      exact ⟨0, [], envmWrite_refused hnone, fun h => by omega, fun _ => ⟨rfl, rfl⟩⟩

theorem envmWrite_ok_constant : 0 < 4 ∧ 4 < 2 ^ 32 ∧
    (∃ ops, envmWrite false flashBase (fun _ => 0x55) 4 = .ok (4, ops)) ∧
    EnvmOk false flashBase (fun _ => 0x55) 4 (fun _ => 0xFF) := by
  refine ⟨by decide, by decide, ⟨_, rfl⟩, (envmWrite_ok_iff (by decide) (by decide)).mpr ?_⟩
  intro n _ _
  refine ⟨fun hwrap => absurd hwrap.1 (by decide), fun _ _ => ?_⟩
  intro i hi
  have hfirst : i < wordCount 4 + 3 := hi
  rw [if_pos hfirst]

/-- The word that is programmed is the second one of the data. -/
theorem envmWrite_not_ok :
    envmWrite false flashBase (fun i => UInt8.ofNat i) 4 =
      .ok (4, [.erasePage 0x08000000, .programWord 0x08000000 0x07060504]) ∧
    ¬ EnvmOk false flashBase (fun i => UInt8.ofNat i) 4 (fun _ => 0xFF) := by
  have hwrite : envmWrite false flashBase (fun i => UInt8.ofNat i) 4 =
      .ok (4, [.erasePage 0x08000000, .programWord 0x08000000 0x07060504]) := rfl
  refine ⟨hwrite, ?_⟩
  rintro ⟨ret, ops, heq, hwritten, -⟩
  rw [hwrite] at heq
  cases heq
  have hbyte := (hwritten rfl).1 0 (by decide)
  exact absurd hbyte (by decide)

end Write

end UBoot.Cpu
