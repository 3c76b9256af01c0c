import UBoot.Lib.Blocks

/-!
# Writing to the NOR flash of the dragon board

`board/stm/dragon/flash.c`.  The chip takes the command cycles of a program in front of the data,
and a program clears bits of a cell of two bytes.  `write_buff` goes through the cells and counts
down by two on an unsigned counter.  Behind the end of the bank there is no cell: a loop that comes
there has left what is modelled, without a result.

* `writeBuff_right_iff`: a write ends, and if it returns 0 it has stored its bytes and no others,
  if and only if the count is even or the loop is stopped by a byte of the data that does not fit.
-/

namespace UBoot.Board.Dragon

open UBoot.Lib

/-- `info->start[0]` and `info->size`: a bank of whole cells. -/
structure NorBank where
  base : Nat
  size : Nat
  base_even : base % 2 = 0
  size_even : size % 2 = 0
  size_lt : size < 2 ^ 32

/-- The address behind the bank. -/
def NorBank.stop (b : NorBank) : Nat := b.base + b.size

/-- How far the chip has come in the command cycles of a program. -/
inductive NorMode where
  | read
  | unlock1
  | unlock2
  | program
  deriving DecidableEq, Repr

structure NorDev where
  mode : NorMode
  cells : Contents

/-- Two bytes of a cell: `data = *src++; data |= *src++ << 8;`. -/
def halfWord (lo hi : UInt8) : BitVec 16 := hi.toBitVec ++ lo.toBitVec

/-- `*addr` in read mode. -/
def halfAt (c : Contents) (addr : Nat) : BitVec 16 := halfWord (c addr) (c (addr + 1))

def halfBytes (data : BitVec 16) : Bytes :=
  [UInt8.ofBitVec (data.extractLsb' 0 8), UInt8.ofBitVec (data.extractLsb' 8 8)]

/-- A write to the chip. -/
def norWrite (b : NorBank) (addr : Nat) (data : BitVec 16) (d : NorDev) : NorDev :=
  match d.mode with
  | .read => { d with mode := if addr = b.base + 0xAAAA ∧ data = 0x00AA then .unlock1 else .read }
  | .unlock1 =>
    { d with mode := if addr = b.base + 0x5554 ∧ data = 0x0055 then .unlock2 else .read }
  | .unlock2 =>
    { d with mode := if addr = b.base + 0xAAAA ∧ data = 0x00A0 then .program else .read }
  | .program => ⟨.read, programAt d.cells addr (halfBytes data)⟩

/-- `write_data`, where `poll` says for a cell whether `FSMC_NOR_GetStatus` reports success. -/
def writeData (b : NorBank) (poll : Nat → Bool) (dest : Nat) (data : BitVec 16) (d : NorDev) :
    Nat × NorDev :=
  if halfAt d.cells dest &&& data ≠ data then (2, d)
  else
    let d := norWrite b (b.base + 0xAAAA) 0x00AA d
    let d := norWrite b (b.base + 0x5554) 0x0055 d
    let d := norWrite b (b.base + 0xAAAA) 0x00A0 d
    let d := norWrite b dest data d
    if poll dest then (0, norWrite b dest 0x00F0 d) else (1, norWrite b dest 0x00F0 d)

/-- The end of a loop: a return value with `wp` and the number of bytes that have been read from
the source, or the first cell behind the bank. -/
inductive WriteEnd where
  | returned (rc wp read : Nat) (d : NorDev)
  | outside (d : NorDev)

/-- The loop of `write_buff`. -/
def writeLoop (b : NorBank) (poll : Nat → Bool) (src : Contents) (wp pos cnt : Nat) (d : NorDev) :
    WriteEnd :=
  if cnt = 0 then .returned 0 wp pos d
  else if b.stop ≤ wp then .outside d
  else
    match writeData b poll wp (halfWord (src pos) (src (pos + 1))) d with
    | (rc, d) =>
      if rc ≠ 0 then .returned rc wp (pos + 2) d
      else writeLoop b poll src (wp + 2) (pos + 2) ((cnt + 2 ^ 32 - 2) % 2 ^ 32) d
termination_by b.stop - wp
decreasing_by omega

/-- `write_buff`, where `known` is `info->flash_id != FLASH_UNKNOWN`. -/
def writeBuff (b : NorBank) (known : Bool) (poll : Nat → Bool) (src : Contents) (addr cnt : Nat)
    (d : NorDev) : WriteEnd :=
  if known = false then .returned 4 addr 0 d else writeLoop b poll src addr 0 cnt d

/-! ## A cell -/

section Cell

variable {b : NorBank} {poll : Nat → Bool} {src : Contents} {wp pos cnt : Nat} {d : NorDev}

theorem halfBytes_halfWord (lo hi : UInt8) : halfBytes (halfWord lo hi) = [lo, hi] := by
  have hlo : (hi.toBitVec ++ lo.toBitVec).extractLsb' 0 8 = lo.toBitVec := by
    apply BitVec.eq_of_getLsbD_eq
    intro i hi
    rw [BitVec.getLsbD_extractLsb', BitVec.getLsbD_append, Nat.zero_add, if_pos hi,
      decide_eq_true hi, Bool.true_and]
  have hhi : (hi.toBitVec ++ lo.toBitVec).extractLsb' 8 8 = hi.toBitVec := by
    apply BitVec.eq_of_getLsbD_eq
    intro i hi
    rw [BitVec.getLsbD_extractLsb', BitVec.getLsbD_append, if_neg (by omega), decide_eq_true hi,
      Bool.true_and, Nat.add_sub_cancel_left]
  rw [halfBytes, halfWord, hlo, hhi]

theorem halfWord_inj {lo hi lo' hi' : UInt8} :
    halfWord lo hi = halfWord lo' hi' ↔ lo = lo' ∧ hi = hi' := by
  constructor
  · intro h
    have hbytes := congrArg halfBytes h
    rw [halfBytes_halfWord, halfBytes_halfWord] at hbytes
    obtain ⟨hlo, hrest⟩ := List.cons.inj hbytes
    exact ⟨hlo, (List.cons.inj hrest).1⟩
  · rintro ⟨rfl, rfl⟩
    rfl

/-- The cell has a 1 wherever the data has one. -/
theorem halfAt_and {a : Nat} {lo hi : UInt8} {c : Contents} :
    halfAt c a &&& halfWord lo hi = halfWord lo hi ↔ c a &&& lo = lo ∧ c (a + 1) &&& hi = hi := by
  have hand : halfAt c a &&& halfWord lo hi = halfWord (c a &&& lo) (c (a + 1) &&& hi) := by
    rw [halfAt, halfWord, halfWord, halfWord, BitVec.and_append, UInt8.toBitVec_and,
      UInt8.toBitVec_and]
  rw [hand, halfWord_inj]

theorem writeData_blocked {dest : Nat} {data : BitVec 16}
    (h : halfAt d.cells dest &&& data ≠ data) :
    writeData b poll dest data d = (2, d) := if_pos h

theorem norWrite_first (c : Contents) :
    norWrite b (b.base + 0xAAAA) 0x00AA ⟨.read, c⟩ = ⟨.unlock1, c⟩ :=
  congrArg (NorDev.mk · c) (if_pos ⟨rfl, rfl⟩)

theorem norWrite_second (c : Contents) :
    norWrite b (b.base + 0x5554) 0x0055 ⟨.unlock1, c⟩ = ⟨.unlock2, c⟩ :=
  congrArg (NorDev.mk · c) (if_pos ⟨rfl, rfl⟩)

theorem norWrite_third (c : Contents) :
    norWrite b (b.base + 0xAAAA) 0x00A0 ⟨.unlock2, c⟩ = ⟨.program, c⟩ :=
  congrArg (NorDev.mk · c) (if_pos ⟨rfl, rfl⟩)

theorem norWrite_data (dest : Nat) (data : BitVec 16) (c : Contents) :
    norWrite b dest data ⟨.program, c⟩ = ⟨.read, programAt c dest (halfBytes data)⟩ := rfl

theorem norWrite_reset (dest : Nat) (c : Contents) :
    norWrite b dest 0x00F0 ⟨.read, c⟩ = ⟨.read, c⟩ := by
  have hne : ¬ (dest = b.base + 0xAAAA ∧ (0x00F0 : BitVec 16) = 0x00AA) :=
    fun h => absurd h.2 (by decide)
  exact congrArg (NorDev.mk · c) (if_neg hne)

/-- The command cycles end with the program of the cell. -/
theorem writeData_ok {dest : Nat} {data : BitVec 16} (hmode : d.mode = .read)
    (h : halfAt d.cells dest &&& data = data) (hpoll : poll dest = true) :
    writeData b poll dest data d = (0, ⟨.read, programAt d.cells dest (halfBytes data)⟩) := by
  obtain ⟨mode, cells⟩ := d
  dsimp only at hmode h
  subst hmode
  rw [writeData, if_neg (not_not.mpr h)]
  simp only [norWrite_first, norWrite_second, norWrite_third, norWrite_data, norWrite_reset, hpoll,
    if_true]

/-- The cell at `wp` cannot take the source bytes at `pos`. -/
def Refuses (src cells : Contents) (wp pos : Nat) : Prop :=
  halfAt cells wp &&& halfWord (src pos) (src (pos + 1)) ≠ halfWord (src pos) (src (pos + 1))

theorem writeLoop_zero : writeLoop b poll src wp pos 0 d = .returned 0 wp pos d := by
  rw [writeLoop, if_pos rfl]

theorem writeLoop_refused (hcnt : cnt ≠ 0) (hwp : wp < b.stop) (h : Refuses src d.cells wp pos) :
    writeLoop b poll src wp pos cnt d = .returned 2 wp (pos + 2) d := by
  rw [writeLoop, if_neg hcnt, if_neg (by omega), writeData_blocked h]
  rfl

/-- The bytes of one turn in their cell. -/
def stored (src cells : Contents) (wp pos : Nat) : Contents :=
  programAt cells wp [src pos, src (pos + 1)]

theorem writeLoop_stored (hcnt : cnt ≠ 0) (hwp : wp < b.stop) (hmode : d.mode = .read)
    (h : ¬ Refuses src d.cells wp pos) :
    writeLoop b (fun _ => true) src wp pos cnt d =
      writeLoop b (fun _ => true) src (wp + 2) (pos + 2) ((cnt + 2 ^ 32 - 2) % 2 ^ 32)
        ⟨.read, stored src d.cells wp pos⟩ := by
  conv_lhs => rw [writeLoop]
  rw [if_neg hcnt, if_neg (by omega), writeData_ok hmode (not_not.mp h) rfl, halfBytes_halfWord]
  rfl

theorem writeLoop_outside (hcnt : cnt ≠ 0) (hwp : b.stop ≤ wp) :
    writeLoop b poll src wp pos cnt d = .outside d := by
  rw [writeLoop, if_neg hcnt, if_pos hwp]

/-- A cell that does not refuse the bytes holds them, and the other bytes are as before. -/
theorem stored_apply {cells : Contents} (h : ¬ Refuses src cells wp pos) :
    stored src cells wp pos wp = src pos ∧ stored src cells wp pos (wp + 1) = src (pos + 1) ∧
      ∀ a, a ≠ wp → a ≠ wp + 1 → stored src cells wp pos a = cells a := by
  obtain ⟨hlo, hhi⟩ := halfAt_and.mp (not_not.mp h)
  refine ⟨?_, ?_, ?_⟩
  · rw [stored, programAt, if_pos ⟨Nat.le_refl _, by simp⟩, Nat.sub_self]
    exact hlo
  · rw [stored, programAt, if_pos ⟨by omega, by simp⟩, Nat.add_sub_cancel_left]
    exact hhi
  · intro a hne hne'
    refine programAt_of_not_inRange ?_
    rintro ⟨hge, hlt⟩
    rw [show [src pos, src (pos + 1)].length = 2 from rfl] at hlt
    omega

end Cell

/-! ## A run -/

/-- The first `n` bytes of the source are in their place, and all else is as it was. -/
def Stored (src : Contents) (addr n : Nat) (old new : Contents) : Prop :=
  (∀ i < n, new (addr + i) = src i) ∧ ∀ a, ¬ InRange addr n a → new a = old a

/-- The byte at its place has a 0 bit where the byte of the source has a 1. -/
def Lacks (src cells : Contents) (addr i : Nat) : Prop :=
  ∃ bit, (src i).toBitVec.getLsbD bit = true ∧ (cells (addr + i)).toBitVec.getLsbD bit = false

/-- The write returns.  Behind 0 the data is stored, and nothing was read behind it; behind 2 there
is a byte of the data, with its place in the cell, for which the cell lacks a bit. -/
def WriteRight (src old : Contents) (addr cnt : Nat) (r : WriteEnd) : Prop :=
  ∃ rc wp read d, r = .returned rc wp read d ∧
    (rc = 0 → Stored src addr cnt old d.cells ∧ read ≤ cnt) ∧
    (rc = 2 → ∃ i < cnt, InRange wp 2 (addr + i) ∧ Lacks src d.cells addr i)

section Run

variable {b : NorBank} {src old : Contents} {addr pos cnt n : Nat} {d : NorDev}

theorem Stored.step (h : Stored src addr pos old d.cells)
    (hcell : ¬ Refuses src d.cells (addr + pos) pos) :
    Stored src addr (pos + 2) old (stored src d.cells (addr + pos) pos) := by
  obtain ⟨hbytes, hrest⟩ := h
  obtain ⟨hlo, hhi, hother⟩ := stored_apply hcell
  constructor
  · intro i hi
    by_cases hnew : i < pos
    · rw [hother _ (by omega) (by omega)]
      exact hbytes i hnew
    · rcases Nat.lt_or_ge pos i with hlt | hge
      · obtain rfl : i = pos + 1 := by omega
        exact hhi
      · obtain rfl : i = pos := by omega
        exact hlo
  · intro a ha
    rw [hother a (fun h => ha ⟨by omega, by omega⟩) (fun h => ha ⟨by omega, by omega⟩)]
    exact hrest a fun hin => ha ⟨hin.1, by have := hin.2; omega⟩

theorem lacks_iff {cells : Contents} {i : Nat} :
    Lacks src cells addr i ↔ cells (addr + i) &&& src i ≠ src i := by
  constructor
  · rintro ⟨bit, hdata, hcell⟩ heq
    have hbit := congrArg (fun x : UInt8 => x.toBitVec.getLsbD bit) heq
    rw [UInt8.toBitVec_and, BitVec.getLsbD_and, hdata, hcell] at hbit
    cases hbit
  · intro hne
    by_contra hnone
    refine hne (UInt8.toBitVec_inj.mp (BitVec.eq_of_getLsbD_eq fun bit _ => ?_))
    rw [UInt8.toBitVec_and, BitVec.getLsbD_and]
    cases hdata : (src i).toBitVec.getLsbD bit with
    | false => exact Bool.and_false _
    | true =>
      rw [Bool.and_true]
      by_contra hcell
      exact hnone ⟨bit, hdata, Bool.eq_false_iff.mpr hcell⟩

/-- A cell refuses its bytes for one of them. -/
theorem refuses_iff {cells : Contents} :
    Refuses src cells (addr + pos) pos ↔
      Lacks src cells addr pos ∨ Lacks src cells addr (pos + 1) := by
  rw [Refuses, Ne, halfAt_and, not_and_or, lacks_iff, lacks_iff]
  rfl

/-- What the loop has not come to is as it was. -/
theorem Stored.lacks_iff {i : Nat} (h : Stored src addr pos old d.cells) (hi : pos ≤ i) :
    Lacks src d.cells addr i ↔ Lacks src old addr i := by
  rw [Lacks, h.2 (addr + i) fun hin => by have := hin.2; omega, Lacks]

theorem writeRight_refused (h : Refuses src d.cells (addr + pos) pos) (hin : pos + 2 ≤ cnt)
    (read : Nat) : WriteRight src old addr cnt (.returned 2 (addr + pos) read d) := by
  refine ⟨2, _, read, d, rfl, ?_, fun _ => ?_⟩
  · intro hzero
    cases hzero
  · rcases refuses_iff.mp h with hlacks | hlacks
    · exact ⟨pos, by omega, ⟨by omega, by omega⟩, hlacks⟩
    · exact ⟨pos + 1, by omega, ⟨by omega, by omega⟩, hlacks⟩

/-- An even count, `n` cells of which are left. -/
theorem writeLoop_even (hmode : d.mode = .read) (h : Stored src addr pos old d.cells)
    (hfit : addr + pos + 2 * n ≤ b.stop) (hn : 2 * n < 2 ^ 32) :
    WriteRight src old addr (pos + 2 * n)
      (writeLoop b (fun _ => true) src (addr + pos) pos (2 * n) d) := by
  induction n generalizing pos d with
  | zero =>
    rw [Nat.mul_zero, writeLoop_zero]
    refine ⟨0, _, pos, d, rfl, fun _ => ⟨h, Nat.le_refl _⟩, ?_⟩
    intro htwo
    cases htwo
  | succ n ih =>
    by_cases hcell : Refuses src d.cells (addr + pos) pos
    · rw [writeLoop_refused (by omega) (by omega) hcell]
      exact writeRight_refused hcell (by omega) (pos + 2)
    · have hcount : (2 * (n + 1) + 2 ^ 32 - 2) % 2 ^ 32 = 2 * n := by omega
      rw [writeLoop_stored (by omega) (by omega) hmode hcell, hcount]
      have hrest := ih (d := ⟨.read, stored src d.cells (addr + pos) pos⟩) rfl (h.step hcell)
        (by omega) (by omega)
      rwa [show pos + 2 + 2 * n = pos + 2 * (n + 1) by omega,
        show addr + (pos + 2) = addr + pos + 2 by omega] at hrest

/-- An odd count does not come to 0: the loop goes on to the first cell that refuses its bytes, or
to the end of the bank. -/
theorem writeLoop_odd (hmode : d.mode = .read) (h : Stored src addr pos old d.cells)
    (hodd : cnt % 2 = 1) (hcnt : cnt < 2 ^ 32) (heven : (addr + pos) % 2 = 0) :
    (∃ j d', writeLoop b (fun _ => true) src (addr + pos) pos cnt d =
        .returned 2 (addr + j) (j + 2) d' ∧ Stored src addr j old d'.cells ∧
        Refuses src d'.cells (addr + j) j ∧ ∀ i, pos ≤ i → i < j → ¬ Lacks src old addr i) ∨
      (∃ d', writeLoop b (fun _ => true) src (addr + pos) pos cnt d = .outside d') ∧
        ∀ i, pos ≤ i → addr + i < b.stop → ¬ Lacks src old addr i := by
  induction hleft : b.stop - (addr + pos) using Nat.strongRecOn generalizing pos cnt d with
  | ind left ih =>
    rcases Nat.lt_or_ge (addr + pos) b.stop with hlt | hge
    · by_cases hcell : Refuses src d.cells (addr + pos) pos
      · exact Or.inl ⟨pos, d, writeLoop_refused (by omega) hlt hcell, h, hcell,
          fun i hi hi' => by omega⟩
      · rw [writeLoop_stored (by omega) hlt hmode hcell]
        have hodd' : (cnt + 2 ^ 32 - 2) % 2 ^ 32 % 2 = 1 := by omega
        have hfirst : ∀ i, pos ≤ i → i < pos + 2 → ¬ Lacks src old addr i := by
          intro i hi hi' hlacks
          rw [← h.lacks_iff hi] at hlacks
          refine hcell (refuses_iff.mpr ?_)
          rcases Nat.lt_or_ge pos i with hnext | hsame
          · obtain rfl : i = pos + 1 := by omega
            exact Or.inr hlacks
          · obtain rfl : i = pos := by omega
            exact Or.inl hlacks
        rcases ih (b.stop - (addr + (pos + 2))) (by omega)
          (d := ⟨.read, stored src d.cells (addr + pos) pos⟩) rfl (h.step hcell) hodd'
          (Nat.mod_lt _ (by decide)) (by omega) rfl with
          ⟨j, d', hrun, hstored, hrefuses, hnone⟩ | ⟨hrun, hnone⟩
        · refine Or.inl ⟨j, d', hrun, hstored, hrefuses, fun i hi hi' => ?_⟩
          rcases Nat.lt_or_ge i (pos + 2) with hnear | hfar
          · exact hfirst i hi hnear
          · exact hnone i hfar hi'
        · refine Or.inr ⟨hrun, fun i hi hi' => ?_⟩
          rcases Nat.lt_or_ge i (pos + 2) with hnear | hfar
          · exact hfirst i hi hnear
          · exact hnone i hfar hi'
    · exact Or.inr ⟨⟨d, writeLoop_outside (by omega) hge⟩, fun i hi hi' => by omega⟩

end Run

/-! ## The write -/

/-- An even address in the bank, and a count that ends there, as `flash_write` passes it. -/
structure WriteArgs (b : NorBank) (addr cnt : Nat) : Prop where
  even : addr % 2 = 0
  base_le : b.base ≤ addr
  fits : addr + cnt ≤ b.stop

section Write

variable {b : NorBank} {src : Contents} {addr cnt : Nat} {d : NorDev}

/-- A write is right if and only if its count is even, or a byte of the data has a 1 bit where the
flash has a 0 bit. -/
theorem writeBuff_right_iff (known : Bool) (src : Contents) (h : WriteArgs b addr cnt)
    (hmode : d.mode = .read) :
    WriteRight src d.cells addr cnt (writeBuff b known (fun _ => true) src addr cnt d) ↔
      known = false ∨ cnt % 2 = 0 ∨ ∃ i < cnt, Lacks src d.cells addr i := by
  have hbase := h.base_le
  have hfit := h.fits
  have heven := h.even
  have hsize := b.size_lt
  have hstop : b.stop = b.base + b.size := rfl
  have hstart : Stored src addr 0 d.cells d.cells := ⟨fun i hi => by omega, fun _ _ => rfl⟩
  cases known with
  | false =>
    refine iff_of_true ⟨4, addr, 0, d, rfl, ?_, ?_⟩ (Or.inl rfl)
    · intro hzero
      cases hzero
    · intro htwo
      cases htwo
  | true =>
    rw [writeBuff, if_neg (by decide)]
    rcases Nat.mod_two_eq_zero_or_one cnt with hcnt | hcnt
    · obtain ⟨n, rfl⟩ : ∃ n, cnt = 2 * n := ⟨cnt / 2, by omega⟩
      have hright := writeLoop_even (b := b) (n := n) hmode hstart (by omega) (by omega)
      rw [Nat.zero_add, Nat.add_zero] at hright
      exact iff_of_true hright (Or.inr (Or.inl hcnt))
    · rcases writeLoop_odd (b := b) hmode hstart hcnt (by omega) (by omega) with
        ⟨j, d', hrun, hstored, hrefuses, hnone⟩ | ⟨⟨d', hrun⟩, hnone⟩
      · rw [Nat.add_zero] at hrun
        rw [hrun]
        constructor
        · rintro ⟨rc, wp, read, d'', heq, -, htwo⟩
          cases heq
          obtain ⟨i, hi, hin, hlacks⟩ := htwo rfl
          have hge := hin.1
          exact Or.inr (Or.inr ⟨i, hi, (hstored.lacks_iff (by omega)).mp hlacks⟩)
        · rintro (hfalse | hzero | ⟨i, hi, hlacks⟩)
          · cases hfalse
          · omega
          · have hji : j ≤ i := by
              by_contra hlt
              exact hnone i (Nat.zero_le i) (by omega) hlacks
            rcases Nat.lt_or_ge i (j + 2) with hnear | hfar
            · refine ⟨2, _, _, d', rfl, ?_, fun _ => ⟨i, hi, ⟨by omega, by omega⟩, ?_⟩⟩
              · intro hzero
                cases hzero
              · exact (hstored.lacks_iff hji).mpr hlacks
            · exact writeRight_refused hrefuses (by omega) _
      · rw [Nat.add_zero] at hrun
        rw [hrun]
        refine iff_of_false ?_ ?_
        · rintro ⟨rc, wp, read, d'', heq, -⟩
          cases heq
        · rintro (hfalse | hzero | ⟨i, hi, hlacks⟩)
          · cases hfalse
          · omega
          · exact hnone i (Nat.zero_le i) (by omega) hlacks

/-- The bank of the board. -/
def dragonBank : NorBank where
  base := 0x64000000
  size := 0x200000
  base_even := by decide
  size_even := by decide
  size_lt := by decide

theorem writeBuff_right_evenCount :
    WriteRight (fun _ => 0xAA) (fun _ => 0xFF) 0x64000000 4
      (writeBuff dragonBank true (fun _ => true) (fun _ => 0xAA) 0x64000000 4
        ⟨.read, fun _ => 0xFF⟩) :=
  (writeBuff_right_iff (d := ⟨.read, fun _ => 0xFF⟩) true (fun _ => 0xAA)
    ⟨by decide, by decide, by decide⟩ rfl).mpr (Or.inr (Or.inl (by decide)))

/-- One byte to a bank that is erased: the loop goes on to the end of the bank. -/
theorem writeBuff_right_oneByte :
    (∃ d', writeBuff dragonBank true (fun _ => true) (fun _ => 0xAA) 0x64000000 1
      ⟨.read, fun _ => 0xFF⟩ = .outside d') ∧
    ¬ WriteRight (fun _ => 0xAA) (fun _ => 0xFF) 0x64000000 1
      (writeBuff dragonBank true (fun _ => true) (fun _ => 0xAA) 0x64000000 1
        ⟨.read, fun _ => 0xFF⟩) := by
  have hstart : Stored (fun _ => 0xAA) 0x64000000 0 (fun _ => 0xFF) (fun _ => 0xFF) :=
    ⟨fun i hi => absurd hi (Nat.not_lt_zero i), fun _ _ => rfl⟩
  rcases writeLoop_odd (b := dragonBank) (d := ⟨.read, fun _ => 0xFF⟩) rfl hstart
    (show 1 % 2 = 1 by decide) (by decide) (by decide) with
    ⟨j, d', -, hstored, hrefuses, -⟩ | ⟨⟨d', hrun⟩, -⟩
  · have hblank (i : Nat) : ¬ Lacks (fun _ => 0xAA) (fun _ => 0xFF) 0x64000000 i := by
      rw [lacks_iff]
      decide
    rcases refuses_iff.mp hrefuses with hlacks | hlacks
    · exact absurd ((hstored.lacks_iff (Nat.le_refl j)).mp hlacks) (hblank j)
    · exact absurd ((hstored.lacks_iff (Nat.le_succ j)).mp hlacks) (hblank (j + 1))
  · have hwrite : writeBuff dragonBank true (fun _ => true) (fun _ => 0xAA) 0x64000000 1
        ⟨.read, fun _ => 0xFF⟩ = .outside d' := by
      rw [Nat.add_zero] at hrun
      rw [writeBuff, if_neg (by decide)]
      exact hrun
    refine ⟨⟨d', hwrite⟩, ?_⟩
    rintro ⟨rc, wp, read, d'', heq, -⟩
    rw [hwrite] at heq
    cases heq

end Write

end UBoot.Board.Dragon
