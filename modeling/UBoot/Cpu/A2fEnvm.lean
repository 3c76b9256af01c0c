import Mathlib.Data.List.Basic
import Mathlib.Order.Nat
import UBoot.Lib.Blocks

/-!
# Writing to the embedded flash of the SmartFusion

`cpu/arm_cortexm3/a2f/envm.c`.  One loop over the bytes unprotects a page when it comes to its
first byte and programs it behind its last one.  The commands and the stores are a part of the
result, and the status behind a command is an input, by the number of the command.

* `writeLoop_eq_pages`: the loop goes page by page.
-/

namespace UBoot.Cpu.A2f

open UBoot.Lib

/-- `MSS_ENVM_BASE` -/
def envmBase : Nat := 0x60000000

/-- `MSS_ENVM_FLASH_SIZE` -/
def flashSize : Nat := 1024 * 256

/-- `MSS_ENVM_PAGE_SIZE` -/
def pageSize : Nat := 128

/-- `MSS_ENVM_CONTROL_CC_UNPROTECT` and `MSS_ENVM_CONTROL_CC_PROGRAM` with the page address and
whether they succeed, and a store to the flash. -/
inductive Event where
  | unprotect (page : Nat) (ok : Bool)
  | program (page : Nat) (ok : Bool)
  | store (addr : Nat) (byte : UInt8)
  deriving DecidableEq, Repr

/-- The page address of a command: `addr & MSS_ENVM_PAGE_ADDR_MASK`. -/
def pageAddr (addr : Nat) : Nat := addr / pageSize * pageSize % 2 ^ 20

/-- `mss_envm_exec_cmd`, with the status when the command has finished. -/
def mssEnvmExecCmd (status : UInt32) : Int :=
  if status &&& 0x03000300 ≠ 0 then
    -- "Assume the page has been programmed successfully"
    if status &&& 0x180 = 0x180 then 0 else -1
  else 0

/-- The command does not fail. -/
def Succeeds (status : UInt32) : Prop := ¬ mssEnvmExecCmd status < 0

instance (status : UInt32) : Decidable (Succeeds status) :=
  inferInstanceAs (Decidable (¬ _))

/-- The variables of the loop: `addr`, `i` and `written`, the number of commands so far, and what
has been done. -/
structure St where
  addr : Nat
  i : Nat
  written : Nat
  cmds : Nat
  events : List Event

section Loop

variable (answers : Nat → UInt32) (src : Contents) (size : Nat)

/-- A call of `mss_envm_exec_cmd`. -/
def execCmd (event : Nat → Bool → Event) (addr : Nat) (s : St) : Int × St :=
  let ret := mssEnvmExecCmd (answers s.cmds)
  (ret, { s with cmds := s.cmds + 1
                 events := s.events ++
                   [event (pageAddr addr) (decide (Succeeds (answers s.cmds)))] })

/-- "Copy a byte of the data" and "Commit the page to NVM on the last byte write"; the flag says
whether the loop goes on. -/
def copyByte (s : St) : St × Bool :=
  let s := { s with addr := (s.addr + 1) % 2 ^ 32, events := s.events ++ [.store s.addr (src s.i)] }
  if s.i = size - 1 ∨ s.addr % pageSize = 0 then
    let (ret, s) := execCmd answers .program ((s.addr + 2 ^ 32 - 1) % 2 ^ 32) s
    if ret < 0 then (s, false) else ({ s with written := s.i + 1, i := s.i + 1 }, true)
  else ({ s with i := s.i + 1 }, true)

/-- The body of the loop. -/
def writeStep (s : St) : St × Bool :=
  if s.i = 0 ∨ s.addr % pageSize = 0 then
    let (ret, s) := execCmd answers .unprotect s.addr s
    if ret < 0 then (s, false) else copyByte answers src size s
  else copyByte answers src size s

/-- The loop, for the bytes that are left: what is returned, and what has been done. -/
def writeLoop : Nat → St → Nat × List Event
  | 0, s => (s.written, s.events)
  | left + 1, s =>
    match writeStep answers src size s with
    | (s, true) => writeLoop left s
    | (s, false) => (s.written, s.events)

end Loop

/-- `envm_write` -/
def envmWrite (answers : Nat → UInt32) (offset : Nat) (src : Contents) (size : Nat) :
    Nat × List Event :=
  if flashSize < offset then (0, [])
  else writeLoop answers src size size ⟨(envmBase + offset) % 2 ^ 32, 0, 0, 0, []⟩

/-! ## Page by page -/

/-- The stores of a part of the data. -/
def stores (src : Contents) (addr i len : Nat) : List Event :=
  (List.range len).map fun j => .store ((addr + j) % 2 ^ 32) (src (i + j))

/-- The length of the part that lies in the page of the address. -/
def partLen (addr left : Nat) : Nat := min left (pageSize - addr % pageSize)

theorem partLen_pos (addr : Nat) {left : Nat} (h : 0 < left) : 0 < partLen addr left := by
  have := Nat.mod_lt addr (show 0 < pageSize by decide)
  unfold partLen
  omega

/-- The rest of a write, from the byte `i` on: the count and the events. -/
def writePages (answers : Nat → UInt32) (src : Contents) (left addr i cmds : Nat) :
    Nat × List Event :=
  if h : 0 < left then
    if ¬ Succeeds (answers cmds) then (i, [.unprotect (pageAddr addr) false])
    else
      let part := .unprotect (pageAddr addr) true :: stores src addr i (partLen addr left)
      if ¬ Succeeds (answers (cmds + 1)) then (i, part ++ [.program (pageAddr addr) false])
      else
        let rest := writePages answers src (left - partLen addr left)
          ((addr + partLen addr left) % 2 ^ 32) (i + partLen addr left) (cmds + 2)
        (rest.1, part ++ .program (pageAddr addr) true :: rest.2)
  else (i, [])
termination_by left
decreasing_by
  have := partLen_pos addr h
  omega

section Refines

variable {answers : Nat → UInt32} {src : Contents} {size left addr i k : Nat} {s : St}

/-- How the loop goes on behind a step. -/
def goOn (answers : Nat → UInt32) (src : Contents) (size left : Nat) (p : St × Bool) :
    Nat × List Event :=
  if p.2 then writeLoop answers src size left p.1 else (p.1.written, p.1.events)

theorem writeLoop_succ :
    writeLoop answers src size (left + 1) s =
      goOn answers src size left (writeStep answers src size s) := by
  rw [writeLoop, goOn]
  cases writeStep answers src size s with
  | mk s go => cases go <;> rfl

theorem stores_succ (addr i k : Nat) :
    stores src addr i (k + 1) =
      .store (addr % 2 ^ 32) (src i) :: stores src ((addr + 1) % 2 ^ 32) (i + 1) k := by
  rw [stores, List.range_succ_eq_map, List.map_cons, List.map_map, stores]
  refine congrArg (_ :: ·) (List.map_congr_left fun j _ => ?_)
  have haddr : (addr + (j + 1)) % 2 ^ 32 = ((addr + 1) % 2 ^ 32 + j) % 2 ^ 32 := by omega
  have hi : i + (j + 1) = i + 1 + j := by omega
  simp only [Function.comp, Nat.succ_eq_add_one, haddr, hi]

theorem succ_mod_of_lt (h : addr % pageSize + 1 < pageSize) :
    (addr + 1) % 2 ^ 32 % pageSize = addr % pageSize + 1 := by
  rw [show pageSize = 128 from rfl] at h ⊢
  omega

theorem succ_mod_of_eq (h : addr % pageSize + 1 = pageSize) :
    (addr + 1) % 2 ^ 32 % pageSize = 0 := by
  rw [show pageSize = 128 from rfl] at h ⊢
  omega

theorem pageAddr_succ (haddr : addr < 2 ^ 32) (h : addr % pageSize + 1 < pageSize) :
    pageAddr ((addr + 1) % 2 ^ 32) = pageAddr addr := by
  have hsize : pageSize = 128 := rfl
  have hdiv : (addr + 1) % 2 ^ 32 / pageSize = addr / pageSize := by
    rw [hsize] at h ⊢
    omega
  rw [pageAddr, hdiv, pageAddr]

/-- The last byte of a part. -/
theorem copyByte_last (haddr : s.addr < 2 ^ 32)
    (hlast : s.i = size - 1 ∨ (s.addr + 1) % 2 ^ 32 % pageSize = 0) :
    goOn answers src size left (copyByte answers src size s) =
      if Succeeds (answers s.cmds) then
        writeLoop answers src size left ⟨(s.addr + 1) % 2 ^ 32, s.i + 1, s.i + 1, s.cmds + 1,
          s.events ++ [.store s.addr (src s.i), .program (pageAddr s.addr) true]⟩
      else (s.written,
        s.events ++ [.store s.addr (src s.i), .program (pageAddr s.addr) false]) := by
  have hback : ((s.addr + 1) % 2 ^ 32 + 2 ^ 32 - 1) % 2 ^ 32 = s.addr := by omega
  rw [copyByte]
  simp only [if_pos hlast, execCmd, hback]
  by_cases hok : Succeeds (answers s.cmds)
  · rw [if_neg hok, if_pos hok, goOn, if_pos rfl, decide_eq_true hok, List.append_assoc]
    rfl
  · rw [if_pos (not_not.mp hok), if_neg hok, goOn, if_neg Bool.false_ne_true,
      decide_eq_false hok, List.append_assoc]
    rfl

/-- A byte in front of the last one of its part. -/
theorem copyByte_middle (hmiddle : s.i ≠ size - 1)
    (haligned : (s.addr + 1) % 2 ^ 32 % pageSize ≠ 0) :
    goOn answers src size (left + 1) (copyByte answers src size s) =
      goOn answers src size left (copyByte answers src size
        { s with addr := (s.addr + 1) % 2 ^ 32, i := s.i + 1,
                 events := s.events ++ [.store s.addr (src s.i)] }) := by
  conv_lhs => rw [copyByte]
  rw [if_neg (by rintro (h | h); exacts [hmiddle h, haligned h]), goOn, if_pos rfl, writeLoop_succ,
    writeStep, if_neg (by rintro (h | h); exacts [Nat.succ_ne_zero _ h, haligned h])]

/-- The bytes of a part. -/
theorem copyBytes (haddr : s.addr < 2 ^ 32) (hi : s.i + (left + 1) = size)
    (hk : partLen s.addr (left + 1) = k + 1) :
    goOn answers src size left (copyByte answers src size s) =
      if Succeeds (answers s.cmds) then
        writeLoop answers src size (left - k) ⟨(s.addr + (k + 1)) % 2 ^ 32, s.i + (k + 1),
          s.i + (k + 1), s.cmds + 1,
          s.events ++ (stores src s.addr s.i (k + 1) ++ [.program (pageAddr s.addr) true])⟩
      else (s.written,
        s.events ++ (stores src s.addr s.i (k + 1) ++ [.program (pageAddr s.addr) false])) := by
  have hmod := Nat.mod_lt s.addr (show 0 < pageSize by decide)
  rw [partLen] at hk
  induction k generalizing s left with
  | zero =>
    have hlast : s.i = size - 1 ∨ (s.addr + 1) % 2 ^ 32 % pageSize = 0 := by
      rcases Nat.eq_zero_or_pos left with hzero | hpos
      · exact Or.inl (by omega)
      · exact Or.inr (succ_mod_of_eq (by omega))
    rw [copyByte_last haddr hlast, stores_succ, Nat.mod_eq_of_lt haddr]
    rfl
  | succ k ih =>
    obtain ⟨left, rfl⟩ : ∃ n, left = n + 1 := ⟨left - 1, by omega⟩
    have hnext := succ_mod_of_lt (show s.addr % pageSize + 1 < pageSize by omega)
    rw [copyByte_middle (by omega) (by omega),
      ih (Nat.mod_lt _ (by decide)) (by dsimp only; omega) (by dsimp only; omega)
        (Nat.mod_lt _ (by decide))]
    have haddr' : ((s.addr + 1) % 2 ^ 32 + (k + 1)) % 2 ^ 32 = (s.addr + (k + 1 + 1)) % 2 ^ 32 := by
      omega
    have hi' : s.i + 1 + (k + 1) = s.i + (k + 1 + 1) := by omega
    have hleft : left + 1 - (k + 1) = left - k := by omega
    simp only [pageAddr_succ haddr (show s.addr % pageSize + 1 < pageSize by omega), haddr', hi',
      hleft, stores_succ s.addr s.i (k + 1), Nat.mod_eq_of_lt haddr, List.append_assoc,
      List.cons_append, List.nil_append]

/-- The first byte of a part. -/
theorem writeStep_head (hhead : s.i = 0 ∨ s.addr % pageSize = 0) :
    writeStep answers src size s =
      if ¬ Succeeds (answers s.cmds) then
        ({ s with cmds := s.cmds + 1,
                  events := s.events ++ [.unprotect (pageAddr s.addr) false] }, false)
      else copyByte answers src size
        { s with cmds := s.cmds + 1,
                 events := s.events ++ [.unprotect (pageAddr s.addr) true] } := by
  rw [writeStep, if_pos hhead]
  by_cases hok : Succeeds (answers s.cmds)
  · rw [if_neg (not_not.mpr hok)]
    refine (if_neg hok).trans ?_
    rw [decide_eq_true hok]
  · rw [if_pos hok]
    refine (if_pos (not_not.mp hok)).trans ?_
    rw [decide_eq_false hok]

/-- At the start of a part, the loop is the write of the pages. -/
theorem writeLoop_eq_pages (haddr : s.addr < 2 ^ 32) (hi : s.i + left = size)
    (hhead : s.i = 0 ∨ s.addr % pageSize = 0) (hwritten : s.written = s.i) :
    writeLoop answers src size left s =
      ((writePages answers src left s.addr s.i s.cmds).1,
        s.events ++ (writePages answers src left s.addr s.i s.cmds).2) := by
  induction left using Nat.strongRecOn generalizing s with
  | ind left ih =>
    rcases Nat.eq_zero_or_pos left with rfl | hpos
    · rw [writePages, dif_neg (by omega), writeLoop, hwritten, List.append_nil]
    · obtain ⟨left, rfl⟩ : ∃ n, left = n + 1 := ⟨left - 1, by omega⟩
      obtain ⟨k, hk⟩ : ∃ k, partLen s.addr (left + 1) = k + 1 :=
        ⟨partLen s.addr (left + 1) - 1, by have := partLen_pos s.addr hpos; omega⟩
      rw [writeLoop_succ, writeStep_head hhead, writePages, dif_pos hpos, hk]
      by_cases hok : Succeeds (answers s.cmds)
      · rw [if_neg (not_not.mpr hok), if_neg (not_not.mpr hok)]
        rw [copyBytes (s := { s with
          cmds := s.cmds + 1
          events := s.events ++ [.unprotect (pageAddr s.addr) true] }) haddr hi hk]
        dsimp only
        by_cases hok' : Succeeds (answers (s.cmds + 1))
        · -- the page is programmed, and the next part starts behind it
          rw [if_pos hok', if_neg (not_not.mpr hok'), Nat.add_sub_add_right]
          have hnext : left - k = 0 ∨ (s.addr + (k + 1)) % 2 ^ 32 % pageSize = 0 := by
            rw [partLen] at hk
            rcases Nat.eq_zero_or_pos (left - k) with hzero | hmore
            · exact Or.inl hzero
            · refine Or.inr ?_
              have hmod := Nat.mod_lt s.addr (show 0 < pageSize by decide)
              have hend : s.addr % pageSize + (k + 1) = pageSize := by omega
              rw [show pageSize = 128 from rfl] at hend ⊢
              omega
          rcases hnext with hzero | hhead'
          · rw [hzero, writeLoop, writePages, dif_neg (by omega)]
            simp
          · have hkle : k ≤ left := by
              have := Nat.min_le_left (left + 1) (pageSize - s.addr % pageSize)
              rw [partLen] at hk
              omega
            rw [ih (left - k) (by omega) (Nat.mod_lt _ (by decide)) (by dsimp only; omega)
              (Or.inr hhead') rfl]
            simp
        · rw [if_neg hok', if_pos hok', hwritten]
          simp
      · rw [if_pos hok, if_pos hok, goOn, if_neg Bool.false_ne_true, hwritten]

end Refines

end UBoot.Cpu.A2f
