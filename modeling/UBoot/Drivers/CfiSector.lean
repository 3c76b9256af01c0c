import UBoot.Drivers.CfiFlash
import UBoot.Lib.Run

/-!
# The sector that is found

`find_sector` starts from the sector that the last call found, in whichever bank.  In the bank of
this call the first loop goes up to the last sector at most, so from a sector behind it only the
second loop goes, down to the first slot that does not lie above the address
(`findSector_right_iff`).  A call is right if no slot from the sector count to the saved sector
stops it there.
-/

namespace UBoot.Drivers.Cfi

open UBoot.Lib

/-- The sector of a bank that the address lies in. -/
def RightSector (info : FlashInfo) (addr sector : Nat) : Prop :=
  sector < info.sectorCount ∧ info.start sector ≤ addr ∧
    (sector + 1 < info.sectorCount → addr < info.start (sector + 1))

/-- The sectors of a bank, one behind the other. -/
def FlashInfo.Increasing (info : FlashInfo) : Prop :=
  ∀ i j, i < j → j < info.sectorCount → info.start i < info.start j

/-- No slot of `start[]` from the sector count to the saved sector stops the search. -/
def LeftoverAbove (info : FlashInfo) (savedSector addr : Nat) : Prop :=
  ∀ k, info.sectorCount ≤ k → k ≤ savedSector → addr < info.start k

section Sector

variable {info : FlashInfo} {saved addr sector : Nat}

/-- There is only one. -/
theorem RightSector.unique {sector' : Nat} (hinc : info.Increasing)
    (h : RightSector info addr sector) (h' : RightSector info addr sector') : sector = sector' := by
  obtain ⟨hlt, hle, hnext⟩ := h
  obtain ⟨hlt', hle', hnext'⟩ := h'
  -- a sector behind the next one starts behind the address
  have hbelow : ∀ {a b}, a < b → b < info.sectorCount → info.start (a + 1) ≤ info.start b := by
    intro a b hab hb
    rcases Nat.eq_or_lt_of_le (Nat.succ_le_of_lt hab) with rfl | hab
    · exact Nat.le_refl _
    · exact Nat.le_of_lt (hinc _ _ hab hb)
  rcases Nat.lt_trichotomy sector sector' with hs | hs | hs
  · have := hbelow hs hlt'
    have := hnext (by omega)
    omega
  · exact hs
  · have := hbelow hs hlt
    have := hnext' (by omega)
    omega

/-! ## The loops -/

theorem sectorUp_of_le (h : info.sectorCount ≤ sector) (fuel : Nat) :
    sectorUp info addr fuel sector = sector := by
  cases fuel with
  | zero => rfl
  | succ fuel =>
    rw [sectorUp, if_neg]
    rintro ⟨-, hlt⟩
    omega

variable (addr) in
theorem sectorUp_spec {fuel : Nat} (h : sector < info.sectorCount)
    (hfuel : info.sectorCount ≤ sector + fuel) :
    sectorUp info addr fuel sector < info.sectorCount ∧
      (sectorUp info addr fuel sector + 1 < info.sectorCount →
        addr ≤ info.start (sectorUp info addr fuel sector)) := by
  induction fuel generalizing sector with
  | zero => omega
  | succ fuel ih =>
    rw [sectorUp]
    by_cases hgo : info.start sector < addr ∧ sector < info.sectorCount - 1
    · rw [if_pos hgo]
      exact ih (by omega) (by omega)
    · rw [if_neg hgo]
      refine ⟨h, fun hnext => ?_⟩
      by_contra hlt
      exact hgo ⟨by omega, by omega⟩

variable (info addr sector) in
theorem sectorDown_spec :
    sectorDown info addr sector ≤ sector ∧
      (sectorDown info addr sector = 0 ∨ info.start (sectorDown info addr sector) ≤ addr) ∧
      ∀ k, sectorDown info addr sector < k → k ≤ sector → addr < info.start k := by
  induction sector with
  | zero =>
    refine ⟨Nat.le_refl 0, .inl rfl, fun k hk hle => ?_⟩
    rw [sectorDown] at hk
    omega
  | succ sector ih =>
    rw [sectorDown]
    by_cases habove : addr < info.start (sector + 1)
    · obtain ⟨hle, hstop, habove'⟩ := ih
      rw [if_pos habove]
      refine ⟨by omega, hstop, fun k hk hk' => ?_⟩
      rcases Nat.lt_or_eq_of_le hk' with hlt | rfl
      · exact habove' k hk (by omega)
      · exact habove
    · rw [if_neg habove]
      exact ⟨Nat.le_refl _, .inr (Nat.le_of_not_lt habove), fun k hk hk' => by omega⟩

/-- **When a call finds the right sector.** -/
theorem findSector_right_iff (hinc : info.Increasing) (hin : info.start 0 ≤ addr) :
    RightSector info addr (findSector info saved addr) ↔ LeftoverAbove info saved addr := by
  have hpos := info.sectorCount_pos
  unfold findSector
  by_cases hsaved : saved < info.sectorCount
  · obtain ⟨hup, hstop⟩ := sectorUp_spec addr hsaved (Nat.le_add_left info.sectorCount saved)
    generalize sectorUp info addr info.sectorCount saved = up at hup hstop
    obtain ⟨hle, hstart, habove⟩ := sectorDown_spec info addr up
    generalize sectorDown info addr up = down at hle hstart habove
    refine iff_of_true ⟨by omega, ?_, fun hnext => ?_⟩ fun k hk hk' => by omega
    · rcases hstart with rfl | hstart
      · exact hin
      · exact hstart
    · rcases Nat.lt_or_eq_of_le hle with hlt | rfl
      · exact habove _ (Nat.lt_succ_self down) hlt
      · have := hstop hnext
        have := hinc down (down + 1) (Nat.lt_succ_self down) hnext
        omega
  · rw [sectorUp_of_le (Nat.le_of_not_lt hsaved)]
    obtain ⟨hle, hstart, habove⟩ := sectorDown_spec info addr saved
    generalize sectorDown info addr saved = down at hle hstart habove
    constructor
    · rintro ⟨hlt, -, -⟩ k hk hk'
      exact habove k (by omega) hk'
    · intro hleft
      have hlt : down < info.sectorCount := by
        by_contra hge
        rcases hstart with rfl | hstart
        · exact hge hpos
        · have := hleft down (by omega) hle
          omega
      refine ⟨hlt, ?_, fun hnext => habove _ (Nat.lt_succ_self down) (by omega)⟩
      rcases hstart with rfl | hstart
      · exact hin
      · exact hstart

end Sector

/-! ## Runs -/

/-- A call of `find_sector`. -/
structure SectorCall where
  info : FlashInfo
  addr : Nat
  increasing : info.Increasing
  inside : info.start 0 ≤ addr

/-- The sector that the call finds by itself. -/
def SectorCall.sector (call : SectorCall) : Nat := findSector call.info 0 call.addr

/-- What the call before has found does not stop this one. -/
def Unstopped (before call : SectorCall) : Prop :=
  LeftoverAbove call.info before.sector call.addr

/-- A call, from one `saved_sector` to the next. -/
def SectorStep (saved : Nat) (call : SectorCall) (next : Nat) : Prop :=
  next = findSector call.info saved call.addr

theorem SectorCall.right (call : SectorCall) :
    RightSector call.info call.addr call.sector := by
  refine (findSector_right_iff call.increasing call.inside).mpr fun k hk hk' => ?_
  have := call.info.sectorCount_pos
  omega

section Runs

variable {tr : List (Nat × SectorCall)} {saved : Nat}

/-- **Exactly when every call of a run is right**: no call is stopped by what the call before has
found, in its own bank. -/
theorem findSector_run_iff (hrun : Run SectorStep 0 tr saved) :
    (∀ p ∈ tr, RightSector p.2.info p.2.addr (findSector p.2.info p.1 p.2.addr)) ↔
      (tr.map Prod.snd).IsChain Unstopped := by
  -- while all are right, the saved sector is that of the last call
  suffices h : ((∀ p ∈ tr, RightSector p.2.info p.2.addr (findSector p.2.info p.1 p.2.addr)) ↔
      (tr.map Prod.snd).IsChain Unstopped) ∧
      ((∀ p ∈ tr, RightSector p.2.info p.2.addr (findSector p.2.info p.1 p.2.addr)) →
        saved = ((tr.map Prod.snd).getLast?.map SectorCall.sector).getD 0) from h.1
  induction hrun with
  | refl => exact ⟨iff_of_true (fun p hp => absurd hp List.not_mem_nil) .nil, fun _ => rfl⟩
  | @tail tr saved next call hrun hlast ih =>
    obtain ⟨ih, hsaved⟩ := ih
    have hcall := @findSector_right_iff _ saved _ call.increasing call.inside
    rw [List.forall_mem_append, List.forall_mem_singleton, List.map_append, List.map_singleton,
      List.isChain_append, ih]
    constructor
    · refine and_congr_right fun hchain => ?_
      rw [hcall, hsaved (ih.mpr hchain)]
      cases hbefore : (tr.map Prod.snd).getLast? with
      | none =>
        have hpos := call.info.sectorCount_pos
        refine iff_of_true (fun k hk hk' => ?_) ⟨.singleton _, fun x hx => by cases hx⟩
        rw [Option.map_none, Option.getD_none] at hk'
        omega
      | some before =>
        constructor
        · intro h
          refine ⟨.singleton _, fun x hx y hy => ?_⟩
          cases hx
          cases hy
          exact h
        · rintro ⟨-, h⟩
          exact h before rfl call rfl
    · rintro ⟨-, hright⟩
      rw [List.getLast?_append, List.getLast?_singleton, Option.some_or, Option.map_some,
        Option.getD_some, hlast]
      exact hright.unique call.increasing call.right

end Runs

/-- A bank of sectors of 16 bytes, with nothing in the other slots. -/
def smallBank (base count : Nat) (hpos : 0 < count) : FlashInfo where
  sectorCount := count
  start := fun i => if i < count then base + 16 * i else 0
  portwidth := .flashCfi8bit
  chipwidth := 1
  bufferSize := 1
  vendor := .amdStandard
  cmdReset := 0xF0
  addrUnlock1 := 0xAAA
  addrUnlock2 := 0x555
  spansionS29wsN := false
  sectorCount_pos := hpos

theorem smallBank_increasing (base count : Nat) (hpos : 0 < count) :
    (smallBank base count hpos).Increasing := by
  intro i j hij hj
  have hi : i < count := Nat.lt_trans hij hj
  dsimp only [smallBank] at hj ⊢
  rw [if_pos hi, if_pos hj]
  omega

/-- The last sector of a bank of four at 0. -/
def callAtEnd : SectorCall where
  info := smallBank 0 4 (by decide)
  addr := 50
  increasing := smallBank_increasing _ _ _
  inside := by decide

/-- The first sector of a bank of two at 64. -/
def callAtStart : SectorCall where
  info := smallBank 64 2 (by decide)
  addr := 64
  increasing := smallBank_increasing _ _ _
  inside := by decide

/-- A call in the small bank and one in the large one are right. -/
theorem findSector_run_up :
    RightSector callAtStart.info callAtStart.addr
        (findSector callAtStart.info 0 callAtStart.addr) ∧
      RightSector callAtEnd.info callAtEnd.addr (findSector callAtEnd.info 0 callAtEnd.addr) := by
  have hright : ∀ p ∈ [(0, callAtStart), (0, callAtEnd)],
      RightSector p.2.info p.2.addr (findSector p.2.info p.1 p.2.addr) :=
    (findSector_run_iff (.tail (.tail .refl rfl) rfl : Run SectorStep 0
      ([] ++ [(0, callAtStart)] ++ [(0, callAtEnd)]) 3)).mpr
      (.cons_cons (fun k hk hk' => absurd (Nat.le_trans hk hk') (by decide)) (.singleton _))
  exact ⟨hright _ List.mem_cons_self, hright _ (List.mem_cons_of_mem _ List.mem_cons_self)⟩

/-- The other way round the second stays at the sector of the first, behind the last of its bank. -/
theorem not_findSector_run :
    ¬ ∀ (tr : List (Nat × SectorCall)) (saved : Nat), Run SectorStep 0 tr saved →
      ∀ p ∈ tr, RightSector p.2.info p.2.addr (findSector p.2.info p.1 p.2.addr) := by
  intro h
  have hrun : Run SectorStep 0 ([] ++ [(0, callAtEnd)] ++ [(3, callAtStart)]) 3 :=
    .tail (.tail .refl rfl) rfl
  have hlt := (h _ _ hrun (3, callAtStart) (by simp)).1
  exact absurd hlt (by decide)

end UBoot.Drivers.Cfi
