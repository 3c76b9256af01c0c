import UBoot.Common.EnvFlash
import UBoot.Common.NveditCrc
import UBoot.Lib.Run
import UBoot.LibGeneric.Crc32

/-!
# Which environment a boot from NOR flash finds

The system is the two sectors, and the program while the power is on.  An event is a boot,
a call of `setenv`, a call of `saveenv`, or a loss of power: inside the repair of a boot,
inside `saveenv`, or elsewhere.

Between two boots the only thing that matters is what `env_init` selects, and while the
program runs the sectors are in one of three states (`Settled`): the other copy is damaged,
or it is obsolete and the one in use is active, or both are obsolete and the first is in
use.  From there `saveenv` passes only through states in which `env_init` finds the old
environment or the new one, with one exception: the write of `ACTIVE_FLAG`, from `0xFF` to
`1`, while the other copy is valid and obsolete.  If it is cut off between the bits, the
flags are a pair that no test of `env_init` covers, and the default environment is used.
The repair at boot ends with the same write.  It also cannot repair a pair of equal flags
other than 0, 1 and `0xFF` when it is cut off, and not at all if they are even.
`FlashEvent.Ok` says that none of this happens.
-/

namespace UBoot.Common

open UBoot.Lib
open UBoot.LibGeneric

variable {size : Nat} {crc : Bytes → UInt32}

/-! ## The system -/

/-- The program after relocation: the environment in RAM with the variables around it, and
the sector at `flash_addr`. -/
structure FlashRam where
  globals : Globals
  cur : Slot
  deriving DecidableEq, Repr

structure FlashWorld (size : Nat) where
  sectors : Copies (Sector size)
  /-- the program; `none` while the power is off -/
  ram : Option FlashRam
  /-- the data of the environments saved -/
  history : History Bytes

inductive FlashEvent (size : Nat)
  /-- with the variables at start -/
  | boot (fresh : Globals)
  /-- the power is lost inside the repair, which leaves these sectors -/
  | bootCut (left : Copies (Sector size))
  | setenv (call : Call)
  | save
  /-- the power is lost inside `saveenv`, which leaves these sectors -/
  | saveCut (left : Copies (Sector size))
  | off

/-- The sector that `env_init` selects; `none` for the default environment. -/
def selected (crc : Bytes → UInt32) (c : Copies (Sector size)) : Option Slot :=
  (bootGd crc c).selected

/-- The environment in RAM after a boot, and the sector it counts as coming from. -/
def bootRam (crc : Bytes → UInt32) (defaultEnvironment : Bytes) (fresh : Globals)
    (c : Copies (Sector size)) : FlashRam :=
  match selected crc c with
  | some s => ⟨{ fresh with env := ((applyOps (bootOps crc c) c).get s).env }, s⟩
  | none => ⟨{ fresh with
      env := (setDefaultEnv crc defaultEnvironment size).getD fresh.env }, .first⟩

/-- A copy that is valid after a `saveenv` that was cut off is the one of before, or has
been written completely. -/
def NotPartial (crc : Bytes → UInt32) (e : Env) (before left : Sector size) : Prop :=
  left = before ∨ (left.env.crcOk crc = true → left.data = e.data ∧ left.crc = bytesOfWord e.crc)

inductive FlashStep (crc : Bytes → UInt32) (defaultEnvironment : Bytes) :
    FlashWorld size → FlashEvent size → FlashWorld size → Prop
  | boot (w : FlashWorld size) (fresh : Globals) :
      FlashStep crc defaultEnvironment w (.boot fresh) { w with
        sectors := applyOps (bootOps crc w.sectors) w.sectors
        ram := some (bootRam crc defaultEnvironment fresh w.sectors) }
  | bootCut {w : FlashWorld size} {left : Copies (Sector size)}
      (cut : CutOff FlashOp.apply FlashOp.Torn (bootOps crc w.sectors) w.sectors left) :
      FlashStep crc defaultEnvironment w (.bootCut left) { w with sectors := left, ram := none }
  | setenv {w : FlashWorld size} {r : FlashRam} {call : Call} {rc : Int} {g : Globals}
      (on : w.ram = some r)
      (ret : doSetenv call.board crc call.flag call.argv r.globals = .ok (rc, g)) :
      FlashStep crc defaultEnvironment w (.setenv call)
        { w with ram := some { r with globals := g } }
  | save {w : FlashWorld size} {r : FlashRam} (on : w.ram = some r) :
      FlashStep crc defaultEnvironment w .save
        ⟨applyOps (saveOps r.globals.env r.cur w.sectors) w.sectors,
          some { r with cur := r.cur.other }, w.history.complete r.globals.env.data⟩
  | saveCut {w : FlashWorld size} {r : FlashRam} {left : Copies (Sector size)}
      (on : w.ram = some r)
      (cut : CutOff FlashOp.apply FlashOp.Torn (saveOps r.globals.env r.cur w.sectors) w.sectors
        left)
      (notPartial : NotPartial crc r.globals.env (w.sectors.get r.cur.other)
        (left.get r.cur.other)) :
      FlashStep crc defaultEnvironment w (.saveCut left)
        ⟨left, none, w.history.interrupt r.globals.env.data⟩
  | off (w : FlashWorld size) : FlashStep crc defaultEnvironment w .off { w with ram := none }

/-- The power is off, and the environment that `env_init` selects counts as the last one
saved. -/
def FlashWorld.start (c : Copies (Sector size)) (s : Slot) : FlashWorld size :=
  ⟨c, none, ⟨some (c.get s).data, []⟩⟩

/-- Two valid copies with equal flags, which are neither both obsolete, nor both active, nor
both erased. -/
def OddPair (crc : Bytes → UInt32) (c : Copies (Sector size)) : Prop :=
  c.first.env.crcOk crc = true ∧ c.second.env.crcOk crc = true ∧ c.first.flags = c.second.flags ∧
    c.first.flags ≠ obsoleteFlag ∧ c.first.flags ≠ activeFlag ∧ c.first.flags ≠ 0xFF

/-- The condition on an event and the state before it. -/
def FlashEvent.Ok (crc : Bytes → UInt32) (w : FlashWorld size) : FlashEvent size → Prop
  | .boot _ => OddPair crc w.sectors →
      w.sectors.first.flags &&& activeFlag = activeFlag
  | .bootCut left => ∀ s, selected crc w.sectors = some s →
      (left.get s.other).env.crcOk crc = true →
      ((left.get s).flags = (w.sectors.get s).flags ∨ (left.get s).flags = activeFlag) ∧
      (OddPair crc w.sectors →
        (left.get s).flags = (w.sectors.get s).flags ∧
            (left.get s.other).flags = (w.sectors.get s.other).flags ∨
          (left.get s).flags = activeFlag ∧ (left.get s.other).flags = obsoleteFlag)
  | .save => ∀ r, w.ram = some r → r.globals.env.crc = crc r.globals.env.data
  | .saveCut left => ∀ r, w.ram = some r → (left.get r.cur.other).env.crcOk crc = true →
      left.get r.cur.other = w.sectors.get r.cur.other ∨
        (left.get r.cur.other).flags = 0xFF ∨ (left.get r.cur.other).flags = activeFlag
  | _ => True

/-! ## What `env_init` selects -/

/-- The checksum of the copy in a sector matches. -/
def Sector.Valid (crc : Bytes → UInt32) (k : Sector size) : Prop := k.env.crcOk crc = true

/-- The same environment, perhaps with other flags. -/
def Sector.Same (k k' : Sector size) : Prop := k.data = k'.data ∧ k.crc = k'.crc

theorem Sector.Same.valid_iff {k k' : Sector size} (h : k.Same k') :
    k.Valid crc ↔ k'.Valid crc := by
  rw [Sector.Valid, Sector.Valid, Env.crcOk, Env.crcOk, Sector.env, Sector.env, h.1, h.2]

theorem envInitRedund_selected {e₁ e₂ : Env} (h₁ : e₁.crcOk crc = true) (h₂ : e₂.crcOk crc = true) :
    (envInitRedund crc e₁ e₂).selected =
      if e₁.flags = activeFlag ∧ e₂.flags = obsoleteFlag then some .first
      else if e₁.flags = obsoleteFlag ∧ e₂.flags = activeFlag then some .second
      else if e₁.flags = e₂.flags then some .first
      else if e₁.flags = 0xFF then some .first
      else if e₂.flags = 0xFF then some .second
      else none := by
  simp only [envInitRedund, h₁, h₂, Bool.not_true, Bool.and_false, Bool.false_and,
    Bool.false_eq_true, if_false]
  split_ifs <;> rfl

/-- The tests of `env_init`, seen from the copy that is selected. -/
theorem selected_iff {c : Copies (Sector size)} {s : Slot} :
    selected crc c = some s ↔ (c.get s).Valid crc ∧ (¬ (c.get s.other).Valid crc ∨
      ((c.get s).flags = activeFlag ∧ (c.get s.other).flags = obsoleteFlag) ∨
      (s = .first ∧ (c.get s).flags = (c.get s.other).flags) ∨
      ((c.get s).flags = 0xFF ∧ (c.get s.other).flags ≠ 0xFF)) := by
  rw [selected, bootGd, Sector.Valid, Sector.Valid]
  cases h₁ : c.first.env.crcOk crc <;> cases h₂ : c.second.env.crcOk crc
  case true.true =>
    have hflags₁ : c.first.env.flags = c.first.flags := rfl
    have hflags₂ : c.second.env.flags = c.second.flags := rfl
    rw [envInitRedund_selected h₁ h₂, hflags₁, hflags₂]
    have hne₁ : activeFlag ≠ obsoleteFlag := by decide
    have hne₂ : activeFlag ≠ 0xFF := by decide
    have hne₃ : obsoleteFlag ≠ 0xFF := by decide
    cases s with
    | first =>
      show _ ↔ c.first.env.crcOk crc = true ∧ (¬ c.second.env.crcOk crc = true ∨
        (c.first.flags = _ ∧ c.second.flags = _) ∨ (_ ∧ c.first.flags = c.second.flags) ∨
        (c.first.flags = _ ∧ c.second.flags ≠ _))
      rw [h₁, h₂]
      split_ifs <;> grind
    | second =>
      show _ ↔ c.second.env.crcOk crc = true ∧ (¬ c.first.env.crcOk crc = true ∨
        (c.second.flags = _ ∧ c.first.flags = _) ∨ (_ ∧ c.second.flags = c.first.flags) ∨
        (c.second.flags = _ ∧ c.first.flags ≠ _))
      rw [h₁, h₂]
      split_ifs <;> grind
  all_goals cases s <;> simp [envInitRedund, Gd.selected, Copies.get, Slot.other, h₁, h₂]

/-- The sectors while the program runs, with the copy in `s` in use. -/
structure Settled (crc : Bytes → UInt32) (c : Copies (Sector size)) (s : Slot) : Prop where
  valid : (c.get s).Valid crc
  written : (c.get s).flags ≠ 0xFF
  other : ¬ (c.get s.other).Valid crc ∨
    ((c.get s).flags = activeFlag ∧ (c.get s.other).flags = obsoleteFlag) ∨
    (s = .first ∧ (c.get s).flags = obsoleteFlag ∧ (c.get s.other).flags = obsoleteFlag)

theorem Settled.selected {c : Copies (Sector size)} {s : Slot} (h : Settled crc c s) :
    selected crc c = some s := by
  refine selected_iff.mpr ⟨h.valid, ?_⟩
  rcases h.other with h | h | ⟨hs, h₁, h₂⟩
  · exact .inl h
  · exact .inr (.inl h)
  · exact .inr (.inr (.inl ⟨hs, h₁.trans h₂.symm⟩))

/-! ## A boot

The repair changes flags only, and only as far as `repair_cases` says, whether it is cut off
or not. -/

section Boot

variable {c t : Copies (Sector size)} {s : Slot}

theorem bootOps_eq (h : selected crc c = some s) : bootOps crc c = repairOps crc s c := by
  rw [bootOps, show (bootGd crc c).selected = some s from h]

theorem Sector.same_refl (k : Sector size) : k.Same k := ⟨rfl, rfl⟩

/-- The write of a flag, done, cut off or not begun. -/
theorem cutOff_flags {x : Slot} {new : UInt8}
    (h : CutOff FlashOp.apply FlashOp.Torn [⟨x, .flags new⟩] c t) :
    (t.get x).Same (c.get x) ∧ t.get x.other = c.get x.other ∧
      TornByte (c.get x).flags new (t.get x).flags := by
  rcases h.of_singleton with rfl | ⟨htorn, hother⟩ | rfl
  · exact ⟨Sector.same_refl _, rfl, TornByte.refl _ _⟩
  · exact ⟨⟨htorn.2.1, htorn.2.2.1⟩, hother, htorn.1⟩
  · refine ⟨?_, by simp [FlashOp.apply], ?_⟩
    · simp [FlashOp.apply, SectorOp.apply, Sector.Same]
    · simpa [FlashOp.apply, SectorOp.apply] using TornByte.done (c.get x).flags new

/-- The sectors after the repair or a part of it: the flag of the other copy is on its way to
`OBSOLETE_FLAG`, or it is there and that of the copy in use is on its way to `ACTIVE_FLAG`. -/
structure Repairing (crc : Bytes → UInt32) (c t : Copies (Sector size)) (s : Slot) : Prop where
  same : (t.get s).Same (c.get s)
  same_other : (t.get s.other).Same (c.get s.other)
  flags : (t.get s).flags = (c.get s).flags ∧
      TornByte (c.get s.other).flags obsoleteFlag (t.get s.other).flags ∨
    TornByte (c.get s).flags activeFlag (t.get s).flags ∧
      ((c.get s.other).Valid crc → (t.get s.other).flags = obsoleteFlag)

/-- After the first write a valid copy is obsolete. -/
theorem applyOps_retireOps (crc : Bytes → UInt32) (s : Slot) (c : Copies (Sector size)) :
    (applyOps (retireOps crc s c) c).get s = c.get s ∧
      ((applyOps (retireOps crc s c) c).get s.other).Same (c.get s.other) ∧
      ((c.get s.other).Valid crc →
        ((applyOps (retireOps crc s c) c).get s.other).flags = obsoleteFlag) := by
  rw [retireOps]
  split_ifs with h
  · refine ⟨by simp [applyOps, FlashOp.apply], ?_, fun _ => ?_⟩
    · simp [applyOps, FlashOp.apply, SectorOp.apply, Sector.Same]
    · simp [applyOps, FlashOp.apply, SectorOp.apply, obsoleteFlag]
  · refine ⟨rfl, Sector.same_refl _, fun hvalid => ?_⟩
    by_contra hne
    exact h ⟨hne, hvalid⟩

theorem repairing_of_cutOff (h : CutOff FlashOp.apply FlashOp.Torn (repairOps crc s c) c t) :
    Repairing crc c t s := by
  rcases CutOff.of_append h with h | h
  · -- in the first write
    rw [retireOps] at h
    split_ifs at h with hretire
    · obtain ⟨hsame, hother, hflags⟩ := cutOff_flags h
      rw [Slot.other_other] at hother
      exact ⟨by rw [hother]; exact Sector.same_refl _, hsame, .inl ⟨by rw [hother], hflags⟩⟩
    · cases h
      exact ⟨Sector.same_refl _, Sector.same_refl _, .inl ⟨rfl, TornByte.refl _ _⟩⟩
  · -- in the second
    obtain ⟨hcur, hsame, hobsolete⟩ := applyOps_retireOps crc s c
    change CutOff _ _ _ (applyOps (retireOps crc s c) c) t at h
    generalize applyOps (retireOps crc s c) c = c' at *
    rw [activateOps] at h
    split_ifs at h with hodd
    · obtain ⟨hsame', hother, hflags⟩ := cutOff_flags h
      rw [hcur] at hsame' hflags
      exact ⟨hsame', by rw [hother]; exact hsame,
        .inr ⟨hflags, fun hvalid => by rw [hother]; exact hobsolete hvalid⟩⟩
    · cases h
      exact ⟨by rw [hcur]; exact Sector.same_refl _, hsame,
        .inr ⟨by rw [hcur]; exact TornByte.refl _ _, hobsolete⟩⟩

/-- Equal flags that the repair can deal with, or a pair that it cannot. -/
theorem equal_flags_cases (hvalid : (c.get .first).Valid crc) (hvalid' : (c.get .second).Valid crc)
    (h : (c.get .first).flags = (c.get .second).flags) :
    (c.get .first).flags = obsoleteFlag ∨ (c.get .first).flags = activeFlag ∨
      (c.get .first).flags = 0xFF ∨ OddPair crc c := by
  by_cases h₀ : c.first.flags = obsoleteFlag
  · exact .inl h₀
  by_cases h₁ : c.first.flags = activeFlag
  · exact .inr (.inl h₁)
  by_cases h₂ : c.first.flags = 0xFF
  · exact .inr (.inr (.inl h₂))
  exact .inr (.inr (.inr ⟨hvalid, hvalid', h, h₀, h₁, h₂⟩))

/-- A repair that is cut off leaves the choice as it was. -/
theorem selected_of_repairing (hsel : selected crc c = some s) (hr : Repairing crc c t s)
    (hok : (t.get s.other).Valid crc →
      ((t.get s).flags = (c.get s).flags ∨ (t.get s).flags = activeFlag) ∧
      (OddPair crc c →
        (t.get s).flags = (c.get s).flags ∧ (t.get s.other).flags = (c.get s.other).flags ∨
        (t.get s).flags = activeFlag ∧ (t.get s.other).flags = obsoleteFlag)) :
    selected crc t = some s := by
  obtain ⟨hvalid, hcases⟩ := selected_iff.mp hsel
  refine selected_iff.mpr ⟨hr.same.valid_iff.mpr hvalid, ?_⟩
  by_cases hother : (t.get s.other).Valid crc
  case neg => exact .inl hother
  have hother' : (c.get s.other).Valid crc := hr.same_other.valid_iff.mp hother
  obtain ⟨hcur, hodd⟩ := hok hother
  rcases hcases with hno | ⟨hp, hq⟩ | ⟨rfl, heq⟩ | ⟨hp, hq⟩
  · exact absurd hother' hno
  · have hq' : (t.get s.other).flags = obsoleteFlag := by
      rcases hr.flags with ⟨-, htorn⟩ | ⟨-, hobs⟩
      · rw [hq] at htorn
        exact htorn.of_zero
      · exact hobs hother'
    exact .inr (.inl ⟨hcur.elim (fun h => h.trans hp) id, hq'⟩)
  · have hpair : OddPair crc c →
        (t.get .first).flags = activeFlag ∧ (t.get Slot.first.other).flags = obsoleteFlag ∨
        Slot.first = .first ∧ (t.get .first).flags = (t.get Slot.first.other).flags ∨
        (t.get .first).flags = 0xFF ∧ (t.get Slot.first.other).flags ≠ 0xFF := by
      intro hO
      rcases hodd hO with ⟨h₁, h₂⟩ | h
      · exact .inr (.inl ⟨rfl, by rw [h₁, h₂, heq]⟩)
      · exact .inl h
    rcases hr.flags with ⟨hkeep, htorn⟩ | ⟨-, hobs⟩
    · rw [← heq] at htorn
      rcases equal_flags_cases hvalid hother' heq with h | h | h | h
      · rw [h] at htorn
        exact .inr (.inr (.inl ⟨rfl, by rw [hkeep, h, htorn.of_zero]; rfl⟩))
      · rw [h] at htorn
        rcases htorn.of_one with hq' | hq'
        · exact .inr (.inl ⟨hkeep.trans h, hq'⟩)
        · exact .inr (.inr (.inl ⟨rfl, by rw [hkeep, h, hq']; rfl⟩))
      · by_cases hq' : (t.get Slot.first.other).flags = 0xFF
        · exact .inr (.inr (.inl ⟨rfl, by rw [hkeep, h, hq']⟩))
        · exact .inr (.inr (.inr ⟨hkeep.trans h, hq'⟩))
      · exact .inr (hpair h)
    · have hq' := hobs hother'
      rcases hcur with hkeep | hact
      · rcases equal_flags_cases hvalid hother' heq with h | h | h | h
        · exact .inr (.inr (.inl ⟨rfl, by rw [hkeep, h, hq']⟩))
        · exact .inr (.inl ⟨hkeep.trans h, hq'⟩)
        · exact .inr (.inr (.inr ⟨hkeep.trans h, by rw [hq']; decide⟩))
        · exact .inr (hpair h)
      · exact .inr (.inl ⟨hact, hq'⟩)
  · rcases hr.flags with ⟨hkeep, htorn⟩ | ⟨-, hobs⟩
    · exact .inr (.inr (.inr ⟨hkeep.trans hp, htorn.ne_erased hq⟩))
    · have hq' := hobs hother'
      rcases hcur with hkeep | hact
      · exact .inr (.inr (.inr ⟨hkeep.trans hp, by rw [hq']; decide⟩))
      · exact .inr (.inl ⟨hact, hq'⟩)

/-- The sectors after the whole repair. -/
theorem applyOps_repairOps (crc : Bytes → UInt32) (s : Slot) (c : Copies (Sector size)) :
    Repairing crc c (applyOps (repairOps crc s c) c) s ∧
      ((c.get s.other).Valid crc →
        ((applyOps (repairOps crc s c) c).get s.other).flags = obsoleteFlag) ∧
      (((applyOps (repairOps crc s c) c).get s).flags = activeFlag ∨
        (c.get s).flags &&& activeFlag ≠ activeFlag ∧
          ((applyOps (repairOps crc s c) c).get s).flags = (c.get s).flags) := by
  refine ⟨repairing_of_cutOff (CutOff.all _ _), ?_⟩
  have happend : applyOps (repairOps crc s c) c =
      applyOps (activateOps s c) (applyOps (retireOps crc s c) c) := List.foldl_append
  obtain ⟨hcur, -, hobsolete⟩ := applyOps_retireOps crc s c
  rw [happend]
  generalize applyOps (retireOps crc s c) c = c' at *
  rw [activateOps]
  split_ifs with h
  · refine ⟨fun hvalid => ?_, .inl ?_⟩
    · rw [← hobsolete hvalid]
      simp [applyOps, FlashOp.apply]
    · have hflags : ((applyOps [⟨s, .flags activeFlag⟩] c').get s).flags =
          (c'.get s).flags &&& activeFlag := by simp [applyOps, FlashOp.apply, SectorOp.apply]
      rw [hflags, hcur, h.2]
  · refine ⟨hobsolete, ?_⟩
    show (c'.get s).flags = _ ∨ _ ∧ (c'.get s).flags = _
    rw [hcur]
    by_cases hactive : (c.get s).flags = activeFlag
    · exact .inl hactive
    · exact .inr ⟨fun hodd => h ⟨hactive, hodd⟩, rfl⟩

/-- **After a boot the sectors are settled**, and the copy selected is in use. -/
theorem settled_of_boot (hsel : selected crc c = some s)
    (hodd : OddPair crc c → c.first.flags &&& activeFlag = activeFlag) :
    Settled crc (applyOps (bootOps crc c) c) s ∧
      ((applyOps (bootOps crc c) c).get s).Same (c.get s) := by
  obtain ⟨hr, hobsolete, hflags⟩ := applyOps_repairOps crc s c
  rw [bootOps_eq hsel]
  generalize applyOps (repairOps crc s c) c = t at *
  obtain ⟨hvalid, hcases⟩ := selected_iff.mp hsel
  refine ⟨⟨hr.same.valid_iff.mpr hvalid, ?_, ?_⟩, hr.same⟩
  · rcases hflags with h | ⟨hodd, h⟩
    · rw [h]
      decide
    · rw [h]
      intro hff
      exact hodd (by rw [hff]; decide)
  · by_cases hother : (t.get s.other).Valid crc
    case neg => exact .inl hother
    have hother' := hr.same_other.valid_iff.mp hother
    right
    rcases hflags with h | ⟨hne, h⟩
    · exact .inl ⟨h, hobsolete hother'⟩
    · -- an even flag that stays is that of two obsolete copies
      rw [h]
      rcases hcases with hno | ⟨hp, -⟩ | ⟨rfl, heq⟩ | ⟨hp, -⟩
      · exact absurd hother' hno
      · exact absurd (by rw [hp]; decide) hne
      · rcases equal_flags_cases hvalid hother' heq with h | h | h | h
        · exact .inr ⟨rfl, h, hobsolete hother'⟩
        · exact absurd (by rw [h]; decide) hne
        · exact absurd (by rw [h]; decide) hne
        · exact absurd (hodd h) hne
      · exact absurd (by rw [hp]; decide) hne

end Boot

/-! ## `saveenv` -/

section Save

variable {c t t' : Copies (Sector size)} {s : Slot} {e : Env}

/-- The sectors while the new copy is written: its flag is still erased, and that of the old
one is not. -/
structure Writing (c : Copies (Sector size)) (s : Slot) (t : Copies (Sector size)) : Prop where
  same : (t.get s).Same (c.get s)
  written : (t.get s).flags ≠ 0xFF
  blank : (t.get s.other).flags = 0xFF

/-- The sectors while the new copy becomes active: the old one is obsolete. -/
structure Activating (c : Copies (Sector size)) (s : Slot) (t : Copies (Sector size)) : Prop where
  same : (t.get s).Same (c.get s)
  obsolete : (t.get s).flags = obsoleteFlag
  flags : (t.get s.other).flags ≠ obsoleteFlag

/-- The operations between the erase and the change of the flags. -/
def copyOps (e : Env) (s : Slot) : List FlashOp :=
  [⟨s.other, .data e.data⟩, ⟨s.other, .crc (bytesOfWord e.crc)⟩, ⟨s, .flags obsoleteFlag⟩]

theorem Writing.apply {o : FlashOp} (ho : o ∈ copyOps e s) (ht : Writing c s t) :
    Writing c s (o.apply t) := by
  simp only [copyOps, List.mem_cons, List.not_mem_nil, or_false] at ho
  rcases ho with rfl | rfl | rfl
  · exact ⟨by simpa [FlashOp.apply] using ht.same, by simpa [FlashOp.apply] using ht.written,
      by simpa [FlashOp.apply, SectorOp.apply] using ht.blank⟩
  · exact ⟨by simpa [FlashOp.apply] using ht.same, by simpa [FlashOp.apply] using ht.written,
      by simpa [FlashOp.apply, SectorOp.apply] using ht.blank⟩
  · exact ⟨by simpa [FlashOp.apply, SectorOp.apply, Sector.Same] using ht.same,
      by simpa [FlashOp.apply, SectorOp.apply] using ne_erased_of_and ht.written,
      by simpa [FlashOp.apply] using ht.blank⟩

theorem Writing.torn {o : FlashOp} (ho : o ∈ copyOps e s) (ht : Writing c s t)
    (h : o.Torn t t') : Writing c s t' := by
  simp only [copyOps, List.mem_cons, List.not_mem_nil, or_false] at ho
  rcases ho with rfl | rfl | rfl
  · obtain ⟨⟨-, -, hflags, -⟩, hother⟩ := h
    rw [Slot.other_other] at hother
    exact ⟨by rw [hother]; exact ht.same, by rw [hother]; exact ht.written,
      hflags.trans ht.blank⟩
  · obtain ⟨⟨-, -, hflags, -⟩, hother⟩ := h
    rw [Slot.other_other] at hother
    exact ⟨by rw [hother]; exact ht.same, by rw [hother]; exact ht.written,
      hflags.trans ht.blank⟩
  · obtain ⟨⟨hflags, hdata, hcrc, -⟩, hother⟩ := h
    exact ⟨⟨hdata.trans ht.same.1, hcrc.trans ht.same.2⟩, hflags.ne_erased ht.written,
      by rw [hother]; exact ht.blank⟩

/-- The new copy becomes active, and then the rest of the sector is restored. -/
theorem activating_of_cutOff {rest : Bytes}
    (h : CutOff FlashOp.apply FlashOp.Torn
      ([⟨s.other, .flags activeFlag⟩] ++ [⟨s.other, .rest rest⟩]) t t')
    (ht : Writing c s t) (hobsolete : (t.get s).flags = obsoleteFlag) : Activating c s t' := by
  rcases CutOff.of_append h with h | h
  · obtain ⟨-, hother, hflags⟩ := cutOff_flags h
    rw [Slot.other_other] at hother
    rw [ht.blank] at hflags
    exact ⟨by rw [hother]; exact ht.same, by rw [hother]; exact hobsolete,
      hflags.ne_zero (by decide)⟩
  · have hcur : ((FlashOp.apply ⟨s.other, .flags activeFlag⟩ t).get s) = t.get s := by
      simp [FlashOp.apply]
    have hflags : ((FlashOp.apply ⟨s.other, .flags activeFlag⟩ t).get s.other).flags =
        activeFlag := by
      simp only [FlashOp.apply, SectorOp.apply, Copies.get_set_self, ht.blank]
      decide
    change CutOff _ _ _ (FlashOp.apply ⟨s.other, .flags activeFlag⟩ t) t' at h
    generalize FlashOp.apply ⟨s.other, .flags activeFlag⟩ t = t₁ at *
    have hne : activeFlag ≠ obsoleteFlag := by decide
    rcases h.of_singleton with rfl | ⟨⟨-, -, -, hrest⟩, hother⟩ | rfl
    · exact ⟨by rw [hcur]; exact ht.same, by rw [hcur]; exact hobsolete, by rw [hflags]; exact hne⟩
    · rw [Slot.other_other] at hother
      exact ⟨by rw [hother, hcur]; exact ht.same, by rw [hother, hcur]; exact hobsolete,
        by rw [hrest, hflags]; exact hne⟩
    · refine ⟨?_, ?_, ?_⟩
      · simpa [FlashOp.apply, hcur] using ht.same
      · simpa [FlashOp.apply, hcur] using hobsolete
      · simpa [FlashOp.apply, SectorOp.apply, hflags] using hne

/-- The states in which a `saveenv` can be cut off. -/
theorem saveenv_cutOff (hwritten : (c.get s).flags ≠ 0xFF)
    (h : CutOff FlashOp.apply FlashOp.Torn (saveOps e s c) c t) :
    t = c ∨ Writing c s t ∨ Activating c s t := by
  have hsplit : saveOps e s c = [⟨s.other, .erase⟩] ++ (copyOps e s ++
      ([⟨s.other, .flags activeFlag⟩] ++ [⟨s.other, .rest (c.get s.other).rest⟩])) := rfl
  have herase : Writing c s (FlashOp.apply ⟨s.other, .erase⟩ c) :=
    ⟨by simpa [FlashOp.apply] using Sector.same_refl _, by simpa [FlashOp.apply] using hwritten,
      by simp [FlashOp.apply, SectorOp.apply]⟩
  rw [hsplit] at h
  rcases CutOff.of_append h with h | h
  · rcases h.of_singleton with rfl | ⟨htorn, -⟩ | rfl
    · exact .inl rfl
    · exact absurd htorn id
    · exact .inr (.inl herase)
  rcases CutOff.of_append h with h | h
  · exact .inr (.inl (h.invariant (fun o ho t ht => ht.apply ho)
      (fun o ho t t' ht htorn => ht.torn ho htorn) herase))
  · have hall : CutOff FlashOp.apply FlashOp.Torn (copyOps e s) _
        (applyOps (copyOps e s) (FlashOp.apply ⟨s.other, .erase⟩ c)) := CutOff.all _ _
    have hcopied := hall.invariant (fun o ho t ht => ht.apply ho)
      (fun o ho t t' ht htorn => ht.torn ho htorn) herase
    refine .inr (.inr (activating_of_cutOff h hcopied ?_))
    simp [copyOps, FlashOp.apply, SectorOp.apply, obsoleteFlag]

/-- The sectors after a whole `saveenv`. -/
theorem applyOps_saveOps (hlen : e.data.length = size) :
    ((applyOps (saveOps e s c) c).get s).flags = obsoleteFlag ∧
      ((applyOps (saveOps e s c) c).get s.other).flags = activeFlag ∧
      ((applyOps (saveOps e s c) c).get s.other).data = e.data ∧
      ((applyOps (saveOps e s c) c).get s.other).crc = bytesOfWord e.crc := by
  have hdata : program (erased size) e.data = e.data := program_blank (by rw [hlen])
  have hcrc : program (erased 4) (bytesOfWord e.crc) = bytesOfWord e.crc := program_blank rfl
  have hactive : (0xFF : UInt8) &&& activeFlag = activeFlag := by decide
  simp [applyOps, saveOps, FlashOp.apply, SectorOp.apply, hdata, hcrc, hactive, obsoleteFlag]

theorem Settled.other_obsolete (h : Settled crc c s) (hvalid : (c.get s.other).Valid crc) :
    (c.get s.other).flags = obsoleteFlag := by
  rcases h.other with hno | ⟨-, hq⟩ | ⟨-, -, hq⟩
  · exact absurd hvalid hno
  · exact hq
  · exact hq

/-- **After a `saveenv` the sectors are settled**, and the new copy is in use. -/
theorem settled_of_save (hlen : e.data.length = size) (hcrc : e.crc = crc e.data) :
    Settled crc (applyOps (saveOps e s c) c) s.other := by
  obtain ⟨hflags, hflags', hdata, hcrc'⟩ := applyOps_saveOps (c := c) (s := s) hlen
  refine ⟨?_, by rw [hflags']; decide, .inr (.inl ⟨hflags', by rw [Slot.other_other, hflags]⟩)⟩
  rw [Sector.Valid, Env.crcOk_iff, Sector.env, hdata, hcrc', wordOfBytes_bytesOfWord, hcrc]

/-- A `saveenv` that is cut off leaves the old environment or the new one. -/
theorem selected_of_saveCut (hset : Settled crc c s)
    (hcut : CutOff FlashOp.apply FlashOp.Torn (saveOps e s c) c t)
    (hpart : NotPartial crc e (c.get s.other) (t.get s.other))
    (hok : (t.get s.other).Valid crc → t.get s.other = c.get s.other ∨
      (t.get s.other).flags = 0xFF ∨ (t.get s.other).flags = activeFlag) :
    selected crc t = some s ∧ (t.get s).data = (c.get s).data ∨
      selected crc t = some s.other ∧ (t.get s.other).data = e.data := by
  rcases saveenv_cutOff hset.written hcut with rfl | hw | ha
  · exact .inl ⟨hset.selected, rfl⟩
  · by_cases hother : (t.get s.other).Valid crc
    · right
      rcases hpart with hsame | hdata
      · -- the old copy there was obsolete, and the flag is erased now
        have hq := hset.other_obsolete (hsame ▸ hother)
        rw [← hsame, hw.blank] at hq
        exact absurd hq (by decide)
      · refine ⟨selected_iff.mpr ⟨hother, .inr (.inr (.inr ⟨hw.blank, ?_⟩))⟩, (hdata hother).1⟩
        rw [Slot.other_other]
        exact hw.written
    · exact .inl ⟨selected_iff.mpr ⟨hw.same.valid_iff.mpr hset.valid, .inl hother⟩, hw.same.1⟩
  · by_cases hother : (t.get s.other).Valid crc
    · right
      have hchanged : t.get s.other ≠ c.get s.other := by
        intro hsame
        have hq := hset.other_obsolete (hsame ▸ hother)
        rw [← hsame] at hq
        exact ha.flags hq
      refine ⟨selected_iff.mpr ⟨hother, ?_⟩, (hpart.resolve_left hchanged hother).1⟩
      rw [Slot.other_other]
      rcases (hok hother).resolve_left hchanged with hq | hq
      · exact .inr (.inr (.inr ⟨hq, by rw [ha.obsolete]; decide⟩))
      · exact .inr (.inl ⟨hq, ha.obsolete⟩)
    · exact .inl ⟨selected_iff.mpr ⟨ha.same.valid_iff.mpr hset.valid, .inl hother⟩, ha.same.1⟩

end Save

/-! ## The run -/

structure FlashWorld.Inv (crc : Bytes → UInt32) (w : FlashWorld size) : Prop where
  found : ∃ s, selected crc w.sectors = some s ∧ w.history.Allows (some (w.sectors.get s).data)
  ram : ∀ r, w.ram = some r →
    r.globals.env.data.length = size ∧ Settled crc w.sectors r.cur

/-- The environment in use is one that was saved. -/
theorem FlashWorld.Inv.allows {w : FlashWorld size} (hw : w.Inv crc) {s : Slot}
    (hs : selected crc w.sectors = some s) : w.history.Allows (some (w.sectors.get s).data) := by
  obtain ⟨s', hs', hallows⟩ := hw.found
  obtain rfl : s' = s := Option.some.inj (hs'.symm.trans hs)
  exact hallows

/-- **One event keeps the invariant.** -/
theorem FlashStep.inv {defaultEnvironment : Bytes} {w w' : FlashWorld size} {ev : FlashEvent size}
    (hw : w.Inv crc) (hok : ev.Ok crc w) (h : FlashStep crc defaultEnvironment w ev w') :
    w'.Inv crc := by
  cases h with
  | boot fresh =>
    obtain ⟨s, hs, hallows⟩ := hw.found
    obtain ⟨hset, hsame⟩ := settled_of_boot hs hok
    refine ⟨⟨s, hset.selected, ?_⟩, fun r hr => ?_⟩
    · show w.history.Allows (some ((applyOps _ _).get s).data)
      rw [hsame.1]
      exact hallows
    · obtain rfl : bootRam crc defaultEnvironment fresh w.sectors = r := Option.some.inj hr
      rw [bootRam, hs]
      exact ⟨Sector.length_data _, hset⟩
  | @bootCut left cut =>
    obtain ⟨s, hs, hallows⟩ := hw.found
    rw [bootOps_eq hs] at cut
    have hr := repairing_of_cutOff cut
    refine ⟨⟨s, selected_of_repairing hs hr (hok s hs), ?_⟩, fun r hr => by cases hr⟩
    show w.history.Allows (some (left.get s).data)
    rw [hr.same.1]
    exact hallows
  | @setenv r call rc g on ret =>
    refine ⟨hw.found, fun r' hr' => ?_⟩
    obtain rfl : { r with globals := g } = r' := Option.some.inj hr'
    obtain ⟨hlen, hset⟩ := hw.ram r on
    exact ⟨by rw [(doSetenv_frame ret).2]; exact hlen, hset⟩
  | @save r on =>
    obtain ⟨hlen, -⟩ := hw.ram r on
    have hset : Settled crc (applyOps (saveOps r.globals.env r.cur w.sectors) w.sectors)
        r.cur.other := settled_of_save hlen (hok r on)
    refine ⟨⟨r.cur.other, hset.selected, ?_⟩, fun r' hr' => ?_⟩
    · obtain ⟨-, -, hdata, -⟩ := applyOps_saveOps (c := w.sectors) (s := r.cur) hlen
      show History.Allows _ (some ((applyOps _ _).get r.cur.other).data)
      rw [hdata]
      exact History.allows_complete (h := w.history)
    · obtain rfl : { r with cur := r.cur.other } = r' := Option.some.inj hr'
      exact ⟨hlen, hset⟩
  | @saveCut r left on cut notPartial =>
    obtain ⟨-, hset⟩ := hw.ram r on
    refine ⟨?_, fun r' hr' => by cases hr'⟩
    rcases selected_of_saveCut hset cut notPartial (hok r on) with ⟨hs, hdata⟩ | ⟨hs, hdata⟩
    · refine ⟨r.cur, hs, ?_⟩
      show History.Allows _ (some (left.get r.cur).data)
      rw [hdata]
      exact (hw.allows hset.selected).interrupt
    · refine ⟨r.cur.other, hs, ?_⟩
      show History.Allows _ (some (left.get r.cur.other).data)
      rw [hdata]
      exact History.allows_interrupt
  | off => exact ⟨hw.found, fun r hr => by cases hr⟩

/-- **The environment a boot finds.**  From sectors in which `env_init` selects one, after
every run whose events meet the condition, `env_init` selects a copy, and its data is that
of the last `saveenv` that was completed or of a later one that was cut off. -/
theorem flash_boot_finds (crc : Bytes → UInt32) (defaultEnvironment : Bytes)
    (c : Copies (Sector size)) (s : Slot) (hstart : selected crc c = some s)
    (tr : List (FlashWorld size × FlashEvent size)) (w : FlashWorld size)
    (hrun : Run (FlashStep crc defaultEnvironment) (FlashWorld.start c s) tr w)
    (hok : ∀ p ∈ tr, p.2.Ok crc p.1) :
    ∃ s', selected crc w.sectors = some s' ∧
      w.history.Allows (some (w.sectors.get s').data) := by
  have hinit : (FlashWorld.start c s).Inv crc :=
    ⟨⟨s, hstart, .inl rfl⟩, fun r hr => by cases hr⟩
  have hinv : w.Inv crc := hrun.invariant (FlashWorld.Inv crc) (fun w e => e.Ok crc w)
    (fun hw ho hs => hs.inv hw ho) hinit hok
  exact hinv.found

/-! ### A `saveenv`, and one that is cut off in its last flag -/

/-- The environment `a=c` in a sector of its own. -/
def tinySector (flags c : UInt8) : Sector 5 :=
  ⟨bytesOfWord (crc32 [97, 61, c, 0, 0]), flags, [97, 61, c, 0, 0], [], rfl, rfl⟩

/-- An active copy, and an obsolete one. -/
def twoSectors : Copies (Sector 5) := ⟨tinySector 1 49, tinySector 0 50⟩

def runningRam : FlashRam := ⟨globalsOf (tinySector 1 49).env, .first⟩

/-- The system after a boot from them. -/
def running : FlashWorld 5 := ⟨twoSectors, some runningRam, ⟨some (tinySector 1 49).data, []⟩⟩

def tinyFresh : Globals := globalsOf (tinySector 1 49).env

theorem flashStep_running :
    FlashStep crc32 [] (FlashWorld.start twoSectors .first) (.boot tinyFresh) running := by
  have hops : applyOps (bootOps crc32 twoSectors) twoSectors = twoSectors := by decide +kernel
  have hram : bootRam crc32 [] tinyFresh twoSectors = runningRam := by decide +kernel
  have hafter : running = { FlashWorld.start twoSectors .first with
      sectors := applyOps (bootOps crc32 twoSectors) twoSectors
      ram := some (bootRam crc32 [] tinyFresh twoSectors) } := by
    rw [hops, hram]
    rfl
  rw [hafter]
  exact FlashStep.boot _ _

def savedSectors : Copies (Sector 5) :=
  applyOps (saveOps runningRam.globals.env .first twoSectors) twoSectors

/-- The system after a `saveenv` behind the boot. -/
def tinySavedWorld : FlashWorld 5 :=
  ⟨savedSectors, some { runningRam with cur := .second },
    running.history.complete runningRam.globals.env.data⟩

theorem flash_boot_finds_saved :
    selected crc32 savedSectors = some .second ∧
      ∃ s', selected crc32 tinySavedWorld.sectors = some s' ∧
        tinySavedWorld.history.Allows (some (tinySavedWorld.sectors.get s').data) := by
  refine ⟨by decide +kernel, ?_⟩
  refine flash_boot_finds crc32 [] twoSectors .first (by decide +kernel)
    [(FlashWorld.start twoSectors .first, .boot tinyFresh), (running, .save)] tinySavedWorld ?_ ?_
  · exact (Run.refl.tail flashStep_running).tail (FlashStep.save rfl)
  · rw [List.forall_mem_cons, List.forall_mem_singleton]
    refine ⟨fun hodd => ?_, fun r hr => ?_⟩
    · exact absurd hodd.2.2.1 (by decide)
    · obtain rfl : runningRam = r := Option.some.inj hr
      decide +kernel

/-- The old copy is obsolete, and one bit of the flag of the new one is still to be cleared. -/
def tornSectors : Copies (Sector 5) := ⟨tinySector 0 49, tinySector 3 49⟩

/-- **The default environment, with two valid copies.**  The power is lost inside the write of
`ACTIVE_FLAG`, from `0xFF` to 1, when the byte is 3. -/
theorem flash_torn_active_flag :
    selected crc32 twoSectors = some .first ∧
      Run (FlashStep crc32 []) (FlashWorld.start twoSectors .first)
        [(FlashWorld.start twoSectors .first, .boot tinyFresh), (running, .saveCut tornSectors)]
        ⟨tornSectors, none, running.history.interrupt runningRam.globals.env.data⟩ ∧
      selected crc32 tornSectors = none := by
  refine ⟨by decide +kernel, ?_, by decide +kernel⟩
  refine (Run.refl.tail flashStep_running).tail (FlashStep.saveCut rfl ?_
    (.inr fun _ => ⟨by decide, by decide +kernel⟩))
  refine .behind (.behind (.behind (.behind (.inside _ ⟨⟨⟨2, ?_⟩, ?_, ?_, ?_⟩, ?_⟩))))
  all_goals decide +kernel

end UBoot.Common
