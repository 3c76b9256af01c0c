import UBoot.LibGeneric.Byteorder
import Mathlib.Logic.Function.Iterate

/-!
# The timer of the Cortex-M3

`cpu/arm_cortexm3/timer.c` over the down-counter of the core.  Every read of the counter comes some
ticks after the one before it; how many is not known.

* `getTimer_exact_iff`: the time stamp is the number of ticks since `reset_timer` at every call of
  a run if and only if the counter is not reloaded between any two of the calls.  A reload is
  counted one tick short, and with a counter that has come down again to where it was, not at all.
* `udelay_not_early_iff`: a delay is not too short, except where the wait goes across a reload, the
  first read of the loop sees the sample once more, and the second one comes before the reload.
-/

namespace UBoot.Cpu

open UBoot.LibGeneric

/-- `CM3_SYSTICK_LOAD_RELOAD_MSK` -/
def cm3SystickLoadReloadMsk : Nat := 0x00FFFFFF

/-- `CM3_SYSTICK_CTRL_EN` -/
def cm3SystickCtrlEn : Nat := 1

/-- `CM3_SYSTICK_CTRL_SYSTICK_CPU` -/
def cm3SystickCtrlSystickCpu : Nat := 4

/-- `struct cm3_systick`, the registers that the driver uses. -/
structure Cm3Systick where
  ctrl : Nat
  load : Nat
  val : Nat
  deriving DecidableEq, Repr

/-- One tick of the clock of the counter. -/
def Cm3Systick.tick (s : Cm3Systick) : Cm3Systick :=
  if s.ctrl &&& cm3SystickCtrlEn = 0 then s
  else if s.val = 0 then { s with val := s.load }
  else { s with val := s.val - 1 }

/-- The counter after some ticks. -/
def Cm3Systick.ticks (n : Nat) (s : Cm3Systick) : Cm3Systick := Cm3Systick.tick^[n] s

/-- How often the counter is reloaded in some ticks. -/
def Cm3Systick.reloads : Nat → Cm3Systick → Nat
  | 0, _ => 0
  | n + 1, s => (if s.val = 0 then 1 else 0) + reloads n s.tick

/-- The driver: the counter, `timestamp` and `lastdec`. -/
structure Timer where
  systick : Cm3Systick
  timestamp : Nat
  lastdec : Nat
  deriving DecidableEq, Repr

/-- `timer_init`, with `CONFIG_ARMCORTEXM3_SYSTICK_CPU` or without. -/
def timerInit (systickCpu : Bool) (t : Timer) : Int × Timer :=
  let ctrl := if systickCpu then cm3SystickCtrlEn ||| cm3SystickCtrlSystickCpu else cm3SystickCtrlEn
  (0, { t with
    systick := { ctrl := ctrl, load := cm3SystickLoadReloadMsk - 1, val := 0 }
    timestamp := 0 })

/-- `reset_timer` -/
def resetTimer (t : Timer) : Timer :=
  { t with lastdec := t.systick.val, timestamp := 0 }

/-- The ticks that `get_timer` adds to the time stamp. -/
def getTimerAdds (lastdec now : Nat) : Nat :=
  if now ≤ lastdec then lastdec - now
  else ulong (lastdec + cm3SystickLoadReloadMsk - 1 + (2 ^ 32 - now))

/-- `get_timer`, with `clock_get(CLOCK_SYSTICK)` and `CONFIG_SYS_HZ`. -/
def getTimer (clock hz base : Nat) (t : Timer) : Nat × Timer :=
  let now := t.systick.val
  let timestamp := (t.timestamp + getTimerAdds t.lastdec now) % 2 ^ 64
  (ulong (timestamp / (clock / hz) + (2 ^ 32 - base)),
    { t with timestamp := timestamp, lastdec := now })

/-- A call of `get_timer`: the ticks since the call before it, and its argument. -/
structure TimerCall where
  gap : Nat
  base : Nat

/-- The driver after one more call. -/
def afterCall (clock hz : Nat) (t : Timer) (call : TimerCall) : Timer :=
  (getTimer clock hz call.base { t with systick := t.systick.ticks call.gap }).2

/-- The driver after some calls of `get_timer`. -/
def getTimers (clock hz : Nat) (calls : List TimerCall) (t : Timer) : Timer :=
  calls.foldl (afterCall clock hz) t

/-- The ticks that go by in the course of some calls. -/
def ticksOf (calls : List TimerCall) : Nat := (calls.map TimerCall.gap).sum

/-- Between two calls the counter is reloaded at most so many times. -/
def ReloadsAtMost (most : Nat) : Cm3Systick → List TimerCall → Prop
  | _, [] => True
  | s, call :: calls =>
    s.reloads call.gap ≤ most ∧ ReloadsAtMost most (s.ticks call.gap) calls

/-- The counter as a delay sees it: the ticks that have gone by, and the reads so far. -/
structure Clock where
  systick : Cm3Systick
  elapsed : Nat
  reads : Nat
  deriving DecidableEq, Repr

/-- The next read of the counter, some ticks after the one before it. -/
def Clock.read (gap : Nat → Nat) (c : Clock) : Clock :=
  { systick := c.systick.ticks (gap c.reads)
    elapsed := c.elapsed + gap c.reads
    reads := c.reads + 1 }

/-- A loop whose condition reads the counter. -/
def whileReads (cond : Clock → Bool × Clock) : Nat → Clock → Option Clock
  | 0, _ => none
  | fuel + 1, c =>
    match cond c with
    | (true, c') => whileReads cond fuel c'
    | (false, c') => some c'

/-- The condition of the loop of `__udelay` that waits across a reload. -/
def waitAcross (gap : Nat → Nat) (clc tmp : Nat) (c : Clock) : Bool × Clock :=
  let c₁ := c.read gap
  if c₁.systick.val < tmp then (true, c₁)
  else
    let c₂ := c₁.read gap
    (decide (ulong (cm3SystickLoadReloadMsk - 1 + (2 ^ 32 - clc) + tmp) < c₂.systick.val), c₂)

/-- The condition of the other loop. -/
def waitDown (gap : Nat → Nat) (clc tmp : Nat) (c : Clock) : Bool × Clock :=
  let c₁ := c.read gap
  if tmp - clc < c₁.systick.val then
    let c₂ := c₁.read gap
    (decide (c₂.systick.val ≤ tmp), c₂)
  else (false, c₁)

/-- `clc` of `__udelay`: the ticks to wait. -/
def udelayClc (clock usec : Nat) : Nat := ulong (usec * (clock / 1000000))

/-- `__udelay` -/
def udelay (gap : Nat → Nat) (clock usec : Nat) (fuel : Nat) (c : Clock) : Option Clock :=
  let clc := udelayClc clock usec
  let c₀ := c.read gap
  let tmp := c₀.systick.val
  if tmp < clc then whileReads (waitAcross gap clc tmp) fuel c₀
  else whileReads (waitDown gap clc tmp) fuel c₀

/-! ## The counter -/

namespace Cm3Systick

/-- The counter runs, from the value that `timer_init` programs. -/
structure Programmed (s : Cm3Systick) : Prop where
  enabled : s.ctrl &&& cm3SystickCtrlEn ≠ 0
  load_eq : s.load = cm3SystickLoadReloadMsk - 1
  val_le : s.val ≤ cm3SystickLoadReloadMsk - 1

@[simp] theorem ticks_zero (s : Cm3Systick) : s.ticks 0 = s := rfl

theorem ticks_succ (n : Nat) (s : Cm3Systick) : s.ticks (n + 1) = s.tick.ticks n := rfl

theorem ticks_ticks (m n : Nat) (s : Cm3Systick) : (s.ticks m).ticks n = s.ticks (m + n) := by
  rw [ticks, ticks, ticks, Nat.add_comm, Function.iterate_add_apply]

theorem Programmed.tick_val {s : Cm3Systick} (h : s.Programmed) :
    s.tick.val = if s.val = 0 then cm3SystickLoadReloadMsk - 1 else s.val - 1 := by
  rw [tick, if_neg h.enabled]
  by_cases h0 : s.val = 0
  · rw [if_pos h0, if_pos h0, ← h.load_eq]
  · rw [if_neg h0, if_neg h0]

theorem Programmed.tick {s : Cm3Systick} (h : s.Programmed) : s.tick.Programmed := by
  have hval := h.tick_val
  have hle := h.val_le
  refine ⟨?_, ?_, ?_⟩
  · rw [Cm3Systick.tick, if_neg h.enabled]
    split
    · exact h.enabled
    · exact h.enabled
  · rw [Cm3Systick.tick, if_neg h.enabled]
    split
    · exact h.load_eq
    · exact h.load_eq
  · rw [hval]
    split <;> omega

theorem Programmed.ticks {s : Cm3Systick} (h : s.Programmed) (n : Nat) :
    (s.ticks n).Programmed := by
  induction n generalizing s with
  | zero => exact h
  | succ n ih => exact ih h.tick

/-- The counter goes round in `CM3_SYSTICK_LOAD_RELOAD_MSK` ticks. -/
theorem Programmed.ticks_val {s : Cm3Systick} (h : s.Programmed) (n : Nat) :
    (s.ticks n).val =
      (s.val + n * (cm3SystickLoadReloadMsk - 1)) % cm3SystickLoadReloadMsk := by
  induction n generalizing s with
  | zero =>
    have hle := h.val_le
    simp only [cm3SystickLoadReloadMsk] at hle ⊢
    rw [ticks_zero]
    omega
  | succ n ih =>
    have hval := h.tick_val
    have hle := h.val_le
    rw [ticks_succ, ih h.tick, hval]
    simp only [cm3SystickLoadReloadMsk] at hle ⊢
    split <;> omega

theorem Programmed.reloads_eq {s : Cm3Systick} (h : s.Programmed) (n : Nat) :
    s.reloads n = (n + (cm3SystickLoadReloadMsk - 1) - s.val) / cm3SystickLoadReloadMsk := by
  induction n generalizing s with
  | zero =>
    have hle := h.val_le
    rw [reloads]
    simp only [cm3SystickLoadReloadMsk] at hle ⊢
    omega
  | succ n ih =>
    have hval := h.tick_val
    have hle := h.val_le
    rw [reloads, ih h.tick, hval]
    simp only [cm3SystickLoadReloadMsk] at hle ⊢
    split <;> omega

theorem Programmed.reloads_eq_zero_iff {s : Cm3Systick} (h : s.Programmed) {n : Nat} :
    s.reloads n = 0 ↔ n ≤ s.val := by
  have hle := h.val_le
  rw [h.reloads_eq]
  simp only [cm3SystickLoadReloadMsk] at hle ⊢
  omega

theorem Programmed.reloads_le_one_iff {s : Cm3Systick} (h : s.Programmed) {n : Nat} :
    s.reloads n ≤ 1 ↔ n ≤ s.val + cm3SystickLoadReloadMsk := by
  have hle := h.val_le
  rw [h.reloads_eq]
  simp only [cm3SystickLoadReloadMsk] at hle ⊢
  omega

theorem Programmed.ticks_val_of_le {s : Cm3Systick} (h : s.Programmed) {n : Nat}
    (hn : n ≤ s.val) : (s.ticks n).val = s.val - n := by
  have hle := h.val_le
  rw [h.ticks_val]
  simp only [cm3SystickLoadReloadMsk] at hle ⊢
  omega

theorem Programmed.ticks_val_of_gt {s : Cm3Systick} (h : s.Programmed) {n : Nat}
    (hn : s.val < n) (hn' : n ≤ s.val + cm3SystickLoadReloadMsk) :
    (s.ticks n).val = s.val + cm3SystickLoadReloadMsk - n := by
  have hle := h.val_le
  rw [h.ticks_val]
  simp only [cm3SystickLoadReloadMsk] at hle hn' ⊢
  omega

end Cm3Systick

/-! ## What `get_timer` counts -/

/-- What the call after `gap` ticks leaves out, with at most one reload in them: one tick for the
reload, or the whole round where the counter has come down to the value of the call before. -/
def lostTicks (s : Cm3Systick) (gap : Nat) : Nat :=
  if s.reloads gap = 0 then 0
  else if (s.ticks gap).val ≤ s.val then cm3SystickLoadReloadMsk else 1

theorem getTimerAdds_add_lostTicks {s : Cm3Systick} (h : s.Programmed) {gap : Nat}
    (hone : s.reloads gap ≤ 1) :
    getTimerAdds s.val (s.ticks gap).val + lostTicks s gap = gap := by
  have hle := h.val_le
  have hgap := h.reloads_le_one_iff.mp hone
  by_cases h0 : gap ≤ s.val
  · rw [lostTicks, if_pos (h.reloads_eq_zero_iff.mpr h0), h.ticks_val_of_le h0, getTimerAdds,
      if_pos (Nat.sub_le _ _)]
    omega
  · rw [lostTicks, if_neg (fun e => h0 (h.reloads_eq_zero_iff.mp e)),
      h.ticks_val_of_gt (by omega) hgap, getTimerAdds, ulong]
    by_cases hround : s.val + cm3SystickLoadReloadMsk - gap ≤ s.val
    · rw [if_pos hround, if_pos hround]
      omega
    · rw [if_neg hround, if_neg hround]
      simp only [cm3SystickLoadReloadMsk] at hle hgap hround ⊢
      omega

theorem lostTicks_eq_zero_iff {s : Cm3Systick} {gap : Nat} :
    lostTicks s gap = 0 ↔ s.reloads gap = 0 := by
  rw [lostTicks]
  by_cases h0 : s.reloads gap = 0
  · rw [if_pos h0]
    exact ⟨fun _ => h0, fun _ => rfl⟩
  · rw [if_neg h0, cm3SystickLoadReloadMsk]
    split <;> omega

theorem lostTicks_le (s : Cm3Systick) (gap : Nat) : lostTicks s gap ≤ cm3SystickLoadReloadMsk := by
  rw [lostTicks, cm3SystickLoadReloadMsk]
  split
  · omega
  · split <;> omega

theorem getTimers_cons (clock hz : Nat) (call : TimerCall) (calls : List TimerCall) (t : Timer) :
    getTimers clock hz (call :: calls) t =
      getTimers clock hz calls (afterCall clock hz t call) := rfl

/-- The ticks that a run leaves out. -/
def lostBy : Cm3Systick → List TimerCall → Nat
  | _, [] => 0
  | s, call :: calls => lostTicks s call.gap + lostBy (s.ticks call.gap) calls

theorem getTimers_add_lostBy (clock hz : Nat) (calls : List TimerCall) {t : Timer}
    (h : t.systick.Programmed) (hlast : t.lastdec = t.systick.val)
    (hone : ReloadsAtMost 1 t.systick calls) :
    ((getTimers clock hz calls t).timestamp + lostBy t.systick calls) % 2 ^ 64 =
      (t.timestamp + ticksOf calls) % 2 ^ 64 := by
  induction calls generalizing t with
  | nil => rfl
  | cons call calls ih =>
    obtain ⟨hcall, hrest⟩ := hone
    have hstamp : (afterCall clock hz t call).timestamp =
        (t.timestamp + getTimerAdds t.systick.val (t.systick.ticks call.gap).val) % 2 ^ 64 := by
      rw [← hlast]
      rfl
    have hadds := getTimerAdds_add_lostTicks h hcall
    have hrun := @ih (afterCall clock hz t call) (h.ticks _) rfl hrest
    rw [getTimers_cons, lostBy, ticksOf, List.map_cons, List.sum_cons]
    rw [hstamp] at hrun
    change (_ + lostBy (t.systick.ticks call.gap) calls) % 2 ^ 64 = _ at hrun
    rw [ticksOf] at hrun
    omega

theorem ReloadsAtMost.take {most : Nat} {s : Cm3Systick} {calls : List TimerCall}
    (h : ReloadsAtMost most s calls) (k : Nat) : ReloadsAtMost most s (calls.take k) := by
  induction k generalizing s calls with
  | zero => exact trivial
  | succ k ih =>
    cases calls with
    | nil => exact trivial
    | cons call calls => exact ⟨h.1, ih h.2⟩

theorem lostBy_eq_zero {s : Cm3Systick} {calls : List TimerCall} (h : ReloadsAtMost 0 s calls) :
    lostBy s calls = 0 := by
  induction calls generalizing s with
  | nil => rfl
  | cons call calls ih =>
    rw [lostBy, ih h.2, lostTicks_eq_zero_iff.mpr (Nat.le_zero.mp h.1)]

/-- The first call behind a reload is the first one that leaves anything out. -/
theorem exists_lostBy {s : Cm3Systick} {calls : List TimerCall} (h : ¬ ReloadsAtMost 0 s calls) :
    ∃ k ≤ calls.length, 0 < lostBy s (calls.take k) ∧
      lostBy s (calls.take k) ≤ cm3SystickLoadReloadMsk := by
  induction calls generalizing s with
  | nil => exact absurd trivial h
  | cons call calls ih =>
    by_cases h0 : s.reloads call.gap = 0
    · have hrest : ¬ ReloadsAtMost 0 (s.ticks call.gap) calls :=
        fun hr => h ⟨Nat.le_zero.mpr h0, hr⟩
      obtain ⟨k, hk, hpos, hle⟩ := ih hrest
      refine ⟨k + 1, Nat.succ_le_succ hk, ?_⟩
      rw [List.take_succ_cons, lostBy, lostTicks_eq_zero_iff.mpr h0, Nat.zero_add]
      exact ⟨hpos, hle⟩
    · have hlost := lostTicks_le s call.gap
      have hne : lostTicks s call.gap ≠ 0 := fun e => h0 (lostTicks_eq_zero_iff.mp e)
      refine ⟨1, Nat.succ_le_succ (Nat.zero_le _), ?_⟩
      rw [List.take_succ_cons, List.take_zero, lostBy, lostBy]
      omega

/-- **The time stamp is right in a run without a reload, and in no other.** -/
theorem getTimer_exact_iff (clock hz : Nat) (calls : List TimerCall) (t : Timer)
    (h : t.systick.Programmed) (hone : ReloadsAtMost 1 t.systick calls) :
    (∀ k ≤ calls.length,
      (getTimers clock hz (calls.take k) (resetTimer t)).timestamp % 2 ^ 32 =
        ticksOf (calls.take k) % 2 ^ 32) ↔
    ReloadsAtMost 0 t.systick calls := by
  have hrun : ∀ k, ((getTimers clock hz (calls.take k) (resetTimer t)).timestamp +
      lostBy t.systick (calls.take k)) % 2 ^ 64 = (0 + ticksOf (calls.take k)) % 2 ^ 64 :=
    fun k => getTimers_add_lostBy clock hz (calls.take k) (t := resetTimer t) h rfl (hone.take k)
  constructor
  · intro hexact
    by_contra hreload
    obtain ⟨k, hk, hpos, hle⟩ := exists_lostBy hreload
    have hk' := hexact k hk
    have hr := hrun k
    rw [cm3SystickLoadReloadMsk] at hle
    omega
  · intro hnone k _
    have hr := hrun k
    rw [lostBy_eq_zero (hnone.take k)] at hr
    omega

/-- A counter with some value, on its way down. -/
def running (val : Nat) : Cm3Systick :=
  { ctrl := cm3SystickCtrlEn, load := cm3SystickLoadReloadMsk - 1, val := val }

theorem running_programmed {val : Nat} (h : val ≤ cm3SystickLoadReloadMsk - 1) :
    (running val).Programmed :=
  ⟨show cm3SystickCtrlEn &&& cm3SystickCtrlEn ≠ 0 by decide, rfl, h⟩

theorem getTimer_exact_iff_down :
    (∀ k ≤ [TimerCall.mk 3 0, ⟨0, 0⟩].length,
      (getTimers 8000000 1000 ([⟨3, 0⟩, ⟨0, 0⟩].take k)
        (resetTimer ⟨running 5, 0, 0⟩)).timestamp % 2 ^ 32 =
        ticksOf ([⟨3, 0⟩, ⟨0, 0⟩].take k) % 2 ^ 32) ↔
    ReloadsAtMost 0 (running 5) [⟨3, 0⟩, ⟨0, 0⟩] :=
  getTimer_exact_iff 8000000 1000 [⟨3, 0⟩, ⟨0, 0⟩] ⟨running 5, 0, 0⟩
    (running_programmed (by decide)) ⟨by decide, by decide, trivial⟩

theorem getTimer_slow : ReloadsAtMost 1 (running 5) [⟨10, 0⟩] ∧
    (getTimers 8000000 1000 [⟨10, 0⟩] (resetTimer ⟨running 5, 0, 0⟩)).timestamp % 2 ^ 32 = 9 ∧
    ticksOf [⟨10, 0⟩] = 10 :=
  ⟨⟨by decide, trivial⟩, by decide, rfl⟩

/-! ## How long a delay is -/

/-- A clock some ticks further on. -/
structure Later (c₀ c : Clock) : Prop where
  le : c₀.elapsed ≤ c.elapsed
  systick : c.systick = c₀.systick.ticks (c.elapsed - c₀.elapsed)

theorem Later.refl (c : Clock) : Later c c := by
  refine ⟨Nat.le_refl _, ?_⟩
  rw [Nat.sub_self]
  rfl

theorem Later.read {c₀ c : Clock} (h : Later c₀ c) (gap : Nat → Nat) : Later c₀ (c.read gap) := by
  have hle := h.le
  refine ⟨Nat.le_trans hle (Nat.le_add_right _ _), ?_⟩
  show c.systick.ticks (gap c.reads) = c₀.systick.ticks (c.elapsed + gap c.reads - c₀.elapsed)
  rw [h.systick, Cm3Systick.ticks_ticks]
  congr 1
  omega

theorem elapsed_read (gap : Nat → Nat) (c : Clock) :
    (c.read gap).elapsed = c.elapsed + gap c.reads := rfl

theorem reads_read (gap : Nat → Nat) (c : Clock) : (c.read gap).reads = c.reads + 1 := rfl

/-- The counter before it is reloaded. -/
theorem Later.val_of_le {c₀ c : Clock} (h : Later c₀ c) (hp : c₀.systick.Programmed)
    (ht : c.elapsed ≤ c₀.elapsed + c₀.systick.val) :
    c.systick.val + c.elapsed = c₀.systick.val + c₀.elapsed := by
  have hle := h.le
  rw [h.systick, hp.ticks_val_of_le (by omega)]
  omega

/-- The counter between its first and its second reload. -/
theorem Later.val_of_gt {c₀ c : Clock} (h : Later c₀ c) (hp : c₀.systick.Programmed)
    (ht : c₀.elapsed + c₀.systick.val < c.elapsed)
    (ht' : c.elapsed ≤ c₀.elapsed + c₀.systick.val + cm3SystickLoadReloadMsk) :
    c.systick.val + c.elapsed = c₀.systick.val + cm3SystickLoadReloadMsk + c₀.elapsed := by
  have hle := h.le
  rw [h.systick, hp.ticks_val_of_gt (by omega) (by omega)]
  omega

section Wait

variable {gap : Nat → Nat} {clc : Nat} {c₀ c c' : Clock}

theorem waitDown_later (h : Later c₀ c) {cont : Bool}
    (hc : waitDown gap clc c₀.systick.val c = (cont, c')) : Later c₀ c' := by
  rw [waitDown] at hc
  split at hc
  · obtain ⟨-, rfl⟩ := Prod.mk.inj hc
    exact (h.read gap).read gap
  · obtain ⟨-, rfl⟩ := Prod.mk.inj hc
    exact h.read gap

/-- The loop that does not cross a reload ends in time. -/
theorem waitDown_ends (hp : c₀.systick.Programmed) (hclc : clc ≤ c₀.systick.val) (h : Later c₀ c)
    (hc : waitDown gap clc c₀.systick.val c = (false, c')) : c₀.elapsed + clc ≤ c'.elapsed := by
  have h₁ := h.read gap
  have h₂ := h₁.read gap
  have hread := elapsed_read gap (c.read gap)
  by_contra hearly
  rw [waitDown] at hc
  split at hc
  · obtain ⟨hout, rfl⟩ := Prod.mk.inj hc
    have hout := of_decide_eq_false hout
    have hle := h₂.le
    have hv := h₂.val_of_le hp (by omega)
    omega
  · rename_i hout
    obtain ⟨-, rfl⟩ := Prod.mk.inj hc
    have hle := h₁.le
    have hv := h₁.val_of_le hp (by omega)
    omega

theorem waitAcross_later (h : Later c₀ c) {cont : Bool}
    (hc : waitAcross gap clc c₀.systick.val c = (cont, c')) : Later c₀ c' := by
  rw [waitAcross] at hc
  split at hc
  · obtain ⟨-, rfl⟩ := Prod.mk.inj hc
    exact h.read gap
  · obtain ⟨-, rfl⟩ := Prod.mk.inj hc
    exact (h.read gap).read gap

/-- The limit of the second test of the loop. -/
theorem limit_eq (hclc : clc < cm3SystickLoadReloadMsk - 1) {tmp : Nat} (htmp : tmp < clc) :
    ulong (cm3SystickLoadReloadMsk - 1 + (2 ^ 32 - clc) + tmp) =
      cm3SystickLoadReloadMsk - 1 - clc + tmp := by
  simp only [ulong, cm3SystickLoadReloadMsk] at hclc ⊢
  omega

/-- At the time of the sample the loop that crosses a reload ends. -/
theorem waitAcross_again (hclc : clc < cm3SystickLoadReloadMsk - 1)
    (htmp : c₀.systick.val < clc) (h : Later c₀ c) (hp : c₀.systick.Programmed)
    (hc : waitAcross gap clc c₀.systick.val c = (true, c')) : c₀.elapsed < c'.elapsed := by
  have hle := (waitAcross_later h hc).le
  have hv := (waitAcross_later h hc).val_of_le hp
  have hread := elapsed_read gap (c.read gap)
  by_contra hsame
  have hv := hv (by omega)
  rw [waitAcross, limit_eq hclc htmp] at hc
  split at hc
  · obtain ⟨-, rfl⟩ := Prod.mk.inj hc
    omega
  · obtain ⟨hin, rfl⟩ := Prod.mk.inj hc
    have hin := of_decide_eq_true hin
    omega

/-- It ends in time, except by a first read at the time of the sample. -/
theorem waitAcross_ends (hclc : clc < cm3SystickLoadReloadMsk - 1)
    (htmp : c₀.systick.val < clc) (h : Later c₀ c) (hp : c₀.systick.Programmed)
    (hc : waitAcross gap clc c₀.systick.val c = (false, c')) :
    c₀.elapsed + clc ≤ c'.elapsed ∨ (c.read gap).elapsed = c₀.elapsed ∧
      ((c.read gap).read gap).elapsed ≤ c₀.elapsed + c₀.systick.val := by
  have h₁ := h.read gap
  have h₂ := h₁.read gap
  have hread := elapsed_read gap (c.read gap)
  by_contra hearly
  rw [waitAcross, limit_eq hclc htmp] at hc
  split at hc
  · cases (Prod.mk.inj hc).1
  · rename_i hin
    obtain ⟨hout, rfl⟩ := Prod.mk.inj hc
    have hout := of_decide_eq_false hout
    have hle := h₁.le
    -- the first read is at the sample or behind the reload, and so is the second one
    by_cases hfirst : (c.read gap).elapsed ≤ c₀.elapsed + c₀.systick.val
    · have hv := h₁.val_of_le hp hfirst
      have hv₂ := h₂.val_of_gt hp (by omega) (by omega)
      omega
    · have hv₂ := h₂.val_of_gt hp (by omega) (by omega)
      omega

/-- A run of a loop, by what one turn of it keeps and what its end gives. -/
theorem whileReads_ends (Inv Done : Clock → Prop) {cond : Clock → Bool × Clock}
    (again : ∀ c c', Inv c → cond c = (true, c') → Inv c')
    (ends : ∀ c c', Inv c → cond c = (false, c') → Done c') {fuel : Nat} (h : Inv c)
    (hrun : whileReads cond fuel c = some c') : Done c' := by
  induction fuel generalizing c with
  | zero => cases hrun
  | succ fuel ih =>
    rw [whileReads] at hrun
    split at hrun
    · rename_i c₁ hc
      exact ih (again c c₁ h hc) hrun
    · rename_i c₁ hc
      cases hrun
      exact ends _ _ h hc

theorem whileReads_waitDown (hp : c₀.systick.Programmed) (hclc : clc ≤ c₀.systick.val) {fuel : Nat}
    (hrun : whileReads (waitDown gap clc c₀.systick.val) fuel c₀ = some c') :
    c₀.elapsed + clc ≤ c'.elapsed := by
  refine whileReads_ends (Later c₀) (fun c => c₀.elapsed + clc ≤ c.elapsed) ?_ ?_
    (Later.refl c₀) hrun
  · intro c c' h hc
    exact waitDown_later h hc
  · intro c c' h hc
    exact waitDown_ends hp hclc h hc

/-- Once the sample is in the past the loop ends in time. -/
theorem whileReads_waitAcross (hclc : clc < cm3SystickLoadReloadMsk - 1)
    (htmp : c₀.systick.val < clc) (hp : c₀.systick.Programmed) (h : Later c₀ c)
    (hpast : c₀.elapsed < c.elapsed) {fuel : Nat}
    (hrun : whileReads (waitAcross gap clc c₀.systick.val) fuel c = some c') :
    c₀.elapsed + clc ≤ c'.elapsed := by
  refine whileReads_ends (fun c => Later c₀ c ∧ c₀.elapsed < c.elapsed)
    (fun c => c₀.elapsed + clc ≤ c.elapsed) ?_ ?_ ⟨h, hpast⟩ hrun
  · intro c c' hi hc
    exact ⟨waitAcross_later hi.1 hc, waitAcross_again hclc htmp hi.1 hp hc⟩
  · intro c c' hi hc
    rcases waitAcross_ends hclc htmp hi.1 hp hc with hdone | ⟨hsame, -⟩
    · exact hdone
    · have hread := elapsed_read gap c
      omega

/-- **A delay is never too short, except by two reads of the loop that come too early.** -/
theorem udelay_not_early_iff (gap : Nat → Nat) (clock usec : Nat) (c : Clock)
    (hp : c.systick.Programmed) (hclc : udelayClc clock usec < cm3SystickLoadReloadMsk - 1) :
    (∀ fuel c', udelay gap clock usec fuel c = some c' →
      (c.read gap).elapsed + udelayClc clock usec ≤ c'.elapsed) ↔
    ¬ ((c.read gap).systick.val < udelayClc clock usec ∧ gap (c.reads + 1) = 0 ∧
      gap (c.reads + 2) ≤ (c.read gap).systick.val) := by
  have hp₀ : (c.read gap).systick.Programmed := hp.ticks _
  generalize hc₀ : c.read gap = c₀ at *
  generalize hn : udelayClc clock usec = clc at *
  have hreads : c₀.reads = c.reads + 1 := by rw [← hc₀]; rfl
  have hrun : ∀ fuel, udelay gap clock usec fuel c =
      if c₀.systick.val < clc then whileReads (waitAcross gap clc c₀.systick.val) fuel c₀
      else whileReads (waitDown gap clc c₀.systick.val) fuel c₀ := by
    intro fuel
    rw [udelay, hc₀, hn]
  by_cases htmp : c₀.systick.val < clc
  · have h₁ : Later c₀ (c₀.read gap) := (Later.refl c₀).read gap
    have h₂ := h₁.read gap
    have he₁ := elapsed_read gap c₀
    have he₂ := elapsed_read gap (c₀.read gap)
    rw [reads_read, hreads] at he₂
    rw [hreads] at he₁
    change _ = _ + gap (c.reads + 2) at he₂
    constructor
    · rintro hlate ⟨-, hsame, hsoon⟩
      -- both reads of the first turn come before the reload
      have hv₁ := h₁.val_of_le hp₀ (by omega)
      have hv₂ := h₂.val_of_le hp₀ (by omega)
      have hfirst : waitAcross gap clc c₀.systick.val c₀ =
          (false, (c₀.read gap).read gap) := by
        rw [waitAcross, limit_eq hclc htmp, if_neg (by omega)]
        refine Prod.ext (decide_eq_false ?_) rfl
        omega
      have hend := hlate 1 ((c₀.read gap).read gap) (by
        rw [hrun, if_pos htmp, whileReads, hfirst])
      omega
    · intro hok fuel c' hc'
      rw [hrun, if_pos htmp] at hc'
      cases fuel with
      | zero => cases hc'
      | succ fuel =>
        rw [whileReads] at hc'
        split at hc'
        · rename_i c₁ hturn
          have hl := Later.refl c₀
          exact whileReads_waitAcross hclc htmp hp₀ (waitAcross_later hl hturn)
            (waitAcross_again hclc htmp hl hp₀ hturn) hc'
        · rename_i c₁ hturn
          cases hc'
          rcases waitAcross_ends hclc htmp (Later.refl c₀) hp₀ hturn with hdone | ⟨hsame, hsoon⟩
          · exact hdone
          · exact absurd ⟨htmp, by omega, by omega⟩ hok
  · constructor
    · rintro - ⟨hlt, -, -⟩
      exact htmp hlt
    · intro _ fuel c' hc'
      rw [hrun, if_neg htmp] at hc'
      exact whileReads_waitDown hp₀ (by omega) hc'

end Wait

theorem udelay_not_early_iff_running :
    (∀ fuel c', udelay (fun _ => 1) 8000000 1 fuel ⟨running 5, 0, 0⟩ = some c' →
      1 + 8 ≤ c'.elapsed) ↔ ¬ (4 < 8 ∧ 1 = 0 ∧ 1 ≤ 4) :=
  udelay_not_early_iff (fun _ => 1) 8000000 1 ⟨running 5, 0, 0⟩ (running_programmed (by decide))
    (by decide)

theorem udelay_early : udelay (fun _ => 0) 8000000 1 1 ⟨running 5, 0, 0⟩ = some ⟨running 5, 0, 3⟩ ∧
    ¬ ((Clock.read (fun _ => 0) ⟨running 5, 0, 0⟩).elapsed + udelayClc 8000000 1 ≤ 0) := by
  decide

end UBoot.Cpu
