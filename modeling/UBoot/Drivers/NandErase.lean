import UBoot.Drivers.NandSkipBad

/-!
# Erasing NAND flash

`nand_erase_opts` of `drivers/mtd/nand/nand_util.c`.  What the calls of the device do is given for
every block: `block_isbad` may fail, and so may `erase` and `write_oob`.  A failed `erase` is
printed and the loop goes on, so that the return value does not tell of it; and the end of the range
is a sum of 32 bits, which may be 0 or less than the start.  `reports_iff` says when the return
value can be relied on.

With `scrub` the driver looks at no bad block any more until the end, which is part of what `erase`
does here.
-/

namespace UBoot.Drivers

open UBoot.Lib

/-! ## The code -/

/-- `nand_erase_options_t` -/
structure NandEraseOptions where
  length : Nat
  offset : Nat
  quiet : Bool
  jffs2 : Bool
  scrub : Bool
  length_lt : length < 2 ^ 32
  offset_lt : offset < 2 ^ 32

/-- How the calls for a block end, with the bytes that are free in its OOB area. -/
structure NandCalls where
  isbadFails : Nat → Bool
  erase : Nat → Int
  writeOob : Nat → Int
  oobavail : Nat

/-- What `nand_erase_opts` does to the device, and what it prints.  A failed call is printed too. -/
inductive EraseEvent
  | tooSmall (eraseLength : Nat)
  | skip (addr : Nat)
  | isbadFailed (ret : Int)
  | erase (addr : Nat) (result : Int)
  | writeOob (addr : Nat) (result : Int)
  | progress (addr : Nat) (percent : Int) (cleanmarker : Bool)
  | newline
  deriving DecidableEq

section Code

variable (n : NandInfo) (calls : NandCalls) (opts : NandEraseOptions)

/-- `meminfo->block_isbad` -/
def isbadCall (addr : Nat) : Int := if calls.isbadFails addr then einval else nandBlockIsbad n addr

/-- `meminfo->erase`: "Do not allow erase past end of device". -/
def eraseCall (addr : Nat) : Int := if n.size < addr + n.erasesize then einval else calls.erase addr

/-- `erase_length` -/
def eraseLength : Nat := if opts.length < n.erasesize then n.erasesize else opts.length

/-- `opts->offset + erase_length` -/
def eraseEnd : Nat := (opts.offset + eraseLength n opts) % 2 ^ 32

/-- The progress message, "only at whole percent steps". -/
def eraseProgress (addr : Nat) (percentComplete : Int) : List EraseEvent × Int :=
  let percent : Int := (addr + n.erasesize - opts.offset) * 100 / eraseLength n opts
  if opts.quiet = false ∧ percent ≠ percentComplete then
    ([.progress addr percent opts.jffs2], percent)
  else ([], percentComplete)

/-- The body of the loop: the events, and the new `percent_complete` or none for `return -1`. -/
def eraseBlock (addr : Nat) (percentComplete : Int) : List EraseEvent × Option Int :=
  let ret := isbadCall n calls addr
  if opts.scrub = false ∧ ret > 0 then
    (if opts.quiet then [] else [.skip addr], some percentComplete)
  else if opts.scrub = false ∧ ret < 0 then ([.isbadFailed ret], none)
  else
    let result := eraseCall n calls addr
    if result ≠ 0 then ([.erase addr result], some percentComplete)
    else if opts.jffs2 ∧ calls.oobavail ≥ 8 then
      let result := calls.writeOob addr
      if result ≠ 0 then ([.erase addr 0, .writeOob addr result], some percentComplete)
      else
        let (events, percent) := eraseProgress n opts addr percentComplete
        ([.erase addr 0, .writeOob addr 0] ++ events, some percent)
    else
      let (events, percent) := eraseProgress n opts addr percentComplete
      (.erase addr 0 :: events, some percent)

/-- The loop, from an address on. -/
def eraseLoop (addr : Nat) (percentComplete : Int) : List EraseEvent × Int :=
  if addr < eraseEnd n opts then
    match eraseBlock n calls opts addr percentComplete with
    | (events, none) => (events, -1)
    | (events, some percent) =>
      let (rest, ret) := eraseLoop (addr + n.erasesize) percent
      (events ++ rest, ret)
  else (if opts.quiet then [] else [.newline], 0)
termination_by eraseEnd n opts - addr
decreasing_by
  have hpos := n.erasesize_pos
  omega

/-- `nand_erase_opts` -/
def nandEraseOpts : List EraseEvent × Int :=
  let (events, ret) := eraseLoop n calls opts opts.offset (-1)
  ((if opts.length < n.erasesize then [.tooSmall opts.length] else []) ++ events, ret)

end Code

/-! ## What is asked for -/

/-- A block that has to be erased: one of the device that starts in the range and is not bad, or any
one with `scrub`. -/
structure EraseTarget (n : NandInfo) (opts : NandEraseOptions) (addr : Nat) : Prop where
  block : n.erasesize ∣ addr
  device : addr + n.erasesize ≤ n.size
  range : InRange opts.offset (max opts.length n.erasesize) addr
  good : opts.scrub = true ∨ n.checkbad addr = false

/-- If the return value is 0, then the blocks that have been erased are the ones that had to be. -/
def ReportsFailure (n : NandInfo) (calls : NandCalls) (opts : NandEraseOptions) : Prop :=
  (nandEraseOpts n calls opts).2 = 0 →
    ∀ addr, .erase addr 0 ∈ (nandEraseOpts n calls opts).1 ↔ EraseTarget n opts addr

/-- The end of the range is beyond 4 GiB. -/
def EndWraps (n : NandInfo) (opts : NandEraseOptions) : Prop :=
  2 ^ 32 ≤ opts.offset + max opts.length n.erasesize

section Loop

variable {n : NandInfo} {calls : NandCalls} {opts : NandEraseOptions} {addr a : Nat} {pc r : Int}

/-! ## One block -/

/-- The loop gives up at the block. -/
def GivesUp (n : NandInfo) (calls : NandCalls) (opts : NandEraseOptions) (addr : Nat) : Prop :=
  opts.scrub = false ∧ isbadCall n calls addr < 0

/-- The loop erases the block. -/
def TriesErase (n : NandInfo) (calls : NandCalls) (opts : NandEraseOptions) (addr : Nat) : Prop :=
  opts.scrub = true ∨ isbadCall n calls addr = 0

theorem erase_notMem_progress : .erase a r ∉ (eraseProgress n opts addr pc).1 := by
  rw [eraseProgress]
  split_ifs
  · simp
  · simp

/-- What is left of a pass behind the test for a bad block. -/
theorem eraseBlock_tried (hskip : ¬ (opts.scrub = false ∧ isbadCall n calls addr > 0))
    (hgo : ¬ GivesUp n calls opts addr) :
    (eraseBlock n calls opts addr pc).2 ≠ none ∧
      (.erase a r ∈ (eraseBlock n calls opts addr pc).1 ↔
        a = addr ∧ r = eraseCall n calls addr) := by
  have hfirst : ∀ {events : List EraseEvent} {x : Int}, (.erase a r ∉ events) →
      (.erase a r ∈ EraseEvent.erase addr x :: events ↔ a = addr ∧ r = x) := by
    intro events x hrest
    rw [List.mem_cons, or_iff_left hrest, EraseEvent.erase.injEq]
  have hno : ¬ (opts.scrub = false ∧ isbadCall n calls addr < 0) := hgo
  rw [eraseBlock]
  simp only [if_neg hskip, if_neg hno]
  by_cases hresult : eraseCall n calls addr ≠ 0
  · rw [if_pos hresult]
    exact ⟨Option.some_ne_none _, hfirst List.not_mem_nil⟩
  · rw [if_neg hresult, not_not.mp hresult]
    split_ifs
    · exact ⟨Option.some_ne_none _, hfirst (by simp)⟩
    · refine ⟨Option.some_ne_none _, hfirst ?_⟩
      rw [List.append_eq, List.singleton_append, List.mem_cons, not_or]
      exact ⟨nofun, erase_notMem_progress⟩
    · exact ⟨Option.some_ne_none _, hfirst erase_notMem_progress⟩

theorem eraseBlock_spec :
    ((eraseBlock n calls opts addr pc).2 = none ↔ GivesUp n calls opts addr) ∧
      (.erase a r ∈ (eraseBlock n calls opts addr pc).1 ↔
        a = addr ∧ r = eraseCall n calls addr ∧ TriesErase n calls opts addr) := by
  by_cases hskip : opts.scrub = false ∧ isbadCall n calls addr > 0
  · have hnot : ¬ TriesErase n calls opts addr := by
      rintro (hscrub | hgood)
      · exact absurd hscrub (by simp [hskip.1])
      · omega
    have hgo : ¬ GivesUp n calls opts addr := fun h => absurd h.2 (by omega)
    rw [eraseBlock]
    simp only [if_pos hskip]
    refine ⟨iff_of_false (Option.some_ne_none _) hgo, iff_of_false ?_ fun h => hnot h.2.2⟩
    split_ifs <;> simp
  · by_cases hgo : GivesUp n calls opts addr
    · have hnot : ¬ TriesErase n calls opts addr := by
        rintro (hscrub | hgood)
        · exact absurd hscrub (by simp [hgo.1])
        · exact absurd hgo.2 (by omega)
      rw [eraseBlock]
      simp only [if_neg hskip]
      rw [GivesUp] at hgo
      rw [if_pos hgo]
      exact ⟨iff_of_true rfl hgo, iff_of_false (by simp) fun h => hnot h.2.2⟩
    · obtain ⟨hsome, hmem⟩ := @eraseBlock_tried n calls opts addr a pc r hskip hgo
      have htries : TriesErase n calls opts addr := by
        rw [TriesErase]
        rw [GivesUp] at hgo
        cases hscrub : opts.scrub
        · refine .inr ?_
          have hle : ¬ isbadCall n calls addr > 0 := fun h => hskip ⟨hscrub, h⟩
          have hge : ¬ isbadCall n calls addr < 0 := fun h => hgo ⟨hscrub, h⟩
          omega
        · exact .inl rfl
      refine ⟨iff_of_false hsome hgo, hmem.trans ?_⟩
      rw [and_iff_left htries]

/-! ## The loop -/

/-- The loop comes to a block. -/
def Visits (n : NandInfo) (opts : NandEraseOptions) (addr a : Nat) : Prop :=
  (∃ k, a = addr + k * n.erasesize) ∧ a < eraseEnd n opts

theorem visits_iff (hlt : addr < eraseEnd n opts) :
    Visits n opts addr a ↔ a = addr ∨ Visits n opts (addr + n.erasesize) a := by
  constructor
  · rintro ⟨⟨k, rfl⟩, hend⟩
    cases k with
    | zero => exact .inl (by rw [Nat.zero_mul, Nat.add_zero])
    | succ k =>
      exact .inr ⟨⟨k, by rw [Nat.succ_mul, Nat.add_assoc, Nat.add_comm n.erasesize]⟩, hend⟩
  · rintro (rfl | ⟨⟨k, rfl⟩, hend⟩)
    · exact ⟨⟨0, by rw [Nat.zero_mul, Nat.add_zero]⟩, hlt⟩
    · exact ⟨⟨k + 1, by rw [Nat.succ_mul, Nat.add_assoc, Nat.add_comm n.erasesize]⟩, hend⟩

theorem not_visits (hge : ¬ addr < eraseEnd n opts) : ¬ Visits n opts addr a := by
  rintro ⟨⟨k, rfl⟩, hend⟩
  omega

/-- The loop gives up at one of its blocks, or it erases all that it may. -/
theorem eraseLoop_spec :
    ((eraseLoop n calls opts addr pc).2 = 0 ↔
      ∀ b, Visits n opts addr b → ¬ GivesUp n calls opts b) ∧
    ((∀ b, Visits n opts addr b → ¬ GivesUp n calls opts b) →
      (.erase a r ∈ (eraseLoop n calls opts addr pc).1 ↔
        Visits n opts addr a ∧ r = eraseCall n calls a ∧ TriesErase n calls opts a)) := by
  induction hk : eraseEnd n opts - addr using Nat.strong_induction_on generalizing addr pc with
  | _ k ih =>
    rw [eraseLoop]
    by_cases hlt : addr < eraseEnd n opts
    · have hpos := n.erasesize_pos
      obtain ⟨hnone, hmem⟩ := @eraseBlock_spec n calls opts addr a pc r
      rw [if_pos hlt]
      cases hblock : eraseBlock n calls opts addr pc with
      | mk events next =>
        rw [hblock] at hnone hmem
        cases next with
        | none =>
          have hgo := hnone.mp rfl
          have hvisit : Visits n opts addr addr := (visits_iff hlt).mpr (.inl rfl)
          refine ⟨iff_of_false (by decide : (-1 : Int) ≠ 0) fun h => h addr hvisit hgo, ?_⟩
          intro h
          exact absurd hgo (h addr hvisit)
        | some percent =>
          have hgo : ¬ GivesUp n calls opts addr := fun h => Option.some_ne_none _ (hnone.mpr h)
          obtain ⟨hret, hrest⟩ := @ih (eraseEnd n opts - (addr + n.erasesize)) (by omega)
            (addr + n.erasesize) percent rfl
          have hall : (∀ b, Visits n opts addr b → ¬ GivesUp n calls opts b) ↔
              ∀ b, Visits n opts (addr + n.erasesize) b → ¬ GivesUp n calls opts b := by
            constructor
            · intro h b hb
              exact h b ((visits_iff hlt).mpr (.inr hb))
            · intro h b hb
              rcases (visits_iff hlt).mp hb with rfl | hb
              · exact hgo
              · exact h b hb
          refine ⟨hret.trans hall.symm, ?_⟩
          intro h
          dsimp only
          rw [List.mem_append, hmem, hrest (hall.mp h), visits_iff hlt]
          constructor
          · rintro (⟨rfl, hresult, htries⟩ | ⟨hvisit, hresult, htries⟩)
            · exact ⟨.inl rfl, hresult, htries⟩
            · exact ⟨.inr hvisit, hresult, htries⟩
          · rintro ⟨rfl | hvisit, hresult, htries⟩
            · exact .inl ⟨rfl, hresult, htries⟩
            · exact .inr ⟨hvisit, hresult, htries⟩
    · rw [if_neg hlt]
      refine ⟨iff_of_true rfl fun b hb => absurd hb (not_visits hlt), fun _ => ?_⟩
      refine iff_of_false ?_ fun h => not_visits hlt h.1
      dsimp only
      split_ifs <;> simp

/-! ## The whole range -/

theorem eraseLength_eq (n : NandInfo) (opts : NandEraseOptions) :
    eraseLength n opts = max opts.length n.erasesize := by
  rw [eraseLength]
  split_ifs <;> omega

theorem eraseEnd_of_wraps (h : EndWraps n opts) : eraseEnd n opts ≤ opts.offset := by
  have hoffset := opts.offset_lt
  have hlength := opts.length_lt
  have hsize := n.erasesize_lt
  rw [EndWraps] at h
  rw [eraseEnd, eraseLength_eq]
  omega

theorem eraseEnd_of_not_wraps (h : ¬ EndWraps n opts) :
    eraseEnd n opts = opts.offset + max opts.length n.erasesize := by
  rw [EndWraps] at h
  rw [eraseEnd, eraseLength_eq, Nat.mod_eq_of_lt (by omega)]

/-- The blocks of the range: the loop comes to all of them if the end does not wrap, and else to
none. -/
theorem visits_offset (haligned : n.erasesize ∣ opts.offset) :
    Visits n opts opts.offset a ↔ ¬ EndWraps n opts ∧ n.erasesize ∣ a ∧
      InRange opts.offset (max opts.length n.erasesize) a := by
  constructor
  · rintro ⟨⟨k, rfl⟩, hend⟩
    have hwraps : ¬ EndWraps n opts := by
      intro h
      have hle := eraseEnd_of_wraps h
      omega
    rw [eraseEnd_of_not_wraps hwraps] at hend
    exact ⟨hwraps, (Nat.dvd_add_right haligned).mpr (Nat.dvd_mul_left _ _),
      Nat.le_add_right _ _, hend⟩
  · rintro ⟨hwraps, hblock, hlow, hhigh⟩
    refine ⟨?_, by rwa [eraseEnd_of_not_wraps hwraps]⟩
    obtain ⟨k, hk⟩ := (Nat.dvd_sub hblock haligned : n.erasesize ∣ a - opts.offset)
    exact ⟨k, by rw [Nat.mul_comm, ← hk]; omega⟩

/-- The blocks of the range start in the device, or at its end. -/
theorem le_size_of_range (haligned : n.erasesize ∣ opts.offset)
    (hinside : opts.offset + opts.length ≤ n.size) (hblock : n.erasesize ∣ a)
    (hrange : InRange opts.offset (max opts.length n.erasesize) a) : a ≤ n.size := by
  obtain ⟨hlow, hhigh⟩ := hrange
  rcases Nat.lt_or_ge opts.length n.erasesize with hsmall | hlarge
  · rw [Nat.max_eq_right hsmall.le] at hhigh
    have hsame : a - opts.offset = 0 :=
      Nat.eq_zero_of_dvd_of_lt (Nat.dvd_sub hblock haligned) (by omega)
    omega
  · rw [Nat.max_eq_left hlarge] at hhigh
    omega

theorem isbadCall_of_le (h : a ≤ n.size) :
    isbadCall n calls a = if calls.isbadFails a then einval else if n.checkbad a then 1 else 0 := by
  rw [isbadCall, nandBlockIsbad, if_neg (Nat.not_lt_of_le h)]

theorem givesUp_iff (h : a ≤ n.size) :
    GivesUp n calls opts a ↔ opts.scrub = false ∧ calls.isbadFails a = true := by
  rw [GivesUp, isbadCall_of_le h]
  refine and_congr_right fun _ => ?_
  split_ifs with hfails hbad
  · exact iff_of_true (by decide) hfails
  · exact iff_of_false (by decide) hfails
  · exact iff_of_false (by decide) hfails

theorem triesErase_iff (h : a ≤ n.size) (hgo : ¬ GivesUp n calls opts a) :
    TriesErase n calls opts a ↔ opts.scrub = true ∨ n.checkbad a = false := by
  rw [givesUp_iff h] at hgo
  rw [TriesErase, isbadCall_of_le h]
  cases hscrub : opts.scrub
  · rw [if_neg fun hfails => hgo ⟨hscrub, hfails⟩]
    cases n.checkbad a <;> simp
  · simp

theorem eraseCall_eq_zero_iff :
    eraseCall n calls a = 0 ↔ a + n.erasesize ≤ n.size ∧ calls.erase a = 0 := by
  rw [eraseCall]
  split_ifs with hout
  · exact iff_of_false einval_ne_zero fun h => absurd h.1 (Nat.not_le_of_lt hout)
  · exact (and_iff_right (Nat.le_of_not_lt hout)).symm

theorem nandEraseOpts_ret : (nandEraseOpts n calls opts).2 = 0 ↔
    ∀ b, Visits n opts opts.offset b → ¬ GivesUp n calls opts b :=
  (@eraseLoop_spec n calls opts opts.offset 0 (-1) 0).1

/-- The erased blocks, if the loop does not give up. -/
theorem erased_iff (haligned : n.erasesize ∣ opts.offset)
    (hgo : ∀ b, Visits n opts opts.offset b → ¬ GivesUp n calls opts b) :
    .erase a 0 ∈ (nandEraseOpts n calls opts).1 ↔
      EraseTarget n opts a ∧ ¬ EndWraps n opts ∧ calls.erase a = 0 := by
  have hmem : .erase a 0 ∈ (nandEraseOpts n calls opts).1 ↔
      .erase a 0 ∈ (eraseLoop n calls opts opts.offset (-1)).1 := by
    rw [nandEraseOpts]
    dsimp only
    rw [List.mem_append, or_iff_right]
    split_ifs <;> simp
  rw [hmem, eraseLoop_spec.2 hgo, eq_comm, eraseCall_eq_zero_iff]
  constructor
  · rintro ⟨hvisit, ⟨hdevice, herase⟩, htries⟩
    obtain ⟨hwraps, hblock, hrange⟩ := (visits_offset haligned).mp hvisit
    have hgood := (triesErase_iff (by omega) (hgo a hvisit)).mp htries
    exact ⟨⟨hblock, hdevice, hrange, hgood⟩, hwraps, herase⟩
  · rintro ⟨⟨hblock, hdevice, hrange, hgood⟩, hwraps, herase⟩
    have hvisit : Visits n opts opts.offset a :=
      (visits_offset haligned).mpr ⟨hwraps, hblock, hrange⟩
    exact ⟨hvisit, ⟨hdevice, herase⟩, (triesErase_iff (by omega) (hgo a hvisit)).mpr hgood⟩

end Loop

/-- The return value tells of a failure exactly if `block_isbad` fails in a range whose end does not
wrap, or if the end does not wrap and `erase` does not fail at a block that has to be erased, or if
there is no such block. -/
theorem reports_iff {n : NandInfo} {opts : NandEraseOptions} (calls : NandCalls)
    (haligned : n.erasesize ∣ opts.offset) (hinside : opts.offset + opts.length ≤ n.size) :
    ReportsFailure n calls opts ↔
      (¬ EndWraps n opts ∧ opts.scrub = false ∧
        ∃ addr, n.erasesize ∣ addr ∧ InRange opts.offset (max opts.length n.erasesize) addr ∧
          calls.isbadFails addr = true) ∨
      ∀ addr, EraseTarget n opts addr → ¬ EndWraps n opts ∧ calls.erase addr = 0 := by
  rw [ReportsFailure, nandEraseOpts_ret]
  by_cases hgo : ∀ b, Visits n opts opts.offset b → ¬ GivesUp n calls opts b
  · have hleft : ¬ (¬ EndWraps n opts ∧ opts.scrub = false ∧
        ∃ addr, n.erasesize ∣ addr ∧ InRange opts.offset (max opts.length n.erasesize) addr ∧
          calls.isbadFails addr = true) := by
      rintro ⟨hwraps, hscrub, b, hblock, hrange, hfails⟩
      have hle := le_size_of_range haligned hinside hblock hrange
      exact hgo b ((visits_offset haligned).mpr ⟨hwraps, hblock, hrange⟩)
        ((givesUp_iff hle).mpr ⟨hscrub, hfails⟩)
    rw [or_iff_right hleft]
    constructor
    · intro h addr htarget
      exact ((erased_iff haligned hgo).mp ((h hgo addr).mpr htarget)).2
    · intro h _ addr
      rw [erased_iff haligned hgo]
      exact and_iff_left_of_imp (h addr)
  · refine iff_of_true (fun h => absurd h hgo) (.inl ?_)
    push Not at hgo
    obtain ⟨b, hvisit, hgives⟩ := hgo
    obtain ⟨hwraps, hblock, hrange⟩ := (visits_offset haligned).mp hvisit
    have hle := le_size_of_range haligned hinside hblock hrange
    obtain ⟨hscrub, hfails⟩ := (givesUp_iff hle).mp hgives
    exact ⟨hwraps, hscrub, b, hblock, hrange, hfails⟩

/-- Two blocks of 128 KiB. -/
def largeBlocks : NandInfo where
  size := 0x40000
  writesize := 0x800
  erasesize := 0x20000
  checkbad _ := false
  writesize_eq := ⟨11, by decide⟩
  erasesize_eq := ⟨17, by decide⟩
  erasesize_lt := by decide
  writesize_le := by decide
  dvd_size := by decide

/-- The options of `saveenv`, for the second block. -/
def saveenvOptions : NandEraseOptions where
  length := 0x20000
  offset := 0x20000
  quiet := false
  jffs2 := false
  scrub := false
  length_lt := by decide
  offset_lt := by decide

theorem endWraps_saveenv : ¬ EndWraps largeBlocks saveenvOptions := by
  rw [EndWraps]
  decide

theorem reports_saveenv : ReportsFailure largeBlocks ⟨fun _ => false, fun _ => 0, fun _ => 0, 24⟩
    saveenvOptions :=
  (reports_iff _ (by decide) (by decide)).mpr (.inr fun _ _ => ⟨endWraps_saveenv, rfl⟩)

/-- The block cannot be erased, and the return value is 0. -/
theorem not_reports_saveenv :
    ¬ ReportsFailure largeBlocks ⟨fun _ => false, fun _ => -5, fun _ => 0, 24⟩ saveenvOptions := by
  intro h
  have hgo : ∀ b, Visits largeBlocks saveenvOptions saveenvOptions.offset b →
      ¬ GivesUp largeBlocks ⟨fun _ => false, fun _ => -5, fun _ => 0, 24⟩ saveenvOptions b := by
    intro b hvisit
    have hrange := (visits_offset (by decide)).mp hvisit
    rw [givesUp_iff (le_size_of_range (by decide) (by decide) hrange.2.1 hrange.2.2)]
    exact fun hfails => Bool.false_ne_true hfails.2
  have htarget : EraseTarget largeBlocks saveenvOptions 0x20000 :=
    ⟨by decide, by decide, by decide, .inr rfl⟩
  have herased := (h (nandEraseOpts_ret.mpr hgo) 0x20000).mpr htarget
  exact absurd ((erased_iff (by decide) hgo).mp herased).2.2 (by decide)

end UBoot.Drivers
