import UBoot.Common.EnvNand
import UBoot.Common.NveditCrc
import UBoot.Lib.Run
import UBoot.LibGeneric.Crc32

/-!
# Which copy a boot from NAND finds

The system is the flash with its two ranges, and the program while the power is on.
An event is a boot, a call of `setenv`, a call of `saveenv` that returns 0 or an error,
a power loss inside `saveenv`, or one outside.  A save that fails or is cut short leaves
the range it was writing to as it was or damaged; one that is cut off behind its last
write leaves a complete copy.

While the program runs, the copy it was loaded from is the one that a boot would find,
and `gd->env_valid` names it (`NandWorld.Inv`).  A save keeps this if the serial number
it writes is newer than that of the copy in use.  The number is counted up in RAM by
failed saves too, and only the step from 255 to 0 is known to the comparison: a save
behind some failed ones can write a number that has wrapped past it, and the next boot
then goes back to the old copy.  `NandEvent.Ok` says when this does not happen.
-/

namespace UBoot.Common

open UBoot.Lib
open UBoot.LibGeneric

variable {n : NandBoard} {crc : Bytes → UInt32}

/-! ## The system -/

structure NandWorld (n : NandBoard) where
  areas : Copies (Area n)
  /-- the program; `none` while the power is off -/
  ram : Option NandRam
  history : History (Slot × Env)

inductive NandEvent (n : NandBoard)
  /-- with the memory that `malloc` hands out and the variables at start -/
  | boot (heap : Heap n) (fresh : Globals)
  | setenv (call : Call)
  /-- `saveenv` returns 0 -/
  | saved (d : SaveAnswers n)
  /-- `saveenv` returns an error -/
  | failed (d : SaveAnswers n)
  /-- the power is lost inside `saveenv`, which leaves this range -/
  | cut (left : Area n)
  | off

/-- The copies as a boot can use them. -/
def NandWorld.copies (crc : Bytes → UInt32) (w : NandWorld n) : Copies (Option Env) :=
  w.areas.map (copyIn crc)

inductive NandStep (crc : Bytes → UInt32) : NandWorld n → NandEvent n → NandWorld n → Prop
  | boot (w : NandWorld n) (heap : Heap n) (fresh : Globals) :
      NandStep crc w (.boot heap fresh) { w with
        ram := some ⟨{ fresh with env := (relocate crc heap w.areas).1 },
          (relocate crc heap w.areas).2⟩ }
  | setenv {w : NandWorld n} {r : NandRam} {call : Call} {rc : Int} {g : Globals}
      (on : w.ram = some r)
      (ret : doSetenv call.board crc call.flag call.argv r.globals = .ok (rc, g)) :
      NandStep crc w (.setenv call) { w with ram := some { r with globals := g } }
  | saved {w : NandWorld n} {r r' : NandRam} {d : SaveAnswers n} {areas : Copies (Area n)}
      (on : w.ram = some r) (ret : saveenv d r w.areas = (0, r', areas)) :
      NandStep crc w (.saved d) ⟨areas, some r', w.history.complete (r.target, r.bumped)⟩
  | failed {w : NandWorld n} {r r' : NandRam} {d : SaveAnswers n} {areas : Copies (Area n)}
      {rc : Int} (on : w.ram = some r) (ret : saveenv d r w.areas = (rc, r', areas))
      (error : rc ≠ 0) (left : copyIn crc (areas.get r.target) = copyIn crc (w.areas.get r.target) ∨
        copyIn crc (areas.get r.target) = none) :
      NandStep crc w (.failed d) ⟨areas, some r', w.history⟩
  | cutShort {w : NandWorld n} {r : NandRam} {area : Area n} (on : w.ram = some r)
      (left : copyIn crc area = copyIn crc (w.areas.get r.target) ∨ copyIn crc area = none) :
      NandStep crc w (.cut area) ⟨w.areas.set r.target area, none, w.history⟩
  | cutLate {w : NandWorld n} {r : NandRam} {area : Area n} (on : w.ram = some r)
      (left : readenv area (erased n.envSize) = (0, r.bumped.image)) :
      NandStep crc w (.cut area)
        ⟨w.areas.set r.target area, none, w.history.interrupt (r.target, r.bumped)⟩
  | off (w : NandWorld n) : NandStep crc w .off { w with ram := none }

/-- The power is off, and the copy to be found counts as the last one saved. -/
def NandWorld.start (crc : Bytes → UInt32) (areas : Copies (Area n)) : NandWorld n :=
  ⟨areas, none, ⟨(areas.map (copyIn crc)).chosen chooseCopy, []⟩⟩

/-- The slot that a boot loads, and what it loads. -/
def Heap.found (crc : Bytes → UInt32) (h : Heap n) (areas : Copies (Area n)) :
    Option (Slot × Env) :=
  (h.choice crc areas).map fun s => (s, h.loaded areas s)

/-- The condition on an event and the state before it.  A boot gets its buffers, and no
unreadable copy passes the checksum test; and a save that returns 0 has had its blocks
erased, a checksum that is that of the data, and a serial number that is newer than that
of the copy in use. -/
def NandEvent.Ok (crc : Bytes → UInt32) (w : NandWorld n) : NandEvent n → Prop
  | .boot heap _ => heap.Honest crc w.areas
  | .saved d => ∀ r, w.ram = some r →
      (∀ i left, d.erase i ≠ .failed left) ∧ r.globals.env.crc = crc r.globals.env.data ∧
      ∀ e, copyIn crc (w.areas.get r.target.other) = some e →
        SerialOk e.flags r.globals.env.flags r.target
  | _ => True

/-! ## One call of `saveenv` -/

theorem blank_of_nandEraseOpts {answer : Nat → EraseAnswer n.blocksize}
    (hdone : ∀ i left, answer i ≠ .failed left) : ∀ {area area' : Area n} {i : Nat},
      nandEraseOpts answer i area = (0, area') → Blank area' := by
  intro area
  induction area with
  | nil =>
    intro area' i h
    cases h
    intro b hb
    cases hb
  | cons b bs ih =>
    intro area' i h
    rw [nandEraseOpts] at h
    cases ha : answer i with
    | unknown =>
      rw [ha] at h
      cases h
    | failed left => exact absurd ha (hdone i left)
    | done =>
      rw [ha] at h
      cases hrec : nandEraseOpts answer (i + 1) bs with
      | mk rc bs' =>
        rw [hrec] at h
        obtain ⟨rfl, rfl⟩ := Prod.mk.inj h
        intro c hc hgood
        rcases List.mem_cons.mp hc with rfl | hc
        · by_cases hb : b.bad = true
          · rw [if_pos hb] at hgood
            rw [hb] at hgood
            cases hgood
          · rw [if_neg hb]
            rfl
        · exact ih hrec c hc hgood

/-- `saveenv` touches its target only.  An error leaves `gd->env_valid` alone; otherwise
the blocks were erased, the image written, and the other copy is in use now. -/
theorem saveenv_cases {d : SaveAnswers n} {r r' : NandRam} {areas areas' : Copies (Area n)}
    {rc : Int} (h : saveenv d r areas = (rc, r', areas')) :
    (∃ area, areas' = areas.set r.target area) ∧ r'.globals.env = r.bumped ∧
      (rc ≠ 0 → r'.envValid = r.envValid) ∧
      (rc = 0 → r'.envValid = (if r.envValid = 2 then 1 else 2) ∧
        ∃ area area', nandEraseOpts d.erase 0 (areas.get r.target) = (0, area) ∧
          writeenv d.write area r.bumped.image = (0, area') ∧
          areas' = areas.set r.target area') := by
  rw [saveenv] at h
  by_cases hrange : n.envRange < n.envSize
  · rw [if_pos hrange] at h
    cases h
    exact ⟨⟨areas.get r.target, by simp⟩, rfl, by simp, by simp⟩
  · rw [if_neg hrange] at h
    have htarget : NandRam.target { r with globals := { r.globals with env := r.bumped } } =
        r.target := rfl
    rw [htarget] at h
    cases herase : nandEraseOpts d.erase 0 (areas.get r.target) with
    | mk rc₁ area₁ =>
      rw [herase] at h
      cases hwrite : writeenv d.write area₁ r.bumped.image with
      | mk ret area₂ =>
        simp only [hwrite] at h
        by_cases h₁ : rc₁ = 0
        · subst h₁
          rw [if_neg (by simp)] at h
          by_cases h₂ : ret = 0
          · subst h₂
            rw [if_neg (by simp)] at h
            cases h
            exact ⟨⟨area₂, rfl⟩, rfl, by simp, fun _ => ⟨rfl, area₁, area₂, rfl, hwrite, rfl⟩⟩
          · rw [if_pos h₂] at h
            cases h
            exact ⟨⟨area₂, rfl⟩, rfl, by simp, by simp⟩
        · rw [if_pos h₁] at h
          cases h
          exact ⟨⟨area₁, rfl⟩, rfl, by simp, by simp⟩

theorem bumped_valid {r : NandRam} (hcrc : r.globals.env.crc = crc r.globals.env.data) :
    r.bumped.valid crc = some r.bumped := by
  rw [Env.valid, if_pos]
  exact Env.crcOk_iff.mpr hcrc

/-- The copy in a range that an image of the right size can be read from. -/
theorem copyIn_of_image (crc : Bytes → UInt32) {area : Area n} {e : Env}
    (hlen : e.image.length = n.envSize) (h : readenv area (erased n.envSize) = (0, e.image)) :
    copyIn crc area = e.valid crc := by
  rw [copyIn_of_readenv (length_erased _) h, ← hlen, List.take_length, Env.ofImage_image]

/-- The copy that a save leaves which returns 0. -/
theorem copyIn_of_saved (crc : Bytes → UInt32) {d : SaveAnswers n} {r r' : NandRam}
    {areas areas' : Copies (Area n)}
    (herase : ∀ i left, d.erase i ≠ .failed left) (hlen : r.bumped.image.length = n.envSize)
    (h : saveenv d r areas = (0, r', areas')) :
    ∃ area, areas' = areas.set r.target area ∧ copyIn crc area = r.bumped.valid crc := by
  obtain ⟨-, -, -, hok⟩ := saveenv_cases h
  obtain ⟨-, area, area', hblank, hwrite, rfl⟩ := hok rfl
  have hread := readenv_writeenv (blank_of_nandEraseOpts herase hblank) hlen
    (length_erased n.envSize) hwrite
  exact ⟨area', rfl, copyIn_of_image crc hlen hread⟩

/-! ## The invariant -/

/-- What holds of the program: it was loaded from the copy that a boot would find now, or
from the default environment when there is none. -/
structure NandRam.Inv (n : NandBoard) (c : Copies (Option Env)) (r : NandRam) : Prop where
  length_data : r.bumped.image.length = n.envSize
  valid : r.envValid = 1 ∨ r.envValid = 2
  inUse : chooseCopy c = some r.target.other ∨ (chooseCopy c = none ∧ r.envValid = 1)

structure NandWorld.Inv (crc : Bytes → UInt32) (w : NandWorld n) : Prop where
  allowed : w.history.Allows ((w.copies crc).chosen chooseCopy)
  ram : ∀ r, w.ram = some r → r.Inv n (w.copies crc)

theorem NandRam.Inv.choice {c : Copies (Option Env)} {r : NandRam} (h : r.Inv n c) :
    chooseCopy c = some r.target.other ∨ chooseCopy c = none :=
  h.inUse.imp_right And.left

theorem length_image_bumped {r : NandRam} :
    r.bumped.image.length = envHeaderSize + r.globals.env.data.length := Env.length_image _

/-- The program after `env_relocate`. -/
theorem inv_relocate {h : Heap n} {areas : Copies (Area n)} (hh : h.Honest crc areas)
    (fresh : Globals) :
    NandRam.Inv n (areas.map (copyIn crc))
      ⟨{ fresh with env := (relocate crc h areas).1 }, (relocate crc h areas).2⟩ := by
  have hheader := n.header_le
  have hloaded : ∀ s, envHeaderSize + (h.loaded areas s).data.length = n.envSize := by
    intro s
    obtain ⟨C, hC⟩ := readenv_eq (areas.get s)
    have hbuf : n.envSize ≤ (C ++ (h.tmp.get s).drop C.length).length := by
      rw [List.length_append, List.length_drop, h.length_tmp s]
      omega
    rw [Heap.loaded, hC _ (h.length_tmp s)]
    simp only [Env.ofImage, List.length_drop, List.length_take]
    omega
  have hchoice := hh.choice_eq
  refine ⟨?_, ?_, ?_⟩
  · rw [length_image_bumped]
    simp only [relocate]
    split
    · exact hloaded .first
    · exact hloaded .second
    · cases hdefault : setDefaultEnv crc n.defaultEnvironment (n.envSize - envHeaderSize) with
      | none =>
        rw [Option.getD_none, Env.ofImage, List.length_drop, h.length_own]
        omega
      | some e =>
        rw [Option.getD_some, length_setDefaultEnv hdefault]
        omega
  · simp only [relocate]
    split
    · exact .inl rfl
    · exact .inr rfl
    · exact .inl rfl
  · rw [← hchoice]
    simp only [relocate]
    split
    · next hs => exact .inl hs
    · next hs => exact .inl hs
    · next hs => exact .inr ⟨hs, rfl⟩

theorem NandRam.Inv.setenv {c : Copies (Option Env)} {r : NandRam} {call : Call} {rc : Int}
    {g : Globals} (h : r.Inv n c)
    (hret : doSetenv call.board crc call.flag call.argv r.globals = .ok (rc, g)) :
    NandRam.Inv n c { r with globals := g } := by
  refine ⟨?_, h.valid, h.inUse⟩
  have hlen := h.length_data
  rw [length_image_bumped] at hlen ⊢
  rw [(doSetenv_frame hret).2]
  exact hlen

theorem NandRam.target_of_toggle {r r' : NandRam} (hvalid : r.envValid = 1 ∨ r.envValid = 2)
    (h : r'.envValid = if r.envValid = 2 then 1 else 2) : r'.target.other = r.target := by
  rcases hvalid with hv | hv
  · simp [NandRam.target, h, hv, Slot.other]
  · simp [NandRam.target, h, hv, Slot.other]

/-- A save that returns 0 is what a boot finds next. -/
theorem NandRam.Inv.saved {areas areas' : Copies (Area n)} {r r' : NandRam} {d : SaveAnswers n}
    (h : r.Inv n (areas.map (copyIn crc))) (hret : saveenv d r areas = (0, r', areas'))
    (herase : ∀ i left, d.erase i ≠ .failed left)
    (hcrc : r.globals.env.crc = crc r.globals.env.data)
    (hserial : ∀ e, copyIn crc (areas.get r.target.other) = some e →
      SerialOk e.flags r.globals.env.flags r.target) :
    (areas'.map (copyIn crc)).chosen chooseCopy = some (r.target, r.bumped) ∧
      r'.Inv n (areas'.map (copyIn crc)) := by
  obtain ⟨area, rfl, hcopy⟩ := copyIn_of_saved crc herase h.length_data hret
  obtain ⟨-, henv, -, hok⟩ := saveenv_cases hret
  rw [bumped_valid hcrc] at hcopy
  rw [Copies.map_set, hcopy]
  have hnew : chooseCopy ((areas.map (copyIn crc)).set r.target (some r.bumped)) =
      some r.target := by
    cases hold : copyIn crc (areas.get r.target.other) with
    | none =>
      apply chooses_chooseCopy.only
      · simp
      · simpa using hold
    | some e =>
      have hiff := chooseCopy_set_iff (c := areas.map (copyIn crc)) (s := r.target.other)
        (x := r.bumped) (r := r.globals.env.flags) (by simpa using hold) rfl
      rw [Slot.other_other] at hiff
      exact hiff.mpr (hserial e hold)
  have htarget := NandRam.target_of_toggle h.valid (hok rfl).1
  refine ⟨chosen_eq hnew (by simp), ?_, ?_, .inl (by rw [htarget]; exact hnew)⟩
  · have hlen := h.length_data
    rw [length_image_bumped] at hlen ⊢
    rw [henv]
    exact hlen
  · rw [(hok rfl).1]
    split
    · exact .inl rfl
    · exact .inr rfl

/-- **One event keeps the invariant.** -/
theorem NandStep.inv {w w' : NandWorld n} {e : NandEvent n} (hw : w.Inv crc) (hok : e.Ok crc w)
    (h : NandStep crc w e w') : w'.Inv crc := by
  cases h with
  | boot heap fresh =>
    refine ⟨hw.allowed, fun r hr => ?_⟩
    cases hr
    exact inv_relocate hok fresh
  | setenv on ret =>
    refine ⟨hw.allowed, fun r hr => ?_⟩
    cases hr
    exact (hw.ram _ on).setenv ret
  | saved on ret =>
    obtain ⟨herase, hcrc, hserial⟩ := hok _ on
    obtain ⟨hchosen, hram⟩ := (hw.ram _ on).saved ret herase hcrc hserial
    refine ⟨?_, fun r hr => ?_⟩
    · show History.Allows _ ((Copies.map _ _).chosen _)
      rw [hchosen]
      exact History.allows_complete (h := w.history)
    · cases hr
      exact hram
  | @failed r r' d areas rc on ret error left =>
    have hr := hw.ram r on
    obtain ⟨⟨area, rfl⟩, henv, hvalid, -⟩ := saveenv_cases ret
    rw [Copies.get_set_self] at left
    obtain ⟨hsame, hchosen⟩ := chooses_chooseCopy.set_damaged (t := r.target) hr.choice
      (by simpa [NandWorld.copies] using left)
    have hcopies : NandWorld.copies crc ⟨w.areas.set r.target area, some r', w.history⟩ =
        (w.copies crc).set r.target (copyIn crc area) := Copies.map_set ..
    refine ⟨?_, fun r₁ hr₁ => ?_⟩
    · rw [hcopies, hchosen]
      exact hw.allowed
    · cases hr₁
      rw [hcopies]
      have htarget : r'.target = r.target := by rw [NandRam.target, hvalid error]; rfl
      refine ⟨?_, by rw [hvalid error]; exact hr.valid, ?_⟩
      · have hlen := hr.length_data
        rw [length_image_bumped] at hlen ⊢
        rw [henv]
        exact hlen
      · rw [hsame, htarget, hvalid error]
        exact hr.inUse
  | @cutShort r area on left =>
    have hr := hw.ram r on
    obtain ⟨-, hchosen⟩ := chooses_chooseCopy.set_damaged (t := r.target) hr.choice
      (by simpa [NandWorld.copies] using left)
    refine ⟨?_, fun r₁ hr₁ => by cases hr₁⟩
    rw [NandWorld.copies, Copies.map_set, ← NandWorld.copies, hchosen]
    exact hw.allowed
  | @cutLate r area on left =>
    have hr := hw.ram r on
    have hcopy := copyIn_of_image crc hr.length_data left
    refine ⟨?_, fun r₁ hr₁ => by cases hr₁⟩
    rw [NandWorld.copies, Copies.map_set, ← NandWorld.copies, hcopy, Env.valid]
    split
    · rcases chooses_chooseCopy.chosen_set_some (t := r.target) (x := r.bumped) hr.choice
        with hold | hnew
      · rw [hold]
        exact hw.allowed.interrupt
      · rw [hnew]
        exact History.allows_interrupt
    · rw [(chooses_chooseCopy.set_damaged hr.choice (.inr rfl)).2]
      exact hw.allowed.interrupt
  | off => exact ⟨hw.allowed, fun r hr => by cases hr⟩

theorem inv_start (areas : Copies (Area n)) : (NandWorld.start crc areas).Inv crc :=
  ⟨.inl rfl, fun r hr => by cases hr⟩

theorem Heap.Honest.found_eq {h : Heap n} {areas : Copies (Area n)} (hh : h.Honest crc areas) :
    h.found crc areas = (areas.map (copyIn crc)).chosen chooseCopy := by
  rw [Heap.found, hh.choice_eq, Copies.chosen]
  cases hs : chooseCopy (areas.map (copyIn crc)) with
  | none => rfl
  | some s =>
    have hintact := chooses_chooseCopy.intact hs
    rw [Copies.get_map] at hintact
    obtain ⟨e, he⟩ := Option.ne_none_iff_exists'.mp hintact
    simp [he, hh.loaded_eq he]

/-- **The copy a boot finds.**  After every run whose events meet the condition, a boot
loads the copy of the last save that returned 0, or that of a later one which was cut off
behind its last write. -/
theorem nand_boot_finds (crc : Bytes → UInt32) (areas : Copies (Area n))
    (tr : List (NandWorld n × NandEvent n)) (w : NandWorld n)
    (hrun : Run (NandStep crc) (NandWorld.start crc areas) tr w)
    (hok : ∀ p ∈ tr, p.2.Ok crc p.1) (h : Heap n) (hh : h.Honest crc w.areas) :
    w.history.Allows (h.found crc w.areas) := by
  have hinv : w.Inv crc := hrun.invariant (NandWorld.Inv crc) (fun w e => e.Ok crc w)
    (fun hw ho hs => hs.inv hw ho) (inv_start areas) hok
  rw [hh.found_eq]
  exact hinv.allowed

/-! ### Two runs around the wrap of the serial number -/

/-- One block of sixteen bytes for each copy. -/
def tinyNand : NandBoard := ⟨16, 10, 16, [0], by decide⟩

/-- The environment `a=c`. -/
def tinyEnv (flags c : UInt8) : Env := ⟨crc32 [97, 61, c, 0, 0], flags, [97, 61, c, 0, 0]⟩

def tinyArea (flags c : UInt8) : Area tinyNand :=
  [⟨false, (tinyEnv flags c).image ++ erased 6, rfl⟩]

def tinyHeap : Heap tinyNand where
  allocated := true
  own := erased 10
  tmp := ⟨erased 10, erased 10⟩
  length_own := rfl
  length_tmp := by
    intro s
    cases s <;> rfl

/-- A device without failures. -/
def willing : SaveAnswers tinyNand := ⟨fun _ => .done, fun _ => none⟩

/-- A device whose bad block table cannot be read. -/
def unwilling : SaveAnswers tinyNand := ⟨fun _ => .unknown, fun _ => none⟩

/-- The program after a boot from these copies. -/
def tinyRam (areas : Copies (Area tinyNand)) : NandRam :=
  ⟨globalsOf (relocate crc32 tinyHeap areas).1, (relocate crc32 tinyHeap areas).2⟩

/-- The system after a save. -/
def tinySaved (r : NandRam) (areas : Copies (Area tinyNand)) (history : History (Slot × Env)) :
    NandWorld tinyNand :=
  ⟨(saveenv willing r areas).2.2, some (saveenv willing r areas).2.1,
    history.complete (r.target, r.bumped)⟩

theorem nandStep_tinySaved {r : NandRam} {areas : Copies (Area tinyNand)}
    {history : History (Slot × Env)} (h : (saveenv willing r areas).1 = 0) :
    NandStep crc32 ⟨areas, some r, history⟩ (.saved willing) (tinySaved r areas history) :=
  .saved rfl (by rw [← h])

theorem honest_tinyHeap {areas : Copies (Area tinyNand)}
    (h₁ : (readenv areas.first (erased 10)).1 = 0) (h₂ : (readenv areas.second (erased 10)).1 = 0) :
    tinyHeap.Honest crc32 areas := by
  refine ⟨rfl, fun s hs => ?_⟩
  cases s with
  | first => exact absurd h₁ hs
  | second => exact absurd h₂ hs

/-- Serial numbers 255 and 254. -/
def wrapAreas : Copies (Area tinyNand) := ⟨tinyArea 255 49, tinyArea 254 50⟩

def wrapStart : NandWorld tinyNand := NandWorld.start crc32 wrapAreas

def wrapBooted : NandWorld tinyNand := { wrapStart with ram := some (tinyRam wrapAreas) }

def wrapSaved : NandWorld tinyNand := tinySaved (tinyRam wrapAreas) wrapAreas wrapStart.history

/-- A save that counts from 255 to 0, and the boot behind it. -/
theorem nand_boot_finds_wrapped :
    tinyHeap.found crc32 wrapSaved.areas = some (.second, tinyEnv 0 49) ∧
      wrapSaved.history.Allows (tinyHeap.found crc32 wrapSaved.areas) := by
  refine ⟨by decide +kernel, ?_⟩
  refine nand_boot_finds crc32 wrapAreas
    [(wrapStart, .boot tinyHeap (globalsOf (tinyEnv 0 0))), (wrapBooted, .saved willing)]
    wrapSaved ?_ ?_ tinyHeap (honest_tinyHeap (by decide +kernel) (by decide +kernel))
  · have hboot : Run (NandStep crc32) wrapStart _ wrapBooted :=
      Run.refl.tail (NandStep.boot wrapStart tinyHeap (globalsOf (tinyEnv 0 0)))
    exact hboot.tail (nandStep_tinySaved (by decide +kernel))
  · rw [List.forall_mem_cons, List.forall_mem_singleton]
    refine ⟨honest_tinyHeap (by decide) (by decide), fun r hr => ?_⟩
    obtain rfl : tinyRam wrapAreas = r := Option.some.inj hr
    refine ⟨nofun, by decide +kernel, fun e he => ?_⟩
    have hcopy : copyIn crc32 (wrapBooted.areas.get (tinyRam wrapAreas).target.other) =
        some (tinyEnv 255 49) := by decide +kernel
    obtain rfl : tinyEnv 255 49 = e := Option.some.inj (hcopy.symm.trans he)
    exact .inl (by decide +kernel)

/-- Serial numbers 254 and 253. -/
def lateAreas : Copies (Area tinyNand) := ⟨tinyArea 254 49, tinyArea 253 50⟩

def lateStart : NandWorld tinyNand := NandWorld.start crc32 lateAreas

def lateBooted : NandWorld tinyNand := { lateStart with ram := some (tinyRam lateAreas) }

/-- The program after a save that failed before its first erase. -/
def lateRam : NandRam := (saveenv unwilling (tinyRam lateAreas) lateAreas).2.1

def lateFailed : NandWorld tinyNand := { lateStart with ram := some lateRam }

def lateSaved : NandWorld tinyNand := tinySaved lateRam lateAreas lateStart.history

/-- **A save that is lost.**  The first save fails and counts from 254 to 255; the second
returns 0 and has counted to 0; the boot behind it goes back to the copy with 254. -/
theorem nand_wrap_behind_failure :
    Run (NandStep crc32) (NandWorld.start crc32 lateAreas)
        [(lateStart, .boot tinyHeap (globalsOf (tinyEnv 0 0))), (lateBooted, .failed unwilling),
          (lateFailed, .saved willing)] lateSaved ∧
      tinyHeap.Honest crc32 lateSaved.areas ∧
      lateSaved.history.last = some (.second, tinyEnv 0 49) ∧
      tinyHeap.found crc32 lateSaved.areas = some (.first, tinyEnv 254 49) ∧
      ¬ lateSaved.history.Allows (tinyHeap.found crc32 lateSaved.areas) := by
  refine ⟨?_, honest_tinyHeap (by decide +kernel) (by decide +kernel), by decide +kernel,
    by decide +kernel, by decide +kernel⟩
  have hboot : Run (NandStep crc32) lateStart _ lateBooted :=
    Run.refl.tail (NandStep.boot lateStart tinyHeap (globalsOf (tinyEnv 0 0)))
  have hret : saveenv unwilling (tinyRam lateAreas) lateAreas = (1, lateRam, lateAreas) := by
    decide +kernel
  have hfailed : Run (NandStep crc32) lateStart _ lateFailed :=
    hboot.tail (NandStep.failed rfl hret (by decide) (.inl rfl))
  exact hfailed.tail (nandStep_tinySaved (by decide +kernel))

end UBoot.Common
