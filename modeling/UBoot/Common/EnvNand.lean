import UBoot.Common.EnvCommon
import UBoot.Lib.Flash

/-!
# The environment in NAND flash

`common/env_nand.c` with `CONFIG_ENV_OFFSET_REDUND`: two ranges of erase blocks, each
with room for one copy of the environment and for some bad blocks, which are skipped.

* `readenv` and `writeenv` are the loops over the blocks of one range;
* `nandEraseOpts` is `nand_erase_opts` with the options of `saveenv` (it reports a block
  that cannot be erased and goes on);
* `saveenv` counts the serial number up, and writes to the copy that is not in use;
* `envRelocateSpec` is the choice between the two copies at boot, and `relocate` the
  whole of `env_relocate_spec`.

What the device answers is a parameter of each operation (`SaveAnswers`), and so is the
memory that `malloc` hands out (`Heap`).  `readenv_writeenv` is the one fact about the
loops that the rest needs: what was written to erased blocks is what is read.
-/

namespace UBoot.Common

open UBoot.Lib

/-- An erase block of `size` bytes. -/
structure Block (size : Nat) where
  bad : Bool
  data : Bytes
  length_data : data.length = size
  deriving Repr

theorem Block.same_iff {size : Nat} {a b : Block size} :
    (a.bad = b.bad ∧ a.data = b.data) ↔ a = b := by
  cases a
  cases b
  simp

instance {size : Nat} : DecidableEq (Block size) := fun a b =>
  decidable_of_iff (a.bad = b.bad ∧ a.data = b.data) Block.same_iff

/-- The sizes, and the text of the default environment. -/
structure NandBoard where
  /-- `nand_info[0].erasesize` -/
  blocksize : Nat
  /-- `CONFIG_ENV_SIZE` -/
  envSize : Nat
  /-- `CONFIG_ENV_RANGE` -/
  envRange : Nat
  defaultEnvironment : Bytes
  header_le : envHeaderSize ≤ envSize

variable {n : NandBoard}

/-- The blocks from `CONFIG_ENV_OFFSET` (or `_REDUND`) up to the end of the range. -/
abbrev Area (n : NandBoard) := List (Block n.blocksize)

/-- `len = min(blocksize, CONFIG_ENV_SIZE)` -/
def NandBoard.len (n : NandBoard) : Nat := min n.blocksize n.envSize

/-! ## Reading -/

/-- Store a chunk at an index of a buffer. -/
def putAt (buf : Bytes) (i : Nat) (chunk : Bytes) : Bytes :=
  buf.take i ++ chunk ++ buf.drop (i + chunk.length)

/-- The loop of `readenv`: `amount_loaded` and the buffer.  The reads succeed; one that
fails ends the function with 1. -/
def readLoop : Nat → Bytes → Area n → Nat × Bytes
  | amount, buf, [] => (amount, buf)
  | amount, buf, b :: bs =>
    if amount < n.envSize then
      if b.bad then readLoop amount buf bs
      else readLoop (amount + n.len) (putAt buf amount (b.data.take n.len)) bs
    else (amount, buf)

/-- `readenv(offset, buf)`: the return code and the buffer. -/
def readenv (area : Area n) (buf : Bytes) : Int × Bytes :=
  let (amount, buf) := readLoop 0 buf area
  (if amount ≠ n.envSize then 1 else 0, buf)

/-! ## Writing -/

/-- A block after `nand_write` of a chunk. -/
def Block.write (b : Block n.blocksize) (chunk : Bytes) : Block n.blocksize where
  bad := b.bad
  data := program b.data (chunk.take n.blocksize)
  length_data := by rw [length_program, b.length_data]

/-- The loop of `writeenv`: `amount_saved`, or `none` when `nand_write` fails.  The
argument `failed` says for each block of the range whether writing it fails, and what
is in it then. -/
def writeLoop (buf : Bytes) (failed : Nat → Option (Block n.blocksize)) :
    Nat → Nat → Area n → Option Nat × Area n
  | _, amount, [] => (some amount, [])
  | i, amount, b :: bs =>
    if amount < n.envSize then
      if b.bad then
        let (r, bs) := writeLoop buf failed (i + 1) amount bs
        (r, b :: bs)
      else match failed i with
        | some left => (none, left :: bs)
        | none =>
          let (r, bs) := writeLoop buf failed (i + 1) (amount + n.len) bs
          (r, b.write ((buf.drop amount).take n.len) :: bs)
    else (some amount, b :: bs)

/-- `writeenv(offset, buf)`: the return code and the range. -/
def writeenv (failed : Nat → Option (Block n.blocksize)) (area : Area n) (buf : Bytes) :
    Int × Area n :=
  match writeLoop buf failed 0 0 area with
  | (some amount, area) => (if amount ≠ n.envSize then 1 else 0, area)
  | (none, area) => (1, area)

/-! ### What was written is read -/

/-- What `readenv` appends to the first `amount` bytes of the buffer depends on the
range alone. -/
theorem readLoop_eq : ∀ (area : Area n) (amount : Nat), ∃ C : Bytes, ∀ P R : Bytes,
    P.length = amount → readLoop amount (P ++ R) area =
      (amount + C.length, P ++ (C ++ R.drop C.length)) := by
  intro area
  induction area with
  | nil =>
    intro amount
    exact ⟨[], fun P R _ => by simp [readLoop]⟩
  | cons b bs ih =>
    intro amount
    by_cases hlt : amount < n.envSize
    · by_cases hb : b.bad = true
      · obtain ⟨C, hC⟩ := ih amount
        refine ⟨C, fun P R hP => ?_⟩
        rw [readLoop, if_pos hlt, if_pos hb, hC P R hP]
      · obtain ⟨C, hC⟩ := ih (amount + n.len)
        have hlen : (b.data.take n.len).length = n.len := by
          rw [List.length_take, b.length_data, NandBoard.len]
          omega
        refine ⟨b.data.take n.len ++ C, fun P R hP => ?_⟩
        have hput : putAt (P ++ R) amount (b.data.take n.len) =
            (P ++ b.data.take n.len) ++ R.drop n.len := by
          rw [putAt, hlen, ← hP, List.take_left, List.drop_length_add_append]
        rw [readLoop, if_pos hlt, if_neg hb, hput, hC _ _ (by simp [hP, hlen])]
        simp [hlen, Nat.add_assoc]
    · refine ⟨[], fun P R _ => ?_⟩
      rw [readLoop, if_neg hlt]
      simp

/-- Every good block of the range is erased. -/
def Blank (area : Area n) : Prop := ∀ b ∈ area, b.bad = false → b.data = erased n.blocksize

theorem le_of_writeLoop {buf : Bytes} {failed : Nat → Option (Block n.blocksize)} :
    ∀ {area area' : Area n} {i amount total : Nat},
      writeLoop buf failed i amount area = (some total, area') → amount ≤ total := by
  intro area
  induction area with
  | nil =>
    intro area' i amount total h
    cases h
    exact le_refl _
  | cons b bs ih =>
    intro area' i amount total h
    rw [writeLoop] at h
    split_ifs at h with hlt hb
    · cases hrec : writeLoop buf failed (i + 1) amount bs with
      | mk r bs' =>
        rw [hrec] at h
        cases h
        exact ih hrec
    · split at h
      · cases h
      · cases hrec : writeLoop buf failed (i + 1) (amount + n.len) bs with
        | mk r bs' =>
          rw [hrec] at h
          cases h
          exact le_trans (Nat.le_add_right _ _) (ih hrec)
    · cases h
      exact le_refl _

/-- The walk of the reader follows that of the writer, block by block. -/
theorem readLoop_writeLoop {buf : Bytes} {failed : Nat → Option (Block n.blocksize)}
    (hbuf : buf.length = n.envSize) : ∀ {area area' : Area n} {i amount : Nat}, Blank area →
      writeLoop buf failed i amount area = (some n.envSize, area') → ∀ {P R : Bytes},
      P.length = amount → R.length = n.envSize - amount →
      readLoop amount (P ++ R) area' = (n.envSize, P ++ buf.drop amount) := by
  intro area
  induction area with
  | nil =>
    intro area' i amount _ h P R hP hR
    cases h
    obtain rfl : R = [] := List.eq_nil_of_length_eq_zero (by simpa using hR)
    rw [readLoop, List.drop_eq_nil_of_le (le_of_eq hbuf)]
  | cons b bs ih =>
    intro area' i amount hblank h P R hP hR
    have hbs : Blank bs := fun c hc => hblank c (List.mem_cons_of_mem _ hc)
    rw [writeLoop] at h
    split_ifs at h with hlt hb
    · cases hrec : writeLoop buf failed (i + 1) amount bs with
      | mk r bs' =>
        rw [hrec] at h
        cases h
        rw [readLoop, if_pos hlt, if_pos hb]
        exact ih hbs hrec hP hR
    · split at h
      · cases h
      · cases hrec : writeLoop buf failed (i + 1) (amount + n.len) bs with
        | mk r bs' =>
          rw [hrec] at h
          cases h
          -- the whole chunk lies in the buffer, as the total is the size of the buffer
          have hle := le_of_writeLoop hrec
          have hchunk : ((buf.drop amount).take n.len).length = n.len := by
            rw [List.length_take, List.length_drop, hbuf]
            omega
          have hdata : (b.write ((buf.drop amount).take n.len)).data.take n.len =
              (buf.drop amount).take n.len := by
            have htake : ((buf.drop amount).take n.len).take n.blocksize =
                (buf.drop amount).take n.len := by
              apply List.take_of_length_le
              rw [hchunk]
              exact Nat.min_le_left _ _
            show (program b.data (((buf.drop amount).take n.len).take n.blocksize)).take n.len = _
            rw [htake, hblank b (by simp) (by simpa using hb), program_erased]
            · rw [List.take_append_of_le_length (le_of_eq hchunk.symm), List.take_take,
                Nat.min_self]
            · rw [hchunk]
              exact Nat.min_le_left _ _
          have hput : putAt (P ++ R) amount ((buf.drop amount).take n.len) =
              (P ++ (buf.drop amount).take n.len) ++ R.drop n.len := by
            rw [putAt, hchunk, ← hP, List.take_left, List.drop_length_add_append]
          have hread := ih hbs hrec (P := P ++ (buf.drop amount).take n.len)
            (R := R.drop n.len) (by rw [List.length_append, hP, hchunk])
            (by rw [List.length_drop, hR]; omega)
          have hrest : (buf.drop amount).take n.len ++ buf.drop (amount + n.len) =
              buf.drop amount := by
            rw [← List.drop_drop]
            exact List.take_append_drop _ _
          have hbad : ¬ (b.write ((buf.drop amount).take n.len)).bad = true := hb
          rw [readLoop, if_pos hlt, if_neg hbad, hdata, hput, hread, List.append_assoc, hrest]
    · cases h
      obtain rfl : R = [] := List.eq_nil_of_length_eq_zero (by simpa using hR)
      rw [readLoop, if_neg hlt, List.drop_eq_nil_of_le (le_of_eq hbuf)]

/-- **What `writeenv` reports as written to erased blocks is what `readenv` returns.** -/
theorem readenv_writeenv {buf tmp : Bytes} {failed : Nat → Option (Block n.blocksize)}
    {area area' : Area n} (hblank : Blank area) (hbuf : buf.length = n.envSize)
    (htmp : tmp.length = n.envSize) (h : writeenv failed area buf = (0, area')) :
    readenv area' tmp = (0, buf) := by
  rw [writeenv] at h
  split at h
  case h_2 => cases h
  case h_1 amount area₁ hw =>
    have hamount : amount = n.envSize := by
      by_contra hne
      rw [if_pos hne] at h
      cases h
    rw [hamount, if_neg (by simp)] at h
    cases h
    have hread : readLoop 0 ([] ++ tmp) area' = (n.envSize, [] ++ buf.drop 0) :=
      readLoop_writeLoop hbuf hblank (hamount ▸ hw) rfl (by simpa using htmp)
    rw [List.nil_append] at hread
    rw [readenv, hread]
    simp

/-! ## Erasing -/

/-- What the device answers to the erase of one block. -/
inductive EraseAnswer (size : Nat)
  | done
  /-- the erase fails, and this is what it leaves -/
  | failed (left : Block size)
  /-- `block_isbad` fails -/
  | unknown

def Block.erase (b : Block n.blocksize) : Block n.blocksize :=
  ⟨b.bad, erased n.blocksize, length_erased _⟩

/-- `nand_erase_opts`, from block `i` on.  A block that cannot be erased is reported on
the console only. -/
def nandEraseOpts (answer : Nat → EraseAnswer n.blocksize) : Nat → Area n → Int × Area n
  | _, [] => (0, [])
  | i, b :: bs =>
    match answer i with
    | .unknown => (-1, b :: bs)
    | a =>
      let (rc, bs) := nandEraseOpts answer (i + 1) bs
      let b := if b.bad then b else match a with
        | .failed left => left
        | _ => b.erase
      (rc, b :: bs)

/-! ## `saveenv` -/

/-- The program after relocation: the environment in RAM with the variables around it,
and `gd->env_valid`. -/
structure NandRam where
  globals : Globals
  envValid : Nat
  deriving DecidableEq, Repr

/-- What the device answers during one `saveenv`. -/
structure SaveAnswers (n : NandBoard) where
  erase : Nat → EraseAnswer n.blocksize
  write : Nat → Option (Block n.blocksize)

/-- The copy that `saveenv` overwrites. -/
def NandRam.target (r : NandRam) : Slot := if r.envValid = 1 then .second else .first

/-- The environment that `saveenv` writes. -/
def NandRam.bumped (r : NandRam) : Env :=
  { r.globals.env with flags := r.globals.env.flags + 1 }

/-- `saveenv()`: the return code, the program and the flash. -/
def saveenv (d : SaveAnswers n) (r : NandRam) (areas : Copies (Area n)) :
    Int × NandRam × Copies (Area n) :=
  let r := { r with globals := { r.globals with env := r.bumped } }
  if n.envRange < n.envSize then (1, r, areas)
  else
    match nandEraseOpts d.erase 0 (areas.get r.target) with
    | (rc, area) =>
      if rc ≠ 0 then (1, r, areas.set r.target area)
      else
        match writeenv d.write area r.globals.env.image with
        | (ret, area) =>
          if ret ≠ 0 then (1, r, areas.set r.target area)
          else (ret, { r with envValid := if r.envValid = 2 then 1 else 2 },
            areas.set r.target area)

/-! ## The choice at boot -/

/-- "both ok - check serial": `gd->env_valid`. -/
def checkSerial (flags₁ flags₂ : UInt8) : Nat :=
  if flags₁ = 255 ∧ flags₂ = 0 then 2
  else if flags₂ = 255 ∧ flags₁ = 0 then 1
  else if flags₁ > flags₂ then 1
  else if flags₂ > flags₁ then 2
  else 1

/-- `gd->env_valid` after `env_relocate_spec`; `none` when it calls `use_default`. -/
def envRelocateSpec (crc : Bytes → UInt32) (tmpEnv1 tmpEnv2 : Env) : Option Nat :=
  let crc1Ok := tmpEnv1.crcOk crc
  let crc2Ok := tmpEnv2.crcOk crc
  if !crc1Ok && !crc2Ok then none
  else if crc1Ok && !crc2Ok then some 1
  else if !crc1Ok && crc2Ok then some 2
  else some (checkSerial tmpEnv1.flags tmpEnv2.flags)

/-- The copy that `gd->env_valid` stands for. -/
def slotOf (envValid : Nat) : Slot := if envValid = 1 then .first else .second

/-- The copy chosen; `none` for the default environment. -/
def nandSelect (crc : Bytes → UInt32) (e₁ e₂ : Env) : Option Slot :=
  (envRelocateSpec crc e₁ e₂).map slotOf

/-- The memory that `malloc` hands out at boot: the buffer of `env_relocate` and the two
of `env_relocate_spec`. -/
structure Heap (n : NandBoard) where
  allocated : Bool
  own : Bytes
  tmp : Copies Bytes
  length_own : own.length = n.envSize
  length_tmp : ∀ s, (tmp.get s).length = n.envSize

/-- The copy in a slot as `env_relocate_spec` sees it. -/
def Heap.loaded (h : Heap n) (areas : Copies (Area n)) (s : Slot) : Env :=
  Env.ofImage ((readenv (areas.get s) (h.tmp.get s)).2.take n.envSize)

/-- The slot that `env_relocate_spec` takes the environment from. -/
def Heap.choice (crc : Bytes → UInt32) (h : Heap n) (areas : Copies (Area n)) : Option Slot :=
  if h.allocated then nandSelect crc (h.loaded areas .first) (h.loaded areas .second) else none

/-- `env_relocate_spec()`: `env_ptr` and `gd->env_valid`. -/
def relocate (crc : Bytes → UInt32) (h : Heap n) (areas : Copies (Area n)) : Env × Nat :=
  match h.choice crc areas with
  | some .first => (h.loaded areas .first, 1)
  | some .second => (h.loaded areas .second, 2)
  | none => ((setDefaultEnv crc n.defaultEnvironment (n.envSize - envHeaderSize)).getD
      (Env.ofImage h.own), 1)

/-! ## The choice between intact copies

A copy counts when all of it can be read and its checksum matches.  Seen that way the
choice is one between two optional environments, and the memory that `malloc` handed
out no longer matters. -/

/-- The environment, if its checksum matches. -/
def Env.valid (crc : Bytes → UInt32) (e : Env) : Option Env := if e.crcOk crc then some e else none

/-- The choice between two copies of which some may be damaged. -/
def chooseCopy (c : Copies (Option Env)) : Option Slot :=
  match c.first, c.second with
  | none, none => none
  | some _, none => some .first
  | none, some _ => some .second
  | some e₁, some e₂ => some (slotOf (checkSerial e₁.flags e₂.flags))

theorem nandSelect_eq (crc : Bytes → UInt32) (e₁ e₂ : Env) :
    nandSelect crc e₁ e₂ = chooseCopy ⟨e₁.valid crc, e₂.valid crc⟩ := by
  rw [nandSelect, envRelocateSpec, Env.valid, Env.valid]
  cases e₁.crcOk crc <;> cases e₂.crcOk crc <;> rfl

theorem chooses_chooseCopy : Chooses chooseCopy where
  intact := by
    rintro ⟨e₁, e₂⟩ s h
    cases e₁ <;> cases e₂ <;> cases s <;> simp_all [chooseCopy, Copies.get]
  damaged := by
    rintro ⟨e₁, e₂⟩ h s
    cases e₁ <;> cases e₂ <;> cases s <;> simp_all [chooseCopy, Copies.get]

/-- The copy in a range of blocks. -/
def copyIn (crc : Bytes → UInt32) (area : Area n) : Option Env :=
  match readenv area (erased n.envSize) with
  | (rc, buf) => if rc = 0 then (Env.ofImage (buf.take n.envSize)).valid crc else none

/-- `readenv` fails for any buffer or for none, and when it does not fail the buffer is
overwritten as a whole. -/
theorem readenv_eq (area : Area n) : ∃ C : Bytes, ∀ tmp : Bytes, tmp.length = n.envSize →
    readenv area tmp = (if C.length ≠ n.envSize then 1 else 0, C ++ tmp.drop C.length) := by
  obtain ⟨C, hC⟩ := readLoop_eq area 0
  refine ⟨C, fun tmp _ => ?_⟩
  have hread := hC [] tmp rfl
  rw [List.nil_append] at hread
  rw [readenv, hread]
  simp

/-- A range that holds an image: a buffer read from it has the environment. -/
theorem copyIn_of_readenv {crc : Bytes → UInt32} {area : Area n} {tmp buf : Bytes}
    (htmp : tmp.length = n.envSize) (h : readenv area tmp = (0, buf)) :
    copyIn crc area = (Env.ofImage (buf.take n.envSize)).valid crc := by
  obtain ⟨C, hC⟩ := readenv_eq area
  rw [hC tmp htmp] at h
  have hlen : C.length = n.envSize := by
    by_contra hne
    rw [if_pos hne] at h
    cases h
  have hsame : readenv area (erased n.envSize) = (0, buf) := by
    rw [hC _ (length_erased _), ← h, hlen, List.drop_eq_nil_of_le (le_of_eq (length_erased _)),
      List.drop_eq_nil_of_le (le_of_eq htmp)]
  rw [copyIn, hsame]
  simp

/-- A copy that cannot be read as a whole leaves a part of the buffer as `malloc` handed
it out.  The heap is honest if no such buffer passes the checksum test. -/
def Heap.Honest (crc : Bytes → UInt32) (h : Heap n) (areas : Copies (Area n)) : Prop :=
  h.allocated = true ∧ ∀ s, (readenv (areas.get s) (h.tmp.get s)).1 ≠ 0 →
    (h.loaded areas s).crcOk crc = false

namespace Heap

variable {crc : Bytes → UInt32} {h : Heap n} {areas : Copies (Area n)}

theorem Honest.valid_loaded (hh : h.Honest crc areas) (s : Slot) :
    (h.loaded areas s).valid crc = copyIn crc (areas.get s) := by
  cases hread : readenv (areas.get s) (h.tmp.get s) with
  | mk rc buf =>
    by_cases hrc : rc = 0
    · subst hrc
      rw [copyIn_of_readenv (h.length_tmp s) hread, Heap.loaded, hread]
    · have hbad := hh.2 s (by rw [hread]; exact hrc)
      obtain ⟨C, hC⟩ := readenv_eq (areas.get s)
      rw [hC _ (h.length_tmp s)] at hread
      have hne : C.length ≠ n.envSize := by
        intro heq
        rw [if_neg (by simp [heq])] at hread
        exact hrc (congrArg Prod.fst hread).symm
      rw [Env.valid, hbad, copyIn, hC _ (length_erased _), if_pos hne]
      rfl

/-- **The choice at boot is the choice between the intact copies.** -/
theorem Honest.choice_eq (hh : h.Honest crc areas) :
    h.choice crc areas = chooseCopy (areas.map (copyIn crc)) := by
  rw [Heap.choice, if_pos hh.1, nandSelect_eq, hh.valid_loaded .first, hh.valid_loaded .second]
  rfl

theorem Honest.loaded_eq (hh : h.Honest crc areas) {s : Slot} {e : Env}
    (he : copyIn crc (areas.get s) = some e) : h.loaded areas s = e := by
  rw [← hh.valid_loaded s, Env.valid] at he
  split at he
  · exact Option.some.inj he
  · cases he

end Heap

/-! ## The serial number -/

/-- The second copy is the newer one. -/
theorem slotOf_checkSerial {f₁ f₂ : UInt8} : slotOf (checkSerial f₁ f₂) = .second ↔
    (f₁ = 255 ∧ f₂ = 0) ∨ (f₁ < f₂ ∧ ¬ (f₂ = 255 ∧ f₁ = 0)) := by
  have hlt := UInt8.lt_iff_toNat_lt (a := f₁) (b := f₂)
  have hgt := UInt8.lt_iff_toNat_lt (a := f₂) (b := f₁)
  rw [checkSerial]
  split_ifs with h₁ h₂ h₃ h₄
  · exact iff_of_true rfl (.inl h₁)
  · exact iff_of_false (by decide) (by simp [h₂])
  · refine iff_of_false (by decide) (not_or_intro h₁ fun h => ?_)
    have := hlt.mp h.1
    have := hgt.mp h₃
    omega
  · exact iff_of_true rfl (.inr ⟨h₄, h₂⟩)
  · exact iff_of_false (by decide) (not_or_intro h₁ fun h => h₄ h.1)

/-- When the serial number `r + 1`, written to `target`, is taken for newer than `a`:
with `r = a` always, also where it wraps from 255 to 0; with a larger `r` as long as it
does not wrap. -/
def SerialOk (a r : UInt8) (target : Slot) : Prop :=
  r = a ∨ (a < r ∧ r ≠ 255 ∧ ¬ (a = 0 ∧ r = 254)) ∨ (r + 1 = a ∧ target = .first)

theorem slotOf_checkSerial_second {a r : UInt8} :
    slotOf (checkSerial a (r + 1)) = .second ↔ SerialOk a r .second := by
  have ha := a.toNat_lt
  have hr := r.toNat_lt
  rw [slotOf_checkSerial, SerialOk]
  simp only [UInt8.lt_iff_toNat_lt, ← UInt8.toNat_inj, UInt8.toNat_add, ne_eq, reduceCtorEq,
    and_false, or_false, UInt8.reduceToNat]
  omega

theorem slotOf_checkSerial_first {a r : UInt8} :
    slotOf (checkSerial (r + 1) a) = .first ↔ SerialOk a r .first := by
  have ha := a.toNat_lt
  have hr := r.toNat_lt
  have hother : ∀ s : Slot, s = .first ↔ ¬ s = .second := by
    intro s
    cases s <;> simp
  rw [hother, slotOf_checkSerial, SerialOk]
  simp only [UInt8.lt_iff_toNat_lt, ← UInt8.toNat_inj, UInt8.toNat_add, ne_eq, and_true,
    UInt8.reduceToNat]
  omega

/-- **The new copy wins** if and only if its serial number allows it. -/
theorem chooseCopy_set_iff {c : Copies (Option Env)} {s : Slot} {e x : Env} {r : UInt8}
    (he : c.get s = some e) (hx : x.flags = r + 1) :
    chooseCopy (c.set s.other (some x)) = some s.other ↔ SerialOk e.flags r s.other := by
  cases s with
  | first =>
    have hboth : c.set Slot.first.other (some x) = ⟨some e, some x⟩ := by
      rw [← he]
      rfl
    rw [hboth, chooseCopy, Option.some_inj, hx]
    exact slotOf_checkSerial_second
  | second =>
    have hboth : c.set Slot.second.other (some x) = ⟨some x, some e⟩ := by
      rw [← he]
      rfl
    rw [hboth, chooseCopy, Option.some_inj, hx]
    exact slotOf_checkSerial_first

end UBoot.Common
