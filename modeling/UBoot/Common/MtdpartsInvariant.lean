import UBoot.Common.Mtdparts
import Mathlib.Data.List.Nodup
import Mathlib.Data.List.Perm.Basic
import Mathlib.Logic.Relation
import Mathlib.Order.Nat

/-!
# What holds of the lists of partitions

* `partValidate_valid`: a partition that passes `part_validate` lies in its flash, between two ends
  of erase blocks, and no sum of it wraps.
* `mtdparts_invariant`: so after `parse_mtdparts` and any number of `part_del` the lists are sorted
  lists of such partitions.
-/

namespace UBoot.Common.Mtdparts

open UBoot.Lib
open UBoot.LibGeneric

/-! ## Erase blocks -/

/-- An erase block of the flash starts or ends at `x`. -/
def MtdInfo.Boundary (mtd : MtdInfo) (x : Nat) : Prop :=
  if mtd.eraseregions = [] then mtd.erasesize.toNat ∣ x
  else ∃ r ∈ mtd.eraseregions, ∃ j ≤ r.numblocks.toNat, x = r.offset.toNat + j * r.erasesize.toNat

section Blocks

variable {mtd : MtdInfo} {r : EraseRegion} {rs : List EraseRegion} {x e start : UInt32}
  {n from_ stop : Nat}

theorem exists_of_hitsBlock (h : hitsBlock x e n start = true) :
    ∃ j < n, x.toNat = (start.toNat + j * e.toNat) % 2 ^ 32 := by
  induction n generalizing start with
  | zero => cases h
  | succ n ih =>
    rw [hitsBlock, Bool.or_eq_true, decide_eq_true_iff] at h
    rcases h with rfl | h
    · exact ⟨0, Nat.succ_pos n, by have := x.toNat_lt; omega⟩
    · obtain ⟨j, hj, hx⟩ := ih h
      refine ⟨j + 1, Nat.succ_lt_succ hj, ?_⟩
      rw [UInt32.toNat_add] at hx
      rw [hx, Nat.add_mul]
      omega

theorem le_of_consecutive (h : Consecutive stop from_ rs) : from_ ≤ stop := by
  induction rs generalizing from_ with
  | nil => exact h.le
  | cons r rs ih => exact (Nat.le_add_right _ _).trans (ih h.2)

theorem stop_le_of_mem (h : Consecutive stop from_ rs) (hr : r ∈ rs) :
    r.offset.toNat + r.numblocks.toNat * r.erasesize.toNat ≤ stop := by
  induction rs generalizing from_ with
  | nil => cases hr
  | cons r' rs ih =>
    rcases List.mem_cons.mp hr with rfl | hr
    · rw [h.1]
      exact le_of_consecutive h.2
    · exact ih h.2 hr

theorem stop_lt (hmtd : mtd.eraseregions ≠ []) (hr : r ∈ mtd.eraseregions) :
    r.offset.toNat + r.numblocks.toNat * r.erasesize.toNat < 2 ^ 32 :=
  (stop_le_of_mem (mtd.consecutive hmtd) hr).trans_lt (mtd.size_lt hmtd)

theorem boundary_of_hits (hmtd : mtd.eraseregions ≠ []) (hr : r ∈ mtd.eraseregions)
    (h : r.hits x = true) : mtd.Boundary x.toNat := by
  obtain ⟨j, hj, hx⟩ := exists_of_hitsBlock h
  have hlt := stop_lt hmtd hr
  have hmul : j * r.erasesize.toNat ≤ r.numblocks.toNat * r.erasesize.toNat :=
    Nat.mul_le_mul_right _ hj.le
  rw [MtdInfo.Boundary, if_neg hmtd]
  refine ⟨r, hr, j, hj.le, ?_⟩
  rw [UInt64.toNat_toUInt32] at hx
  omega

theorem boundary_of_stop (hmtd : mtd.eraseregions ≠ []) (hr : r ∈ mtd.eraseregions) :
    mtd.Boundary r.stop.toNat := by
  have hlt := stop_lt hmtd hr
  rw [MtdInfo.Boundary, if_neg hmtd]
  refine ⟨r, hr, r.numblocks.toNat, le_rfl, ?_⟩
  rw [EraseRegion.stop, UInt32.toNat_add, UInt32.toNat_mul, UInt64.toNat_toUInt32]
  have hmul : r.numblocks.toNat * r.erasesize.toNat < 2 ^ 32 := by omega
  rw [Nat.mod_eq_of_lt hmul]
  omega

end Blocks

/-! ## A partition -/

/-- A partition lies in the flash of the device, between two ends of erase blocks. -/
structure Part.Valid (flash : Flash) (id : MtdId) (part : Part) : Prop where
  size_pos : 0 < part.size.toNat
  stop_le : part.offset.toNat + part.size.toNat ≤ id.size.toNat
  aligned : ∃ mtd, flash id.type id.num = some mtd ∧ mtd.Boundary part.offset.toNat ∧
    mtd.Boundary (part.offset.toNat + part.size.toNat)

section Validate

variable {flash : Flash} {id : MtdId} {part part' : Part}

/-- No sum wraps that is above its first term. -/
theorem toNat_add_of_lt {a b : UInt32} (h : a < a + b) : (a + b).toNat = a.toNat + b.toNat := by
  have ha := a.toNat_lt
  have hb := b.toNat_lt
  rw [UInt32.lt_iff_toNat_lt, UInt32.toNat_add] at h
  rw [UInt32.toNat_add]
  omega

theorem boundary_of_eraseblock (hlt : part.offset < part.offset + part.size)
    (h : partValidateEraseblock flash id part = some part') :
    ∃ mtd, flash id.type id.num = some mtd ∧ part' = { part with sectorSize := mtd.erasesize } ∧
      mtd.Boundary part.offset.toNat ∧ mtd.Boundary (part.offset.toNat + part.size.toNat) := by
  have hsum := toNat_add_of_lt hlt
  unfold partValidateEraseblock at h
  cases hflash : flash id.type id.num with
  | none =>
    rw [hflash] at h
    cases h
  | some mtd =>
    rw [hflash] at h
    dsimp only at h
    refine ⟨mtd, rfl, ?_⟩
    by_cases hregions : mtd.eraseregions = []
    · rw [if_pos hregions] at h
      split at h
      · cases h
      rename_i hoffset
      split at h
      · cases h
      rename_i hsize
      have hoffset : mtd.erasesize.toNat ∣ part.offset.toNat := by
        apply Nat.dvd_of_mod_eq_zero
        rw [← UInt32.toNat_mod, not_not.mp hoffset]
        rfl
      have hsize : mtd.erasesize.toNat ∣ part.size.toNat := by
        apply Nat.dvd_of_mod_eq_zero
        rw [← UInt32.toNat_mod, not_not.mp hsize]
        rfl
      refine ⟨(Option.some.inj h).symm, ?_, ?_⟩
      · rw [MtdInfo.Boundary, if_pos hregions]
        exact hoffset
      · rw [MtdInfo.Boundary, if_pos hregions]
        exact Nat.dvd_add hoffset hsize
    · rw [if_neg hregions] at h
      split at h
      · cases h
      rename_i hstart
      split at h
      · rename_i hend
        refine ⟨(Option.some.inj h).symm, ?_, ?_⟩
        · obtain ⟨r, hr, hhits⟩ := List.any_eq_true.mp ((Bool.not_eq_false _).mp hstart)
          exact boundary_of_hits hregions hr hhits
        · rw [← hsum]
          rcases hend with hend | hend
          · obtain ⟨r, hr, hhits⟩ := List.any_eq_true.mp hend
            exact boundary_of_hits hregions hr hhits
          · obtain ⟨r, hlast, hstop⟩ := Option.map_eq_some_iff.mp hend
            rw [← hstop]
            exact boundary_of_stop hregions (List.mem_of_getLast? hlast)
      · cases h

/-- The size and the size of a sector are all that is set. -/
theorem fillUp_frame : ∃ size, fillUp id part = { part with size := size } := by
  unfold fillUp
  split
  · exact ⟨_, rfl⟩
  · exact ⟨part.size, rfl⟩

/-- What `part_validate` has checked. -/
theorem partValidate_cases (h : partValidate flash id part = some part') :
    (fillUp id part).offset < (fillUp id part).offset + (fillUp id part).size ∧
      (fillUp id part).offset + (fillUp id part).size ≤ id.size ∧
      partValidateEraseblock flash id (fillUp id part) = some part' := by
  unfold partValidate at h
  dsimp only at h
  split at h
  · cases h
  split at h
  · cases h
  rename_i hwrap
  split at h
  · cases h
  rename_i hsize
  exact ⟨UInt32.not_le.mp hwrap, UInt32.not_lt.mp hsize, h⟩

theorem partValidate_valid (h : partValidate flash id part = some part') :
    part'.Valid flash id := by
  obtain ⟨hlt, hle, hblock⟩ := partValidate_cases h
  obtain ⟨mtd, hflash, rfl, hstart, hend⟩ := boundary_of_eraseblock hlt hblock
  have hsum := toNat_add_of_lt hlt
  refine ⟨?_, ?_, mtd, hflash, hstart, hend⟩
  · show 0 < (fillUp id part).size.toNat
    rw [UInt32.lt_iff_toNat_lt] at hlt
    omega
  · show (fillUp id part).offset.toNat + (fillUp id part).size.toNat ≤ _
    rw [← hsum]
    exact UInt32.le_iff_toNat_le.mp hle

theorem partValidate_frame (h : partValidate flash id part = some part') :
    ∃ size sector, part' = { part with size := size, sectorSize := sector } := by
  obtain ⟨hlt, -, hblock⟩ := partValidate_cases h
  obtain ⟨mtd, -, rfl, -, -⟩ := boundary_of_eraseblock hlt hblock
  obtain ⟨size, hfill⟩ := @fillUp_frame id part
  exact ⟨size, mtd.erasesize, by rw [hfill]⟩

end Validate

/-! ## A device -/

/-- The partitions of a device are counted, sorted by their offsets, and different objects. -/
structure Device.Listed (dev : Device) : Prop where
  numParts : dev.numParts.toNat = dev.parts.length
  sorted : dev.parts.Pairwise fun p q => p.offset ≤ q.offset
  nodup : (dev.parts.map Part.addr).Nodup

/-- What holds of a device, also before it has a partition. -/
structure Device.Fits (flash : Flash) (dev : Device) : Prop extends dev.Listed where
  atZero : dev.parts.countP (fun p => p.offset = 0) ≤ 1
  valid : ∀ p ∈ dev.parts, p.Valid flash dev.id

/-- What holds of a device in the list. -/
structure Device.Ok (flash : Flash) (dev : Device) : Prop extends dev.Fits flash where
  nonempty : dev.parts ≠ []

/-- What holds of the list of devices. -/
structure DevicesOk (flash : Flash) (devices : List Device) : Prop where
  ok : ∀ dev ∈ devices, dev.Ok flash
  distinct : devices.Pairwise fun dev dev' =>
    ¬ (dev.id.type = dev'.id.type ∧ dev.id.num = dev'.id.num)
  nodup : (devices.map Device.addr).Nodup

section Insert

variable {flash : Flash} {dev : Device} {new before : Part} {l l' : List Part}

theorem insertPart_perm {o : Option Part} (h : insertPart new l = some (l', o)) :
    l'.Perm (new :: l) := by
  induction l generalizing l' o with
  | nil =>
    cases h
    exact List.Perm.refl _
  | cons pi rest ih =>
    rw [insertPart] at h
    split at h
    · cases h
    split at h
    · cases h
      exact List.Perm.refl _
    · obtain ⟨⟨l₁, o₁⟩, hrest, heq⟩ := Option.map_eq_some_iff.mp h
      cases heq
      exact ((ih hrest).cons pi).trans (List.Perm.swap new pi rest)

theorem insertPart_sorted {o : Option Part} (h : insertPart new l = some (l', o))
    (hl : l.Pairwise fun p q => p.offset ≤ q.offset) :
    l'.Pairwise fun p q => p.offset ≤ q.offset := by
  induction l generalizing l' o with
  | nil =>
    cases h
    exact List.pairwise_singleton _ _
  | cons pi rest ih =>
    obtain ⟨hpi, hrest⟩ := List.pairwise_cons.mp hl
    rw [insertPart] at h
    split at h
    · cases h
    split at h
    · rename_i hle
      cases h
      refine List.pairwise_cons.mpr ⟨?_, hl⟩
      intro q hq
      rcases List.mem_cons.mp hq with rfl | hq
      · exact hle
      · exact UInt32.le_trans hle (hpi q hq)
    · rename_i hnot
      obtain ⟨⟨l₁, o₁⟩, hins, heq⟩ := Option.map_eq_some_iff.mp h
      cases heq
      refine List.pairwise_cons.mpr ⟨?_, ih hins hrest⟩
      intro q hq
      rcases List.mem_cons.mp ((insertPart_perm hins).mem_iff.mp hq) with rfl | hq
      · exact UInt32.le_of_lt (UInt32.not_le.mp hnot)
      · exact hpi q hq

/-- A second partition at offset 0 is refused: in a sorted list it meets the first one. -/
theorem insertPart_atZero {o : Option Part} (h : insertPart new l = some (l', o))
    (hl : l.Pairwise fun p q => p.offset ≤ q.offset)
    (hzero : l.countP (fun p => p.offset = 0) ≤ 1) :
    l'.countP (fun p => p.offset = 0) ≤ 1 := by
  rw [(insertPart_perm h).countP_eq]
  by_cases hnew : new.offset = 0
  · have hnone : l.countP (fun p => p.offset = 0) = 0 := by
      rw [List.countP_eq_zero]
      intro q hq hq0
      cases l with
      | nil => cases hq
      | cons pi rest =>
        have hpi : pi.offset = 0 := by
          have hq0 : q.offset = 0 := of_decide_eq_true hq0
          rcases List.mem_cons.mp hq with rfl | hq
          · exact hq0
          · have hle := (List.pairwise_cons.mp hl).1 q hq
            rw [hq0] at hle
            exact UInt32.le_antisymm hle (UInt32.le_iff_toNat_le.mpr (Nat.zero_le _))
        rw [insertPart, if_pos ⟨hnew.trans hpi.symm, hpi⟩] at h
        cases h
    rw [List.countP_cons, hnone]
    split <;> decide
  · rw [List.countP_cons, if_neg (by simpa using hnew)]
    exact hzero

/-- A partition more. -/
theorem Device.Listed.insert {o : Option Part} (h : dev.Listed)
    (hins : insertPart new dev.parts = some (l', o)) (haddr : new.addr ∉ dev.parts.map Part.addr)
    (hroom : dev.parts.length + 1 < 2 ^ 16) :
    ({ dev with parts := l', numParts := dev.numParts + 1 } : Device).Listed := by
  have hperm := insertPart_perm hins
  refine ⟨?_, insertPart_sorted hins h.sorted, ?_⟩
  · show (dev.numParts + 1).toNat = l'.length
    rw [UInt16.toNat_add, h.numParts, hperm.length_eq]
    exact Nat.mod_eq_of_lt hroom
  · show (l'.map Part.addr).Nodup
    rw [(hperm.map Part.addr).nodup_iff]
    exact List.nodup_cons.mpr ⟨haddr, h.nodup⟩

theorem Device.Fits.insert {o : Option Part} (h : dev.Fits flash)
    (hins : insertPart new dev.parts = some (l', o)) (hnew : new.Valid flash dev.id)
    (haddr : new.addr ∉ dev.parts.map Part.addr) (hroom : dev.parts.length + 1 < 2 ^ 16) :
    ({ dev with parts := l', numParts := dev.numParts + 1 } : Device).Ok flash := by
  have hperm := insertPart_perm hins
  refine ⟨⟨h.toListed.insert hins haddr hroom, insertPart_atZero hins h.sorted h.atZero, ?_⟩, ?_⟩
  · intro p hp
    rcases List.mem_cons.mp (hperm.mem_iff.mp hp) with rfl | hp
    · exact hnew
    · exact h.valid p hp
  · show l' ≠ []
    intro hnil
    rw [hnil] at hperm
    cases hperm.length_eq

end Insert

/-! ## What is read is used up -/

section Suffix

variable {base result size offset : UInt32} {p p' cp : Bytes} {part : Part} {name : Option Bytes}
  {addr : Nat}

theorem length_tail_lt (h : charAt p ≠ 0) : p.tail.length < p.length := by
  cases p with
  | nil => exact absurd rfl h
  | cons c p => exact Nat.lt_succ_self _

theorem strtoulDigits_length : (strtoulDigits base result cp).2.length < cp.length ∨
    strtoulDigits base result cp = (result, cp) := by
  cases cp with
  | nil => exact Or.inr rfl
  | cons c cp =>
    rw [strtoulDigits]
    split
    · left
      have hle : ∀ (cp : Bytes) (result : UInt32),
          (strtoulDigits base result cp).2.length ≤ cp.length := by
        intro cp
        induction cp with
        | nil => exact fun _ => le_rfl
        | cons c cp ih =>
          intro result
          rw [strtoulDigits]
          split
          · exact (ih _).trans (Nat.le_succ _)
          · exact le_rfl
      exact Nat.lt_succ_of_le (hle cp _)
    · exact Or.inr rfl

theorem simpleStrtoul_length : (simpleStrtoul cp base).2.length < cp.length ∨
    simpleStrtoul cp base = (0, cp) := by
  have hdigits : ∀ (base : UInt32) (cp : Bytes),
      (strtoulDigits base 0 cp).2.length ≤ cp.length := by
    intro base cp
    rcases @strtoulDigits_length base 0 cp with h | h
    · exact h.le
    · rw [h]
  unfold simpleStrtoul
  split
  · rename_i hzero
    have htail : cp.tail.length < cp.length := length_tail_lt (by rw [hzero]; decide)
    left
    dsimp only
    split
    · have htail' : cp.tail.tail.length ≤ cp.tail.length := by simp
      exact ((hdigits _ _).trans htail').trans_lt htail
    · exact (hdigits _ _).trans_lt htail
  · exact strtoulDigits_length

/-- A number that is not zero has a digit. -/
theorem memsizeParse_length : (memsizeParse cp).2.length ≤ cp.length ∧
    ((memsizeParse cp).1 ≠ 0 → (memsizeParse cp).2.length < cp.length) := by
  have htail : ∀ p : Bytes, p.tail.length ≤ p.length := fun p => by simp
  have hnum := @simpleStrtoul_length 0 cp
  unfold memsizeParse
  rcases hnum with hlt | hsame
  · generalize simpleStrtoul cp 0 = r at *
    have hle := htail r.2
    dsimp only
    split_ifs <;> dsimp only <;> exact ⟨by omega, fun _ => by omega⟩
  · rw [hsame]
    have hle := htail cp
    dsimp only
    split_ifs
    · exact ⟨hle, fun h => absurd rfl h⟩
    · exact ⟨hle, fun h => absurd rfl h⟩
    · exact ⟨hle, fun h => absurd rfl h⟩
    · exact ⟨le_rfl, fun h => absurd rfl h⟩

theorem parseSize_length (h : parseSize p = some (size, p')) : p'.length < p.length := by
  unfold parseSize at h
  split at h
  · rename_i hdash
    cases h
    exact length_tail_lt (by rw [hdash]; decide)
  · dsimp only at h
    split at h
    · cases h
    · rename_i hsize
      cases h
      refine memsizeParse_length.2 ?_
      intro hzero
      rw [hzero] at hsize
      exact hsize (by decide)

theorem parseOffset_length : (parseOffset p).2.length ≤ p.length := by
  unfold parseOffset
  split
  · exact memsizeParse_length.1.trans (by simp)
  · exact le_rfl

theorem parseName_length (h : parseName p = some (name, p')) : p'.length ≤ p.length := by
  unfold parseName at h
  split at h
  · dsimp only at h
    split at h
    · cases h
    split at h
    · cases h
    · cases h
      have hdrop := (List.dropWhile_sublist (fun c : UInt8 => decide (c ≠ 0x29))
        (l := p.tail)).length_le
      have htail : p.tail.length ≤ p.length := by simp
      rw [List.length_tail]
      omega
  · cases h
    exact le_rfl

theorem parseFlags_length : (parseFlags p).2.length ≤ p.length := by
  unfold parseFlags
  split
  · simp
  · exact le_rfl

theorem parseNext_length (h : parseNext size p = some p') : p'.length ≤ p.length := by
  unfold parseNext at h
  split at h
  · split at h
    · cases h
    · cases h
      simp
  · split at h
    · cases h
      exact le_rfl
    · cases h

theorem partParse_length (h : partParse addr p = some (part, p')) : p'.length < p.length := by
  unfold partParse at h
  obtain ⟨⟨size, p₁⟩, hsize, h⟩ := Option.bind_eq_some_iff.mp h
  obtain ⟨⟨name, p₂⟩, hname, h⟩ := Option.bind_eq_some_iff.mp h
  obtain ⟨p₃, hnext, h⟩ := Option.bind_eq_some_iff.mp h
  cases h
  have h₁ := parseSize_length hsize
  have h₂ := @parseOffset_length p₁
  have h₃ : p₂.length ≤ (parseOffset p₁).2.length := parseName_length hname
  have h₄ := @parseFlags_length p₂
  have h₅ : p'.length ≤ (parseFlags p₂).2.length := parseNext_length hnext
  omega

end Suffix

section Parse

variable {flash : Flash} {id : MtdId} {part : Part} {parts : List Part} {p rest : Bytes}
  {fuel addr : Nat} {offset : UInt32}

theorem parseParts_valid
    (h : parseParts flash id fuel p offset addr = some (parts, rest)) :
    (∀ part ∈ parts, part.Valid flash id) ∧ parts ≠ [] ∧
      rest.length + parts.length ≤ p.length := by
  induction fuel generalizing p offset addr parts rest with
  | zero => cases h
  | succ fuel ih =>
    rw [parseParts] at h
    obtain ⟨⟨part, p₁⟩, hparse, h⟩ := Option.bind_eq_some_iff.mp h
    obtain ⟨part', hvalid, h⟩ := Option.bind_eq_some_iff.mp h
    have hpart := partValidate_valid hvalid
    have hlen := partParse_length hparse
    dsimp only at h
    split at h
    · cases h
      refine ⟨?_, List.cons_ne_nil _ _, hlen⟩
      intro q hq
      rw [List.mem_singleton.mp hq]
      exact hpart
    · obtain ⟨⟨parts', p₂⟩, hrest, h⟩ := Option.bind_eq_some_iff.mp h
      cases h
      obtain ⟨hall, -, hlen'⟩ := ih hrest
      refine ⟨?_, List.cons_ne_nil _ _, by dsimp only [List.length_cons]; omega⟩
      intro q hq
      rcases List.mem_cons.mp hq with rfl | hq
      · exact hpart
      · exact hall q hq

theorem placeAt_addr : (part.placeAt offset).addr = part.addr := by
  unfold Part.placeAt
  split <;> rfl

theorem partParse_addr (h : partParse addr p = some (part, rest)) :
    part.addr = addr := by
  unfold partParse at h
  obtain ⟨⟨size, p₁⟩, -, h⟩ := Option.bind_eq_some_iff.mp h
  obtain ⟨⟨name, p₂⟩, -, h⟩ := Option.bind_eq_some_iff.mp h
  obtain ⟨p₃, -, h⟩ := Option.bind_eq_some_iff.mp h
  cases h
  rfl

/-- The partitions of a text are put into memory one after the other. -/
theorem parseParts_addr
    (h : parseParts flash id fuel p offset addr = some (parts, rest)) :
    parts.map Part.addr = List.range' addr parts.length := by
  induction fuel generalizing p offset addr parts rest with
  | zero => cases h
  | succ fuel ih =>
    rw [parseParts] at h
    obtain ⟨⟨part, p₁⟩, hparse, h⟩ := Option.bind_eq_some_iff.mp h
    obtain ⟨part', hvalid, h⟩ := Option.bind_eq_some_iff.mp h
    have hpart : part'.addr = addr := by
      obtain ⟨size, sector, rfl⟩ := partValidate_frame hvalid
      show (part.placeAt offset).addr = addr
      rw [placeAt_addr, partParse_addr hparse]
    dsimp only at h
    split at h
    · cases h
      rw [List.map_singleton, hpart]
      rfl
    · obtain ⟨⟨parts', p₂⟩, hrest, h⟩ := Option.bind_eq_some_iff.mp h
      cases h
      rw [List.map_cons, hpart, ih hrest]
      rfl

end Parse

section Lists

variable {E : Type} [Environment E] {flash : Flash} {m m' : Mtd E} {dev dev' : Device} {part : Part}
  {parts : List Part} {id : MtdId} {s p : Bytes} {fuel addr : Nat} {offset : UInt32}

/-- The environment is all that `index_partitions` changes. -/
theorem indexPartitions_frame (h : indexPartitions m = some m') :
    ∃ env, m' = { m with env := env } := by
  unfold indexPartitions at h
  split at h
  · cases h
    exact ⟨_, rfl⟩
  · dsimp only at h
    split at h
    · cases h
    · cases h
      exact ⟨_, rfl⟩

theorem currentSave_frame (h : currentSave m = some m') :
    ∃ env last, m' = { m with env := env, lastPartition := last } := by
  unfold currentSave at h
  split at h
  · obtain ⟨env, rfl⟩ := indexPartitions_frame h
    exact ⟨env, [], rfl⟩
  · split at h
    · cases h
    · obtain ⟨env, rfl⟩ := indexPartitions_frame h
      exact ⟨env, _, rfl⟩

omit [Environment E] in
theorem update_of_fresh (h : ∀ d ∈ m.devices, d.addr ≠ dev.addr) : m.update dev = m := by
  have hmap : (m.devices.map fun d => if d.addr = dev.addr then dev else d) = m.devices := by
    rw [List.map_congr_left fun d hd => if_neg (h d hd), List.map_id']
  rw [Mtd.update, hmap]

/-- `part_sort_add` into a device that is not in the list, or into the current one of none. -/
theorem partSortAdd_new {r : Option Device} (hcurr : m.currentMtdDev ≠ some dev.addr)
    (hfresh : ∀ d ∈ m.devices, d.addr ≠ dev.addr) (h : partSortAdd m dev part = some (r, m')) :
    (∃ env, m' = { m with env := env }) ∧
      ∀ dev', r = some dev' → ∃ l o, insertPart part dev.parts = some (l, o) ∧
        dev' = { dev with parts := l, numParts := dev.numParts + 1 } := by
  unfold partSortAdd at h
  dsimp only at h
  rw [if_neg hcurr] at h
  cases hins : insertPart part dev.parts with
  | none =>
    rw [hins] at h
    cases h
    exact ⟨⟨m.env, rfl⟩, fun dev' h => by cases h⟩
  | some ins =>
    obtain ⟨l, o⟩ := ins
    rw [hins] at h
    have hindex : (indexPartitions (m.update { dev with parts := l, numParts := dev.numParts + 1 })
        >>= fun m => some (some { dev with parts := l, numParts := dev.numParts + 1 }, m)) =
        some (r, m') := by
      cases o <;> exact h
    obtain ⟨m₁, hm₁, heq⟩ := Option.bind_eq_some_iff.mp hindex
    cases heq
    have hm : m.update { dev with parts := l, numParts := dev.numParts + 1 } = m :=
      update_of_fresh hfresh
    rw [hm] at hm₁
    exact ⟨indexPartitions_frame hm₁, fun dev' h => ⟨l, o, rfl, (Option.some.inj h).symm⟩⟩

theorem addParts_new {r : Option Device} (hcurr : m.currentMtdDev ≠ some dev.addr)
    (hfresh : ∀ d ∈ m.devices, d.addr ≠ dev.addr) (hdev : dev.Fits flash)
    (hvalid : ∀ part ∈ parts, part.Valid flash dev.id)
    (haddr : (dev.parts.map Part.addr ++ parts.map Part.addr).Nodup)
    (hroom : dev.parts.length + parts.length < 2 ^ 16) (hne : dev.parts ≠ [] ∨ parts ≠ [])
    (h : addParts m dev parts = some (r, m')) :
    (∃ env, m' = { m with env := env }) ∧
      ∀ dev', r = some dev' → dev'.Ok flash ∧ dev'.id = dev.id ∧ dev'.addr = dev.addr := by
  induction parts generalizing m dev with
  | nil =>
    cases h
    refine ⟨⟨_, rfl⟩, fun dev' h => ?_⟩
    cases h
    exact ⟨⟨hdev, hne.resolve_right fun h => h rfl⟩, rfl, rfl⟩
  | cons part parts ih =>
    rw [addParts] at h
    obtain ⟨⟨r₁, m₁⟩, hadd, h⟩ := Option.bind_eq_some_iff.mp h
    obtain ⟨⟨env, rfl⟩, hins⟩ := partSortAdd_new hcurr hfresh hadd
    cases r₁ with
    | none =>
      obtain ⟨m₂, hdel, heq⟩ := Option.bind_eq_some_iff.mp h
      cases heq
      refine ⟨?_, fun dev' h => by cases h⟩
      unfold deviceDel at hdel
      have hfilter : m.devices.filter (fun d => decide (d.addr ≠ dev.addr)) = m.devices :=
        List.filter_eq_self.mpr fun d hd => decide_eq_true (hfresh d hd)
      dsimp only at hdel
      rw [if_neg hcurr, hfilter] at hdel
      obtain ⟨env', rfl⟩ := indexPartitions_frame hdel
      exact ⟨env', rfl⟩
    | some dev₁ =>
      obtain ⟨l, o, hinsert, rfl⟩ := hins dev₁ rfl
      have hperm := insertPart_perm hinsert
      rw [List.map_cons] at haddr
      rw [List.length_cons] at hroom
      have hdisj := List.nodup_append.mp haddr
      have hnew : part.addr ∉ dev.parts.map Part.addr := by
        intro hmem
        exact hdisj.2.2 _ hmem _ List.mem_cons_self rfl
      have hok := hdev.insert hinsert (hvalid part List.mem_cons_self) hnew (by omega)
      have hlen : l.length = dev.parts.length + 1 := hperm.length_eq
      have hnext : (l.map Part.addr ++ parts.map Part.addr).Nodup := by
        rw [((hperm.map Part.addr).append_right _).nodup_iff]
        exact (List.perm_middle.nodup_iff).mp haddr
      obtain ⟨⟨env', rfl⟩, hres⟩ := @ih { m with env := env }
        { dev with parts := l, numParts := dev.numParts + 1 } hcurr hfresh hok.toFits
        (fun p hp => hvalid p (List.mem_cons_of_mem _ hp)) hnext (by dsimp only; omega)
        (Or.inl hok.nonempty) h
      exact ⟨⟨env', rfl⟩, hres⟩

/-- The addresses of the devices have been given. -/
def Fresh (m : Mtd E) : Prop := ∀ dev ∈ m.devices, dev.addr < m.next

theorem deviceParse_ok {r : Option (Device × Bytes)} (hcurr : m.currentMtdDev = none)
    (hfresh : Fresh m) (hlen : s.length < 2 ^ 16) (h : deviceParse flash m s = some (r, m')) :
    ∃ env next, m' = { m with env := env, next := next } ∧ m.next ≤ next ∧
      ∀ dev rest, r = some (dev, rest) →
        dev.Ok flash ∧ m.next ≤ dev.addr ∧ dev.addr < next ∧ rest.length < s.length := by
  unfold deviceParse at h
  split at h
  · cases h
    exact ⟨m.env, m.next, rfl, le_rfl, fun dev rest h => by cases h⟩
  · cases h
    exact ⟨m.env, m.next, rfl, le_rfl, fun dev rest h => by cases h⟩
  · rename_i c p id hspan hid
    obtain ⟨offset, -, h⟩ := Option.bind_eq_some_iff.mp h
    cases hparts : parseParts flash id p.length p offset m.next with
    | none =>
      rw [hparts] at h
      cases h
      exact ⟨m.env, m.next, rfl, le_rfl, fun dev rest h => by cases h⟩
    | some found =>
      obtain ⟨parts, p'⟩ := found
      rw [hparts] at h
      dsimp only at h
      split at h
      · cases h
        exact ⟨m.env, m.next, rfl, le_rfl, fun dev rest h => by cases h⟩
      obtain ⟨hvalid, hne, hused⟩ := parseParts_valid hparts
      have hp : p.length < s.length := by
        have hdrop := (List.dropWhile_sublist (fun c : UInt8 => decide (c ≠ 0x3A))
          (l := s)).length_le
        rw [hspan, List.length_cons] at hdrop
        omega
      have haddr : (([] : List Nat) ++ parts.map Part.addr).Nodup := by
        rw [List.nil_append, parseParts_addr hparts]
        exact List.nodup_range' _
      obtain ⟨⟨r₁, m₁⟩, hadd, h⟩ := Option.bind_eq_some_iff.mp h
      obtain ⟨⟨env, rfl⟩, hres⟩ := @addParts_new E _ flash
        { m with next := m.next + parts.length + 1 } m₁ ⟨m.next + parts.length, id, 0, []⟩ parts
        r₁ (by rw [hcurr]; nofun) (fun d hd => by have := hfresh d hd; dsimp only; omega)
        ⟨⟨rfl, List.Pairwise.nil, List.nodup_nil⟩, Nat.zero_le _, fun p hp => by cases hp⟩ hvalid
        haddr (by dsimp only [List.length_nil]; omega) (Or.inr hne) hadd
      cases r₁ with
      | none =>
        cases h
        exact ⟨env, m.next + parts.length + 1, rfl, by omega, fun dev rest h => by cases h⟩
      | some dev₁ =>
        cases h
        refine ⟨env, m.next + parts.length + 1, rfl, by omega, ?_⟩
        intro dev rest h
        cases h
        obtain ⟨hok, -, haddr'⟩ := hres dev₁ rfl
        dsimp only at haddr'
        refine ⟨hok, by omega, by omega, ?_⟩
        split
        · rw [List.length_tail]
          omega
        · omega

/-- The devices that are parsed are put behind those that have been. -/
theorem parseDevices_ok {rc : Bool} (hcurr : m.currentMtdDev = none) (hfresh : Fresh m)
    (hok : DevicesOk flash m.devices) (hlen : s.length < 2 ^ 16)
    (h : parseDevices flash fuel s m = some (rc, m')) :
    DevicesOk flash m'.devices ∧ m'.currentMtdDev = none ∧ (rc = false ↔ m'.devices = []) := by
  have hnil : DevicesOk flash [] := ⟨fun dev h => (by cases h), List.Pairwise.nil, List.nodup_nil⟩
  induction fuel generalizing m s with
  | zero =>
    cases h
    exact ⟨hnil, hcurr, by simp⟩
  | succ fuel ih =>
    rw [parseDevices] at h
    obtain ⟨⟨r, m₁⟩, hparse, h⟩ := Option.bind_eq_some_iff.mp h
    obtain ⟨env, next, rfl, hnext, hdev⟩ := deviceParse_ok hcurr hfresh hlen hparse
    cases r with
    | none =>
      cases h
      exact ⟨hnil, hcurr, by simp⟩
    | some found =>
      obtain ⟨dev, rest⟩ := found
      obtain ⟨hdevOk, hge, hlt, hrest⟩ := hdev dev rest rfl
      dsimp only at h
      split at h
      · cases h
        exact ⟨hnil, hcurr, by simp⟩
      rename_i hnew
      have hadded : DevicesOk flash (m.devices ++ [dev]) := by
        refine ⟨?_, ?_, ?_⟩
        · intro d hd
          rcases List.mem_append.mp hd with hd | hd
          · exact hok.ok d hd
          · rw [List.mem_singleton.mp hd]
            exact hdevOk
        · refine List.pairwise_append.mpr ⟨hok.distinct, List.pairwise_singleton _ _, ?_⟩
          intro d hd d' hd' hsame
          rw [List.mem_singleton.mp hd'] at hsame
          have hnone : deviceFind m.devices dev.id.type dev.id.num = none :=
            Option.not_isSome_iff_eq_none.mp hnew
          exact List.find?_eq_none.mp hnone d hd (decide_eq_true hsame)
        · rw [List.map_append, List.nodup_append]
          refine ⟨hok.nodup, List.nodup_singleton _, ?_⟩
          intro a ha b hb hab
          obtain ⟨d, hd, rfl⟩ := List.mem_map.mp ha
          rw [List.mem_singleton.mp hb] at hab
          have := hfresh d hd
          omega
      split at h
      · cases h
        exact ⟨hadded, hcurr, by simp⟩
      · refine @ih { m with env := env, next := next, devices := m.devices ++ [dev] } rest hcurr ?_
          hadded (by omega) h
        intro d hd
        rcases List.mem_append.mp hd with hd | hd
        · exact (hfresh d hd).trans_le hnext
        · rw [List.mem_singleton.mp hd]
          exact hlt

theorem mtdDevicesInit_frame (h : mtdDevicesInit m = some m') :
    ∃ env, m' = { m with
      env := env, lastParts := [], lastPartition := [], currentMtdDev := none, devices := [] } := by
  unfold mtdDevicesInit at h
  obtain ⟨m₁, hsave, heq⟩ := Option.bind_eq_some_iff.mp h
  cases heq
  rw [currentSave] at hsave
  dsimp only at hsave
  obtain ⟨env, rfl⟩ := indexPartitions_frame hsave
  exact ⟨env, rfl⟩

theorem parseMtdparts_ok {rc : Bool} {m₀ : Mtd E} (hinit : mtdDevicesInit m = some m₀)
    (hget : Environment.getenv m₀.env (str "mtdparts") = some s)
    (hlen : s.length ≤ mtdpartsMaxlen - 1) (h : parseMtdparts flash m = some (rc, m')) :
    DevicesOk flash m'.devices ∧ m'.currentMtdDev = none ∧ (rc = false ↔ m'.devices = []) := by
  have hmax : mtdpartsMaxlen = 512 := rfl
  have hnil : DevicesOk flash [] := ⟨fun dev h => (by cases h), List.Pairwise.nil, List.nodup_nil⟩
  unfold parseMtdparts at h
  rw [hinit, Option.bind_eq_bind, Option.bind_some, hget, Option.bind_eq_bind,
    Option.bind_some] at h
  obtain ⟨env, rfl⟩ := mtdDevicesInit_frame hinit
  split at h
  · refine parseDevices_ok rfl (fun d hd => by cases hd) hnil ?_ h
    rw [List.length_drop]
    omega
  · cases h
    exact ⟨hnil, rfl, by simp⟩

/-- A partition less. -/
theorem Device.Listed.erase {q : Part} (h : dev.Listed) (hq : q ∈ dev.parts)
    (haddr : q.addr = part.addr) :
    ({ dev with parts := dev.parts.eraseP fun p => p.addr = part.addr,
                numParts := dev.numParts - 1 } : Device).Listed := by
  have hsub := List.eraseP_sublist (p := fun p : Part => decide (p.addr = part.addr))
    (l := dev.parts)
  have hlen := List.length_eraseP_of_mem (p := fun p : Part => decide (p.addr = part.addr)) hq
    (decide_eq_true haddr)
  have hpos := List.length_pos_of_mem hq
  refine ⟨?_, h.sorted.sublist hsub, h.nodup.sublist (hsub.map Part.addr)⟩
  show (dev.numParts - 1).toNat = (dev.parts.eraseP _).length
  have hcount := h.numParts
  have hle : (1 : UInt16) ≤ dev.numParts := by
    rw [UInt16.le_iff_toNat_le, hcount]
    exact hpos
  rw [UInt16.toNat_sub_of_le _ _ hle, hcount, hlen]
  rfl

theorem Device.Ok.erase {q : Part} (h : dev.Ok flash) (hq : q ∈ dev.parts)
    (haddr : q.addr = part.addr) (hmany : dev.numParts ≠ 1) :
    ({ dev with parts := dev.parts.eraseP fun p => p.addr = part.addr,
                numParts := dev.numParts - 1 } : Device).Ok flash := by
  have hsub := List.eraseP_sublist (p := fun p : Part => decide (p.addr = part.addr))
    (l := dev.parts)
  have hlen := List.length_eraseP_of_mem (p := fun p : Part => decide (p.addr = part.addr)) hq
    (decide_eq_true haddr)
  refine ⟨⟨h.toListed.erase hq haddr, hsub.countP_le.trans h.atZero,
    fun p hp => h.valid p (hsub.mem hp)⟩, ?_⟩
  show dev.parts.eraseP _ ≠ []
  intro hnil
  rw [hnil] at hlen
  apply hmany
  rw [← UInt16.toNat_inj, h.numParts]
  have hpos := List.length_pos_of_mem hq
  show dev.parts.length = 1
  rw [List.length_nil] at hlen
  omega

theorem deviceDel_devices (h : deviceDel m dev = some m') :
    m'.devices = m.devices.filter fun d => d.addr ≠ dev.addr := by
  unfold deviceDel at h
  dsimp only at h
  split at h
  · split at h
    · obtain ⟨env, last, rfl⟩ := currentSave_frame h
      rfl
    · obtain ⟨env, last, rfl⟩ := currentSave_frame h
      rfl
  · obtain ⟨env, rfl⟩ := indexPartitions_frame h
    rfl

/-- What `part_del` leaves of the lists. -/
theorem partDel_devices (h : partDel m dev part = some m') :
    if dev.numParts = 1 then m'.devices = m.devices.filter fun d => d.addr ≠ dev.addr
    else m'.devices = (m.update { dev with
      parts := dev.parts.eraseP fun p => p.addr = part.addr,
      numParts := dev.numParts - 1 }).devices := by
  unfold partDel at h
  split
  · rename_i hone
    rw [if_pos hone] at h
    exact deviceDel_devices h
  · rename_i hmany
    rw [if_neg hmany] at h
    dsimp only at h
    split at h
    · obtain ⟨env, last, rfl⟩ := currentSave_frame h
      rfl
    · obtain ⟨env, rfl⟩ := indexPartitions_frame h
      rfl

omit [Environment E] in
/-- A device of the list is replaced by one with its type, its number and its address. -/
theorem DevicesOk.update (h : DevicesOk flash m.devices) (hdev : dev ∈ m.devices)
    (hok : dev'.Ok flash) (haddr : dev'.addr = dev.addr) (hid : dev'.id = dev.id) :
    DevicesOk flash (m.update dev').devices := by
  have hsame : ∀ d ∈ m.devices, d.addr = dev'.addr → d = dev := by
    intro d hd heq
    exact List.inj_on_of_nodup_map h.nodup hd hdev (heq.trans haddr)
  refine ⟨?_, ?_, ?_⟩
  · intro d hd
    obtain ⟨d₀, hd₀, rfl⟩ := List.mem_map.mp hd
    split
    · exact hok
    · exact h.ok d₀ hd₀
  · show (m.devices.map _).Pairwise _
    rw [List.pairwise_map]
    refine h.distinct.imp_of_mem ?_
    intro a b ha hb hne
    have hida : (if a.addr = dev'.addr then dev' else a).id = a.id := by
      split
      · rename_i heq
        rw [hid, hsame a ha heq]
      · rfl
    have hidb : (if b.addr = dev'.addr then dev' else b).id = b.id := by
      split
      · rename_i heq
        rw [hid, hsame b hb heq]
      · rfl
    rw [hida, hidb]
    exact hne
  · show ((m.devices.map _).map Device.addr).Nodup
    rw [List.map_map]
    have haddrs : m.devices.map (Device.addr ∘ fun d => if d.addr = dev'.addr then dev' else d) =
        m.devices.map Device.addr := by
      refine List.map_congr_left fun d hd => ?_
      show (if d.addr = dev'.addr then dev' else d).addr = d.addr
      split
      · rename_i heq
        exact heq.symm
      · rfl
    rw [haddrs]
    exact h.nodup

theorem partDel_ok (h : DevicesOk flash m.devices) (hdev : dev ∈ m.devices)
    (hpart : part ∈ dev.parts) (hdel : partDel m dev part = some m') :
    DevicesOk flash m'.devices := by
  have hdevices := partDel_devices hdel
  by_cases hone : dev.numParts = 1
  · rw [if_pos hone] at hdevices
    have hsub : m'.devices.Sublist m.devices := by
      rw [hdevices]
      exact List.filter_sublist
    exact ⟨fun d hd => h.ok d (hsub.mem hd), h.distinct.sublist hsub,
      h.nodup.sublist (hsub.map Device.addr)⟩
  · rw [if_neg hone] at hdevices
    rw [hdevices]
    exact h.update hdev ((h.ok dev hdev).erase hpart rfl hone) rfl rfl

/-- A call of `part_del`, whatever is current and in the environment. -/
def DelStep (m m' : Mtd E) : Prop :=
  ∃ env curr partnum, ∃ dev ∈ m.devices, ∃ part ∈ dev.parts,
    partDel { m with env := env, currentMtdDev := curr, currentMtdPartnum := partnum } dev part =
      some m'

/-- **The lists are in order** after `parse_mtdparts` has returned 0, and after every `part_del`
behind it.  `mtdparts_init` has checked the length of the variable. -/
theorem mtdparts_invariant {m₀ m₁ m₂ : Mtd E} (hinit : mtdDevicesInit m = some m₀)
    (hget : Environment.getenv m₀.env (str "mtdparts") = some s)
    (hlen : s.length ≤ mtdpartsMaxlen - 1) (hparse : parseMtdparts flash m = some (true, m₁))
    (hdels : Relation.ReflTransGen DelStep m₁ m₂) : DevicesOk flash m₂.devices := by
  induction hdels with
  | refl => exact (parseMtdparts_ok hinit hget hlen hparse).1
  | @tail m₃ m₄ _ hdel ih =>
    obtain ⟨env, curr, partnum, dev, hdev, part, hpart, hdel⟩ := hdel
    exact @partDel_ok E _ flash
      { m₃ with env := env, currentMtdDev := curr, currentMtdPartnum := partnum } m₄ dev part ih
      hdev hpart hdel

end Lists

/-- Sixteen sectors of 4 KiB. -/
def smallFlash : Flash := fun type num =>
  if type = .nor ∧ num = 0 then
    some ⟨0x10000, 0x1000, [], fun _ => by decide, fun h => absurd rfl h, fun h => absurd rfl h⟩
  else none

/-- `nor0` under its name, and a variable for it. -/
def smallMtd (mtdparts : Bytes) : Mtd VarList :=
  ⟨⟨[(str "mtdparts", mtdparts)]⟩, [⟨.nor, 0, 0x10000, str "flash"⟩], [], none, 0, [], [], [], 0⟩

/-- Two partitions, and one of them is deleted. -/
theorem mtdparts_invariant_small : ∃ m₁ m₂ : Mtd VarList,
    parseMtdparts smallFlash (smallMtd (str "mtdparts=flash:8k,-@16k")) = some (true, m₁) ∧
      DelStep m₁ m₂ ∧ DevicesOk smallFlash m₂.devices := by
  have hvar : ((mtdDevicesInit (smallMtd (str "mtdparts=flash:8k,-@16k"))).bind
      fun m => Environment.getenv m.env (str "mtdparts")) =
        some (str "mtdparts=flash:8k,-@16k") := by decide
  have hdel : ((parseMtdparts smallFlash (smallMtd (str "mtdparts=flash:8k,-@16k"))).any
      fun r => r.1 && r.2.devices.any fun dev => dev.parts.any fun part =>
        (partDel r.2 dev part).isSome) = true := by decide
  obtain ⟨m₀, hinit, hget⟩ := Option.bind_eq_some_iff.mp hvar
  cases hparse : parseMtdparts smallFlash (smallMtd (str "mtdparts=flash:8k,-@16k")) with
  | none =>
    rw [hparse] at hdel
    cases hdel
  | some r =>
    obtain ⟨rc, m₁⟩ := r
    rw [hparse] at hdel
    obtain ⟨hrc, hany⟩ := Bool.and_eq_true_iff.mp hdel
    obtain ⟨dev, hdev, hany⟩ := List.any_eq_true.mp hany
    obtain ⟨part, hpart, hsome⟩ := List.any_eq_true.mp hany
    obtain ⟨m₂, hm₂⟩ := Option.isSome_iff_exists.mp hsome
    cases hrc
    have hstep : DelStep m₁ m₂ :=
      ⟨m₁.env, m₁.currentMtdDev, m₁.currentMtdPartnum, dev, hdev, part, hpart, hm₂⟩
    exact ⟨m₁, m₂, rfl, hstep, mtdparts_invariant hinit hget (by decide) hparse
      (Relation.ReflTransGen.single hstep)⟩

end UBoot.Common.Mtdparts
