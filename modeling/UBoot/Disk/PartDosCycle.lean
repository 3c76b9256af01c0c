import UBoot.Disk.PartDosSpec
import UBoot.Lib.Orbit
import Mathlib.Data.Finite.Prod
import Mathlib.Order.Interval.Finset.Defs
import Mathlib.Data.Int.Interval

/-!
# Chains of tables that go round

Nothing in `get_partition_info_extended` looks whether it has read a table before, and the place of
the next one comes from the disk.  So a chain of tables may come back to a sector, with the same
sector for its relative entries, and then it goes round for ever; with 32 bits for each of the two
this is the only way not to come to an end.  The search ends all the same if one of the tables has
the partition (`getPartitionInfoDos_ends_iff`).

The number of a partition is an `int` that grows along the chain.  It does not get out of its range
as long as the calls fit on any stack.
-/

namespace UBoot.Disk

open UBoot.Lib

/-- Where the search goes on behind the table of a sector: the next sector, and the one that
relative entries count from. -/
def nextTable (dev : BlockDevDesc) (s : Int × Int) : Option (Int × Int) :=
  match dev.blockRead (toUlong s.1) with
  | none => none
  | some buffer =>
    if buffer.getD 0x1fe 0 ≠ 0x55 ∨ buffer.getD 0x1ff 0 ≠ 0xaa then none
    else
      ((table buffer).find? fun p => isExtended p.sysInd).map fun p =>
        (lbaStart p s.2, if s.1 = 0 then lbaStart p s.2 else s.2)

/-- A sector is read, and it has the signature of a table. -/
structure HasTable (dev : BlockDevDesc) (ext : Int) (buffer : Bytes) : Prop where
  read : dev.blockRead (toUlong ext) = some buffer
  first : buffer.getD 0x1fe 0 = 0x55
  second : buffer.getD 0x1ff 0 = 0xaa

/-- A partition of the table has the number, and a boot indicator that the search accepts. -/
def Hits (ext n which : Int) (ps : List DosPartition) : Prop :=
  ∃ p, (which, p) ∈ numbered ext n ps ∧ p.bootInd &&& ~~~0x80 = 0

/-- A table of the chain has the partition. -/
inductive Found (dev : BlockDevDesc) (which : Int) : Int → Int → Int → Prop
  | here {ext rel n : Int} {buffer : Bytes} (sector : HasTable dev ext buffer)
      (hit : Hits ext n which (table buffer)) : Found dev which ext rel n
  | later {ext rel n ext' rel' : Int} {buffer : Bytes} (sector : HasTable dev ext buffer)
      (next : nextTable dev (ext, rel) = some (ext', rel'))
      (found : Found dev which ext' rel' (lastNum ext n (table buffer))) : Found dev which ext rel n

section Search

variable {dev : BlockDevDesc} {ext rel n which : Int} {ps : List DosPartition} {buffer : Bytes}

/-! ## One table -/

theorem hits_cons {p : DosPartition} :
    Hits ext n which (p :: ps) ↔
      (p.isPart = true ∧ n = which ∧ p.bootInd &&& ~~~0x80 = 0) ∨
        Hits ext (nextPartNum p ext n) which ps := by
  rw [Hits, numbered]
  by_cases hpart : p.isPart = true
  · rw [if_pos hpart]
    constructor
    · rintro ⟨q, hq, hboot⟩
      rcases List.mem_cons.mp hq with heq | hmem
      · cases heq
        exact .inl ⟨hpart, rfl, hboot⟩
      · exact .inr ⟨q, hmem, hboot⟩
    · rintro (⟨-, rfl, hboot⟩ | ⟨q, hmem, hboot⟩)
      · exact ⟨p, List.mem_cons_self, hboot⟩
      · exact ⟨q, List.mem_cons_of_mem _ hmem, hboot⟩
  · rw [if_neg hpart]
    constructor
    · exact .inr
    · rintro (⟨hyes, -⟩ | hrest)
      · exact absurd hyes hpart
      · exact hrest

/-- The search in a table gives the partition, or the number behind the table. -/
theorem findPart_cases (dev : BlockDevDesc) (ext n which : Int) (ps : List DosPartition) :
    (Hits ext n which ps ∧ ∃ info, findPart dev ext which n ps = .inl info) ∨
      (¬ Hits ext n which ps ∧ findPart dev ext which n ps = .inr (lastNum ext n ps)) := by
  induction ps generalizing n with
  | nil =>
    refine .inr ⟨?_, rfl⟩
    rintro ⟨p, hp, -⟩
    cases hp
  | cons p ps ih =>
    have hlast : lastNum ext n (p :: ps) = lastNum ext (nextPartNum p ext n) ps := rfl
    rw [findPart, hlast, hits_cons]
    by_cases hhere : p.isPart = true ∧ n = which ∧ p.bootInd &&& ~~~0x80 = 0
    · obtain ⟨hpart, hnum, hboot⟩ := hhere
      obtain ⟨hsys, hext⟩ := isPart_iff.mp hpart
      rw [if_pos ⟨hboot, hsys, hnum, hext⟩]
      exact .inl ⟨.inl ⟨hpart, hnum, hboot⟩, _, rfl⟩
    · have hno : ¬ (p.bootInd &&& ~~~0x80 = 0 ∧ p.sysInd ≠ 0 ∧ n = which ∧
          isExtended p.sysInd = false) := by
        rintro ⟨hboot, hsys, hnum, hext⟩
        exact hhere ⟨isPart_iff.mpr ⟨hsys, hext⟩, hnum, hboot⟩
      rw [if_neg hno]
      rcases ih (nextPartNum p ext n) with ⟨hhit, hfind⟩ | ⟨hmiss, hfind⟩
      · exact .inl ⟨.inr hhit, hfind⟩
      · refine .inr ⟨?_, hfind⟩
        rintro (hyes | hyes)
        · exact hhere hyes
        · exact hmiss hyes

/-! ## The search -/

theorem hasTable_unique {b : Bytes} (h : HasTable dev ext buffer) (h' : HasTable dev ext b) :
    b = buffer := Option.some.inj (h'.read.symm.trans h.read)

theorem noTable_signature (h : ∀ buffer, ¬ HasTable dev ext buffer)
    (hread : dev.blockRead (toUlong ext) = some buffer) :
    buffer.getD 0x1fe 0 ≠ 0x55 ∨ buffer.getD 0x1ff 0 ≠ 0xaa := by
  by_contra hnot
  rw [not_or, not_not, not_not] at hnot
  exact h buffer ⟨hread, hnot.1, hnot.2⟩

/-- A sector without a table ends the search. -/
theorem get_noTable (h : ∀ buffer, ¬ HasTable dev ext buffer) (depth : Nat) :
    getPartitionInfoExtended dev which (depth + 1) ext rel n = some none := by
  rw [getPartitionInfoExtended]
  cases hread : dev.blockRead (toUlong ext) with
  | none => rfl
  | some buffer => exact if_pos (noTable_signature h hread)

theorem nextTable_noTable (h : ∀ buffer, ¬ HasTable dev ext buffer) :
    nextTable dev (ext, rel) = none := by
  rw [nextTable]
  cases hread : dev.blockRead (toUlong ext) with
  | none => rfl
  | some buffer => exact if_pos (noTable_signature h hread)

theorem HasTable.signature (h : HasTable dev ext buffer) :
    ¬ (buffer.getD 0x1fe 0 ≠ 0x55 ∨ buffer.getD 0x1ff 0 ≠ 0xaa) := by
  rintro (hfirst | hsecond)
  · exact hfirst h.first
  · exact hsecond h.second

theorem nextTable_eq (h : HasTable dev ext buffer) :
    nextTable dev (ext, rel) = ((table buffer).find? fun p => isExtended p.sysInd).map fun p =>
      (lbaStart p rel, if ext = 0 then lbaStart p rel else rel) := by
  rw [nextTable, h.read]
  exact if_neg h.signature

theorem get_hit (h : HasTable dev ext buffer) (hhit : Hits ext n which (table buffer))
    (depth : Nat) :
    ∃ info, getPartitionInfoExtended dev which (depth + 1) ext rel n = some (some info) := by
  rcases findPart_cases dev ext n which (table buffer) with ⟨-, info, hfind⟩ | ⟨hmiss, -⟩
  · refine ⟨info, ?_⟩
    rw [getPartitionInfoExtended, h.read]
    simp only [if_neg h.signature, hfind]
  · exact absurd hhit hmiss

/-- Without the partition in its table the search goes on with the next one, if there is one. -/
theorem get_miss (h : HasTable dev ext buffer) (hmiss : ¬ Hits ext n which (table buffer))
    (depth : Nat) :
    getPartitionInfoExtended dev which (depth + 1) ext rel n =
      match nextTable dev (ext, rel) with
      | none => some none
      | some s =>
        getPartitionInfoExtended dev which depth s.1 s.2 (lastNum ext n (table buffer)) := by
  rcases findPart_cases dev ext n which (table buffer) with ⟨hhit, -⟩ | ⟨-, hfind⟩
  · exact absurd hhit hmiss
  · rw [getPartitionInfoExtended, h.read, nextTable_eq h]
    simp only [if_neg h.signature, hfind]
    cases (table buffer).find? fun p => isExtended p.sysInd <;> rfl

/-- The search comes to an end if it does so from the next table on. -/
theorem get_ends_of_next
    (h : ∀ {buffer t}, HasTable dev ext buffer → nextTable dev (ext, rel) = some t →
      ∃ depth r, getPartitionInfoExtended dev which depth t.1 t.2 (lastNum ext n (table buffer)) =
        some r) :
    ∃ depth r, getPartitionInfoExtended dev which depth ext rel n = some r := by
  by_cases htable : ∃ buffer, HasTable dev ext buffer
  · obtain ⟨buffer, hsector⟩ := htable
    by_cases hhit : Hits ext n which (table buffer)
    · obtain ⟨info, hget⟩ := get_hit hsector hhit 0
      exact ⟨1, some info, hget⟩
    · cases hnext : nextTable dev (ext, rel) with
      | none =>
        refine ⟨1, none, ?_⟩
        rw [get_miss hsector hhit, hnext]
      | some t =>
        obtain ⟨depth, r, hget⟩ := h hsector hnext
        refine ⟨depth + 1, r, ?_⟩
        rw [get_miss hsector hhit, hnext]
        exact hget
  · exact ⟨1, none, get_noTable (fun buffer hsector => htable ⟨buffer, hsector⟩) 0⟩

theorem ends_of_stops {s : Int × Int} (h : Stops (nextTable dev) s) :
    ∀ n, ∃ depth r, getPartitionInfoExtended dev which depth s.1 s.2 n = some r := by
  refine h.induct (motive := fun s => ∀ n, ∃ depth r,
    getPartitionInfoExtended dev which depth s.1 s.2 n = some r) ?_ ?_
  · intro s hnone n
    refine get_ends_of_next fun _ hnext => ?_
    rw [hnone] at hnext
    cases hnext
  · intro s t hst _ ih n
    refine get_ends_of_next fun _ hnext => ?_
    rw [hst] at hnext
    cases hnext
    exact ih _

theorem ends_of_found (h : Found dev which ext rel n) :
    ∃ depth r, getPartitionInfoExtended dev which depth ext rel n = some r := by
  induction h with
  | here hsector hhit =>
    obtain ⟨info, hget⟩ := get_hit hsector hhit 0
    exact ⟨1, some info, hget⟩
  | later hsector hst _ ih =>
    refine get_ends_of_next fun hsector' hnext => ?_
    rw [hst] at hnext
    cases hnext
    rw [hasTable_unique hsector hsector']
    exact ih

/-- The search comes to an end where the chain does, and where it finds the partition. -/
theorem get_ends_iff :
    (∃ depth r, getPartitionInfoExtended dev which depth ext rel n = some r) ↔
      Stops (nextTable dev) (ext, rel) ∨ Found dev which ext rel n := by
  constructor
  · rintro ⟨depth, r, hget⟩
    induction depth generalizing ext rel n with
    | zero => cases hget
    | succ depth ih =>
      by_cases htable : ∃ buffer, HasTable dev ext buffer
      · obtain ⟨buffer, hsector⟩ := htable
        by_cases hhit : Hits ext n which (table buffer)
        · exact .inr (.here hsector hhit)
        · rw [get_miss hsector hhit] at hget
          cases hnext : nextTable dev (ext, rel) with
          | none => exact .inl (stops_of_none hnext)
          | some s =>
            rw [hnext] at hget
            rcases ih hget with hstops | hfound
            · exact .inl ((stops_iff_of_some hnext).mpr hstops)
            · exact .inr (.later hsector hnext hfound)
      · have hnone := @nextTable_noTable dev ext rel fun buffer hsector => htable ⟨buffer, hsector⟩
        exact .inl (stops_of_none hnone)
  · rintro (hstops | hfound)
    · exact ends_of_stops hstops n
    · exact ends_of_found hfound

/-! ## Sectors of 32 bits -/

/-- The values of an `int`. -/
def ints : Set Int := Set.Ico (-2 ^ 31) (2 ^ 31)

theorem toInt32_mem (x : Int) : toInt32 x ∈ ints := by
  have hlow : -(2 ^ 32 / 2 : Int) ≤ x.bmod (2 ^ 32) := Int.le_bmod (by decide)
  have hhigh : x.bmod (2 ^ 32) < (2 ^ 32 + 1) / 2 := Int.bmod_lt (by decide)
  exact ⟨by rw [toInt32]; omega, by rw [toInt32]; omega⟩

theorem nextTable_mem {s t : Int × Int} (hs : s ∈ ints ×ˢ ints) (h : nextTable dev s = some t) :
    t ∈ ints ×ˢ ints := by
  by_cases htable : ∃ buffer, HasTable dev s.1 buffer
  · obtain ⟨buffer, hsector⟩ := htable
    rw [nextTable_eq hsector, Option.map_eq_some_iff] at h
    obtain ⟨p, -, rfl⟩ := h
    refine ⟨toInt32_mem _, ?_⟩
    dsimp only
    split_ifs
    · exact toInt32_mem _
    · exact hs.2
  · rw [nextTable_noTable fun buffer hsector => htable ⟨buffer, hsector⟩] at h
    cases h

theorem orbit_mem (dev : BlockDevDesc) (k : Nat) {s : Int × Int}
    (h : orbit (nextTable dev) (0, 0) k = some s) : s ∈ ints ×ˢ ints :=
  orbit_inv ⟨⟨by decide, by decide⟩, ⟨by decide, by decide⟩⟩
    (fun _ _ _ _ ht hnext => nextTable_mem ht hnext) k s h

end Search

/-- For every disk and every number the search comes to an end if the chain of tables does not come
back to a sector and base that it has passed; and otherwise if one of its tables has the
partition. -/
theorem getPartitionInfoDos_ends_iff (dev : BlockDevDesc) (part : Int) :
    (∃ depth r, getPartitionInfoDos dev part depth = some r) ↔
      ¬ Returns (nextTable dev) (0, 0) ∨ Found dev part 0 0 1 := by
  have hfin : (ints ×ˢ ints).Finite := Set.Finite.prod (Set.finite_Ico _ _) (Set.finite_Ico _ _)
  rw [← stops_iff_not_returns hfin fun k s => orbit_mem dev k]
  exact get_ends_iff

/-- Behind the first table stands one whose extended partition is the table itself. -/
def roundDisk : BlockDevDesc where
  ifType := .other
  dev := 0
  lba := 4096
  blockRead sector :=
    if sector = 0 then some (sectorWith [(0x05, 1000, 500), (0, 0, 0), (0, 0, 0), (0, 0, 0)])
    else some (sectorWith [(0x05, 0, 500), (0, 0, 0), (0, 0, 0), (0, 0, 0)])

/-- A table with an extended partition only. -/
theorem extended_only {ps : List DosPartition} {start size : Nat}
    (h : ps = tableOf [(0x05, start, size), (0, 0, 0), (0, 0, 0), (0, 0, 0)]) (ext n which : Int) :
    ¬ Hits ext n which ps := by
  rintro ⟨p, hp, -⟩
  have hnone : numbered ext n (tableOf [(0x05, start, size), (0, 0, 0), (0, 0, 0), (0, 0, 0)]) =
      [] := rfl
  rw [h, hnone] at hp
  cases hp

/-- No number of calls is enough for partition 5. -/
theorem getPartitionInfoDos_round : (∀ sector, (roundDisk.blockRead sector).isSome) ∧
    ∀ depth, getPartitionInfoDos roundDisk 5 depth = none := by
  constructor
  · intro sector
    rw [roundDisk]
    dsimp only
    split_ifs <;> rfl
  · have hfirstTable : table (sectorWith [(0x05, 1000, 500), (0, 0, 0), (0, 0, 0), (0, 0, 0)]) =
        tableOf [(0x05, 1000, 500), (0, 0, 0), (0, 0, 0), (0, 0, 0)] :=
      table_sectorWith rfl (by decide)
    have hroundTable : table (sectorWith [(0x05, 0, 500), (0, 0, 0), (0, 0, 0), (0, 0, 0)]) =
        tableOf [(0x05, 0, 500), (0, 0, 0), (0, 0, 0), (0, 0, 0)] :=
      table_sectorWith rfl (by decide)
    have hfirst : HasTable roundDisk 0
        (sectorWith [(0x05, 1000, 500), (0, 0, 0), (0, 0, 0), (0, 0, 0)]) :=
      ⟨rfl, mark_sectorWith rfl 0, mark_sectorWith rfl 1⟩
    have hround : HasTable roundDisk 1000
        (sectorWith [(0x05, 0, 500), (0, 0, 0), (0, 0, 0), (0, 0, 0)]) :=
      ⟨rfl, mark_sectorWith rfl 0, mark_sectorWith rfl 1⟩
    have hnever : ∀ depth n, getPartitionInfoExtended roundDisk 5 depth 1000 1000 n = none := by
      have hself : nextTable roundDisk (1000, 1000) = some (1000, 1000) := by
        rw [nextTable_eq hround, hroundTable]
        decide
      intro depth
      induction depth with
      | zero => exact fun _ => rfl
      | succ depth ih =>
        intro n
        rw [get_miss hround (extended_only hroundTable _ _ _), hself]
        exact ih _
    have hnext : nextTable roundDisk (0, 0) = some (1000, 1000) := by
      rw [nextTable_eq hfirst, hfirstTable]
      decide
    intro depth
    cases depth with
    | zero => rfl
    | succ depth =>
      rw [getPartitionInfoDos, get_miss hfirst (extended_only hfirstTable _ _ _), hnext]
      exact hnever depth _

end UBoot.Disk
