import UBoot.Disk.PartDos
import Mathlib.Data.List.Nodup

/-!
# Listing and lookup agree

The tables of a disk stand in a chain (`Chain`), and their partitions have numbers: the slot for
those of the first table, and from 5 on in the order of the chain for the others (`expected`).  Both
functions number them so.

`print_part_dos` prints a sector number and a size as an `int`, and `get_partition_info_dos` gives
them as an `ulong`.  `parts_agree`: they agree if both are below 2^31 for all partitions, and only
then.
-/

namespace UBoot.Disk

open UBoot.Lib

/-! ## Disks -/

/-- A partition sector of a well-formed disk: one with a table, and with one link at most. -/
structure WellFormed (buffer : Bytes) : Prop where
  mbr : testBlockType buffer = .mbr
  boot : ∀ p ∈ table buffer, p.bootInd = 0 ∨ p.bootInd = 0x80
  extended : ((table buffer).filter fun p => isExtended p.sysInd).length ≤ 1

/-- A table with the sector in which it stands. -/
abbrev Table := Int × List DosPartition

/-- The tables from one on, with the sector that extended partitions are relative to. -/
inductive Chain (dev : BlockDevDesc) : Int → Int → List Table → Prop
  | last {ext rel : Int} {buffer : Bytes} (read : dev.blockRead (toUlong ext) = some buffer)
      (wf : WellFormed buffer) (none : (table buffer).find? (fun p => isExtended p.sysInd) = none) :
      Chain dev ext rel [(ext, table buffer)]
  | next {ext rel : Int} {buffer : Bytes} {p : DosPartition} {tables : List Table}
      (read : dev.blockRead (toUlong ext) = some buffer) (wf : WellFormed buffer)
      (some : (table buffer).find? (fun p => isExtended p.sysInd) = some p)
      (ne : lbaStart p rel ≠ 0)
      (below : Chain dev (lbaStart p rel) (if ext = 0 then lbaStart p rel else rel) tables) :
      Chain dev ext rel ((ext, table buffer) :: tables)

/-! ## Numbers -/

/-- Numbers one after the other. -/
def numberFrom {α : Type} : Int → List α → List (Int × α)
  | _, [] => []
  | n, x :: xs => (n, x) :: numberFrom (n + 1) xs

/-- The absolute start and the size of a partition. -/
def place (ext : Int) (p : DosPartition) : Nat × Nat := (toUlong ext + p.start4, p.size4)

/-- The partitions of a table that are neither empty nor extended. -/
def parts (t : Table) : List (Nat × Nat) := (t.2.filter DosPartition.isPart).map (place t.1)

/-- The partitions of a disk, with their numbers. -/
def expected : List Table → List (Int × Nat × Nat)
  | [] => []
  | mbr :: tables =>
    ((numberFrom 1 mbr.2).filter fun x => x.2.isPart).map (fun x => (x.1, place mbr.1 x.2)) ++
      numberFrom 5 (tables.flatMap parts)

/-- The partitions that are listed and not extended: number, start and size. -/
def listed (lines : List PartLine) : List (Int × Int × Int) := lines.filterMap fun
  | .partition num start size sysInd =>
    if isExtended sysInd then none else some (num, start, size)
  | _ => none

/-! ## Listing and lookup -/

/-- Listing and lookup agree, and the numbers are the expected ones. -/
structure PartsAgree (dev : BlockDevDesc) (tables : List Table) (lines : List PartLine) :
    Prop where
  prints : ∃ depth, printPartDos dev depth = some lines
  returns : ∀ part, ∃ depth r, getPartitionInfoDos dev part depth = some r
  lookup : ∀ part s z, (∃ depth info, getPartitionInfoDos dev part depth = some (some info) ∧
    info.start = s ∧ info.size = z) ↔ (part, (s : Int), (z : Int)) ∈ listed lines
  nodup : ((listed lines).map Prod.fst).Nodup
  numbers : listed lines = (expected tables).map fun x => (x.1, (x.2.1 : Int), (x.2.2 : Int))

/-- Starts and sizes are below 2^31. -/
def FitInt (tables : List Table) : Prop :=
  ∀ t ∈ tables, ∀ x ∈ parts t, x.1 < 2 ^ 31 ∧ x.2 < 2 ^ 31

section Tables

variable {dev : BlockDevDesc} {ext rel n which : Int} {ps : List DosPartition} {p : DosPartition}
  {tables : List Table} {buffer : Bytes} {t : Table}

/-! ## One table -/

/-- The partitions of a table with the numbers that they get. -/
def numbered (ext : Int) : Int → List DosPartition → List (Int × DosPartition)
  | _, [] => []
  | n, p :: ps =>
    if p.isPart then (n, p) :: numbered ext (nextPartNum p ext n) ps
    else numbered ext (nextPartNum p ext n) ps

/-- The number behind the table. -/
def lastNum (ext n : Int) (ps : List DosPartition) : Int :=
  ps.foldl (fun n p => nextPartNum p ext n) n

/-- What is printed for a partition. -/
def printed (ext : Int) (x : Int × DosPartition) : Int × Int × Int :=
  (x.1, toInt32 (ext + x.2.start4), toInt32 x.2.size4)

theorem listed_append {xs ys : List PartLine} : listed (xs ++ ys) = listed xs ++ listed ys :=
  List.filterMap_append

theorem isPart_iff : p.isPart = true ↔ p.sysInd ≠ 0 ∧ isExtended p.sysInd = false := by
  simp [DosPartition.isPart]

theorem printTable_eq : (printTable ext n ps).2 = lastNum ext n ps ∧
    listed (printTable ext n ps).1 = (numbered ext n ps).map (printed ext) := by
  induction ps generalizing n with
  | nil => exact ⟨rfl, rfl⟩
  | cons p ps ih =>
    obtain ⟨hlast, hlines⟩ := ih (n := nextPartNum p ext n)
    rw [printTable, numbered]
    dsimp only
    split
    · rename_i hprinted
      refine ⟨hlast, ?_⟩
      dsimp only
      by_cases hext : isExtended p.sysInd = true
      · have hno : ¬ p.isPart = true := fun h => by
          rw [(isPart_iff.mp h).2] at hext
          cases hext
        rw [if_neg hno, ← hlines]
        exact List.filterMap_cons_none (if_pos hext)
      · have hpart : p.isPart = true := isPart_iff.mpr ⟨hprinted.1, Bool.eq_false_iff.mpr hext⟩
        rw [if_pos hpart, List.map_cons, ← hlines]
        exact List.filterMap_cons_some (if_neg hext)
    · rename_i hprinted
      refine ⟨hlast, ?_⟩
      have hno : ¬ p.isPart = true := fun h =>
        hprinted ⟨(isPart_iff.mp h).1, Or.inr (isPart_iff.mp h).2⟩
      rw [if_neg hno]
      exact hlines

theorem findPart_eq (hboot : ∀ p ∈ ps, p.bootInd = 0 ∨ p.bootInd = 0x80) :
    findPart dev ext which n ps =
      match (numbered ext n ps).find? fun x => x.1 = which with
      | some x => .inl (partInfo dev x.2 ext x.1)
      | none => .inr (lastNum ext n ps) := by
  induction ps generalizing n with
  | nil => rfl
  | cons p ps ih =>
    have hrest := ih (n := nextPartNum p ext n) fun q hq => hboot q (List.mem_cons_of_mem _ hq)
    have hind : p.bootInd &&& ~~~0x80 = 0 := by
      rcases hboot p (List.mem_cons_self ..) with h | h
      · rw [h]
        decide
      · rw [h]
        decide
    have hlast : lastNum ext n (p :: ps) = lastNum ext (nextPartNum p ext n) ps := rfl
    rw [findPart, numbered, hlast]
    by_cases hpart : p.isPart = true
    · obtain ⟨hsys, hext⟩ := isPart_iff.mp hpart
      rw [if_pos hpart]
      by_cases hnum : n = which
      · have hfirst : List.find? (fun x : Int × DosPartition => decide (x.1 = which))
            ((n, p) :: numbered ext (nextPartNum p ext n) ps) = some (n, p) :=
          List.find?_cons_of_pos (decide_eq_true hnum)
        rw [if_pos ⟨hind, hsys, hnum, hext⟩, hfirst]
      · have hbehind : List.find? (fun x : Int × DosPartition => decide (x.1 = which))
            ((n, p) :: numbered ext (nextPartNum p ext n) ps) =
              (numbered ext (nextPartNum p ext n) ps).find? fun x => x.1 = which :=
          List.find?_cons_of_neg (by simpa using hnum)
        rw [if_neg fun h => hnum h.2.2.1, hbehind]
        exact hrest
    · rw [if_neg hpart, if_neg fun h => hpart (isPart_iff.mpr ⟨h.2.1, h.2.2.2⟩)]
      exact hrest

theorem lastNum_zero : lastNum 0 n ps = n + ps.length := by
  induction ps generalizing n with
  | nil => exact (Int.add_zero n).symm
  | cons p ps ih =>
    have hnext : nextPartNum p 0 n = n + 1 := if_pos (Or.inl rfl)
    show lastNum 0 (nextPartNum p 0 n) ps = _
    rw [hnext, ih, List.length_cons]
    omega

/-- In the first table, a partition has the number of its slot. -/
theorem numbered_zero :
    numbered 0 n ps = (numberFrom n ps).filter fun x => x.2.isPart := by
  induction ps generalizing n with
  | nil => rfl
  | cons p ps ih =>
    have hnext : nextPartNum p 0 n = n + 1 := if_pos (Or.inl rfl)
    rw [numbered, hnext, ih, numberFrom, List.filter_cons]

theorem lastNum_of_ne (hext : ext ≠ 0) :
    lastNum ext n ps = n + (ps.filter DosPartition.isPart).length := by
  induction ps generalizing n with
  | nil => exact (Int.add_zero n).symm
  | cons p ps ih =>
    show lastNum ext (nextPartNum p ext n) ps = _
    rw [ih, List.filter_cons]
    by_cases hpart : p.isPart = true
    · rw [nextPartNum, if_pos (Or.inr hpart), if_pos hpart, List.length_cons]
      omega
    · rw [nextPartNum, if_neg (not_or_intro hext hpart), if_neg hpart]

/-- In another one, the partitions are counted. -/
theorem numbered_of_ne (hext : ext ≠ 0) :
    numbered ext n ps = numberFrom n (ps.filter DosPartition.isPart) := by
  induction ps generalizing n with
  | nil => rfl
  | cons p ps ih =>
    rw [numbered, List.filter_cons]
    by_cases hpart : p.isPart = true
    · rw [nextPartNum, if_pos (Or.inr hpart), if_pos hpart, if_pos hpart, numberFrom, ih]
    · rw [nextPartNum, if_neg (not_or_intro hext hpart), if_neg hpart, if_neg hpart, ih]

/-! ## Numbers -/

theorem numberFrom_append {α : Type} {xs ys : List α} :
    numberFrom n (xs ++ ys) = numberFrom n xs ++ numberFrom (n + xs.length) ys := by
  induction xs generalizing n with
  | nil => rw [List.nil_append, List.length_nil, Int.natCast_zero, Int.add_zero]; rfl
  | cons x xs ih =>
    have hlen : n + 1 + (xs.length : Int) = n + ((x :: xs).length : Nat) := by
      rw [List.length_cons]
      omega
    rw [List.cons_append, numberFrom, numberFrom, ih, hlen, List.cons_append]

theorem numberFrom_map {α β : Type} {f : α → β} {xs : List α} :
    numberFrom n (xs.map f) = (numberFrom n xs).map fun x => (x.1, f x.2) := by
  induction xs generalizing n with
  | nil => rfl
  | cons x xs ih => rw [List.map_cons, numberFrom, numberFrom, ih, List.map_cons]

/-- The numbers lie behind the first one, and in front of that behind the last one. -/
theorem mem_numberFrom {α : Type} {xs : List α} {x : Int × α} (h : x ∈ numberFrom n xs) :
    n ≤ x.1 ∧ x.1 < n + xs.length ∧ x.2 ∈ xs := by
  induction xs generalizing n with
  | nil => cases h
  | cons y ys ih =>
    rcases List.mem_cons.mp h with rfl | h
    · rw [List.length_cons]
      exact ⟨Int.le_refl _, by dsimp only; omega, List.mem_cons_self ..⟩
    · obtain ⟨hle, hlt, hmem⟩ := ih h
      rw [List.length_cons]
      exact ⟨by omega, by omega, List.mem_cons_of_mem _ hmem⟩

theorem pairwise_numberFrom {α : Type} {xs : List α} :
    (numberFrom n xs).Pairwise fun x y => x.1 < y.1 := by
  induction xs generalizing n with
  | nil => exact List.Pairwise.nil
  | cons x xs ih =>
    refine List.Pairwise.cons (fun y hy => ?_) ih
    have hle := (mem_numberFrom hy).1
    dsimp only
    omega

/-! ## A chain of tables -/

/-- The partitions of a chain: the sector of the table, the number and the entry. -/
def numberedAll : Int → List Table → List (Int × Int × DosPartition)
  | _, [] => []
  | n, t :: tables =>
    (numbered t.1 n t.2).map (fun x => (t.1, x)) ++ numberedAll (lastNum t.1 n t.2) tables

/-- At most one extended entry is the first one. -/
theorem filter_extended (wf : WellFormed buffer) :
    (table buffer).filter (fun p => isExtended p.sysInd) =
      ((table buffer).find? fun p => isExtended p.sysInd).toList := by
  have hone := wf.extended
  rw [← List.head?_filter]
  generalize (table buffer).filter (fun p => isExtended p.sysInd) = l at hone
  match l, hone with
  | [], _ => rfl
  | [p], _ => rfl
  | _ :: _ :: _, h => exact absurd h (by simp)

theorem signature_of_mbr (h : testBlockType buffer = .mbr) :
    ¬ (buffer.getD 0x1fe 0 ≠ 0x55 ∨ buffer.getD 0x1ff 0 ≠ 0xaa) := by
  intro hbad
  rw [testBlockType, if_pos hbad] at h
  cases h

/-- The listing of a table with no extended entry. -/
theorem print_last {depth : Nat} (hread : dev.blockRead (toUlong ext) = some buffer)
    (wf : WellFormed buffer)
    (hnone : (table buffer).find? (fun p => isExtended p.sysInd) = none) :
    printPartitionExtended dev (depth + 1) ext rel n =
      some (printTable ext n (table buffer)).1 := by
  rw [printPartitionExtended, hread]
  simp only [wf.mbr, filter_extended wf, hnone, Option.toList_none, List.mapM_nil]
  exact congrArg some (List.append_nil _)

/-- The listing of a table with an extended entry. -/
theorem print_next {depth : Nat} (hread : dev.blockRead (toUlong ext) = some buffer)
    (wf : WellFormed buffer)
    (hsome : (table buffer).find? (fun p => isExtended p.sysInd) = some p) :
    printPartitionExtended dev (depth + 1) ext rel n =
      (printPartitionExtended dev depth (lbaStart p rel)
        (if ext = 0 then lbaStart p rel else rel) (lastNum ext n (table buffer))).map
          fun lines => (printTable ext n (table buffer)).1 ++ lines := by
  rw [printPartitionExtended, hread]
  simp only [wf.mbr, filter_extended wf, hsome, Option.toList_some, List.mapM_cons, List.mapM_nil,
    printTable_eq.1]
  cases printPartitionExtended dev depth (lbaStart p rel)
      (if ext = 0 then lbaStart p rel else rel) (lastNum ext n (table buffer)) with
  | none => rfl
  | some lines => exact congrArg some (congrArg _ (List.append_nil lines))

theorem exists_print_chain (h : Chain dev ext rel tables) (n : Int) :
    ∃ depth lines, printPartitionExtended dev depth ext rel n = some lines := by
  induction h generalizing n with
  | last hread wf hnone => exact ⟨1, _, print_last hread wf hnone⟩
  | @next ext rel buffer p tables hread wf hsome hne below ih =>
    obtain ⟨depth, lines, hlines⟩ := ih (lastNum ext n (table buffer))
    refine ⟨depth + 1, (printTable ext n (table buffer)).1 ++ lines,
      (print_next hread wf hsome).trans ?_⟩
    rw [hlines]
    rfl

/-- All partitions of a chain are printed, with their numbers. -/
theorem print_chain (h : Chain dev ext rel tables) {n : Int} {depth : Nat} {lines : List PartLine}
    (hprint : printPartitionExtended dev depth ext rel n = some lines) :
    listed lines = (numberedAll n tables).map fun x => printed x.1 x.2 := by
  induction h generalizing n depth lines with
  | @last ext rel buffer hread wf hnone =>
    cases depth with
    | zero => cases hprint
    | succ depth =>
      rw [print_last hread wf hnone] at hprint
      cases hprint
      rw [printTable_eq.2, numberedAll, numberedAll, List.append_nil, List.map_map]
      rfl
  | @next ext rel buffer p tables hread wf hsome hne below ih =>
    cases depth with
    | zero => cases hprint
    | succ depth =>
      rw [print_next hread wf hsome] at hprint
      obtain ⟨rest, hrest, rfl⟩ := Option.map_eq_some_iff.mp hprint
      rw [listed_append, ih hrest, printTable_eq.2, numberedAll, List.map_append, List.map_map]
      rfl

theorem find?_map_pair {l : List (Int × DosPartition)} :
    (l.map fun x => (ext, x)).find? (fun x => x.2.1 = which) =
      (l.find? fun x => x.1 = which).map fun x => (ext, x) := by
  rw [List.find?_map]
  rfl

/-- The lookup in a table with no extended entry. -/
theorem get_last {depth : Nat} (hread : dev.blockRead (toUlong ext) = some buffer)
    (wf : WellFormed buffer)
    (hnone : (table buffer).find? (fun p => isExtended p.sysInd) = none) :
    getPartitionInfoExtended dev which (depth + 1) ext rel n =
      some (((numbered ext n (table buffer)).find? fun x => x.1 = which).map fun x =>
        partInfo dev x.2 ext x.1) := by
  rw [getPartitionInfoExtended, hread]
  dsimp only
  rw [if_neg (signature_of_mbr wf.mbr), findPart_eq wf.boot]
  cases (numbered ext n (table buffer)).find? fun x => x.1 = which with
  | none =>
    dsimp only
    rw [hnone]
    rfl
  | some x => rfl

/-- The lookup in a table with an extended entry. -/
theorem get_next {depth : Nat} (hread : dev.blockRead (toUlong ext) = some buffer)
    (wf : WellFormed buffer)
    (hsome : (table buffer).find? (fun p => isExtended p.sysInd) = some p) :
    getPartitionInfoExtended dev which (depth + 1) ext rel n =
      match (numbered ext n (table buffer)).find? fun x => x.1 = which with
      | some x => some (some (partInfo dev x.2 ext x.1))
      | none => getPartitionInfoExtended dev which depth (lbaStart p rel)
          (if ext = 0 then lbaStart p rel else rel) (lastNum ext n (table buffer)) := by
  rw [getPartitionInfoExtended, hread]
  dsimp only
  rw [if_neg (signature_of_mbr wf.mbr), findPart_eq wf.boot]
  cases (numbered ext n (table buffer)).find? fun x => x.1 = which with
  | none =>
    dsimp only
    rw [hsome]
  | some x => rfl

theorem exists_get_chain (h : Chain dev ext rel tables) (n : Int) :
    ∃ depth r, getPartitionInfoExtended dev which depth ext rel n = some r := by
  induction h generalizing n with
  | last hread wf hnone => exact ⟨1, _, get_last hread wf hnone⟩
  | @next ext rel buffer p tables hread wf hsome hne below ih =>
    obtain ⟨depth, r, hr⟩ := ih (lastNum ext n (table buffer))
    have hget : getPartitionInfoExtended dev which (depth + 1) ext rel n = _ :=
      get_next hread wf hsome
    cases hfind : (numbered ext n (table buffer)).find? fun x => x.1 = which with
    | none =>
      rw [hfind] at hget
      exact ⟨depth + 1, r, hget.trans hr⟩
    | some x =>
      rw [hfind] at hget
      exact ⟨depth + 1, _, hget⟩

/-- The lookup finds the first partition of the chain with the number. -/
theorem get_chain (h : Chain dev ext rel tables) {n : Int} {depth : Nat}
    {r : Option DiskPartition}
    (hget : getPartitionInfoExtended dev which depth ext rel n = some r) :
    r = ((numberedAll n tables).find? fun x => x.2.1 = which).map fun x =>
      partInfo dev x.2.2 x.1 x.2.1 := by
  induction h generalizing n depth with
  | @last ext rel buffer hread wf hnone =>
    cases depth with
    | zero => cases hget
    | succ depth =>
      rw [get_last hread wf hnone] at hget
      rw [← Option.some.inj hget, numberedAll, numberedAll, List.append_nil, find?_map_pair,
        Option.map_map]
      rfl
  | @next ext rel buffer p tables hread wf hsome hne below ih =>
    cases depth with
    | zero => cases hget
    | succ depth =>
      rw [get_next hread wf hsome] at hget
      rw [numberedAll, List.find?_append, find?_map_pair]
      cases hfind : (numbered ext n (table buffer)).find? fun x => x.1 = which with
      | none =>
        rw [hfind] at hget
        exact ih hget
      | some x =>
        rw [hfind] at hget
        exact (Option.some.inj hget).symm

/-- The tables of a chain: the first one stands where the chain begins, and the others do not stand
in sector 0. -/
theorem Chain.tables_eq (h : Chain dev ext rel tables) :
    ∃ ps rest, tables = (ext, ps) :: rest ∧ ps.length = 4 ∧ ∀ t ∈ rest, t.1 ≠ 0 := by
  induction h with
  | last hread wf hnone =>
    exact ⟨_, [], rfl, by simp [table], fun t ht => absurd ht (List.not_mem_nil)⟩
  | next hread wf hsome hne below ih =>
    obtain ⟨ps, rest, htables, -, hrest⟩ := ih
    refine ⟨_, _, rfl, by simp [table], fun t ht => ?_⟩
    rw [htables] at ht
    rcases List.mem_cons.mp ht with rfl | ht
    · exact hne
    · exact hrest t ht

theorem numberedAll_of_ne (h : ∀ t ∈ tables, t.1 ≠ 0) (n : Int) :
    (numberedAll n tables).map (fun x => (x.2.1, place x.1 x.2.2)) =
      numberFrom n (tables.flatMap parts) := by
  induction tables generalizing n with
  | nil => rfl
  | cons t tables ih =>
    have hne := h t (List.mem_cons_self ..)
    have hrest := ih (fun u hu => h u (List.mem_cons_of_mem _ hu))
    rw [numberedAll, List.map_append, hrest, lastNum_of_ne hne, numbered_of_ne hne,
      List.flatMap_cons, numberFrom_append, parts, numberFrom_map, List.length_map, List.map_map]
    rfl

/-- The numbers of a disk are the expected ones. -/
theorem numberedAll_eq (h : Chain dev 0 0 tables) :
    (numberedAll 1 tables).map (fun x => (x.2.1, place x.1 x.2.2)) = expected tables := by
  obtain ⟨ps, rest, rfl, hlength, hne⟩ := h.tables_eq
  rw [numberedAll, List.map_append, numberedAll_of_ne hne, lastNum_zero, hlength, numbered_zero,
    expected, List.map_map]
  rfl

/-! ## Listing and lookup -/

theorem toInt32_add (a : Int) (b : Nat) :
    toInt32 (a + b) = toInt32 ((toUlong a + b : Nat) : Int) := by
  have hulong : (toUlong a : Int) = a % 2 ^ 32 := by
    unfold toUlong
    omega
  unfold toInt32
  rw [Int.natCast_add, hulong]
  exact (Int.emod_add_bmod a (2 ^ 32)).symm

theorem toInt32_eq {a : Nat} : toInt32 a = a ↔ a < 2 ^ 31 := by
  unfold toInt32
  rw [Int.bmod_def]
  split
  · omega
  · omega

theorem toUlong_natCast {a : Nat} (h : a < 2 ^ 31) : toUlong a = a := by
  unfold toUlong
  omega

theorem numbered_snd : (numbered ext n ps).map Prod.snd = ps.filter DosPartition.isPart := by
  induction ps generalizing n with
  | nil => rfl
  | cons p ps ih =>
    rw [numbered, List.filter_cons]
    split
    · rw [List.map_cons, ih]
    · exact ih

/-- The partitions of a chain are those of its tables. -/
theorem numberedAll_places : (numberedAll n tables).map (fun x => place x.1 x.2.2) =
    tables.flatMap parts := by
  induction tables generalizing n with
  | nil => rfl
  | cons t tables ih =>
    rw [numberedAll, List.map_append, ih, List.flatMap_cons, parts, List.map_map]
    congr 1
    rw [← @numbered_snd t.1 n t.2, List.map_map]
    rfl

/-- What is printed for a partition is its place, if that fits. -/
theorem printed_iff {x : Int × Int × DosPartition} :
    printed x.1 x.2 = (x.2.1, ((place x.1 x.2.2).1 : Int), ((place x.1 x.2.2).2 : Int)) ↔
      (place x.1 x.2.2).1 < 2 ^ 31 ∧ (place x.1 x.2.2).2 < 2 ^ 31 := by
  unfold printed
  rw [toInt32_add, Prod.mk.injEq, Prod.mk.injEq]
  exact (and_iff_right rfl).trans (and_congr toInt32_eq toInt32_eq)

/-- The numbers go up. -/
theorem pairwise_numberedAll (h : Chain dev 0 0 tables) :
    (numberedAll 1 tables).Pairwise fun x y => x.2.1 < y.2.1 := by
  have hexpected : (expected tables).Pairwise fun x y => x.1 < y.1 := by
    obtain ⟨ps, rest, rfl, hlength, -⟩ := h.tables_eq
    rw [expected, List.pairwise_append]
    refine ⟨?_, pairwise_numberFrom, fun x hx y hy => ?_⟩
    · rw [List.pairwise_map]
      exact pairwise_numberFrom.filter _
    · obtain ⟨z, hz, rfl⟩ := List.mem_map.mp hx
      have hlow := (mem_numberFrom (List.mem_filter.mp hz).1).2.1
      have hhigh := (mem_numberFrom hy).1
      rw [hlength] at hlow
      dsimp only
      omega
  rw [← numberedAll_eq h, List.pairwise_map] at hexpected
  exact hexpected

theorem fitInt_iff : FitInt tables ↔ ∀ x ∈ numberedAll n tables,
    (place x.1 x.2.2).1 < 2 ^ 31 ∧ (place x.1 x.2.2).2 < 2 ^ 31 := by
  have hplaces : (numberedAll n tables).map (fun x => place x.1 x.2.2) = tables.flatMap parts :=
    numberedAll_places
  constructor
  · intro h x hx
    have hmem : place x.1 x.2.2 ∈ tables.flatMap parts := by
      rw [← hplaces]
      exact List.mem_map_of_mem hx
    obtain ⟨t, ht, hx⟩ := List.mem_flatMap.mp hmem
    exact h t ht _ hx
  · intro h t ht y hy
    have hmem : y ∈ tables.flatMap parts := List.mem_flatMap.mpr ⟨t, ht, hy⟩
    rw [← hplaces] at hmem
    obtain ⟨x, hx, rfl⟩ := List.mem_map.mp hmem
    exact h x hx

/-- For a partition that fits, the lookup gives its place. -/
theorem partInfo_place {x : Int × Int × DosPartition}
    (h : (place x.1 x.2.2).1 < 2 ^ 31 ∧ (place x.1 x.2.2).2 < 2 ^ 31) :
    (partInfo dev x.2.2 x.1 x.2.1).start = (place x.1 x.2.2).1 ∧
      (partInfo dev x.2.2 x.1 x.2.1).size = (place x.1 x.2.2).2 := by
  have hline := printed_iff.mpr h
  unfold printed at hline
  obtain ⟨-, hline⟩ := Prod.mk.inj hline
  obtain ⟨hstart, hsize⟩ := Prod.mk.inj hline
  unfold partInfo
  dsimp only
  rw [hstart, hsize]
  exact ⟨toUlong_natCast h.1, toUlong_natCast h.2⟩

/-- `print_part_dos` and `get_partition_info_dos` agree on a disk if and only if all starts and
sizes are below 2^31. -/
theorem parts_agree (h : Chain dev 0 0 tables) :
    (∃ lines, PartsAgree dev tables lines) ↔ FitInt tables := by
  have hnumbers : ∀ lines : List PartLine,
      (listed lines = (numberedAll 1 tables).map fun x => printed x.1 x.2) →
        (listed lines = (expected tables).map (fun x => (x.1, (x.2.1 : Int), (x.2.2 : Int))) ↔
          FitInt tables) := by
    intro lines hlisted
    rw [hlisted, ← numberedAll_eq h, List.map_map]
    refine List.map_inj_left.trans (Iff.trans ?_ (fitInt_iff (n := 1)).symm)
    exact forall₂_congr fun x _ => printed_iff
  constructor
  · rintro ⟨lines, hagree⟩
    obtain ⟨depth, hprint⟩ := hagree.prints
    exact (hnumbers lines (print_chain h hprint)).mp hagree.numbers
  · intro hfit
    obtain ⟨depth, lines, hprint⟩ := exists_print_chain h 1
    have hlisted := print_chain h hprint
    have hpairwise := pairwise_numberedAll h
    have hplace := (fitInt_iff (n := 1)).mp hfit
    refine ⟨lines, ⟨depth, hprint⟩, fun part => exists_get_chain h 1, fun part s z => ?_, ?_,
      (hnumbers lines hlisted).mpr hfit⟩
    · rw [hlisted]
      constructor
      · rintro ⟨depth, info, hget, rfl, rfl⟩
        obtain ⟨x, hfind, rfl⟩ := Option.map_eq_some_iff.mp (get_chain h hget).symm
        have hx := List.mem_of_find?_eq_some hfind
        have hnum : x.2.1 = part := by simpa using List.find?_some hfind
        obtain ⟨hstart, hsize⟩ := @partInfo_place dev x (hplace x hx)
        rw [hstart, hsize, ← hnum, ← printed_iff.mpr (hplace x hx)]
        exact List.mem_map_of_mem hx
      · intro hmem
        obtain ⟨x, hx, hline⟩ := List.mem_map.mp hmem
        rw [printed_iff.mpr (hplace x hx)] at hline
        obtain ⟨hnum, hline⟩ := Prod.mk.inj hline
        obtain ⟨hstart, hsize⟩ := Prod.mk.inj hline
        obtain ⟨depth, r, hget⟩ : ∃ depth r, getPartitionInfoDos dev part depth = some r :=
          exists_get_chain h 1
        have hr := get_chain h hget
        have hfind : ∃ y, (numberedAll 1 tables).find? (fun x => x.2.1 = part) = some y := by
          refine Option.isSome_iff_exists.mp (List.find?_isSome.mpr ⟨x, hx, ?_⟩)
          exact decide_eq_true hnum
        obtain ⟨y, hfind⟩ := hfind
        have hy := List.mem_of_find?_eq_some hfind
        have hynum : y.2.1 = part := by simpa using List.find?_some hfind
        have hsame : y = x := by
          refine List.inj_on_of_nodup_map (f := fun z => z.2.1) ?_ hy hx (hynum.trans hnum.symm)
          exact List.pairwise_map.mpr (hpairwise.imp fun hlt => Int.ne_of_lt hlt)
        rw [hfind, hsame] at hr
        obtain ⟨hinfo, hinfo'⟩ := @partInfo_place dev x (hplace x hx)
        refine ⟨depth, _, hget.trans (congrArg some hr), ?_, ?_⟩
        · rw [hinfo]
          exact Int.ofNat_inj.mp hstart
        · rw [hinfo']
          exact Int.ofNat_inj.mp hsize
    · rw [hlisted, List.map_map]
      refine (List.pairwise_map.mpr (hpairwise.imp ?_))
      intro x y hlt
      exact Int.ne_of_lt hlt

/-! ## The sectors of the disks -/

/-- Four bytes. -/
def le32Bytes (n : Nat) : Bytes :=
  [UInt8.ofNat n, UInt8.ofNat (n / 256), UInt8.ofNat (n / 65536), UInt8.ofNat (n / 16777216)]

/-- A sector with a partition table: type, start and size of the entries. -/
def sectorWith (entries : List (UInt8 × Nat × Nat)) : Bytes :=
  List.replicate 0x1be 0 ++
    entries.flatMap (fun e => [0, 0, 0, 0, e.1, 0, 0, 0] ++ le32Bytes e.2.1 ++ le32Bytes e.2.2) ++
    [0x55, 0xaa]

/-- A table from its entries. -/
def tableOf (entries : List (UInt8 × Nat × Nat)) : List DosPartition :=
  entries.map fun e => ⟨0, e.1, e.2.1, e.2.2⟩

/-- Four bytes are read as the number that they were made of. -/
theorem sum_le32Bytes {n : Nat} (h : n < 2 ^ 32) :
    (UInt8.ofNat n).toNat + 256 * (UInt8.ofNat (n / 256)).toNat +
      65536 * (UInt8.ofNat (n / 65536)).toNat +
        16777216 * (UInt8.ofNat (n / 16777216)).toNat = n := by
  simp only [UInt8.toNat_ofNat']
  omega

/-- The bytes of an entry. -/
def entryBytes (e : UInt8 × Nat × Nat) : Bytes :=
  [0, 0, 0, 0, e.1, 0, 0, 0] ++ le32Bytes e.2.1 ++ le32Bytes e.2.2

theorem length_flatMap_entryBytes (entries : List (UInt8 × Nat × Nat)) :
    (entries.flatMap entryBytes).length = 16 * entries.length := by
  induction entries with
  | nil => rfl
  | cons e entries ih =>
    rw [List.flatMap_cons, List.length_append, ih, List.length_cons]
    exact (Nat.add_comm 16 _).trans (Nat.mul_succ 16 _).symm

/-- The bytes behind the first entries. -/
theorem getD_sectorWith (front back : List (UInt8 × Nat × Nat)) (k : Nat) :
    (sectorWith (front ++ back)).getD (0x1be + 16 * front.length + k) 0 =
      (back.flatMap entryBytes ++ [0x55, 0xaa]).getD k 0 := by
  have hsector : sectorWith (front ++ back) =
      (List.replicate 0x1be 0 ++ front.flatMap entryBytes) ++
        (back.flatMap entryBytes ++ [0x55, 0xaa]) := by
    rw [sectorWith]
    show _ ++ (front ++ back).flatMap entryBytes ++ _ = _
    rw [List.flatMap_append]
    simp only [List.append_assoc]
  have hlen : (List.replicate 0x1be 0 ++ front.flatMap entryBytes).length =
      0x1be + 16 * front.length := by
    rw [List.length_append, List.length_replicate, length_flatMap_entryBytes]
  rw [hsector, ← hlen, List.getD_append_right _ _ _ _ (Nat.le_add_right _ _),
    Nat.add_sub_cancel_left]

theorem partitionAt_sectorWith {e : UInt8 × Nat × Nat} (front back : List (UInt8 × Nat × Nat))
    (hfit : e.2.1 < 2 ^ 32 ∧ e.2.2 < 2 ^ 32) :
    partitionAt (sectorWith (front ++ e :: back)) front.length = ⟨0, e.1, e.2.1, e.2.2⟩ := by
  have hbyte := getD_sectorWith front (e :: back)
  have hfirst := hbyte 0
  rw [Nat.add_zero] at hfirst
  rw [partitionAt, le32, le32]
  simp only [Nat.add_assoc (0x1be + 16 * front.length), hbyte]
  rw [hfirst]
  exact congrArg₂ (DosPartition.mk 0 e.1) (sum_le32Bytes hfit.1) (sum_le32Bytes hfit.2)

/-- The table of a sector is the one it was made of. -/
theorem table_sectorWith {entries : List (UInt8 × Nat × Nat)} (hfour : entries.length = 4)
    (hfit : ∀ e ∈ entries, e.2.1 < 2 ^ 32 ∧ e.2.2 < 2 ^ 32) :
    table (sectorWith entries) = tableOf entries := by
  obtain ⟨a, b, c, d, rfl⟩ := List.length_eq_four.mp hfour
  simp only [List.forall_mem_cons] at hfit
  obtain ⟨ha, hb, hc, hd, -⟩ := hfit
  have hfirst := partitionAt_sectorWith [] [b, c, d] ha
  have hsecond := partitionAt_sectorWith [a] [c, d] hb
  have hthird := partitionAt_sectorWith [a, b] [d] hc
  have hlast := partitionAt_sectorWith [a, b, c] [] hd
  exact congrArg₂ List.cons hfirst (congrArg₂ List.cons hsecond
    (congrArg₂ List.cons hthird (congrArg (fun p => [p]) hlast)))

/-- The mark behind the table. -/
theorem mark_sectorWith {entries : List (UInt8 × Nat × Nat)} (hfour : entries.length = 4)
    (k : Nat) : (sectorWith entries).getD (0x1fe + k) 0 = [0x55, 0xaa].getD k 0 := by
  have h := getD_sectorWith entries [] k
  rwa [hfour, List.append_nil] at h

theorem testBlockType_sectorWith {entries : List (UInt8 × Nat × Nat)} (hfour : entries.length = 4) :
    testBlockType (sectorWith entries) = .mbr := by
  have hfat : ((sectorWith entries).drop 0x36).take 3 = [0, 0, 0] := by
    rw [sectorWith, List.append_assoc, List.drop_append_of_le_length, List.drop_replicate,
      List.take_append_of_le_length, List.take_replicate]
    · rfl
    · rw [List.length_replicate]
      decide
    · rw [List.length_replicate]
      decide
  have hlow := mark_sectorWith hfour 0
  have hhigh := mark_sectorWith hfour 1
  rw [testBlockType, if_neg, hfat]
  · decide
  · exact not_or.mpr ⟨not_not_intro hlow, not_not_intro hhigh⟩

theorem wellFormed_sectorWith {entries : List (UInt8 × Nat × Nat)} (hfour : entries.length = 4)
    (hfit : ∀ e ∈ entries, e.2.1 < 2 ^ 32 ∧ e.2.2 < 2 ^ 32)
    (hone : ((tableOf entries).filter fun p => isExtended p.sysInd).length ≤ 1) :
    WellFormed (sectorWith entries) := by
  have htable := table_sectorWith hfour hfit
  refine ⟨testBlockType_sectorWith hfour, fun p hp => ?_, by rw [htable]; exact hone⟩
  rw [htable] at hp
  obtain ⟨e, -, rfl⟩ := List.mem_map.mp hp
  exact Or.inl rfl

/-! ## Two disks -/

/-- A primary partition, and two logical ones. -/
def smallDisk : BlockDevDesc where
  ifType := .other
  dev := 0
  lba := 4096
  blockRead sector :=
    if sector = 0 then
      some (sectorWith [(0, 0, 0), (0x83, 63, 900), (0x05, 1000, 500), (0, 0, 0)])
    else if sector = 1000 then
      some (sectorWith [(0x05, 200, 100), (0, 0, 0), (0x83, 63, 50), (0, 0, 0)])
    else if sector = 1200 then
      some (sectorWith [(0x83, 63, 30), (0, 0, 0), (0, 0, 0), (0, 0, 0)])
    else none

def smallTables : List Table :=
  [(0, table (sectorWith [(0, 0, 0), (0x83, 63, 900), (0x05, 1000, 500), (0, 0, 0)])),
    (1000, table (sectorWith [(0x05, 200, 100), (0, 0, 0), (0x83, 63, 50), (0, 0, 0)])),
    (1200, table (sectorWith [(0x83, 63, 30), (0, 0, 0), (0, 0, 0), (0, 0, 0)]))]

theorem smallTables_eq : smallTables =
    [(0, tableOf [(0, 0, 0), (0x83, 63, 900), (0x05, 1000, 500), (0, 0, 0)]),
      (1000, tableOf [(0x05, 200, 100), (0, 0, 0), (0x83, 63, 50), (0, 0, 0)]),
      (1200, tableOf [(0x83, 63, 30), (0, 0, 0), (0, 0, 0), (0, 0, 0)])] := by
  rw [smallTables, table_sectorWith rfl (by decide), table_sectorWith rfl (by decide),
    table_sectorWith rfl (by decide)]

theorem chain_smallDisk : Chain smallDisk 0 0 smallTables := by
  refine .next (p := ⟨0, 0x05, 1000, 500⟩) rfl (wellFormed_sectorWith rfl ?_ ?_) ?_ ?_ ?_
  · decide
  · decide
  · rw [table_sectorWith rfl (by decide)]
    decide
  · decide
  refine .next (p := ⟨0, 0x05, 200, 100⟩) rfl (wellFormed_sectorWith rfl ?_ ?_) ?_ ?_ ?_
  · decide
  · decide
  · rw [table_sectorWith rfl (by decide)]
    decide
  · decide
  refine .last rfl (wellFormed_sectorWith rfl ?_ ?_) ?_
  · decide
  · decide
  · rw [table_sectorWith rfl (by decide)]
    decide

theorem parts_agree_small : ∃ lines, PartsAgree smallDisk smallTables lines := by
  refine (parts_agree chain_smallDisk).mpr ?_
  rw [smallTables_eq, FitInt]
  decide

/-- A partition of 2^31 sectors. -/
def largeDisk : BlockDevDesc where
  ifType := .other
  dev := 0
  lba := 2 ^ 31 + 63
  blockRead _ := some (sectorWith [(0x83, 63, 2 ^ 31), (0, 0, 0), (0, 0, 0), (0, 0, 0)])

def largeTables : List Table :=
  [(0, table (sectorWith [(0x83, 63, 2 ^ 31), (0, 0, 0), (0, 0, 0), (0, 0, 0)]))]

theorem chain_largeDisk : Chain largeDisk 0 0 largeTables := by
  refine .last rfl (wellFormed_sectorWith rfl ?_ ?_) ?_
  · decide
  · decide
  · rw [table_sectorWith rfl (by decide)]
    decide

/-- Its size is listed as -2147483648, and looked up as 2147483648. -/
theorem parts_disagree_large : Chain largeDisk 0 0 largeTables ∧
    (printPartDos largeDisk 1).map listed = some [(1, 63, -2147483648)] ∧
    ((getPartitionInfoDos largeDisk 1 1).map fun r => r.map fun info => (info.start, info.size)) =
      some (some (63, 2147483648)) ∧
    ¬ ∃ lines, PartsAgree largeDisk largeTables lines := by
  have hprint : (printPartDos largeDisk 1).map listed = some [(1, 63, -2147483648)] := by
    decide +kernel
  have hget : ((getPartitionInfoDos largeDisk 1 1).map fun r =>
      r.map fun info => (info.start, info.size)) = some (some (63, 2147483648)) := by
    decide +kernel
  refine ⟨chain_largeDisk, hprint, hget, ?_⟩
  rintro ⟨lines, hagree⟩
  obtain ⟨depth, hlines⟩ := hagree.prints
  obtain ⟨lines₁, hlines₁, hlisted⟩ := Option.map_eq_some_iff.mp hprint
  obtain ⟨r, hr, hinfo⟩ := Option.map_eq_some_iff.mp hget
  obtain ⟨info, rfl, hplace⟩ := Option.map_eq_some_iff.mp hinfo
  obtain ⟨hstart, hsize⟩ := Prod.mk.inj hplace
  have hmem := (hagree.lookup 1 63 2147483648).mp ⟨1, info, hr, hstart, hsize⟩
  rw [print_chain chain_largeDisk hlines, ← print_chain chain_largeDisk hlines₁, hlisted] at hmem
  exact absurd hmem (by decide)

end Tables

end UBoot.Disk
