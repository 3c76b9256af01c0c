import Mathlib.Data.List.TakeWhile
import UBoot.Fs.Ext2Dir
import UBoot.Lib.Orbit

/-!
# What a look through a directory finds

Each record says how long it is and so where the next one is, and the loop follows this chain
(`orbit_next`).  It comes to an end exactly if the chain is `Sound`: no record of it has the length
0, and none at which `fpos` wraps comes twice (`iterateDir_ends_iff`).

In a directory the loop goes from record to record (`iterateDir_directory`), and stops at the first
one that it does not pass (`Files.Stop`): its name is the one that is looked up, or its type is to
be read from an inode that cannot be read.  So a name is looked up right exactly if that record is
used, or if it is of the second kind and no used one has the name (`iterateDir_right_iff`).
-/

namespace UBoot.Fs.Ext2

open UBoot.Lib UBoot.LibGeneric

/-! ## The chain of records -/

/-- The `direntlen` of the record behind `fpos`. -/
def Files.direntlen (F : Files) (dir : Inode) (fpos : Nat) : Nat :=
  ((F.readFile dir fpos 8).map fun bs => (dirent bs).direntlen).getD 0

/-- Where the records are, if each of them says where the next one is. -/
def Files.recordAt (F : Files) (dir : Inode) : Nat → Nat
  | 0 => 0
  | n + 1 => ulong (F.recordAt dir n + F.direntlen dir (F.recordAt dir n))

/-- A record with a name is not the one that is looked for, and its inode can be read if the type or
the size is in it only. -/
def Files.Other (F : Files) (name : Option Bytes) (d : Dirent) (filename : Bytes) : Prop :=
  match name with
  | some name =>
    (d.filetype ≠ 0 ∨ (F.readInode d.inode).isSome) ∧ cText filename ≠ cText name
  | none => (F.readInode d.inode).isSome

/-- The record at a position lies in the directory and can be read, and it has no name or is
another one. -/
def Files.Passes (F : Files) (dir : Inode) (name : Option Bytes) (fpos : Nat) : Prop :=
  fpos < dir.size ∧ ∃ bs, F.readFile dir fpos 8 = some bs ∧
    ((dirent bs).namelen = 0 ∨ ∃ filename,
      F.readFile dir (ulong (fpos + 8)) (dirent bs).namelen = some filename ∧
        F.Other name (dirent bs) filename)

/-- The chain of records, from the first one on: no record that is passed has the length 0, and none
that comes again is one at which `fpos` wraps. -/
structure Sound (F : Files) (dir : Inode) (name : Option Bytes) : Prop where
  long : ∀ n, (∀ k ≤ n, F.Passes dir name (F.recordAt dir k)) →
    0 < F.direntlen dir (F.recordAt dir n)
  wraps : ∀ i j, i < j → (∀ k < j, F.Passes dir name (F.recordAt dir k)) →
    F.recordAt dir i = F.recordAt dir j →
      F.recordAt dir i + F.direntlen dir (F.recordAt dir i) < 2 ^ 32

section Chain

variable {F : Files} {dir : Inode} {name : Option Bytes} {fpos : Nat} {s t : Nat × Unit}

/-- From a record to the next one. -/
def Files.next (F : Files) (dir : Inode) (name : Option Bytes) : Nat × Unit → Option (Nat × Unit) :=
  passNext (iteratePass F.reader dir name)

theorem nodeInode_reader (F : Files) (node : Node) :
    nodeInode F.reader node () = (F.inodeOf node, ()) := by
  obtain ⟨ino, _ | inode⟩ := node <;> rfl

theorem visitName_some {name filename : Bytes} {next : Nat} {found : Node × FileType} :
    (visitName F.reader (some name) next filename found ()).2.getLeft? = some t ↔
      filename ≠ cText name ∧ t = (next, ()) := by
  rw [visitName]
  by_cases heq : filename = cText name
  · rw [if_pos heq]
    exact iff_of_false (fun h => by cases h) fun h => h.1 heq
  · rw [if_neg heq]
    exact ⟨fun h => ⟨heq, (Option.some.inj h).symm⟩, fun h => congrArg some h.2.symm⟩

theorem visitName_none {next : Nat} {filename : Bytes} {found : Node × FileType} :
    (visitName F.reader none next filename found ()).2.getLeft? = some t ↔
      (F.inodeOf found.1).isSome ∧ t = (next, ()) := by
  rw [visitName, nodeInode_reader]
  cases F.inodeOf found.1 with
  | none => exact iff_of_false (fun h => by cases h) fun h => absurd h.1 (by decide)
  | some inode => exact ⟨fun h => ⟨rfl, (Option.some.inj h).symm⟩, fun h => congrArg some h.2.symm⟩

/-- The node of a record, and when there is one. -/
theorem recordNode_cases (F : Files) (d : Dirent) :
    (∃ found, recordNode F.reader d () = (some found, ()) ∧
      F.inodeOf found.1 = F.readInode d.inode ∧
      (d.filetype ≠ 0 ∨ (F.readInode d.inode).isSome)) ∨
    recordNode F.reader d () = (none, ()) ∧ d.filetype = 0 ∧ F.readInode d.inode = none := by
  rw [recordNode]
  by_cases htype : d.filetype ≠ 0
  · rw [if_pos htype]
    exact .inl ⟨_, rfl, rfl, .inl htype⟩
  · rw [if_neg htype, Files.reader]
    dsimp only
    cases hinode : F.readInode d.inode with
    | none => exact .inr ⟨rfl, not_not.mp htype, rfl⟩
    | some inode => exact .inl ⟨_, rfl, rfl, .inr rfl⟩

theorem visitRecord_next {d : Dirent} :
    (visitRecord F.reader dir name fpos d ()).2.getLeft? = some t ↔
      (d.namelen = 0 ∨ ∃ filename, F.readFile dir (ulong (fpos + 8)) d.namelen = some filename ∧
        F.Other name d filename) ∧ t = (ulong (fpos + d.direntlen), ()) := by
  rw [visitRecord]
  by_cases hlen : d.namelen ≠ 0
  swap
  · rw [if_neg hlen]
    exact ⟨fun h => ⟨.inl (not_not.mp hlen), (Option.some.inj h).symm⟩,
      fun h => congrArg some h.2.symm⟩
  rw [if_pos hlen, or_iff_right hlen, Files.reader]
  dsimp only
  cases hread : F.readFile dir (ulong (fpos + 8)) d.namelen with
  | none =>
    refine iff_of_false (fun h => by cases h) ?_
    rintro ⟨⟨filename, h, -⟩, -⟩
    cases h
  | some bs =>
    have hother : (∃ filename, some bs = some filename ∧ F.Other name d filename) ↔
        F.Other name d bs := by
      refine ⟨?_, fun h => ⟨bs, rfl, h⟩⟩
      rintro ⟨filename, h, hother⟩
      cases h
      exact hother
    rw [hother]
    rcases recordNode_cases F d with ⟨found, hnode, hinode, htype⟩ | ⟨hnode, htype, hinode⟩
    · rw [Files.reader] at hnode
      dsimp only
      rw [hnode]
      dsimp only
      cases name with
      | some name =>
        refine (visitName_some (F := F)).trans (and_congr_left fun _ => ?_)
        exact (and_iff_right htype).symm
      | none =>
        refine (visitName_none (F := F)).trans (and_congr_left fun _ => ?_)
        rw [hinode, Files.Other]
    · rw [Files.reader] at hnode
      dsimp only
      rw [hnode]
      refine iff_of_false (fun h => by cases h) ?_
      rintro ⟨h, -⟩
      cases name with
      | some name =>
        rw [Files.Other, hinode] at h
        rcases h.1 with hne | hsome
        · exact hne htype
        · cases hsome
      | none =>
        rw [Files.Other, hinode] at h
        cases h

/-- The loop goes on behind the records that are passed. -/
theorem Files.next_eq_some : F.next dir name s = some t ↔
    F.Passes dir name s.1 ∧ t = (ulong (s.1 + F.direntlen dir s.1), ()) := by
  obtain ⟨fpos, _⟩ := s
  rw [next, passNext, iteratePass]
  by_cases hsize : fpos < dir.size
  swap
  · rw [if_neg hsize]
    exact iff_of_false (fun h => by cases h) fun h => hsize h.1.1
  have hreader : F.reader.readFile dir fpos 8 () = (F.readFile dir fpos 8, ()) := rfl
  rw [if_pos hsize, hreader, Files.Passes, Files.direntlen]
  dsimp only
  cases hread : F.readFile dir fpos 8 with
  | none =>
    refine iff_of_false (fun h => by cases h) ?_
    rintro ⟨⟨-, bs, h, -⟩, -⟩
    cases h
  | some bs =>
    refine visitRecord_next.trans (and_congr_left fun _ => ⟨fun h => ⟨hsize, bs, rfl, h⟩, ?_⟩)
    rintro ⟨-, bs', h, hpasses⟩
    cases h
    exact hpasses

/-- **The loop follows the chain.** -/
theorem orbit_next (n : Nat) : orbit (F.next dir name) (0, ()) n = some s ↔
    (∀ k < n, F.Passes dir name (F.recordAt dir k)) ∧ s = (F.recordAt dir n, ()) := by
  induction n generalizing s with
  | zero =>
    refine ⟨fun h => ⟨fun k hk => absurd hk (Nat.not_lt_zero k), (Option.some.inj h).symm⟩,
      fun h => congrArg some h.2.symm⟩
  | succ n ih =>
    rw [orbit, Option.bind_eq_some_iff]
    constructor
    · rintro ⟨r, hr, hnext⟩
      obtain ⟨hpassed, rfl⟩ := ih.mp hr
      obtain ⟨hpasses, rfl⟩ := Files.next_eq_some.mp hnext
      exact ⟨Nat.forall_lt_succ_right.mpr ⟨hpassed, hpasses⟩, rfl⟩
    · rintro ⟨hpassed, rfl⟩
      obtain ⟨hpassed, hpasses⟩ := Nat.forall_lt_succ_right.mp hpassed
      exact ⟨_, ih.mpr ⟨hpassed, rfl⟩, Files.next_eq_some.mpr ⟨hpasses, rfl⟩⟩

theorem recordAt_lt (F : Files) (dir : Inode) (n : Nat) : F.recordAt dir n < 2 ^ 32 := by
  cases n with
  | zero => exact Nat.two_pow_pos 32
  | succ n => exact Nat.mod_lt _ (Nat.two_pow_pos 32)

theorem orbit_next_lt (n : Nat) (h : orbit (F.next dir name) (0, ()) n = some s) :
    s.1 < 2 ^ 32 := by
  rw [((orbit_next n).mp h).2]
  exact recordAt_lt F dir n

theorem stops_iff_sound : Stops (F.next dir name) (0, ()) ↔ Sound F dir name := by
  constructor
  · intro h
    refine ⟨?_, ?_⟩
    · intro n hpasses
      refine Nat.pos_of_ne_zero fun hzero =>
        h.not_returns ⟨n, n + 1, (F.recordAt dir n, ()), Nat.lt_succ_self n, ?_, ?_⟩
      · exact (orbit_next n).mpr ⟨fun k hk => hpasses k hk.le, rfl⟩
      · refine (orbit_next (n + 1)).mpr ⟨fun k hk => hpasses k (Nat.le_of_lt_succ hk), ?_⟩
        rw [Files.recordAt, hzero, Nat.add_zero, ulong_of_lt (recordAt_lt F dir n)]
    · intro i j hlt hpasses heq
      refine absurd ⟨i, j, (F.recordAt dir i, ()), hlt, ?_, ?_⟩ h.not_returns
      · exact (orbit_next i).mpr ⟨fun k hk => hpasses k (hk.trans hlt), rfl⟩
      · exact (orbit_next j).mpr ⟨hpasses, by rw [heq]⟩
  · intro h
    have hfinite : {s : Nat × Unit | s.1 < 2 ^ 32}.Finite :=
      (Set.finite_lt_nat (2 ^ 32)).preimage fun a _ b _ hab => Prod.ext hab rfl
    have hrise : ∀ n s t, orbit (F.next dir name) (0, ()) n = some s → F.next dir name s = some t →
        ¬ 2 ^ 32 ≤ s.1 + F.direntlen dir s.1 → s.1 < t.1 := by
      intro n s t hs ht hback
      obtain ⟨hpassed, rfl⟩ := (orbit_next n).mp hs
      obtain ⟨hpasses, rfl⟩ := Files.next_eq_some.mp ht
      have hlong := h.long n fun k hk =>
        (Nat.lt_or_eq_of_le hk).elim (hpassed k) fun heq => heq ▸ hpasses
      dsimp only at hback ⊢
      rw [ulong_of_lt (Nat.not_le.mp hback)]
      exact Nat.lt_add_of_pos_right hlong
    refine (stops_iff_once Prod.fst hfinite (fun n _ hs => orbit_next_lt n hs) hrise).mpr ?_
    intro i j s hlt hi hj
    obtain ⟨-, rfl⟩ := (orbit_next i).mp hi
    obtain ⟨hpassed, heq⟩ := (orbit_next j).mp hj
    exact Nat.not_le.mpr (h.wraps i j hlt hpassed (congrArg Prod.fst heq))

end Chain

/-! ## Records -/

section Records

variable {F : Files} {dir : Inode} {D : Directory} {r : Record} {pre rest : List Record}
  {name : Bytes}

theorem Record.length_header (r : Record) : r.header.length = 8 := by
  simp [header]

theorem Record.length_bytes (r : Record) : r.bytes.length = r.direntlen := by
  rw [bytes, List.length_append, List.length_append, r.length_header, direntlen]

/-- What is read of a record. -/
theorem Record.dirent_header (r : Record) :
    dirent r.header = ⟨r.inode, r.direntlen, r.name.length, r.filetype⟩ := by
  have hinode : r.header.take 4 = leBytes 4 r.inode := by
    rw [header, List.append_assoc, List.take_left' (length_leBytes 4 _)]
  have hlen : (r.header.drop 4).take 2 = leBytes 2 r.direntlen := by
    rw [header, List.append_assoc, List.drop_left' (length_leBytes 4 _),
      List.take_left' (length_leBytes 2 _)]
  have hfront : (leBytes 4 r.inode ++ leBytes 2 r.direntlen).length = 6 := by simp
  have hlt : r.direntlen < 2 ^ 16 := r.len_lt
  have hname : r.header.getD 6 0 = UInt8.ofNat r.name.length := by
    rw [header, List.getD_eq_getElem?_getD, List.getElem?_append_right (Nat.le_of_eq hfront),
      hfront]
    rfl
  have htype : r.header.getD 7 0 = UInt8.ofNat r.filetype := by
    rw [header, List.getD_eq_getElem?_getD, List.getElem?_append_right (by omega), hfront]
    rfl
  rw [dirent, hinode, hlen, hname, htype, leWord_leBytes r.inode_lt, leWord_leBytes hlt,
    UInt8.toNat_ofNat', UInt8.toNat_ofNat', Nat.mod_eq_of_lt r.name_lt,
    Nat.mod_eq_of_lt r.filetype_lt]

theorem recordBytes_append (rs rs' : List Record) :
    recordBytes (rs ++ rs') = recordBytes rs ++ recordBytes rs' := List.flatMap_append

theorem recordBytes_cons (r : Record) (rs : List Record) :
    recordBytes (r :: rs) = r.bytes ++ recordBytes rs := List.flatMap_cons

theorem length_recordBytes (rs : List Record) :
    (recordBytes rs).length = (rs.map Record.direntlen).sum := by
  rw [recordBytes, List.length_flatMap]
  exact congrArg (fun f => (rs.map f).sum) (funext Record.length_bytes)

theorem length_blocks {blksz : Nat} (blocks : List (DirBlock blksz)) :
    (recordBytes (blocks.flatMap DirBlock.records)).length = blocks.length * blksz := by
  induction blocks with
  | nil => exact (Nat.zero_mul _).symm
  | cons b blocks ih =>
    rw [List.flatMap_cons, recordBytes_append, List.length_append, ih, b.fills, List.length_cons,
      Nat.add_one_mul, Nat.add_comm]

/-- The records fill the blocks. -/
theorem Directory.length_bytes (D : Directory) :
    (recordBytes D.records).length = D.blocks.length * D.blksz := length_blocks D.blocks

/-- What lies behind the records in front of one. -/
theorem drop_recordBytes (hD : D.records = pre ++ r :: rest) :
    (recordBytes D.records).drop (recordBytes pre).length =
      r.header ++ (r.name ++ (r.pad ++ recordBytes rest)) := by
  rw [hD, recordBytes_append, List.drop_left, recordBytes_cons, Record.bytes, List.append_assoc,
    List.append_assoc]

theorem record_le (hD : D.records = pre ++ r :: rest) :
    (recordBytes pre).length + r.direntlen ≤ D.blocks.length * D.blksz := by
  rw [← D.length_bytes, hD, recordBytes_append, recordBytes_cons, List.length_append,
    List.length_append, r.length_bytes]
  omega

theorem Files.Holds.readHeader (h : F.Holds dir D) (hD : D.records = pre ++ r :: rest) :
    F.readFile dir (recordBytes pre).length 8 = some r.header := by
  have hle := record_le hD
  rw [← h.size, Record.direntlen] at hle
  rw [h.file _ _ (by decide) (by omega), drop_recordBytes hD, List.take_left' r.length_header]

theorem Files.Holds.readName (h : F.Holds dir D) (hD : D.records = pre ++ r :: rest)
    (hname : r.name ≠ []) :
    F.readFile dir (ulong ((recordBytes pre).length + 8)) r.name.length = some r.name := by
  have hle := record_le hD
  have hlt := D.size_lt
  have hpos := List.length_pos_iff.mpr hname
  rw [← h.size, Record.direntlen] at hle
  rw [← h.size] at hlt
  rw [ulong_of_lt (by omega), h.file _ _ hpos (by omega), ← List.drop_drop, drop_recordBytes hD,
    List.drop_left' r.length_header, List.take_left]

/-- The pass at a record: its name is visited unless it is empty. -/
theorem iteratePass_record {name : Option Bytes} (h : F.Holds dir D)
    (hD : D.records = pre ++ r :: rest) :
    iteratePass F.reader dir name ((recordBytes pre).length, ()) =
      if r.name ≠ [] then
        match recordNode F.reader ⟨r.inode, r.direntlen, r.name.length, r.filetype⟩ () with
        | (none, st) => ([], .inr (none, st))
        | (some found, st) =>
          visitName F.reader name ((recordBytes pre).length + r.direntlen) (cText r.name) found st
      else ([], .inl ((recordBytes pre).length + r.direntlen, ())) := by
  have hle := record_le hD
  have hlt := D.size_lt
  have hlen : 8 ≤ r.direntlen := Nat.le_add_right 8 _
  have hnext : ulong ((recordBytes pre).length + r.direntlen) =
      (recordBytes pre).length + r.direntlen := ulong_of_lt (Nat.lt_of_le_of_lt hle hlt)
  have hsize : (recordBytes pre).length < dir.size := by
    rw [h.size]
    omega
  have hread : F.reader.readFile dir (recordBytes pre).length 8 () = (some r.header, ()) :=
    congrArg (fun x => (x, ())) (h.readHeader hD)
  rw [iteratePass, if_pos hsize, hread]
  dsimp only
  rw [r.dirent_header, visitRecord]
  dsimp only
  rw [hnext]
  by_cases hname : r.name ≠ []
  · have hreadName : F.reader.readFile dir (ulong ((recordBytes pre).length + 8)) r.name.length () =
        (some r.name, ()) := congrArg (fun x => (x, ())) (h.readName hD hname)
    rw [if_pos hname, if_pos (fun hzero => hname (List.length_eq_zero_iff.mp hzero)), hreadName]
    dsimp only
    rcases recordNode F.reader ⟨r.inode, r.direntlen, r.name.length, r.filetype⟩ () with
      ⟨_ | found, u⟩
    · rfl
    · rfl
  · rw [if_neg hname, if_neg (fun hne => hname fun hnil => hne (List.length_eq_zero_iff.mpr hnil))]

/-! ## Looking a name up -/

/-- The loop does not pass a record: it has the name, or its type is in an inode that cannot be
read. -/
def Files.Stop (F : Files) (name : Bytes) (r : Record) : Prop :=
  r.name ≠ [] ∧ (cText r.name = cText name ∨ F.typeOf r = none)

instance (F : Files) (name : Bytes) (r : Record) : Decidable (F.Stop name r) :=
  inferInstanceAs (Decidable (_ ∧ (_ ∨ _)))

/-- The inode number and the type of a record. -/
def Files.entryOf (F : Files) (r : Record) : Option (Nat × FileType) :=
  (F.typeOf r).map fun t => (r.inode, t)

/-- The inode number and the type that are returned. -/
def Lookup.entry (found : Lookup) : Option (Nat × FileType) := found.map fun x => (x.1.ino, x.2)

/-- The node of a record has its number and its type. -/
theorem recordNode_entry (F : Files) (r : Record) (len namelen : Nat) :
    Lookup.entry (recordNode F.reader ⟨r.inode, len, namelen, r.filetype⟩ ()).1 = F.entryOf r := by
  rw [recordNode, Files.entryOf, Files.typeOf]
  by_cases htype : r.filetype ≠ 0
  · rw [if_pos htype, if_pos htype]
    rfl
  · rw [if_neg htype, if_neg htype, Files.reader]
    dsimp only
    cases F.readInode r.inode with
    | none => rfl
    | some inode => rfl

theorem iteratePass_skip (h : F.Holds dir D) (hD : D.records = pre ++ r :: rest)
    (hstop : ¬ F.Stop name r) :
    iteratePass F.reader dir (some name) ((recordBytes pre).length, ()) =
      ([], .inl ((recordBytes pre).length + r.direntlen, ())) := by
  rw [iteratePass_record h hD]
  by_cases hname : r.name ≠ []
  · have hentry := recordNode_entry F r r.direntlen r.name.length
    rw [if_pos hname]
    generalize recordNode F.reader ⟨r.inode, r.direntlen, r.name.length, r.filetype⟩ () = node
      at hentry ⊢
    obtain ⟨_ | found, u⟩ := node
    · have hnone : F.typeOf r = none := Option.map_eq_none_iff.mp hentry.symm
      exact absurd ⟨hname, Or.inr hnone⟩ hstop
    · exact if_neg fun heq => hstop ⟨hname, Or.inl heq⟩
  · rw [if_neg hname]

theorem iteratePass_stop (h : F.Holds dir D) (hD : D.records = pre ++ r :: rest)
    (hstop : F.Stop name r) :
    ∃ found, iteratePass F.reader dir (some name) ((recordBytes pre).length, ()) =
      ([], .inr (found, ())) ∧ Lookup.entry found = F.entryOf r := by
  have hentry := recordNode_entry F r r.direntlen r.name.length
  rw [iteratePass_record h hD, if_pos hstop.1]
  generalize recordNode F.reader ⟨r.inode, r.direntlen, r.name.length, r.filetype⟩ () = node
    at hentry ⊢
  obtain ⟨_ | found, u⟩ := node
  · exact ⟨none, rfl, hentry⟩
  · refine ⟨some found, if_pos ?_, hentry⟩
    refine hstop.2.resolve_right fun hnone => ?_
    rw [Files.entryOf, hnone] at hentry
    cases hentry

theorem iteratePass_end {name : Option Bytes} (h : F.Holds dir D) :
    iteratePass F.reader dir name ((recordBytes D.records).length, ()) = ([], .inr (none, ())) := by
  have hsize : ¬ (recordBytes D.records).length < dir.size := by
    rw [D.length_bytes, h.size]
    exact Nat.lt_irrefl _
  rw [iteratePass, if_neg hsize]

/-- The loop finds the first record that it does not pass. -/
theorem iteratePass_records (h : F.Holds dir D) (hD : D.records = pre ++ rest) :
    Ends (iteratePass F.reader dir (some name)) (fun _ => True)
      (fun x => Lookup.entry x.1 = (rest.find? (F.Stop name)).bind F.entryOf)
      ((recordBytes pre).length, ()) := by
  induction rest generalizing pre with
  | nil =>
    rw [List.append_nil] at hD
    rw [← hD]
    exact (ends_stop (iteratePass_end h)).mpr ⟨fun _ _ => trivial, rfl⟩
  | cons r rest ih =>
    by_cases hstop : F.Stop name r
    · obtain ⟨found, hpass, hentry⟩ := iteratePass_stop h hD hstop
      rw [List.find?_cons_of_pos (by simpa using hstop)]
      exact (ends_stop hpass).mpr ⟨fun _ _ => trivial, hentry⟩
    · have hnext := ih (show D.records = (pre ++ [r]) ++ rest by rw [List.append_assoc]; exact hD)
      rw [recordBytes_append, recordBytes_cons, List.length_append, List.length_append,
        r.length_bytes] at hnext
      rw [List.find?_cons_of_neg (by simpa using hstop)]
      exact (ends_next (iteratePass_skip h hD hstop)).mpr ⟨fun _ _ => trivial, hnext⟩

/-- The name of a record that is used is all of its text. -/
theorem Record.cText_name (hused : r.Used) : cText r.name = r.name :=
  List.takeWhile_eq_self_iff.mpr fun b hb => by
    simpa using fun hzero : b = 0 => (r.used_name hused).2 (hzero ▸ hb)

/-- A record that is used and has the name stops the loop. -/
theorem stop_of_used (hused : r.Used) (hname : r.name = cText name) : F.Stop name r :=
  ⟨(r.used_name hused).1, Or.inl ((Record.cText_name hused).trans hname)⟩

/-- A record that is used has a type. -/
theorem Files.Holds.typeOf_used (h : F.Holds dir D) (hr : r ∈ D.records) (hused : r.Used) :
    ∃ t, F.typeOf r = some t := by
  rw [Files.typeOf]
  by_cases htype : r.filetype ≠ 0
  · exact ⟨_, if_pos htype⟩
  · obtain ⟨inode, hinode⟩ := h.inodes r hr hused
    rw [if_neg htype, hinode]
    exact ⟨_, rfl⟩

theorem Files.entry_eq_none (h : F.Holds dir D) :
    F.entry D.records name = none ↔ ∀ r ∈ D.records, r.Used → r.name ≠ name := by
  rw [Files.entry, Option.bind_eq_none_iff]
  constructor
  · intro hnone r hr hused hname
    cases hfind : D.records.find? fun r => r.Used ∧ r.name = name with
    | none =>
      have := List.find?_eq_none.mp hfind r hr
      exact this (by simpa using ⟨hused, hname⟩)
    | some r' =>
      have hused' := List.find?_some hfind
      rw [decide_eq_true_iff] at hused'
      obtain ⟨t, ht⟩ := h.typeOf_used (List.mem_of_find?_eq_some hfind) hused'.1
      have := hnone r' hfind
      rw [ht] at this
      cases this
  · intro hall r hfind
    have hused := List.find?_some hfind
    rw [decide_eq_true_iff] at hused
    exact absurd hused.2 (hall r (List.mem_of_find?_eq_some hfind) hused.1)

/-- What is left over of the records that are not used does not matter: the first record that the
loop does not pass is used, or its type cannot be read and no record that is used has the name. -/
def Files.Harmless (F : Files) (rs : List Record) (name : Bytes) : Prop :=
  ∀ r, rs.find? (F.Stop name) = some r →
    r.Used ∨ F.typeOf r = none ∧ ∀ r' ∈ rs, r'.Used → r'.name ≠ cText name

/-- The record that the loop stops at is the right one. -/
theorem entry_eq_iff (h : F.Holds dir D) :
    (D.records.find? (F.Stop name)).bind F.entryOf = F.entry D.records (cText name) ↔
      F.Harmless D.records name := by
  rw [Files.Harmless]
  cases hfind : D.records.find? (F.Stop name) with
  | none =>
    refine iff_of_true ?_ (fun _ h => nomatch h)
    refine ((Files.entry_eq_none h).mpr fun r hr hused hname => ?_).symm
    have := List.find?_eq_none.mp hfind r hr
    exact this (by simpa using stop_of_used hused hname)
  | some r =>
    obtain ⟨hstop, as, bs, heq, hpassed⟩ := List.find?_eq_some_iff_append.mp hfind
    rw [decide_eq_true_iff] at hstop
    have hmem : r ∈ D.records := List.mem_of_find?_eq_some hfind
    change F.entryOf r = _ ↔ _
    by_cases hused : r.Used
    · obtain ⟨t, ht⟩ := h.typeOf_used hmem hused
      have hname : r.name = cText name := by
        rw [← Record.cText_name hused]
        exact hstop.2.resolve_right fun hnone => by
          rw [ht] at hnone
          cases hnone
      refine iff_of_true ?_ (fun r' hr' => Or.inl (Option.some.inj hr' ▸ hused))
      have hfirst : D.records.find? (fun r => r.Used ∧ r.name = cText name) = some r := by
        refine List.find?_eq_some_iff_append.mpr ⟨by simpa using ⟨hused, hname⟩, as, bs, heq, ?_⟩
        intro a ha
        have hpass : ¬ F.Stop name a := by simpa using hpassed a ha
        have hother : ¬ (a.Used ∧ a.name = cText name) := fun h => hpass (stop_of_used h.1 h.2)
        simpa only [Bool.not_eq_eq_eq_not, Bool.not_true, decide_eq_false_iff_not] using hother
      rw [Files.entry, hfirst]
      rfl
    · cases ht : F.typeOf r with
      | none =>
        rw [Files.entryOf, ht]
        refine eq_comm.trans ((Files.entry_eq_none h).trans ⟨?_, ?_⟩)
        · rintro hall r' hr'
          cases hr'
          exact Or.inr ⟨ht, hall⟩
        · intro hall
          exact ((hall r rfl).resolve_left hused).2
      | some t =>
        refine iff_of_false ?_ fun hall => ?_
        · intro heq'
          rw [Files.entryOf, ht, Files.entry] at heq'
          obtain ⟨r', hr', hentry⟩ := Option.bind_eq_some_iff.mp heq'.symm
          obtain ⟨t', -, hpair⟩ := Option.map_eq_some_iff.mp hentry
          have hused' := List.find?_some hr'
          rw [decide_eq_true_iff] at hused'
          have hino : r'.inode = r.inode := congrArg Prod.fst hpair
          exact hused fun hzero => hused'.1 (hino.trans hzero)
        · have := ((hall r rfl).resolve_left hused).1
          rw [ht] at this
          cases this

end Records

/-! ## The function -/

section Function

variable {F : Files} {node : Node} {inode : DiskInode} {name : Option Bytes} {Q : Lookup → Prop}

/-- `ext2fs_iterate_dir` returns, with such a result. -/
def Files.Returns (F : Files) (dir : Node) (name : Option Bytes) (Q : Lookup → Prop) : Prop :=
  ∃ fuel x, ext2fsIterateDir F.reader dir name fuel () = some x ∧ Q x.2.1

/-- What is wanted of a directory and a name: the loop comes to an end; and in a directory that is
well formed the name is looked up. -/
def LooksUp (F : Files) (dir : Node) (name : Option Bytes) : Prop :=
  F.Returns dir name (fun _ => True) ∧
    ∀ inode D s, F.inodeOf dir = some inode → F.Holds inode.toInode D → name = some s →
      F.Returns dir name fun found => found.entry = F.entry D.records (cText s)

theorem Files.returns_iff (h : F.inodeOf node = some inode) : F.Returns node name Q ↔
    Ends (iteratePass F.reader inode.toInode name) (fun _ => True) (fun x => Q x.1) (0, ()) := by
  have heq : ∀ fuel, ext2fsIterateDir F.reader node name fuel () =
      loop (iteratePass F.reader inode.toInode name) fuel (0, ()) := by
    intro fuel
    rw [ext2fsIterateDir, nodeInode_reader, h]
  constructor
  · rintro ⟨fuel, x, hx, hQ⟩
    exact ⟨fuel, x, (heq fuel).symm.trans hx, fun _ _ => trivial, hQ⟩
  · rintro ⟨fuel, x, hx, -, hQ⟩
    exact ⟨fuel, x, (heq fuel).trans hx, hQ⟩

theorem Files.returns_of_none (h : F.inodeOf node = none) (hQ : Q none) :
    F.Returns node name Q := by
  refine ⟨0, ([], (none, ())), ?_, hQ⟩
  rw [ext2fsIterateDir, nodeInode_reader, h]

/-- The loop comes to an end exactly if the chain of records is sound. -/
theorem iterateDir_ends_iff (h : F.inodeOf node = some inode) :
    F.Returns node name (fun _ => True) ↔ Sound F inode.toInode name := by
  rw [Files.returns_iff h, ends_iff_stops, ← stops_iff_sound]
  exact and_iff_left fun _ _ _ _ _ => trivial

/-- **In a directory** the first record that the loop does not pass is returned. -/
theorem iterateDir_directory {D : Directory} {s : Bytes} (h : F.inodeOf node = some inode)
    (hD : F.Holds inode.toInode D) :
    F.Returns node (some s) fun found =>
      found.entry = (D.records.find? (F.Stop s)).bind F.entryOf :=
  (Files.returns_iff h).mpr (iteratePass_records hD (show D.records = [] ++ D.records from rfl))

/-- A loop has one result. -/
theorem Files.Returns.unique {a b : Option (Nat × FileType)}
    (ha : F.Returns node name fun found => found.entry = a)
    (hb : F.Returns node name fun found => found.entry = b) : a = b := by
  cases h : F.inodeOf node with
  | none =>
    obtain ⟨fuel, x, hx, ha⟩ := ha
    obtain ⟨fuel', x', hx', hb⟩ := hb
    rw [ext2fsIterateDir, nodeInode_reader, h] at hx hx'
    cases hx
    cases hx'
    exact ha.symm.trans hb
  | some inode =>
    obtain ⟨fuel, x, -, -, ha, hb⟩ :=
      ((Files.returns_iff h).mp ha).and ((Files.returns_iff h).mp hb)
    exact ha.symm.trans hb

/-- **The lookup.**  It is right exactly if the chain of records is sound and what is left over of
records that are not used is harmless. -/
theorem iterateDir_right_iff (F : Files) (dir : Node) (name : Option Bytes) :
    LooksUp F dir name ↔ ∀ inode, F.inodeOf dir = some inode →
      Sound F inode.toInode name ∧
        ∀ D s, F.Holds inode.toInode D → name = some s → F.Harmless D.records s := by
  constructor
  · rintro ⟨hends, hfinds⟩ inode hinode
    refine ⟨(iterateDir_ends_iff hinode).mp hends, ?_⟩
    rintro D s hD rfl
    exact (entry_eq_iff hD).mp
      ((iterateDir_directory hinode hD).unique (hfinds inode D s hinode hD rfl))
  · intro hall
    constructor
    · cases hinode : F.inodeOf dir with
      | none => exact Files.returns_of_none hinode trivial
      | some inode => exact (iterateDir_ends_iff hinode).mpr (hall inode hinode).1
    · rintro inode D s hinode hD rfl
      have hharmless := (hall inode hinode).2 D s hD rfl
      obtain ⟨fuel, x, hx, hentry⟩ := iterateDir_directory (s := s) hinode hD
      exact ⟨fuel, x, hx, hentry.trans ((entry_eq_iff hD).mpr hharmless)⟩

end Function

/-! ## Two directories -/

/-- The inode of a directory of so many bytes. -/
def dirInode (size : Nat) : DiskInode where
  size := size
  dirBlocks k := 100 + k
  indirBlock := 0
  doubleIndirBlock := 0
  trippleIndirBlock := 0
  mode := 0o040755

def dotRecord : Record where
  inode := 12
  filetype := 2
  name := [0x2E]
  pad := List.replicate 3 0
  inode_lt := by decide
  filetype_lt := by decide
  name_lt := by decide
  len_lt := by decide
  aligned := by decide
  used_name _ := by decide

def dotdotRecord : Record where
  inode := 2
  filetype := 2
  name := [0x2E, 0x2E]
  pad := List.replicate 1002 0
  inode_lt := by decide
  filetype_lt := by decide
  name_lt := by decide
  len_lt := by rw [List.length_replicate]; decide
  aligned := by rw [List.length_replicate]; decide
  used_name _ := by decide

/-- The file `a`, which was deleted. -/
def deletedRecord : Record where
  inode := 0
  filetype := 1
  name := [0x61]
  pad := List.replicate 1015 0
  inode_lt := by decide
  filetype_lt := by decide
  name_lt := by decide
  len_lt := by rw [List.length_replicate]; decide
  aligned := by rw [List.length_replicate]; decide
  used_name h := absurd rfl h

theorem dotdotRecord_direntlen : dotdotRecord.direntlen = 1012 := by
  have hpad : dotdotRecord.pad.length = 1002 := List.length_replicate
  rw [Record.direntlen, hpad]
  rfl

theorem deletedRecord_direntlen : deletedRecord.direntlen = 1024 := by
  have hpad : deletedRecord.pad.length = 1015 := List.length_replicate
  rw [Record.direntlen, hpad]
  rfl

/-- The second block has only the file that was deleted. -/
def deletedDir : Directory where
  blksz := 1024
  blocks :=
    [⟨[dotRecord, dotdotRecord], by
        rw [length_recordBytes, List.map_cons, List.map_cons, dotdotRecord_direntlen]; rfl⟩,
      ⟨[deletedRecord], by rw [length_recordBytes, List.map_cons, deletedRecord_direntlen]; rfl⟩]
  size_lt := by decide

/-- A volume on which each inode is that of the directory. -/
def deletedFiles : Files where
  readFile _ pos len := some (((recordBytes deletedDir.records).drop pos).take len)
  readInode _ := some (dirInode 2048)

theorem deletedFiles_holds : deletedFiles.Holds (dirInode 2048).toInode deletedDir where
  size := rfl
  file _ _ _ _ := rfl
  inodes _ _ _ := ⟨_, rfl⟩

/-- A block of zeros. -/
def zeroFiles : Files where
  readFile _ _ len := some (List.replicate len 0)
  readInode _ := some (dirInode 1024)

/-- In a block of zeros there is no next record, and a file that was deleted is found. -/
theorem not_iterateDir_right :
    (¬ ∀ (F : Files) (dir : Node) (name : Option Bytes), F.Returns dir name fun _ => True) ∧
      ¬ ∀ (F : Files) (dir : Node) (name : Option Bytes), LooksUp F dir name := by
  constructor
  · intro h
    have hsound := (iterateDir_ends_iff
      (show zeroFiles.inodeOf ⟨12, none⟩ = some (dirInode 1024) from rfl)).mp
      (h zeroFiles ⟨12, none⟩ (some [0x61]))
    have hpasses : ∀ k ≤ 0, zeroFiles.Passes (dirInode 1024).toInode (some [0x61])
        (zeroFiles.recordAt (dirInode 1024).toInode k) := by
      intro k hk
      obtain rfl := Nat.le_zero.mp hk
      exact ⟨by decide, _, rfl, .inl (by decide)⟩
    exact absurd (hsound.long 0 hpasses) (by decide)
  · intro h
    have hfound := iterateDir_directory (s := [0x61])
      (show deletedFiles.inodeOf ⟨12, none⟩ = some (dirInode 2048) from rfl) deletedFiles_holds
    have hright := (h deletedFiles ⟨12, none⟩ (some [0x61])).2 (dirInode 2048) deletedDir [0x61] rfl
      deletedFiles_holds rfl
    exact absurd (hfound.unique hright) (by decide)

end UBoot.Fs.Ext2
