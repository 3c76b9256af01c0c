import UBoot.Common.MtdpartsText
import UBoot.Lib.Grouped
import Mathlib.Data.List.TakeWhile

/-!
# Writing the lists and reading them again

The text that `generate_mtdparts` writes gives the same lists when it is read, except in three
cases: a partition that is too small to be given, or one of the size that stands for the remaining
space in front of another one, makes `parse_mtdparts` fail, and partitions at one offset come back
in the opposite order.

* `parseDevices_text`: what is read.
* `roundTrip_iff`: the lists are the same exactly if none of this is the case.
-/

namespace UBoot.Common.Mtdparts

open UBoot.Lib
open UBoot.LibGeneric

/-! ## Adding partitions -/

/-- The order that `part_sort_add` keeps. -/
abbrev ByOffset (p q : Part) : Prop := p.offset ≤ q.offset

/-- Partitions are put into a list one after the other. -/
def insertAll (l : List Part) : List Part → Option (List Part)
  | [] => some l
  | part :: parts => (insertPart part l).bind fun r => insertAll r.1 parts

/-- The partitions, put into an empty list one after the other. -/
def putAll (parts : List Part) : List Part :=
  parts.foldl (fun l p => l.orderedInsert ByOffset p) []

section Add

variable {E : Type} [Environment E] {m : Mtd E} {dev : Device} {part new : Part}
  {parts l l' : List Part} {o : Option Part}

theorem insertPart_eq (h : insertPart new l = some (l', o)) :
    l' = l.orderedInsert ByOffset new := by
  induction l generalizing l' o with
  | nil =>
    cases h
    rfl
  | cons pi rest ih =>
    rw [insertPart] at h
    split at h
    · cases h
    split at h
    · rename_i hle
      cases h
      exact (List.orderedInsert_cons_of_le ByOffset rest hle).symm
    · rename_i hnot
      obtain ⟨⟨l₁, o₁⟩, hrest, heq⟩ := Option.map_eq_some_iff.mp h
      cases heq
      rw [List.orderedInsert_of_not_le ByOffset rest hnot, ← ih hrest]

/-- Only a second partition at offset 0 is refused. -/
theorem exists_insertPart (h : (new :: l).countP (fun p => p.offset = 0) ≤ 1) :
    ∃ o, insertPart new l = some (l.orderedInsert ByOffset new, o) := by
  have hsome : (insertPart new l).isSome := by
    induction l with
    | nil => rfl
    | cons pi rest ih =>
      rw [insertPart]
      split
      · rename_i hzero
        rw [List.countP_cons, List.countP_cons, if_pos (decide_eq_true hzero.2),
          if_pos (decide_eq_true (hzero.1.trans hzero.2))] at h
        omega
      split
      · rfl
      · rw [Option.isSome_map]
        have hsub : (new :: rest).Sublist (new :: pi :: rest) :=
          (List.sublist_cons_self pi rest).cons_cons new
        exact ih (hsub.countP_le.trans h)
  obtain ⟨⟨l', o⟩, hins⟩ := Option.isSome_iff_exists.mp hsome
  rw [insertPart_eq hins] at hins
  exact ⟨o, hins⟩

theorem indexPartitions_null (hcurr : m.currentMtdDev = none) :
    ∃ env, indexPartitions m = some { m with env := env } := by
  unfold indexPartitions
  rw [hcurr]
  exact ⟨_, rfl⟩

theorem partSortAdd_null (hcurr : m.currentMtdDev = none)
    (hfresh : ∀ d ∈ m.devices, d.addr ≠ dev.addr)
    (hins : insertPart part dev.parts = some (l, o)) :
    ∃ env, partSortAdd m dev part =
      some (some { dev with parts := l, numParts := dev.numParts + 1 }, { m with env := env }) := by
  have hupdate : m.update { dev with parts := l, numParts := dev.numParts + 1 } = m :=
    update_of_fresh hfresh
  obtain ⟨env, hindex⟩ := indexPartitions_null hcurr
  have hnot : m.currentMtdDev ≠ some dev.addr := by
    rw [hcurr]
    nofun
  refine ⟨env, ?_⟩
  unfold partSortAdd
  rw [if_neg hnot, hins]
  cases o with
  | none =>
    dsimp only
    rw [hupdate, hindex]
    rfl
  | some pi =>
    dsimp only
    rw [hupdate, hindex]
    rfl

/-- The partitions are put into the list one after the other, or one of them is refused. -/
theorem addParts_null (hcurr : m.currentMtdDev = none)
    (hfresh : ∀ d ∈ m.devices, d.addr ≠ dev.addr) :
    ∃ env, addParts m dev parts = some ((insertAll dev.parts parts).map fun l =>
      { dev with parts := l, numParts := dev.numParts + UInt16.ofNat parts.length },
      { m with env := env }) := by
  induction parts generalizing m dev with
  | nil =>
    have hnum : dev.numParts + UInt16.ofNat 0 = dev.numParts := UInt16.add_zero _
    refine ⟨m.env, ?_⟩
    rw [List.length_nil, hnum]
    rfl
  | cons part parts ih =>
    rw [addParts, insertAll]
    cases hins : insertPart part dev.parts with
    | none =>
      have hnot : m.currentMtdDev ≠ some dev.addr := by
        rw [hcurr]
        exact (Option.some_ne_none _).symm
      have hfilter : m.devices.filter (fun d => decide (d.addr ≠ dev.addr)) = m.devices :=
        List.filter_eq_self.mpr fun d hd => decide_eq_true (hfresh d hd)
      obtain ⟨env, hindex⟩ := indexPartitions_null hcurr
      refine ⟨env, ?_⟩
      have hadd : partSortAdd m dev part = some (none, m) := by
        unfold partSortAdd
        dsimp only
        rw [hins]
      have hdel : deviceDel m dev = some { m with env := env } := by
        unfold deviceDel
        dsimp only
        rw [if_neg hnot, hfilter]
        exact hindex
      rw [hadd, Option.bind_eq_bind, Option.bind_some]
      dsimp only
      rw [hdel]
      rfl
    | some r =>
      obtain ⟨l, o⟩ := r
      obtain ⟨env, hadd⟩ := partSortAdd_null hcurr hfresh hins
      obtain ⟨env', hall⟩ := @ih { m with env := env }
        { dev with parts := l, numParts := dev.numParts + 1 } hcurr hfresh
      refine ⟨env', ?_⟩
      have hnum : dev.numParts + 1 + UInt16.ofNat parts.length =
          dev.numParts + UInt16.ofNat (part :: parts).length := by
        rw [List.length_cons, UInt16.ofNat_add, UInt16.add_assoc, UInt16.add_comm 1]
        rfl
      rw [hadd, Option.bind_eq_bind, Option.bind_some, Option.bind_some]
      dsimp only at hall ⊢
      rw [hall, hnum]

theorem insertAll_perm (h : insertAll l parts = some l') : l'.Perm (parts ++ l) := by
  induction parts generalizing l with
  | nil =>
    cases h
    exact List.Perm.refl _
  | cons part parts ih =>
    obtain ⟨⟨l₁, o⟩, hins, h⟩ := Option.bind_eq_some_iff.mp h
    exact (ih h).trans (((insertPart_perm hins).append_left parts).trans List.perm_middle)

/-- With one partition at offset 0 at most, none is refused. -/
theorem insertAll_eq (hzero : (parts ++ l).countP (fun p => p.offset = 0) ≤ 1) :
    insertAll l parts = some (parts.foldl (fun l p => l.orderedInsert ByOffset p) l) := by
  induction parts generalizing l with
  | nil => rfl
  | cons part parts ih =>
    have hcount : (part :: l).countP (fun p => p.offset = 0) ≤ 1 := by
      have hsub : (part :: l).Sublist (part :: parts ++ l) :=
        (List.sublist_append_right parts l).cons_cons part
      exact hsub.countP_le.trans hzero
    obtain ⟨o, hins⟩ := exists_insertPart hcount
    have hperm : (parts ++ l.orderedInsert ByOffset part).Perm (part :: parts ++ l) :=
      ((List.perm_orderedInsert ByOffset part l).append_left parts).trans List.perm_middle
    rw [insertAll, hins, Option.bind_some]
    exact ih (by rw [hperm.countP_eq]; exact hzero)

/-- The partitions at one offset read the same from both ends. -/
def Mirrored {γ : Type} (g : Part → γ) (parts : List Part) : Prop :=
  ∀ offset, ((parts.filter fun p => p.offset = offset).map g).Palindrome

/-- A sorted list is put together again exactly if this is so. -/
theorem map_putAll_eq_iff {γ : Type} {g : Part → γ} {f : γ → Nat}
    (hg : ∀ p, f (g p) = p.offset.toNat) (hsorted : l.Pairwise fun p q => p.offset ≤ q.offset)
    (hmap : parts.map g = l.map g) : (putAll parts).map g = l.map g ↔ Mirrored g l := by
  have hput : (putAll parts).map g = (l.map g).reverse.insertionSort fun a c => f a ≤ f c := by
    have hfold : putAll parts = parts.reverse.insertionSort ByOffset := by
      rw [putAll, List.insertionSort, List.foldr_reverse]
    have hsort := List.map_insertionSort (r := ByOffset) (s := fun a c => f a ≤ f c) g
      parts.reverse fun p _ q _ => by
        rw [hg, hg]
        exact UInt32.le_iff_toNat_le
    rw [hfold, hsort, List.map_reverse, hmap]
  have hkeys : (l.map g).Pairwise fun a c => f a ≤ f c := by
    rw [List.pairwise_map]
    refine hsorted.imp fun h => ?_
    rw [hg, hg]
    exact UInt32.le_iff_toNat_le.mp h
  have hgroup : ∀ offset : UInt32, group f offset.toNat (l.map g) =
      (l.filter fun p => p.offset = offset).map g := by
    intro offset
    unfold group
    rw [List.filter_map]
    refine congrArg _ (List.filter_congr fun p _ => ?_)
    show decide (f (g p) = offset.toNat) = decide (p.offset = offset)
    rw [decide_eq_decide, hg, UInt32.toNat_inj]
  rw [hput, insertionSort_reverse_eq_iff hkeys]
  constructor
  · intro hall offset
    rw [← hgroup]
    exact hall offset.toNat
  · intro hall b
    by_cases hb : b < 2 ^ 32
    · have hoffset := hgroup (UInt32.ofNat b)
      rw [UInt32.toNat_ofNat_of_lt' hb] at hoffset
      rw [hoffset]
      exact hall _
    · have hnil : group f b (l.map g) = [] := by
        refine List.filter_eq_nil_iff.mpr fun a ha => ?_
        obtain ⟨p, -, rfl⟩ := List.mem_map.mp ha
        have := p.offset.toNat_lt
        rw [hg, decide_eq_true_eq]
        omega
      rw [hnil]
      exact List.Palindrome.nil

end Add

/-! ## What has been parsed -/

/-- What `device_parse` has found of a device. -/
structure Device.Parsed (flash : Flash) (mtdids : List MtdId) (dev : Device) : Prop where
  found : idFindByMtdId mtdids dev.id.mtdId = some dev.id
  colon : 0x3A ∉ dev.id.mtdId
  settled : ∀ p ∈ dev.parts, p.Written ∧ partValidate flash dev.id p = some p

section Parsed

variable {flash : Flash} {id : MtdId} {part : Part} {parts : List Part} {p rest : Bytes}
  {s : Bytes} {fuel addr : Nat} {offset : UInt32}

theorem parseName_named (h : parseName p = some (some s, rest)) : s ≠ [] ∧ 0x29 ∉ s := by
  unfold parseName at h
  split at h
  · dsimp only at h
    split at h
    · cases h
    split at h
    · cases h
    · rename_i hne
      cases h
      refine ⟨hne, ?_⟩
      intro hmem
      have hpos := List.mem_takeWhile_imp hmem
      cases hpos
  · cases h

/-- The name and the flag of a partition are such as are written. -/
theorem partParse_written (h : partParse addr p = some (part, rest)) :
    (part.autoName = false → part.name ≠ [] ∧ 0x29 ∉ part.name) ∧
      (part.maskFlags = 0 ∨ part.maskFlags = mtdWriteableCmd) := by
  unfold partParse at h
  obtain ⟨⟨size, p₁⟩, -, h⟩ := Option.bind_eq_some_iff.mp h
  obtain ⟨⟨name, p₂⟩, hname, h⟩ := Option.bind_eq_some_iff.mp h
  obtain ⟨p₃, -, h⟩ := Option.bind_eq_some_iff.mp h
  cases h
  constructor
  · intro hauto
    cases name with
    | none => cases hauto
    | some s => exact parseName_named hname
  · show (parseFlags p₂).1 = 0 ∨ (parseFlags p₂).1 = mtdWriteableCmd
    unfold parseFlags
    split
    · exact Or.inr rfl
    · exact Or.inl rfl

/-- A partition in its flash has an offset. -/
theorem Part.Valid.placed (h : part.Valid flash id) : part.offset ≠ offsetNotSpecified := by
  intro heq
  have hpos := h.size_pos
  have hle := h.stop_le
  have hlt := id.size.toNat_lt
  have hmax : part.offset.toNat = 4294967295 := by
    rw [heq]
    rfl
  omega

theorem parseParts_settled (h : parseParts flash id fuel p offset addr = some (parts, rest)) :
    ∀ p ∈ parts, p.Written ∧ partValidate flash id p = some p := by
  induction fuel generalizing p offset addr parts rest with
  | zero => cases h
  | succ fuel ih =>
    rw [parseParts] at h
    obtain ⟨⟨part, p₁⟩, hparse, h⟩ := Option.bind_eq_some_iff.mp h
    obtain ⟨part', hvalid, h⟩ := Option.bind_eq_some_iff.mp h
    obtain ⟨hname, hflags⟩ := partParse_written hparse
    have hpart : part'.Written ∧ partValidate flash id part' = some part' := by
      have hplaced := (partValidate_valid hvalid).placed
      have hagain := partValidate_again hvalid
      obtain ⟨o, ho⟩ : ∃ o, part.placeAt offset = { part with offset := o } := by
        unfold Part.placeAt
        split
        · exact ⟨_, rfl⟩
        · exact ⟨part.offset, rfl⟩
      obtain ⟨size, sector, heq⟩ := partValidate_frame hvalid
      rw [ho] at heq
      refine ⟨⟨?_, ?_, hplaced⟩, hagain⟩
      · rw [heq]
        exact hname
      · rw [heq]
        exact hflags
    dsimp only at h
    split at h
    · cases h
      intro q hq
      rw [List.mem_singleton.mp hq]
      exact hpart
    · obtain ⟨⟨parts', p₂⟩, hrest, h⟩ := Option.bind_eq_some_iff.mp h
      cases h
      intro q hq
      rcases List.mem_cons.mp hq with rfl | hq
      · exact hpart
      · exact ih hrest q hq

end Parsed

section Lists

variable {E : Type} [Environment E] {flash : Flash} {m m' : Mtd E} {dev dev' : Device}
  {parts : List Part} {mtdids : List MtdId} {s rest : Bytes} {fuel : Nat}

/-- A device that has been parsed is the one of its name, with the partitions of the text. -/
theorem deviceParse_cases (hcurr : m.currentMtdDev = none) (hfresh : Fresh m)
    (h : deviceParse flash m s = some (some (dev, rest), m')) :
    ∃ c p offset parts p', s.dropWhile (fun c => decide (c ≠ 0x3A)) = c :: p ∧
      idFindByMtdId m.mtdids (s.takeWhile fun c => decide (c ≠ 0x3A)) = some dev.id ∧
      parseParts flash dev.id p.length p offset m.next = some (parts, p') ∧
      (∀ q ∈ dev.parts, q ∈ parts) ∧ rest = if charAt p' = 0x3B then p'.tail else p' := by
  unfold deviceParse at h
  split at h
  · cases h
  · cases h
  · rename_i c p id hspan hid
    obtain ⟨offset, -, h⟩ := Option.bind_eq_some_iff.mp h
    cases hparts : parseParts flash id p.length p offset m.next with
    | none =>
      rw [hparts] at h
      cases h
    | some found =>
      obtain ⟨parts, p'⟩ := found
      rw [hparts] at h
      dsimp only at h
      split at h
      · cases h
      obtain ⟨⟨r, m₁⟩, hadd, h⟩ := Option.bind_eq_some_iff.mp h
      cases r with
      | none => cases h
      | some dev₁ =>
        cases h
        obtain ⟨env, hall⟩ := @addParts_null E _ { m with next := m.next + parts.length + 1 }
          ⟨m.next + parts.length, id, 0, []⟩ parts hcurr
          (fun d hd => by have := hfresh d hd; dsimp only; omega)
        rw [hall] at hadd
        obtain ⟨l, hl, hdevl⟩ := Option.map_eq_some_iff.mp (Prod.mk.inj (Option.some.inj hadd)).1
        have hdevid : dev.id = id := by rw [← hdevl]
        rw [hdevid]
        refine ⟨c, p, offset, parts, p', hspan, hid, hparts, ?_, rfl⟩
        intro q hq
        rw [← hdevl] at hq
        rw [← List.append_nil parts]
        exact (insertAll_perm hl).mem_iff.mp hq

theorem deviceParse_parsed (hcurr : m.currentMtdDev = none) (hfresh : Fresh m)
    (h : deviceParse flash m s = some (some (dev, rest), m')) : dev.Parsed flash m.mtdids := by
  obtain ⟨c, p, offset, parts, p', -, hid, hparts, hmem, -⟩ := deviceParse_cases hcurr hfresh h
  have hname : dev.id.mtdId = s.takeWhile fun c => decide (c ≠ 0x3A) := by
    have hfound := List.find?_some hid
    exact of_decide_eq_true hfound
  refine ⟨?_, ?_, fun q hq => parseParts_settled hparts q (hmem q hq)⟩
  · rw [hname]
    exact hid
  · rw [hname]
    intro hcolon
    have hpos := List.mem_takeWhile_imp hcolon
    cases hpos

/-- What holds of every device that is parsed, and of the text behind it, holds of the lists. -/
theorem parseDevices_forall {P : Bytes → Prop} {Q : Device → Prop} {rc : Bool}
    (hstep : ∀ (n n' : Mtd E) s dev rest, n.mtdids = m.mtdids → n.currentMtdDev = none → Fresh n →
      P s → deviceParse flash n s = some (some (dev, rest), n') → Q dev ∧ P rest)
    (hcurr : m.currentMtdDev = none) (hfresh : Fresh m) (hlen : s.length < 2 ^ 16) (hs : P s)
    (hdevices : ∀ dev ∈ m.devices, Q dev) (h : parseDevices flash fuel s m = some (rc, m')) :
    (∃ env next devices, m' = { m with env := env, next := next, devices := devices }) ∧
      ∀ dev ∈ m'.devices, Q dev := by
  have hrefused : ∀ env next, m' = { m with env := env, next := next, devices := [] } →
      (∃ env next devices, m' = { m with env := env, next := next, devices := devices }) ∧
        ∀ dev ∈ m'.devices, Q dev := by
    rintro env next rfl
    exact ⟨⟨env, next, [], rfl⟩, fun dev hdev => by cases hdev⟩
  induction fuel generalizing m s with
  | zero =>
    cases h
    exact hrefused m.env m.next rfl
  | succ fuel ih =>
    rw [parseDevices] at h
    obtain ⟨⟨r, m₁⟩, hparse, h⟩ := Option.bind_eq_some_iff.mp h
    obtain ⟨env, next, rfl, hnext, hdev⟩ := deviceParse_ok hcurr hfresh hlen hparse
    cases r with
    | none =>
      cases h
      exact hrefused env next rfl
    | some found =>
      obtain ⟨dev, rest⟩ := found
      obtain ⟨-, -, hlt, hrest⟩ := hdev dev rest rfl
      obtain ⟨hQ, hP⟩ := hstep m _ s dev rest rfl hcurr hfresh hs hparse
      have hall : ∀ d ∈ m.devices ++ [dev], Q d := by
        intro d hd
        rcases List.mem_append.mp hd with hd | hd
        · exact hdevices d hd
        · rw [List.mem_singleton.mp hd]
          exact hQ
      dsimp only at h
      split at h
      · cases h
        exact hrefused env next rfl
      split at h
      · cases h
        exact ⟨⟨env, next, _, rfl⟩, hall⟩
      · refine @ih { m with env := env, next := next, devices := m.devices ++ [dev] } rest hstep
          hcurr ?_ (by omega) hP hall h hrefused
        intro d hd
        rcases List.mem_append.mp hd with hd | hd
        · exact (hfresh d hd).trans_le hnext
        · rw [List.mem_singleton.mp hd]
          exact hlt

/-- The lists after `parse_mtdparts` has returned 0, or after a call of `part_del`, whatever is
current and in the environment.  `mtdparts_init` has checked the length of the variable. -/
inductive BuildStep (flash : Flash) : Mtd E → Mtd E → Prop
  | parse {m m₀ m' : Mtd E} {env : E} {s : Bytes}
      (hinit : mtdDevicesInit { m with env := env } = some m₀)
      (hget : Environment.getenv m₀.env (str "mtdparts") = some s)
      (hlen : s.length ≤ mtdpartsMaxlen - 1)
      (hparse : parseMtdparts flash { m with env := env } = some (true, m')) : BuildStep flash m m'
  | del {m m' : Mtd E} (hdel : DelStep m m') : BuildStep flash m m'

/-- The lists can be built from none. -/
def Built (flash : Flash) (m : Mtd E) : Prop :=
  ∃ start : Mtd E, start.devices = [] ∧ start.mtdids = m.mtdids ∧
    Relation.ReflTransGen (BuildStep flash) start m

/-- What holds of the lists. -/
structure BuiltOk (flash : Flash) (mtdids : List MtdId) (devices : List Device) : Prop extends
    DevicesOk flash devices where
  parsed : ∀ dev ∈ devices, dev.Parsed flash mtdids

theorem parseMtdparts_forall {P : Bytes → Prop} {Q : Device → Prop} {m₀ : Mtd E} {rc : Bool}
    (hstep : ∀ (n n' : Mtd E) s dev rest, n.mtdids = m.mtdids → n.currentMtdDev = none → Fresh n →
      P s → deviceParse flash n s = some (some (dev, rest), n') → Q dev ∧ P rest)
    (hinit : mtdDevicesInit m = some m₀)
    (hget : Environment.getenv m₀.env (str "mtdparts") = some s)
    (hlen : s.length ≤ mtdpartsMaxlen - 1) (hs : P (s.drop 9))
    (h : parseMtdparts flash m = some (rc, m')) :
    (∃ env next devices, m' = { m with
      env := env, next := next, devices := devices, lastParts := [], lastPartition := [],
      currentMtdDev := none }) ∧ ∀ dev ∈ m'.devices, Q dev := by
  have hmax : mtdpartsMaxlen = 512 := rfl
  unfold parseMtdparts at h
  rw [hinit, Option.bind_eq_bind, Option.bind_some, hget, Option.bind_eq_bind,
    Option.bind_some] at h
  obtain ⟨env, rfl⟩ := mtdDevicesInit_frame hinit
  split at h
  · obtain ⟨⟨env', next, devices, hm'⟩, hQ⟩ := @parseDevices_forall E _ flash { m with
        env := env, lastParts := [], lastPartition := [], currentMtdDev := none, devices := [] }
      m' _ _ P Q rc hstep rfl (fun d hd => by cases hd) (by rw [List.length_drop]; omega) hs
      (fun d hd => by cases hd) h
    exact ⟨⟨env', next, devices, hm'⟩, hQ⟩
  · cases h
    exact ⟨⟨env, m.next, [], rfl⟩, fun dev hdev => by cases hdev⟩

theorem parseMtdparts_parsed {m₀ : Mtd E} {rc : Bool} (hinit : mtdDevicesInit m = some m₀)
    (hget : Environment.getenv m₀.env (str "mtdparts") = some s)
    (hlen : s.length ≤ mtdpartsMaxlen - 1) (h : parseMtdparts flash m = some (rc, m')) :
    m'.mtdids = m.mtdids ∧ ∀ dev ∈ m'.devices, dev.Parsed flash m.mtdids := by
  obtain ⟨⟨env, next, devices, rfl⟩, hparsed⟩ := @parseMtdparts_forall E _ flash m m' s
    (fun _ => True) (Device.Parsed flash m.mtdids) m₀ rc
    (fun n n' s dev rest hids hcurr hfresh _ hparse =>
      ⟨hids ▸ deviceParse_parsed hcurr hfresh hparse, trivial⟩) hinit hget hlen trivial h
  exact ⟨rfl, hparsed⟩

theorem deviceDel_mtdids (h : deviceDel m dev = some m') : m'.mtdids = m.mtdids := by
  unfold deviceDel at h
  dsimp only at h
  split at h
  · split at h
    · obtain ⟨env, last, rfl⟩ := currentSave_frame h
      rfl
    · obtain ⟨env, last, rfl⟩ := currentSave_frame h
      rfl
  · obtain ⟨env, rfl⟩ := indexPartitions_frame h
    rfl

theorem partDel_mtdids {part : Part} (h : partDel m dev part = some m') :
    m'.mtdids = m.mtdids := by
  unfold partDel at h
  split at h
  · exact deviceDel_mtdids h
  · dsimp only at h
    split at h
    · obtain ⟨env, last, rfl⟩ := currentSave_frame h
      rfl
    · obtain ⟨env, rfl⟩ := indexPartitions_frame h
      rfl

/-- What holds of every device, also with a partition less, holds of what is left. -/
theorem partDel_forall {Q : Device → Prop} {part : Part}
    (herase : ∀ (dev : Device) f n, Q dev →
      Q { dev with parts := dev.parts.eraseP f, numParts := n })
    (hdevices : ∀ dev ∈ m.devices, Q dev) (hdev : dev ∈ m.devices)
    (h : partDel m dev part = some m') : ∀ dev ∈ m'.devices, Q dev := by
  have hdel := partDel_devices h
  split at hdel
  · rw [hdel]
    intro d hd
    exact hdevices d (List.mem_of_mem_filter hd)
  · rw [hdel]
    intro d hd
    obtain ⟨d₀, hd₀, rfl⟩ := List.mem_map.mp hd
    split
    · exact herase dev _ _ (hdevices dev hdev)
    · exact hdevices d₀ hd₀

theorem Device.Parsed.erase {f : Part → Bool} {n : UInt16} (h : dev.Parsed flash mtdids) :
    ({ dev with parts := dev.parts.eraseP f, numParts := n } : Device).Parsed flash mtdids :=
  ⟨h.found, h.colon, fun p hp => h.settled p (List.mem_of_mem_eraseP hp)⟩

/-- Every step keeps the lists in order. -/
theorem BuildStep.ok (hok : BuiltOk flash m.mtdids m.devices) (h : BuildStep flash m m') :
    m'.mtdids = m.mtdids ∧ BuiltOk flash m.mtdids m'.devices := by
  cases h with
  | parse hinit hget hlen hparse =>
    obtain ⟨hmtdids, hparsed⟩ := parseMtdparts_parsed hinit hget hlen hparse
    exact ⟨hmtdids, ⟨(parseMtdparts_ok hinit hget hlen hparse).1, hparsed⟩⟩
  | del hdel =>
    obtain ⟨env, curr, partnum, dev, hdev, part, hpart, hdel⟩ := hdel
    have hlists := @partDel_ok E _ flash
      { m with env := env, currentMtdDev := curr, currentMtdPartnum := partnum } m' dev part
      hok.toDevicesOk hdev hpart hdel
    have hparsed := @partDel_forall E _
      { m with env := env, currentMtdDev := curr, currentMtdPartnum := partnum } m' dev
      (Device.Parsed flash m.mtdids) part (fun _ _ _ h => h.erase) hok.parsed hdev hdel
    have hmtdids := @partDel_mtdids E _
      { m with env := env, currentMtdDev := curr, currentMtdPartnum := partnum } m' dev part hdel
    exact ⟨hmtdids, hlists, hparsed⟩

theorem Built.ok (h : Built flash m) : BuiltOk flash m.mtdids m.devices := by
  obtain ⟨start, hnil, hmtdids, hsteps⟩ := h
  have hrun : m.mtdids = start.mtdids ∧ BuiltOk flash start.mtdids m.devices := by
    clear hmtdids
    induction hsteps with
    | refl =>
      rw [hnil]
      exact ⟨rfl, ⟨fun d hd => (by cases hd), List.Pairwise.nil, List.nodup_nil⟩,
        fun d hd => by cases hd⟩
    | tail _ hstep ih =>
      obtain ⟨hmtdids, hok⟩ := ih
      rw [← hmtdids] at hok
      obtain ⟨hnext, hnextOk⟩ := hstep.ok hok
      rw [hmtdids] at hnext hnextOk
      exact ⟨hnext, hnextOk⟩
  rw [hrun.1]
  exact hrun.2

end Lists

/-! ## Reading the text -/

/-- What of a device is read back. -/
def Device.view (dev : Device) : MtdId × List Key := (dev.id, dev.parts.map Part.key)

/-- The device that stands in the place of one when the text has been read. -/
def Device.again (dev : Device) (addr : Nat) : Device :=
  ⟨addr + dev.parts.length, dev.id, dev.numParts, putAll (readAgain addr none dev.parts)⟩

def devicesAgain : Nat → List Device → List Device
  | _, [] => []
  | addr, dev :: devices => dev.again addr :: devicesAgain (addr + dev.parts.length + 1) devices

section Reread

variable {E : Type} [Environment E] {flash : Flash} {m m' : Mtd E} {dev : Device}
  {devices : List Device} {rest : Bytes} {fuel : Nat}

/-- A partition at offset 0 is one in the list of keys. -/
theorem countP_key (parts : List Part) : parts.countP (fun p => p.offset = 0) =
    (parts.map Part.key).countP (fun k => k.offset = 0) := by
  rw [List.countP_map]
  rfl

/-- A device with an id that is known, as the first of its device. -/
theorem deviceParse_found {id : MtdId} {mtdDev text : Bytes}
    (hid : idFindByMtdId m.mtdids (mtdDev.takeWhile fun c => decide (c ≠ 0x3A)) = some id)
    (hdrop : mtdDev.dropWhile (fun c => decide (c ≠ 0x3A)) = 0x3A :: text)
    (hstart : startOffset m.devices id = some 0) :
    deviceParse flash m mtdDev =
      match parseParts flash id text.length text 0 m.next with
      | none => some (none, m)
      | some (parts, p) =>
        if UInt16.ofNat parts.length = 0 then some (none, m)
        else (addParts { m with next := m.next + parts.length + 1 }
          ⟨m.next + parts.length, id, 0, []⟩ parts).bind fun r =>
            match r with
            | (none, m) => some (none, m)
            | (some dev, m) => some (some (dev, if charAt p = 0x3B then p.tail else p), m) := by
  unfold deviceParse
  rw [hdrop, hid]
  dsimp only
  rw [hstart]
  rfl

theorem deviceParse_text (hok : dev.Ok flash) (hparsed : dev.Parsed flash m.mtdids)
    (hcurr : m.currentMtdDev = none) (hfresh : Fresh m) (hrest : DeviceEnds rest)
    (hnew : deviceFind m.devices dev.id.type dev.id.num = none) :
    (Readable dev.parts → ∃ env,
      deviceParse flash m (dev.id.mtdId ++ (str ":" ++ (partsText none dev.parts ++ rest))) =
        some (some (dev.again m.next, if charAt rest = 0x3B then rest.tail else rest),
          { m with env := env, next := m.next + dev.parts.length + 1 })) ∧
    (¬ Readable dev.parts →
      deviceParse flash m (dev.id.mtdId ++ (str ":" ++ (partsText none dev.parts ++ rest))) =
        some (none, m)) := by
  have hpos : ∀ c ∈ dev.id.mtdId, decide (c ≠ 0x3A) = true := by
    intro c hc
    refine decide_eq_true ?_
    rintro rfl
    exact hparsed.colon hc
  obtain ⟨text, htext⟩ : ∃ text, text = partsText none dev.parts ++ rest := ⟨_, rfl⟩
  have htake : (dev.id.mtdId ++ (str ":" ++ text)).takeWhile (fun c => decide (c ≠ 0x3A)) =
      dev.id.mtdId := by
    rw [List.takeWhile_append_of_pos hpos]
    exact List.append_nil _
  have hdrop : (dev.id.mtdId ++ (str ":" ++ text)).dropWhile (fun c => decide (c ≠ 0x3A)) =
      0x3A :: text := by
    rw [List.dropWhile_append_of_pos hpos]
    rfl
  have hstart : startOffset m.devices dev.id = some 0 := by
    unfold startOffset
    rw [hnew]
  obtain ⟨hread, hrefused⟩ := @parseParts_text flash dev.id dev.parts none rest m.next text.length
    hok.nonempty hrest hparsed.settled (by rw [htext])
  rw [← htext, show endOf none = 0 from rfl] at hread hrefused
  rw [← htext]
  have hfound : idFindByMtdId m.mtdids ((dev.id.mtdId ++ (str ":" ++ text)).takeWhile
      fun c => decide (c ≠ 0x3A)) = some dev.id := by
    rw [htake]
    exact hparsed.found
  rw [deviceParse_found hfound hdrop hstart]
  refine ⟨fun hreadable => ?_, fun hnot => ?_⟩
  · have hlen : (readAgain m.next none dev.parts).length = dev.parts.length := length_readAgain
    have hnum : UInt16.ofNat dev.parts.length = dev.numParts := by
      rw [← hok.numParts, UInt16.ofNat_toNat]
    have hcount : dev.numParts ≠ 0 := by
      intro hzero
      have hnum := hok.numParts
      rw [hzero] at hnum
      exact hok.nonempty (List.length_eq_zero_iff.mp hnum.symm)
    have hzero : (readAgain m.next none dev.parts ++ []).countP (fun p : Part => p.offset = 0) ≤
        1 := by
      rw [List.append_nil, countP_key, map_key_readAgain, ← countP_key]
      exact hok.atZero
    obtain ⟨env, hadd⟩ := @addParts_null E _ { m with next := m.next + dev.parts.length + 1 }
      ⟨m.next + dev.parts.length, dev.id, 0, []⟩ (readAgain m.next none dev.parts) hcurr
      (fun d hd => by have := hfresh d hd; dsimp only; omega)
    have hinsert := insertAll_eq hzero
    refine ⟨env, ?_⟩
    rw [hread hreadable]
    dsimp only
    rw [hlen, hnum, if_neg hcount, hadd]
    dsimp only
    rw [hinsert, hlen, hnum, UInt16.zero_add]
    rfl
  · rw [hrefused hnot]

omit [Environment E] in
theorem deviceFind_append {dev' d : Device} (hnew : deviceFind m.devices d.id.type d.id.num = none)
    (hdiff : ¬ (dev'.id.type = d.id.type ∧ dev'.id.num = d.id.num)) :
    deviceFind (m.devices ++ [dev']) d.id.type d.id.num = none := by
  unfold deviceFind at hnew ⊢
  rw [List.find?_append, hnew, Option.none_or, List.find?_cons_of_neg]
  · rfl
  · simpa using hdiff

theorem BuiltOk.tail {mtdids : List MtdId} (h : BuiltOk flash mtdids (dev :: devices)) :
    BuiltOk flash mtdids devices := by
  refine ⟨⟨fun d hd => h.ok d (List.mem_cons_of_mem _ hd),
    (List.pairwise_cons.mp h.distinct).2, ?_⟩, fun d hd => h.parsed d (List.mem_cons_of_mem _ hd)⟩
  have hnodup := h.nodup
  rw [List.map_cons, List.nodup_cons] at hnodup
  exact hnodup.2

/-- **What is read** of a text that has been written. -/
theorem parseDevices_text (hok : BuiltOk flash m.mtdids devices) (hne : devices ≠ [])
    (hcurr : m.currentMtdDev = none) (hfresh : Fresh m)
    (hnew : ∀ dev ∈ devices, deviceFind m.devices dev.id.type dev.id.num = none)
    (hfuel : (devicesText devices).length ≤ fuel) :
    ((∀ dev ∈ devices, Readable dev.parts) → ∃ env next,
      parseDevices flash fuel (devicesText devices) m = some (true, { m with
        env := env, next := next, devices := m.devices ++ devicesAgain m.next devices })) ∧
    ((∃ dev ∈ devices, ¬ Readable dev.parts) → ∃ m',
      parseDevices flash fuel (devicesText devices) m = some (false, m')) := by
  induction devices generalizing m fuel with
  | nil => exact absurd rfl hne
  | cons dev more ih =>
    obtain ⟨rest, hrestDef⟩ : ∃ rest, rest = (if more = [] then [] else str ";") ++
      devicesText more := ⟨_, rfl⟩
    have hrest : DeviceEnds rest ∧ (if charAt rest = 0x3B then rest.tail else rest) =
        devicesText more ∧ (devicesText more).length ≤ rest.length := by
      rw [hrestDef]
      cases more with
      | nil => exact ⟨fun c hc => (by cases hc), rfl, le_rfl⟩
      | cons d more =>
        refine ⟨?_, rfl, Nat.le_succ _⟩
        intro c hc
        cases hc
        exact List.mem_singleton_self _
    obtain ⟨hends, hnext, hlen⟩ := hrest
    have htext : devicesText (dev :: more) =
        dev.id.mtdId ++ (str ":" ++ (partsText none dev.parts ++ rest)) := by
      rw [hrestDef, devicesText]
    rw [htext] at hfuel ⊢
    have hcolon : (str ":").length = 1 := rfl
    rw [List.length_append, List.length_append, List.length_append, hcolon] at hfuel
    obtain ⟨fuel, rfl⟩ : ∃ n, fuel = n + 1 := ⟨fuel - 1, by omega⟩
    obtain ⟨hread, hrefused⟩ := deviceParse_text (hok.ok dev List.mem_cons_self)
      (hok.parsed dev List.mem_cons_self) hcurr hfresh hends (hnew dev List.mem_cons_self)
    by_cases hreadable : Readable dev.parts
    · obtain ⟨env, hparse⟩ := hread hreadable
      rw [hnext] at hparse
      have hstep : parseDevices flash (fuel + 1)
          (dev.id.mtdId ++ (str ":" ++ (partsText none dev.parts ++ rest))) m =
          if devicesText more = [] then
            some (true, { m with
              env := env
              next := m.next + dev.parts.length + 1
              devices := m.devices ++ [dev.again m.next] })
          else parseDevices flash fuel (devicesText more) { m with
            env := env
            next := m.next + dev.parts.length + 1
            devices := m.devices ++ [dev.again m.next] } := by
        rw [parseDevices, hparse, Option.bind_eq_bind, Option.bind_some]
        dsimp only [Device.again]
        rw [hnew dev List.mem_cons_self]
        rfl
      rw [hstep]
      cases more with
      | nil =>
        refine ⟨fun _ => ⟨_, _, if_pos rfl⟩, ?_⟩
        rintro ⟨d, hd, hnot⟩
        rw [List.mem_singleton.mp hd] at hnot
        exact absurd hreadable hnot
      | cons d more =>
        have htextne : devicesText (d :: more) ≠ [] := by
          intro hnil
          have hl := congrArg List.length hnil
          rw [devicesText, List.length_append, List.length_append, hcolon, List.length_nil] at hl
          omega
        have hfresh' : Fresh { m with
            env := env
            next := m.next + dev.parts.length + 1
            devices := m.devices ++ [dev.again m.next] } := by
          intro e he
          rcases List.mem_append.mp he with he | he
          · have := hfresh e he
            dsimp only
            omega
          · rw [List.mem_singleton.mp he]
            exact Nat.lt_succ_self _
        obtain ⟨hreadMore, hrefusedMore⟩ := @ih { m with
            env := env
            next := m.next + dev.parts.length + 1
            devices := m.devices ++ [dev.again m.next] } fuel hok.tail
          (List.cons_ne_nil _ _) hcurr hfresh' (by
            intro e he
            exact deviceFind_append (hnew e (List.mem_cons_of_mem _ he))
              ((List.pairwise_cons.mp hok.distinct).1 e he)) (by omega)
        rw [if_neg htextne]
        refine ⟨fun hall => ?_, ?_⟩
        · obtain ⟨env', next, hparsed⟩ :=
            hreadMore fun e he => hall e (List.mem_cons_of_mem _ he)
          refine ⟨env', next, ?_⟩
          rw [hparsed]
          dsimp only
          rw [List.append_assoc]
          rfl
        · rintro ⟨e, he, hnot⟩
          rcases List.mem_cons.mp he with rfl | he
          · exact absurd hreadable hnot
          · exact hrefusedMore ⟨e, he, hnot⟩
    · refine ⟨fun hall => absurd (hall dev List.mem_cons_self) hreadable, fun _ => ?_⟩
      refine ⟨{ m with devices := [] }, ?_⟩
      rw [parseDevices, hrefused hreadable]
      rfl

/-- The partitions of a device come back. -/
def RoundTrips (dev : Device) : Prop := Readable dev.parts ∧ Mirrored Part.key dev.parts

theorem view_again_iff {addr : Nat} (hlisted : dev.Listed) :
    (dev.again addr).view = dev.view ↔ Mirrored Part.key dev.parts := by
  have hput := @map_putAll_eq_iff (readAgain addr none dev.parts) dev.parts Key Part.key
    (fun k => k.offset.toNat) (fun _ => rfl) hlisted.sorted map_key_readAgain
  rw [← hput]
  unfold Device.view
  rw [Prod.mk.injEq]
  exact and_iff_right rfl

/-- What holds of every device that is read again. -/
theorem map_devicesAgain_iff {γ : Type} {h : Device → γ} {Q : Device → Prop} {n : Nat}
    (hiff : ∀ dev ∈ devices, ∀ addr, h (dev.again addr) = h dev ↔ Q dev) :
    (devicesAgain n devices).map h = devices.map h ↔ ∀ dev ∈ devices, Q dev := by
  induction devices generalizing n with
  | nil => simp [devicesAgain]
  | cons dev devices ih =>
    rw [devicesAgain, List.map_cons, List.map_cons, List.cons.injEq,
      hiff dev List.mem_cons_self, ih fun d hd => hiff d (List.mem_cons_of_mem _ hd),
      List.forall_mem_cons]

/-- **The lists come back** when the text that is written for them is read, exactly if there is a
device, no partition is too small to be given or stands for the remaining space in front of another
one, and the partitions at one offset read the same from both ends. -/
theorem roundTrip_iff {m₀ m₁ : Mtd E} {s : Bytes} {buflen : Nat} (hbuilt : Built flash m)
    (hgenerate : generateMtdparts m.devices buflen = .ok s) (hmtdids : m₁.mtdids = m.mtdids)
    (hinit : mtdDevicesInit m₁ = some m₀)
    (hget : Environment.getenv m₀.env (str "mtdparts") = some s) :
    (∃ m₂, parseMtdparts flash m₁ = some (true, m₂) ∧
      m₂.devices.map Device.view = m.devices.map Device.view) ↔
      m.devices ≠ [] ∧ ∀ dev ∈ m.devices, RoundTrips dev := by
  have hok := hbuilt.ok
  obtain ⟨env, rfl⟩ := mtdDevicesInit_frame hinit
  by_cases hne : m.devices = []
  · rw [hne] at hgenerate
    cases hgenerate
    have hparse : parseMtdparts flash m₁ = some (false, { m₁ with
        env := env, lastParts := [], lastPartition := [], currentMtdDev := none,
        devices := [] }) := by
      unfold parseMtdparts
      rw [hinit, Option.bind_eq_bind, Option.bind_some, hget]
      rfl
    refine ⟨?_, fun h => absurd hne h.1⟩
    rintro ⟨m₂, hm₂, -⟩
    rw [hparse] at hm₂
    cases hm₂
  obtain rfl := generateMtdparts_eq hne (fun dev hdev => (hok.ok dev hdev).numParts) hgenerate
  obtain ⟨start, hstart⟩ : ∃ start, start = { m₁ with
    env := env, lastParts := [], lastPartition := [], currentMtdDev := none, devices := [] } :=
    ⟨_, rfl⟩
  have hparse : parseMtdparts flash m₁ = parseDevices flash
      (str "mtdparts=" ++ devicesText m.devices).length (devicesText m.devices) start := by
    unfold parseMtdparts
    rw [hinit, Option.bind_eq_bind, Option.bind_some, hget, Option.bind_eq_bind, Option.bind_some,
      if_pos (List.prefix_append _ _), hstart]
    rfl
  have hids : start.mtdids = m.mtdids := by rw [hstart, ← hmtdids]
  have hnil : start.devices = [] := by rw [hstart]
  rw [← hids] at hok
  obtain ⟨hread, hrefused⟩ := @parseDevices_text E _ flash start m.devices
    (str "mtdparts=" ++ devicesText m.devices).length hok hne (by rw [hstart])
    (fun d hd => by rw [hnil] at hd; cases hd) (fun d _ => by rw [hnil]; rfl)
    (by rw [List.length_append]; omega)
  rw [hparse]
  by_cases hreadable : ∀ dev ∈ m.devices, Readable dev.parts
  · obtain ⟨env', next, hm₂⟩ := hread hreadable
    rw [hnil, List.nil_append] at hm₂
    have hsame := @map_devicesAgain_iff m.devices _ Device.view _ start.next
      fun dev hdev addr => @view_again_iff dev addr (hok.ok dev hdev).toListed
    constructor
    · rintro ⟨m₃, hm₃, hview⟩
      rw [hm₂] at hm₃
      cases hm₃
      exact ⟨hne, fun dev hdev => ⟨hreadable dev hdev, hsame.mp hview dev hdev⟩⟩
    · rintro ⟨-, htrips⟩
      exact ⟨_, hm₂, hsame.mpr fun dev hdev => (htrips dev hdev).2⟩
  · constructor
    · rintro ⟨m₃, hm₃, -⟩
      have hsome : ∃ dev ∈ m.devices, ¬ Readable dev.parts := by
        by_contra hnone
        exact hreadable fun dev hdev => by_contra fun hnot => hnone ⟨dev, hdev, hnot⟩
      obtain ⟨m', hm'⟩ := hrefused hsome
      rw [hm'] at hm₃
      cases hm₃
    · rintro ⟨-, htrips⟩
      exact absurd (fun dev hdev => (htrips dev hdev).1) hreadable

end Reread

theorem eq_ok_of_toOption {x : Except Bytes Bytes} {s : Bytes} (h : x.toOption = some s) :
    x = .ok s := by
  cases x with
  | error e => cases h
  | ok a =>
    cases h
    rfl

/-- What has been read for a small flash is built. -/
theorem built_small {s : Bytes} {m : Mtd VarList}
    (hread : parseMtdparts smallFlash (smallMtd s) = some (true, m))
    (hvar : ((mtdDevicesInit (smallMtd s)).bind
      fun m => Environment.getenv m.env (str "mtdparts")) = some s)
    (hlen : s.length ≤ mtdpartsMaxlen - 1) :
    Built smallFlash m ∧ m.mtdids = (smallMtd []).mtdids := by
  obtain ⟨m₀, hinit, hget⟩ := Option.bind_eq_some_iff.mp hvar
  have hids := (parseMtdparts_parsed hinit hget hlen hread).1
  exact ⟨⟨smallMtd s, rfl, hids.symm, Relation.ReflTransGen.single
    (.parse hinit hget hlen hread)⟩, hids⟩

/-- Two partitions with a gap, the second up to the end. -/
theorem roundTrip_small : ∃ m m₀ : Mtd VarList, ∃ s, Built smallFlash m ∧
    generateMtdparts m.devices mtdpartsMaxlen = .ok s ∧ m.devices ≠ [] ∧
    mtdDevicesInit (smallMtd s) = some m₀ ∧
    Environment.getenv m₀.env (str "mtdparts") = some s ∧
    ((∃ m₂, parseMtdparts smallFlash (smallMtd s) = some (true, m₂) ∧
      m₂.devices.map Device.view = m.devices.map Device.view) ↔
      m.devices ≠ [] ∧ ∀ dev ∈ m.devices, RoundTrips dev) := by
  have hread : ((parseMtdparts smallFlash (smallMtd (str "mtdparts=flash:8k,-@16k"))).any fun r =>
      r.1 && decide (r.2.devices ≠ []) &&
        decide ((generateMtdparts r.2.devices mtdpartsMaxlen).toOption =
          some (str "mtdparts=flash:8k,48k@16k"))) = true := by decide
  obtain ⟨⟨rc, m⟩, hm, hread⟩ := (Option.any_eq_true _ _).mp hread
  obtain ⟨hread, hgenerate⟩ := Bool.and_eq_true_iff.mp hread
  obtain ⟨hrc, hne⟩ := Bool.and_eq_true_iff.mp hread
  cases hrc
  obtain ⟨hbuilt, hids⟩ := built_small hm (by decide) (by decide)
  have hvar : ((mtdDevicesInit (smallMtd (str "mtdparts=flash:8k,48k@16k"))).bind
      fun m => Environment.getenv m.env (str "mtdparts")) =
        some (str "mtdparts=flash:8k,48k@16k") := by decide
  obtain ⟨m₀, hinit, hget⟩ := Option.bind_eq_some_iff.mp hvar
  have hgenerate := eq_ok_of_toOption (of_decide_eq_true hgenerate)
  exact ⟨m, m₀, _, hbuilt, hgenerate, of_decide_eq_true hne, hinit, hget,
    roundTrip_iff hbuilt hgenerate hids.symm hinit hget⟩

/-- Two partitions at one offset come back in the opposite order. -/
theorem roundTrip_swapped : ∃ m m₀ : Mtd VarList, ∃ s, Built smallFlash m ∧
    (m.mtdids.map MtdId.mtdId).Nodup ∧ (∀ id ∈ m.mtdids, 0x3A ∉ id.mtdId) ∧
    generateMtdparts m.devices mtdpartsMaxlen = .ok s ∧
    (smallMtd s).mtdids = m.mtdids ∧ mtdDevicesInit (smallMtd s) = some m₀ ∧
    Environment.getenv m₀.env (str "mtdparts") = some s ∧
    ¬ ∃ m₂, parseMtdparts smallFlash (smallMtd s) = some (true, m₂) ∧
      m₂.devices.map Device.view = m.devices.map Device.view := by
  have hread : ((parseMtdparts smallFlash (smallMtd
      (str "mtdparts=flash:4k@4k(a),4k@4k(b)"))).any fun r => r.1 &&
        decide ((generateMtdparts r.2.devices mtdpartsMaxlen).toOption =
          some (str "mtdparts=flash:4k@4k(b),4k@4k(a)")) &&
        (parseMtdparts smallFlash (smallMtd (str "mtdparts=flash:4k@4k(b),4k@4k(a)"))).all fun r' =>
          decide (r'.2.devices.map Device.view ≠ r.2.devices.map Device.view)) = true := by
    decide
  obtain ⟨⟨rc, m⟩, hm, hread⟩ := (Option.any_eq_true _ _).mp hread
  obtain ⟨hread, hdiff⟩ := Bool.and_eq_true_iff.mp hread
  obtain ⟨hrc, hgenerate⟩ := Bool.and_eq_true_iff.mp hread
  cases hrc
  obtain ⟨hbuilt, hids⟩ := built_small hm (by decide) (by decide)
  have hvar : ((mtdDevicesInit (smallMtd (str "mtdparts=flash:4k@4k(b),4k@4k(a)"))).bind
      fun m => Environment.getenv m.env (str "mtdparts")) =
        some (str "mtdparts=flash:4k@4k(b),4k@4k(a)") := by decide
  obtain ⟨m₀, hinit, hget⟩ := Option.bind_eq_some_iff.mp hvar
  refine ⟨m, m₀, _, hbuilt, ?_, ?_, eq_ok_of_toOption (of_decide_eq_true hgenerate), hids.symm,
    hinit, hget, ?_⟩
  · rw [hids]
    decide
  · rw [hids]
    decide
  · rintro ⟨m₂, hm₂, hview⟩
    rw [hm₂] at hdiff
    exact of_decide_eq_true hdiff hview

end UBoot.Common.Mtdparts
