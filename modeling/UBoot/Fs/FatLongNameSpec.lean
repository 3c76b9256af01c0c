import UBoot.Fs.FatLongName
import UBoot.Fs.FatScan

/-!
# Long names

A set of slots with its short entry lies in a directory from an entry of a cluster on.  Where the
set and the short entry are in one cluster, `get_vfatname` takes the name, unless the low bytes of
its characters say something else to it.  Where they reach the end of the cluster, a slot is left
out, and the rest is what happens to be there (`takesName_iff`).
-/

namespace UBoot.Fs.Fat

open UBoot.Lib

/-! ## Sets of slots -/

/-- A long name with its slots, from last to first as in a directory, and the short entry. -/
structure LongSet where
  name : List UInt16
  head : Bytes
  tail : List Bytes
  dent : Bytes
  few : tail.length < 20
  short : name.length ≤ 255
  needed : 13 * tail.length < name.length
  fits : name.length ≤ 13 * (tail.length + 1)
  nonzero : ∀ c ∈ name, c ≠ 0
  named : name <+: (head :: tail).reverse.flatMap slotUnits
  ended : name.length < 13 * (tail.length + 1) →
    ((head :: tail).reverse.flatMap slotUnits)[name.length]? = some 0
  headId : (first head).toNat = 64 + (tail.length + 1)
  tailId : ∀ i x, tail[i]? = some x → (first x).toNat = tail.length - i
  vfat : ∀ slot ∈ head :: tail, attr slot = attrVfat
  length : dent.length = 32
  file : IsFile dent

namespace LongSet

/-- How many slots there are. -/
def count (set : LongSet) : Nat := set.tail.length + 1

def entries (set : LongSet) : List Bytes := set.head :: set.tail ++ [set.dent]

/-- The low bytes of the characters. -/
def lowBytes (set : LongSet) : Bytes := set.name.map UInt16.toUInt8

end LongSet

/-- The set lies in the buffer of a cluster, from an entry on. -/
structure Lies (w : World) (b : Buf) (p : Nat) (set : LongSet) : Prop where
  buf : b ≠ .getVfatname
  start : p < w.mydata.direntsPerClust
  here : ∀ k x, set.entries[k]? = some x → p + k < w.mydata.direntsPerClust →
    w.entry b ((p + k : Nat) : Int) = x

/-! ## What is to be shown -/

/-- The bytes in front of the zero of `l_name` come to the name: its low bytes in lower case, with
no byte more. -/
def Matches (set : LongSet) (chars : Bytes) : Prop :=
  set.lowBytes.map toLower <+: finishName chars ++ [0] ∧
    (finishName chars).length ≤ set.name.length

/-- `get_vfatname` stores the name in the 256 bytes of `l_name`, and copies the short entry. -/
def TakesName (dev : BlockDev) (w : World) (b : Buf) (curclust p : Nat) (set : LongSet) : Prop :=
  ∃ fuel chars v,
    (collectVfatname dev fuel curclust b (32 * (p : Int)) w).2 = some (some chars, v) ∧
    (getVfatname dev fuel curclust b (32 * (p : Int)) w).2 = some (some (finishName chars), v) ∧
    chars.length + 1 ≤ 256 ∧ Matches set chars ∧ v.entry b p = set.dent

/-- No low byte is a zero in front of the last character, and the first does not mean anything in a
short name. -/
def Plain (set : LongSet) : Prop :=
  (∀ c ∈ set.lowBytes.dropLast, c ≠ 0) ∧
    set.lowBytes.head? ≠ some deletedFlag ∧ set.lowBytes.head? ≠ some aRing

/-- The entries of the buffer for the next cluster, with some bytes read into it. -/
def nextSlot (w : World) (data : Bytes) (i : Nat) : Bytes :=
  (w.filled .getVfatname 0 data).entry .getVfatname i

/-- The next cluster is read.  The entry behind the first of it with a number below two is the short
entry, and the entries from that one back to the first, with those from the last but one of this
cluster back to a zero or bit 6, happen to come to the name. -/
def Coincides (dev : BlockDev) (w : World) (b : Buf) (curclust : Nat) (set : LongSet) : Prop :=
  checkClust (getFatent dev w.mydata curclust).1 w.mydata.fatsize = false ∧
    ∃ data k bytes,
      getCluster dev w.mydata (getFatent dev w.mydata curclust).1 w.mydata.bytesPerClust =
        some data ∧
      (∀ j < k, 1 < first (nextSlot w data j)) ∧ ¬ 1 < first (nextSlot w data k) ∧
      nextSlot w data (k + 1) = set.dent ∧
      Gathers (w.entry b) (w.mydata.direntsPerClust - 2) bytes ∧
      (addedBack (nextSlot w data) (k + 1) ++ bytes).length + 1 ≤ 256 ∧
      Matches set (addedBack (nextSlot w data) (k + 1) ++ bytes)

section Names

variable {dev : BlockDev} {w u v : World} {b : Buf} {curclust p fuel : Nat} {set : LongSet}

/-! ## Low bytes -/

theorem length_slotUnits (slot : Bytes) : (slotUnits slot).length = 13 := rfl

/-- Up to the first zero the characters of the slots are those of the name. -/
theorem takeWhile_slots (set : LongSet) :
    ((set.head :: set.tail).reverse.flatMap slotChars).takeWhile (· != 0) =
      set.lowBytes.takeWhile (· != 0) := by
  have hunits : (set.head :: set.tail).reverse.flatMap slotChars =
      ((set.head :: set.tail).reverse.flatMap slotUnits).map UInt16.toUInt8 := by
    rw [List.map_flatMap]
    exact congrArg (List.flatMap · _) (funext slotChars_units)
  obtain ⟨rest, hrest⟩ := set.named
  have hended := set.ended
  rw [← hrest] at hended
  rw [hunits, ← hrest, List.map_append]
  have hlength : ((set.head :: set.tail).reverse.flatMap slotUnits).length =
      13 * (set.tail.length + 1) := by
    rw [List.length_flatMap, List.map_congr_left fun slot _ => length_slotUnits slot]
    simp only [List.map_const', List.length_reverse, List.length_cons, List.sum_replicate_nat]
    omega
  rw [← hrest, List.length_append] at hlength
  have hfits := set.fits
  by_cases hfull : set.name.length = 13 * (set.tail.length + 1)
  · have hnil : rest = [] := List.length_eq_zero_iff.mp (by omega)
    rw [hnil, List.map_nil, List.append_nil]
    rfl
  · have hzero := hended (by omega)
    rw [List.getElem?_append_right (Nat.le_refl _), Nat.sub_self] at hzero
    cases rest with
    | nil => cases hzero
    | cons c rest =>
      cases hzero
      rw [List.map_cons, List.takeWhile_append]
      split
      · rename_i hall
        rw [List.takeWhile_cons, if_neg (by decide), List.append_nil]
        exact (List.takeWhile_prefix _).eq_of_length hall |>.symm
      · rfl

theorem length_lowBytes : set.lowBytes.length = set.name.length := List.length_map _

/-- `downcase` and the two bytes of short names leave no more bytes than there are. -/
theorem length_finishName_le (name : Bytes) : (finishName name).length ≤ name.length := by
  cases name with
  | nil => exact Nat.le_refl 0
  | cons c cs =>
    rw [finishName]
    by_cases hdeleted : c = deletedFlag
    · rw [if_pos hdeleted]
      exact Nat.zero_le _
    · rw [if_neg hdeleted]
      by_cases hring : c = aRing
      · rw [if_pos hring, List.length_map]
        exact Nat.le_refl _
      · rw [if_neg hring, List.length_map]

/-- All bytes but the last are in front of the first zero if there is one byte less at most. -/
theorem dropLast_nonzero {l : Bytes} (h : l.length ≤ (l.takeWhile (· != 0)).length + 1) :
    ∀ c ∈ l.dropLast, c ≠ 0 := by
  intro c hc
  have hstart : l.dropLast <+: l.takeWhile (· != 0) := by
    refine List.prefix_of_prefix_length_le (List.dropLast_prefix l) (List.takeWhile_prefix _) ?_
    rw [List.length_dropLast]
    omega
  have hmem := hstart.subset hc
  simpa using List.mem_takeWhile_imp hmem

/-- What is in front of the first zero comes to the name exactly if the name is plain. -/
theorem matches_iff : Matches set (set.lowBytes.takeWhile (· != 0)) ↔ Plain set := by
  have hlength := @length_lowBytes set
  have hpos : 0 < set.lowBytes.length := by
    have hneeded := set.needed
    omega
  obtain ⟨c, cs, hcs⟩ : ∃ c cs, set.lowBytes = c :: cs :=
    List.exists_cons_of_length_pos hpos
  constructor
  · rintro ⟨hstart, -⟩
    have hle := hstart.length_le
    have hfinish := length_finishName_le (set.lowBytes.takeWhile (· != 0))
    rw [List.length_map, List.length_append, List.length_singleton] at hle
    refine ⟨dropLast_nonzero (by omega), ?_, ?_⟩
    · rw [hcs]
      intro hhead
      cases hhead
      rw [hcs, List.takeWhile_cons, if_pos (by decide), finishName, if_pos rfl] at hstart
      exact absurd (List.cons_prefix_cons.mp hstart).1 (by decide)
    · rw [hcs]
      intro hhead
      cases hhead
      rw [hcs, List.takeWhile_cons, if_pos (by decide), finishName, if_neg (by decide),
        if_pos rfl] at hstart
      exact absurd (List.cons_prefix_cons.mp hstart).1 (by decide)
  · rintro ⟨hnonzero, hdeleted, hring⟩
    obtain ⟨init, last, hlast⟩ : ∃ init last, set.lowBytes = init ++ [last] :=
      ⟨set.lowBytes.dropLast, set.lowBytes.getLast (by rw [hcs]; exact List.cons_ne_nil _ _),
        (List.dropLast_append_getLast _).symm⟩
    rw [hlast, List.dropLast_concat] at hnonzero
    have hall : init.takeWhile (· != 0) = init :=
      List.takeWhile_eq_self_iff.mpr fun a ha => by simpa using hnonzero a ha
    have htake : set.lowBytes.takeWhile (· != 0) = init ++ if last = 0 then [] else [last] := by
      rw [hlast, List.takeWhile_append_of_pos fun a ha => by simpa using hnonzero a ha]
      by_cases hzero : last = 0
      · rw [if_pos hzero, hzero]
        rfl
      · rw [if_neg hzero, List.takeWhile_cons, if_pos (by simpa using hzero)]
        rfl
    have hhead : (set.lowBytes.takeWhile (· != 0)).head? = none ∨
        (set.lowBytes.takeWhile (· != 0)).head? = set.lowBytes.head? := by
      rw [hcs, List.takeWhile_cons]
      split
      · exact .inr rfl
      · exact .inl rfl
    have hfinish : finishName (set.lowBytes.takeWhile (· != 0)) =
        (set.lowBytes.takeWhile (· != 0)).map toLower := by
      refine finishName_plain ?_ ?_
      · rcases hhead with h | h
        · rw [h]
          exact fun h => by cases h
        · rw [h]
          exact hdeleted
      · rcases hhead with h | h
        · rw [h]
          exact fun h => by cases h
        · rw [h]
          exact hring
    constructor
    · rw [hfinish, htake, hlast]
      by_cases hzero : last = 0
      · rw [if_pos hzero, hzero, List.append_nil, List.map_append]
        exact List.prefix_refl _
      · rw [if_neg hzero]
        exact List.prefix_append _ _
    · rw [hfinish, List.length_map, ← hlength]
      exact (List.takeWhile_prefix _).length_le

/-! ## The end of a set -/

theorem gathers_unique {slot : Int → Bytes} {i : Int} {bytes bytes' : Bytes}
    (h : Gathers slot i bytes) (h' : Gathers slot i bytes') : bytes = bytes' := by
  induction h generalizing bytes' with
  | stop last =>
    cases h' with
    | stop => rfl
    | more full inner rest =>
      rcases last with hzero | hmask
      · exact absurd hzero full
      · exact absurd inner hmask
  | more full inner rest ih =>
    cases h' with
    | stop last =>
      rcases last with hzero | hmask
      · exact absurd hzero full
      · exact absurd inner hmask
    | more _ _ rest' => rw [ih rest']

/-- Slots with their last at an entry, in the order of the name, up to one with bit 6. -/
theorem gathers_slots {slot : Int → Bytes} {head : Bytes}
    (hhead : first head &&& lastLongEntryMask ≠ 0) (slots : List Bytes) :
    ∀ i : Int, (∀ x ∈ slots, first x &&& lastLongEntryMask = 0) →
      (∀ (k : Nat) x, (slots ++ [head])[k]? = some x → slot (i - k) = x) →
      Gathers slot i (((slots ++ [head]).flatMap slotChars).takeWhile (· != 0)) := by
  induction slots with
  | nil =>
    intro i _ hslots
    have hx := hslots 0 head rfl
    rw [Int.natCast_zero, Int.sub_zero] at hx
    have hstop : Gathers slot i (added (slot i)) := .stop (.inr (by rw [hx]; exact hhead))
    rw [hx] at hstop
    rw [List.nil_append, List.flatMap_singleton]
    exact hstop
  | cons x slots ih =>
    intro i hinner hslots
    have hx := hslots 0 x rfl
    rw [Int.natCast_zero, Int.sub_zero] at hx
    obtain ⟨hmask, hinner⟩ := List.forall_mem_cons.mp hinner
    rw [List.cons_append, List.flatMap_cons]
    by_cases hzero : 0 ∈ slotChars x
    · have hstop : Gathers slot i (added (slot i)) := .stop (.inl (by rw [hx]; exact hzero))
      rw [hx] at hstop
      have htake : (slotChars x ++ (slots ++ [head]).flatMap slotChars).takeWhile (· != 0) =
          added x := by
        rw [List.takeWhile_append]
        split
        · rename_i hall
          have hself := List.takeWhile_eq_self_iff.mp
            ((List.takeWhile_prefix _).eq_of_length hall)
          exact absurd (hself 0 hzero) (by decide)
        · rfl
      rw [htake]
      exact hstop
    · have hrest := ih (i - 1) hinner fun k y hy => by
        rw [← hslots (k + 1) y (by rw [List.cons_append, List.getElem?_cons_succ]; exact hy)]
        congr 1
        omega
      have hmore : Gathers slot i (added (slot i) ++ _) :=
        .more (by rw [hx]; exact hzero) (by rw [hx]; exact hmask) hrest
      rw [hx, added_of_full hzero] at hmore
      rw [List.takeWhile_append_of_pos fun a ha => by
        rw [bne_iff_ne]
        rintro rfl
        exact hzero ha]
      exact hmore

/-! ## Runs -/

theorem bytesPerClust_eq (d : FsData) : d.bytesPerClust = 32 * d.direntsPerClust := by
  have hsector : sectorSize = 512 := rfl
  rw [FsData.direntsPerClust, FsData.bytesPerClust, hsector]
  omega

/-- The number of the first slot. -/
theorem LongSet.head_num (set : LongSet) : (slotNum set.head).toNat = set.count ∧
    first set.head &&& lastLongEntryMask ≠ 0 := by
  have hcount : set.count = set.tail.length + 1 := rfl
  have hfew := set.few
  exact slotNum_head set.headId (by omega)

theorem LongSet.tail_num (set : LongSet) {i : Nat} {x : Bytes} (h : set.tail[i]? = some x) :
    (slotNum x).toNat = set.tail.length - i ∧ first x &&& lastLongEntryMask = 0 := by
  have hlt := (List.getElem?_eq_some_iff.mp h).1
  have hfew := set.few
  obtain ⟨hnum, hmask⟩ := slotNum_tail (n := set.tail.length - i - 1)
    (by rw [set.tailId i x h]; omega) (by omega)
  exact ⟨by omega, hmask⟩

/-- The numbers of the slots in the buffer. -/
theorem Lies.nums (h : Lies w b p set) (j : Nat) (hj : j < set.count)
    (hlt : p + j < w.mydata.direntsPerClust) :
    (slotNum (w.entry b ((p + j : Nat) : Int))).toNat = set.count - j := by
  have hcount : set.count = set.tail.length + 1 := rfl
  cases j with
  | zero =>
    rw [h.here 0 set.head rfl hlt, set.head_num.1, Nat.sub_zero]
  | succ j =>
    obtain ⟨x, hx⟩ : ∃ x, set.tail[j]? = some x :=
      ⟨_, List.getElem?_eq_getElem (show j < set.tail.length by omega)⟩
    have hentry : set.entries[j + 1]? = some x := by
      rw [LongSet.entries, List.cons_append, List.getElem?_cons_succ,
        List.getElem?_append_left (List.getElem?_eq_some_iff.mp hx).1, hx]
    rw [h.here (j + 1) x hentry hlt, (set.tail_num hx).1]
    omega

theorem Lies.head (h : Lies w b p set) : w.entry b p = set.head := by
  have hhead := h.here 0 set.head rfl (by rw [Nat.add_zero]; exact h.start)
  rwa [Nat.add_zero] at hhead

theorem Lies.passSlots (h : Lies w b p set) :
    (Fat.passSlots b w.mydata.bytesPerClust (slotNum (w.entry b p)).toNat (32 * (p : Int)) w).2 =
      some (some (32 * ((min (p + set.count) w.mydata.direntsPerClust : Nat) : Int)), w) := by
  rw [h.head, set.head_num.1, bytesPerClust_eq]
  exact passSlots_set _ _ p (Nat.le_of_lt h.start) h.nums

/-- A set and its short entry in one cluster. -/
theorem Lies.collect_inside (h : Lies w b p set)
    (hin : p + set.count < w.mydata.direntsPerClust) :
    (collectVfatname dev fuel curclust b (32 * (p : Int)) w).2 =
      (collectName b fuel (32 * ((p + set.count : Nat) : Int)) [] w).2.bind fun q =>
        some (some q.1,
          q.2.filled b (32 * (p : Int)) (q.2.entry b ((p + set.count : Nat) : Int))) := by
  have hpass := h.passSlots
  rw [Nat.min_eq_left (by omega)] at hpass
  rw [collectVfatname, FatM.bind_snd]
  show Option.bind (some (w.mydata, w)) _ = _
  rw [Option.bind_some]
  dsimp only
  rw [FatM.bind_snd, look_entry, Option.bind_some]
  dsimp only
  rw [FatM.bind_snd, hpass, Option.bind_some]
  dsimp only
  have hsize := bytesPerClust_eq w.mydata
  rw [if_neg (by omega), FatM.bind_snd]
  refine congrArg _ (funext fun q => ?_)
  rw [FatM.bind_snd, look_entry]
  rfl

/-- A set that reaches the end of the cluster. -/
theorem Lies.collect_boundary (h : Lies w b p set)
    (hend : w.mydata.direntsPerClust ≤ p + set.count) :
    (collectVfatname dev fuel curclust b (32 * (p : Int)) w).2 =
      if checkClust (getFatent dev w.mydata curclust).1 w.mydata.fatsize = true then
        some (none, { w with mydata := (getFatent dev w.mydata curclust).2 })
      else
        match getCluster dev w.mydata (getFatent dev w.mydata curclust).1
          w.mydata.bytesPerClust with
        | none => some (none, { w with mydata := (getFatent dev w.mydata curclust).2 })
        | some data =>
          (seekSlot fuel 0
            (({ w with mydata := (getFatent dev w.mydata curclust).2 } : World).filled
              .getVfatname 0 data)).2.bind fun k =>
            (collectName b fuel (32 * ((w.mydata.direntsPerClust : Int) - 2 + 1))
              (addedBack (fun i => k.2.entry .getVfatname i) (k.1 + 1)) k.2).2.bind fun q =>
              some (some q.1,
                q.2.filled b (32 * (p : Int)) (q.2.entry .getVfatname (k.1 + 1 : Nat))) := by
  have hpass := h.passSlots
  rw [Nat.min_eq_right hend] at hpass
  rw [collectVfatname, FatM.bind_snd]
  show Option.bind (some (w.mydata, w)) _ = _
  rw [Option.bind_some]
  dsimp only
  rw [FatM.bind_snd, look_entry, Option.bind_some]
  dsimp only
  rw [FatM.bind_snd, hpass, Option.bind_some]
  dsimp only
  have hsize := bytesPerClust_eq w.mydata
  rw [if_pos (by omega)]
  show ((if checkClust (getFatent dev w.mydata curclust).1 w.mydata.fatsize = true then
    pure none else _ : FatM _) { w with mydata := (getFatent dev w.mydata curclust).2 }).2 = _
  by_cases hcheck : checkClust (getFatent dev w.mydata curclust).1 w.mydata.fatsize = true
  · rw [if_pos hcheck, if_pos hcheck]
    rfl
  · rw [if_neg hcheck, if_neg hcheck]
    have hgeometry : SameGeometry w.mydata (getFatent dev w.mydata curclust).2 :=
      getFatent_geometry ⟨rfl, rfl, rfl, rfl⟩
    show ((FatM.readInto .getVfatname _ _ (getCluster dev (getFatent dev w.mydata curclust).2
      (getFatent dev w.mydata curclust).1 w.mydata.bytesPerClust) >>= _ : FatM _)
        { w with mydata := (getFatent dev w.mydata curclust).2 }).2 = _
    rw [FatM.bind_snd, hgeometry.getCluster]
    cases getCluster dev w.mydata (getFatent dev w.mydata curclust).1 w.mydata.bytesPerClust with
    | none => rfl
    | some data =>
      show ((seekSlot fuel 0 >>= _ : FatM _) (World.filled _ .getVfatname 0 data)).2 = _
      rw [FatM.bind_snd]
      refine congrArg _ (funext fun k => ?_)
      rw [FatM.bind_snd, collectBack_snd, Option.bind_some, List.nil_append]
      dsimp only
      rw [FatM.bind_snd, show 32 * (w.mydata.direntsPerClust : Int) - 32 =
        32 * ((w.mydata.direntsPerClust : Int) - 2 + 1) by omega]
      refine congrArg _ (funext fun q => ?_)
      rw [FatM.bind_snd]
      rfl

/-! ## The two ways -/

theorem length_entry (i : Int) : (w.entry b i).length = 32 := by
  rw [World.entry, List.length_map, List.length_range]

/-- The entry that has been copied. -/
theorem entry_filled {data : Bytes} (hlen : data.length = 32) (p : Int) :
    (w.filled b (32 * p) data).entry b p = data := by
  refine List.ext_getElem (by rw [length_entry, hlen]) fun k hk hk' => ?_
  simp only [World.entry, List.getElem_map, List.getElem_range]
  show (if b = b ∧ 32 * p ≤ 32 * p + (k : Int) ∧ 32 * p + (k : Int) < 32 * p + data.length then
    data.getD (32 * p + (k : Int) - 32 * p).toNat 0 else _) = _
  rw [if_pos ⟨rfl, by omega, by omega⟩, show (32 * p + (k : Int) - 32 * p).toNat = k by omega,
    List.getD_eq_getElem _ _ hk']

theorem entry_other {b' : Buf} {data : Bytes} {pos : Int} (h : b ≠ b') (i : Int) :
    (w.filled b' pos data).entry b i = w.entry b i :=
  List.map_congr_left fun _ _ => if_neg fun hin => h hin.1

/-- In one cluster the name is gathered up to its first zero. -/
theorem Lies.gathers_inside (h : Lies w b p set)
    (hin : p + set.count < w.mydata.direntsPerClust) :
    Gathers (w.entry b) ((p + set.count : Nat) - 1) (set.lowBytes.takeWhile (· != 0)) := by
  have hcount : set.count = set.tail.length + 1 := rfl
  rw [← takeWhile_slots, List.reverse_cons]
  refine gathers_slots set.head_num.2 _ _ (fun x hx => ?_) fun k x hx => ?_
  · obtain ⟨i, hi⟩ := List.mem_iff_getElem?.mp (List.mem_reverse.mp hx)
    exact (set.tail_num hi).2
  · have hk := (List.getElem?_eq_some_iff.mp hx).1
    rw [List.length_append, List.length_reverse, List.length_singleton] at hk
    rw [← List.reverse_cons, List.getElem?_reverse' (j := set.tail.length - k)
      (by rw [List.length_cons]; omega)] at hx
    have hentry : set.entries[set.tail.length - k]? = some x := by
      rw [LongSet.entries, List.getElem?_append_left (List.getElem?_eq_some_iff.mp hx).1, hx]
    rw [← h.here _ x hentry (by omega)]
    congr 1
    omega

/-- The short entry behind it. -/
theorem Lies.dent_inside (h : Lies w b p set) (hin : p + set.count < w.mydata.direntsPerClust) :
    w.entry b ((p + set.count : Nat) : Int) = set.dent := by
  refine h.here set.count set.dent ?_ hin
  have hlength : set.count = (set.head :: set.tail).length := rfl
  rw [LongSet.entries, hlength, List.getElem?_append_right (Nat.le_refl _), Nat.sub_self]
  rfl

theorem getVfatname_of_collect {chars : Option Bytes} {pos : Int}
    (h : (collectVfatname dev fuel curclust b pos w).2 = some (chars, v)) :
    (getVfatname dev fuel curclust b pos w).2 = some (chars.map finishName, v) := by
  rw [posts_getVfatname dev fuel curclust b pos w, h]
  rfl

theorem Lies.takes_inside (h : Lies w b p set) (hin : p + set.count < w.mydata.direntsPerClust) :
    TakesName dev w b curclust p set ↔ Plain set := by
  have hlast : ((p + set.count : Nat) : Int) = ((p + set.count : Nat) : Int) - 1 + 1 := by omega
  constructor
  · rintro ⟨fuel, chars, v, hrun, -, -, hmatches, -⟩
    rw [h.collect_inside hin] at hrun
    obtain ⟨⟨chars', u⟩, hname, hrun⟩ := Option.bind_eq_some_iff.mp hrun
    cases hrun
    rw [hlast] at hname
    obtain ⟨-, bytes, hbytes, rfl⟩ := collectName_iff.mp ⟨fuel, hname⟩
    cases gathers_unique hbytes (h.gathers_inside hin)
    exact matches_iff.mp hmatches
  · intro hplain
    obtain ⟨fuel, hname⟩ := collectName_iff.mpr
      ⟨rfl, _, h.gathers_inside hin, (List.nil_append _).symm⟩
    rw [← hlast] at hname
    have hrun : (collectVfatname dev fuel curclust b (32 * (p : Int)) w).2 =
        some (some (set.lowBytes.takeWhile (· != 0)), w.filled b (32 * (p : Int)) set.dent) := by
      rw [h.collect_inside hin, hname, Option.bind_some, ← h.dent_inside hin]
    refine ⟨fuel, _, _, hrun, getVfatname_of_collect hrun, ?_, matches_iff.mpr hplain,
      entry_filled set.length p⟩
    have hle := (List.takeWhile_prefix (l := set.lowBytes) (· != 0)).length_le
    have hshort := set.short
    rw [length_lowBytes] at hle
    omega

theorem Lies.takes_boundary (h : Lies w b p set)
    (hend : w.mydata.direntsPerClust ≤ p + set.count) :
    TakesName dev w b curclust p set ↔ Coincides dev w b curclust set := by
  constructor
  · rintro ⟨fuel, chars, v, hrun, -, hroom, hmatches, hentry⟩
    rw [h.collect_boundary hend] at hrun
    by_cases hcheck : checkClust (getFatent dev w.mydata curclust).1 w.mydata.fatsize = true
    · rw [if_pos hcheck] at hrun
      cases hrun
    rw [if_neg hcheck] at hrun
    cases hread : getCluster dev w.mydata (getFatent dev w.mydata curclust).1
        w.mydata.bytesPerClust with
    | none =>
      rw [hread] at hrun
      cases hrun
    | some data =>
      rw [hread] at hrun
      obtain ⟨⟨k, u⟩, hseek, hrun⟩ := Option.bind_eq_some_iff.mp hrun
      obtain ⟨⟨chars', u'⟩, hname, hrun⟩ := Option.bind_eq_some_iff.mp hrun
      obtain ⟨rfl, -, hbefore, hstop⟩ := seekSlot_iff.mp ⟨fuel, hseek⟩
      obtain ⟨rfl, bytes, hbytes, rfl⟩ := collectName_iff.mp ⟨fuel, hname⟩
      cases hrun
      rw [entry_filled (length_entry _)] at hentry
      refine ⟨Bool.eq_false_iff.mpr hcheck, data, k, bytes, hread,
        fun j hj => hbefore j (Nat.zero_le j) hj, hstop, hentry, ?_, hroom, hmatches⟩
      have hother : (World.filled { w with mydata := (getFatent dev w.mydata curclust).2 }
          .getVfatname 0 data).entry b = w.entry b :=
        funext fun i => entry_other h.buf i
      rwa [hother] at hbytes
  · rintro ⟨hcheck, data, k, bytes, hread, hbefore, hstop, hdent, hbytes, hroom, hmatches⟩
    obtain ⟨fuel, hseek⟩ := (@seekSlot_iff
      (World.filled { w with mydata := (getFatent dev w.mydata curclust).2 } .getVfatname 0 data)
      _ 0 k).mpr ⟨rfl, Nat.zero_le k, fun j _ hj => hbefore j hj, hstop⟩
    have hother : (World.filled { w with mydata := (getFatent dev w.mydata curclust).2 }
        .getVfatname 0 data).entry b = w.entry b :=
      funext fun i => entry_other h.buf i
    rw [← hother] at hbytes
    obtain ⟨fuel', hname⟩ := collectName_iff.mpr
      ⟨rfl, bytes, hbytes, (rfl : addedBack (nextSlot w data) (k + 1) ++ bytes = _)⟩
    have hrun : (collectVfatname dev (max fuel fuel') curclust b (32 * (p : Int)) w).2 =
        some (some (addedBack (nextSlot w data) (k + 1) ++ bytes),
          World.filled (World.filled { w with mydata := (getFatent dev w.mydata curclust).2 }
            .getVfatname 0 data) b (32 * (p : Int)) set.dent) := by
      rw [h.collect_boundary hend, if_neg (by rw [hcheck]; decide), hread]
      dsimp only
      rw [seekSlot_more hseek (Nat.le_max_left fuel fuel'), Option.bind_some]
      dsimp only
      have hname' := collectName_more hname (Nat.le_max_right fuel fuel')
      rw [← hdent]
      refine (congrArg (Option.bind · _) hname').trans ?_
      rfl
    exact ⟨_, _, _, hrun, getVfatname_of_collect hrun, hroom, hmatches, entry_filled set.length p⟩

/-! ## Over the end of a cluster -/

/-- The rest of the set, and the short entry, are in the next cluster. -/
def Continues (w : World) (data : Bytes) (p : Nat) (set : LongSet) : Prop :=
  ∀ k x, set.entries[k]? = some x → w.mydata.direntsPerClust ≤ p + k →
    nextSlot w data (p + k - w.mydata.direntsPerClust) = x

theorem length_slotChars (slot : Bytes) : (slotChars slot).length = 13 := rfl

theorem length_flatMap_slots (slots : List Bytes) :
    (slots.flatMap slotChars).length = 13 * slots.length := by
  induction slots with
  | nil => rfl
  | cons x slots ih =>
    rw [List.flatMap_cons, List.length_append, ih, length_slotChars, List.length_cons]
    omega

theorem length_addedBack_le (slot : Nat → Bytes) (k : Nat) :
    (addedBack slot k).length ≤ 13 * k := by
  induction k with
  | zero => exact Nat.le_refl 0
  | succ k ih =>
    have hone : (added (slot k)).length ≤ 13 := (List.takeWhile_prefix _).length_le
    rw [addedBack, List.length_append]
    omega

theorem length_takeWhile_le {l : Bytes} {i : Nat} (h : l[i]? = some 0) :
    (l.takeWhile (· != 0)).length ≤ i := by
  induction l generalizing i with
  | nil => cases h
  | cons x xs ih =>
    rw [List.takeWhile_cons]
    cases i with
    | zero =>
      cases h
      rw [if_neg (by decide)]
      exact Nat.le_refl 0
    | succ i =>
      split
      · exact Nat.succ_le_succ (ih h)
      · exact Nat.zero_le _

/-- From some slot of the set on there are not more characters than are left of the name. -/
theorem length_rest_le (set : LongSet) {before behind : List Bytes}
    (h : (set.head :: set.tail).reverse = before ++ behind) (hne : behind ≠ []) :
    13 * before.length + ((behind.flatMap slotChars).takeWhile (· != 0)).length ≤
      set.name.length := by
  have hlength := congrArg List.length h
  have hpos := List.length_pos_iff.mpr hne
  rw [List.length_reverse, List.length_cons, List.length_append] at hlength
  have hfits := set.fits
  have hneeded := set.needed
  by_cases hfull : set.name.length = 13 * (set.tail.length + 1)
  · have hle := (List.takeWhile_prefix (l := behind.flatMap slotChars) (· != 0)).length_le
    rw [length_flatMap_slots] at hle
    omega
  · have hzero := congrArg (Option.map UInt16.toUInt8) (set.ended (by omega))
    have hchars : ((set.head :: set.tail).reverse.flatMap slotUnits).map UInt16.toUInt8 =
        before.flatMap slotChars ++ behind.flatMap slotChars := by
      rw [List.map_flatMap, ← List.flatMap_append, ← h]
      exact congrArg (List.flatMap · _) (funext fun slot => (slotChars_units slot).symm)
    rw [← List.getElem?_map, hchars, List.getElem?_append_right
      (by rw [length_flatMap_slots]; omega), length_flatMap_slots] at hzero
    have hle := length_takeWhile_le hzero
    omega

/-- **A set with a slot in the next cluster and more than one in this is never taken**: the last
slot of this cluster is left out. -/
theorem not_coincides (h : Lies w b p set) (hhere : p + 1 < w.mydata.direntsPerClust)
    (hnext : w.mydata.direntsPerClust < p + set.count)
    (hrest : ∀ data, getCluster dev w.mydata (getFatent dev w.mydata curclust).1
      w.mydata.bytesPerClust = some data → Continues w data p set) :
    ¬ Coincides dev w b curclust set := by
  rintro ⟨-, data, k, bytes, hread, hbefore, -, -, hbytes, -, hstart, -⟩
  have hcontinues := hrest data hread
  have hcount : set.count = set.tail.length + 1 := rfl
  -- the slot with the number one is in the next cluster
  have hk : k < p + set.count - w.mydata.direntsPerClust := by
    by_contra hle
    obtain ⟨x, hx⟩ : ∃ x, set.tail[set.tail.length - 1]? = some x :=
      ⟨_, List.getElem?_eq_getElem (by omega)⟩
    have hone := set.tailId _ x hx
    have hentry : set.entries[set.tail.length]? = some x := by
      rw [LongSet.entries, List.cons_append,
        show set.tail.length = set.tail.length - 1 + 1 by omega, List.getElem?_cons_succ,
        List.getElem?_append_left (by omega), hx]
    have hslot := hcontinues _ x hentry (by omega)
    have hbig := hbefore (p + set.tail.length - w.mydata.direntsPerClust) (by omega)
    rw [hslot] at hbig
    have hbig : 1 < (first x).toNat := hbig
    omega
  have hback := length_addedBack_le (nextSlot w data) (k + 1)
  -- what is gathered in this cluster begins with the last slot but one
  have hgather : bytes.length + 13 * (p + set.count - w.mydata.direntsPerClust + 1) ≤
      set.name.length := by
    have hdrop : (set.head :: set.tail).reverse.drop
        (p + set.count - w.mydata.direntsPerClust + 1) =
        set.tail.reverse.drop (p + set.count - w.mydata.direntsPerClust + 1) ++ [set.head] := by
      rw [List.reverse_cons, List.drop_append_of_le_length (by rw [List.length_reverse]; omega)]
    have hslots := @gathers_slots (w.entry b) set.head set.head_num.2
      (set.tail.reverse.drop (p + set.count - w.mydata.direntsPerClust + 1))
      (w.mydata.direntsPerClust - 2) (fun x hx => ?_) fun k x hx => ?_
    · rw [← hdrop] at hslots
      rw [gathers_unique hbytes hslots]
      have hleft := length_rest_le set (List.take_append_drop
        (p + set.count - w.mydata.direntsPerClust + 1) (set.head :: set.tail).reverse).symm
        (by rw [hdrop]; simp)
      rw [List.length_take, List.length_reverse, List.length_cons] at hleft
      omega
    · obtain ⟨i, hi⟩ := List.mem_iff_getElem?.mp (List.mem_reverse.mp (List.mem_of_mem_drop hx))
      exact (set.tail_num hi).2
    · have hk := (List.getElem?_eq_some_iff.mp hx).1
      rw [List.length_append, List.length_drop, List.length_reverse, List.length_singleton] at hk
      rw [← hdrop, List.getElem?_drop, List.getElem?_reverse'
        (j := w.mydata.direntsPerClust - 2 - k - p) (by rw [List.length_cons]; omega)] at hx
      have hentry : set.entries[w.mydata.direntsPerClust - 2 - k - p]? = some x := by
        rw [LongSet.entries, List.getElem?_append_left (List.getElem?_eq_some_iff.mp hx).1, hx]
      rw [← h.here _ x hentry (by omega)]
      congr 1
      omega
  have hle := hstart.length_le
  have hfinish := length_finishName_le (addedBack (nextSlot w data) (k + 1) ++ bytes)
  have hlow := @length_lowBytes set
  rw [List.length_map, List.length_append, List.length_singleton] at hle
  rw [List.length_append] at hfinish
  omega

end Names

/-- **The long name of a set is taken exactly if** it lies with its short entry inside the cluster
and its name is plain, or it does not and what is around the end of the cluster happens to come to
the name. -/
theorem takesName_iff {dev : BlockDev} {w : World} {b : Buf} {curclust p : Nat} {set : LongSet}
    (h : Lies w b p set) :
    TakesName dev w b curclust p set ↔
      (p + set.count < w.mydata.direntsPerClust ∧ Plain set) ∨
        (w.mydata.direntsPerClust ≤ p + set.count ∧ Coincides dev w b curclust set) := by
  by_cases hin : p + set.count < w.mydata.direntsPerClust
  · rw [h.takes_inside hin]
    constructor
    · intro hplain
      exact .inl ⟨hin, hplain⟩
    · rintro (⟨-, hplain⟩ | ⟨hend, -⟩)
      · exact hplain
      · omega
  · rw [h.takes_boundary (Nat.le_of_not_lt hin)]
    constructor
    · intro hcoincides
      exact .inr ⟨Nat.le_of_not_lt hin, hcoincides⟩
    · rintro (⟨hlt, -⟩ | ⟨-, hcoincides⟩)
      · exact absurd hlt hin
      · exact hcoincides

/-! ## A name of one slot -/

/-- The name `a`, of the file `A`. -/
def shortSet : LongSet where
  name := [97]
  head := [0x41, 97, 0, 0, 0] ++ List.replicate 6 0xff ++ [15, 0, 0] ++ List.replicate 12 0xff ++
    [0, 0] ++ List.replicate 4 0xff
  tail := []
  dent := 65 :: List.replicate 10 32 ++ List.replicate 21 0
  few := by decide
  short := by decide
  needed := by decide
  fits := by decide
  nonzero := by
    intro c hc
    rw [List.mem_singleton.mp hc]
    decide
  named := by decide
  ended := by decide
  headId := by decide
  tailId := by
    intro i x h
    cases h
  vfat := by decide
  length := rfl
  file := ⟨by decide, by decide, by decide⟩

/-- A FAT16 with a directory of the clusters 2 and 3, and the set at an entry of it. -/
def setDisk (p : Nat) : Contents := fun a =>
  if a = 516 then 3
  else if 1536 + 32 * p ≤ a ∧ a < 1536 + 32 * p + 64 then
    (shortSet.head ++ shortSet.dent).getD (a - (1536 + 32 * p)) 0
  else 0

/-- The cluster 2 has been read. -/
def setWorld (p : Nat) : World where
  mydata :=
    { fatbuf := fun _ => 0
      fatsize := 16
      fatlength := 1
      fatSect := 1
      rootdirSect := 2
      clustSize := 1
      dataBegin := 1
      fatbufnum := 2 ^ 32 - 1 }
  bufs := fun b a => if b = .getDentfromdir ∧ 0 ≤ a then setDisk p (1536 + a.toNat) else 0

theorem lies_setWorld {p : Nat} (h : p = 14 ∨ p = 15) :
    Lies (setWorld p) .getDentfromdir p shortSet := by
  have hcount : (setWorld p).mydata.direntsPerClust = 16 := by
    rcases h with rfl | rfl <;> decide
  refine ⟨by decide, by rw [hcount]; omega, fun k x hx hlt => ?_⟩
  rw [hcount] at hlt
  cases k with
  | zero =>
    cases hx
    rcases h with rfl | rfl <;> decide
  | succ k =>
    cases k with
    | zero =>
      cases hx
      obtain rfl := h.resolve_right (by omega)
      decide
    | succ k => cases hx

theorem takesName_fourteen :
    TakesName (devWith (setDisk 14)) (setWorld 14) .getDentfromdir 2 14 shortSet :=
  (takesName_iff (lies_setWorld (.inl rfl))).mpr (.inl
    ⟨by decide, by decide +kernel, by decide, by decide⟩)

/-- With its slot at the end of the cluster 2, and the short entry in front of the cluster 3. -/
theorem not_takesName_fifteen : Lies (setWorld 15) .getDentfromdir 15 shortSet ∧
    (getFatent (devWith (setDisk 15)) (setWorld 15).mydata 2).1 = 3 ∧
    slotAt (setDisk 15) (clusterPos (devWith (setDisk 15)) (setWorld 15).mydata 3) 0 =
      shortSet.dent ∧
    ¬ TakesName (devWith (setDisk 15)) (setWorld 15) .getDentfromdir 2 15 shortSet := by
  have hlies := lies_setWorld (p := 15) (.inr rfl)
  have hnext : (getFatent (devWith (setDisk 15)) (setWorld 15).mydata 2).1 = 3 := by decide +kernel
  refine ⟨hlies, hnext, by decide, ?_⟩
  rw [hlies.takes_boundary (by decide)]
  rintro ⟨-, data, k, bytes, hread, hbefore, hstop, hdent, -⟩
  have hbytes : (setWorld 15).mydata.bytesPerClust = 512 := by decide
  have hpos : clusterPos (devWith (setDisk 15)) (setWorld 15).mydata 3 = 2048 := by decide
  rw [hnext, hbytes, getCluster_sectors reads_devWith (by decide), hpos] at hread
  cases hread
  have hk : k = 1 := by
    have hfirst : 1 < first (nextSlot (setWorld 15) (readAt (setDisk 15) 2048 512) 0) := by
      decide +kernel
    have hsecond : ¬ 1 < first (nextSlot (setWorld 15) (readAt (setDisk 15) 2048 512) 1) := by
      decide +kernel
    have hle : ¬ 1 < k := fun hlt => hsecond (hbefore 1 hlt)
    rcases Nat.eq_zero_or_pos k with rfl | hpos
    · exact absurd hfirst hstop
    · omega
  subst hk
  exact absurd hdent (by decide +kernel)

end UBoot.Fs.Fat
