import UBoot.Fs.FatRounds
import UBoot.Fs.FatScan

/-!
# A cluster of a directory

What is in a cluster of a directory, read as files with their long names and other entries, tells
what `get_dentfromdir` makes of it: the first file with the name, the end marker, or the next
cluster.  A long name that runs over the end of the cluster, and a name that is read as another, are
left out.
-/

namespace UBoot.Fs.Fat

open UBoot.Lib

/-! ## What is in a cluster -/

/-- The entries of a cluster. -/
def clusterSlots (dev : BlockDev) (disk : Contents) (d : FsData) (c : Nat) : List Bytes :=
  (List.range d.direntsPerClust).map (slotAt disk (clusterPos dev d c))

/-- An entry of a file that has been deleted. -/
def Item.Deleted : Item → Prop
  | other slot => first slot = deletedFlag
  | _ => False

/-- An item that `get_dentfromdir` does not mistake, with so much room in the cluster, and the entry
behind its first. -/
def Item.Clear (filename : Bytes) (dols : Bool) (room : Nat) (next : Bytes) (item : Item) : Prop :=
  item.Deleted ∨ item.Fits room next ∧ (dols = true ∨ item.ReadRight filename)

/-- No file is looked for, or there is none with the name. -/
def Misses (filename : Bytes) (dols : Bool) (items : List Item) : Prop :=
  dols = true ∨ lookup filename items = none

/-- The items from the entry `p` of a cluster on, up to the one with the name. -/
def ClearItems (filename : Bytes) (dols : Bool) (room : Nat) (slot : Nat → Bytes) :
    Nat → List Item → Prop
  | _, [] => True
  | p, item :: items =>
    item.Clear filename dols (room - p) (slot (p + 1)) ∧
      (dols = true ∨ item.find filename = none →
        ClearItems filename dols room slot (p + item.slots.length) items)

/-- What is in a cluster up to the file that is looked for, or up to the end marker, if there is
one. -/
structure Listed (dev : BlockDev) (disk : Contents) (d : FsData) (filename : Bytes) (dols : Bool)
    (c : Nat) (items : List Item) (rest : List Bytes) : Prop where
  slots : clusterSlots dev disk d c = items.flatMap Item.slots ++ rest
  wf : ∀ item ∈ items, item.Wf
  clear : ClearItems filename dols d.direntsPerClust (slotAt disk (clusterPos dev d c)) 0 items
  ends : Misses filename dols items → ∀ m ∈ rest.head?, IsMarker m

/-- What the entries of a cluster come to. -/
def outcome (filename : Bytes) (dols : Bool) (items : List Item) (rest : List Bytes) :
    Look (Option Bytes) :=
  match if dols then none else lookup filename items with
  | some dent => .done (some dent)
  | none => if rest = [] then .next else .done none

theorem misses_iff {filename : Bytes} {dols : Bool} {items : List Item} :
    Misses filename dols items ↔ (if dols then none else lookup filename items) = none := by
  cases dols <;> simp [Misses]

section Step

variable {dev : BlockDev} {filename slot dent : Bytes} {dols : Bool} {fuel c : Nat} {pos : Int}
  {u v : World}

/-! ## One entry -/

/-- The 32 bytes at an offset of the buffer. -/
def slotIn (u : World) (pos : Int) : Bytes :=
  (List.range 32).map fun (k : Nat) => u.bufs .getDentfromdir (pos + k)

theorem look_snd : (FatM.look .getDentfromdir pos u).2 = some (slotIn u pos, u) := rfl

theorem entry_deleted (h : first (slotIn u pos) = deletedFlag) :
    (dirEntryStep dev fuel c filename dols pos u).2 = some (.next, u) := by
  rw [dirEntryStep_eq, FatM.bind_snd, look_snd, Option.bind_some]
  dsimp only
  rw [if_pos h]
  rfl

/-- An entry without the volume attribute. -/
theorem entry_plain (hslot : slotIn u pos = slot) (hattr : attr slot &&& attrVolume = 0)
    (hfirst : first slot ≠ 0) (hdeleted : first slot ≠ deletedFlag)
    (hname : dols = true ∨ filename ≠ []) :
    (dirEntryStep dev fuel c filename dols pos u).2 =
      some (if dols = true ∨ filename ≠ getName slot then .next else .done (some slot), u) := by
  subst hslot
  rw [dirEntryStep_eq, FatM.bind_snd, look_snd, Option.bind_some]
  dsimp only
  rw [if_neg hdeleted, if_neg (not_not_intro hattr), FatM.bind_snd]
  show (afterName filename dols pos (slotIn u pos) (some []) u).2 = _
  rw [afterName, if_neg fun h => h.1 hattr, FatM.bind_snd, look_snd, Option.bind_some]
  dsimp only
  rw [if_neg hfirst]
  cases dols with
  | true => rfl
  | false =>
    have hname : filename ≠ [] := hname.resolve_left (by decide)
    by_cases hne : filename ≠ getName (slotIn u pos)
    · rw [if_neg (by decide), if_pos ⟨hne, hname⟩, if_pos (.inr hne)]
      rfl
    · rw [if_neg (by decide), if_neg fun h => hne h.1,
        if_neg (not_or.mpr ⟨by decide, hne⟩)]
      rfl

theorem entry_marker (h : IsMarker (slotIn u pos)) :
    (dirEntryStep dev fuel c filename dols pos u).2 = some (.done none, u) := by
  obtain ⟨hfirst, hattr⟩ := h
  have hdeleted : first (slotIn u pos) ≠ deletedFlag := by
    rw [hfirst]
    decide
  rw [dirEntryStep_eq, FatM.bind_snd, look_snd, Option.bind_some]
  dsimp only
  rw [if_neg hdeleted, if_neg (not_not_intro hattr), FatM.bind_snd]
  show (afterName filename dols pos (slotIn u pos) (some []) u).2 = _
  rw [afterName, if_neg fun h => h.1 hattr, FatM.bind_snd, look_snd, Option.bind_some]
  dsimp only
  rw [if_pos hfirst]
  rfl

/-- A slot that is not the first of a set. -/
theorem entry_skip (hslot : slotIn u pos = slot) (hattr : attr slot &&& attrVolume ≠ 0)
    (hmask : first slot &&& lastLongEntryMask = 0) :
    (dirEntryStep dev fuel c filename dols pos u).2 = some (.next, u) := by
  subst hslot
  have hdeleted : first (slotIn u pos) ≠ deletedFlag := by
    intro h
    rw [h] at hmask
    exact absurd hmask (by decide)
  have hno : ¬ (attr (slotIn u pos) &&& attrVfat ≠ 0 ∧
      first (slotIn u pos) &&& lastLongEntryMask ≠ 0) := fun h => h.2 hmask
  rw [dirEntryStep_eq, FatM.bind_snd, look_snd, Option.bind_some]
  dsimp only
  rw [if_neg hdeleted, if_pos hattr, longName, if_neg hno]
  rfl

/-- Something that looks like the first slot of a set. -/
theorem entry_named {lName : Option Bytes} (hslot : slotIn u pos = slot)
    (hattr : attr slot &&& attrVolume ≠ 0) (hmask : first slot &&& lastLongEntryMask ≠ 0)
    (hdeleted : first slot ≠ deletedFlag)
    (hvfat : (getVfatname dev fuel c .getDentfromdir pos u).2 = some (lName, v))
    (hdent : slotIn v pos = dent) (hfirst : first dent ≠ 0) :
    (dirEntryStep dev fuel c filename dols pos u).2 =
      some (if dols = true ∨ (filename ≠ getName dent ∧ filename ≠ lName.getD []) then .next
        else .done (some dent), v) := by
  subst hslot hdent
  rw [dirEntryStep_eq, FatM.bind_snd, look_snd, Option.bind_some]
  dsimp only
  rw [if_neg hdeleted, if_pos hattr, longName, if_pos ⟨volume_vfat _ hattr, hmask⟩, FatM.bind_snd,
    FatM.bind_snd, hvfat, Option.bind_some]
  show (afterName filename dols pos (slotIn u pos) (some (lName.getD [])) v).2 = _
  rw [afterName]
  cases dols with
  | true =>
    rw [if_pos ⟨hattr, rfl⟩, if_pos (.inl rfl)]
    rfl
  | false =>
    rw [if_neg fun h => absurd h.2 (by decide), FatM.bind_snd, look_snd, Option.bind_some]
    dsimp only
    rw [if_neg hfirst, if_neg (by decide)]
    by_cases hne : filename ≠ getName (slotIn v pos) ∧ filename ≠ lName.getD []
    · rw [if_pos hne, if_pos (.inr hne)]
      rfl
    · rw [if_neg hne, if_neg (not_or.mpr ⟨by decide, hne⟩)]
      rfl

end Step

section Scan

variable {dev : BlockDev} {d : FsData} {disk : Contents} {base perClust c fuel p : Nat}
  {filename dent slot : Bytes} {dols : Bool} {w : World}

/-! ## The items of a cluster -/

/-- The loop from an entry on. -/
def scanFrom (dev : BlockDev) (fuel c : Nat) (filename : Bytes) (dols : Bool) (perClust p : Nat)
    (w : World) : Option (Look (Option Bytes) × World) :=
  (forEntries (dirEntryStep dev fuel c filename dols) (perClust - p) (32 * (p : Int)) w).2

/-- The buffer holds the cluster from an entry on. -/
def HoldsFrom (d : FsData) (disk : Contents) (base perClust p : Nat) (w : World) : Prop :=
  Holds .getDentfromdir d disk base perClust 0 p w

theorem HoldsFrom.slotIn (h : HoldsFrom d disk base perClust p w) (hp : p < perClust) :
    slotIn w (32 * (p : Int)) = slotAt disk base p := by
  have hlook := h.look (Nat.le_refl p) hp
  have hsnd := congrArg Prod.snd hlook
  rw [look_snd, Nat.mul_zero, Nat.zero_add] at hsnd
  exact congrArg Prod.fst (Option.some.inj hsnd)

theorem HoldsFrom.mono {q : Nat} (h : HoldsFrom d disk base perClust p w) (hq : p ≤ q) :
    HoldsFrom d disk base perClust q w := Holds.mono h hq

theorem scanFrom_next {w' : World} (hp : p < perClust)
    (h : (dirEntryStep dev fuel c filename dols (32 * (p : Int)) w).2 = some (.next, w')) :
    scanFrom dev fuel c filename dols perClust p w =
      scanFrom dev fuel c filename dols perClust (p + 1) w' := by
  obtain ⟨n, hn⟩ : ∃ n, perClust - p = n + 1 := ⟨perClust - p - 1, by omega⟩
  rw [scanFrom, hn, forEntries, FatM.bind_snd, h, Option.bind_some, scanFrom,
    show perClust - (p + 1) = n by omega, show 32 * ((p + 1 : Nat) : Int) = 32 * (p : Int) + 32 by
      omega]

theorem scanFrom_done {found : Option Bytes} {w' : World} (hp : p < perClust)
    (h : (dirEntryStep dev fuel c filename dols (32 * (p : Int)) w).2 = some (.done found, w')) :
    scanFrom dev fuel c filename dols perClust p w = some (.done found, w') := by
  obtain ⟨n, hn⟩ : ∃ n, perClust - p = n + 1 := ⟨perClust - p - 1, by omega⟩
  rw [scanFrom, hn, forEntries, FatM.bind_snd, h, Option.bind_some]
  rfl

/-- The slots of a long name behind the first are passed over. -/
theorem scan_tail {tail : List Bytes} :
    ∀ {p : Nat}, HoldsFrom d disk base perClust p w → p + tail.length ≤ perClust →
      (∀ x ∈ tail, first x &&& lastLongEntryMask = 0 ∧ attr x &&& attrVolume ≠ 0) →
      (∀ k x, tail[k]? = some x → slotAt disk base (p + k) = x) →
      scanFrom dev fuel c filename dols perClust p w =
        scanFrom dev fuel c filename dols perClust (p + tail.length) w := by
  induction tail with
  | nil => intro p _ _ _ _; rfl
  | cons x tail ih =>
    intro p hholds hroom hmem hslots
    rw [List.length_cons] at hroom ⊢
    obtain ⟨⟨hmask, hattr⟩, hmem⟩ := List.forall_mem_cons.mp hmem
    have hslot : slotIn w (32 * (p : Int)) = x := by
      rw [hholds.slotIn (by omega)]
      exact hslots 0 x rfl
    rw [scanFrom_next (by omega) (entry_skip hslot hattr hmask),
      ih (hholds.mono (Nat.le_add_right p 1)) (by omega) hmem fun k y hy => by
        rw [Nat.add_assoc, Nat.add_comm 1]
        exact hslots (k + 1) y hy]
    rw [Nat.add_assoc, Nat.add_comm 1]

/-- What an item comes to: its file, or the entry behind it. -/
def Comes (dev : BlockDev) (d : FsData) (disk : Contents) (base c fuel : Nat) (filename : Bytes)
    (dols : Bool) (perClust p : Nat) (item : Item) (w : World) : Prop :=
  (dols = false ∧ ∃ dent v, item.find filename = some dent ∧
    scanFrom dev fuel c filename dols perClust p w = some (.done (some dent), v)) ∨
  ((dols = true ∨ item.find filename = none) ∧ ∃ v,
    HoldsFrom d disk base perClust (p + item.slots.length) v ∧
      scanFrom dev fuel c filename dols perClust p w =
        scanFrom dev fuel c filename dols perClust (p + item.slots.length) v)

theorem comes_file (hholds : HoldsFrom d disk base perClust p w) (hp : p < perClust)
    (hslot : slotAt disk base p = dent) (hwf : (Item.file dent).Wf)
    (hright : dols = true ∨ (Item.file dent).ReadRight filename)
    (hname : dols = true ∨ filename ≠ []) :
    Comes dev d disk base c fuel filename dols perClust p (.file dent) w := by
  obtain ⟨hattr, hfirst, hdeleted⟩ := hwf
  have hstep : (dirEntryStep dev fuel c filename dols (32 * (p : Int)) w).2 =
      some (if dols = true ∨ filename ≠ getName dent then .next else .done (some dent), w) :=
    entry_plain ((hholds.slotIn hp).trans hslot) hattr hfirst hdeleted hname
  by_cases hpassed : dols = true ∨ filename ≠ getName dent
  · rw [if_pos hpassed] at hstep
    refine .inr ⟨?_, w, hholds.mono (Nat.le_add_right p 1), scanFrom_next hp hstep⟩
    rcases hpassed with hdols | hne
    · exact .inl hdols
    · exact hright.imp_right fun hright => if_neg fun h => hne (hright.mpr h)
  · rw [if_neg hpassed] at hstep
    obtain ⟨hdols, heq⟩ := not_or.mp hpassed
    have hright := (hright.resolve_left hdols).mp (not_not.mp heq)
    exact .inl ⟨Bool.eq_false_iff.mpr hdols, dent, w, if_pos hright, scanFrom_done hp hstep⟩

theorem comes_other (hholds : HoldsFrom d disk base perClust p w) (hp : p < perClust)
    (hslot : slotAt disk base p = slot) (hwf : (Item.other slot).Wf)
    (hclear : (Item.other slot).Clear filename dols (perClust - p) (slotAt disk base (p + 1)))
    (hname : dols = true ∨ filename ≠ []) :
    Comes dev d disk base c fuel filename dols perClust p (.other slot) w := by
  have hin : slotIn w (32 * (p : Int)) = slot := (hholds.slotIn hp).trans hslot
  refine .inr ⟨.inr rfl, w, hholds.mono (Nat.le_add_right p 1), scanFrom_next hp ?_⟩
  by_cases hdeleted : first slot = deletedFlag
  · exact entry_deleted (by rw [hin, hdeleted])
  obtain ⟨hfits, hright⟩ := hclear.resolve_left hdeleted
  have hattr := hwf.2.resolve_left hdeleted
  by_cases hmask : first slot &&& lastLongEntryMask = 0
  · exact entry_skip hin hattr hmask
  · obtain ⟨hroom, hnum, hnext⟩ := hfits hattr hmask
    have hvfat : (getVfatname dev fuel c .getDentfromdir (32 * (p : Int)) w).2 = some (none, w) :=
      congrArg Prod.snd (getVfatname_mistaken hholds (by simpa using hslot) (by omega) hnum
        (by simpa using hnext))
    rw [entry_named hin hattr hmask hdeleted hvfat hin hwf.1, if_pos]
    rcases hname with hdols | hname
    · exact .inl hdols
    · exact hright.imp_right fun hright => ⟨hright hattr hmask, hname⟩

/-- The set of a file with a long name. -/
theorem comes_set {head : Bytes} {tail : List Bytes} (hholds : HoldsFrom d disk base perClust p w)
    (hslots : ∀ k x, (head :: tail ++ [dent])[k]? = some x → slotAt disk base (p + k) = x)
    (hwf : (Item.longFile head tail dent).Wf) (hroom : p + tail.length + 2 ≤ perClust)
    (hright : dols = true ∨ (Item.longFile head tail dent).ReadRight filename)
    (hname : dols = true ∨ filename ≠ []) (hfuel : 20 ≤ fuel) :
    Comes dev d disk base c fuel filename dols perClust p (.longFile head tail dent) w := by
  have hset := hwf
  obtain ⟨hnum, hlen, hattr, htail, hfile⟩ := hwf
  have hmask := (slotNum_head hnum (by omega)).2
  have hvolume : attr head &&& attrVolume ≠ 0 := by
    rw [hattr]
    exact vfat_volume
  have hdeleted : first head ≠ deletedFlag := by
    intro h
    rw [h] at hnum
    have hvalue : deletedFlag.toNat = 229 := rfl
    omega
  have hin : slotIn w (32 * (p : Int)) = head :=
    (hholds.slotIn (by omega)).trans (hslots 0 head rfl)
  have hlast : slotAt disk base (p + (tail.length + 1)) = dent :=
    hslots (tail.length + 1) dent (by simp)
  have hlength : dent.length = 32 := by rw [← hlast, length_slotAt]
  have hvfat : (getVfatname dev fuel c .getDentfromdir (32 * (p : Int)) w).2 =
      some (some (finishName (longChars head tail)), w.stored .getDentfromdir p dent) := by
    obtain ⟨js, hdoes, -⟩ := getVfatname_set hholds hset hroom hfuel (by simpa using hslots)
    exact congrArg Prod.snd hdoes
  have hcopied : slotIn (w.stored .getDentfromdir p dent) (32 * (p : Int)) = dent := by
    have hlook : (FatM.look .getDentfromdir (32 * (p : Int)) (w.stored .getDentfromdir p dent)).2 =
        some (dent, w.stored .getDentfromdir p dent) := congrArg Prod.snd (look_stored hlength)
    exact congrArg Prod.fst (Option.some.inj hlook)
  have hstep : (dirEntryStep dev fuel c filename dols (32 * (p : Int)) w).2 =
      some (if dols = true ∨ (filename ≠ getName dent ∧ filename ≠ finishName (longChars head tail))
        then .next else .done (some dent), w.stored .getDentfromdir p dent) :=
    entry_named hin hvolume hmask hdeleted hvfat hcopied hfile.2.1
  by_cases hpassed : dols = true ∨
      (filename ≠ getName dent ∧ filename ≠ finishName (longChars head tail))
  · rw [if_pos hpassed] at hstep
    have hbehind : HoldsFrom d disk base perClust (p + 1) (w.stored .getDentfromdir p dent) :=
      hholds.stored hlength
    have hfind : dols = true ∨ (Item.longFile head tail dent).find filename = none := by
      rcases hpassed with hdols | hne
      · exact .inl hdols
      · exact hright.imp_right fun hright => if_neg fun h => not_or.mpr hne (hright.mpr h)
    have hplain : (dirEntryStep dev fuel c filename dols
        (32 * ((p + (tail.length + 1) : Nat) : Int)) (w.stored .getDentfromdir p dent)).2 =
        some (if dols = true ∨ filename ≠ getName dent then .next else .done (some dent),
          w.stored .getDentfromdir p dent) :=
      entry_plain (((hbehind.mono (show p + 1 ≤ p + (tail.length + 1) by omega)).slotIn
        (by omega)).trans hlast) hfile.1 hfile.2.1 hfile.2.2 hname
    rw [if_pos (hpassed.imp_right And.left)] at hplain
    have hbytes : (Item.longFile head tail dent).slots.length = tail.length + 2 := by
      simp [Item.slots]
    refine .inr ⟨hfind, w.stored .getDentfromdir p dent, ?_, ?_⟩
    · exact hbehind.mono (by omega)
    · rw [hbytes, scanFrom_next (by omega) hstep, scan_tail hbehind (by omega) (htail.mem hlen)
        fun k x hx => by
          rw [Nat.add_assoc, Nat.add_comm 1]
          refine hslots (k + 1) x ?_
          rw [List.cons_append, List.getElem?_cons_succ,
            List.getElem?_append_left (List.getElem?_eq_some_iff.mp hx).1, hx],
        Nat.add_assoc, Nat.add_comm 1, scanFrom_next (by omega) hplain]
      rfl
  · rw [if_neg hpassed] at hstep
    obtain ⟨hdols, hne⟩ := not_or.mp hpassed
    have hfound : filename = getName dent ∨ filename = finishName (longChars head tail) := by
      tauto
    exact .inl ⟨Bool.eq_false_iff.mpr hdols, dent, _,
      if_pos ((hright.resolve_left hdols).mp hfound), scanFrom_done (by omega) hstep⟩

/-- Each item comes to its file, or to the entry behind it. -/
theorem comes_item {item : Item} (hholds : HoldsFrom d disk base perClust p w)
    (hroom : p + item.slots.length ≤ perClust) (hwf : item.Wf)
    (hslots : ∀ k x, item.slots[k]? = some x → slotAt disk base (p + k) = x)
    (hclear : item.Clear filename dols (perClust - p) (slotAt disk base (p + 1)))
    (hname : dols = true ∨ filename ≠ []) (hfuel : 20 ≤ fuel) :
    Comes dev d disk base c fuel filename dols perClust p item w := by
  cases item with
  | file dent =>
    exact comes_file hholds hroom (hslots 0 dent rfl) hwf (hclear.resolve_left id).2 hname
  | longFile head tail dent =>
    obtain ⟨hfits, hright⟩ := hclear.resolve_left id
    have hfits : tail.length + 2 ≤ perClust - p := hfits
    exact comes_set hholds hslots hwf (by omega) hright hname hfuel
  | other slot => exact comes_other hholds hroom (hslots 0 slot rfl) hwf hclear hname

/-- The loop through the items from an entry on. -/
theorem scan_items {items : List Item} {rest : List Bytes} :
    ∀ {p : Nat} {w : World}, HoldsFrom d disk base perClust p w →
      p + (items.flatMap Item.slots ++ rest).length = perClust → (∀ item ∈ items, item.Wf) →
      (∀ k x, (items.flatMap Item.slots ++ rest)[k]? = some x → slotAt disk base (p + k) = x) →
      ClearItems filename dols perClust (slotAt disk base) p items →
      (Misses filename dols items → ∀ m ∈ rest.head?, IsMarker m) →
      (dols = true ∨ filename ≠ []) → 20 ≤ fuel →
      ∃ v, scanFrom dev fuel c filename dols perClust p w =
        some (outcome filename dols items rest, v) := by
  induction items with
  | nil =>
    intro p w hholds hroom _ hslots _ hends _ _
    have hmisses : Misses filename dols [] := .inr rfl
    have houtcome : outcome filename dols [] rest = if rest = [] then .next else .done none := by
      rw [outcome, misses_iff.mp hmisses]
    cases rest with
    | nil =>
      refine ⟨w, ?_⟩
      have hzero : perClust - p = 0 := by
        rw [List.flatMap_nil, List.append_nil, List.length_nil] at hroom
        omega
      rw [scanFrom, hzero, houtcome]
      rfl
    | cons m rest =>
      rw [List.flatMap_nil, List.nil_append, List.length_cons] at hroom
      have hslot : slotAt disk base p = m := hslots 0 m rfl
      have hmarker := hends hmisses m rfl
      rw [← hslot, ← hholds.slotIn (by omega)] at hmarker
      refine ⟨w, ?_⟩
      rw [houtcome, if_neg (List.cons_ne_nil m rest)]
      exact scanFrom_done (by omega) (entry_marker hmarker)
  | cons item items ih =>
    intro p w hholds hroom hwf hslots hclear hends hname hfuel
    obtain ⟨hitem, hwf⟩ := List.forall_mem_cons.mp hwf
    obtain ⟨hclear, hrest⟩ := hclear
    rw [List.flatMap_cons, List.append_assoc] at hroom hslots
    rw [List.length_append] at hroom
    have hitemSlots (k : Nat) (x : Bytes) (hx : item.slots[k]? = some x) :
        slotAt disk base (p + k) = x := by
      refine hslots k x ?_
      rw [List.getElem?_append_left (List.getElem?_eq_some_iff.mp hx).1, hx]
    have hcomes : Comes dev d disk base c fuel filename dols perClust p item w :=
      comes_item hholds (by omega) hitem hitemSlots hclear hname hfuel
    rcases hcomes with ⟨hdols, dent, v, hfind, hscan⟩ | ⟨hfind, v, hbehind, hscan⟩
    · refine ⟨v, ?_⟩
      rw [hscan, outcome, hdols, if_neg (by decide), lookup, List.findSome?_cons, hfind]
    · have hsame : (if dols then none else lookup filename (item :: items)) =
          if dols then none else lookup filename items := by
        rcases hfind with hdols | hfind
        · rw [if_pos hdols, if_pos hdols]
        · rw [lookup, List.findSome?_cons, hfind]
          rfl
      have houtcome : outcome filename dols (item :: items) rest =
          outcome filename dols items rest := by
        rw [outcome, outcome, hsame]
      rw [houtcome, hscan]
      refine ih hbehind (by omega) hwf (fun k x hx => ?_) (hrest hfind) (fun hmisses => ?_) hname
        hfuel
      · rw [Nat.add_assoc]
        refine hslots (item.slots.length + k) x ?_
        rw [List.getElem?_append_right (Nat.le_add_right _ _), Nat.add_sub_cancel_left, hx]
      · exact hends (misses_iff.mpr (hsame.trans (misses_iff.mp hmisses)))

/-- A cluster that has been read into the buffer. -/
theorem holdsFrom_filled (hdev : ReadsOf dev disk) {data : Bytes}
    (hread : getCluster dev w.mydata c w.mydata.bytesPerClust = some data) :
    HoldsFrom w.mydata disk (clusterPos dev w.mydata c) w.mydata.direntsPerClust 0
      (w.filled .getDentfromdir 0 data) := by
  have hsize : w.mydata.bytesPerClust = 32 * w.mydata.direntsPerClust := by
    rw [FsData.direntsPerClust, FsData.bytesPerClust, sectorSize]
    omega
  have hmod : w.mydata.bytesPerClust % sectorSize = 0 := Nat.mul_mod_left _ _
  have hdata : data = readAt disk (clusterPos dev w.mydata c) w.mydata.bytesPerClust := by
    obtain ⟨data', hdisk, h⟩ := Option.bind_eq_some_iff.mp hread
    rw [if_pos hmod] at h
    cases h
    rw [hdev _ _ _ hdisk, Nat.div_mul_cancel (Nat.dvd_of_mod_eq_zero hmod)]
    rfl
  have hlen : data.length = w.mydata.bytesPerClust := length_getCluster hdev hread
  refine ⟨rfl, hsize, fun a _ hlt => ?_⟩
  show (if Buf.getDentfromdir = .getDentfromdir ∧ (0 : Int) ≤ a ∧ (a : Int) < 0 + data.length then
    data.getD ((a : Int) - 0).toNat 0 else _) = _
  rw [if_pos ⟨rfl, by omega, by omega⟩, show ((a : Int) - 0).toNat = a by omega, hdata,
    List.getD_eq_getElem?_getD, getElem?_readAt (by omega), Option.getD_some, Nat.mul_zero,
    Nat.add_zero]

theorem length_clusterSlots (d : FsData) :
    (clusterSlots dev disk d c).length = d.direntsPerClust := by
  rw [clusterSlots, List.length_map, List.length_range]

theorem length_flatten_slots {slots : List Bytes} (hsize : ∀ slot ∈ slots, slot.length = 32) :
    slots.flatten.length = 32 * slots.length := by
  induction slots with
  | nil => rfl
  | cons slot slots ih =>
    obtain ⟨hslot, hslots⟩ := List.forall_mem_cons.mp hsize
    rw [List.flatten_cons, List.length_append, hslot, ih hslots, List.length_cons, Nat.mul_succ,
      Nat.add_comm]

/-- The entries, one behind the other. -/
theorem slotsAt_of_readAt {slots : List Bytes} (hsize : ∀ slot ∈ slots, slot.length = 32) :
    ∀ base, readAt disk base (32 * slots.length) = slots.flatten →
      (List.range slots.length).map (slotAt disk base) = slots := by
  induction slots with
  | nil => exact fun _ _ => rfl
  | cons slot slots ih =>
    intro base hread
    obtain ⟨hslot, hslots⟩ := List.forall_mem_cons.mp hsize
    rw [List.length_cons, Nat.mul_succ, Nat.add_comm, readAt_add, List.flatten_cons] at hread
    obtain ⟨hfirst, hrest⟩ := List.append_inj hread (by rw [length_readAt, hslot])
    have htail : (List.range slots.length).map (slotAt disk base ∘ Nat.succ) = slots := by
      refine (List.map_congr_left fun i _ => ?_).trans (ih hslots (base + 32) hrest)
      rw [Function.comp_apply, slotAt, slotAt, Nat.mul_succ, Nat.add_comm (32 * i), Nat.add_assoc]
    rw [List.length_cons, List.range_succ_eq_map, List.map_cons, List.map_map, htail]
    exact congrArg (· :: slots) hfirst

theorem clusterSlots_of_readAt {d : FsData} {slots : List Bytes}
    (hsize : ∀ slot ∈ slots, slot.length = 32) (hcount : slots.length = d.direntsPerClust)
    (hread : readAt disk (clusterPos dev d c) (32 * slots.length) = slots.flatten) :
    clusterSlots dev disk d c = slots := by
  rw [clusterSlots, ← hcount]
  exact slotsAt_of_readAt hsize _ hread

theorem clusterSlots_some {k : Nat} {x : Bytes} (h : (clusterSlots dev disk d c)[k]? = some x) :
    slotAt disk (clusterPos dev d c) k = x := by
  rw [clusterSlots, List.getElem?_map, Option.map_eq_some_iff] at h
  obtain ⟨j, hj, rfl⟩ := h
  obtain ⟨hlt, rfl⟩ := List.getElem?_eq_some_iff.mp hj
  rw [List.getElem_range]

/-- What is in a cluster tells what its entries come to. -/
theorem Listed.scan {items : List Item} {rest : List Bytes} {data : Bytes}
    (h : Listed dev disk w.mydata filename dols c items rest) (hdev : ReadsOf dev disk)
    (hread : getCluster dev w.mydata c w.mydata.bytesPerClust = some data)
    (hname : dols = true ∨ filename ≠ []) :
    ∃ v, (forEntries (dirEntryStep dev 20 c filename dols) w.mydata.direntsPerClust 0
      (w.filled .getDentfromdir 0 data)).2 = some (outcome filename dols items rest, v) := by
  refine scan_items (holdsFrom_filled hdev hread) ?_ h.wf (fun k x hx => ?_) h.clear h.ends hname
    (Nat.le_refl 20)
  · rw [← h.slots, length_clusterSlots, Nat.zero_add]
  · rw [← h.slots] at hx
    rw [Nat.zero_add, clusterSlots_some hx]

end Scan

/-! ## A cluster as a part of a directory -/

section Part

variable {filename slot next : Bytes} {dols : Bool} {room : Nat}

/-- An item that is not mistaken does not begin a set if it is none. -/
theorem orphan_of_clear {behind : List Bytes}
    (h : (Item.other slot).Clear filename dols room next)
    (hnext : ∀ x, 2 ≤ room → behind.head? = some x → next = x) : Orphan slot behind := by
  intro tail dent hset hpre
  obtain ⟨hnum, hlen, hattr, htail, -⟩ := hset
  obtain ⟨hslot, hmask⟩ := slotNum_head hnum (by omega)
  rcases h with hdeleted | ⟨hfits, -⟩
  · have hdeleted : first slot = deletedFlag := hdeleted
    rw [hdeleted] at hnum
    have hvalue : deletedFlag.toNat = 229 := rfl
    omega
  · obtain ⟨hroom, htwo, hne⟩ := hfits (by rw [hattr]; exact vfat_volume) hmask
    cases tail with
    | nil =>
      rw [List.length_nil] at hslot
      omega
    | cons x tail =>
      obtain ⟨more, rfl⟩ := hpre
      rw [List.length_cons] at hlen
      rw [hnext x hroom rfl, hslot, (slotNum_tail htail.1 (by omega)).1, List.length_cons] at hne
      omega

/-- The number of entries in front of the place where the search ends, at most. -/
def stopOf (filename : Bytes) (dols : Bool) (items : List Item) : Nat :=
  if dols then (items.flatMap Item.slots).length else stopIndex filename items

theorem stopOf_misses {items : List Item} (h : Misses filename dols items) :
    stopOf filename dols items = (items.flatMap Item.slots).length := by
  rw [stopOf]
  rcases h with hdols | hnone
  · rw [if_pos hdols]
  · rw [stopIndex_of_none hnone, ite_self]

theorem misses_append {front more : List Item} (h : Misses filename dols front) :
    Misses filename dols (front ++ more) ↔ Misses filename dols more := by
  rw [Misses, Misses, lookup, lookup, List.findSome?_append]
  refine or_congr_right' fun hdols => ?_
  have hnone := h.resolve_left hdols
  rw [lookup] at hnone
  rw [hnone, Option.none_or]

theorem stopOf_append {front more : List Item} (h : Misses filename dols front) :
    stopOf filename dols (front ++ more) =
      (front.flatMap Item.slots).length + stopOf filename dols more := by
  rw [stopOf, stopOf]
  by_cases hdols : dols = true
  · rw [if_pos hdols, if_pos hdols, List.flatMap_append, List.length_append]
  · rw [if_neg hdols, if_neg hdols]
    have hnone := h.resolve_left hdols
    clear h
    induction front with
    | nil => rw [List.flatMap_nil, List.length_nil, Nat.zero_add, List.nil_append]
    | cons item front ih =>
      rw [lookup, List.findSome?_cons] at hnone
      cases hfind : item.find filename with
      | some dent =>
        rw [hfind] at hnone
        cases hnone
      | none =>
        rw [hfind] at hnone
        rw [List.cons_append, stopIndex, if_pos hfind, ih hnone, List.flatMap_cons,
          List.length_append, Nat.add_assoc]

/-- What has been read from the front of a directory is in front in it. -/
theorem front_of_entries {front : List Item} {behind rest : List Bytes} {slot : Nat → Bytes} :
    ∀ {p : Nat} {items : List Item}, (∀ item ∈ front, item.Wf) →
      ClearItems filename dols room slot p front →
      (∀ k x, p + k < room → (front.flatMap Item.slots ++ behind)[k]? = some x →
        slot (p + k) = x) →
      Entries items rest →
      front.flatMap Item.slots ++ behind = items.flatMap Item.slots ++ rest →
      (Misses filename dols front → ∃ more, items = front ++ more ∧ Entries more rest ∧
        behind = more.flatMap Item.slots ++ rest) ∧
      (¬ Misses filename dols front → lookup filename items = lookup filename front ∧
        stopIndex filename items = stopIndex filename front) := by
  induction front with
  | nil =>
    intro p items _ _ _ hentries heq
    refine ⟨fun _ => ⟨items, rfl, hentries, heq⟩, fun hfound => absurd (.inr rfl) hfound⟩
  | cons item front ih =>
    intro p items hwf hclear hslots hentries heq
    obtain ⟨hitem, hwf⟩ := List.forall_mem_cons.mp hwf
    obtain ⟨hclear, hrest⟩ := hclear
    cases items with
    | nil =>
      obtain ⟨slot, slots, hfirst, hne⟩ := hitem.slots_head
      rw [List.flatMap_cons, hfirst] at heq
      exact absurd (hentries slot (by rw [show rest = _ from heq.symm]; rfl)) hne
    | cons item' items =>
      obtain ⟨hitem', halone', hentries⟩ := hentries
      rw [List.flatMap_cons, List.flatMap_cons, List.append_assoc, List.append_assoc] at heq
      rw [List.flatMap_cons, List.append_assoc] at hslots
      have halone : ∀ slot, item = .other slot →
          Orphan slot (front.flatMap Item.slots ++ behind) := by
        rintro slot rfl
        refine orphan_of_clear hclear fun x hroom hx => hslots 1 x (by omega) ?_
        rw [List.head?_eq_getElem?] at hx
        exact hx
      obtain ⟨rfl, hbehind⟩ := Item.unique hitem hitem' halone halone' heq
      have hsplit (hpassed : dols = true ∨ item.find filename = none) :=
        ih hwf (hrest hpassed) (fun k x hk hx => by
          rw [Nat.add_assoc]
          refine hslots (item.slots.length + k) x (by omega) ?_
          rw [List.getElem?_append_right (Nat.le_add_right _ _), Nat.add_sub_cancel_left, hx])
          hentries hbehind
      constructor
      · intro hmisses
        have hboth : (dols = true ∨ item.find filename = none) ∧ Misses filename dols front := by
          rcases hmisses with hdols | hnone
          · exact ⟨.inl hdols, .inl hdols⟩
          · rw [lookup, List.findSome?_cons] at hnone
            cases hfind : item.find filename with
            | none =>
              rw [hfind] at hnone
              exact ⟨.inr rfl, .inr hnone⟩
            | some dent =>
              rw [hfind] at hnone
              cases hnone
        obtain ⟨more, rfl, hmore⟩ := (hsplit hboth.1).1 hboth.2
        exact ⟨more, rfl, hmore⟩
      · intro hfound
        obtain ⟨hdols, hlookup⟩ := not_or.mp hfound
        rw [lookup, lookup, List.findSome?_cons, List.findSome?_cons, stopIndex, stopIndex]
        cases hfind : item.find filename with
        | some dent =>
          rw [if_neg (by simp), if_neg (by simp)]
          exact ⟨rfl, rfl⟩
        | none =>
          rw [lookup, List.findSome?_cons, hfind] at hlookup
          obtain ⟨hsame, hstop⟩ := (hsplit (.inr hfind)).2 (not_or.mpr ⟨hdols, hlookup⟩)
          rw [if_pos rfl, if_pos rfl, hstop]
          exact ⟨hsame, rfl⟩

end Part

end UBoot.Fs.Fat
