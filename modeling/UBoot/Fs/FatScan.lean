import Mathlib.Data.List.DropRight
import Mathlib.Data.List.GetD
import Mathlib.Data.List.TakeWhile
import UBoot.Fs.FatContents
import UBoot.Fs.FatDir

/-!
# Looking for a name in a directory

A directory is a list of files, some with a set of slots for a long name in front, and of other
entries.  `do_fat_read` and `get_dentfromdir` go through the entries one by one.  At a set they get
the long name and copy the entry of the file over the first slot, so that they find the file there;
as long as a set lies inside what has been read, the entries behind are still those of the
directory.  A name that is read need not be the name that is there: `get_name` stops at the first
blank, and a long name is read by the low bytes of its characters.
-/

namespace UBoot.Fs.Fat

open UBoot.Lib

/-! ## Computations with a log -/

section Does

variable {α β : Type} {w w₁ w₂ : World} {log log' : List Access} {a : α} {b : β}

/-- A computation with its log, its result and the state it ends in. -/
def Does (m : FatM α) (w : World) (log : List Access) (a : α) (w' : World) : Prop :=
  m w = (log, some (a, w'))

theorem Does.pure : Does (pure a) w [] a w := rfl

theorem Does.bind_eq {x : FatM α} {f : α → FatM β} (hx : Does x w log a w₁) :
    (x >>= f) w = (log ++ (f a w₁).1, (f a w₁).2) := FatM.bind_done hx

theorem Does.bind {x : FatM α} {f : α → FatM β} (hx : Does x w log a w₁)
    (hf : Does (f a) w₁ log' b w₂) : Does (x >>= f) w (log ++ log') b w₂ := by
  rw [Does, hx.bind_eq, hf]

/-- A first step without a log. -/
theorem Does.bind_nil {x : FatM α} {f : α → FatM β} (hx : Does x w [] a w₁)
    (hf : Does (f a) w₁ log' b w₂) : Does (x >>= f) w log' b w₂ := hx.bind hf

theorem Does.mydata : Does FatM.mydata w [] w.mydata w := rfl

end Does

/-! ## Names -/

/-- A field of a short name without the blanks that fill it up. -/
def unpad (field : Bytes) : Bytes := field.rdropWhile (· == space)

/-- At the start of a name 5 stands for 0xe5. -/
def unescape : Bytes → Bytes
  | [] => []
  | c :: cs => (if c = aRing then deletedFlag else c) :: cs

/-- The name in an entry, in lower case. -/
def shortName (dent : Bytes) : Bytes :=
  let base := unescape (unpad (dirEntry dent).name)
  let ext := unpad (dirEntry dent).ext
  (base ++ if ext = [] then [] else 46 :: ext).map toLower

/-- The characters of a slot. -/
def slotUnits (slot : Bytes) : List UInt16 :=
  [1, 3, 5, 7, 9, 14, 16, 18, 20, 22, 24, 28, 30].map fun pos =>
    UInt16.ofNat (le16 (slot.getD · 0) pos)

/-- The characters of a long name: the slots are in the directory from last to first. -/
def longUnits (head : Bytes) (tail : List Bytes) : List UInt16 :=
  ((head :: tail).reverse.flatMap slotUnits).takeWhile (· != 0)

/-- A letter in lower case. -/
def lowerUnit (c : UInt16) : UInt16 := if 65 ≤ c ∧ c ≤ 90 then c + 32 else c

/-- The long name in lower case is a name, each byte of which is a character. -/
def IsLongName (name head : Bytes) (tail : List Bytes) : Prop :=
  name.map UInt8.toUInt16 = (longUnits head tail).map lowerUnit

instance (name head : Bytes) (tail : List Bytes) : Decidable (IsLongName name head tail) :=
  inferInstanceAs (Decidable (_ = _))

/-- The low bytes of the characters, as `get_vfatname` collects them. -/
def longChars (head : Bytes) (tail : List Bytes) : Bytes :=
  ((head :: tail).reverse.flatMap slotChars).takeWhile (· != 0)

/-! ## Directories -/

/-- What is in a directory: a file, a file with the slots of its long name, or anything that is
passed over: what has been deleted, the volume label, and a slot without the first of its set. -/
inductive Item
  | file (dent : Bytes)
  | longFile (head : Bytes) (tail : List Bytes) (dent : Bytes)
  | other (slot : Bytes)

/-- The 32 bytes of an item, one after the other. -/
def Item.slots : Item → List Bytes
  | file dent => [dent]
  | longFile head tail dent => head :: tail ++ [dent]
  | other slot => [slot]

/-- The file, if it has the name. -/
def Item.find (name : Bytes) : Item → Option Bytes
  | file dent => if name = shortName dent then some dent else none
  | longFile head tail dent =>
    if name = shortName dent ∨ IsLongName name head tail then some dent else none
  | other _ => none

/-- The first file with a name. -/
def lookup (name : Bytes) (items : List Item) : Option Bytes := items.findSome? (Item.find name)

/-- The entry of a file. -/
def IsFile (dent : Bytes) : Prop :=
  attr dent &&& attrVolume = 0 ∧ first dent ≠ 0 ∧ first dent ≠ deletedFlag

instance (dent : Bytes) : Decidable (IsFile dent) := inferInstanceAs (Decidable (_ ∧ _))

/-- The slots of a long name behind the first, with their numbers down to one. -/
def TailSlots : List Bytes → Prop
  | [] => True
  | slot :: rest =>
    (first slot).toNat = rest.length + 1 ∧ attr slot = attrVfat ∧ (∀ c ∈ slotUnits slot, c ≠ 0) ∧
      TailSlots rest

/-- A well-formed item. -/
def Item.Wf : Item → Prop
  | file dent => IsFile dent
  | longFile head tail dent =>
    (first head).toNat = 64 + (tail.length + 1) ∧ tail.length < 20 ∧ attr head = attrVfat ∧
      TailSlots tail ∧ IsFile dent
  | other slot => first slot ≠ 0 ∧ (first slot = deletedFlag ∨ attr slot &&& attrVolume ≠ 0)

/-- What is behind a slot is not the rest of a set that it begins. -/
def Orphan (slot : Bytes) (behind : List Bytes) : Prop :=
  ∀ tail dent, (Item.longFile slot tail dent).Wf → ¬ tail ++ [dent] <+: behind

/-- What is in a directory, and behind it nothing or an end marker with whatever follows. -/
def Entries : List Item → List Bytes → Prop
  | [], rest => ∀ m ∈ rest.head?, first m = 0
  | item :: items, rest =>
    item.Wf ∧ (∀ slot, item = .other slot → Orphan slot (items.flatMap Item.slots ++ rest)) ∧
      Entries items rest

/-- The entry behind the last of a directory. -/
def IsMarker (slot : Bytes) : Prop := first slot = 0 ∧ attr slot &&& attrVolume = 0

/-- The name that is read comes to the name looked for exactly if the name that is there does. -/
def Item.ReadRight (name : Bytes) : Item → Prop
  | file dent => name = getName dent ↔ name = shortName dent
  | longFile head tail dent =>
    name = getName dent ∨ name = finishName (longChars head tail) ↔
      name = shortName dent ∨ IsLongName name head tail
  | other slot =>
    attr slot &&& attrVolume ≠ 0 → first slot &&& lastLongEntryMask ≠ 0 → name ≠ getName slot

/-- An item with so much room in the buffer from its first entry on, and the entry behind that one.
A set and its file are inside the buffer.  Something else that looks like the start of a set is not
followed by a slot of it. -/
def Item.Fits (room : Nat) (next : Bytes) : Item → Prop
  | file _ => True
  | longFile _ tail _ => tail.length + 2 ≤ room
  | other slot =>
    attr slot &&& attrVolume ≠ 0 → first slot &&& lastLongEntryMask ≠ 0 →
      2 ≤ room ∧ 2 ≤ (slotNum slot).toNat ∧ (slotNum next).toNat ≠ (slotNum slot).toNat - 1

/-- Something else that looks like a set of one slot, such as a label with an A in front.  What is
behind it is taken for its file, and is one if it has the name. -/
def Item.OneSlot (name : Bytes) (room : Nat) (next : Bytes) : Item → Prop
  | other slot =>
    attr slot &&& attrVolume ≠ 0 ∧ first slot &&& lastLongEntryMask ≠ 0 ∧
      2 ≤ room ∧ (slotNum slot).toNat = 1 ∧ name ≠ finishName (longChars slot []) ∧
      (name = getName next → IsFile next)
  | _ => False

/-- An item that `do_fat_read` does not mistake. -/
def Item.Readable (name : Bytes) (room : Nat) (next : Bytes) (item : Item) : Prop :=
  item.Fits room next ∧ item.ReadRight name ∨ item.OneSlot name room next

/-- The items up to the one with the name, the first of which is the entry `p` of the root
directory. -/
def Readable (name : Bytes) (perClust : Nat) (slot : Nat → Bytes) : Nat → List Item → Prop
  | _, [] => True
  | p, item :: items =>
    item.Readable name (perClust - p % 16) (slot (p + 1)) ∧
      (item.find name = none → Readable name perClust slot (p + item.slots.length) items)

/-- How many entries are in front of the one where the search ends. -/
def stopIndex (name : Bytes) : List Item → Nat
  | [] => 0
  | item :: items =>
    if item.find name = none then item.slots.length + stopIndex name items
    else item.slots.length - 1

/-- The entries of a directory that begins at an address. -/
def slotAt (disk : Contents) (base i : Nat) : Bytes := readAt disk (base + 32 * i) 32

/-! ## What is in a directory -/

theorem Entries.wf {items : List Item} {rest : List Bytes} (h : Entries items rest) :
    ∀ item ∈ items, item.Wf := by
  induction items with
  | nil =>
    intro item hitem
    cases hitem
  | cons item items ih => exact List.forall_mem_cons.mpr ⟨h.1, ih h.2.2⟩

/-- The first entry of an item is no end marker. -/
theorem Item.Wf.slots_head {item : Item} (h : item.Wf) :
    ∃ slot slots, item.slots = slot :: slots ∧ first slot ≠ 0 := by
  cases item with
  | file dent => exact ⟨dent, [], rfl, h.2.1⟩
  | longFile head tail dent =>
    refine ⟨head, tail ++ [dent], rfl, fun hzero => ?_⟩
    have hnum := h.1
    rw [hzero, UInt8.toNat_zero] at hnum
    omega
  | other slot => exact ⟨slot, [], rfl, h.1⟩

theorem slots_pos (item : Item) : 0 < item.slots.length := by
  cases item <;> simp [Item.slots]

theorem stopIndex_of_none {name : Bytes} {items : List Item} (h : lookup name items = none) :
    stopIndex name items = (items.flatMap Item.slots).length := by
  induction items with
  | nil => rfl
  | cons item items ih =>
    rw [lookup, List.findSome?_cons] at h
    cases hfind : item.find name with
    | none =>
      rw [hfind] at h
      rw [stopIndex, if_pos hfind, List.flatMap_cons, List.length_append, ih h]
    | some dent =>
      rw [hfind] at h
      cases h

theorem stopIndex_lt {name : Bytes} {items : List Item} (h : lookup name items ≠ none) :
    stopIndex name items < (items.flatMap Item.slots).length := by
  induction items with
  | nil => exact absurd rfl h
  | cons item items ih =>
    rw [lookup, List.findSome?_cons] at h
    rw [stopIndex, List.flatMap_cons, List.length_append]
    cases hfind : item.find name with
    | none =>
      rw [hfind] at h
      rw [if_pos rfl]
      exact Nat.add_lt_add_left (ih h) _
    | some dent =>
      have := slots_pos item
      rw [if_neg (by simp)]
      omega

/-! ## Bytes -/

theorem volume_vfat (x : UInt8) (h : x &&& attrVolume ≠ 0) : x &&& attrVfat ≠ 0 := by
  have hmask : x &&& attrVolume = x &&& attrVfat &&& attrVolume :=
    (UInt8.and_assoc x attrVfat attrVolume).symm
  intro hvfat
  rw [hmask, hvfat] at h
  exact h (UInt8.zero_and)

/-- A number of a slot behind the first. -/
theorem small_slot (x : UInt8) (h : x.toNat ≤ 20) :
    x &&& lastLongEntryMask = 0 ∧ (x &&& ~~~lastLongEntryMask).toNat = x.toNat := by
  have hall : ∀ n < 21, UInt8.ofNat n &&& lastLongEntryMask = 0 ∧
      (UInt8.ofNat n &&& ~~~lastLongEntryMask).toNat = n := by decide
  have hx := hall x.toNat (Nat.lt_succ_of_le h)
  rwa [UInt8.ofNat_toNat] at hx

theorem slotNum_tail {slot : Bytes} {n : Nat} (h : (first slot).toNat = n + 1) (hn : n < 20) :
    (slotNum slot).toNat = n + 1 ∧ first slot &&& lastLongEntryMask = 0 := by
  obtain ⟨hmask, hnum⟩ := small_slot (first slot) (by omega)
  exact ⟨by rw [slotNum, hnum, h], hmask⟩

/-- The number of the first slot of a set. -/
theorem slotNum_head {slot : Bytes} {n : Nat} (h : (first slot).toNat = 64 + n) (hn : n ≤ 20) :
    (slotNum slot).toNat = n ∧ first slot &&& lastLongEntryMask ≠ 0 := by
  have hall : ∀ n < 21, (UInt8.ofNat (64 + n) &&& ~~~lastLongEntryMask).toNat = n ∧
      UInt8.ofNat (64 + n) &&& lastLongEntryMask ≠ 0 := by decide
  have hx := hall n (Nat.lt_succ_of_le hn)
  rwa [← h, UInt8.ofNat_toNat] at hx

theorem vfat_volume : attrVfat &&& attrVolume ≠ 0 := by decide

/-- No name is left of an entry that has been deleted. -/
theorem getName_deleted {dent : Bytes} (h : first dent = deletedFlag) : getName dent = [] := by
  cases dent with
  | nil => exact absurd h (by decide)
  | cons c dent =>
    have hc : c = deletedFlag := h
    have hup : upToSpace (dirEntry (c :: dent)).name =
        deletedFlag :: upToSpace (dent.take 7) := by
      simp [dirEntry, upToSpace, hc, deletedFlag, space]
    simp only [getName, hup, List.cons_append, finishName, if_true]

theorem finishName_plain {name : Bytes} (hdeleted : name.head? ≠ some deletedFlag)
    (hring : name.head? ≠ some aRing) : finishName name = name.map toLower := by
  cases name with
  | nil => rfl
  | cons c cs =>
    have hc : c ≠ deletedFlag := fun h => hdeleted (by rw [h]; rfl)
    have hc' : c ≠ aRing := fun h => hring (by rw [h]; rfl)
    rw [finishName, if_neg hc, if_neg hc']

/-! ## Names that are read as they are -/

/-- The part of a short name in front of the blanks that fill it up has no blank and no zero. -/
def PlainField (field : Bytes) : Prop := ∀ c ∈ unpad field, c ≠ 0 ∧ c ≠ space

instance (field : Bytes) : Decidable (PlainField field) :=
  inferInstanceAs (Decidable (∀ c ∈ unpad field, c ≠ 0 ∧ c ≠ space))

theorem upToSpace_plain {field : Bytes} (h : PlainField field) :
    upToSpace field = unpad field := by
  induction field using List.reverseRecOn with
  | nil => rfl
  | append_singleton field c ih =>
    by_cases hc : c = space
    · have hunpad : unpad (field ++ [c]) = unpad field :=
        List.rdropWhile_concat_pos _ _ _ (by rw [hc]; rfl)
      have hfield : PlainField field := by
        rw [PlainField, hunpad] at h
        exact h
      have hstop : [c].takeWhile (fun c => c != 0 && c != space) = [] := by
        rw [hc]
        rfl
      rw [hunpad, ← ih hfield, upToSpace, upToSpace, List.takeWhile_append, hstop]
      split
      · rename_i hall
        rw [List.append_nil]
        exact (List.IsPrefix.eq_of_length (List.takeWhile_prefix _) hall).symm
      · rfl
    · have hunpad : unpad (field ++ [c]) = field ++ [c] :=
        List.rdropWhile_concat_neg _ _ _ (by simpa using hc)
      rw [hunpad, upToSpace]
      rw [PlainField, hunpad] at h
      exact List.takeWhile_eq_self_iff.mpr fun c hc => by simpa using h c hc

/-- The first byte of a field without blanks at its end. -/
theorem head_unpad {field : Bytes} {c : UInt8} {cs : Bytes} (h : unpad field = c :: cs) :
    first field = c := by
  obtain ⟨pad, hfield⟩ := List.rdropWhile_prefix (p := (· == space)) (l := field)
  rw [show field.rdropWhile (· == space) = c :: cs from h] at hfield
  rw [← hfield]
  rfl

theorem ext_plain {ext : Bytes} (h : PlainField ext) :
    (if first ext ≠ 0 ∧ first ext ≠ space then 46 :: upToSpace ext else []) =
      if unpad ext = [] then [] else 46 :: unpad ext := by
  cases hunpad : unpad ext with
  | nil =>
    have hblank := List.rdropWhile_eq_nil_iff.mp hunpad
    rw [if_pos rfl, if_neg]
    rintro ⟨hzero, hspace⟩
    cases ext with
    | nil => exact hzero rfl
    | cons c cs =>
      have hc : c = space := by simpa using hblank c List.mem_cons_self
      exact hspace hc
  | cons c cs =>
    have hc := h c (by rw [hunpad]; exact List.mem_cons_self)
    rw [if_neg (List.cons_ne_nil c cs), upToSpace_plain h, hunpad,
      if_pos (by rw [head_unpad hunpad]; exact hc)]

/-- `get_name` reads such a name as it is. -/
theorem getName_plain {dent : Bytes} (hname : PlainField (dirEntry dent).name)
    (hext : PlainField (dirEntry dent).ext) (hfirst : first dent ≠ deletedFlag) :
    getName dent = shortName dent := by
  have hfinish : ∀ ext : Bytes, ext.head? ≠ some deletedFlag → ext.head? ≠ some aRing →
      finishName (unpad (dirEntry dent).name ++ ext) =
        (unescape (unpad (dirEntry dent).name) ++ ext).map toLower := by
    intro ext hdeleted hring
    cases hunpad : unpad (dirEntry dent).name with
    | nil => exact finishName_plain hdeleted hring
    | cons c cs =>
      have hc : c ≠ deletedFlag := by
        rw [← head_unpad hunpad]
        cases dent with
        | nil => exact hfirst
        | cons c cs => exact hfirst
      rw [List.cons_append, finishName, if_neg hc, unescape]
      by_cases hring : c = aRing
      · rw [if_pos hring, if_pos hring]
        rfl
      · rw [if_neg hring, if_neg hring]
        rfl
  rw [getName, upToSpace_plain hname, ext_plain hext, shortName]
  refine hfinish _ ?_ ?_
  · split
    · exact fun h => by cases h
    · exact fun h => absurd (Option.some.inj h) (by decide)
  · split
    · exact fun h => by cases h
    · exact fun h => absurd (Option.some.inj h) (by decide)

theorem slotChars_units (slot : Bytes) : slotChars slot = (slotUnits slot).map UInt16.toUInt8 := by
  have hlow : ∀ pos, (UInt16.ofNat (le16 (slot.getD · 0) pos)).toUInt8 = slot.getD pos 0 := by
    intro pos
    have hlt := (slot.getD pos 0).toNat_lt
    rw [← UInt8.toNat_inj, UInt16.toNat_toUInt8, UInt16.toNat_ofNat', le16]
    omega
  rw [slotChars, slotUnits, List.map_map]
  exact List.map_congr_left fun pos _ => (hlow pos).symm

/-- Each character of the long name is a byte, and the first means nothing in a short name. -/
def PlainLong (head : Bytes) (tail : List Bytes) : Prop :=
  (∀ c ∈ longUnits head tail, c < 256) ∧ (longUnits head tail).head? ≠ some 0xe5 ∧
    (longUnits head tail).head? ≠ some 5

instance (head : Bytes) (tail : List Bytes) : Decidable (PlainLong head tail) :=
  inferInstanceAs (Decidable ((∀ c ∈ longUnits head tail, c < 256) ∧ _ ∧ _))

theorem lowByte {c : UInt16} (h : c < 256) : c.toUInt8.toUInt16 = c := by
  have hlt : c.toNat < 256 := h
  rw [← UInt16.toNat_inj, UInt8.toNat_toUInt16, UInt16.toNat_toUInt8]
  exact Nat.mod_eq_of_lt hlt

theorem lowerUnit_byte (c : UInt8) : lowerUnit c.toUInt16 = (toLower c).toUInt16 := by
  have hle : ∀ a b : UInt8, a.toUInt16 ≤ b.toUInt16 ↔ a ≤ b := by
    intro a b
    rw [UInt16.le_iff_toNat_le, UInt8.le_iff_toNat_le, UInt8.toNat_toUInt16, UInt8.toNat_toUInt16]
  have hcap : (65 ≤ c.toUInt16 ∧ c.toUInt16 ≤ 90) ↔ 65 ≤ c ∧ c ≤ 90 :=
    and_congr (hle 65 c) (hle c 90)
  rw [lowerUnit, toLower]
  by_cases h : 65 ≤ c ∧ c ≤ 90
  · have hhigh : c.toNat ≤ 90 := UInt8.le_iff_toNat_le.mp h.2
    rw [if_pos h, if_pos (hcap.mpr h), ← UInt16.toNat_inj, UInt16.toNat_add,
      UInt8.toNat_toUInt16, UInt8.toNat_toUInt16, UInt8.toNat_add]
    have hthirtyTwo : (32 : UInt16).toNat = 32 ∧ (32 : UInt8).toNat = 32 := ⟨rfl, rfl⟩
    omega
  · rw [if_neg h, if_neg (mt hcap.mp h)]

/-- The low bytes of such a name are the name. -/
theorem longUnits_plain {head : Bytes} {tail : List Bytes}
    (h : ∀ c ∈ longUnits head tail, c < 256) :
    longUnits head tail = (longChars head tail).map UInt8.toUInt16 := by
  have hchars : (head :: tail).reverse.flatMap slotChars =
      ((head :: tail).reverse.flatMap slotUnits).map UInt16.toUInt8 := by
    rw [List.map_flatMap]
    exact congrArg (List.flatMap · _) (funext slotChars_units)
  have htake : ∀ units : List UInt16, (∀ c ∈ units.takeWhile (· != 0), c < 256) →
      units.takeWhile (· != 0) =
        ((units.map UInt16.toUInt8).takeWhile (· != 0)).map UInt8.toUInt16 := by
    intro units
    induction units with
    | nil => exact fun _ => rfl
    | cons c units ih =>
      intro hlow
      by_cases hzero : c = 0
      · rw [hzero]
        rfl
      · rw [List.takeWhile_cons_of_pos (by simpa using hzero)] at hlow ⊢
        obtain ⟨hc, hlow⟩ := List.forall_mem_cons.mp hlow
        have hbyte : c.toUInt8 ≠ 0 := fun h => hzero (by rw [← lowByte hc, h]; rfl)
        rw [List.map_cons, List.takeWhile_cons_of_pos (by simpa using hbyte), List.map_cons,
          lowByte hc, ← ih hlow]
  rw [longUnits, longChars, hchars]
  exact htake _ h

/-- `get_vfatname` reads such a name as it is. -/
theorem isLongName_plain {name head : Bytes} {tail : List Bytes} (h : PlainLong head tail) :
    name = finishName (longChars head tail) ↔ IsLongName name head tail := by
  obtain ⟨hlow, hdeleted, hring⟩ := h
  have hunits := longUnits_plain hlow
  rw [hunits, List.head?_map] at hdeleted hring
  rw [IsLongName, hunits, finishName_plain, List.map_map]
  · have hlower : lowerUnit ∘ UInt8.toUInt16 = UInt8.toUInt16 ∘ toLower := funext lowerUnit_byte
    rw [hlower, ← List.map_map]
    refine (List.map_injective_iff.mpr ?_).eq_iff.symm
    intro a b hab
    simpa using congrArg UInt16.toUInt8 hab
  · exact fun h => hdeleted (by rw [h]; rfl)
  · exact fun h => hring (by rw [h]; rfl)

theorem Item.readRight_file {name dent : Bytes} (hfile : IsFile dent)
    (hname : PlainField (dirEntry dent).name) (hext : PlainField (dirEntry dent).ext) :
    (file dent).ReadRight name := by
  rw [ReadRight, getName_plain hname hext hfile.2.2]

theorem Item.readRight_longFile {name head dent : Bytes} {tail : List Bytes} (hfile : IsFile dent)
    (hname : PlainField (dirEntry dent).name) (hext : PlainField (dirEntry dent).ext)
    (hlong : PlainLong head tail) : (longFile head tail dent).ReadRight name := by
  rw [ReadRight, getName_plain hname hext hfile.2.2, isLongName_plain hlong]

/-- The long name "read me.txt". -/
def readMeSlot : Bytes :=
  [0x41, 114, 0, 101, 0, 97, 0, 100, 0, 32, 0, 15, 0, 0x6b, 109, 0, 101, 0, 46, 0, 116, 0, 120, 0,
    116, 0, 0, 0, 0, 0, 0xff, 0xff]

/-- Its short name, README~1.TXT, of an empty file. -/
def readMeDent : Bytes :=
  [82, 69, 65, 68, 77, 69, 126, 49, 84, 88, 84, 32] ++ List.replicate 20 0

/-- "read me.txt" -/
def readMeName : Bytes := [114, 101, 97, 100, 32, 109, 101, 46, 116, 120, 116]

theorem readMe_file : IsFile readMeDent := by decide

theorem readMe_right (name : Bytes) :
    (Item.longFile readMeSlot [] readMeDent).ReadRight name := by
  have hunits : longUnits readMeSlot [] =
      [114, 101, 97, 100, 32, 109, 101, 46, 116, 120, 116] := by decide
  have hname : unpad (dirEntry readMeDent).name = [82, 69, 65, 68, 77, 69, 126, 49] := rfl
  have hext : unpad (dirEntry readMeDent).ext = [84, 88, 84] := rfl
  refine Item.readRight_longFile readMe_file ?_ ?_ ?_
  · rw [PlainField, hname]
    simp [space]
  · rw [PlainField, hext]
    simp [space]
  · rw [PlainLong, hunits]
    simp

/-! ## One way to read a directory -/

/-- A set is told by its first slot from what is passed over, and from a file. -/
theorem Item.unique {item item' : Item} {behind behind' : List Bytes} (h : item.Wf) (h' : item'.Wf)
    (halone : ∀ slot, item = .other slot → Orphan slot behind)
    (halone' : ∀ slot, item' = .other slot → Orphan slot behind')
    (heq : item.slots ++ behind = item'.slots ++ behind') : item = item' ∧ behind = behind' := by
  cases item with
  | file dent =>
    cases item' with
    | file dent' =>
      obtain ⟨rfl, rfl⟩ := List.cons.inj heq
      exact ⟨rfl, rfl⟩
    | longFile head' tail' dent' =>
      obtain ⟨rfl, -⟩ := List.cons.inj heq
      exact absurd h.1 (by rw [h'.2.2.1]; exact vfat_volume)
    | other slot' =>
      obtain ⟨rfl, -⟩ := List.cons.inj heq
      exact absurd h'.2 (not_or.mpr ⟨h.2.2, not_not_intro h.1⟩)
  | longFile head tail dent =>
    cases item' with
    | file dent' =>
      obtain ⟨rfl, -⟩ := List.cons.inj heq
      exact absurd h'.1 (by rw [h.2.2.1]; exact vfat_volume)
    | longFile head' tail' dent' =>
      obtain ⟨rfl, hset⟩ := List.cons.inj heq
      have hlen : tail.length = tail'.length := by
        have hnum := h.1
        have hnum' := h'.1
        omega
      have hset : tail ++ dent :: behind = tail' ++ dent' :: behind' := by simpa using hset
      obtain ⟨rfl, hdent⟩ := List.append_inj hset hlen
      obtain ⟨rfl, rfl⟩ := List.cons.inj hdent
      exact ⟨rfl, rfl⟩
    | other slot' =>
      obtain ⟨rfl, hset⟩ := List.cons.inj heq
      exact absurd ⟨behind, hset⟩ (halone' _ rfl tail dent h)
  | other slot =>
    cases item' with
    | file dent' =>
      obtain ⟨rfl, -⟩ := List.cons.inj heq
      exact absurd h.2 (not_or.mpr ⟨h'.2.2, not_not_intro h'.1⟩)
    | longFile head' tail' dent' =>
      obtain ⟨rfl, hset⟩ := List.cons.inj heq
      exact absurd ⟨behind', hset.symm⟩ (halone _ rfl tail' dent' h')
    | other slot' =>
      obtain ⟨rfl, rfl⟩ := List.cons.inj heq
      exact ⟨rfl, rfl⟩

/-- There is one way to read the entries of a directory. -/
theorem Entries.unique {items items' : List Item} {rest rest' : List Bytes} (h : Entries items rest)
    (h' : Entries items' rest')
    (heq : items.flatMap Item.slots ++ rest = items'.flatMap Item.slots ++ rest') :
    items = items' ∧ rest = rest' := by
  induction items generalizing items' with
  | nil =>
    cases items' with
    | nil => exact ⟨rfl, heq⟩
    | cons item' items' =>
      obtain ⟨slot, slots, hslots, hfirst⟩ := h'.1.slots_head
      rw [List.flatMap_cons, hslots] at heq
      exact absurd (h slot (by rw [show rest = _ from heq]; rfl)) hfirst
  | cons item items ih =>
    cases items' with
    | nil =>
      obtain ⟨slot, slots, hslots, hfirst⟩ := h.1.slots_head
      rw [List.flatMap_cons, hslots] at heq
      exact absurd (h' slot (by rw [show rest' = _ from heq.symm]; rfl)) hfirst
    | cons item' items' =>
      rw [List.flatMap_cons, List.flatMap_cons, List.append_assoc, List.append_assoc] at heq
      obtain ⟨rfl, hbehind⟩ := Item.unique h.1 h'.1 h.2.1 h'.2.1 heq
      obtain ⟨rfl, rfl⟩ := ih h.2.2 h'.2.2 hbehind
      exact ⟨rfl, rfl⟩

/-! ## The buffer -/

section Buffer

variable {dev : BlockDev} {d : FsData} {disk : Contents} {base s i j k perClust : Nat}
  {w : World} {name dent : Bytes} {b : Buf}

/-- Looks at some entries of the buffer. -/
def looks (b : Buf) (js : List Nat) : List Access := js.map fun (j : Nat) => .look b (32 * j)

theorem looks_append (js ks : List Nat) : looks b (js ++ ks) = looks b js ++ looks b ks := by
  rw [looks, looks, looks, List.map_append]

/-- The buffer holds what has been read with the sector `s` of the directory, from the entry `j`
on. -/
structure Holds (b : Buf) (d : FsData) (disk : Contents) (base perClust s j : Nat) (w : World) :
    Prop where
  mydata : w.mydata = d
  size : d.bytesPerClust = 32 * perClust
  bytes : ∀ a, 32 * j ≤ a → a < 32 * perClust → w.bufs b a = disk (base + 512 * s + a)

theorem Holds.mono (h : Holds b d disk base perClust s j w) (hk : j ≤ k) :
    Holds b d disk base perClust s k w :=
  ⟨h.mydata, h.size, fun a ha => h.bytes a (by omega)⟩

theorem length_slotAt : (slotAt disk base i).length = 32 := length_readAt _ _ _

theorem Holds.look (h : Holds b d disk base perClust s j w) (hj : j ≤ i) (hi : i < perClust) :
    Does (FatM.look b (32 * i)) w (looks b [i]) (slotAt disk base (16 * s + i)) w := by
  have hbytes : (List.range 32).map (fun (k : Nat) => w.bufs b (32 * (i : Int) + k)) =
      slotAt disk base (16 * s + i) := by
    rw [slotAt, readAt, List.range'_eq_map_range, List.map_map]
    refine List.map_congr_left fun k hk => ?_
    have hk := List.mem_range.mp hk
    have := h.bytes (32 * i + k) (by omega) (by omega)
    push_cast at this
    rw [this, Function.comp_apply]
    congr 1
    omega
  rw [Does, FatM.look, hbytes]
  rfl

/-- The state after an entry has been copied over another. -/
def World.stored (w : World) (b : Buf) (j : Nat) (dent : Bytes) : World :=
  { w with
    bufs := fun b' a =>
      if b' = b ∧ 32 * (j : Int) ≤ a ∧ a < 32 * j + dent.length then
        dent.getD (a - 32 * j).toNat 0
      else w.bufs b' a }

theorem does_store : Does (FatM.store b (32 * j) dent) w [] () (w.stored b j dent) := rfl

theorem Holds.stored (h : Holds b d disk base perClust s j w) (hlen : dent.length = 32) :
    Holds b d disk base perClust s (j + 1) (w.stored b j dent) := by
  refine ⟨h.mydata, h.size, fun a ha hlt => ?_⟩
  rw [← h.bytes a (by omega) hlt]
  refine if_neg ?_
  rintro ⟨-, -, hlt⟩
  rw [hlen] at hlt
  omega

theorem stored_bytes {k : Nat} (hk : k < dent.length) :
    (w.stored b j dent).bufs b (32 * (j : Int) + k) = dent.getD k 0 := by
  show (if b = b ∧ 32 * (j : Int) ≤ 32 * j + k ∧
    32 * (j : Int) + k < 32 * j + dent.length then dent.getD (32 * (j : Int) + k - 32 * j).toNat 0
    else _) = _
  rw [if_pos ⟨rfl, by omega, by omega⟩, show (32 * (j : Int) + k - 32 * j).toNat = k by omega]

theorem look_stored (hlen : dent.length = 32) :
    Does (FatM.look b (32 * j)) (w.stored b j dent) (looks b [j]) dent (w.stored b j dent) := by
  have hbytes : (List.range 32).map
      (fun (k : Nat) => (w.stored b j dent).bufs b (32 * (j : Int) + k)) = dent := by
    refine List.ext_getElem (by simp [hlen]) fun k hk hk' => ?_
    rw [List.getElem_map, List.getElem_range, stored_bytes hk', List.getD_eq_getElem _ _ hk']
  rw [Does, FatM.look, hbytes]
  rfl

/-! ## `get_vfatname` in the buffer -/

/-- The slots behind the first are passed. -/
theorem pass_tail (h : Holds b d disk base perClust s j w) {tail : List Bytes} :
    ∀ {i : Nat}, j ≤ i → i + tail.length < perClust → tail.length < 20 → TailSlots tail →
      (∀ k x, tail[k]? = some x → slotAt disk base (16 * s + (i + k)) = x) →
      Does (passSlots b d.bytesPerClust tail.length (32 * i)) w
        (looks b (List.range' i tail.length)) (some (32 * (i + tail.length : Nat))) w := by
  induction tail with
  | nil =>
    intro i _ _ _ _ _
    exact Does.pure
  | cons x tail ih =>
    intro i hj hi hlen htail hslots
    obtain ⟨hnum, -, -, htail⟩ := htail
    rw [List.length_cons] at hi hlen
    have hx : slotAt disk base (16 * s + i) = x := hslots 0 x rfl
    have hsize := h.size
    rw [List.length_cons, passSlots, if_pos (by omega)]
    have hlook := h.look hj (show i < perClust by omega)
    rw [hx] at hlook
    refine hlook.bind ?_
    rw [if_neg (by rw [(slotNum_tail hnum (by omega)).1]; omega)]
    have hrest := ih (i := i + 1) (by omega) (by omega) (by omega) htail fun k y hy => by
      rw [← hslots (k + 1) y hy]
      congr 1
      omega
    rw [show (32 * (i : Int) + 32) = 32 * ((i + 1 : Nat) : Int) by omega,
      show i + (tail.length + 1) = i + 1 + tail.length by omega]
    exact hrest

/-- The characters of a slot up to the first zero, in front of those of more slots. -/
theorem slot2str_append (slot chars : Bytes) :
    (slotChars slot ++ chars).takeWhile (· != 0) =
      (slot2str slot).1 ++ if (slot2str slot).2 then [] else chars.takeWhile (· != 0) := by
  rw [slot2str]
  dsimp only
  by_cases hzero : ∃ c ∈ slotChars slot, c = 0
  · have hany : (slotChars slot).any (· == 0) = true := by simpa using hzero
    have hshort : ((slotChars slot).takeWhile (· != 0)).length ≠ (slotChars slot).length := by
      intro hlen
      obtain ⟨c, hc, hc0⟩ := hzero
      have hall := List.takeWhile_eq_self_iff.mp
        (List.IsPrefix.eq_of_length (List.takeWhile_prefix _) hlen)
      have hne := hall c hc
      rw [hc0] at hne
      cases hne
    rw [hany, if_pos rfl, List.append_nil, List.takeWhile_append, if_neg hshort]
  · have hany : (slotChars slot).any (· == 0) = false := by
      rw [← Bool.not_eq_true]
      simpa using hzero
    have hall : ∀ c ∈ slotChars slot, (c != 0) = true := fun c hc => by
      rw [bne_iff_ne]
      exact fun h => hzero ⟨c, hc, h⟩
    rw [hany, if_neg (by decide), List.takeWhile_append_of_pos hall,
      List.takeWhile_eq_self_iff.mpr hall]

/-- The name is collected from the last slot of the set, number one, to the first. -/
theorem collect_back (h : Holds b d disk base perClust s j w) {head : Bytes}
    (hhead : first head &&& lastLongEntryMask ≠ 0) (slots : List Bytes) :
    ∀ (q fuel : Nat) (lName : Bytes), j + slots.length < q → q ≤ perClust → slots.length < fuel →
      (∀ x ∈ slots, first x &&& lastLongEntryMask = 0) →
      (∀ k i x, (slots ++ [head])[k]? = some x → i + k + 1 = q →
        slotAt disk base (16 * s + i) = x) →
      ∃ js, Does (collectName b fuel (32 * q) lName) w (looks b js)
          (lName ++ ((slots ++ [head]).flatMap slotChars).takeWhile (· != 0)) w ∧
        ∀ i ∈ js, q ≤ i + slots.length + 1 ∧ i < q := by
  induction slots with
  | nil =>
    intro q fuel lName hj hq hfuel _ hslots
    obtain ⟨fuel, rfl⟩ := Nat.exists_eq_succ_of_ne_zero (show fuel ≠ 0 by omega)
    obtain ⟨q, rfl⟩ := Nat.exists_eq_succ_of_ne_zero (show q ≠ 0 by omega)
    have hx := hslots 0 q head rfl rfl
    rw [List.length_nil] at hj
    have hlook := h.look (show j ≤ q by omega) (show q < perClust by omega)
    rw [hx] at hlook
    refine ⟨[q], ?_, fun i hi => ?_⟩
    · rw [collectName, show (32 * ((q.succ : Nat) : Int) - 32) = 32 * (q : Int) by omega]
      refine hlook.bind (?_ : Does _ w [] _ w)
      simp only [if_neg hhead, ite_self, List.nil_append, List.flatMap_singleton]
      exact Does.pure
    · rw [List.mem_singleton] at hi
      rw [List.length_nil]
      omega
  | cons x slots ih =>
    intro q fuel lName hj hq hfuel hmem hslots
    obtain ⟨fuel, rfl⟩ := Nat.exists_eq_succ_of_ne_zero (show fuel ≠ 0 by omega)
    obtain ⟨q, rfl⟩ := Nat.exists_eq_succ_of_ne_zero (show q ≠ 0 by omega)
    rw [List.length_cons] at hj hfuel
    have hx := hslots 0 q x rfl rfl
    have hlook := h.look (show j ≤ q by omega) (show q < perClust by omega)
    rw [hx] at hlook
    obtain ⟨hmask, hmem⟩ := List.forall_mem_cons.mp hmem
    rw [List.cons_append, List.flatMap_cons, slot2str_append, ← List.append_assoc]
    by_cases hzero : (slot2str x).2 = true
    · refine ⟨[q], ?_, fun i hi => ?_⟩
      · rw [collectName, show (32 * ((q.succ : Nat) : Int) - 32) = 32 * (q : Int) by omega]
        refine hlook.bind (?_ : Does _ w [] _ w)
        simp only [if_pos hzero, List.append_nil]
        exact Does.pure
      · rw [List.mem_singleton] at hi
        rw [List.length_cons]
        omega
    · obtain ⟨js, hdoes, hjs⟩ := ih q fuel (lName ++ (slot2str x).1) (by omega) (by omega)
        (by omega) hmem fun k i y hy hi => hslots (k + 1) i y hy (by omega)
      refine ⟨q :: js, ?_, fun i hi => ?_⟩
      · rw [collectName, show (32 * ((q.succ : Nat) : Int) - 32) = 32 * (q : Int) by omega]
        refine hlook.bind (?_ : Does _ w (looks b js) _ w)
        simp only [if_neg hzero, if_pos hmask]
        exact hdoes
      · rw [List.length_cons]
        rcases List.mem_cons.mp hi with rfl | hi
        · omega
        · have := hjs i hi
          omega

theorem TailSlots.mem {tail : List Bytes} (h : TailSlots tail) (hlen : tail.length < 20) :
    ∀ x ∈ tail, first x &&& lastLongEntryMask = 0 ∧ attr x &&& attrVolume ≠ 0 := by
  induction tail with
  | nil =>
    intro x hx
    cases hx
  | cons y tail ih =>
    obtain ⟨hnum, hattr, -, htail⟩ := h
    rw [List.length_cons] at hlen
    refine List.forall_mem_cons.mpr ⟨⟨(slotNum_tail hnum (by omega)).2, ?_⟩, ih htail (by omega)⟩
    rw [hattr]
    exact vfat_volume

/-- `get_vfatname` of a set inside the buffer. -/
theorem getVfatname_set (h : Holds b d disk base perClust s j w) {head : Bytes} {tail : List Bytes}
    {fuel curclust : Nat} (hwf : (Item.longFile head tail dent).Wf)
    (hin : j + tail.length + 2 ≤ perClust) (hfuel : 20 ≤ fuel)
    (hslots : ∀ k x, (head :: tail ++ [dent])[k]? = some x →
      slotAt disk base (16 * s + (j + k)) = x) :
    ∃ js, Does (getVfatname dev fuel curclust b (32 * j)) w (looks b js)
        (some (finishName (longChars head tail))) (w.stored b j dent) ∧
      ∀ i, i ∈ js ↔ j ≤ i ∧ i ≤ j + tail.length + 1 := by
  obtain ⟨hnum, hlen, -, htail, -⟩ := hwf
  obtain ⟨hnum, hmask⟩ := slotNum_head hnum (by omega)
  have hmem := htail.mem hlen
  have hsize := h.size
  have hhead : slotAt disk base (16 * s + j) = head := hslots 0 head rfl
  have hlast : slotAt disk base (16 * s + (j + tail.length + 1)) = dent := by
    rw [Nat.add_assoc j]
    exact hslots (tail.length + 1) dent (by simp)
  have hlookHead := h.look (Nat.le_refl j) (show j < perClust by omega)
  rw [hhead] at hlookHead
  have hlookLast := h.look (show j ≤ j + tail.length + 1 by omega)
    (show j + tail.length + 1 < perClust by omega)
  rw [hlast] at hlookLast
  have hpass : Does (passSlots b d.bytesPerClust (tail.length + 1) (32 * j)) w
      (looks b (j :: List.range' (j + 1) tail.length))
      (some (32 * (j + tail.length + 1 : Nat))) w := by
    rw [passSlots, if_pos (by omega)]
    refine hlookHead.bind ?_
    rw [if_neg (by rw [hnum]; omega)]
    have hrest := pass_tail h (i := j + 1) (by omega) (by omega) hlen htail fun k x hx => by
      rw [Nat.add_assoc j, Nat.add_comm 1]
      refine hslots (k + 1) x ?_
      rw [List.cons_append, List.getElem?_cons_succ]
      rw [List.getElem?_append_left (List.getElem?_eq_some_iff.mp hx).1, hx]
    rw [show (32 * (j : Int) + 32) = 32 * ((j + 1 : Nat) : Int) by omega,
      show j + tail.length + 1 = j + 1 + tail.length by omega]
    exact hrest
  obtain ⟨js, hcollect, hjs⟩ := collect_back h hmask tail.reverse (j + tail.length + 1) fuel []
    (by rw [List.length_reverse]; omega) (by omega) (by rw [List.length_reverse]; omega)
    (fun x hx => (hmem x (List.mem_reverse.mp hx)).1)
    (fun k i x hx hi => by
      have hk := (List.getElem?_eq_some_iff.mp hx).1
      rw [List.length_append, List.length_reverse, List.length_singleton] at hk
      rw [← List.reverse_cons,
        List.getElem?_reverse' (j := i - j) (by rw [List.length_cons]; omega)] at hx
      have hslot := hslots (i - j) x (by
        rw [List.getElem?_append_left (List.getElem?_eq_some_iff.mp hx).1, hx])
      rwa [show j + (i - j) = i by omega] at hslot)
  rw [List.nil_append, ← List.reverse_cons] at hcollect
  have hlog : looks b ([j] ++
      (j :: List.range' (j + 1) tail.length ++ (js ++ [j + tail.length + 1]))) =
      looks b [j] ++ (looks b (j :: List.range' (j + 1) tail.length) ++
        (looks b js ++ (looks b [j + tail.length + 1] ++ []))) := by
    rw [looks_append, looks_append, looks_append, List.append_nil]
  refine ⟨[j] ++ (j :: List.range' (j + 1) tail.length ++ (js ++ [j + tail.length + 1])), ?_,
    fun i => ?_⟩
  · rw [hlog, getVfatname]
    refine Does.bind_nil Does.mydata ?_
    rw [h.mydata]
    refine hlookHead.bind ?_
    rw [hnum]
    refine hpass.bind ?_
    simp only
    rw [if_neg (by omega)]
    refine hcollect.bind (hlookLast.bind ?_)
    exact Does.bind_nil does_store Does.pure
  · simp only [List.mem_append, List.mem_cons, List.not_mem_nil, or_false, List.mem_range'_1]
    constructor
    · rintro (rfl | (rfl | hi) | hi | rfl)
      · omega
      · omega
      · omega
      · have hback := hjs i hi
        rw [List.length_reverse] at hback
        omega
      · omega
    · omega

/-- `get_vfatname` of something whose next slot does not go on. -/
theorem getVfatname_mistaken (h : Holds b d disk base perClust s j w) {slot : Bytes}
    {fuel curclust : Nat}
    (hslot : slotAt disk base (16 * s + j) = slot) (hin : j + 2 ≤ perClust)
    (hnum : 2 ≤ (slotNum slot).toNat)
    (hnext : (slotNum (slotAt disk base (16 * s + j + 1))).toNat ≠ (slotNum slot).toNat - 1) :
    Does (getVfatname dev fuel curclust b (32 * j)) w (looks b [j, j, j + 1]) none w := by
  have hsize := h.size
  obtain ⟨c, hc⟩ : ∃ c, (slotNum slot).toNat = c + 2 := ⟨_, (Nat.sub_add_cancel hnum).symm⟩
  have hlook := h.look (Nat.le_refl j) (show j < perClust by omega)
  have hlookNext := h.look (show j ≤ j + 1 by omega) (show j + 1 < perClust by omega)
  rw [hslot] at hlook
  have hlog : looks b [j, j, j + 1] =
      looks b [j] ++ ((looks b [j] ++ (looks b [j + 1] ++ [])) ++ []) := rfl
  rw [hlog, getVfatname]
  refine Does.bind_nil Does.mydata ?_
  rw [h.mydata]
  refine hlook.bind ?_
  have hpass : Does (passSlots b d.bytesPerClust (c + 2) (32 * j)) w
      (looks b [j] ++ (looks b [j + 1] ++ [])) none w := by
    rw [passSlots, if_pos (by omega)]
    refine hlook.bind ?_
    rw [if_neg (by rw [hc]; omega), passSlots, if_pos (by omega),
      show (32 * (j : Int) + 32) = 32 * ((j + 1 : Nat) : Int) by omega]
    refine hlookNext.bind ?_
    rw [← Nat.add_assoc, if_pos (by rw [hc] at hnext; omega)]
    exact Does.pure
  rw [hc]
  exact hpass.bind Does.pure

/-- `get_vfatname` of something that looks like a set of one slot: what is behind it is copied. -/
theorem getVfatname_label (h : Holds b d disk base perClust s j w) {slot : Bytes}
    {fuel curclust : Nat} (hslot : slotAt disk base (16 * s + j) = slot) (hin : j + 2 ≤ perClust)
    (hnum : (slotNum slot).toNat = 1) (hmask : first slot &&& lastLongEntryMask ≠ 0)
    (hnext : slotAt disk base (16 * s + j + 1) = dent) :
    Does (getVfatname dev (fuel + 1) curclust b (32 * j)) w (looks b [j, j, j, j + 1])
      (some (finishName (longChars slot []))) (w.stored b j dent) := by
  have hsize := h.size
  have hlook := h.look (Nat.le_refl j) (show j < perClust by omega)
  have hlookNext := h.look (show j ≤ j + 1 by omega) (show j + 1 < perClust by omega)
  rw [hslot] at hlook
  rw [← Nat.add_assoc, hnext] at hlookNext
  have hlog : looks b [j, j, j, j + 1] =
      looks b [j] ++ ((looks b [j] ++ []) ++ (looks b [j] ++ (looks b [j + 1] ++ []))) := rfl
  have hpass : Does (passSlots b d.bytesPerClust 1 (32 * j)) w (looks b [j] ++ [])
      (some (32 * ((j + 1 : Nat) : Int))) w := by
    rw [passSlots, if_pos (by omega)]
    refine hlook.bind ?_
    rw [if_neg (by rw [hnum]; omega), passSlots,
      show (32 * (j : Int) + 32) = 32 * ((j + 1 : Nat) : Int) by omega]
    exact Does.pure
  have hcollect : Does (collectName b (fuel + 1) (32 * ((j + 1 : Nat) : Int)) []) w (looks b [j])
      (longChars slot []) w := by
    rw [collectName, show (32 * ((j + 1 : Nat) : Int) - 32) = 32 * (j : Int) by omega]
    refine hlook.bind (?_ : Does _ w [] _ w)
    simp only [if_neg hmask, ite_self, List.nil_append]
    have hchars : longChars slot [] = (slot2str slot).1 := by
      rw [longChars, List.reverse_singleton, List.flatMap_singleton, slot2str]
    rw [hchars]
    exact Does.pure
  rw [hlog, getVfatname]
  refine Does.bind_nil Does.mydata ?_
  rw [h.mydata]
  refine hlook.bind ?_
  rw [hnum]
  refine hpass.bind ?_
  simp only
  rw [if_neg (by omega)]
  refine hcollect.bind (hlookNext.bind ?_)
  exact Does.bind_nil does_store Does.pure

/-! ## One entry of the root directory -/

variable {fuel : Nat} {dols : Ls} {slot : Bytes}

/-- An entry without the volume attribute. -/
theorem step_plain (h : Holds .doFatRead d disk base perClust s j w) (hj : j < perClust)
    (hslot : slotAt disk base (16 * s + j) = slot) (hattr : attr slot &&& attrVolume = 0)
    (hfirst : first slot ≠ 0) (hname : name ≠ []) (hdols : dols ≠ .root) :
    Does (rootEntryStep dev fuel name dols (32 * j)) w (looks .doFatRead [j, j])
      (if name = getName slot then .done (some slot) else .next) w := by
  have hlook := h.look (Nat.le_refl j) hj
  rw [hslot] at hlook
  have hlog : looks .doFatRead [j, j] = looks .doFatRead [j] ++ (looks .doFatRead [j] ++ []) := rfl
  rw [hlog, rootEntryStep]
  refine hlook.bind ?_
  simp only [hattr, ne_eq, not_true_eq_false, if_false, hfirst, and_false]
  refine Does.bind_nil Does.pure ?_
  simp only [if_neg hdols]
  refine hlook.bind ?_
  by_cases heq : name = getName slot
  · simp only [heq, not_true_eq_false, false_and, if_false, if_true]
    exact Does.pure
  · simp only [heq, hname, not_false_eq_true, and_self, if_true, if_false]
    exact Does.pure

/-- The end marker. -/
theorem step_marker (h : Holds .doFatRead d disk base perClust s j w) (hj : j < perClust)
    (hmarker : IsMarker (slotAt disk base (16 * s + j))) :
    Does (rootEntryStep dev fuel name dols (32 * j)) w (looks .doFatRead [j]) (.done none) w := by
  obtain ⟨hfirst, hattr⟩ := hmarker
  have hlog : looks .doFatRead [j] = looks .doFatRead [j] ++ ([] ++ []) := rfl
  rw [hlog, rootEntryStep]
  refine (h.look (Nat.le_refl j) hj).bind ?_
  simp only [hattr, ne_eq, not_true_eq_false, if_false]
  refine Does.bind_nil Does.pure ?_
  simp only [hfirst, and_self, if_true]
  exact Does.pure

/-- An entry with the volume attribute that does not look like the start of a set. -/
theorem step_skip (h : Holds .doFatRead d disk base perClust s j w) (hj : j < perClust)
    (hslot : slotAt disk base (16 * s + j) = slot) (hattr : attr slot &&& attrVolume ≠ 0)
    (hmask : first slot &&& lastLongEntryMask = 0) :
    Does (rootEntryStep dev fuel name dols (32 * j)) w (looks .doFatRead [j]) .next w := by
  have hlook := h.look (Nat.le_refl j) hj
  rw [hslot] at hlook
  have hlog : looks .doFatRead [j] = looks .doFatRead [j] ++ ([] ++ []) := rfl
  rw [hlog, rootEntryStep]
  refine hlook.bind ?_
  simp only [hattr, ne_eq, not_false_eq_true, if_true, longName, hmask, not_true_eq_false,
    and_false, if_false]
  exact Does.bind_nil Does.pure Does.pure

/-- The rest of the step behind a long name. -/
theorem step_named {w₁ : World} {dent : Bytes} {js : List Nat} {lName : Option Bytes}
    (h : Holds .doFatRead d disk base perClust s j w) (hj : j < perClust)
    (hslot : slotAt disk base (16 * s + j) = slot) (hattr : attr slot &&& attrVolume ≠ 0)
    (hmask : first slot &&& lastLongEntryMask ≠ 0) (hdols : dols ≠ .root)
    (hvfat : Does (getVfatname dev fuel 0 .doFatRead (32 * j)) w (looks .doFatRead js) lName w₁)
    (hlook : Does (FatM.look .doFatRead (32 * j)) w₁ (looks .doFatRead [j]) dent w₁) :
    Does (rootEntryStep dev fuel name dols (32 * j)) w (looks .doFatRead ([j] ++ (js ++ [j])))
      (if name = getName dent ∨ name = lName.getD [] then .done (some dent) else .next) w₁ := by
  have hfirst := h.look (Nat.le_refl j) hj
  rw [hslot] at hfirst
  have hlog : looks .doFatRead ([j] ++ (js ++ [j])) =
      looks .doFatRead [j] ++ ((looks .doFatRead js ++ []) ++ (looks .doFatRead [j] ++ [])) := by
    rw [looks_append, looks_append, List.append_nil, List.append_nil]
  have hlong : Does (longName dev fuel 0 .doFatRead (32 * j) slot) w (looks .doFatRead js ++ [])
      (some (lName.getD [])) w₁ := by
    rw [longName, if_pos ⟨volume_vfat _ hattr, hmask⟩]
    refine hvfat.bind ?_
    exact Does.pure
  rw [hlog, rootEntryStep]
  refine hfirst.bind ?_
  simp only [hattr, ne_eq, not_false_eq_true, if_true]
  refine hlong.bind ?_
  simp only [false_and, if_false, hdols]
  refine hlook.bind ?_
  by_cases hfound : name = getName dent ∨ name = lName.getD []
  · rw [if_pos hfound, if_neg (by tauto)]
    exact Does.pure
  · rw [if_neg hfound, if_pos (by tauto)]
    exact Does.pure

end Buffer

end UBoot.Fs.Fat
