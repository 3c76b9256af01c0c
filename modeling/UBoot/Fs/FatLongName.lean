import Mathlib.Data.List.TakeWhile
import UBoot.Fs.FatRounds

/-!
# The loops of `get_vfatname`

`get_vfatname` passes the slots of a set up to the end of the buffer.  If the end of the set is not
in front of that, it looks for the first slot of the next cluster with a number below two
(`seekSlot_iff`), takes everything from there back to the start of that cluster into the name, and
goes on with the last but one entry of the buffer, from where it goes back to a slot with bit 6 or
to a zero (`collectName_iff`).
-/

namespace UBoot.Fs.Fat

open UBoot.Lib

/-- `get_vfatname` up to the end of the loops: the bytes of `l_name` in front of its zero. -/
def collectVfatname (dev : BlockDev) (fuel curclust : Nat) (b : Buf) (retdent : Int) :
    FatM (Option Bytes) := do
  let d ← FatM.mydata
  let nextclust := d.bytesPerClust
  let slot ← FatM.look b retdent
  match ← passSlots b nextclust (slotNum slot).toNat retdent with
  | none => return none
  | some slotptr =>
    if nextclust ≤ slotptr then
      let curclust ← FatM.getFatent dev curclust
      if checkClust curclust d.fatsize then return none
      let d ← FatM.mydata
      let data := getCluster dev d curclust nextclust
      if !(← FatM.readInto .getVfatname (startSect d curclust) nextclust data) then return none
      let slotptr2 ← seekSlot fuel 0
      let lName ← collectBack [] (slotptr2 + 1)
      let lName ← collectName b fuel (slotptr - 32) lName
      let realdent ← FatM.look .getVfatname (32 * (slotptr2 + 1))
      FatM.store b retdent realdent
      return some lName
    else
      let lName ← collectName b fuel slotptr []
      let realdent ← FatM.look b slotptr
      FatM.store b retdent realdent
      return some lName

/-- The entry or slot with a number in a buffer. -/
def World.entry (w : World) (b : Buf) (i : Int) : Bytes :=
  (List.range 32).map fun (k : Nat) => w.bufs b (32 * i + k)

/-- What `slot2str` adds to the name. -/
def added (slot : Bytes) : Bytes := (slotChars slot).takeWhile (· != 0)

/-- The slots from one back to the first. -/
def addedBack (slot : Nat → Bytes) : Nat → Bytes
  | 0 => []
  | k + 1 => added (slot k) ++ addedBack slot k

/-- The slots from one back to a zero or to one with bit 6. -/
inductive Gathers (slot : Int → Bytes) : Int → Bytes → Prop
  | stop {i : Int} (last : 0 ∈ slotChars (slot i) ∨ first (slot i) &&& lastLongEntryMask ≠ 0) :
      Gathers slot i (added (slot i))
  | more {i : Int} {bytes : Bytes} (full : 0 ∉ slotChars (slot i))
      (inner : first (slot i) &&& lastLongEntryMask = 0) (rest : Gathers slot (i - 1) bytes) :
      Gathers slot i (added (slot i) ++ bytes)

section Loops

variable {dev : BlockDev} {w u : World} {b : Buf} {fuel : Nat} {α β γ : Type}

/-! ## The end of the name -/

/-- A computation with something done to its result. -/
def Posts (f : α → β) (x : FatM α) (y : FatM β) : Prop :=
  ∀ w, (y w).2 = (x w).2.map fun p => (f p.1, p.2)

theorem posts_pure (f : α → β) (a : α) : Posts f (pure a) (pure (f a)) := fun _ => rfl

theorem Posts.bind {f : α → β} {x : FatM γ} {g : γ → FatM α} {h : γ → FatM β}
    (hg : ∀ a, Posts f (g a) (h a)) : Posts f (x >>= g) (x >>= h) := by
  intro w
  rw [FatM.bind_snd, FatM.bind_snd]
  cases (x w).2 with
  | none => rfl
  | some p => exact hg p.1 p.2

theorem posts_getVfatname (dev : BlockDev) (fuel c : Nat) (b : Buf) (pos : Int) :
    Posts (Option.map finishName) (collectVfatname dev fuel c b pos)
      (getVfatname dev fuel c b pos) := by
  rw [collectVfatname, getVfatname]
  refine Posts.bind fun d => Posts.bind fun slot => Posts.bind fun slotptr => ?_
  cases slotptr with
  | none => exact posts_pure _ none
  | some slotptr =>
    dsimp only
    by_cases hend : (d.bytesPerClust : Int) ≤ slotptr
    · rw [if_pos hend, if_pos hend]
      refine Posts.bind fun next => ?_
      by_cases hcheck : checkClust next d.fatsize = true
      · rw [if_pos hcheck, if_pos hcheck]
        exact posts_pure _ none
      · rw [if_neg hcheck, if_neg hcheck]
        refine Posts.bind fun e => Posts.bind fun ok => ?_
        cases ok with
        | false => exact posts_pure _ none
        | true =>
          refine Posts.bind fun slotptr2 => Posts.bind fun lName => Posts.bind fun lName => ?_
          refine Posts.bind fun realdent => Posts.bind fun _ => ?_
          exact posts_pure _ (some lName)
    · rw [if_neg hend, if_neg hend]
      refine Posts.bind fun lName => Posts.bind fun realdent => Posts.bind fun _ => ?_
      exact posts_pure _ (some lName)

/-! ## The loops -/

theorem look_entry (b : Buf) (i : Int) (w : World) :
    (FatM.look b (32 * i) w).2 = some (w.entry b i, w) := rfl

theorem added_of_full {slot : Bytes} (h : 0 ∉ slotChars slot) : added slot = slotChars slot := by
  refine List.takeWhile_eq_self_iff.mpr fun c hc => ?_
  rw [bne_iff_ne]
  rintro rfl
  exact h hc

theorem slot2str_snd {slot : Bytes} : (slot2str slot).2 = true ↔ 0 ∈ slotChars slot := by
  rw [slot2str, List.any_eq_true]
  constructor
  · rintro ⟨c, hc, hzero⟩
    rwa [beq_iff_eq.mp hzero] at hc
  · intro h
    exact ⟨0, h, rfl⟩

/-- The slots of a set are passed up to its end, or to the end of the buffer. -/
theorem passSlots_set (n : Nat) (counter : Nat) : ∀ i : Nat, i ≤ n →
    (∀ j, j < counter → i + j < n →
      (slotNum (w.entry b ((i + j : Nat) : Int))).toNat = counter - j) →
    (passSlots b (32 * n) counter (32 * (i : Int)) w).2 =
      some (some (32 * ((min (i + counter) n : Nat) : Int)), w) := by
  induction counter with
  | zero =>
    intro i hi _
    rw [Nat.add_zero, Nat.min_eq_left hi]
    rfl
  | succ counter ih =>
    intro i hi hslots
    rw [passSlots]
    by_cases hin : 32 * (i : Int) < ((32 * n : Nat) : Int)
    · have hfirst := hslots 0 (Nat.succ_pos counter) (by omega)
      rw [Nat.add_zero, Nat.sub_zero] at hfirst
      rw [if_pos hin, FatM.bind_snd, look_entry, Option.bind_some]
      dsimp only
      rw [if_neg (not_not_intro hfirst)]
      have hrest := ih (i + 1) (by omega) fun j hj hlt => by
        have hslot := hslots (j + 1) (by omega) (by omega)
        rw [show i + 1 + j = i + (j + 1) by omega, hslot]
        omega
      rw [show 32 * (i : Int) + 32 = 32 * ((i + 1 : Nat) : Int) by omega, hrest,
        show i + 1 + counter = i + (counter + 1) by omega]
    · rw [if_neg hin, show min (i + (counter + 1)) n = i by omega]
      rfl

/-- The loop over the next cluster stops at the first number below two. -/
theorem seekSlot_iff {i k : Nat} : (∃ fuel, (seekSlot fuel i w).2 = some (k, u)) ↔
    u = w ∧ i ≤ k ∧ (∀ j, i ≤ j → j < k → 1 < first (w.entry .getVfatname j)) ∧
      ¬ 1 < first (w.entry .getVfatname k) := by
  constructor
  · rintro ⟨fuel, h⟩
    induction fuel generalizing i with
    | zero => cases h
    | succ fuel ih =>
      rw [seekSlot, FatM.bind_snd, look_entry, Option.bind_some] at h
      dsimp only at h
      by_cases hid : 1 < first (w.entry .getVfatname i)
      · rw [if_pos hid] at h
        obtain ⟨hu, hle, hbefore, hlast⟩ := ih h
        refine ⟨hu, by omega, fun j hj hlt => ?_, hlast⟩
        rcases Nat.eq_or_lt_of_le hj with rfl | hgt
        · exact hid
        · exact hbefore j hgt hlt
      · rw [if_neg hid] at h
        cases h
        exact ⟨rfl, Nat.le_refl _, fun j hj hlt => absurd hlt (Nat.not_lt_of_le hj), hid⟩
  · rintro ⟨rfl, hle, hbefore, hlast⟩
    obtain ⟨n, rfl⟩ := Nat.exists_eq_add_of_le hle
    refine ⟨n + 1, ?_⟩
    clear hle
    induction n generalizing i with
    | zero =>
      rw [Nat.add_zero] at hlast ⊢
      rw [seekSlot, FatM.bind_snd, look_entry, Option.bind_some]
      dsimp only
      rw [if_neg hlast]
      rfl
    | succ n ih =>
      rw [seekSlot, FatM.bind_snd, look_entry, Option.bind_some]
      dsimp only
      rw [if_pos (hbefore i (Nat.le_refl i) (by omega))]
      have hshift : i + (n + 1) = i + 1 + n := by omega
      rw [hshift] at hbefore hlast ⊢
      exact ih (fun j hj hlt => hbefore j (by omega) hlt) hlast

theorem seekSlot_more {k i fuel' : Nat} (h : (seekSlot fuel i w).2 = some (k, u))
    (hle : fuel ≤ fuel') : (seekSlot fuel' i w).2 = some (k, u) := by
  induction fuel generalizing fuel' i with
  | zero => cases h
  | succ fuel ih =>
    obtain ⟨n, rfl⟩ : ∃ n, fuel' = n + 1 := ⟨fuel' - 1, by omega⟩
    rw [seekSlot, FatM.bind_snd, look_entry, Option.bind_some] at h ⊢
    dsimp only at h ⊢
    by_cases hid : 1 < first (w.entry .getVfatname i)
    · rw [if_pos hid] at h ⊢
      exact ih h (by omega)
    · rw [if_neg hid] at h ⊢
      exact h

theorem collectBack_snd (lName : Bytes) (k : Nat) : (collectBack lName k w).2 =
    some (lName ++ addedBack (fun i => w.entry .getVfatname i) k, w) := by
  induction k generalizing lName with
  | zero =>
    rw [addedBack, List.append_nil]
    rfl
  | succ k ih =>
    rw [collectBack, FatM.bind_snd, look_entry, Option.bind_some]
    dsimp only
    rw [ih, addedBack, List.append_assoc]
    rfl

/-- The last loop gathers the slots back to a zero or to bit 6. -/
theorem collectName_iff {i : Int} {lName lName' : Bytes} :
    (∃ fuel, (collectName b fuel (32 * (i + 1)) lName w).2 = some (lName', u)) ↔
      u = w ∧ ∃ bytes, Gathers (w.entry b) i bytes ∧ lName' = lName ++ bytes := by
  have hpos : ∀ i : Int, 32 * (i + 1) - 32 = 32 * i := by
    intro i
    omega
  constructor
  · rintro ⟨fuel, h⟩
    induction fuel generalizing i lName with
    | zero => cases h
    | succ fuel ih =>
      rw [collectName, FatM.bind_snd, hpos, look_entry, Option.bind_some] at h
      dsimp only at h
      by_cases hzero : (slot2str (w.entry b i)).2 = true
      · rw [if_pos hzero] at h
        cases h
        exact ⟨rfl, _, .stop (.inl (slot2str_snd.mp hzero)), rfl⟩
      · rw [if_neg hzero] at h
        by_cases hinner : first (w.entry b i) &&& lastLongEntryMask = 0
        · rw [if_pos hinner, show 32 * i = 32 * (i - 1 + 1) by omega] at h
          obtain ⟨hu, bytes, hbytes, hname⟩ := ih h
          refine ⟨hu, _, .more (fun h => hzero (slot2str_snd.mpr h)) hinner hbytes, ?_⟩
          rw [hname, List.append_assoc]
          rfl
        · rw [if_neg hinner] at h
          cases h
          exact ⟨rfl, _, .stop (.inr hinner), rfl⟩
  · rintro ⟨rfl, bytes, hbytes, rfl⟩
    induction hbytes generalizing lName with
    | @stop i last =>
      refine ⟨1, ?_⟩
      rw [collectName, FatM.bind_snd, hpos, look_entry, Option.bind_some]
      dsimp only
      by_cases hzero : (slot2str (u.entry b i)).2 = true
      · rw [if_pos hzero]
        rfl
      · rw [if_neg hzero, if_neg (last.resolve_left fun h => hzero (slot2str_snd.mpr h))]
        rfl
    | @more i bytes full inner rest ih =>
      obtain ⟨fuel, h⟩ := @ih (lName ++ added (u.entry b i))
      refine ⟨fuel + 1, ?_⟩
      rw [collectName, FatM.bind_snd, hpos, look_entry, Option.bind_some]
      dsimp only
      rw [if_neg fun h => full (slot2str_snd.mp h), if_pos inner,
        show 32 * i = 32 * (i - 1 + 1) by omega, ← List.append_assoc]
      exact h

theorem collectName_more {pos : Int} {lName lName' : Bytes} {fuel' : Nat}
    (h : (collectName b fuel pos lName w).2 = some (lName', u)) (hle : fuel ≤ fuel') :
    (collectName b fuel' pos lName w).2 = some (lName', u) := by
  induction fuel generalizing fuel' pos lName with
  | zero => cases h
  | succ fuel ih =>
    obtain ⟨n, rfl⟩ : ∃ n, fuel' = n + 1 := ⟨fuel' - 1, by omega⟩
    rw [collectName, FatM.bind_snd] at h ⊢
    obtain ⟨⟨slot, v⟩, hslot, h⟩ := Option.bind_eq_some_iff.mp h
    rw [hslot, Option.bind_some]
    dsimp only at h ⊢
    by_cases hzero : (slot2str slot).2 = true
    · rw [if_pos hzero] at h ⊢
      exact h
    · rw [if_neg hzero] at h ⊢
      by_cases hinner : first slot &&& lastLongEntryMask = 0
      · rw [if_pos hinner] at h ⊢
        cases hslot
        exact ih h (by omega)
      · rw [if_neg hinner] at h ⊢
        exact h

end Loops

end UBoot.Fs.Fat
