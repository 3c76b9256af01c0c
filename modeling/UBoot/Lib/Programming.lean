import UBoot.Lib.Blocks

/-!
# Programming towards a target

A range `Fits` a target when no bit of it has to be set: then programming the target there leaves
the target.  Writing from the front, the contents is the target up to some address and what it was
before from there on (`upTo`).
-/

namespace UBoot.Lib

/-- No bit of the range has to be set. -/
def Fits (c t : Contents) (pos len : Nat) : Prop := ∀ a, InRange pos len a → c a &&& t a = t a

/-- The target below the address, what was there from it on. -/
def upTo (t c : Contents) (bound : Nat) : Contents := fun a => if a < bound then t a else c a

section Programming

variable {c d t : Contents} {pos len bound : Nat}

theorem readAt_eq_iff : readAt c pos len = readAt d pos len ↔ ∀ a, InRange pos len a → c a = d a := by
  constructor
  · rintro h a ⟨hle, hlt⟩
    have hc : (readAt c pos len)[a - pos]? = some (c (pos + (a - pos))) := getElem?_readAt (by omega)
    have hd : (readAt d pos len)[a - pos]? = some (d (pos + (a - pos))) := getElem?_readAt (by omega)
    rw [h, hd, Nat.add_sub_of_le hle] at hc
    exact (Option.some.inj hc).symm
  · exact readAt_congr

theorem zipWith_readAt (f : UInt8 → UInt8 → UInt8) (c d : Contents) (pos len : Nat) :
    (readAt c pos len).zipWith f (readAt d pos len) = readAt (fun a => f (c a) (d a)) pos len := by
  rw [readAt, readAt, List.zipWith_map, List.zipWith_self, readAt]

theorem getD_readAt {a : Nat} (h : InRange pos len a) : (readAt c pos len).getD (a - pos) 0 = c a := by
  obtain ⟨hle, hlt⟩ := h
  rw [List.getD_eq_getElem?_getD, getElem?_readAt (by omega), Nat.add_sub_of_le hle,
    Option.getD_some]

theorem fits_iff : Fits c t pos len ↔
    (readAt c pos len).zipWith (· &&& ·) (readAt t pos len) = readAt t pos len := by
  rw [zipWith_readAt, readAt_eq_iff]
  rfl

instance (c t : Contents) (pos len : Nat) : Decidable (Fits c t pos len) :=
  decidable_of_iff _ fits_iff.symm

theorem Fits.append {n : Nat} (h : Fits c t pos len) (h' : Fits c t (pos + len) n) :
    Fits c t pos (len + n) := by
  rintro a ⟨hle, hlt⟩
  by_cases ha : a < pos + len
  · exact h a ⟨hle, ha⟩
  · exact h' a ⟨by omega, by omega⟩

theorem Fits.mono {pos' len' : Nat} (h : Fits c t pos len) (hle : pos ≤ pos')
    (hend : pos' + len' ≤ pos + len) : Fits c t pos' len' := by
  rintro a ⟨ha, ha'⟩
  exact h a ⟨by omega, by omega⟩

theorem fits_congr (h : ∀ a, InRange pos len a → c a = d a) : Fits c t pos len ↔ Fits d t pos len :=
  forall₂_congr fun a ha => by rw [h a ha]

theorem storeAt_readAt (c t : Contents) (pos len : Nat) :
    storeAt c pos (readAt t pos len) = fun a => if InRange pos len a then t a else c a := by
  funext a
  rw [storeAt, length_readAt]
  by_cases h : InRange pos len a
  · rw [if_pos h, if_pos h, getD_readAt h]
  · rw [if_neg h, if_neg h]

theorem programAt_readAt (c t : Contents) (pos len : Nat) :
    programAt c pos (readAt t pos len) = fun a => if InRange pos len a then c a &&& t a else c a := by
  funext a
  rw [programAt, length_readAt]
  by_cases h : InRange pos len a
  · rw [if_pos h, if_pos h, getD_readAt h]
  · rw [if_neg h, if_neg h]

theorem programAt_append (c : Contents) (pos : Nat) (xs ys : Bytes) :
    programAt c pos (xs ++ ys) = programAt (programAt c pos xs) (pos + xs.length) ys := by
  funext a
  simp only [programAt, InRange, List.length_append, List.getD_eq_getElem?_getD]
  by_cases hlo : a < pos + xs.length
  · rw [if_neg (by omega : ¬ (pos + xs.length ≤ a ∧ a < pos + xs.length + ys.length))]
    by_cases hpos : pos ≤ a
    · rw [if_pos ⟨hpos, by omega⟩, if_pos ⟨hpos, hlo⟩, List.getElem?_append_left (by omega)]
    · rw [if_neg (by omega), if_neg (by omega)]
  · rw [if_neg (by omega : ¬ (pos ≤ a ∧ a < pos + xs.length))]
    by_cases hend : a < pos + xs.length + ys.length
    · rw [if_pos ⟨by omega, by omega⟩, if_pos ⟨by omega, hend⟩,
        List.getElem?_append_right (by omega), Nat.sub_sub]
    · rw [if_neg (by omega), if_neg (by omega)]

/-! ## From the front -/

theorem upTo_of_le {a : Nat} (h : bound ≤ a) : upTo t c bound a = c a := if_neg (Nat.not_lt.mpr h)

theorem readAt_upTo (h : bound ≤ pos) : readAt (upTo t c bound) pos len = readAt c pos len :=
  readAt_congr fun _ ha => upTo_of_le (Nat.le_trans h ha.1)

theorem fits_upTo : Fits (upTo t c pos) t pos len ↔ Fits c t pos len :=
  fits_congr fun _ ha => upTo_of_le ha.1

/-- The next range is programmed. -/
theorem programAt_upTo (h : Fits c t pos len) :
    programAt (upTo t c pos) pos (readAt t pos len) = upTo t c (pos + len) := by
  rw [programAt_readAt]
  funext a
  by_cases ha : InRange pos len a
  · rw [if_pos ha, upTo_of_le ha.1, h a ha, upTo, if_pos ha.2]
  · rw [if_neg ha, upTo, upTo]
    unfold InRange at ha
    by_cases hlt : a < pos
    · rw [if_pos hlt, if_pos (by omega)]
    · rw [if_neg hlt, if_neg (by omega)]

theorem upTo_eq_self (h : ∀ a, a < bound → c a = t a) : upTo t c bound = c := by
  funext a
  rw [upTo]
  split
  · next ha => exact (h a ha).symm
  · rfl

theorem upTo_eq_target (h : ∀ a, bound ≤ a → c a = t a) : upTo t c bound = t := by
  funext a
  rw [upTo]
  split
  · rfl
  · next ha => exact h a (Nat.not_lt.mp ha)

end Programming

end UBoot.Lib
