import Mathlib

/-!
# A ring that keeps the last entries

The slots of a ring are filled one after the other, from the first again after the last.  `Keeps`
says where an entry is found, counted from the last one.
-/

namespace UBoot.Lib

variable {α : Type} {cap : Nat} {slots : Nat → α} {entries : List α}

/-- The slots of the ring keep the last entries, the last one first in the list. -/
def Keeps (cap : Nat) (slots : Nat → α) (entries : List α) : Prop :=
  ∀ k < cap, ∀ a, entries[k]? = some a → slots ((entries.length - (k + 1)) % cap) = a

theorem keeps_nil : Keeps cap slots [] := by
  intro k _ a ha
  cases ha

/-- A new entry goes to the slot behind the last one. -/
theorem Keeps.push (h : Keeps cap slots entries) (a : α) :
    Keeps cap (Function.update slots (entries.length % cap) a) (a :: entries) := by
  intro k hk b hb
  cases k with
  | zero =>
    obtain rfl : a = b := Option.some.inj hb
    rw [List.length_cons, Nat.add_sub_cancel, Function.update_self]
  | succ k =>
    have hlt : k < entries.length := by
      rw [List.getElem?_cons_succ] at hb
      exact (List.getElem?_eq_some_iff.mp hb).1
    have hslot : entries.length + 1 - (k + 1 + 1) = entries.length - (k + 1) := by omega
    have hother : (entries.length - (k + 1)) % cap ≠ entries.length % cap := by
      intro heq
      have hdvd : cap ∣ entries.length - (entries.length - (k + 1)) :=
        (Nat.modEq_iff_dvd' (Nat.sub_le _ _)).mp heq
      have := Nat.le_of_dvd (by omega) hdvd
      omega
    rw [List.length_cons, hslot, Function.update_of_ne hother]
    exact h k (by omega) b hb

end UBoot.Lib
