import UBoot.Lib.Blocks

/-!
# Moving bytes

`memmove` of `lib_generic/string.c`, over a memory that every address is in.  It walks upwards or
downwards so that no byte is overwritten before it is read (`memmove_eq`).
-/

namespace UBoot.LibGeneric

open UBoot.Lib

/-- `*p = c`. -/
def poke (m : Contents) (p : Nat) (c : UInt8) : Contents := fun a => if a = p then c else m a

/-- `while (count--) *tmp++ = *s++;` -/
def copyUp (m : Contents) (tmp s : Nat) : Nat → Contents
  | 0 => m
  | count + 1 => copyUp (poke m tmp (m s)) (tmp + 1) (s + 1) count

/-- `while (count--) *--tmp = *--s;` -/
def copyDown (m : Contents) (tmp s : Nat) : Nat → Contents
  | 0 => m
  | count + 1 => copyDown (poke m (tmp - 1) (m (s - 1))) (tmp - 1) (s - 1) count

/-- `memmove` -/
def memmove (m : Contents) (dest src count : Nat) : Contents :=
  if dest ≤ src then copyUp m dest src count else copyDown m (dest + count) (src + count) count

variable {m : Contents}

theorem poke_ne {p a : Nat} {c : UInt8} (h : a ≠ p) : poke m p c a = m a := if_neg h

theorem poke_self {p : Nat} {c : UInt8} : poke m p c p = c := if_pos rfl

theorem not_inRange_zero (pos a : Nat) : ¬ InRange pos 0 a := by
  intro h
  exact absurd h.2 (Nat.not_lt_of_le h.1)

theorem copyUp_eq (tmp s count : Nat) (h : tmp ≤ s) (a : Nat) :
    copyUp m tmp s count a = if InRange tmp count a then m (s + (a - tmp)) else m a := by
  induction count generalizing m tmp s with
  | zero => rw [copyUp, if_neg (not_inRange_zero tmp a)]
  | succ count ih =>
    rw [copyUp, ih (tmp + 1) (s + 1) (Nat.succ_le_succ h)]
    by_cases hrest : InRange (tmp + 1) count a
    · obtain ⟨hlow, hhigh⟩ := hrest
      have hsource : s + 1 + (a - (tmp + 1)) = s + (a - tmp) := by omega
      rw [if_pos ⟨hlow, hhigh⟩, if_pos ⟨by omega, by omega⟩, hsource]
      exact poke_ne (by omega)
    · rw [if_neg hrest]
      by_cases hfirst : a = tmp
      · rw [hfirst, poke_self, if_pos ⟨le_rfl, by omega⟩, Nat.sub_self, Nat.add_zero]
      · have hout : ¬ InRange tmp (count + 1) a := by
          rintro ⟨hlow, hhigh⟩
          exact hrest ⟨by omega, by omega⟩
        rw [poke_ne hfirst, if_neg hout]

theorem copyDown_eq (dest src count : Nat) (h : src < dest) (a : Nat) :
    copyDown m (dest + count) (src + count) count a =
      if InRange dest count a then m (src + (a - dest)) else m a := by
  induction count generalizing m with
  | zero => rw [copyDown, if_neg (not_inRange_zero dest a)]
  | succ count ih =>
    rw [copyDown, ← Nat.add_assoc, ← Nat.add_assoc, Nat.add_sub_cancel, Nat.add_sub_cancel, ih]
    by_cases hrest : InRange dest count a
    · obtain ⟨hlow, hhigh⟩ := hrest
      rw [if_pos ⟨hlow, hhigh⟩, if_pos ⟨hlow, by omega⟩]
      exact poke_ne (by omega)
    · rw [if_neg hrest]
      by_cases hlast : a = dest + count
      · rw [hlast, poke_self, if_pos ⟨by omega, by omega⟩, Nat.add_sub_cancel_left]
      · have hout : ¬ InRange dest (count + 1) a := by
          rintro ⟨hlow, hhigh⟩
          exact hrest ⟨hlow, by omega⟩
        rw [poke_ne hlast, if_neg hout]

/-- "Unlike memcpy(), memmove() copes with overlapping areas." -/
theorem memmove_eq (m : Contents) (dest src count a : Nat) :
    memmove m dest src count a = if InRange dest count a then m (src + (a - dest)) else m a := by
  rw [memmove]
  by_cases hle : dest ≤ src
  · rw [if_pos hle, copyUp_eq dest src count hle]
  · rw [if_neg hle, copyDown_eq dest src count (Nat.lt_of_not_le hle)]

theorem memmove_in {dest src count i : Nat} (hi : i < count) :
    memmove m dest src count (dest + i) = m (src + i) := by
  rw [memmove_eq, if_pos ⟨by omega, by omega⟩, Nat.add_sub_cancel_left]

theorem memmove_out {dest src count a : Nat} (h : ¬ InRange dest count a) :
    memmove m dest src count a = m a := by
  rw [memmove_eq, if_neg h]

end UBoot.LibGeneric
