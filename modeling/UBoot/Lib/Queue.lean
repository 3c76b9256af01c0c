import Mathlib

/-!
# Queues of a channel in order

A sender that repeats one message, and then another one, leaves a queue that has turned from the
old message to the new one.
-/

namespace UBoot.Lib

variable {α : Type} {x y p : α} {l : List α}

/-- First copies of `x`, then copies of `y`. -/
inductive Turned (x y : α) : List α → Prop
  | new {l : List α} (same : ∀ p ∈ l, p = y) : Turned x y l
  | old {l : List α} (rest : Turned x y l) : Turned x y (x :: l)

/-- One more copy. -/
theorem forall_mem_append (h : ∀ p ∈ l, p = x) : ∀ p ∈ l ++ [x], p = x := by
  intro p hp
  rcases List.mem_append.mp hp with hold | hnew
  · exact h p hold
  · exact List.mem_singleton.mp hnew

namespace Turned

/-- No copy of the new message is sent yet. -/
theorem of_old (h : ∀ p ∈ l, p = x) : Turned x y l := by
  induction l with
  | nil => exact .new nofun
  | cons p l ih =>
    rw [h p List.mem_cons_self]
    exact .old (ih fun q hq => h q (List.mem_cons_of_mem p hq))

/-- The sender sends the new message. -/
theorem append (h : Turned x y l) : Turned x y (l ++ [y]) := by
  induction h with
  | new same => exact .new (forall_mem_append same)
  | old rest ih => exact .old ih

/-- The receiver takes an old message, or nothing but new ones is left. -/
theorem head (h : Turned x y (p :: l)) : (p = x ∧ Turned x y l) ∨ ∀ q ∈ p :: l, q = y := by
  cases h with
  | new same => exact Or.inr same
  | old rest => exact Or.inl ⟨rfl, rest⟩

theorem tail (h : Turned x y (p :: l)) : Turned x y l := by
  rcases h.head with ⟨-, hrest⟩ | hnew
  · exact hrest
  · exact .new fun q hq => hnew q (List.mem_cons_of_mem p hq)

theorem mem (h : Turned x y l) : ∀ p ∈ l, p = x ∨ p = y := by
  induction h with
  | new same =>
    intro p hp
    exact Or.inr (same p hp)
  | old rest ih =>
    intro p hp
    rcases List.mem_cons.mp hp with hhead | hrest
    · exact Or.inl hhead
    · exact ih p hrest

end Turned

/-- The queue behind its head was delivered, where the channel may keep a copy of it. -/
def keep (dup : Bool) (p : α) (l : List α) : List α := if dup then p :: l else l

theorem mem_of_mem_keep {dup : Bool} {q : α} (h : q ∈ keep dup p l) : q ∈ p :: l := by
  unfold keep at h
  split at h
  · exact h
  · exact List.mem_cons_of_mem p h

theorem Turned.keep {dup : Bool} (h : Turned x y (p :: l)) : Turned x y (keep dup p l) := by
  unfold Lib.keep
  split
  · exact h
  · exact h.tail

end UBoot.Lib
