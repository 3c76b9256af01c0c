import Mathlib

/-!
# Results with a log

A computation that keeps a log of what it touches next to its result.  `Logged.All` is a condition
on the whole log; its rules take it apart along the steps of the computation.
-/

namespace UBoot.Lib

/-- A result, and what has been touched on the way to it. -/
structure Logged (ι α : Type) where
  log : List ι
  value : α

instance {ι : Type} : Monad (Logged ι) where
  pure a := ⟨[], a⟩
  bind x f := ⟨x.log ++ (f x.value).log, (f x.value).value⟩

/-- What is touched by one step. -/
def touch {ι : Type} (is : List ι) : Logged ι Unit := ⟨is, ()⟩

/-- Everything that is touched meets a condition. -/
def Logged.All {ι α : Type} (P : ι → Prop) (x : Logged ι α) : Prop := ∀ i ∈ x.log, P i

section Rules

variable {ι α β : Type} {P : ι → Prop}

@[simp] theorem value_pure (a : α) : (pure a : Logged ι α).value = a := rfl

@[simp] theorem value_bind (x : Logged ι α) (f : α → Logged ι β) :
    (x >>= f).value = (f x.value).value := rfl

@[simp] theorem value_touch (is : List ι) : (touch is).value = () := rfl

/-! A branch is taken for the value of a condition, and its rule keeps the condition as it is. -/

theorem value_touch_ite {A : Prop} [Decidable A] (is : List ι) (x y : Logged ι α) :
    (touch is >>= fun _ => if A then x else y).value = if A then x.value else y.value := by
  rw [value_bind]
  exact apply_ite Logged.value A x y

theorem value_bind_ite (x : Logged ι β) (b : β → Logged ι Bool) (y z : β → Logged ι α) :
    (x >>= fun p => b p >>= fun taken => if taken then y p else z p).value =
      if (b x.value).value then (y x.value).value else (z x.value).value := by
  rw [value_bind, value_bind]
  exact apply_ite Logged.value _ _ _

theorem value_bind_checks {A : β → Prop} [DecidablePred A] (x : Logged ι β) (is : List ι) (u : α)
    (b : β → Logged ι Bool) (y z : β → Logged ι α) :
    (x >>= fun p => touch is >>= fun _ =>
      if A p then pure u else b p >>= fun set => if set then y p else z p).value =
      if A x.value then u
      else if (b x.value).value then (y x.value).value else (z x.value).value := by
  rw [value_bind, value_touch_ite, value_pure, value_bind, ← apply_ite Logged.value]

@[simp] theorem all_pure (a : α) : (pure a : Logged ι α).All P := by
  intro i hi
  cases hi

@[simp] theorem all_bind (x : Logged ι α) (f : α → Logged ι β) :
    (x >>= f).All P ↔ x.All P ∧ (f x.value).All P := List.forall_mem_append

@[simp] theorem all_touch (is : List ι) : (touch is).All P ↔ ∀ i ∈ is, P i := Iff.rfl

/-- A stretch of places that are touched one behind the other. -/
theorem forall_mem_stretch {f : Nat → ι} {a n : Nat} :
    (∀ i ∈ (List.range' a n).map f, P i) ↔ ∀ k < n, P (f (a + k)) := by
  rw [List.forall_mem_map]
  constructor
  · intro h k hk
    exact h _ (List.mem_range'_1.mpr ⟨by omega, by omega⟩)
  · intro h j hj
    obtain ⟨hlow, hhigh⟩ := List.mem_range'_1.mp hj
    have hk := h (j - a) (by omega)
    rwa [Nat.add_sub_cancel' hlow] at hk

/-- Places up to a bound. -/
theorem stretch_lt_iff {a n bound : Nat} :
    (∀ k < n, a + k < bound) ↔ n = 0 ∨ a + n ≤ bound := by
  constructor
  · intro hall
    by_cases hn : n = 0
    · exact .inl hn
    · have hlast := hall (n - 1) (by omega)
      exact .inr (by omega)
  · intro hle k hk
    omega

end Rules

end UBoot.Lib
