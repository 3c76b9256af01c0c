import Mathlib

/-!
# Two slots and a choice between them

A store that must survive an interrupted write keeps its value twice and overwrites
only the copy that is not in use.  At the start of a run it looks at both copies and
chooses one.  `Slot` names the copies, `Copies` holds something for each of them, and
`Chooses` says what a choice between two possibly damaged copies has to meet: it takes
an intact copy whenever there is one.

`Chooses.set_damaged` and `Chooses.chosen_set_some` say what a write to the slot that is
not in use can do to the choice, whatever the rule that decides between two intact
copies.  `History` is what an observer of the writes knows: the last one that was
completed, and those behind it that were cut off.
-/

namespace UBoot.Lib

/-- The two places. -/
inductive Slot
  | first
  | second
  deriving DecidableEq, Repr

def Slot.other : Slot → Slot
  | .first => .second
  | .second => .first

@[simp] theorem Slot.other_other (s : Slot) : s.other.other = s := by cases s <;> rfl

theorem Slot.eq_or_eq_other (s t : Slot) : t = s ∨ t = s.other := by
  cases s <;> cases t <;> simp [Slot.other]

/-- A value for each slot. -/
structure Copies (α : Type) where
  first : α
  second : α
  deriving DecidableEq, Repr

namespace Copies

variable {α β : Type}

def get (c : Copies α) : Slot → α
  | .first => c.first
  | .second => c.second

def set (c : Copies α) : Slot → α → Copies α
  | .first, x => { c with first := x }
  | .second, x => { c with second := x }

def map (f : α → β) (c : Copies α) : Copies β := ⟨f c.first, f c.second⟩

@[simp] theorem get_set_self (c : Copies α) (s : Slot) (x : α) : (c.set s x).get s = x := by
  cases s <;> rfl

@[simp] theorem get_set_other (c : Copies α) (s : Slot) (x : α) :
    (c.set s.other x).get s = c.get s := by
  cases s <;> rfl

@[simp] theorem get_other_set (c : Copies α) (s : Slot) (x : α) :
    (c.set s x).get s.other = c.get s.other := by
  cases s <;> rfl

@[simp] theorem get_map (f : α → β) (c : Copies α) (s : Slot) : (c.map f).get s = f (c.get s) := by
  cases s <;> rfl

@[simp] theorem map_set (f : α → β) (c : Copies α) (s : Slot) (x : α) :
    (c.set s x).map f = (c.map f).set s (f x) := by
  cases s <;> rfl

@[simp] theorem set_get (c : Copies α) (s : Slot) : c.set s (c.get s) = c := by
  cases s <;> rfl

end Copies

/-! ## The choice -/

section Choice

variable {α : Type}

/-- A choice between two copies, each intact (`some`) or damaged (`none`), that takes an
intact one if there is one. -/
structure Chooses (choose : Copies (Option α) → Option Slot) : Prop where
  intact : ∀ {c s}, choose c = some s → c.get s ≠ none
  damaged : ∀ {c}, choose c = none → ∀ s, c.get s = none

/-- The slot chosen, with what is in it. -/
def Copies.chosen (choose : Copies (Option α) → Option Slot) (c : Copies (Option α)) :
    Option (Slot × α) :=
  (choose c).bind fun s => (c.get s).map fun x => (s, x)

variable {choose : Copies (Option α) → Option Slot} {c : Copies (Option α)} {s : Slot} {x : α}

theorem chosen_eq (h : choose c = some s) (hx : c.get s = some x) :
    c.chosen choose = some (s, x) := by
  simp [Copies.chosen, h, hx]

namespace Chooses

/-- The only intact copy is the one chosen. -/
theorem only (hc : Chooses choose) (h : c.get s ≠ none) (h' : c.get s.other = none) :
    choose c = some s := by
  cases ht : choose c with
  | none => exact absurd (hc.damaged ht s) h
  | some t =>
    rcases Slot.eq_or_eq_other s t with rfl | rfl
    · rfl
    · exact absurd h' (hc.intact ht)

/-- Damage to the other copy does not change the choice. -/
theorem set_none (hc : Chooses choose) (h : choose c = some s) :
    choose (c.set s.other none) = some s :=
  hc.only (by simpa using hc.intact h) (by simp)

/-- A new copy in the other slot leaves the old one or the new one to choose. -/
theorem set_some (hc : Chooses choose) (c : Copies (Option α)) (s : Slot) (x : α) :
    choose (c.set s.other (some x)) = some s ∨ choose (c.set s.other (some x)) = some s.other := by
  cases ht : choose (c.set s.other (some x)) with
  | none => exact absurd (hc.damaged ht s.other) (by simp)
  | some t =>
    rcases Slot.eq_or_eq_other s t with rfl | rfl
    · exact .inl rfl
    · exact .inr rfl

variable {t : Slot} {v : Option α}

/-- A write to `t` that leaves what was there, or damage, does not change the choice of
the other slot or of none. -/
theorem set_damaged (hc : Chooses choose) (h : choose c = some t.other ∨ choose c = none)
    (hv : v = c.get t ∨ v = none) :
    choose (c.set t v) = choose c ∧ (c.set t v).chosen choose = c.chosen choose := by
  rcases hv with rfl | rfl
  · rw [Copies.set_get]
    exact ⟨rfl, rfl⟩
  rcases h with h | h
  · have hset : choose (c.set t none) = some t.other := by simpa using hc.set_none h
    rw [h, hset]
    refine ⟨rfl, ?_⟩
    simp only [Copies.chosen, h, hset, Option.bind_some, Copies.get_other_set]
  · have hsame : c.set t none = c := by rw [← hc.damaged h t, Copies.set_get]
    rw [hsame]
    exact ⟨rfl, rfl⟩

/-- A new copy in `t` is chosen, or the choice is what it was. -/
theorem chosen_set_some (hc : Chooses choose) (h : choose c = some t.other ∨ choose c = none) :
    (c.set t (some x)).chosen choose = c.chosen choose ∨
      (c.set t (some x)).chosen choose = some (t, x) := by
  have hcases := hc.set_some c t.other x
  rw [Slot.other_other] at hcases
  rcases hcases with hold | hnew
  · left
    rcases h with h | h
    · simp only [Copies.chosen, h, hold, Option.bind_some, Copies.get_other_set]
    · exact absurd (hc.damaged h t.other) (by simpa using hc.intact hold)
  · right
    exact chosen_eq hnew (by simp)

end Chooses

end Choice

/-! ## What was written -/

/-- The last value whose write was completed, and the values written completely since
by writes that were cut off all the same. -/
structure History (α : Type) where
  last : Option α
  later : List α

namespace History

variable {α : Type} {h : History α} {o : Option α} {x : α}

/-- A write is completed. -/
def complete (_ : History α) (x : α) : History α := ⟨some x, []⟩

/-- A write is cut off behind its last byte. -/
def interrupt (h : History α) (x : α) : History α := ⟨h.last, x :: h.later⟩

/-- A start may find the last value, or one that was cut off since. -/
def Allows (h : History α) (o : Option α) : Prop := o = h.last ∨ ∃ x ∈ h.later, o = some x

instance [DecidableEq α] (h : History α) (o : Option α) : Decidable (h.Allows o) :=
  inferInstanceAs (Decidable (_ ∨ _))

theorem allows_complete : (h.complete x).Allows (some x) := .inl rfl

theorem allows_interrupt : (h.interrupt x).Allows (some x) := .inr ⟨x, by simp [interrupt], rfl⟩

theorem Allows.interrupt (ha : h.Allows o) : (h.interrupt x).Allows o := by
  rcases ha with rfl | ⟨y, hy, rfl⟩
  · exact .inl rfl
  · exact .inr ⟨y, List.mem_cons_of_mem _ hy, rfl⟩

end History

end UBoot.Lib
