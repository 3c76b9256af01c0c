import Mathlib

/-!
# Sorted lists and their groups

The entries of a list are sorted by a function `f`; entries with one value of `f` are a group.  A
sorted list is known from its groups, and sorting keeps the order inside of each.

* `eq_of_groups`: the list from its groups.
* `insertionSort_reverse_eq_iff`: a sorted list is put together again from the last entry to the
  first exactly if every group is a palindrome.
-/

namespace UBoot.Lib

variable {α β : Type} [LinearOrder β] {f : α → β} {l l₁ l₂ : List α} {b : β}

/-- The entries with one value of `f`. -/
def group (f : α → β) (b : β) (l : List α) : List α := l.filter fun a => f a = b

theorem mem_group {a : α} : a ∈ group f b l ↔ a ∈ l ∧ f a = b := by
  rw [group, List.mem_filter, decide_eq_true_iff]

theorem group_cons_self (a : α) (l : List α) : group f (f a) (a :: l) = a :: group f (f a) l :=
  List.filter_cons_of_pos (decide_eq_true rfl)

theorem group_cons_of_ne {a : α} (h : f a ≠ b) : group f b (a :: l) = group f b l :=
  List.filter_cons_of_neg (by simpa using h)

theorem mem_of_groups (h : ∀ b, group f b l₁ = group f b l₂) {a : α} (ha : a ∈ l₁) : a ∈ l₂ := by
  have hmem : a ∈ group f (f a) l₁ := mem_group.mpr ⟨ha, rfl⟩
  rw [h] at hmem
  exact (mem_group.mp hmem).1

/-- A sorted list is known from its groups. -/
theorem eq_of_groups (h₁ : l₁.Pairwise fun a c => f a ≤ f c) (h₂ : l₂.Pairwise fun a c => f a ≤ f c)
    (h : ∀ b, group f b l₁ = group f b l₂) : l₁ = l₂ := by
  induction l₁ generalizing l₂ with
  | nil =>
    cases l₂ with
    | nil => rfl
    | cons c l₂ => cases mem_of_groups (fun b => (h b).symm) List.mem_cons_self
  | cons a l₁ ih =>
    cases l₂ with
    | nil => cases mem_of_groups h List.mem_cons_self
    | cons c l₂ =>
      have hle : f a ≤ f c := by
        have hmem := mem_of_groups (fun b => (h b).symm) (List.mem_cons_self (a := c))
        rcases List.mem_cons.mp hmem with rfl | hc
        · exact le_rfl
        · exact (List.pairwise_cons.mp h₁).1 c hc
      have hge : f c ≤ f a := by
        rcases List.mem_cons.mp (mem_of_groups h List.mem_cons_self) with rfl | ha
        · exact le_rfl
        · exact (List.pairwise_cons.mp h₂).1 a ha
      have heq : f a = f c := le_antisymm hle hge
      have hself := h (f a)
      rw [group_cons_self, heq, group_cons_self] at hself
      obtain ⟨rfl, htail⟩ := List.cons.inj hself
      have hgroups : ∀ b, group f b l₁ = group f b l₂ := by
        intro b
        by_cases hb : f a = b
        · rw [← hb]
          exact htail
        · have hother := h b
          rw [group_cons_of_ne hb, group_cons_of_ne hb] at hother
          exact hother
      rw [ih (List.pairwise_cons.mp h₁).2 (List.pairwise_cons.mp h₂).2 hgroups]

/-- Sorting keeps the groups. -/
theorem group_insertionSort :
    group f b (l.insertionSort fun a c => f a ≤ f c) = group f b l := by
  have hsorted : (group f b l).Pairwise fun a c => f a ≤ f c := by
    refine List.pairwise_of_forall_mem_list fun a ha c hc => ?_
    rw [(mem_group.mp ha).2, (mem_group.mp hc).2]
  have hsub : (group f b l).Sublist (l.insertionSort fun a c => f a ≤ f c) :=
    List.sublist_insertionSort hsorted List.filter_sublist
  have hgroup : (group f b l).Sublist (group f b (l.insertionSort fun a c => f a ≤ f c)) := by
    have hfilter := hsub.filter fun a => decide (f a = b)
    rw [group, List.filter_filter] at hfilter
    simpa [group] using hfilter
  exact (hgroup.eq_of_length ((List.perm_insertionSort _ l).filter _).length_eq.symm).symm

/-- A sorted list is put together again from the last entry to the first exactly if every group
reads the same from both ends. -/
theorem insertionSort_reverse_eq_iff (h : l.Pairwise fun a c => f a ≤ f c) :
    l.reverse.insertionSort (fun a c => f a ≤ f c) = l ↔ ∀ b, (group f b l).Palindrome := by
  have hgroup : ∀ b, group f b (l.reverse.insertionSort fun a c => f a ≤ f c) =
      (group f b l).reverse := by
    intro b
    rw [group_insertionSort, group, List.filter_reverse]
    rfl
  constructor
  · intro heq b
    have hb := hgroup b
    rw [heq] at hb
    exact List.Palindrome.of_reverse_eq hb.symm
  · intro hall
    refine eq_of_groups (List.pairwise_insertionSort _ _) h fun b => ?_
    rw [hgroup b, (hall b).reverse_eq]

end UBoot.Lib
