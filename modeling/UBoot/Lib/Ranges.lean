import Mathlib

/-!
# Lists of ranges

A list whose elements stand for half-open ranges: `covered` is the set of the points in
them, and the list is `Gapped` when the ranges are in order with a gap between any two.
The ranges of a gapped list are disjoint and do not touch.
-/

namespace UBoot.Lib

variable {ι α : Type} [LinearOrder α] {lo hi : ι → α} {A B : List ι} {e n : ι}

def covered (lo hi : ι → α) (es : List ι) : Set α := {a | ∃ e ∈ es, a ∈ Set.Ico (lo e) (hi e)}

@[simp] theorem covered_nil : covered lo hi [] = ∅ := by simp [covered]

@[simp] theorem covered_cons (e : ι) (es : List ι) :
    covered lo hi (e :: es) = Set.Ico (lo e) (hi e) ∪ covered lo hi es := by
  ext a
  simp [covered]

@[simp] theorem covered_append (es fs : List ι) :
    covered lo hi (es ++ fs) = covered lo hi es ∪ covered lo hi fs := by
  ext a
  simp only [covered, List.mem_append, Set.mem_union, Set.mem_ofPred_eq]
  constructor
  · rintro ⟨e, h | h, ha⟩
    · exact .inl ⟨e, h, ha⟩
    · exact .inr ⟨e, h, ha⟩
  · rintro (⟨e, h, ha⟩ | ⟨e, h, ha⟩)
    · exact ⟨e, .inl h, ha⟩
    · exact ⟨e, .inr h, ha⟩

theorem covered_insert : covered lo hi (A ++ n :: B) =
    covered lo hi (A ++ B) ∪ Set.Ico (lo n) (hi n) := by
  rw [covered_append, covered_cons, covered_append]
  ac_rfl

/-- A range replaced by one with further points. -/
theorem covered_replace {s : Set α} (h : Set.Ico (lo n) (hi n) = Set.Ico (lo e) (hi e) ∪ s) :
    covered lo hi (A ++ n :: B) = covered lo hi (A ++ e :: B) ∪ s := by
  rw [covered_insert, covered_insert, h, Set.union_assoc]

theorem disjoint_covered {s : Set α} {es : List ι}
    (h : ∀ x ∈ es, Disjoint (Set.Ico (lo x) (hi x)) s) : Disjoint (covered lo hi es) s := by
  rw [Set.disjoint_left]
  rintro a ⟨e, he, ha⟩
  exact Set.disjoint_left.mp (h e he) ha

/-- Points taken from one range that the others do not have. -/
theorem covered_cut {s : Set α} (hothers : ∀ x ∈ A ++ B, Disjoint (Set.Ico (lo x) (hi x)) s)
    (h : Set.Ico (lo n) (hi n) = Set.Ico (lo e) (hi e) \ s) :
    covered lo hi (A ++ n :: B) = covered lo hi (A ++ e :: B) \ s := by
  rw [covered_insert, covered_insert, h, Set.union_sdiff_distrib,
    (disjoint_covered hothers).sdiff_eq_left]

theorem covered_remove
    (hothers : ∀ x ∈ A ++ B, Disjoint (Set.Ico (lo x) (hi x)) (Set.Ico (lo e) (hi e))) :
    covered lo hi (A ++ B) = covered lo hi (A ++ e :: B) \ Set.Ico (lo e) (hi e) := by
  rw [covered_insert, Set.union_sdiff_right, (disjoint_covered hothers).sdiff_eq_left]

def Gapped (lo hi : ι → α) (es : List ι) : Prop := es.Pairwise fun x y => hi x < lo y

theorem gapped_middle_iff : Gapped lo hi (A ++ n :: B) ↔
    Gapped lo hi (A ++ B) ∧ (∀ x ∈ A, hi x < lo n) ∧ ∀ x ∈ B, hi n < lo x := by
  simp only [Gapped, List.pairwise_append, List.pairwise_cons, List.mem_cons]
  constructor
  · rintro ⟨hA, ⟨hn, hB⟩, hAB⟩
    exact ⟨⟨hA, hB, fun a ha b hb => hAB a ha b (.inr hb)⟩, fun a ha => hAB a ha n (.inl rfl), hn⟩
  · rintro ⟨⟨hA, hB, hAB⟩, hAn, hn⟩
    refine ⟨hA, ⟨hn, hB⟩, fun a ha b hb => ?_⟩
    rcases hb with rfl | hb
    · exact hAn a ha
    · exact hAB a ha b hb

/-- A range replaced by one that keeps the gaps. -/
theorem Gapped.replace (h : Gapped lo hi (A ++ e :: B)) (hlo : ∀ x ∈ A, hi x < lo n)
    (hhi : ∀ x ∈ B, hi n < lo x) : Gapped lo hi (A ++ n :: B) :=
  gapped_middle_iff.mpr ⟨(gapped_middle_iff.mp h).1, hlo, hhi⟩

/-- A new range apart from the others, behind the last one that does not start above it. -/
theorem Gapped.insert (h : Gapped lo hi (A ++ B)) (hpos : ∀ x ∈ A ++ B, lo x < hi x)
    (hn : lo n < hi n) (hsides : ∀ x ∈ A ++ B, hi x < lo n ∨ hi n < lo x)
    (hbelow : ∀ x ∈ A.getLast?, lo x ≤ lo n) (habove : ∀ x ∈ B, lo n < lo x) :
    Gapped lo hi (A ++ n :: B) := by
  refine gapped_middle_iff.mpr ⟨h, ?_, ?_⟩
  · intro x hx
    obtain ⟨A, z, rfl⟩ : ∃ A' z, A = A' ++ [z] :=
      ⟨_, _, (List.dropLast_concat_getLast (List.ne_nil_of_mem hx)).symm⟩
    have hmem : z ∈ A ++ [z] ++ B := by simp
    have hz : hi z < lo n := by
      refine (hsides z hmem).resolve_right ?_
      intro hlt
      exact lt_irrefl _ (hlt.trans_le ((hbelow z (by simp)).trans hn.le))
    rcases List.mem_append.mp hx with hx | hx
    · have hA := (List.pairwise_append.mp h).1
      have hgap : hi x < lo z := (List.pairwise_append.mp hA).2.2 x hx z (by simp)
      exact hgap.trans ((hpos z hmem).trans hz)
    · rw [List.mem_singleton.mp hx]
      exact hz
  · intro x hx
    have hmem : x ∈ A ++ B := List.mem_append_right _ hx
    refine (hsides x hmem).resolve_left ?_
    intro hlt
    exact lt_irrefl _ (hlt.trans ((habove x hx).trans (hpos x hmem)))

theorem Gapped.apart {es : List ι} (h : Gapped lo hi es) {x y : ι} (hx : x ∈ es) (hy : y ∈ es)
    (hne : x ≠ y) : hi x < lo y ∨ hi y < lo x := by
  have hsymm : Std.Symm fun x y => hi x < lo y ∨ hi y < lo x := ⟨fun _ _ => Or.symm⟩
  have hpairs : es.Pairwise fun x y => hi x < lo y ∨ hi y < lo x := h.imp .inl
  exact hpairs.forall hx hy hne

end UBoot.Lib
