import Mathlib

/-!
# The newest of a list of versions

Where records are never changed but written again with a higher version, the newest one counts.
`IsNewest` does not depend on the order of the records; in a sorted list it is the last one, and a
walk that keeps a record whose version is not below the best one so far ends with it
(`foldl_newestStep`).  Of records with one version that walk keeps the last (`IsLastNewest`).
-/

namespace UBoot.Lib

variable {α : Type} {version : α → Nat} {l l' : List α} {a b : α}

/-- No record of the list has a higher version. -/
def IsNewest (version : α → Nat) (a : α) (l : List α) : Prop :=
  a ∈ l ∧ ∀ b ∈ l, version b ≤ version a

theorem IsNewest.perm (h : l.Perm l') (ha : IsNewest version a l) : IsNewest version a l' :=
  ⟨h.mem_iff.mp ha.1, fun b hb => ha.2 b (h.mem_iff.mpr hb)⟩

/-- With different versions there is one newest record. -/
theorem IsNewest.unique (hver : (l.map version).Nodup) (ha : IsNewest version a l)
    (hb : IsNewest version b l) : a = b :=
  List.inj_on_of_nodup_map hver ha.1 hb.1 (Nat.le_antisymm (hb.2 a ha.1) (ha.2 b hb.1))

/-- In a sorted list the last record is the newest. -/
theorem isNewest_getLast (hsorted : l.Pairwise fun a b => version a ≤ version b)
    (ha : l.getLast? = some a) : IsNewest version a l := by
  obtain ⟨front, rfl⟩ := List.getLast?_eq_some_iff.mp ha
  refine ⟨List.mem_append_right _ (List.mem_singleton_self a), fun b hb => ?_⟩
  rcases List.mem_append.mp hb with hb | hb
  · exact (List.pairwise_append.mp hsorted).2.2 b hb a (List.mem_singleton_self a)
  · exact Nat.le_of_eq (congrArg version (List.mem_singleton.mp hb))

/-- One record in a walk, with the version of the best one so far and what it says. -/
def newestStep (version value : α → Nat) (s : Nat × Nat) (a : α) : Nat × Nat :=
  if version a < s.1 then s else (version a, value a)

/-- The walk ends with the newest record. -/
theorem foldl_newestStep (version value : α → Nat) (l : List α) :
    (l = [] ∧ l.foldl (newestStep version value) (0, 0) = (0, 0)) ∨
      ∃ a, IsNewest version a l ∧
        l.foldl (newestStep version value) (0, 0) = (version a, value a) := by
  induction l using List.reverseRecOn with
  | nil => exact Or.inl ⟨rfl, rfl⟩
  | append_singleton l b ih =>
    right
    rw [List.foldl_append, List.foldl_cons, List.foldl_nil]
    rcases ih with ⟨rfl, hfold⟩ | ⟨a, ⟨hmem, hmax⟩, hfold⟩
    · refine ⟨b, ⟨List.mem_singleton_self b, fun x hx => ?_⟩, ?_⟩
      · exact Nat.le_of_eq (congrArg version (List.mem_singleton.mp hx))
      · rw [hfold, newestStep, if_neg (Nat.not_lt_zero _)]
    · rw [hfold, newestStep]
      by_cases hlt : version b < version a
      · rw [if_pos hlt]
        refine ⟨a, ⟨List.mem_append_left _ hmem, fun x hx => ?_⟩, rfl⟩
        rcases List.mem_append.mp hx with hx | hx
        · exact hmax x hx
        · rw [List.mem_singleton.mp hx]
          exact Nat.le_of_lt hlt
      · rw [if_neg hlt]
        refine ⟨b, ⟨List.mem_append_right _ (List.mem_singleton_self b), fun x hx => ?_⟩, rfl⟩
        rcases List.mem_append.mp hx with hx | hx
        · exact Nat.le_trans (hmax x hx) (Nat.not_lt.mp hlt)
        · exact Nat.le_of_eq (congrArg version (List.mem_singleton.mp hx))

theorem exists_isNewest (version : α → Nat) (h : l ≠ []) : ∃ a, IsNewest version a l := by
  rcases foldl_newestStep version version l with ⟨hnil, -⟩ | ⟨a, ha, -⟩
  · exact absurd hnil h
  · exact ⟨a, ha⟩

/-! ## Records with the same version -/

/-- The last of the records with the highest version. -/
def IsLastNewest (version : α → Nat) (a : α) (l : List α) : Prop :=
  ∃ front behind, l = front ++ a :: behind ∧ (∀ b ∈ front, version b ≤ version a) ∧
    ∀ b ∈ behind, version b < version a

/-- One record in a walk that keeps the best one so far. -/
def keepNewer (version : α → Nat) (best a : α) : α := if version a < version best then best else a

theorem foldl_keepNewer_older (h : ∀ b ∈ l, version b < version a) :
    l.foldl (keepNewer version) a = a := by
  induction l with
  | nil => rfl
  | cons b l ih =>
    obtain ⟨hb, hl⟩ := List.forall_mem_cons.mp h
    rw [List.foldl_cons, keepNewer, if_pos hb, ih hl]

theorem version_foldl_keepNewer {n : Nat} (ha : version a ≤ n) (h : ∀ b ∈ l, version b ≤ n) :
    version (l.foldl (keepNewer version) a) ≤ n := by
  induction l generalizing a with
  | nil => exact ha
  | cons b l ih =>
    obtain ⟨hb, hl⟩ := List.forall_mem_cons.mp h
    rw [List.foldl_cons]
    refine ih ?_ hl
    rw [keepNewer]
    split
    · exact ha
    · exact hb

/-- The walk ends with the last of the newest records. -/
theorem IsLastNewest.foldl_eq (h : IsLastNewest version a l) (hb : version b ≤ version a) :
    l.foldl (keepNewer version) b = a := by
  obtain ⟨front, behind, rfl, hfront, hbehind⟩ := h
  have hle := version_foldl_keepNewer hb hfront
  rw [List.foldl_append, List.foldl_cons, keepNewer, if_neg (Nat.not_lt.mpr hle),
    foldl_keepNewer_older hbehind]

theorem exists_isLastNewest (version : α → Nat) (h : l ≠ []) : ∃ a, IsLastNewest version a l := by
  induction l with
  | nil => exact absurd rfl h
  | cons b l ih =>
    by_cases hnil : l = []
    · subst hnil
      exact ⟨b, [], [], rfl, fun x hx => absurd hx List.not_mem_nil,
        fun x hx => absurd hx List.not_mem_nil⟩
    obtain ⟨a, front, behind, rfl, hfront, hbehind⟩ := ih hnil
    by_cases hlt : version a < version b
    · refine ⟨b, [], front ++ a :: behind, rfl, fun x hx => absurd hx List.not_mem_nil, ?_⟩
      intro x hx
      rcases List.mem_append.mp hx with hx | hx
      · exact Nat.lt_of_le_of_lt (hfront x hx) hlt
      · rcases List.mem_cons.mp hx with rfl | hx
        · exact hlt
        · exact (hbehind x hx).trans hlt
    · exact ⟨a, b :: front, behind, rfl,
        List.forall_mem_cons.mpr ⟨Nat.not_lt.mp hlt, hfront⟩, hbehind⟩

end UBoot.Lib
