import Mathlib

/-!
# Loops that keep a log

A loop is given by one pass over its body: what the pass looks at, and the state behind it or the
result.  `loop` runs it for a number of passes, and `Ends` says that it comes to an end, with a
condition on everything that it has looked at and one on the result.  One pass of a loop that ends
is `ends_stop` or `ends_next`, and `Ends.induct` is the induction over the passes.  That a loop ends
follows from a rank that goes down (`ends_of_rank`).
-/

namespace UBoot.Lib

section Loop

variable {σ ρ ι : Type} {pass : σ → List ι × (σ ⊕ ρ)} {P : ι → Prop} {Q : ρ → Prop} {s t : σ}
  {reads : List ι} {r : ρ}

/-- What is left to do behind a pass. -/
def follow (next : σ → Option (List ι × ρ)) : List ι × (σ ⊕ ρ) → Option (List ι × ρ)
  | (reads, .inl t) => (next t).map fun x => (reads ++ x.1, x.2)
  | (reads, .inr r) => some (reads, r)

/-- The loop, none if it goes on behind so many passes. -/
def loop (pass : σ → List ι × (σ ⊕ ρ)) : Nat → σ → Option (List ι × ρ)
  | 0, _ => none
  | fuel + 1, s => follow (loop pass fuel) (pass s)

/-- The loop comes to an end. -/
def Ends (pass : σ → List ι × (σ ⊕ ρ)) (P : ι → Prop) (Q : ρ → Prop) (s : σ) : Prop :=
  ∃ fuel x, loop pass fuel s = some x ∧ (∀ i ∈ x.1, P i) ∧ Q x.2

theorem loop_stop (h : pass s = (reads, .inr r)) (fuel : Nat) :
    loop pass (fuel + 1) s = some (reads, r) := by
  rw [loop, h]
  rfl

theorem loop_next (h : pass s = (reads, .inl t)) (fuel : Nat) :
    loop pass (fuel + 1) s = (loop pass fuel t).map fun x => (reads ++ x.1, x.2) := by
  rw [loop, h]
  rfl

theorem loop_mono {fuel fuel' : Nat} {x : List ι × ρ} (h : loop pass fuel s = some x)
    (hle : fuel ≤ fuel') : loop pass fuel' s = some x := by
  induction fuel generalizing s x fuel' with
  | zero => cases h
  | succ fuel ih =>
    obtain ⟨k, rfl⟩ : ∃ k, fuel' = k + 1 := ⟨fuel' - 1, by omega⟩
    cases hpass : pass s with
    | mk reads after =>
      cases after with
      | inr r =>
        rw [loop_stop hpass] at h ⊢
        exact h
      | inl t =>
        rw [loop_next hpass, Option.map_eq_some_iff] at h
        obtain ⟨y, hy, rfl⟩ := h
        rw [loop_next hpass, ih hy (by omega)]
        rfl

theorem ends_stop (h : pass s = (reads, .inr r)) :
    Ends pass P Q s ↔ (∀ i ∈ reads, P i) ∧ Q r := by
  constructor
  · rintro ⟨fuel, x, hx, hP, hQ⟩
    cases fuel with
    | zero => cases hx
    | succ fuel =>
      rw [loop_stop h] at hx
      cases hx
      exact ⟨hP, hQ⟩
  · rintro ⟨hP, hQ⟩
    exact ⟨1, (reads, r), loop_stop h 0, hP, hQ⟩

theorem ends_next (h : pass s = (reads, .inl t)) :
    Ends pass P Q s ↔ (∀ i ∈ reads, P i) ∧ Ends pass P Q t := by
  constructor
  · rintro ⟨fuel, x, hx, hP, hQ⟩
    cases fuel with
    | zero => cases hx
    | succ fuel =>
      rw [loop_next h, Option.map_eq_some_iff] at hx
      obtain ⟨y, hy, rfl⟩ := hx
      rw [List.forall_mem_append] at hP
      exact ⟨hP.1, fuel, y, hy, hP.2, hQ⟩
  · rintro ⟨hP, fuel, x, hx, hP', hQ⟩
    refine ⟨fuel + 1, (reads ++ x.1, x.2), ?_, List.forall_mem_append.mpr ⟨hP, hP'⟩, hQ⟩
    rw [loop_next h, hx]
    rfl

theorem Ends.forall_reads (h : Ends pass P Q s) : ∀ i ∈ (pass s).1, P i := by
  cases hpass : pass s with
  | mk reads after =>
    cases after with
    | inl t => exact ((ends_next hpass).mp h).1
    | inr r => exact ((ends_stop hpass).mp h).1

theorem Ends.next (h : Ends pass P Q s) (ht : (pass s).2 = .inl t) : Ends pass P Q t :=
  ((ends_next (Prod.ext rfl ht)).mp h).2

/-- A loop ends if every pass leads closer to the end. -/
theorem ends_of_rank (Inv : σ → Prop) (rank : σ → Nat)
    (reads : ∀ s, Inv s → ∀ i ∈ (pass s).1, P i)
    (next : ∀ s t, Inv s → (pass s).2 = .inl t → Inv t ∧ rank t < rank s)
    (stop : ∀ s r, Inv s → (pass s).2 = .inr r → Q r) (h : Inv s) : Ends pass P Q s := by
  induction hn : rank s using Nat.strong_induction_on generalizing s with
  | h n ih =>
    have hreads := reads s h
    cases hpass : pass s with
    | mk log after =>
      rw [hpass] at hreads
      cases after with
      | inl t =>
        obtain ⟨ht, hlt⟩ := next s t h (by rw [hpass])
        exact (ends_next hpass).mpr ⟨hreads, ih (rank t) (hn ▸ hlt) ht rfl⟩
      | inr r => exact (ends_stop hpass).mpr ⟨hreads, stop s r h (by rw [hpass])⟩

/-- The induction over the passes of a loop that ends. -/
theorem Ends.induct {motive : σ → Prop} (h : Ends pass P Q s)
    (stop : ∀ {s reads r}, pass s = (reads, .inr r) → (∀ i ∈ reads, P i) → Q r → motive s)
    (next : ∀ {s reads t}, pass s = (reads, .inl t) → (∀ i ∈ reads, P i) → Ends pass P Q t →
      motive t → motive s) : motive s := by
  obtain ⟨fuel, x, hx, hP, hQ⟩ := h
  induction fuel generalizing s x with
  | zero => cases hx
  | succ fuel ih =>
    cases hpass : pass s with
    | mk reads after =>
      cases after with
      | inr r =>
        rw [loop_stop hpass] at hx
        cases hx
        exact stop hpass hP hQ
      | inl t =>
        rw [loop_next hpass, Option.map_eq_some_iff] at hx
        obtain ⟨y, hy, rfl⟩ := hx
        rw [List.forall_mem_append] at hP
        exact next hpass hP.1 ⟨fuel, y, hy, hP.2, hQ⟩ (ih y hy hP.2 hQ)

theorem Ends.imp {P' : ι → Prop} {Q' : ρ → Prop} (h : Ends pass P Q s) (hP : ∀ i, P i → P' i)
    (hQ : ∀ r, Q r → Q' r) : Ends pass P' Q' s := by
  obtain ⟨fuel, x, hx, hreads, hresult⟩ := h
  exact ⟨fuel, x, hx, fun i hi => hP i (hreads i hi), hQ _ hresult⟩

/-- A loop has one result. -/
theorem Ends.and {P' : ι → Prop} {Q' : ρ → Prop} (h : Ends pass P Q s) (h' : Ends pass P' Q' s) :
    Ends pass (fun i => P i ∧ P' i) (fun r => Q r ∧ Q' r) s := by
  refine Ends.induct (motive := fun s => Ends pass P' Q' s →
    Ends pass (fun i => P i ∧ P' i) (fun r => Q r ∧ Q' r) s) h ?_ ?_ h'
  · intro s reads r hpass hreads hresult h'
    obtain ⟨hreads', hresult'⟩ := (ends_stop hpass).mp h'
    exact (ends_stop hpass).mpr ⟨fun i hi => ⟨hreads i hi, hreads' i hi⟩, hresult, hresult'⟩
  · intro s reads t hpass hreads _ ih h'
    obtain ⟨hreads', hrest'⟩ := (ends_next hpass).mp h'
    exact (ends_next hpass).mpr ⟨fun i hi => ⟨hreads i hi, hreads' i hi⟩, ih hrest'⟩

end Loop

end UBoot.Lib
