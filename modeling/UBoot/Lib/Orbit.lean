import Mathlib.Data.Set.Finite.Basic
import Mathlib.Data.Fintype.Card
import UBoot.Lib.Loop

/-!
# Orbits of a step that may stop

`orbit step a n` is the state that `n` steps lead to from `a`, none if there are not so many.  In a
finite set of states an orbit stops exactly if it does not come back to a state that it has passed
(`stops_iff_not_returns`): one that comes back goes round for ever.  Where most steps lead upwards
it is enough to look at the states from which one does not (`stops_iff_once`).  A loop is the orbit
of its passes (`ends_iff_stops`).
-/

namespace UBoot.Lib

section Orbit

variable {α : Type} {step : α → Option α} {a b : α} {m n : Nat}

def orbit (step : α → Option α) (a : α) : Nat → Option α
  | 0 => some a
  | n + 1 => (orbit step a n).bind step

/-- There is no state behind some number of steps. -/
def Stops (step : α → Option α) (a : α) : Prop := ∃ n, orbit step a n = none

/-- A state comes twice. -/
def Returns (step : α → Option α) (a : α) : Prop :=
  ∃ i j s, i < j ∧ orbit step a i = some s ∧ orbit step a j = some s

theorem orbit_add (step : α → Option α) (a : α) (m n : Nat) :
    orbit step a (m + n) = (orbit step a m).bind fun s => orbit step s n := by
  induction n with
  | zero => cases orbit step a m <;> rfl
  | succ n ih =>
    rw [← Nat.add_assoc, orbit, ih]
    cases orbit step a m <;> rfl

theorem orbit_of_some (h : step a = some b) (n : Nat) : orbit step a (n + 1) = orbit step b n := by
  rw [Nat.add_comm, orbit_add]
  exact congrArg (fun o : Option α => o.bind fun s => orbit step s n) h

/-- What holds of the first state and is kept by every step holds of all states of an orbit. -/
theorem orbit_inv {I : α → Prop} (start : I a)
    (next : ∀ n s t, orbit step a n = some s → I s → step s = some t → I t) :
    ∀ n s, orbit step a n = some s → I s := by
  intro n
  induction n with
  | zero =>
    intro s h
    cases h
    exact start
  | succ n ih =>
    intro t h
    obtain ⟨s, hs, hnext⟩ := Option.bind_eq_some_iff.mp h
    exact next n s t hs (ih s hs) hnext

theorem stops_of_none (h : step a = none) : Stops step a := ⟨1, h⟩

theorem stops_iff_of_some (h : step a = some b) : Stops step a ↔ Stops step b := by
  constructor
  · rintro ⟨n, hn⟩
    cases n with
    | zero => cases hn
    | succ n => exact ⟨n, (orbit_of_some h n).symm.trans hn⟩
  · rintro ⟨n, hn⟩
    exact ⟨n + 1, (orbit_of_some h n).trans hn⟩

/-- The induction over the states of an orbit that stops. -/
theorem Stops.induct {motive : α → Prop} (h : Stops step a)
    (stop : ∀ {s}, step s = none → motive s)
    (next : ∀ {s t}, step s = some t → Stops step t → motive t → motive s) : motive a := by
  obtain ⟨n, hn⟩ := h
  induction n generalizing a with
  | zero => cases hn
  | succ n ih =>
    cases hstep : step a with
    | none => exact stop hstep
    | some b =>
      rw [orbit_of_some hstep] at hn
      exact next hstep ⟨n, hn⟩ (ih hn)

theorem orbit_none (h : orbit step a m = none) (hle : m ≤ n) : orbit step a n = none := by
  obtain ⟨k, rfl⟩ := Nat.exists_eq_add_of_le hle
  rw [orbit_add, h]
  rfl

/-- An orbit that comes back to a state comes back to it again and again. -/
theorem orbit_period {i p : Nat} (hi : orbit step a i = some b)
    (hp : orbit step a (i + p) = some b) (k : Nat) : orbit step a (i + k * p) = some b := by
  have hround : orbit step b p = some b := by
    rw [orbit_add, hi] at hp
    exact hp
  induction k with
  | zero => rwa [Nat.zero_mul]
  | succ k ih =>
    rw [Nat.succ_mul, ← Nat.add_assoc, orbit_add, ih]
    exact hround

theorem Stops.not_returns (h : Stops step a) : ¬ Returns step a := by
  rintro ⟨i, j, s, hlt, hi, hj⟩
  obtain ⟨n, hn⟩ := h
  obtain ⟨p, rfl⟩ := Nat.exists_eq_add_of_lt hlt
  have hround := orbit_period (p := p + 1) hi hj n
  have hfar : n ≤ i + n * (p + 1) := by
    rw [Nat.mul_succ]
    omega
  rw [orbit_none hn hfar] at hround
  cases hround

theorem stops_iff_not_returns {S : Set α} (hfin : S.Finite)
    (hmem : ∀ n s, orbit step a n = some s → s ∈ S) : Stops step a ↔ ¬ Returns step a := by
  refine ⟨Stops.not_returns, ?_⟩
  intro hreturns
  by_contra hstops
  have hsome : ∀ n, ∃ s, orbit step a n = some s := fun n =>
    Option.ne_none_iff_exists'.mp fun hnone => hstops ⟨n, hnone⟩
  obtain ⟨f, hf⟩ := Classical.axiomOfChoice hsome
  have hinj : Function.Injective f := by
    intro i j heq
    by_contra hne
    rcases Nat.lt_or_gt_of_ne hne with hlt | hgt
    · exact hreturns ⟨i, j, f i, hlt, hf i, heq ▸ hf j⟩
    · exact hreturns ⟨j, i, f j, hgt, hf j, heq ▸ hf i⟩
  exact Set.infinite_of_injective_forall_mem hinj (fun n => hmem n (f n) (hf n)) hfin

/-- Behind a state that comes twice everything comes twice. -/
theorem orbit_again {i j d : Nat} (hi : orbit step a i = some b) (hj : orbit step a j = some b) :
    orbit step a (j + d) = orbit step a (i + d) := by
  rw [orbit_add, orbit_add, hi, hj]

/-- An orbit that only goes back from states of one kind stops if none of them comes twice. -/
theorem stops_iff_once {β : Type} [Preorder β] {S : Set α} {Back : α → Prop} (rank : α → β)
    (hfin : S.Finite) (hmem : ∀ n s, orbit step a n = some s → s ∈ S)
    (hrise : ∀ n s t, orbit step a n = some s → step s = some t → ¬ Back s → rank s < rank t) :
    Stops step a ↔
      ∀ i j s, i < j → orbit step a i = some s → orbit step a j = some s → ¬ Back s := by
  refine ⟨fun h i j s hlt hi hj _ => h.not_returns ⟨i, j, s, hlt, hi, hj⟩, ?_⟩
  intro honce
  refine (stops_iff_not_returns hfin hmem).mpr ?_
  rintro ⟨i, j, s, hlt, hi, hj⟩
  have hclimb : ∀ d t, orbit step a (i + d + 1) = some t → rank s < rank t := by
    intro d
    induction d with
    | zero =>
      intro t ht
      rw [Nat.add_zero, orbit, hi] at ht
      exact hrise i s t hi ht (honce i j s hlt hi hj)
    | succ d ih =>
      intro t ht
      obtain ⟨u, hu, hut⟩ := Option.bind_eq_some_iff.mp ht
      have hagain := orbit_again (d := d + 1) hi hj
      rw [← Nat.add_assoc i] at hagain
      have hback : ¬ Back u :=
        honce (i + d + 1) (j + (d + 1)) u (by omega) hu (hagain.trans hu)
      exact lt_trans (ih u hu) (hrise _ u t hu hut hback)
  obtain ⟨d, rfl⟩ := Nat.exists_eq_add_of_lt hlt
  exact lt_irrefl _ (hclimb d s hj)

end Orbit

section Pass

variable {σ ρ ι : Type} {pass : σ → List ι × (σ ⊕ ρ)} {P : ι → Prop} {s : σ}

/-- The state behind a pass of a loop. -/
def passNext (pass : σ → List ι × (σ ⊕ ρ)) (s : σ) : Option σ := (pass s).2.getLeft?

theorem ends_iff_stops : Ends pass P (fun _ => True) s ↔
    Stops (passNext pass) s ∧
      ∀ n t, orbit (passNext pass) s n = some t → ∀ i ∈ (pass t).1, P i := by
  constructor
  · intro h
    refine Ends.induct (motive := fun s => Stops (passNext pass) s ∧
      ∀ n t, orbit (passNext pass) s n = some t → ∀ i ∈ (pass t).1, P i) h ?_ ?_
    · intro s reads r hpass hreads _
      have hnext : passNext pass s = none := congrArg (fun x => x.2.getLeft?) hpass
      have hone : orbit (passNext pass) s 1 = none := hnext
      refine ⟨stops_of_none hnext, ?_⟩
      intro n t ht
      cases n with
      | zero =>
        cases ht
        rw [hpass]
        exact hreads
      | succ n =>
        rw [orbit_none hone (Nat.le_add_left 1 n)] at ht
        cases ht
    · intro s reads u hpass hreads _ ih
      have hnext : passNext pass s = some u := congrArg (fun x => x.2.getLeft?) hpass
      refine ⟨(stops_iff_of_some hnext).mpr ih.1, ?_⟩
      intro n t ht
      cases n with
      | zero =>
        cases ht
        rw [hpass]
        exact hreads
      | succ n => exact ih.2 n t ((orbit_of_some hnext n).symm.trans ht)
  · rintro ⟨hstops, hall⟩
    refine Stops.induct (motive := fun s =>
      (∀ n t, orbit (passNext pass) s n = some t → ∀ i ∈ (pass t).1, P i) →
        Ends pass P (fun _ => True) s) hstops ?_ ?_ hall
    · intro s hnone hall
      cases hpass : pass s with
      | mk reads after =>
        cases after with
        | inr r =>
          have hreads : ∀ i ∈ (pass s).1, P i := hall 0 s rfl
          rw [hpass] at hreads
          exact (ends_stop hpass).mpr ⟨hreads, trivial⟩
        | inl u =>
          rw [passNext, hpass] at hnone
          cases hnone
    · intro s t hsome _ ih hall
      cases hpass : pass s with
      | mk reads after =>
        have hreads : ∀ i ∈ (pass s).1, P i := hall 0 s rfl
        have hsome' := hsome
        rw [passNext, hpass] at hsome'
        rw [hpass] at hreads
        cases after with
        | inr r => cases hsome'
        | inl u =>
          cases hsome'
          refine (ends_next hpass).mpr ⟨hreads, ih ?_⟩
          exact fun n v hv => hall (n + 1) v ((orbit_of_some hsome n).trans hv)

end Pass

end UBoot.Lib
