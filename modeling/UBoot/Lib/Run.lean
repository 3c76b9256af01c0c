import Mathlib

/-!
# Runs of a labelled step relation

A run is recorded as the list of its steps, each with the state it starts from, so that
a condition on the steps can speak of the state before each of them.
-/

namespace UBoot.Lib

variable {σ ε : Type} {step : σ → ε → σ → Prop}

/-- A run from `s` to `t`. -/
inductive Run (step : σ → ε → σ → Prop) (s : σ) : List (σ × ε) → σ → Prop
  | refl : Run step s [] s
  | tail {tr : List (σ × ε)} {t u : σ} {e : ε} (run : Run step s tr t) (last : step t e u) :
      Run step s (tr ++ [(t, e)]) u

/-- What holds at the start and is kept by every step that meets a condition holds at the
end of every run whose steps meet it. -/
theorem Run.invariant (Inv : σ → Prop) (ok : σ → ε → Prop)
    (hstep : ∀ {s e t}, Inv s → ok s e → step s e t → Inv t) {s t : σ} {tr : List (σ × ε)}
    (hrun : Run step s tr t) (hs : Inv s) (hok : ∀ p ∈ tr, ok p.1 p.2) : Inv t := by
  induction hrun with
  | refl => exact hs
  | tail run last ih =>
    have hbefore := ih fun p hp => hok p (List.mem_append_left _ hp)
    exact hstep hbefore (hok _ (List.mem_append_right _ (List.mem_singleton_self _))) last

/-- The same for what speaks of the steps so far. -/
theorem Run.history (Inv : List (σ × ε) → σ → Prop) (ok : σ → ε → Prop)
    (hstep : ∀ {tr s e t}, Inv tr s → ok s e → step s e t → Inv (tr ++ [(s, e)]) t) {s t : σ}
    {tr : List (σ × ε)} (hrun : Run step s tr t) (hs : Inv [] s) (hok : ∀ p ∈ tr, ok p.1 p.2) :
    Inv tr t := by
  induction hrun with
  | refl => exact hs
  | tail run last ih =>
    have hbefore := ih fun p hp => hok p (List.mem_append_left _ hp)
    exact hstep hbefore (hok _ (List.mem_append_right _ (List.mem_singleton_self _))) last

/-! ## A function as the step -/

/-- The steps of a function along a list of events, and the state behind them. -/
def runAll (f : σ → ε → Option σ) (s : σ) : List ε → Option (List (σ × ε) × σ)
  | [] => some ([], s)
  | e :: es => do
    let t ← f s e
    let (tr, u) ← runAll f t es
    return ((s, e) :: tr, u)

theorem Run.cons {s t u : σ} {e : ε} {tr : List (σ × ε)} (first : step s e t)
    (hrun : Run step t tr u) : Run step s ((s, e) :: tr) u := by
  induction hrun with
  | refl => exact .tail .refl first
  | tail run last ih => exact .tail ih last

theorem run_of_runAll {f : σ → ε → Option σ} (hf : ∀ {s e t}, f s e = some t → step s e t)
    {s u : σ} {es : List ε} {tr : List (σ × ε)} (h : runAll f s es = some (tr, u)) :
    Run step s tr u := by
  induction es generalizing s tr with
  | nil =>
    cases h
    exact .refl
  | cons e es ih =>
    obtain ⟨t, hfirst, h⟩ := Option.bind_eq_some_iff.mp h
    obtain ⟨⟨tr', u'⟩, hrest, h⟩ := Option.bind_eq_some_iff.mp h
    cases h
    exact .cons (hf hfirst) (ih hrest)

end UBoot.Lib
