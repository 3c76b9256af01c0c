import Mathlib

/-!
# Queues in a ring of cells

`Queued m top q`: the ring of cells `m` has the queue `q` in it from the cell `top` on, and around
the end.  A value is taken off the front at `top` (`Queued.pop`) and put at the back behind the last
one (`Queued.push`); where the queue fills the ring, the cell behind the last value is `top` itself,
and a value that is put there takes the place of the oldest one (`Queued.replace`).
`lastOf cap l` is what a queue of at most `cap` values keeps of `l`.
-/

namespace UBoot.Lib

variable {α : Type} {m q : List α} {top n : Nat} {c : α}

/-! ## The ring -/

/-- The cell behind a cell. -/
def wrapNext (n p : Nat) : Nat := if p + 1 = n then 0 else p + 1

/-- The cell at a distance from a cell. -/
def wrapAt (n p i : Nat) : Nat := (p + i) % n

theorem wrapNext_lt {p : Nat} (hp : p < n) : wrapNext n p < n := by
  rw [wrapNext]
  split_ifs <;> omega

theorem wrapNext_eq {p : Nat} (hp : p < n) : wrapNext n p = (p + 1) % n := by
  rw [wrapNext]
  by_cases hlast : p + 1 = n
  · rw [if_pos hlast, hlast, Nat.mod_self]
  · rw [if_neg hlast, Nat.mod_eq_of_lt (by omega)]

theorem wrapAt_lt {p : Nat} (hp : p < n) (i : Nat) : wrapAt n p i < n :=
  Nat.mod_lt _ (by omega)

theorem wrapAt_zero {p : Nat} (hp : p < n) : wrapAt n p 0 = p := Nat.mod_eq_of_lt hp

theorem wrapAt_next {p : Nat} (hp : p < n) (i : Nat) :
    wrapAt n (wrapNext n p) i = wrapAt n p (i + 1) := by
  rw [wrapAt, wrapAt, wrapNext_eq hp, Nat.mod_add_mod, Nat.add_assoc, Nat.add_comm 1 i]

theorem wrapNext_wrapAt {p : Nat} (hp : p < n) (i : Nat) :
    wrapNext n (wrapAt n p i) = wrapAt n p (i + 1) := by
  rw [wrapNext_eq (wrapAt_lt hp i), wrapAt, wrapAt, Nat.mod_add_mod, Nat.add_assoc]

theorem wrapAt_wrapAt (n p i j : Nat) : wrapAt n (wrapAt n p i) j = wrapAt n p (i + j) := by
  rw [wrapAt, wrapAt, wrapAt, Nat.mod_add_mod, Nat.add_assoc]

theorem wrapAt_length {p : Nat} (hp : p < n) : wrapAt n p n = p := by
  rw [wrapAt, Nat.add_mod_right, Nat.mod_eq_of_lt hp]

theorem wrapAt_inj {p i j : Nat} (hi : i < n) (hj : j < n) (h : wrapAt n p i = wrapAt n p j) :
    i = j := by
  have hmod : i % n = j % n := Nat.ModEq.add_left_cancel' p h
  rwa [Nat.mod_eq_of_lt hi, Nat.mod_eq_of_lt hj] at hmod

/-! ## A queue in the ring -/

structure Queued (m : List α) (top : Nat) (q : List α) : Prop where
  inside : top < m.length
  fits : q.length ≤ m.length
  get : ∀ i < q.length, m[wrapAt m.length top i]? = q[i]?

theorem queued_nil (h : top < m.length) : Queued m top [] :=
  ⟨h, Nat.zero_le _, fun _ hi => absurd hi (Nat.not_lt_zero _)⟩

theorem Queued.head (h : Queued m top (c :: q)) : m[top]? = some c := by
  have hget := h.get 0 (Nat.zero_lt_succ _)
  rwa [wrapAt_zero h.inside] at hget

theorem Queued.pop (h : Queued m top (c :: q)) : Queued m (wrapNext m.length top) q := by
  refine ⟨wrapNext_lt h.inside, Nat.le_of_succ_le h.fits, ?_⟩
  intro i hi
  rw [wrapAt_next h.inside, h.get (i + 1) (Nat.succ_lt_succ hi), List.getElem?_cons_succ]

theorem Queued.push (h : Queued m top q) (hroom : q.length < m.length) :
    Queued (m.set (wrapAt m.length top q.length) c) top (q ++ [c]) := by
  obtain ⟨hinside, -, hget⟩ := h
  refine ⟨?_, ?_, ?_⟩
  · rwa [List.length_set]
  · rwa [List.length_set, List.length_append, List.length_singleton]
  · intro i hi
    rw [List.length_append, List.length_singleton] at hi
    rw [List.length_set]
    rcases Nat.lt_succ_iff_lt_or_eq.mp hi with hold | rfl
    · have hne : wrapAt m.length top q.length ≠ wrapAt m.length top i := by
        intro heq
        exact Nat.ne_of_lt hold (wrapAt_inj (Nat.lt_trans hold hroom) hroom heq.symm)
      rw [List.getElem?_set_ne hne, hget i hold, List.getElem?_append_left hold]
    · rw [List.getElem?_set_self (wrapAt_lt hinside _), List.getElem?_concat_length]

/-- In a full ring the newest value takes the cell of the oldest one. -/
theorem Queued.replace {a : α} (h : Queued m top (a :: q)) (hfull : (a :: q).length = m.length) :
    Queued (m.set top c) (wrapNext m.length top) (q ++ [c]) := by
  have hroom : q.length < m.length := by
    rw [← hfull]
    exact Nat.lt_succ_self _
  have hcell : wrapAt m.length (wrapNext m.length top) q.length = top := by
    rw [wrapAt_next h.inside, ← List.length_cons (a := a), hfull, wrapAt_length h.inside]
  have hpush := h.pop.push (c := c) hroom
  rwa [hcell] at hpush

/-! ## Queues of a capacity -/

/-- What a queue of at most `cap` values keeps: the last ones. -/
def lastOf (cap : Nat) (l : List α) : List α := l.drop (l.length - cap)

theorem lastOf_of_le {cap : Nat} {l : List α} (h : l.length ≤ cap) : lastOf cap l = l := by
  rw [lastOf, Nat.sub_eq_zero_of_le h, List.drop_zero]

/-- Values that are gone do not come back. -/
theorem lastOf_append (cap : Nat) (l r : List α) :
    lastOf cap (lastOf cap l ++ r) = lastOf cap (l ++ r) := by
  rw [lastOf, lastOf, lastOf, List.length_append, List.length_append, List.length_drop]
  rcases Nat.le_total l.length cap with hle | hge
  · rw [Nat.sub_eq_zero_of_le hle, List.drop_zero, Nat.sub_zero]
  · have hcut : l.drop (l.length - cap) ++ r = (l ++ r).drop (l.length - cap) :=
      (List.drop_append_of_le_length (Nat.sub_le _ _)).symm
    rw [hcut, List.drop_drop]
    congr 1
    omega

/-- A value that is put at the back of a full queue drops the oldest one. -/
theorem lastOf_concat_full {cap : Nat} {a : α} (h : (a :: q).length = cap) :
    lastOf cap (a :: q ++ [c]) = q ++ [c] := by
  have hone : (a :: q ++ [c]).length - cap = 1 := by
    rw [List.length_append, h, List.length_singleton]
    omega
  rw [lastOf, hone]
  rfl

end UBoot.Lib
