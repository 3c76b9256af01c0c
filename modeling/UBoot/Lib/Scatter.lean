import UBoot.Lib.Blocks
import Mathlib.Logic.Function.Basic

/-!
# Data at a list of addresses

`scatter` stores the bytes of a piece of data one by one at the addresses of a list.  A range is
such a list (`scatter_range'`), and a store at the addresses of two lists is two stores
(`scatter_append`).
-/

namespace UBoot.Lib

variable {c : Contents} {as as' : List Nat} {data : Bytes} {a : Nat} {x y : UInt8}

def scatter : Contents → List Nat → Bytes → Contents
  | c, a :: as, b :: data => scatter (Function.update c a b) as data
  | c, _, _ => c

@[simp] theorem scatter_nil (c : Contents) (data : Bytes) : scatter c [] data = c := by
  cases data <;> rfl

@[simp] theorem scatter_nil_data (c : Contents) (as : List Nat) : scatter c as [] = c := by
  cases as <;> rfl

@[simp] theorem scatter_cons (c : Contents) (a : Nat) (as : List Nat) (b : UInt8) (data : Bytes) :
    scatter c (a :: as) (b :: data) = scatter (Function.update c a b) as data := rfl

/-- The other bytes are left alone. -/
theorem scatter_of_notMem (h : a ∉ as) : scatter c as data a = c a := by
  induction as generalizing c data with
  | nil => rw [scatter_nil]
  | cons a' as ih =>
    rw [List.mem_cons, not_or] at h
    cases data with
    | nil => rfl
    | cons b data => rw [scatter_cons, ih h.2, Function.update_of_ne h.1]

theorem scatter_append (c : Contents) (as as' : List Nat) (data : Bytes) :
    scatter c (as ++ as') data =
      scatter (scatter c as (data.take as.length)) as' (data.drop as.length) := by
  induction as generalizing c data with
  | nil => simp
  | cons a as ih =>
    cases data with
    | nil => simp
    | cons b data =>
      rw [List.cons_append, scatter_cons, ih, List.length_cons, List.take_succ_cons,
        List.drop_succ_cons, scatter_cons]

/-- The data goes no further than it is long. -/
theorem scatter_take (c : Contents) (as : List Nat) (data : Bytes) :
    scatter c (as.take data.length) data = scatter c as data := by
  induction as generalizing c data with
  | nil => rw [List.take_nil]
  | cons a as ih =>
    cases data with
    | nil => simp
    | cons b data => rw [List.length_cons, List.take_succ_cons, scatter_cons, scatter_cons, ih]

theorem scatter_take_data (c : Contents) (as : List Nat) (data : Bytes) :
    scatter c as (data.take as.length) = scatter c as data := by
  have h := scatter_append c as [] data
  rw [List.append_nil, scatter_nil] at h
  exact h.symm

theorem storeAt_nil (c : Contents) (pos : Nat) : storeAt c pos [] = c := by
  funext a
  rw [storeAt, if_neg]
  rintro ⟨h₁, h₂⟩
  simp only [List.length_nil] at h₂
  omega

theorem storeAt_cons (c : Contents) (pos : Nat) (b : UInt8) (data : Bytes) :
    storeAt c pos (b :: data) = storeAt (Function.update c pos b) (pos + 1) data := by
  funext a
  have hiff : InRange pos (b :: data).length a ↔ a = pos ∨ InRange (pos + 1) data.length a := by
    rw [InRange, InRange, List.length_cons]
    omega
  rw [storeAt, storeAt]
  by_cases ha : a = pos
  · subst ha
    rw [if_pos (hiff.mpr (Or.inl rfl)), if_neg fun h => absurd h.1 (Nat.not_succ_le_self a),
      Function.update_self, Nat.sub_self, List.getD_cons_zero]
  · rw [Function.update_of_ne ha]
    by_cases hin : InRange (pos + 1) data.length a
    · obtain ⟨k, rfl⟩ : ∃ k, a = pos + 1 + k := ⟨a - (pos + 1), by have := hin.1; omega⟩
      rw [if_pos hin, if_pos (hiff.mpr (Or.inr hin)), Nat.add_sub_cancel_left,
        show pos + 1 + k - pos = k + 1 by omega, List.getD_cons_succ]
    · rw [if_neg hin, if_neg fun h => (hiff.mp h).elim ha hin]

theorem storeAt_append (c : Contents) (pos : Nat) (data data' : Bytes) :
    storeAt c pos (data ++ data') = storeAt (storeAt c pos data) (pos + data.length) data' := by
  induction data generalizing c pos with
  | nil => rw [List.nil_append, storeAt_nil, List.length_nil, Nat.add_zero]
  | cons b data ih =>
    rw [List.cons_append, storeAt_cons, ih, storeAt_cons, List.length_cons, Nat.add_right_comm,
      Nat.add_assoc]

theorem scatter_range' (c : Contents) (pos : Nat) (data : Bytes) :
    scatter c (List.range' pos data.length) data = storeAt c pos data := by
  induction data generalizing c pos with
  | nil => rw [scatter_nil_data, storeAt_nil]
  | cons b data ih =>
    rw [List.length_cons, List.range'_succ, scatter_cons, ih, storeAt_cons]

/-- What is stored at different addresses is what is there. -/
theorem map_scatter (hnodup : as.Nodup) (hlen : as.length = data.length) :
    as.map (scatter c as data) = data := by
  induction as generalizing c data with
  | nil => rw [List.map_nil, List.eq_nil_of_length_eq_zero hlen.symm]
  | cons a as ih =>
    cases data with
    | nil => cases hlen
    | cons b data =>
      rw [List.nodup_cons] at hnodup
      rw [scatter_cons, List.map_cons, scatter_of_notMem hnodup.1, Function.update_self,
        ih hnodup.2 (Nat.succ_inj.mp hlen)]

/-- Where one byte was stored over another one. -/
theorem scatter_replicate_eq_iff (hxy : x ≠ y) :
    scatter (fun _ => x) as (List.replicate as.length y) a = y ↔ a ∈ as := by
  have hmem : ∀ {c : Contents}, a ∈ as → scatter c as (List.replicate as.length y) a = y := by
    intro c ha
    induction as generalizing c with
    | nil => cases ha
    | cons a' as ih =>
      rw [List.length_cons, List.replicate_succ, scatter_cons]
      by_cases hin : a ∈ as
      · exact ih hin
      · rw [scatter_of_notMem hin, (List.mem_cons.mp ha).resolve_right hin, Function.update_self]
  constructor
  · intro h
    by_contra hnot
    rw [scatter_of_notMem hnot] at h
    exact hxy h
  · exact hmem

end UBoot.Lib
