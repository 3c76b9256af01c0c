import Mathlib

/-!
# Byte areas with checked access

A fixed array of bytes that a C program walks over with pointers is here a list
`m` together with indices into it.  `load` and `store` are the only ways to touch
it, and an index at or behind the end is a `Fault`; so "the program stays inside
its array" is the statement that a run of it is not a fault.

The walks are stated at a *cut* of the area: `m = P ++ c :: Q` and the index is
`P.length`.  `load_cut` and `store_cut` say what one access does there, and the
two loops of C string code, `scanNul` (walk to the terminator) and `storeStr`
(copy a string with its terminator), get one lemma each in the same form.
-/

namespace UBoot.Lib

abbrev Bytes := List UInt8

/-- An access outside the area, or a walk that has used up its steps. -/
inductive Fault
  | load (i : Nat)
  | store (i : Nat)
  | steps
  deriving DecidableEq, Repr

abbrev Exec := Except Fault

@[simp] theorem ok_bind {α β : Type} (a : α) (f : α → Exec β) :
    (Except.ok a >>= f : Exec β) = f a := rfl

@[simp] theorem error_bind {α β : Type} (e : Fault) (f : α → Exec β) :
    ((Except.error e : Exec α) >>= f) = .error e := rfl

/-- A sequence that returns has returned at its first step. -/
theorem bind_eq_ok {ε α β : Type} {x : Except ε α} {f : α → Except ε β} {b : β} :
    (x >>= f) = .ok b ↔ ∃ a, x = .ok a ∧ f a = .ok b := by
  cases x with
  | error e =>
    constructor
    · intro h
      cases h
    · rintro ⟨a, h, -⟩
      cases h
  | ok a =>
    constructor
    · intro h
      exact ⟨a, rfl, h⟩
    · rintro ⟨a', h, hf⟩
      cases h
      exact hf

/-! ## One access -/

/-- `m[i]`. -/
def load (m : Bytes) (i : Nat) : Exec UInt8 :=
  match m[i]? with
  | some c => .ok c
  | none => .error (.load i)

/-- `m[i] = c`. -/
def store (m : Bytes) (i : Nat) (c : UInt8) : Exec Bytes :=
  if i < m.length then .ok (m.set i c) else .error (.store i)

theorem load_cut {P Q : Bytes} {c : UInt8} {i : Nat} (hi : i = P.length) :
    load (P ++ c :: Q) i = .ok c := by
  subst hi
  simp [load]

theorem load_eq_ok_iff {m : Bytes} {i : Nat} {c : UInt8} :
    load m i = .ok c ↔ ∃ Q, m.drop i = c :: Q := by
  unfold load
  constructor
  · intro h
    split at h
    · next c' hc =>
      cases h
      obtain ⟨hlt, hget⟩ := List.getElem?_eq_some_iff.mp hc
      exact ⟨m.drop (i + 1), by rw [← hget, List.drop_eq_getElem_cons hlt]⟩
    · cases h
  · rintro ⟨Q, hQ⟩
    have hget : m[i]? = some c := by
      rw [← Nat.add_zero i, ← List.getElem?_drop, hQ]
      rfl
    rw [hget]

/-- What is behind a part of the area. -/
theorem drop_add_of_eq {m p Q : Bytes} {i : Nat} (h : m.drop i = p ++ Q) :
    m.drop (i + p.length) = Q := by
  rw [← List.drop_drop, h, List.drop_left]

theorem load_eq_getD {m : Bytes} {i : Nat} (h : i < m.length) : load m i = .ok (m.getD i 0) := by
  rw [load, List.getD_eq_getElem?_getD, List.getElem?_eq_getElem h]
  rfl

theorem lt_of_load {m : Bytes} {i : Nat} {c : UInt8} (h : load m i = .ok c) :
    i < m.length ∧ c = m.getD i 0 := by
  unfold load at h
  split at h
  · next c' hc =>
    cases h
    obtain ⟨hlt, hget⟩ := List.getElem?_eq_some_iff.mp hc
    exact ⟨hlt, by rw [List.getD_eq_getElem?_getD, hc, Option.getD_some]⟩
  · cases h

theorem store_cut {P Q : Bytes} {c x : UInt8} {i : Nat} (hi : i = P.length) :
    store (P ++ c :: Q) i x = .ok (P ++ x :: Q) := by
  subst hi
  simp [store]

theorem length_of_store {m m' : Bytes} {i : Nat} {c : UInt8} (h : store m i c = .ok m') :
    m'.length = m.length := by
  simp only [store] at h
  split at h
  · cases h
    simp
  · cases h

/-- Cut the first `n` bytes off. -/
theorem exists_split {m : Bytes} {n : Nat} (h : n ≤ m.length) :
    ∃ A B, m = A ++ B ∧ A.length = n :=
  ⟨m.take n, m.drop n, (List.take_append_drop n m).symm, by simp [h]⟩

/-! ## Walking to a terminator -/

/-- `for (p = i; m[p]; ++p) if (stop p) return NULL;` with `none` for the early
return. -/
def scanNul (m : Bytes) (stop : Nat → Bool) : Nat → Nat → Exec (Option Nat)
  | 0, _ => .error .steps
  | fuel + 1, i => do
    if (← load m i) = 0 then
      return some i
    else if stop i then
      return none
    else
      scanNul m stop fuel (i + 1)

/-- The walk over a string `s` stops at its terminator. -/
theorem scanNul_cut {stop : Nat → Bool} {Q : Bytes} :
    ∀ {s P : Bytes} {fuel i : Nat}, 0 ∉ s → i = P.length → s.length < fuel →
      (∀ j, j < P.length + s.length → stop j = false) →
      scanNul (P ++ (s ++ 0 :: Q)) stop fuel i = .ok (some (i + s.length)) := by
  intro s
  induction s with
  | nil =>
    intro P fuel i _ hi hf _
    obtain ⟨fuel, rfl⟩ : ∃ k, fuel = k + 1 := ⟨fuel - 1, by simp at hf; omega⟩
    rw [scanNul, List.nil_append, load_cut hi, ok_bind, if_pos rfl]
    rfl
  | cons c s ih =>
    intro P fuel i h0 hi hf hstop
    obtain ⟨fuel, rfl⟩ : ∃ k, fuel = k + 1 := ⟨fuel - 1, by omega⟩
    have hc : c ≠ 0 := fun h => h0 (by simp [h])
    have hs : stop i = false := hstop i (by subst hi; simp)
    have hrec : scanNul (P ++ [c] ++ (s ++ 0 :: Q)) stop fuel (i + 1) =
        .ok (some (i + 1 + s.length)) := by
      apply ih (fun h => h0 (List.mem_cons_of_mem _ h)) (by simp [hi])
      · simp only [List.length_cons] at hf
        omega
      · intro j hj
        apply hstop
        simp only [List.length_append, List.length_cons, List.length_nil] at hj ⊢
        omega
    simp only [List.append_assoc, List.singleton_append] at hrec
    rw [scanNul, List.cons_append, load_cut hi, ok_bind, if_neg hc, hs, if_neg (by simp), hrec]
    congr 2
    simp only [List.length_cons]
    omega

/-! ## Copying a string -/

/-- `while ((m[i] = *s++) != '\0') i++;`, the string `s` given without its
terminator.  The index returned is that of the terminator. -/
def storeStr (m : Bytes) (i : Nat) : Bytes → Exec (Bytes × Nat)
  | [] => do return (← store m i 0, i)
  | c :: s => do
    let m ← store m i c
    storeStr m (i + 1) s

theorem storeStr_cut {Q : Bytes} :
    ∀ {s old P : Bytes} {i : Nat}, i = P.length → old.length = s.length + 1 →
      storeStr (P ++ (old ++ Q)) i s = .ok (P ++ (s ++ 0 :: Q), i + s.length) := by
  intro s
  induction s with
  | nil =>
    intro old P i hi hold
    obtain ⟨c, rfl⟩ := List.length_eq_one_iff.mp (by simpa using hold)
    rw [storeStr, List.singleton_append, store_cut hi]
    rfl
  | cons a s ih =>
    intro old P i hi hold
    obtain ⟨c, old, rfl⟩ : ∃ c t, old = c :: t := by
      cases old with
      | nil => simp at hold
      | cons c t => exact ⟨c, t, rfl⟩
    have hrec : storeStr (P ++ [a] ++ (old ++ Q)) (i + 1) s =
        .ok (P ++ [a] ++ (s ++ 0 :: Q), i + 1 + s.length) :=
      ih (by simp [hi]) (by simpa using hold)
    simp only [List.append_assoc, List.singleton_append] at hrec
    rw [storeStr, List.cons_append, store_cut hi, ok_bind, hrec]
    simp only [List.cons_append, List.length_cons, Nat.add_assoc, Nat.add_comm 1]

theorem length_of_storeStr : ∀ {s m m' : Bytes} {i j : Nat},
    storeStr m i s = .ok (m', j) → m'.length = m.length := by
  intro s
  induction s with
  | nil =>
    intro m m' i j h
    obtain ⟨m₁, h₁, h₂⟩ := bind_eq_ok.mp h
    cases h₂
    exact length_of_store h₁
  | cons c s ih =>
    intro m m' i j h
    obtain ⟨m₁, h₁, h₂⟩ := bind_eq_ok.mp h
    rw [ih h₂, length_of_store h₁]

/-! ## Comparing with a string -/

/-- `strcmp(&m[i], s) == 0`. -/
def strEq (m : Bytes) : Nat → Bytes → Exec Bool
  | i, [] => do return decide ((← load m i) = 0)
  | i, c :: s => do
    if (← load m i) = c then strEq m (i + 1) s else return false

/-- The string that starts at `i`. -/
def strAt (m : Bytes) : Nat → Nat → Exec Bytes
  | 0, _ => .error .steps
  | fuel + 1, i => do
    let c ← load m i
    if c = 0 then return [] else return c :: (← strAt m fuel (i + 1))

theorem strAt_cut {Q : Bytes} : ∀ {s P : Bytes} {fuel i : Nat}, 0 ∉ s → i = P.length →
    s.length < fuel → strAt (P ++ (s ++ 0 :: Q)) fuel i = .ok s := by
  intro s
  induction s with
  | nil =>
    intro P fuel i _ hi hf
    obtain ⟨fuel, rfl⟩ : ∃ k, fuel = k + 1 := ⟨fuel - 1, by simp at hf; omega⟩
    rw [strAt, List.nil_append, load_cut hi, ok_bind, if_pos rfl]
    rfl
  | cons c s ih =>
    intro P fuel i h0 hi hf
    obtain ⟨fuel, rfl⟩ : ∃ k, fuel = k + 1 := ⟨fuel - 1, by omega⟩
    have hc : c ≠ 0 := fun h => h0 (by simp [h])
    have hrec : strAt (P ++ [c] ++ (s ++ 0 :: Q)) fuel (i + 1) = .ok s := by
      apply ih (fun h => h0 (List.mem_cons_of_mem _ h)) (by simp [hi])
      simp only [List.length_cons] at hf
      omega
    simp only [List.append_assoc, List.singleton_append] at hrec
    rw [strAt, List.cons_append, load_cut hi, ok_bind, if_neg hc, hrec]
    rfl

/-! ## The string at the start -/

/-- The string that starts an area. -/
def cstr (m : Bytes) : Bytes := m.takeWhile (· ≠ 0)

theorem zero_not_mem_cstr (m : Bytes) : 0 ∉ cstr m := by
  induction m with
  | nil => exact List.not_mem_nil
  | cons c m ih =>
    unfold cstr
    rw [List.takeWhile_cons]
    split
    · rename_i hc
      intro h
      rcases List.mem_cons.mp h with rfl | h
      · simp at hc
      · exact ih h
    · exact List.not_mem_nil

theorem cstr_append {s rest : Bytes} (h0 : 0 ∉ s) : cstr (s ++ 0 :: rest) = s := by
  have hall : ∀ c ∈ s, decide (c ≠ 0) = true := by
    intro c hc
    exact decide_eq_true fun h => h0 (h ▸ hc)
  rw [cstr, List.takeWhile_append_of_pos hall, List.takeWhile_cons_of_neg (by simp),
    List.append_nil]

/-- An area with a terminator is its string and what is behind it. -/
theorem exists_cstr {m : Bytes} (h : 0 ∈ m) : ∃ rest, m = cstr m ++ 0 :: rest := by
  obtain ⟨s, rest, rfl, h0⟩ := List.eq_append_cons_of_mem h
  exact ⟨rest, by rw [cstr_append h0]⟩

theorem length_cstr_lt {m : Bytes} (h : 0 ∈ m) : (cstr m).length < m.length := by
  obtain ⟨rest, hm⟩ := exists_cstr h
  have := congrArg List.length hm
  rw [List.length_append, List.length_cons] at this
  omega

theorem strAt_zero {m : Bytes} (h : 0 ∈ m) : strAt m (m.length + 1) 0 = .ok (cstr m) := by
  obtain ⟨rest, hm⟩ := exists_cstr h
  have hlen := length_cstr_lt h
  have := @strAt_cut rest (cstr m) [] (m.length + 1) 0 (zero_not_mem_cstr m) rfl (by omega)
  rwa [List.nil_append, ← hm] at this

/-- A string that fits is copied to the start. -/
theorem storeStr_zero {m s : Bytes} (h : s.length < m.length) :
    ∃ rest, storeStr m 0 s = .ok (s ++ 0 :: rest, s.length) ∧
      (s ++ 0 :: rest).length = m.length := by
  obtain ⟨old, rest, rfl, hold⟩ := @exists_split m (s.length + 1) h
  have := @storeStr_cut rest s old [] 0 rfl hold
  rw [List.nil_append, List.nil_append, Nat.zero_add] at this
  refine ⟨rest, this, ?_⟩
  rw [List.length_append, List.length_append, List.length_cons]
  omega

end UBoot.Lib
