import Mathlib.Data.List.Chain
import UBoot.Lib.Memory

/-!
# Packed string lists

The strings `e₁, …, eₙ` of a list, each with its terminator, laid end to end and
closed by one more `\0`, make a *block*.  The last terminator and the closing byte
are the double `\0` that ends the list; a block with no string is the double `\0`
alone.  What stands behind the block in its area does not matter: `Holds m es`
says that the area `m` starts with the block of `es`.

`holds_unique` says the area determines the list, and `Holds.cut` gives the cut at
the start of any of its strings, from where the walks of `Lib/Memory.lean` go on.
-/

namespace UBoot.Lib

/-- The strings with their terminators, end to end. -/
def strings : List Bytes → Bytes
  | [] => []
  | e :: es => e ++ 0 :: strings es

@[simp] theorem strings_nil : strings [] = [] := rfl

@[simp] theorem strings_append (es fs : List Bytes) :
    strings (es ++ fs) = strings es ++ strings fs := by
  induction es with
  | nil => rfl
  | cons e es ih => simp [strings, ih]

theorem strings_singleton (e : Bytes) : strings [e] = e ++ [0] := rfl

/-- The last byte of a nonempty run of strings is a terminator. -/
theorem strings_eq_concat {es : List Bytes} (h : es ≠ []) : ∃ T, strings es = T ++ [0] := by
  rcases List.eq_nil_or_concat es with rfl | ⟨es, e, rfl⟩
  · exact absurd rfl h
  · exact ⟨strings es ++ e, by simp [strings_singleton]⟩

/-- A list entry: a string that is neither empty nor holds a terminator. -/
def IsEntry (e : Bytes) : Prop := e ≠ [] ∧ 0 ∉ e

/-! ### No double terminator inside -/

/-- No two neighbouring bytes are both `\0`. -/
def NoDouble (s : Bytes) : Prop := s.IsChain fun a b => ¬ (a = 0 ∧ b = 0)

theorem NoDouble.tail {c : UInt8} {s : Bytes} (h : NoDouble (c :: s)) : NoDouble s :=
  List.IsChain.tail h

theorem NoDouble.next_ne {d : UInt8} {s : Bytes} (h : NoDouble (0 :: d :: s)) : d ≠ 0 :=
  fun hd => (List.isChain_cons_cons.mp h).1 ⟨rfl, hd⟩

theorem noDouble_of_notMem {s : Bytes} (h : 0 ∉ s) : NoDouble s := by
  induction s with
  | nil => exact .nil
  | cons c s ih =>
    have hs := ih fun h0 => h (List.mem_cons_of_mem _ h0)
    cases s with
    | nil => exact .singleton _
    | cons d s => exact .cons_cons (fun hcd => h (by simp [hcd.1])) hs

/-- The strings of a list of entries hold no double `\0`. -/
theorem noDouble_strings {es : List Bytes} (h : ∀ e ∈ es, IsEntry e) : NoDouble (strings es) := by
  induction es with
  | nil => exact .nil
  | cons e es ih =>
    obtain ⟨hne, h0⟩ := h e (by simp)
    have ih := ih fun x hx => h x (List.mem_cons_of_mem _ hx)
    have htail : NoDouble (0 :: strings es) := by
      cases es with
      | nil => exact .singleton _
      | cons f fs =>
        obtain ⟨hfne, hf0⟩ := h f (by simp)
        obtain ⟨c, f, rfl⟩ := List.exists_cons_of_ne_nil hfne
        exact .cons_cons (fun hc => hf0 (by simp [hc.2])) ih
    refine List.isChain_append.mpr ⟨noDouble_of_notMem h0, htail, ?_⟩
    rintro x hx _ - ⟨rfl, -⟩
    exact h0 (List.mem_of_getLast? hx)

/-! ### Blocks -/

/-- The block of a list of strings. -/
def block (es : List Bytes) : Bytes := strings es ++ if es = [] then [0, 0] else [0]

theorem block_of_ne_nil {es : List Bytes} (h : es ≠ []) : block es = strings es ++ [0] := by
  simp [block, h]

/-- How many bytes a list of strings takes, its double terminator included. -/
theorem length_block (es : List Bytes) :
    (block es).length = (strings es).length + if es = [] then 2 else 1 := by
  by_cases h : es = [] <;> simp [block, h]

/-- **The area `m` holds the list `es`**: it starts with the block of `es`, and
every string of `es` is an entry. -/
structure Holds (m : Bytes) (es : List Bytes) : Prop where
  entry : ∀ e ∈ es, IsEntry e
  starts : ∃ junk, m = block es ++ junk

theorem Holds.length_le {m : Bytes} {es : List Bytes} (h : Holds m es) :
    (block es).length ≤ m.length := by
  obtain ⟨junk, rfl⟩ := h.starts
  simp

/-- The area from the end of the strings on starts with a `\0`. -/
theorem Holds.exists_tail {m : Bytes} {es : List Bytes} (h : Holds m es) :
    ∃ Q, m = strings es ++ 0 :: Q := by
  obtain ⟨junk, rfl⟩ := h.starts
  by_cases he : es = []
  · exact ⟨0 :: junk, by simp [block, he]⟩
  · exact ⟨junk, by simp [block, he]⟩

/-- The cut in front of an entry. -/
theorem Holds.cut {m : Bytes} {pre post : List Bytes} {e : Bytes}
    (h : Holds m (pre ++ e :: post)) :
    ∃ junk, m = strings pre ++ (e ++ 0 :: (strings post ++ 0 :: junk)) := by
  obtain ⟨junk, rfl⟩ := h.starts
  exact ⟨junk, by simp [block, strings]⟩

/-- Two ways to end a string at its first terminator are the same. -/
theorem eq_of_append_nul {s t P Q : Bytes} (hs : 0 ∉ s) (ht : 0 ∉ t)
    (h : s ++ 0 :: P = t ++ 0 :: Q) : s = t ∧ P = Q := by
  induction s generalizing t with
  | nil =>
    cases t with
    | nil => exact ⟨rfl, by simpa using h⟩
    | cons c t =>
      simp only [List.nil_append, List.cons_append, List.cons.injEq] at h
      exact absurd (by simp [h.1]) ht
  | cons c s ih =>
    cases t with
    | nil =>
      simp only [List.nil_append, List.cons_append, List.cons.injEq] at h
      exact absurd (by simp [h.1]) hs
    | cons d t =>
      simp only [List.cons_append, List.cons.injEq] at h
      obtain ⟨rfl, h⟩ := h
      obtain ⟨hst, hPQ⟩ := ih (fun h0 => hs (List.mem_cons_of_mem _ h0))
        (fun h0 => ht (List.mem_cons_of_mem _ h0)) h
      exact ⟨by rw [hst], hPQ⟩

theorem strings_cut_unique : ∀ {es fs : List Bytes} {P Q : Bytes}, (∀ e ∈ es, IsEntry e) →
    (∀ e ∈ fs, IsEntry e) → strings es ++ 0 :: P = strings fs ++ 0 :: Q → es = fs := by
  intro es
  induction es with
  | nil =>
    intro fs P Q _ hf h
    cases fs with
    | nil => rfl
    | cons e fs =>
      obtain ⟨hne, h0⟩ := hf e (by simp)
      obtain ⟨c, e, rfl⟩ := List.exists_cons_of_ne_nil hne
      simp only [strings, List.nil_append, List.cons_append, List.cons.injEq] at h
      exact absurd (by simp [h.1]) h0
  | cons e es ih =>
    intro fs P Q he hf h
    cases fs with
    | nil =>
      obtain ⟨hne, h0⟩ := he e (by simp)
      obtain ⟨c, e, rfl⟩ := List.exists_cons_of_ne_nil hne
      simp only [strings, List.nil_append, List.cons_append, List.cons.injEq] at h
      exact absurd (by simp [h.1]) h0
    | cons f fs =>
      simp only [strings, List.append_assoc, List.cons_append] at h
      obtain ⟨hef, htail⟩ := eq_of_append_nul (he e (by simp)).2 (hf f (by simp)).2 h
      rw [hef, ih (fun x hx => he x (List.mem_cons_of_mem _ hx))
        (fun x hx => hf x (List.mem_cons_of_mem _ hx)) htail]

/-- **An area holds at most one list.** -/
theorem holds_unique {m : Bytes} {es fs : List Bytes} (he : Holds m es) (hf : Holds m fs) :
    es = fs := by
  obtain ⟨P, hP⟩ := he.exists_tail
  obtain ⟨Q, hQ⟩ := hf.exists_tail
  exact strings_cut_unique he.entry hf.entry (hP.symm.trans hQ)

/-- An area from which a string has been removed is not the same area. -/
theorem Holds.ne_of_removed {m m' e : Bytes} {pre post : List Bytes}
    (hm : Holds m (pre ++ e :: post)) (hm' : Holds m' (pre ++ post)) : m' ≠ m := by
  rintro rfl
  have := congrArg List.length (holds_unique hm hm')
  simp at this

end UBoot.Lib
