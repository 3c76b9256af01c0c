import UBoot.Lib.Memory
import Mathlib.Data.List.TakeWhile

/-!
# The words of a text

`words` cuts a text at its separators: a word is a longest part without one, and it is not empty.
`behindWords` is what is left of the text behind some of its words.

`scanWhile` is the loop that walks over an area with checked access as long as the bytes are of one
kind, and `PointsTo` says what string an index in such an area stands for.
-/

namespace UBoot.Lib

section Words

variable {α : Type} {p : α → Bool} {a : α} {w l : List α}

/-- The longest parts of a text without a separator. -/
def words (p : α → Bool) (l : List α) : List (List α) := (l.splitOnP p).filter fun w => !w.isEmpty

/-- The text behind its first words. -/
def behindWords (p : α → Bool) : Nat → List α → List α
  | 0, l => l
  | n + 1, l => behindWords p n ((l.dropWhile p).dropWhile fun a => !p a)

@[simp] theorem words_nil : words p [] = [] := by
  rw [words, List.splitOnP_nil]
  rfl

theorem words_cons_sep (ha : p a = true) : words p (a :: l) = words p l := by
  have hsplit := List.splitOnP_append_cons [] l ha
  rw [List.nil_append, List.splitOnP_nil] at hsplit
  rw [words, hsplit, List.filter_append]
  rfl

theorem words_of_none (hw : ∀ x ∈ w, p x = false) (hne : w ≠ []) : words p w = [w] := by
  rw [words, List.splitOnP_eq_singleton hw, List.filter_cons_of_pos]
  · rfl
  · simp [hne]

theorem words_append_sep (hw : ∀ x ∈ w, p x = false) (hne : w ≠ []) (ha : p a = true) :
    words p (w ++ a :: l) = w :: words p l := by
  rw [words, List.splitOnP_append_cons_of_forall_mem hw a ha, List.filter_cons_of_pos]
  · rfl
  · simp [hne]

theorem words_append_seps {s : List α} (hs : ∀ x ∈ s, p x = true) :
    words p (s ++ l) = words p l := by
  induction s with
  | nil => rfl
  | cons a s ih =>
    rw [List.cons_append, words_cons_sep (hs a List.mem_cons_self)]
    exact ih fun x hx => hs x (List.mem_cons_of_mem _ hx)

@[simp] theorem behindWords_nil (n : Nat) : behindWords p n [] = [] := by
  induction n with
  | zero => rfl
  | succ n ih => exact ih

theorem behindWords_cons_sep (ha : p a = true) (n : Nat) :
    behindWords p (n + 1) (a :: l) = behindWords p (n + 1) l := by
  rw [behindWords, List.dropWhile_cons_of_pos ha, behindWords]

theorem behindWords_append_seps {s : List α} (hs : ∀ x ∈ s, p x = true) (n : Nat) :
    behindWords p (n + 1) (s ++ l) = behindWords p (n + 1) l := by
  induction s with
  | nil => rfl
  | cons a s ih =>
    rw [List.cons_append, behindWords_cons_sep (hs a List.mem_cons_self)]
    exact ih fun x hx => hs x (List.mem_cons_of_mem _ hx)

theorem behindWords_of_none (hw : ∀ x ∈ w, p x = false) (n : Nat) :
    behindWords p (n + 1) w = [] := by
  have hsecond : (w.dropWhile p).dropWhile (fun a => !p a) = [] := by
    rw [List.dropWhile_eq_nil_iff]
    intro x hx
    rw [hw x (List.dropWhile_suffix p |>.subset hx)]
    rfl
  rw [behindWords, hsecond, behindWords_nil]

theorem behindWords_append_sep (hw : ∀ x ∈ w, p x = false) (hne : w ≠ []) (ha : p a = true)
    (n : Nat) : behindWords p (n + 1) (w ++ a :: l) = behindWords p n (a :: l) := by
  obtain ⟨b, w, rfl⟩ := List.exists_cons_of_ne_nil hne
  have hb : ¬ p b = true := by simp [hw b List.mem_cons_self]
  have hall : ∀ x ∈ b :: w, (!p x) = true := by
    intro x hx
    rw [hw x hx]
    rfl
  rw [behindWords, List.cons_append, List.dropWhile_cons_of_neg hb, ← List.cons_append,
    List.dropWhile_append_of_pos hall, List.dropWhile_cons_of_neg (by simp [ha])]

/-- Separators only; or separators, a word, and nothing behind it or a separator. -/
theorem words_cases (p : α → Bool) (l : List α) :
    (∀ x ∈ l, p x = true) ∨
      ∃ s w rest, (∀ x ∈ s, p x = true) ∧ (∀ x ∈ w, p x = false) ∧ w ≠ [] ∧
        l = s ++ (w ++ rest) ∧ (rest = [] ∨ ∃ a tail, rest = a :: tail ∧ p a = true) := by
  have hs : ∀ x ∈ l.takeWhile p, p x = true := fun x hx => List.mem_takeWhile_imp hx
  have hl : l = l.takeWhile p ++ l.dropWhile p := List.takeWhile_append_dropWhile.symm
  cases hrest : l.dropWhile p with
  | nil =>
    left
    rw [hrest, List.append_nil] at hl
    rwa [← hl] at hs
  | cons b t =>
    right
    have hb : p b = false := by
      have hhead := List.head?_dropWhile_not p l
      rw [hrest] at hhead
      simpa using hhead
    have hword : ∀ x ∈ (b :: t).takeWhile (fun a => !p a), p x = false := by
      intro x hx
      simpa using List.mem_takeWhile_imp hx
    refine ⟨l.takeWhile p, (b :: t).takeWhile fun a => !p a, (b :: t).dropWhile fun a => !p a,
      hs, hword, ?_, ?_, ?_⟩
    · simp [hb]
    · rw [List.takeWhile_append_dropWhile, ← hrest, ← hl]
    · cases hend : (b :: t).dropWhile fun a => !p a with
      | nil => exact .inl rfl
      | cons a tail =>
        have hhead := List.head?_dropWhile_not (fun a => !p a) (b :: t)
        rw [hend] at hhead
        exact .inr ⟨a, tail, rfl, by simpa using hhead⟩

theorem mem_splitOnP {x : α} (hw : w ∈ l.splitOnP p) (hx : x ∈ w) : x ∈ l ∧ p x = false := by
  induction l generalizing w with
  | nil =>
    rw [List.splitOnP_nil, List.mem_singleton] at hw
    subst hw
    cases hx
  | cons a l ih =>
    rw [List.splitOnP_cons_eq_if_modifyHead] at hw
    split at hw
    · rcases List.mem_cons.mp hw with rfl | hw
      · cases hx
      · exact ⟨List.mem_cons_of_mem _ (ih hw hx).1, (ih hw hx).2⟩
    · rename_i ha
      obtain ⟨v, vs, hsplit⟩ := List.exists_cons_of_ne_nil (List.splitOnP_ne_nil p l)
      rw [hsplit, List.modifyHead_cons] at hw
      have hrest : ∀ u ∈ v :: vs, x ∈ u → x ∈ a :: l ∧ p x = false := by
        intro u hu hxu
        rw [← hsplit] at hu
        exact ⟨List.mem_cons_of_mem _ (ih hu hxu).1, (ih hu hxu).2⟩
      rcases List.mem_cons.mp hw with rfl | hw
      · rcases List.mem_cons.mp hx with rfl | hx
        · exact ⟨List.mem_cons_self, by simpa using ha⟩
        · exact hrest v List.mem_cons_self hx
      · exact hrest w (List.mem_cons_of_mem _ hw) hx

/-- A word is a part of the text and holds no separator. -/
theorem mem_of_mem_words {x : α} (hw : w ∈ words p l) (hx : x ∈ w) : x ∈ l ∧ p x = false :=
  mem_splitOnP (List.mem_filter.mp hw).1 hx

end Words

/-! ## Walking over a word -/

/-- `while (cond(m[i])) ++i;` -/
def scanWhile (m : Bytes) (cond : UInt8 → Bool) : Nat → Nat → Exec Nat
  | 0, _ => .error .steps
  | fuel + 1, i => do
    if cond (← load m i) then scanWhile m cond fuel (i + 1) else return i

/-- The walk stops behind the bytes of the kind. -/
theorem scanWhile_cut {cond : UInt8 → Bool} {c : UInt8} {Q : Bytes} (hc : cond c = false) :
    ∀ {s P : Bytes} {fuel i : Nat}, (∀ x ∈ s, cond x = true) → i = P.length → s.length < fuel →
      scanWhile (P ++ (s ++ c :: Q)) cond fuel i = .ok (i + s.length) := by
  intro s
  induction s with
  | nil =>
    intro P fuel i _ hi hfuel
    obtain ⟨fuel, rfl⟩ : ∃ k, fuel = k + 1 := ⟨fuel - 1, by simp at hfuel; omega⟩
    rw [scanWhile, List.nil_append, load_cut hi, ok_bind, hc]
    rfl
  | cons a s ih =>
    intro P fuel i hs hi hfuel
    obtain ⟨fuel, rfl⟩ : ∃ k, fuel = k + 1 := ⟨fuel - 1, by omega⟩
    rw [List.length_cons] at hfuel ⊢
    have hrec : scanWhile (P ++ [a] ++ (s ++ c :: Q)) cond fuel (i + 1) =
        .ok (i + 1 + s.length) := by
      refine ih (fun x hx => hs x (List.mem_cons_of_mem _ hx)) ?_ (by omega)
      rw [List.length_append, hi]
      rfl
    rw [List.append_assoc, List.singleton_append] at hrec
    rw [scanWhile, List.cons_append, load_cut hi, ok_bind, hs a List.mem_cons_self, if_pos rfl,
      hrec]
    congr 1
    omega

/-! ## An area that is cut somewhere

The same accesses, for an area with a name and the cut as an equation. -/

section Cut

variable {m P Q s : Bytes} {c x : UInt8} {i fuel : Nat} {cond : UInt8 → Bool}

theorem load_of_eq (hm : m = P ++ c :: Q) (hi : i = P.length) : load m i = .ok c := by
  rw [hm]
  exact load_cut hi

theorem store_of_eq (hm : m = P ++ c :: Q) (hi : i = P.length) :
    store m i x = .ok (P ++ x :: Q) := by
  rw [hm]
  exact store_cut hi

theorem scanWhile_of_eq (hm : m = P ++ (s ++ c :: Q)) (hi : i = P.length)
    (hs : ∀ x ∈ s, cond x = true) (hc : cond c = false) (hfuel : m.length ≤ fuel) :
    scanWhile m cond fuel i = .ok (i + s.length) := by
  have hlen := congrArg List.length hm
  rw [List.length_append, List.length_append, List.length_cons] at hlen
  rw [hm]
  exact scanWhile_cut hc hs hi (by omega)

end Cut

/-- The string at an index. -/
def PointsTo (m : Bytes) (i : Nat) (s : Bytes) : Prop :=
  ∃ P Q, m = P ++ (s ++ 0 :: Q) ∧ P.length = i

end UBoot.Lib
