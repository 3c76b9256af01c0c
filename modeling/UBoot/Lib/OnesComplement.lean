import UBoot.Lib.Blocks
import Mathlib.Data.Nat.ModEq

/-!
# One's complement sums

The numbers up to `m`, where a carry out of the top is added at the bottom: `onesAdd`, and
`onesSum` for a list of numbers.  A sum is told by its remainder modulo `m` and by whether it is
zero (`eq_onesSum`), since 0 and `m` are the two ways to write zero.

A text of bytes is summed word by word, with a zero behind an odd last byte.  Which half of a
word comes first does not matter to whether the sum is zero (`wordsBE_modEq`).
-/

namespace UBoot.Lib

section Sums

variable {m a b x : Nat} {l : List Nat}

/-- The sum of two numbers up to `m`, the carry added at the end. -/
def onesAdd (m a b : Nat) : Nat := if a + b ≤ m then a + b else a + b - m

def onesSum (m : Nat) (l : List Nat) : Nat := l.foldl (onesAdd m) 0

theorem onesAdd_le (ha : a ≤ m) (hb : b ≤ m) : onesAdd m a b ≤ m := by
  rw [onesAdd]
  split <;> omega

theorem onesAdd_modEq (m a b : Nat) : onesAdd m a b ≡ a + b [MOD m] := by
  rw [onesAdd]
  split
  · exact Nat.ModEq.refl _
  · rename_i h
    have hsub : a + b - m + m = a + b := by omega
    have hadd : a + b - m + m ≡ a + b - m [MOD m] := by simp [Nat.ModEq]
    rw [hsub] at hadd
    exact hadd.symm

theorem onesAdd_eq_zero_iff : onesAdd m a b = 0 ↔ a = 0 ∧ b = 0 := by
  rw [onesAdd]
  split <;> omega

theorem foldl_onesAdd_le (hl : ∀ y ∈ l, y ≤ m) :
    ∀ {a : Nat}, a ≤ m → l.foldl (onesAdd m) a ≤ m := by
  induction l with
  | nil => intro a ha; exact ha
  | cons b l ih =>
    intro a ha
    rw [List.foldl_cons]
    exact ih (fun y hy => hl y (List.mem_cons_of_mem _ hy))
      (onesAdd_le ha (hl b List.mem_cons_self))

theorem foldl_onesAdd_modEq (m : Nat) (l : List Nat) :
    ∀ a : Nat, l.foldl (onesAdd m) a ≡ a + l.sum [MOD m] := by
  induction l with
  | nil => intro a; exact Nat.ModEq.refl _
  | cons b l ih =>
    intro a
    rw [List.foldl_cons, List.sum_cons, ← Nat.add_assoc]
    exact (ih _).trans ((onesAdd_modEq m a b).add_right _)

theorem foldl_onesAdd_eq_zero_iff (m : Nat) (l : List Nat) :
    ∀ a : Nat, l.foldl (onesAdd m) a = 0 ↔ a + l.sum = 0 := by
  induction l with
  | nil => intro a; simp
  | cons b l ih =>
    intro a
    rw [List.foldl_cons, ih, List.sum_cons]
    have hzero := onesAdd_eq_zero_iff (m := m) (a := a) (b := b)
    omega

theorem onesSum_le (hl : ∀ y ∈ l, y ≤ m) : onesSum m l ≤ m := foldl_onesAdd_le hl (Nat.zero_le m)

theorem onesSum_modEq (m : Nat) (l : List Nat) : onesSum m l ≡ l.sum [MOD m] := by
  simpa [onesSum] using foldl_onesAdd_modEq m l 0

theorem onesSum_eq_zero_iff (m : Nat) (l : List Nat) : onesSum m l = 0 ↔ l.sum = 0 := by
  simpa [onesSum] using foldl_onesAdd_eq_zero_iff m l 0

/-- Two numbers from 1 to `m` with one remainder are the same. -/
theorem eq_of_modEq (ha : 0 < a) (ham : a ≤ m) (hb : 0 < b) (hbm : b ≤ m) (h : a ≡ b [MOD m]) :
    a = b := by
  rcases Nat.lt_or_eq_of_le ham with ha' | rfl
  · rcases Nat.lt_or_eq_of_le hbm with hb' | rfl
    · exact h.eq_of_lt_of_lt ha' hb'
    · have hzero : a % b = 0 := by simpa [Nat.ModEq] using h
      rw [Nat.mod_eq_of_lt ha'] at hzero
      omega
  · have hzero : b % a = 0 := by simpa [Nat.ModEq] using h.symm
    rcases Nat.lt_or_eq_of_le hbm with hb' | rfl
    · rw [Nat.mod_eq_of_lt hb'] at hzero
      omega
    · rfl

/-- **What makes a number the sum.** -/
theorem eq_onesSum (hl : ∀ y ∈ l, y ≤ m) (hx : x ≤ m) (hmod : x ≡ l.sum [MOD m])
    (hzero : x = 0 ↔ l.sum = 0) : x = onesSum m l := by
  have hsum := onesSum_eq_zero_iff m l
  rcases Nat.eq_zero_or_pos x with rfl | hpos
  · exact (hsum.mpr (hzero.mp rfl)).symm
  · have hne : onesSum m l ≠ 0 := by
      intro h
      exact hpos.ne' (hzero.mpr (hsum.mp h))
    exact eq_of_modEq hpos hx (Nat.pos_of_ne_zero hne) (onesSum_le hl)
      (hmod.trans (onesSum_modEq m l).symm)

/-- The sum is the second way to write zero. -/
theorem onesSum_eq_top_iff (hm : 0 < m) (hl : ∀ y ∈ l, y ≤ m) (hpos : 0 < l.sum) :
    onesSum m l = m ↔ l.sum ≡ 0 [MOD m] := by
  have hne : onesSum m l ≠ 0 := by
    intro h
    exact hpos.ne' ((onesSum_eq_zero_iff m l).mp h)
  constructor
  · intro h
    have hmod := onesSum_modEq m l
    rw [h] at hmod
    exact hmod.symm.trans (by simp [Nat.ModEq])
  · intro h
    refine eq_of_modEq (Nat.pos_of_ne_zero hne) (onesSum_le hl) hm (Nat.le_refl m) ?_
    exact ((onesSum_modEq m l).trans h).trans (by simp [Nat.ModEq])

end Sums

/-! ## Words of a text -/

/-- The words of a text, the first byte of each in its upper half. -/
def wordsBE : Bytes → List Nat
  | [] => []
  | [a] => [a.toNat * 256]
  | a :: b :: l => (a.toNat * 256 + b.toNat) :: wordsBE l

/-- The words of a text, the first byte of each in its lower half. -/
def wordsLE : Bytes → List Nat
  | [] => []
  | [a] => [a.toNat]
  | a :: b :: l => (a.toNat + b.toNat * 256) :: wordsLE l

theorem wordsBE_le (l : Bytes) : ∀ y ∈ wordsBE l, y ≤ 65535 := by
  induction l using wordsBE.induct with
  | case1 => simp [wordsBE]
  | case2 a =>
    have ha := a.toNat_lt
    simp only [wordsBE, List.mem_singleton]
    intro y hy
    omega
  | case3 a b l ih =>
    have ha := a.toNat_lt
    have hb := b.toNat_lt
    simp only [wordsBE, List.mem_cons]
    rintro y (rfl | hy)
    · omega
    · exact ih y hy

/-- The order of the bytes in a word only multiplies the sum. -/
theorem wordsBE_modEq (l : Bytes) : (wordsBE l).sum ≡ 256 * (wordsLE l).sum [MOD 65535] := by
  induction l using wordsBE.induct with
  | case1 => exact Nat.ModEq.refl _
  | case2 a =>
    rw [wordsBE, wordsLE, List.sum_singleton, List.sum_singleton, Nat.mul_comm]
  | case3 a b l ih =>
    rw [wordsBE, wordsLE, List.sum_cons, List.sum_cons, Nat.mul_add]
    refine Nat.ModEq.add ?_ ih
    simp only [Nat.ModEq]
    omega

theorem wordsBE_zero_iff (l : Bytes) :
    (wordsBE l).sum ≡ 0 [MOD 65535] ↔ (wordsLE l).sum ≡ 0 [MOD 65535] := by
  have h := wordsBE_modEq l
  simp only [Nat.ModEq] at h ⊢
  omega

theorem sum_wordsBE_eq_zero_iff (l : Bytes) : (wordsBE l).sum = 0 ↔ (wordsLE l).sum = 0 := by
  induction l using wordsBE.induct with
  | case1 => simp [wordsBE, wordsLE]
  | case2 a =>
    simp only [wordsBE, wordsLE, List.sum_singleton]
    omega
  | case3 a b l ih =>
    simp only [wordsBE, wordsLE, List.sum_cons]
    omega

/-- A text with its checksum in it adds up to the second zero. -/
def Checksummed (l : Bytes) : Prop := onesSum 65535 (wordsBE l) = 65535

instance (l : Bytes) : Decidable (Checksummed l) := inferInstanceAs (Decidable (_ = _))

theorem checksummed_iff {l : Bytes} (hpos : 0 < (wordsLE l).sum) :
    Checksummed l ↔ (wordsLE l).sum ≡ 0 [MOD 65535] := by
  have hne : 0 < (wordsBE l).sum := by
    have h := sum_wordsBE_eq_zero_iff l
    omega
  rw [Checksummed, onesSum_eq_top_iff (by decide) (wordsBE_le l) hne, wordsBE_zero_iff]

end UBoot.Lib
