import UBoot.Lib.Flash
import Mathlib.Data.List.Range

/-!
# Ranges and blocks of an address space

The contents of a device is a function from addresses to bytes.  `readAt` reads a range
of it and `storeAt` overwrites one; `eraseAt` and `programAt` are the two operations of
flash, and `programAt_eraseAt` says that an erase followed by a write of the whole range
is a store.

A piece of data that skips unusable blocks lies in a list of blocks of one size, in
order but with gaps.  `readBlocks` and `storeBlocks` read and write it; the blocks are
`Apart` when no two of them overlap, and then what is stored is what is read
(`readBlocks_storeBlocks`).
-/

namespace UBoot.Lib

abbrev Contents := Nat → UInt8

/-- The address lies in the range. -/
def InRange (pos len a : Nat) : Prop := pos ≤ a ∧ a < pos + len

instance (pos len a : Nat) : Decidable (InRange pos len a) := inferInstanceAs (Decidable (_ ∧ _))

def readAt (c : Contents) (pos len : Nat) : Bytes := (List.range' pos len).map c

def storeAt (c : Contents) (pos : Nat) (data : Bytes) : Contents := fun a =>
  if InRange pos data.length a then data.getD (a - pos) 0 else c a

def eraseAt (c : Contents) (pos len : Nat) : Contents := fun a =>
  if InRange pos len a then 0xFF else c a

def programAt (c : Contents) (pos : Nat) (data : Bytes) : Contents := fun a =>
  if InRange pos data.length a then c a &&& data.getD (a - pos) 0 else c a

@[simp] theorem length_readAt (c : Contents) (pos len : Nat) : (readAt c pos len).length = len := by
  simp [readAt]

theorem readAt_add (c : Contents) (pos m n : Nat) :
    readAt c pos (m + n) = readAt c pos m ++ readAt c (pos + m) n := by
  rw [readAt, readAt, readAt, ← List.map_append, List.range'_append_1]

theorem take_readAt (c : Contents) (pos len n : Nat) :
    (readAt c pos len).take n = readAt c pos (min n len) := by
  rcases Nat.le_total n len with h | h
  · rw [Nat.min_eq_left h]
    conv_lhs => rw [← Nat.add_sub_of_le h, readAt_add]
    exact List.take_left' (length_readAt c pos n)
  · rw [Nat.min_eq_right h, List.take_of_length_le (by simpa using h)]

theorem drop_readAt {c : Contents} {pos len n : Nat} (h : n ≤ len) :
    (readAt c pos len).drop n = readAt c (pos + n) (len - n) := by
  conv_lhs => rw [← Nat.add_sub_of_le h, readAt_add]
  exact List.drop_left' (length_readAt c pos n)

theorem readAt_congr {c d : Contents} {pos len : Nat} (h : ∀ a, InRange pos len a → c a = d a) :
    readAt c pos len = readAt d pos len := by
  apply List.map_congr_left
  intro a ha
  exact h a (by simpa [InRange] using List.mem_range'_1.mp ha)

theorem getElem?_readAt {c : Contents} {pos len i : Nat} (h : i < len) :
    (readAt c pos len)[i]? = some (c (pos + i)) := by
  rw [readAt, List.getElem?_map, List.getElem?_range' h]
  simp

theorem readAt_storeAt (c : Contents) (pos : Nat) (data : Bytes) :
    readAt (storeAt c pos data) pos data.length = data := by
  apply List.ext_getElem?
  intro i
  by_cases h : i < data.length
  · have hin : InRange pos data.length (pos + i) := ⟨by omega, by omega⟩
    rw [getElem?_readAt h, storeAt, if_pos hin, Nat.add_sub_cancel_left, List.getD_eq_getElem?_getD,
      List.getElem?_eq_getElem h, Option.getD_some]
  · rw [List.getElem?_eq_none (by simpa using h), List.getElem?_eq_none (by simpa using h)]

theorem storeAt_of_not_inRange {c : Contents} {pos a : Nat} {data : Bytes}
    (h : ¬ InRange pos data.length a) : storeAt c pos data a = c a := if_neg h

theorem readAt_storeAt_apart {c : Contents} {pos i len : Nat} {data : Bytes}
    (hapart : i + len ≤ pos ∨ pos + data.length ≤ i) :
    readAt (storeAt c pos data) i len = readAt c i len := by
  apply readAt_congr
  rintro a ⟨hlo, hhi⟩
  apply storeAt_of_not_inRange
  rintro ⟨hlo', hhi'⟩
  omega

theorem programAt_of_not_inRange {c : Contents} {pos a : Nat} {data : Bytes}
    (h : ¬ InRange pos data.length a) : programAt c pos data a = c a := if_neg h

theorem readAt_programAt_apart {c : Contents} {pos i len : Nat} {data : Bytes}
    (hapart : i + len ≤ pos ∨ pos + data.length ≤ i) :
    readAt (programAt c pos data) i len = readAt c i len := by
  apply readAt_congr
  rintro a ⟨hlo, hhi⟩
  apply programAt_of_not_inRange
  rintro ⟨hlo', hhi'⟩
  omega

/-- Programming a blank range overwrites it. -/
theorem programAt_blank {c : Contents} {pos : Nat} {data : Bytes}
    (h : ∀ a, InRange pos data.length a → c a = 0xFF) :
    programAt c pos data = storeAt c pos data := by
  funext a
  rw [programAt, storeAt]
  split
  · rename_i hin
    rw [h a hin, UInt8.and_comm]
    exact UInt8.and_neg_one
  · rfl

/-- An erase and a write of the whole range overwrite it. -/
theorem programAt_eraseAt (c : Contents) (pos : Nat) (data : Bytes) :
    programAt (eraseAt c pos data.length) pos data = storeAt c pos data := by
  funext a
  rw [programAt, storeAt, eraseAt]
  split
  · rw [UInt8.and_comm]
    exact UInt8.and_neg_one
  · rfl

/-! ## Blocks -/

variable {E : Nat} {c : Contents} {bs : List Nat} {data : Bytes}

def readBlocks (E : Nat) (c : Contents) (bs : List Nat) : Bytes := bs.flatMap (readAt c · E)

def storeBlocks (E : Nat) : Contents → List Nat → Bytes → Contents
  | c, [], _ => c
  | c, b :: bs, data => storeBlocks E (storeAt c b (data.take E)) bs (data.drop E)

/-- No two of the blocks overlap, and they are in order. -/
def Apart (E : Nat) (bs : List Nat) : Prop := bs.Pairwise fun a b => a + E ≤ b

@[simp] theorem readBlocks_cons (E : Nat) (c : Contents) (b : Nat) (bs : List Nat) :
    readBlocks E c (b :: bs) = readAt c b E ++ readBlocks E c bs := rfl

@[simp] theorem length_readBlocks (E : Nat) (c : Contents) (bs : List Nat) :
    (readBlocks E c bs).length = bs.length * E := by
  induction bs with
  | nil => simp [readBlocks]
  | cons b bs ih =>
    rw [readBlocks_cons, List.length_append, length_readAt, ih, List.length_cons,
      Nat.add_one_mul, Nat.add_comm]

/-- A store to other blocks is not seen. -/
theorem storeBlocks_of_not_inRange {a : Nat} (h : ∀ b ∈ bs, ¬ InRange b E a) :
    storeBlocks E c bs data a = c a := by
  induction bs generalizing c data with
  | nil => rfl
  | cons b bs ih =>
    rw [storeBlocks, ih fun b' hb' => h b' (List.mem_cons_of_mem _ hb'), storeAt, if_neg]
    rintro ⟨h₁, h₂⟩
    rw [List.length_take] at h₂
    exact h b (by simp) ⟨h₁, by omega⟩

/-- Bytes behind the last block are not stored. -/
theorem storeBlocks_append {tail : Bytes} (hlen : data.length = bs.length * E) :
    storeBlocks E c bs (data ++ tail) = storeBlocks E c bs data := by
  induction bs generalizing c data with
  | nil => rfl
  | cons b bs ih =>
    rw [List.length_cons, Nat.add_one_mul] at hlen
    rw [storeBlocks, storeBlocks, List.take_append_of_le_length (by omega),
      List.drop_append_of_le_length (by omega), ih (by rw [List.length_drop]; omega)]

/-- **What is stored is what is read.** -/
theorem readBlocks_storeBlocks (hapart : Apart E bs) (hlen : data.length = bs.length * E) :
    readBlocks E (storeBlocks E c bs data) bs = data := by
  induction bs generalizing c data with
  | nil =>
    obtain rfl : data = [] := List.eq_nil_of_length_eq_zero (by simpa using hlen)
    rfl
  | cons b bs ih =>
    obtain ⟨hb, hbs⟩ := List.pairwise_cons.mp hapart
    have hle : E ≤ data.length := by
      rw [hlen, List.length_cons, Nat.add_one_mul]
      omega
    have htake : (data.take E).length = E := by rw [List.length_take, Nat.min_eq_left hle]
    have hrest : (data.drop E).length = bs.length * E := by
      rw [List.length_drop, hlen, List.length_cons, Nat.add_one_mul]
      omega
    have hfirst : readAt (storeBlocks E (storeAt c b (data.take E)) bs (data.drop E)) b E =
        data.take E := by
      rw [readAt_congr (d := storeAt c b (data.take E))]
      · conv_rhs => rw [← readAt_storeAt c b (data.take E), htake]
      · intro a ha
        apply storeBlocks_of_not_inRange
        intro b' hb'
        have := hb b' hb'
        rintro ⟨h₁, -⟩
        have := ha.2
        omega
    rw [readBlocks_cons, storeBlocks, hfirst, ih hbs hrest, List.take_append_drop]

/-- The byte at an index of the data, found by its block. -/
theorem getElem?_readBlocks (hE : 0 < E) {k : Nat} :
    (readBlocks E c bs)[k]? = (bs[k / E]?).map fun b => c (b + k % E) := by
  induction bs generalizing k with
  | nil => simp [readBlocks]
  | cons b bs ih =>
    rw [readBlocks_cons]
    by_cases hk : k < E
    · rw [List.getElem?_append_left (by simpa using hk), getElem?_readAt hk,
        Nat.div_eq_of_lt hk, Nat.mod_eq_of_lt hk]
      rfl
    · have hle : E ≤ k := Nat.le_of_not_lt hk
      have hdiv : k / E = (k - E) / E + 1 := by
        rw [Nat.div_eq_sub_div hE hle]
      have hmod : k % E = (k - E) % E := Nat.mod_eq_sub_mod hle
      rw [List.getElem?_append_right (by simpa using hle), length_readAt, ih, hdiv, hmod,
        List.getElem?_cons_succ]

/-- The index of a byte in the data of the blocks. -/
theorem exists_index_of_inRange (hE : 0 < E) {a b : Nat} (hb : b ∈ bs) (ha : InRange b E a) :
    ∃ i, bs[i / E]? = some b ∧ a = b + i % E ∧ ∀ c, (readBlocks E c bs)[i]? = some (c a) := by
  obtain ⟨hle, hlt⟩ := ha
  obtain ⟨j, hj⟩ := List.getElem?_of_mem hb
  have hdiv : (a - b + E * j) / E = j := by
    rw [Nat.add_mul_div_left _ _ hE, Nat.div_eq_of_lt (by omega), Nat.zero_add]
  have hmod : b + (a - b + E * j) % E = a := by
    rw [Nat.add_mul_mod_self_left, Nat.mod_eq_of_lt (by omega)]
    omega
  refine ⟨a - b + E * j, hdiv.symm ▸ hj, hmod.symm, ?_⟩
  intro c
  rw [getElem?_readBlocks hE, hdiv, hj, Option.map_some, hmod]

end UBoot.Lib
