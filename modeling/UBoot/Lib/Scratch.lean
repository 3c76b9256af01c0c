import UBoot.Lib.Memory

/-!
# Strings in a local array

An array of a fixed size whose bytes are not set at first.  Reading a byte that has not been
written is a `Fault`, as is an access outside.  `StrAt m i s` says that the string `s` lies at `i`
with its terminator; the functions of C on strings get one lemma each in this form.
-/

namespace UBoot.Lib

/-- An array; a byte that has not been written is `none`. -/
abbrev Cells := List (Option UInt8)

/-- An array of which nothing has been written. -/
def Cells.fresh (size : Nat) : Cells := List.replicate size none

/-- `m[i]` -/
def loadCell (m : Cells) (i : Nat) : Exec UInt8 :=
  match m[i]? with
  | some (some c) => .ok c
  | _ => .error (.load i)

/-- `m[i] = c` -/
def storeCell (m : Cells) (i : Nat) (c : UInt8) : Exec Cells :=
  if i < m.length then .ok (m.set i (some c)) else .error (.store i)

/-- `strcpy(&m[i], s)` -/
def strcpyCells (m : Cells) (i : Nat) : Bytes → Exec Cells
  | [] => storeCell m i 0
  | c :: s => do strcpyCells (← storeCell m i c) (i + 1) s

/-- `strncpy(&m[i], &src[i], count)`, which does not fill up with zeros. -/
def strncpyCells (src : Nat → Exec UInt8) (m : Cells) (i : Nat) : Nat → Exec Cells
  | 0 => .ok m
  | count + 1 => do
    let c ← src i
    let m ← storeCell m i c
    if c = 0 then return m else strncpyCells src m (i + 1) count

/-- The string at `m[i]`. -/
def cellsStr (m : Cells) : Nat → Nat → Exec Bytes
  | 0, _ => .error .steps
  | fuel + 1, i => do
    let c ← loadCell m i
    if c = 0 then return [] else return c :: (← cellsStr m fuel (i + 1))

/-- `strchr(&m[i], c)` -/
def strchrCells (m : Cells) (c : UInt8) : Nat → Nat → Exec (Option Nat)
  | 0, _ => .error .steps
  | fuel + 1, i => do
    let x ← loadCell m i
    if x = c then return some i
    else if x = 0 then return none
    else strchrCells m c fuel (i + 1)

/-- The string of at most so many characters that begins with `f i`. -/
def strUpTo (f : Nat → UInt8) (i : Nat) : Nat → Bytes
  | 0 => []
  | count + 1 => if f i = 0 then [] else f i :: strUpTo f (i + 1) count

/-- The string `s` lies at `i`. -/
def StrAt (m : Cells) (i : Nat) (s : Bytes) : Prop :=
  ∀ j ≤ s.length, m[i + j]? = some (some (s.getD j 0))

section Cells

variable {m m' : Cells} {s : Bytes} {c x : UInt8} {i j n fuel : Nat}

@[simp] theorem Cells.length_fresh (size : Nat) : (Cells.fresh size).length = size :=
  List.length_replicate

theorem loadCell_eq (h : m[i]? = some (some c)) : loadCell m i = .ok c := by
  rw [loadCell, h]

theorem storeCell_eq (h : i < m.length) : storeCell m i c = .ok (m.set i (some c)) := if_pos h

theorem storeCell_outside (h : m.length ≤ i) : storeCell m i c = .error (.store i) :=
  if_neg (Nat.not_lt.mpr h)

theorem length_of_storeCell (h : storeCell m i c = .ok m') : m'.length = m.length := by
  rw [storeCell] at h
  split at h
  · cases h
    exact List.length_set
  · cases h

/-! ## A string -/

theorem StrAt.head (h : StrAt m i s) : m[i]? = some (some (s.getD 0 0)) := h 0 (Nat.zero_le _)

theorem StrAt.tail (h : StrAt m i (c :: s)) : StrAt m (i + 1) s := by
  intro j hj
  have hnext := h (j + 1) (by rw [List.length_cons]; omega)
  rwa [← Nat.add_assoc, Nat.add_right_comm] at hnext

theorem strAt_nil (h : m[i]? = some (some 0)) : StrAt m i [] := by
  intro j hj
  obtain rfl : j = 0 := Nat.le_zero.mp hj
  exact h

theorem strAt_cons (hc : m[i]? = some (some c)) (h : StrAt m (i + 1) s) : StrAt m i (c :: s) := by
  intro j hj
  cases j with
  | zero => exact hc
  | succ j =>
    rw [← Nat.add_assoc, Nat.add_right_comm]
    exact h j (by rw [List.length_cons] at hj; omega)

/-- The part of a string behind some of its characters. -/
theorem StrAt.drop {w : Bytes} (h : StrAt m i (w ++ s)) : StrAt m (i + w.length) s := by
  induction w generalizing i with
  | nil => exact h
  | cons c w ih =>
    rw [List.length_cons, Nat.add_comm w.length, ← Nat.add_assoc]
    exact ih h.tail

theorem StrAt.congr (h : StrAt m i s) (hsame : ∀ k, i ≤ k → k ≤ i + s.length → m'[k]? = m[k]?) :
    StrAt m' i s := by
  intro j hj
  rw [hsame _ (by omega) (by omega)]
  exact h j hj

theorem strchrCells_eq (h : StrAt m i s) (h0 : 0 ∉ s) (hfuel : s.length < fuel) :
    (c ∉ s → c ≠ 0 → strchrCells m c fuel i = .ok none) ∧
      ∀ w r, s = w ++ c :: r → c ∉ w → strchrCells m c fuel i = .ok (some (i + w.length)) := by
  induction s generalizing i fuel with
  | nil =>
    obtain ⟨fuel, rfl⟩ : ∃ k, fuel = k + 1 := ⟨fuel - 1, by rw [List.length_nil] at hfuel; omega⟩
    refine ⟨fun _ hc => ?_, fun w r hs => absurd hs.symm (by simp)⟩
    have hload : loadCell m i = .ok 0 := loadCell_eq h.head
    rw [strchrCells, hload, ok_bind, if_neg (Ne.symm hc), if_pos rfl]
    rfl
  | cons a s ih =>
    rw [List.length_cons] at hfuel
    obtain ⟨fuel, rfl⟩ : ∃ k, fuel = k + 1 := ⟨fuel - 1, by omega⟩
    rw [List.mem_cons, not_or] at h0
    obtain ⟨hnone, hsome⟩ := ih h.tail h0.2 (show s.length < fuel by omega)
    have hload : loadCell m i = .ok a := loadCell_eq h.head
    rw [strchrCells, hload, ok_bind]
    refine ⟨fun hc hc0 => ?_, fun w r hs hw => ?_⟩
    · rw [List.mem_cons, not_or] at hc
      rw [if_neg (Ne.symm hc.1), if_neg (Ne.symm h0.1)]
      exact hnone hc.2 hc0
    · cases w with
      | nil =>
        rw [List.nil_append, List.cons.injEq] at hs
        rw [if_pos hs.1]
        rfl
      | cons b w =>
        rw [List.cons_append, List.cons.injEq] at hs
        rw [List.mem_cons, not_or] at hw
        rw [if_neg (hs.1 ▸ Ne.symm hw.1), if_neg (Ne.symm h0.1), hsome w r hs.2 hw.2,
          List.length_cons, Nat.add_comm w.length, ← Nat.add_assoc]

theorem cellsStr_eq (h : StrAt m i s) (h0 : 0 ∉ s) (hfuel : s.length < fuel) :
    cellsStr m fuel i = .ok s := by
  induction s generalizing i fuel with
  | nil =>
    obtain ⟨fuel, rfl⟩ : ∃ k, fuel = k + 1 := ⟨fuel - 1, by rw [List.length_nil] at hfuel; omega⟩
    rw [cellsStr, loadCell_eq h.head, ok_bind]
    rfl
  | cons a s ih =>
    rw [List.length_cons] at hfuel
    obtain ⟨fuel, rfl⟩ : ∃ k, fuel = k + 1 := ⟨fuel - 1, by omega⟩
    rw [List.mem_cons, not_or] at h0
    have hload : loadCell m i = .ok a := loadCell_eq h.head
    rw [cellsStr, hload, ok_bind, if_neg (Ne.symm h0.1), ih h.tail h0.2 (by omega)]
    rfl

/-- The length of what is there, whatever the characters are. -/
theorem cellsStr_length (h : ∀ j < n, ∃ x, x ≠ 0 ∧ m[i + j]? = some (some x))
    (hend : m[i + n]? = some (some 0)) (hfuel : n < fuel) :
    ∃ s, cellsStr m fuel i = .ok s ∧ s.length = n := by
  induction n generalizing i fuel with
  | zero =>
    obtain ⟨fuel, rfl⟩ : ∃ k, fuel = k + 1 := ⟨fuel - 1, by omega⟩
    have hload : loadCell m i = .ok 0 := loadCell_eq hend
    refine ⟨[], ?_, rfl⟩
    rw [cellsStr, hload, ok_bind, if_pos rfl]
    rfl
  | succ n ih =>
    obtain ⟨fuel, rfl⟩ : ∃ k, fuel = k + 1 := ⟨fuel - 1, by omega⟩
    obtain ⟨x, hx, hcell⟩ := h 0 (Nat.succ_pos n)
    have hnext (j : Nat) : i + 1 + j = i + (j + 1) := by omega
    obtain ⟨s, hs, hlen⟩ := ih (i := i + 1)
      (fun j hj => by rw [hnext]; exact h (j + 1) (Nat.succ_lt_succ hj))
      (by rw [hnext]; exact hend) (show n < fuel by omega)
    have hload : loadCell m i = .ok x := loadCell_eq hcell
    refine ⟨x :: s, ?_, by rw [List.length_cons, hlen]⟩
    rw [cellsStr, hload, ok_bind, if_neg hx, hs]
    rfl

/-! ## Copies -/

theorem getElem?_set_of_ne (h : j ≠ i) : (m.set i (some c))[j]? = m[j]? :=
  List.getElem?_set_ne (Ne.symm h)

theorem getElem?_set_of_lt (h : i < m.length) : (m.set i (some c))[i]? = some (some c) :=
  List.getElem?_set_self h

/-- A string that fits. -/
theorem strcpyCells_eq (h : i + s.length < m.length) :
    ∃ m', strcpyCells m i s = .ok m' ∧ m'.length = m.length ∧ StrAt m' i s ∧
      ∀ j < i, m'[j]? = m[j]? := by
  induction s generalizing m i with
  | nil =>
    rw [List.length_nil, Nat.add_zero] at h
    exact ⟨_, storeCell_eq h, List.length_set, strAt_nil (getElem?_set_of_lt h),
      fun j hj => getElem?_set_of_ne (Nat.ne_of_lt hj)⟩
  | cons a s ih =>
    rw [List.length_cons] at h
    have hlt : i < m.length := by omega
    obtain ⟨m', hcopy, hlen, hstr, hbefore⟩ := ih (m := m.set i (some a)) (i := i + 1)
      (by rw [List.length_set]; omega)
    refine ⟨m', ?_, hlen.trans List.length_set, strAt_cons ?_ hstr, fun j hj => ?_⟩
    · rw [strcpyCells, storeCell_eq hlt, ok_bind, hcopy]
    · rw [hbefore i (Nat.lt_succ_self i), getElem?_set_of_lt hlt]
    · rw [hbefore j (by omega), getElem?_set_of_ne (Nat.ne_of_lt hj)]

/-- A string that does not fit. -/
theorem strcpyCells_outside (hi : i ≤ m.length) (h : m.length ≤ i + s.length) :
    ∃ e, strcpyCells m i s = .error e := by
  induction s generalizing m i with
  | nil => exact ⟨_, storeCell_outside h⟩
  | cons a s ih =>
    rw [strcpyCells]
    rcases Nat.lt_or_ge i m.length with hlt | hge
    · rw [storeCell_eq hlt, ok_bind]
      rw [List.length_cons] at h
      exact ih (by rw [List.length_set]; omega) (by rw [List.length_set]; omega)
    · rw [storeCell_outside hge]
      exact ⟨_, rfl⟩

variable {src : Nat → Exec UInt8} {f : Nat → UInt8} {count : Nat}

theorem length_strUpTo (f : Nat → UInt8) (i count : Nat) : (strUpTo f i count).length ≤ count := by
  induction count generalizing i with
  | zero => exact Nat.le_refl 0
  | succ count ih =>
    rw [strUpTo]
    split
    · exact Nat.zero_le _
    · exact Nat.succ_le_succ (ih (i + 1))

theorem zero_notMem_strUpTo (f : Nat → UInt8) (i count : Nat) : 0 ∉ strUpTo f i count := by
  induction count generalizing i with
  | zero => exact List.not_mem_nil
  | succ count ih =>
    rw [strUpTo]
    split
    · exact List.not_mem_nil
    · next hc =>
      rw [List.mem_cons, not_or]
      exact ⟨Ne.symm hc, ih (i + 1)⟩

theorem strUpTo_eq (h0 : 0 ∉ s) (h : ∀ k (hk : k < s.length), f (i + k) = s[k]) :
    strUpTo f i s.length = s := by
  induction s generalizing i with
  | nil => rfl
  | cons a s ih =>
    rw [List.mem_cons, not_or] at h0
    have ha : f i = a := h 0 (Nat.succ_pos _)
    rw [List.length_cons, strUpTo, ha, if_neg (Ne.symm h0.1), ih h0.2 fun k hk => ?_]
    rw [Nat.add_assoc, Nat.add_comm 1]
    exact h (k + 1) (Nat.succ_lt_succ hk)

/-- What has been copied is a string once the byte behind it is 0. -/
theorem strncpyCells_eq (h : i + count ≤ m.length)
    (hsrc : ∀ k, i ≤ k → k < i + count → src k = .ok (f k)) :
    ∃ m', strncpyCells src m i count = .ok m' ∧ m'.length = m.length ∧
      (∀ j < i, m'[j]? = m[j]?) ∧ ∀ m'' : Cells, (∀ j < i + count, m''[j]? = m'[j]?) →
        m''[i + count]? = some (some 0) → StrAt m'' i (strUpTo f i count) := by
  induction count generalizing m i with
  | zero => exact ⟨m, rfl, rfl, fun _ _ => rfl, fun _ _ hend => strAt_nil hend⟩
  | succ count ih =>
    have hlt : i < m.length := by omega
    rw [strncpyCells, hsrc i (Nat.le_refl i) (by omega), ok_bind, storeCell_eq hlt, ok_bind, strUpTo]
    by_cases hc : f i = 0
    · rw [if_pos hc, if_pos hc]
      refine ⟨_, rfl, List.length_set, fun j hj => getElem?_set_of_ne (Nat.ne_of_lt hj),
        fun m'' hsame _ => strAt_nil ?_⟩
      rw [hsame i (by omega), getElem?_set_of_lt hlt, hc]
    · rw [if_neg hc, if_neg hc]
      obtain ⟨m', hcopy, hlen, hbefore, hstr⟩ := ih (m := m.set i (some (f i))) (i := i + 1)
        (by rw [List.length_set]; omega) fun k hk hk' => hsrc k (by omega) (by omega)
      refine ⟨m', hcopy, hlen.trans List.length_set, fun j hj => ?_, fun m'' hsame hend => ?_⟩
      · rw [hbefore j (by omega), getElem?_set_of_ne (Nat.ne_of_lt hj)]
      · refine strAt_cons ?_ (hstr m'' (fun j hj => hsame j (by omega)) ?_)
        · rw [hsame i (by omega), hbefore i (Nat.lt_succ_self i), getElem?_set_of_lt hlt]
        · rwa [Nat.add_assoc, Nat.add_comm 1]

theorem length_of_strncpyCells (h : strncpyCells src m i count = .ok m') :
    m'.length = m.length := by
  induction count generalizing m i with
  | zero =>
    cases h
    rfl
  | succ count ih =>
    obtain ⟨c, -, h⟩ := bind_eq_ok.mp h
    obtain ⟨m₁, hstore, h⟩ := bind_eq_ok.mp h
    have hlen := length_of_storeCell hstore
    split at h
    · cases h
      exact hlen
    · exact (ih h).trans hlen

end Cells

end UBoot.Lib
