import UBoot.Lib.Memory

/-!
# Flash cells

Programming a flash cell can only clear bits, and only an erase sets them again.
`program old new` is what a range that held `old` reads after `new` has been programmed
into its first bytes, and `Torn old new t` says that it may read `t` when the power is lost
inside: some bytes are done, and of the next one any of the bits.  `CutOff` is the loss of
power in a sequence of operations.
-/

namespace UBoot.Lib

/-- A range of `n` bytes after an erase. -/
def erased (n : Nat) : Bytes := List.replicate n 0xFF

def program (old new : Bytes) : Bytes := old.zipWith (· &&& ·) new ++ old.drop new.length

@[simp] theorem length_erased (n : Nat) : (erased n).length = n := by simp [erased]

@[simp] theorem length_program (old new : Bytes) : (program old new).length = old.length := by
  simp only [program, List.length_append, List.length_zipWith, List.length_drop]
  omega

/-- Programming an erased range stores the bytes. -/
theorem program_erased : ∀ {n : Nat} {new : Bytes}, new.length ≤ n →
    program (erased n) new = new ++ erased (n - new.length) := by
  intro n new
  induction new generalizing n with
  | nil =>
    intro _
    simp [program]
  | cons c new ih =>
    intro h
    obtain ⟨n, rfl⟩ : ∃ k, n = k + 1 := ⟨n - 1, by simp at h; omega⟩
    have hc : (0xFF : UInt8) &&& c = c := by
      rw [UInt8.and_comm]
      exact UInt8.and_neg_one
    have hrec := ih (n := n) (by simpa using h)
    rw [erased, List.replicate_succ, ← erased, program, List.zipWith_cons_cons, hc,
      List.cons_append, List.length_cons, List.drop_succ_cons, ← program, hrec]
    simp

theorem program_blank {old new : Bytes} (h : old = erased new.length) : program old new = new := by
  rw [h, program_erased (Nat.le_refl _), Nat.sub_self]
  exact List.append_nil new

/-- Programming that was cut off in the byte with index `k`, where the bits of `m` have
not been cleared. -/
def Torn (old new t : Bytes) : Prop :=
  ∃ (k : Nat) (m : UInt8), k < new.length ∧ t = program old (new.take k ++ [new.getD k 0 ||| m])

/-- The same for one byte. -/
def TornByte (old new t : UInt8) : Prop := ∃ m : UInt8, t = old &&& (new ||| m)

theorem TornByte.refl (old new : UInt8) : TornByte old new old :=
  ⟨-1, by rw [UInt8.or_neg_one, UInt8.and_neg_one]⟩

theorem TornByte.done (old new : UInt8) : TornByte old new (old &&& new) :=
  ⟨0, by rw [UInt8.or_zero]⟩

/-- A byte with a cleared bit does not become erased by programming. -/
theorem ne_erased_of_and {a b : UInt8} (h : a ≠ 0xFF) : a &&& b ≠ 0xFF := by
  intro hand
  apply h
  calc a = a &&& -1 := UInt8.and_neg_one.symm
    _ = a &&& (a &&& b) := by rw [hand]; rfl
    _ = a &&& b := by rw [← UInt8.and_assoc, UInt8.and_self]
    _ = 0xFF := hand

theorem TornByte.ne_erased {old new t : UInt8} (h : TornByte old new t) (hold : old ≠ 0xFF) :
    t ≠ 0xFF := by
  obtain ⟨m, rfl⟩ := h
  exact ne_erased_of_and hold

/-- A byte that is erased, on its way to one that is not 0. -/
theorem TornByte.ne_zero {new t : UInt8} (h : TornByte 0xFF new t) (hnew : new ≠ 0) : t ≠ 0 := by
  obtain ⟨m, rfl⟩ := h
  intro hor
  rw [UInt8.and_comm, show (0xFF : UInt8) = -1 from rfl, UInt8.and_neg_one] at hor
  exact hnew (UInt8.or_eq_zero_iff.mp hor).1

theorem TornByte.of_zero {new t : UInt8} (h : TornByte 0 new t) : t = 0 := by
  obtain ⟨m, rfl⟩ := h
  exact UInt8.zero_and

/-- There is nothing between 1 and 0. -/
theorem TornByte.of_one {t : UInt8} (h : TornByte 1 0 t) : t = 0 ∨ t = 1 := by
  obtain ⟨m, rfl⟩ := h
  have hmod : ((1 : UInt8) &&& (0 ||| m)).toNat = (0 ||| m).toNat % 2 := by
    rw [UInt8.toNat_and, Nat.and_comm]
    exact Nat.and_two_pow_sub_one_eq_mod _ 1
  have hlt := Nat.mod_lt (0 ||| m).toNat (by decide : 2 > 0)
  rw [← UInt8.toNat_inj, ← UInt8.toNat_inj, hmod]
  simp only [UInt8.reduceToNat]
  omega

/-! ## Loss of power -/

variable {σ ω : Type} {apply : ω → σ → σ} {torn : ω → σ → σ → Prop}

/-- The power is lost before one of the operations, inside one, or behind the last. -/
inductive CutOff (apply : ω → σ → σ) (torn : ω → σ → σ → Prop) : List ω → σ → σ → Prop
  | before (ops : List ω) (s : σ) : CutOff apply torn ops s s
  | inside {op : ω} {s t : σ} (ops : List ω) (h : torn op s t) : CutOff apply torn (op :: ops) s t
  | behind {op : ω} {ops : List ω} {s t : σ} (h : CutOff apply torn ops (apply op s) t) :
      CutOff apply torn (op :: ops) s t

namespace CutOff

variable {ops ops' : List ω} {s t : σ}

/-- What every operation keeps, done or cut off, holds after the loss of power. -/
theorem invariant {Inv : σ → Prop} (happly : ∀ o ∈ ops, ∀ s, Inv s → Inv (apply o s))
    (htorn : ∀ o ∈ ops, ∀ s t, Inv s → torn o s t → Inv t) (h : CutOff apply torn ops s t)
    (hs : Inv s) : Inv t := by
  induction h with
  | before => exact hs
  | inside ops ht => exact htorn _ (List.mem_cons_self ..) _ _ hs ht
  | behind h ih =>
    refine ih (fun o ho => happly o (List.mem_cons_of_mem _ ho))
      (fun o ho => htorn o (List.mem_cons_of_mem _ ho)) ?_
    exact happly _ (List.mem_cons_self ..) _ hs

theorem of_singleton {o : ω} (h : CutOff apply torn [o] s t) :
    t = s ∨ torn o s t ∨ t = apply o s := by
  cases h with
  | before => exact .inl rfl
  | inside _ ht => exact .inr (.inl ht)
  | behind h =>
    cases h
    exact .inr (.inr rfl)

/-- The power is lost behind the last operation. -/
theorem all (ops : List ω) (s : σ) :
    CutOff apply torn ops s (ops.foldl (fun s o => apply o s) s) := by
  induction ops generalizing s with
  | nil => exact .before _ _
  | cons o ops ih => exact .behind (ih (apply o s))

/-- The power is lost in the first part of a sequence or in the second. -/
theorem of_append (h : CutOff apply torn (ops ++ ops') s t) :
    CutOff apply torn ops s t ∨ CutOff apply torn ops' (ops.foldl (fun s o => apply o s) s) t := by
  induction ops generalizing s with
  | nil => exact .inr h
  | cons o ops ih =>
    cases h with
    | before => exact .inl (.before _ _)
    | inside _ ht => exact .inl (.inside _ ht)
    | behind h =>
      rcases ih h with h | h
      · exact .inl (.behind h)
      · exact .inr h

end CutOff

end UBoot.Lib
