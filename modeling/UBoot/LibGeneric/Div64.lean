import Mathlib

/-!
# Division of 64 bits

`do_div` of `include/div64.h` and `__div64_32` of `lib_generic/div64.c`, on words.  The divisor is
doubled while it is below what is left, and then subtracted on the way back, wherever it goes; a
double of the divisor and the one of the quotient that belongs to it are `Doubled`.

* `doDiv_eq`: the result is the quotient and the remainder.
-/

namespace UBoot.LibGeneric

/-- "while ((int64_t)b > 0 && b < rem)" -/
def doubleDivisor (rem b d : UInt64) : UInt64 × UInt64 :=
  if b ≠ 0 ∧ b.toNat < 2 ^ 63 ∧ b < rem then doubleDivisor rem (b + b) (d + d) else (b, d)
termination_by 2 ^ 64 - b.toNat
decreasing_by
  have hpos : b.toNat ≠ 0 := fun h => (by assumption : b ≠ 0 ∧ _).1 (UInt64.toNat_inj.mp h)
  have := (by assumption : b ≠ 0 ∧ b.toNat < 2 ^ 63 ∧ _).2.1
  rw [UInt64.toNat_add]
  omega

/-- "do { .. } while (d)": the quotient and what is left. -/
def subtractDivisor (rem b res d : UInt64) : UInt64 × UInt64 :=
  let res' := if b ≤ rem then res + d else res
  let rem' := if b ≤ rem then rem - b else rem
  if d >>> 1 ≠ 0 then subtractDivisor rem' (b >>> 1) res' (d >>> 1) else (res', rem')
termination_by d.toNat
decreasing_by
  have hne := (by assumption : d >>> 1 ≠ 0)
  have hshift : (d >>> 1).toNat = d.toNat / 2 := by
    rw [UInt64.toNat_shiftRight, Nat.shiftRight_eq_div_pow]
    rfl
  have hpos : (d >>> 1).toNat ≠ 0 := fun h => hne (UInt64.toNat_inj.mp h)
  omega

/-- `__div64_32` -/
def div64By32 (n : UInt64) (base : UInt32) : UInt64 × UInt32 :=
  let high := (n >>> 32).toUInt32
  -- "Reduce the thing a bit first"
  let res := if base ≤ high then (high / base).toUInt64 <<< 32 else 0
  let rem := if base ≤ high then n - (high / base * base).toUInt64 <<< 32 else n
  let (b, d) := doubleDivisor rem base.toUInt64 1
  let (res, rem) := subtractDivisor rem b res d
  (res, rem.toUInt32)

/-- `do_div`: the quotient, which is stored in `n`, and the remainder. -/
def doDiv (n : UInt64) (base : UInt32) : UInt64 × UInt32 :=
  if n >>> 32 = 0 then ((n.toUInt32 / base).toUInt64, n.toUInt32 % base) else div64By32 n base

section Division

variable {n rem b d res : UInt64} {base : UInt32} {k : Nat}

/-- A double of the divisor, and what it counts for in the quotient. -/
structure Doubled (base : UInt32) (b d : UInt64) (k : Nat) : Prop where
  divisor : b.toNat = base.toNat * 2 ^ k
  quotient : d.toNat = 2 ^ k

theorem toNat_shiftRight_one (x : UInt64) : (x >>> 1).toNat = x.toNat / 2 := by
  rw [UInt64.toNat_shiftRight, Nat.shiftRight_eq_div_pow]
  rfl

theorem toNat_shiftRight_32 (x : UInt64) : (x >>> 32).toNat = x.toNat / 2 ^ 32 := by
  rw [UInt64.toNat_shiftRight, Nat.shiftRight_eq_div_pow]
  rfl

theorem toNat_shiftLeft_32 (x : UInt32) : (x.toUInt64 <<< 32).toNat = x.toNat * 2 ^ 32 := by
  have hlt := x.toNat_lt
  rw [UInt64.toNat_shiftLeft, Nat.shiftLeft_eq, UInt32.toNat_toUInt64]
  change x.toNat * 2 ^ 32 % 2 ^ 64 = _
  omega

theorem doubled_start (base : UInt32) : Doubled base base.toUInt64 1 0 :=
  ⟨(Nat.mul_one _).symm, rfl⟩

theorem Doubled.double (h : Doubled base b d k) (hpos : 0 < base.toNat) (hlt : b.toNat < 2 ^ 63) :
    Doubled base (b + b) (d + d) (k + 1) := by
  have hle : d.toNat ≤ b.toNat := by
    rw [h.divisor, h.quotient]
    exact Nat.le_mul_of_pos_left _ hpos
  have hpow : (2 : Nat) ^ (k + 1) = 2 ^ k + 2 ^ k := by omega
  constructor
  · rw [UInt64.toNat_add, hpow, Nat.mul_add, ← h.divisor]
    omega
  · rw [UInt64.toNat_add, hpow, ← h.quotient]
    omega

theorem Doubled.halve (h : Doubled base b d (k + 1)) : Doubled base (b >>> 1) (d >>> 1) k := by
  have hpow : (2 : Nat) ^ (k + 1) = 2 * 2 ^ k := by omega
  constructor
  · rw [toNat_shiftRight_one, h.divisor, hpow, Nat.mul_left_comm]
    omega
  · rw [toNat_shiftRight_one, h.quotient, hpow]
    omega

variable (rem) in
/-- The divisor is doubled until twice of it is more than what is left. -/
theorem doubleDivisor_spec (h : Doubled base b d k) (hpos : 0 < base.toNat) :
    ∃ k', Doubled base (doubleDivisor rem b d).1 (doubleDivisor rem b d).2 k' ∧
      rem.toNat < 2 * (doubleDivisor rem b d).1.toNat := by
  induction b, d using doubleDivisor.induct rem generalizing k with
  | case1 b d hmore ih =>
    rw [doubleDivisor, if_pos hmore]
    exact ih (h.double hpos hmore.2.1)
  | case2 b d hstop =>
    have hlt := rem.toNat_lt
    have hne : b.toNat ≠ 0 := by
      rw [h.divisor]
      exact Nat.ne_of_gt (Nat.mul_pos hpos (Nat.two_pow_pos k))
    have hnezero : b ≠ 0 := fun hzero => hne (congrArg UInt64.toNat hzero)
    rw [doubleDivisor, if_neg hstop]
    refine ⟨k, h, ?_⟩
    by_cases hbig : b.toNat < 2 ^ 63
    · have hle : ¬ b.toNat < rem.toNat := fun hless => hstop ⟨hnezero, hbig, hless⟩
      dsimp only
      omega
    · dsimp only
      omega

/-- What is subtracted is counted: one turn. -/
theorem subtract_once (h : Doubled base b d k) (hpos : 0 < base.toNat)
    (hrem : rem.toNat < 2 * b.toNat) (hlt : res.toNat * base.toNat + rem.toNat < 2 ^ 64) :
    (if b ≤ rem then res + d else res).toNat * base.toNat +
        (if b ≤ rem then rem - b else rem).toNat = res.toNat * base.toNat + rem.toNat ∧
      (if b ≤ rem then rem - b else rem).toNat < b.toNat := by
  by_cases hle : b ≤ rem
  · have hle' : b.toNat ≤ rem.toNat := hle
    have hmul : (res.toNat + d.toNat) * base.toNat = res.toNat * base.toNat + b.toNat := by
      rw [Nat.add_mul, h.divisor, h.quotient, Nat.mul_comm (2 ^ k)]
    have hsum : res.toNat + d.toNat ≤ (res.toNat + d.toNat) * base.toNat :=
      Nat.le_mul_of_pos_right _ hpos
    have hres : (res + d).toNat = res.toNat + d.toNat := by
      rw [UInt64.toNat_add]
      omega
    rw [if_pos hle, if_pos hle, hres, UInt64.toNat_sub_of_le _ _ hle, hmul]
    omega
  · have hlt' : rem.toNat < b.toNat := Nat.not_le.mp hle
    rw [if_neg hle, if_neg hle]
    exact ⟨rfl, hlt'⟩

/-- What is left is less than the divisor in the end. -/
theorem subtractDivisor_spec (h : Doubled base b d k) (hpos : 0 < base.toNat)
    (hrem : rem.toNat < 2 * b.toNat) (hlt : res.toNat * base.toNat + rem.toNat < 2 ^ 64) :
    (subtractDivisor rem b res d).1.toNat = (res.toNat * base.toNat + rem.toNat) / base.toNat ∧
      (subtractDivisor rem b res d).2.toNat =
        (res.toNat * base.toNat + rem.toNat) % base.toNat := by
  induction k generalizing rem b res d with
  | zero =>
    obtain ⟨htotal, hless⟩ := subtract_once h hpos hrem hlt
    have hone : d >>> 1 = 0 := by
      rw [← UInt64.toNat_inj, toNat_shiftRight_one, h.quotient]
      rfl
    have hbase : b.toNat = base.toNat := h.divisor.trans (Nat.mul_one _)
    rw [hbase] at hless
    rw [subtractDivisor, if_neg (not_not_intro hone), ← htotal, Nat.mul_comm _ base.toNat,
      Nat.mul_add_div hpos, Nat.mul_add_mod, Nat.div_eq_of_lt hless, Nat.mod_eq_of_lt hless]
    exact ⟨rfl, rfl⟩
  | succ k ih =>
    obtain ⟨htotal, hless⟩ := subtract_once h hpos hrem hlt
    have hhalf := h.halve
    have hne : d >>> 1 ≠ 0 := by
      intro hzero
      have hpow := hhalf.quotient
      rw [hzero] at hpow
      exact absurd hpow.symm (Nat.ne_of_gt (Nat.two_pow_pos k))
    have htwice : b.toNat = 2 * (b >>> 1).toNat := by
      rw [h.divisor, hhalf.divisor, Nat.pow_succ]
      ring
    rw [subtractDivisor, if_pos hne, ← htotal]
    exact ih hhalf (htwice ▸ hless) (htotal ▸ hlt)

/-- What is taken off at first is counted, too. -/
theorem reduce_eq (n : UInt64) (base : UInt32) :
    (if base ≤ (n >>> 32).toUInt32 then ((n >>> 32).toUInt32 / base).toUInt64 <<< 32
      else 0).toNat * base.toNat +
      (if base ≤ (n >>> 32).toUInt32 then
        n - ((n >>> 32).toUInt32 / base * base).toUInt64 <<< 32 else n).toNat = n.toNat := by
  by_cases hle : base ≤ (n >>> 32).toUInt32
  · have hhigh : (n >>> 32).toUInt32.toNat = n.toNat / 2 ^ 32 := by
      have hlt := n.toNat_lt
      rw [UInt64.toNat_toUInt32, toNat_shiftRight_32]
      exact Nat.mod_eq_of_lt (by omega)
    have hle' := Nat.div_mul_le_self (n.toNat / 2 ^ 32) base.toNat
    have hprod : ((n >>> 32).toUInt32 / base * base).toNat =
        n.toNat / 2 ^ 32 / base.toNat * base.toNat := by
      have hlt := (n >>> 32).toUInt32.toNat_lt
      rw [UInt32.toNat_mul, UInt32.toNat_div, hhigh]
      exact Nat.mod_eq_of_lt (by omega)
    have htaken : (((n >>> 32).toUInt32 / base * base).toUInt64 <<< 32).toNat =
        n.toNat / 2 ^ 32 / base.toNat * base.toNat * 2 ^ 32 := by
      rw [toNat_shiftLeft_32, hprod]
    have hsub : ((n >>> 32).toUInt32 / base * base).toUInt64 <<< 32 ≤ n := by
      rw [UInt64.le_iff_toNat_le, htaken]
      omega
    rw [if_pos hle, if_pos hle, UInt64.toNat_sub_of_le _ _ hsub, htaken, toNat_shiftLeft_32,
      UInt32.toNat_div, hhigh, Nat.mul_right_comm]
    omega
  · rw [if_neg hle, if_neg hle]
    change 0 * _ + _ = _
    omega

/-- `__div64_32` divides. -/
theorem div64By32_eq (n : UInt64) (hpos : 0 < base.toNat) :
    (div64By32 n base).1.toNat = n.toNat / base.toNat ∧
      (div64By32 n base).2.toNat = n.toNat % base.toNat := by
  have htotal := reduce_eq n base
  unfold div64By32
  dsimp only
  generalize (if base ≤ (n >>> 32).toUInt32 then _ else _ : UInt64) = res at htotal ⊢
  generalize (if base ≤ (n >>> 32).toUInt32 then _ else _ : UInt64) = rem at htotal ⊢
  obtain ⟨k, hdoubled, hrem⟩ := doubleDivisor_spec rem (doubled_start base) hpos
  obtain ⟨hquot, hleft⟩ := subtractDivisor_spec hdoubled hpos hrem (htotal ▸ n.toNat_lt)
  rw [htotal] at hquot hleft
  refine ⟨hquot, ?_⟩
  have hlt := Nat.mod_lt n.toNat hpos
  have hbase := base.toNat_lt
  rw [UInt64.toNat_toUInt32, hleft]
  exact Nat.mod_eq_of_lt (by omega)

/-- **The division.** -/
theorem doDiv_eq (n : UInt64) (hpos : 0 < base.toNat) :
    (doDiv n base).1.toNat = n.toNat / base.toNat ∧
      (doDiv n base).2.toNat = n.toNat % base.toNat := by
  have hhigh := toNat_shiftRight_32 n
  rw [doDiv]
  by_cases hsmall : n >>> 32 = 0
  · have hlt : n.toNat < 2 ^ 32 := by
      rw [hsmall] at hhigh
      change 0 = _ at hhigh
      omega
    have hn : n.toUInt32.toNat = n.toNat := by
      rw [UInt64.toNat_toUInt32]
      exact Nat.mod_eq_of_lt hlt
    rw [if_pos hsmall, UInt32.toNat_toUInt64, UInt32.toNat_div, UInt32.toNat_mod, hn]
    exact ⟨rfl, rfl⟩
  · rw [if_neg hsmall]
    exact div64By32_eq n hpos

end Division

end UBoot.LibGeneric
