import Mathlib.Data.Nat.Digits.Defs
import UBoot.LibGeneric.Number

/-!
# The digits of a number

`put_dec` divides by 100000, and divides the rest by ten with a product and a shift.  Of the nibbles
of a number below 100000 it makes sums (`Sums`) that are the digits but for their carry; none is so
large that the product is wrong.

* `putDec_eq`: the digits in base 10, the low one first.
* `maskDigits_eq`: the digits in base 16.
-/

namespace UBoot.LibGeneric

open UBoot.Lib

/-- The digits of a number, the low one first; zero has one. -/
def digitsFrom (base n : Nat) : List Nat := if n = 0 then [0] else Nat.digits base n

section Decimal

variable {q x : UInt32}

/-- `d1`, `d2` and `d3` of `put_dec_trunc` and `put_dec_full`, and what is in front of them. -/
def nibble0 (q : UInt32) : UInt32 := q &&& 0xf
def nibble1 (q : UInt32) : UInt32 := (q >>> 4) &&& 0xf
def nibble2 (q : UInt32) : UInt32 := (q >>> 8) &&& 0xf
def nibble3 (q : UInt32) : UInt32 := q >>> 12

/-- `(x * 0xcd) >> 11` -/
def tenthCd (x : UInt32) : UInt32 := (x * 0xcd) >>> 11

/-- `(x * 0xd) >> 7` -/
def tenthD (x : UInt32) : UInt32 := (x * 0xd) >>> 7

/-- The sums which the digits are split off. -/
def sum0 (q : UInt32) : UInt32 := 6 * (nibble3 q + nibble2 q + nibble1 q) + nibble0 q
def sum1 (q : UInt32) : UInt32 := tenthCd (sum0 q) + 9 * nibble3 q + 5 * nibble2 q + nibble1 q
def sum2 (q : UInt32) : UInt32 := tenthCd (sum1 q) + 2 * nibble2 q
def sum3 (q : UInt32) : UInt32 := tenthD (sum2 q) + 4 * nibble3 q

theorem putDecFull_sums (q : UInt32) : putDecFull q =
    [putDigit (sum0 q - 10 * tenthCd (sum0 q)), putDigit (sum1 q - 10 * tenthCd (sum1 q)),
      putDigit (sum2 q - 10 * tenthD (sum2 q)), putDigit (sum3 q - 10 * tenthCd (sum3 q)),
      putDigit (tenthCd (sum3 q))] := rfl

theorem putDecTrunc_sums (q : UInt32) : putDecTrunc q =
    putDigit (sum0 q - 10 * tenthCd (sum0 q)) ::
      if sum1 q ≠ 0 then putDigit (sum1 q - 10 * tenthCd (sum1 q)) ::
        if sum2 q ≠ 0 ∨ nibble3 q ≠ 0 then putDigit (sum2 q - 10 * tenthD (sum2 q)) ::
          if sum3 q ≠ 0 then putDigit (sum3 q - 10 * tenthCd (sum3 q)) ::
            if tenthCd (sum3 q) ≠ 0 then [putDigit (tenthCd (sum3 q))] else []
          else []
        else []
      else [] := rfl

theorem putDigit_eq {d : UInt32} (h : d.toNat < 10) : putDigit d = digitOf d.toNat := by
  have hall : ∀ k < 10, putDigit (UInt32.ofNat k) = digitOf k := by decide
  have hd := hall d.toNat h
  rwa [UInt32.ofNat_toNat] at hd

theorem toNat_mul_of_lt {c y : UInt32} (h : c.toNat * y.toNat < 2 ^ 32) :
    (c * y).toNat = c.toNat * y.toNat := by
  rw [UInt32.toNat_mul]
  exact Nat.mod_eq_of_lt h

theorem toNat_add_of_lt {c y : UInt32} (h : c.toNat + y.toNat < 2 ^ 32) :
    (c + y).toNat = c.toNat + y.toNat := by
  rw [UInt32.toNat_add]
  exact Nat.mod_eq_of_lt h

/-- A product and a shift divide by ten. -/
theorem tenthCd_eq (h : x.toNat < 1029) : (tenthCd x).toNat = x.toNat / 10 := by
  have hprod : (x * 0xcd).toNat = x.toNat * 205 :=
    toNat_mul_of_lt (c := x) (y := 0xcd) (by change x.toNat * 205 < 2 ^ 32; omega)
  rw [tenthCd, UInt32.toNat_shiftRight, Nat.shiftRight_eq_div_pow, hprod]
  change x.toNat * 205 / 2048 = _
  omega

theorem tenthD_eq (h : x.toNat < 69) : (tenthD x).toNat = x.toNat / 10 := by
  have hprod : (x * 0xd).toNat = x.toNat * 13 :=
    toNat_mul_of_lt (c := x) (y := 0xd) (by change x.toNat * 13 < 2 ^ 32; omega)
  rw [tenthD, UInt32.toNat_shiftRight, Nat.shiftRight_eq_div_pow, hprod]
  change x.toNat * 13 / 128 = _
  omega

theorem sub_ten (h : q.toNat = x.toNat / 10) : (x - 10 * q).toNat = x.toNat % 10 := by
  have hlt := x.toNat_lt
  have hprod : (10 * q).toNat = 10 * q.toNat :=
    toNat_mul_of_lt (c := 10) (y := q) (by change 10 * q.toNat < 2 ^ 32; omega)
  have hle : 10 * q ≤ x := by
    rw [UInt32.le_iff_toNat_le, hprod]
    omega
  rw [UInt32.toNat_sub_of_le _ _ hle, hprod]
  omega

/-- The nibbles of a number below 100000. -/
structure Nibbles (q : UInt32) : Prop where
  split : q.toNat = (nibble0 q).toNat + 16 * (nibble1 q).toNat + 256 * (nibble2 q).toNat +
    4096 * (nibble3 q).toNat
  nibble0_lt : (nibble0 q).toNat < 16
  nibble1_lt : (nibble1 q).toNat < 16
  nibble2_lt : (nibble2 q).toNat < 16
  nibble3_lt : (nibble3 q).toNat < 25

theorem nibbles_of_lt (h : q.toNat < 100000) : Nibbles q := by
  have hmask : ∀ y : UInt32, (y &&& 0xf).toNat = y.toNat % 16 := by
    intro y
    rw [UInt32.toNat_and]
    exact Nat.and_two_pow_sub_one_eq_mod y.toNat 4
  have h0 : (nibble0 q).toNat = q.toNat % 16 := hmask q
  have h1 : (nibble1 q).toNat = q.toNat / 16 % 16 := by
    rw [nibble1, hmask, UInt32.toNat_shiftRight, Nat.shiftRight_eq_div_pow]
    rfl
  have h2 : (nibble2 q).toNat = q.toNat / 256 % 16 := by
    rw [nibble2, hmask, UInt32.toNat_shiftRight, Nat.shiftRight_eq_div_pow]
    rfl
  have h3 : (nibble3 q).toNat = q.toNat / 4096 := by
    rw [nibble3, UInt32.toNat_shiftRight, Nat.shiftRight_eq_div_pow]
    rfl
  constructor <;> omega

/-- What the sums of the nibbles of a number are. -/
theorem nibble_sums {n a d1 d2 d3 s0 s1 s2 s3 : Nat}
    (hn : n = a + 16 * d1 + 256 * d2 + 4096 * d3) (h0 : s0 = 6 * (d3 + d2 + d1) + a)
    (h1 : s1 = s0 / 10 + 9 * d3 + 5 * d2 + d1) (h2 : s2 = s1 / 10 + 2 * d2)
    (h3 : s3 = s2 / 10 + 4 * d3) :
    n % 10 = s0 % 10 ∧ n / 10 = s1 + 400 * d3 + 20 * d2 ∧ n / 100 = s2 + 40 * d3 ∧
      n / 1000 = s3 := by
  have htens : n / 10 = s1 + 400 * d3 + 20 * d2 := by
    have hsplit : n = s0 + 10 * (409 * d3 + 25 * d2 + d1) := by omega
    rw [hsplit, Nat.add_mul_div_left _ _ (by decide), h1]
    omega
  have hhundreds : n / 100 = s2 + 40 * d3 := by
    have hsplit : n / 10 = s1 + 10 * (40 * d3 + 2 * d2) := by omega
    rw [← Nat.div_div_eq_div_mul n 10 10, hsplit, Nat.add_mul_div_left _ _ (by decide), h2]
    omega
  refine ⟨?_, htens, hhundreds, ?_⟩
  · omega
  · have hsplit : n / 100 = s2 + 10 * (4 * d3) := by omega
    rw [← Nat.div_div_eq_div_mul n 100 10, hsplit, Nat.add_mul_div_left _ _ (by decide), h3]

/-- What the sums are.  None is so large that it is not divided right. -/
structure Sums (q : UInt32) : Prop where
  sum0_lt : (sum0 q).toNat < 1029
  sum1_lt : (sum1 q).toNat < 1029
  sum2_lt : (sum2 q).toNat < 69
  sum3_lt : (sum3 q).toNat < 1029
  sum0_mod : q.toNat % 10 = (sum0 q).toNat % 10
  sum1_eq : q.toNat / 10 = (sum1 q).toNat + 400 * (nibble3 q).toNat + 20 * (nibble2 q).toNat
  sum2_eq : q.toNat / 100 = (sum2 q).toNat + 40 * (nibble3 q).toNat
  sum3_eq : q.toNat / 1000 = (sum3 q).toNat
  ones : (sum1 q).toNat = 0 → q.toNat / 10 = 0

theorem Nibbles.toNat_sum0 (h : Nibbles q) : (sum0 q).toNat =
    6 * ((nibble3 q).toNat + (nibble2 q).toNat + (nibble1 q).toNat) + (nibble0 q).toNat := by
  obtain ⟨-, h0, h1, h2, h3⟩ := h
  have h32 : (nibble3 q + nibble2 q).toNat = (nibble3 q).toNat + (nibble2 q).toNat :=
    toNat_add_of_lt (by omega)
  have hsum : (nibble3 q + nibble2 q + nibble1 q).toNat = _ := toNat_add_of_lt (by omega)
  have hsix : (6 * (nibble3 q + nibble2 q + nibble1 q)).toNat = 6 * _ :=
    toNat_mul_of_lt (c := 6) (by change 6 * _ < 2 ^ 32; omega)
  rw [sum0, toNat_add_of_lt (by omega), hsix, hsum, h32]

theorem Nibbles.toNat_sum1 (h : Nibbles q) (hlt : (sum0 q).toNat < 1029) : (sum1 q).toNat =
    (sum0 q).toNat / 10 + 9 * (nibble3 q).toNat + 5 * (nibble2 q).toNat + (nibble1 q).toNat := by
  obtain ⟨-, -, h1, h2, h3⟩ := h
  have htenth := tenthCd_eq hlt
  have hnine : (9 * nibble3 q).toNat = 9 * _ :=
    toNat_mul_of_lt (c := 9) (by change 9 * _ < 2 ^ 32; omega)
  have hfive : (5 * nibble2 q).toNat = 5 * _ :=
    toNat_mul_of_lt (c := 5) (by change 5 * _ < 2 ^ 32; omega)
  have hsum : (tenthCd (sum0 q) + 9 * nibble3 q).toNat = _ := toNat_add_of_lt (by omega)
  have hsum' : (tenthCd (sum0 q) + 9 * nibble3 q + 5 * nibble2 q).toNat = _ :=
    toNat_add_of_lt (by omega)
  rw [sum1, toNat_add_of_lt (by omega), hsum', hsum, hnine, hfive, htenth]

theorem Nibbles.toNat_sum2 (h : Nibbles q) (hlt : (sum1 q).toNat < 1029) :
    (sum2 q).toNat = (sum1 q).toNat / 10 + 2 * (nibble2 q).toNat := by
  obtain ⟨-, -, -, h2, -⟩ := h
  have htenth := tenthCd_eq hlt
  have htwo : (2 * nibble2 q).toNat = 2 * _ :=
    toNat_mul_of_lt (c := 2) (by change 2 * _ < 2 ^ 32; omega)
  rw [sum2, toNat_add_of_lt (by omega), htwo, htenth]

theorem Nibbles.toNat_sum3 (h : Nibbles q) (hlt : (sum2 q).toNat < 69) :
    (sum3 q).toNat = (sum2 q).toNat / 10 + 4 * (nibble3 q).toNat := by
  obtain ⟨-, -, -, -, h3⟩ := h
  have htenth := tenthD_eq hlt
  have hfour : (4 * nibble3 q).toNat = 4 * _ :=
    toNat_mul_of_lt (c := 4) (by change 4 * _ < 2 ^ 32; omega)
  rw [sum3, toNat_add_of_lt (by omega), hfour, htenth]

theorem Nibbles.sums (h : Nibbles q) : Sums q := by
  have h0 := h.nibble0_lt
  have h1 := h.nibble1_lt
  have h2 := h.nibble2_lt
  have h3 := h.nibble3_lt
  have hsum0 := h.toNat_sum0
  have hsum1 := h.toNat_sum1 (by omega)
  have hsum2 := h.toNat_sum2 (by omega)
  have hsum3 := h.toNat_sum3 (by omega)
  obtain ⟨hones, htens, hhundreds, hthousands⟩ := nibble_sums h.split hsum0 hsum1 hsum2 hsum3
  exact ⟨by omega, by omega, by omega, by omega, hones, htens, hhundreds, hthousands, by omega⟩

/-- A digit that is split off. -/
theorem putDigit_sub {t : UInt32} (h : t.toNat = x.toNat / 10) :
    putDigit (x - 10 * t) = digitOf (x.toNat % 10) := by
  have hsub := sub_ten h
  rw [putDigit_eq (by omega), hsub]

/-- `put_dec_full` writes five digits. -/
theorem putDecFull_eq (h : q.toNat < 100000) : putDecFull q =
    [q.toNat % 10, q.toNat / 10 % 10, q.toNat / 100 % 10, q.toNat / 1000 % 10,
      q.toNat / 10000].map digitOf := by
  have hs := (nibbles_of_lt h).sums
  have hlast := tenthCd_eq hs.sum3_lt
  have h1 := hs.sum1_eq
  have h2 := hs.sum2_eq
  have h3 := hs.sum3_eq
  have htens : (sum1 q).toNat % 10 = q.toNat / 10 % 10 := by omega
  have hhundreds : (sum2 q).toNat % 10 = q.toNat / 100 % 10 := by omega
  have htop : (sum3 q).toNat / 10 = q.toNat / 10000 := by omega
  rw [putDecFull_sums, putDigit_sub (tenthCd_eq hs.sum0_lt), putDigit_sub (tenthCd_eq hs.sum1_lt),
    putDigit_sub (tenthD_eq hs.sum2_lt), putDigit_sub (tenthCd_eq hs.sum3_lt),
    putDigit_eq (by omega), ← hs.sum0_mod, htens, hhundreds, ← h3, hlast, htop]
  rfl

theorem digits_of_ne_zero {base n : Nat} (hbase : 1 < base) (h : n ≠ 0) :
    Nat.digits base n = n % base :: Nat.digits base (n / base) :=
  Nat.digits_def' hbase (Nat.pos_of_ne_zero h)

theorem digitsFrom_eq {base n : Nat} (hbase : 1 < base) :
    digitsFrom base n = n % base :: Nat.digits base (n / base) := by
  rw [digitsFrom]
  by_cases hzero : n = 0
  · rw [if_pos hzero, hzero, Nat.zero_mod, Nat.zero_div, Nat.digits_zero]
  · rw [if_neg hzero, digits_of_ne_zero hbase hzero]

theorem eq_zero_iff_toNat : x = 0 ↔ x.toNat = 0 := UInt32.toNat_inj.symm

/-- `put_dec_trunc` writes the digits without leading zeros. -/
theorem putDecTrunc_eq (h : q.toNat < 100000) :
    putDecTrunc q = (digitsFrom 10 q.toNat).map digitOf := by
  have hs := (nibbles_of_lt h).sums
  have hlast := tenthCd_eq hs.sum3_lt
  have h1 := hs.sum1_eq
  have h2 := hs.sum2_eq
  have h3 := hs.sum3_eq
  have htens : (sum1 q).toNat % 10 = q.toNat / 10 % 10 := by omega
  have hhundreds : (sum2 q).toNat % 10 = q.toNat / 10 / 10 % 10 := by omega
  have hthousands : (sum3 q).toNat = q.toNat / 10 / 10 / 10 := by omega
  have htop : (sum3 q).toNat / 10 = q.toNat / 10 / 10 / 10 / 10 := by omega
  rw [putDecTrunc_sums, putDigit_sub (tenthCd_eq hs.sum0_lt), putDigit_sub (tenthCd_eq hs.sum1_lt),
    putDigit_sub (tenthD_eq hs.sum2_lt), putDigit_sub (tenthCd_eq hs.sum3_lt),
    putDigit_eq (d := tenthCd (sum3 q)) (by omega), ← hs.sum0_mod, htens, hhundreds, hthousands,
    hlast, htop, digitsFrom_eq (by decide), List.map_cons]
  congr 1
  by_cases hone : q.toNat / 10 = 0
  · rw [hone, if_neg (not_not_intro (eq_zero_iff_toNat.mpr (by omega))), Nat.digits_zero]
    rfl
  rw [if_pos fun hzero => hone (hs.ones (eq_zero_iff_toNat.mp hzero)),
    digits_of_ne_zero (by decide) hone, List.map_cons]
  congr 1
  by_cases htwo : q.toNat / 10 / 10 = 0
  · have hstop : ¬ (sum2 q ≠ 0 ∨ nibble3 q ≠ 0) := by
      rw [eq_zero_iff_toNat.ne, eq_zero_iff_toNat.ne]
      omega
    rw [htwo, if_neg hstop, Nat.digits_zero]
    rfl
  have hmore : sum2 q ≠ 0 ∨ nibble3 q ≠ 0 := by
    rw [eq_zero_iff_toNat.ne, eq_zero_iff_toNat.ne]
    omega
  rw [if_pos hmore, digits_of_ne_zero (by decide) htwo, List.map_cons]
  congr 1
  by_cases hthree : q.toNat / 10 / 10 / 10 = 0
  · rw [hthree, if_neg (not_not_intro (eq_zero_iff_toNat.mpr (hthousands.trans hthree))),
      Nat.digits_zero]
    rfl
  rw [if_pos fun hzero => hthree (hthousands.symm.trans (eq_zero_iff_toNat.mp hzero)),
    digits_of_ne_zero (by decide) hthree, List.map_cons]
  congr 1
  by_cases hfour : q.toNat / 10 / 10 / 10 / 10 = 0
  · rw [hfour, if_neg (not_not_intro (eq_zero_iff_toNat.mpr (by omega))), Nat.digits_zero]
    rfl
  rw [if_pos fun hzero => hfour (by rw [eq_zero_iff_toNat] at hzero; omega),
    Nat.digits_of_lt 10 _ hfour (by omega)]
  rfl

/-- Five digits in front. -/
theorem digitsFrom_split {n : Nat} (h : 100000 ≤ n) : digitsFrom 10 n =
    [n % 100000 % 10, n % 100000 / 10 % 10, n % 100000 / 100 % 10, n % 100000 / 1000 % 10,
      n % 100000 / 10000] ++ digitsFrom 10 (n / 100000) := by
  have hfive : n / 10 / 10 / 10 / 10 / 10 = n / 100000 := by
    rw [Nat.div_div_eq_div_mul, Nat.div_div_eq_div_mul, Nat.div_div_eq_div_mul,
      Nat.div_div_eq_div_mul]
  have h1 : n % 100000 / 10 % 10 = n / 10 % 10 := by omega
  have h2 : n % 100000 / 100 % 10 = n / 10 / 10 % 10 := by omega
  have h3 : n % 100000 / 1000 % 10 = n / 10 / 10 / 10 % 10 := by omega
  have h4 : n % 100000 / 10000 = n / 10 / 10 / 10 / 10 % 10 := by omega
  rw [digitsFrom_eq (by decide), digits_of_ne_zero (by decide) (by omega),
    digits_of_ne_zero (n := n / 10 / 10) (by decide) (by omega),
    digits_of_ne_zero (n := n / 10 / 10 / 10) (by decide) (by omega),
    digits_of_ne_zero (n := n / 10 / 10 / 10 / 10) (by decide) (by omega), hfive, h1, h2, h3, h4,
    Nat.mod_mod_of_dvd n (by decide), digitsFrom, if_neg (by omega)]
  rfl

/-- **`put_dec`** writes the digits in base 10. -/
theorem putDec_eq (n : UInt64) : putDec n = (digitsFrom 10 n.toNat).map digitOf := by
  induction n using putDec.induct with
  | case1 n hlt =>
    have hlt' : n.toNat < 100000 := hlt
    have hn : n.toUInt32.toNat = n.toNat := by
      rw [UInt64.toNat_toUInt32]
      exact Nat.mod_eq_of_lt (by omega)
    rw [putDec, if_pos hlt, putDecTrunc_eq (hn ▸ hlt'), hn]
  | case2 n hge ih =>
    have hge' : ¬ n.toNat < 100000 := hge
    obtain ⟨hquot, hrem⟩ := doDiv_eq n (show 0 < (100000 : UInt32).toNat by decide)
    have hquot : (doDiv n 100000).1.toNat = n.toNat / 100000 := hquot
    have hrem : (doDiv n 100000).2.toNat = n.toNat % 100000 := hrem
    rw [putDec, if_neg hge, putDecFull_eq (by omega), ih, hquot, hrem,
      digitsFrom_split (Nat.not_lt.mp hge'), List.map_append]

end Decimal

/-! ## Digits in base 16 -/

section Hex

variable {num : UInt64} {locase : UInt8}

/-- The last digit in base 16. -/
theorem low_digit (num : UInt64) : num.toNat % 256 &&& (16 - 1) = num.toNat % 16 := by
  rw [Nat.and_two_pow_sub_one_eq_mod _ 4]
  exact Nat.mod_mod_of_dvd _ (by decide)

theorem toNat_shiftOf (num : UInt64) : (num >>> shiftOf 16).toNat = num.toNat / 16 := by
  rw [UInt64.toNat_shiftRight, Nat.shiftRight_eq_div_pow]
  rfl

/-- The digits in base 16. -/
theorem maskDigits_eq (num : UInt64) : maskDigits 16 locase num =
    (digitsFrom 16 num.toNat).map fun d => digitOf d ||| locase := by
  induction num using maskDigits.induct 16 with
  | case1 num ih =>
    rw [maskDigits, low_digit, digitsFrom_eq (by decide), List.map_cons]
    congr 1
    by_cases hmore : num >>> shiftOf 16 ≠ 0
    · have hne : num.toNat / 16 ≠ 0 := fun hzero =>
        hmore (UInt64.toNat_inj.mp ((toNat_shiftOf num).trans hzero))
      rw [if_pos hmore, ih hmore, toNat_shiftOf, digitsFrom, if_neg hne]
    · have hzero : num.toNat / 16 = 0 := by
        rw [← toNat_shiftOf]
        exact congrArg UInt64.toNat (not_not.mp hmore)
      rw [if_neg hmore, hzero, Nat.digits_zero]
      rfl

end Hex

end UBoot.LibGeneric
