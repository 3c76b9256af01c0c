import UBoot.Common.MtdpartsText
import UBoot.LibGeneric.NumberRead

/-!
# Sizes that are printed and read

The text that `number` prints without flags is the decimal one (`number_digits`), so
`memsize_format` prints with `number` (`memsizeFormat_number`).  What is printed is read back, by
`simple_strtoull`, by `simple_strtoul` and by `memsize_parse` (`numbers_readBack`).
-/

namespace UBoot.Common.Mtdparts

open UBoot.Lib
open UBoot.LibGeneric

/-- The decimal text of a number has its digits. -/
theorem digits_digitsFrom (n : Nat) : digits n = ((digitsFrom 10 n).map digitOf).reverse := by
  have hchar : ∀ d < 10, digitChar d = digitOf d := by decide
  induction n using Nat.strongRecOn with
  | ind n ih =>
    by_cases hlt : n < 10
    · rw [digits_of_lt hlt, hchar n hlt, digitsFrom_eq (by decide), Nat.mod_eq_of_lt hlt,
        Nat.div_eq_of_lt hlt, Nat.digits_zero]
      rfl
    · rw [digits_of_le (Nat.not_lt.mp hlt), ih (n / 10) (by omega),
        hchar _ (Nat.mod_lt n (by decide)), digitsFrom_eq (n := n) (by decide), digitsFrom,
        if_neg (by omega), List.map_cons, List.reverse_cons]

/-- `%u` -/
theorem number_digits (num : UInt64) : number num 10 (-1) (-1) 0 = digits num.toNat := by
  rw [number_decimal num (by decide) (by decide), digits_digitsFrom]

/-- What `memsize_format` prints. -/
theorem memsizeFormat_number (size : UInt32) : memsizeFormat size =
    if size % 0x40000000 = 0 then number (size / 0x40000000).toUInt64 10 (-1) (-1) 0 ++ str "g"
    else if size % 0x100000 = 0 then number (size / 0x100000).toUInt64 10 (-1) (-1) 0 ++ str "m"
    else if size % 0x400 = 0 then number (size / 0x400).toUInt64 10 (-1) (-1) 0 ++ str "k"
    else number size.toUInt64 10 (-1) (-1) 0 := by
  rw [number_digits, number_digits, number_digits, number_digits]
  rfl

/-- What is printed of a number in base 10 or 16, without padding, is read as this value. -/
def ReadsBack {α : Type} (read : Bytes → UInt32 → α × Bytes) (num : UInt64) (v : α) : Prop :=
  ∀ size precision : Int, size ≤ 1 → precision ≤ 1 →
    read (number num 10 size precision 0) 10 = (v, []) ∧
    read (number num 10 size precision 0) 0 = (v, []) ∧
    read (number num 16 size precision 0) 16 = (v, []) ∧
    read (number num 16 size precision Flag.small) 16 = (v, []) ∧
    read (number num 16 size precision (Flag.special ||| Flag.small)) 16 = (v, [])

/-- A function that reads numbers reads what is printed. -/
theorem readsBack_of_readsAs {α : Type} {read : Bytes → UInt32 → α × Bytes} {num : UInt64} {v : α}
    (h : ∀ {cp : Bytes} {base : UInt32}, ReadsAs cp base num.toNat → read cp base = (v, [])) :
    ReadsBack read num v := by
  intro size precision hsize hprec
  rw [number_decimal num hsize hprec, number_hex num hsize hprec rfl rfl rfl,
    number_hex num hsize hprec rfl rfl rfl, number_hex num hsize hprec rfl rfl rfl]
  exact ⟨h (readsAs_digits (by decide) prints_decimal rfl rfl num.toNat),
    h (readsAs_digits (by decide) prints_decimal rfl rfl num.toNat),
    h (readsAs_digits (by decide) prints_upper rfl rfl num.toNat),
    h (readsAs_digits (by decide) prints_lower rfl rfl num.toNat),
    h (readsAs_prefixed prints_lower 16 num.toNat)⟩

theorem simpleStrtoull_readsBack (n : UInt64) : ReadsBack simpleStrtoull n n :=
  readsBack_of_readsAs fun h => by rw [h.simpleStrtoull, UInt64.ofNat_toNat]

theorem simpleStrtoul_readsBack (n : UInt32) : ReadsBack simpleStrtoul n.toUInt64 n :=
  readsBack_of_readsAs fun h => by
    rw [h.simpleStrtoul, UInt32.toNat_toUInt64, UInt32.ofNat_toNat]

/-- **Printing and reading are inverse.** -/
theorem numbers_readBack :
    (∀ n : UInt64, putDec n = (digits n.toNat).reverse) ∧
      (∀ n : UInt64, ReadsBack simpleStrtoull n n) ∧
      (∀ n : UInt32, ReadsBack simpleStrtoul n.toUInt64 n) ∧
      ∀ size : UInt32, memsizeParse (memsizeFormat size) = (size, []) := by
  refine ⟨fun n => ?_, simpleStrtoull_readsBack, simpleStrtoul_readsBack, fun size => ?_⟩
  · rw [digits_digitsFrom, List.reverse_reverse, putDec_eq]
  · have hread : memsizeParse (memsizeFormat size ++ []) = (size, []) :=
      memsizeParse_format fun _ h => nomatch h
    rwa [List.append_nil] at hread

end UBoot.Common.Mtdparts
