import Mathlib.Data.Nat.Digits.Lemmas
import UBoot.LibGeneric.NumberDigits

/-!
# Reading the numbers that are printed

`simple_strtoul` and `simple_strtoull` read a number without bound (`readDigits`), in words of 32
and of 64 bits.  Digits that are printed are read (`readDigits_digits`), and the front of a number
gives the base away only where it is meant to (`readsAs_digits`, `readsAs_prefixed`).
-/

namespace UBoot.LibGeneric

open UBoot.Lib

/-- The digits in front of a text, behind a number: the number that they continue, and the rest. -/
def readDigits (base : Nat) : Nat → Bytes → Nat × Bytes
  | v, [] => (v, [])
  | v, c :: cp =>
    if isxdigit c && decide ((digitValue c).toNat < base) then
      readDigits base (v * base + (digitValue c).toNat) cp
    else (v, c :: cp)

/-- A text is read as a number, to its end. -/
def ReadsAs (cp : Bytes) (base : UInt32) (n : Nat) : Prop :=
  readDigits (strtoStart cp base).1.toNat 0 (strtoStart cp base).2 = (n, [])

/-- These characters are read as digits. -/
def Prints (base : Nat) (ch : Nat → UInt8) : Prop :=
  ∀ d < base, isxdigit (ch d) = true ∧ (digitValue (ch d)).toNat = d

instance (base : Nat) (ch : Nat → UInt8) : Decidable (Prints base ch) :=
  inferInstanceAs (Decidable (∀ d < base, _ ∧ _))

section Read

variable {base b : UInt32} {cp rest : Bytes} {n v : Nat} {ch : Nat → UInt8}

/-! ## In words -/

theorem strtoulDigits_readDigits (base : UInt32) (v : Nat) (cp : Bytes) :
    strtoulDigits base (UInt32.ofNat v) cp =
      (UInt32.ofNat (readDigits base.toNat v cp).1, (readDigits base.toNat v cp).2) := by
  induction cp generalizing v with
  | nil => rfl
  | cons c cp ih =>
    have hnext : UInt32.ofNat v * base + digitValue c =
        UInt32.ofNat (v * base.toNat + (digitValue c).toNat) := by
      rw [UInt32.ofNat_add, UInt32.ofNat_mul, UInt32.ofNat_toNat, UInt32.ofNat_toNat]
    rw [strtoulDigits, readDigits]
    by_cases hdigit : (isxdigit c && decide (digitValue c < base)) = true
    · have hdigit' : (isxdigit c && decide ((digitValue c).toNat < base.toNat)) = true := hdigit
      rw [if_pos hdigit, if_pos hdigit', hnext, ih]
    · have hdigit' : ¬ (isxdigit c && decide ((digitValue c).toNat < base.toNat)) = true := hdigit
      rw [if_neg hdigit, if_neg hdigit']

theorem strtoullDigits_readDigits (base : UInt32) (v : Nat) (cp : Bytes) :
    strtoullDigits base (UInt64.ofNat v) cp =
      (UInt64.ofNat (readDigits base.toNat v cp).1, (readDigits base.toNat v cp).2) := by
  induction cp generalizing v with
  | nil => rfl
  | cons c cp ih =>
    have hword : ∀ x : UInt32, x.toUInt64 = UInt64.ofNat x.toNat := by
      intro x
      have hlt := x.toNat_lt
      rw [← UInt64.toNat_inj, UInt32.toNat_toUInt64, UInt64.toNat_ofNat']
      exact (Nat.mod_eq_of_lt (by omega)).symm
    have hnext : UInt64.ofNat v * base.toUInt64 + (digitValue c).toUInt64 =
        UInt64.ofNat (v * base.toNat + (digitValue c).toNat) := by
      rw [UInt64.ofNat_add, UInt64.ofNat_mul, hword, hword]
    rw [strtoullDigits, readDigits]
    by_cases hdigit : (isxdigit c && decide (digitValue c < base)) = true
    · have hdigit' : (isxdigit c && decide ((digitValue c).toNat < base.toNat)) = true := hdigit
      rw [if_pos hdigit, if_pos hdigit', hnext, ih]
    · have hdigit' : ¬ (isxdigit c && decide ((digitValue c).toNat < base.toNat)) = true := hdigit
      rw [if_neg hdigit, if_neg hdigit']

theorem simpleStrtoul_start (cp : Bytes) (base : UInt32) : simpleStrtoul cp base =
    strtoulDigits (strtoStart cp base).1 0 (strtoStart cp base).2 := by
  rw [simpleStrtoul, strtoStart]
  by_cases hzero : charAt cp = 48
  · rw [if_pos hzero, if_pos hzero]
    by_cases hx : (charAt cp.tail = 120 && isxdigit (charAt cp.tail.tail)) = true
    · rw [if_pos hx, if_pos hx]
    · rw [if_neg hx, if_neg hx]
  · rw [if_neg hzero, if_neg hzero]

theorem ReadsAs.simpleStrtoul (h : ReadsAs cp base n) :
    simpleStrtoul cp base = (UInt32.ofNat n, []) := by
  rw [simpleStrtoul_start]
  refine (strtoulDigits_readDigits _ 0 _).trans ?_
  rw [h]

theorem ReadsAs.simpleStrtoull (h : ReadsAs cp base n) :
    simpleStrtoull cp base = (UInt64.ofNat n, []) := by
  refine (strtoullDigits_readDigits _ 0 _).trans ?_
  rw [h]

/-! ## Digits -/

theorem prints_decimal : Prints 10 digitOf := by decide

theorem prints_upper : Prints 16 fun d => digitOf d ||| 0 := by decide

theorem prints_lower : Prints 16 fun d => digitOf d ||| 32 := by decide

/-- Digits that are printed are read. -/
theorem readDigits_digits {base : Nat} (hprints : Prints base ch) {ds : List Nat}
    (hds : ∀ d ∈ ds, d < base) (v : Nat) (rest : Bytes) :
    readDigits base v ((ds.map ch).reverse ++ rest) =
      readDigits base (v * base ^ ds.length + Nat.ofDigits base ds) rest := by
  induction ds generalizing rest with
  | nil => rw [List.length_nil, Nat.pow_zero, Nat.mul_one, Nat.ofDigits_nil]; rfl
  | cons d ds ih =>
    obtain ⟨hx, hvalue⟩ := hprints d (hds d List.mem_cons_self)
    have hlt : (digitValue (ch d)).toNat < base := by
      rw [hvalue]
      exact hds d List.mem_cons_self
    have hhorner : (v * base ^ ds.length + Nat.ofDigits base ds) * base + d =
        v * base ^ (d :: ds).length + Nat.ofDigits base (d :: ds) := by
      rw [List.length_cons, Nat.ofDigits_cons, Nat.pow_succ]
      ring
    rw [List.map_cons, List.reverse_cons, List.append_assoc,
      ih (fun d hd => hds d (List.mem_cons_of_mem _ hd)), List.singleton_append, readDigits, hx,
      decide_eq_true hlt, Bool.and_true, if_pos rfl, hvalue, hhorner]

theorem digitsFrom_lt {base : Nat} (hbase : 1 < base) : ∀ d ∈ digitsFrom base n, d < base := by
  intro d hd
  rw [digitsFrom] at hd
  by_cases hzero : n = 0
  · rw [if_pos hzero, List.mem_singleton] at hd
    omega
  · rw [if_neg hzero] at hd
    exact Nat.digits_lt_base hbase hd

theorem ofDigits_digitsFrom (base n : Nat) : Nat.ofDigits base (digitsFrom base n) = n := by
  rw [digitsFrom]
  by_cases hzero : n = 0
  · rw [if_pos hzero, hzero, Nat.ofDigits_singleton]
  · rw [if_neg hzero, Nat.ofDigits_digits]

/-- A number that is printed is read. -/
theorem readDigits_digitsFrom {base : Nat} (hbase : 1 < base) (hprints : Prints base ch) (n : Nat) :
    readDigits base 0 ((digitsFrom base n).map ch).reverse = (n, []) := by
  have hread := readDigits_digits hprints (digitsFrom_lt hbase (n := n)) 0 []
  rw [List.append_nil, Nat.zero_mul, Nat.zero_add, ofDigits_digitsFrom] at hread
  exact hread

/-- The first character. -/
theorem charAt_reverse {l : Bytes} (h : l ≠ []) : charAt l.reverse = l.getLast h := by
  obtain ⟨front, last, rfl⟩ := (List.eq_nil_or_concat' l).resolve_left h
  rw [List.reverse_append, List.getLast_append_singleton]
  rfl

/-- A number that is not zero does not start with a zero. -/
theorem charAt_digitsFrom {base : Nat} (hbase : 1 < base) (hprints : Prints base ch) (hn : n ≠ 0) :
    charAt ((digitsFrom base n).map ch).reverse ≠ 48 := by
  have hne : Nat.digits base n ≠ [] := Nat.digits_ne_nil_iff_ne_zero.mpr hn
  have hmap : (Nat.digits base n).map ch ≠ [] := fun h => hne (List.map_eq_nil_iff.mp h)
  have hlast := Nat.getLast_digit_ne_zero base hn
  have hlt := Nat.digits_lt_base hbase (List.getLast_mem hne)
  have hvalue := (hprints _ hlt).2
  rw [digitsFrom, if_neg hn, charAt_reverse hmap, List.getLast_map]
  intro hzero
  rw [hzero] at hvalue
  exact hlast hvalue.symm

/-- A number in the base that is asked for. -/
theorem readsAs_digits {base : Nat} (hbase : 1 < base) (hprints : Prints base ch)
    (hzero : ch 0 = 48) (hb : (if b = 0 then 10 else b).toNat = base) (n : Nat) :
    ReadsAs ((digitsFrom base n).map ch).reverse b n := by
  rw [ReadsAs]
  by_cases hn : n = 0
  · rw [hn, digitsFrom, if_pos rfl, List.map_singleton, hzero]
    rfl
  · have hstart : strtoStart ((digitsFrom base n).map ch).reverse b =
        (if b = 0 then 10 else b, ((digitsFrom base n).map ch).reverse) :=
      if_neg (charAt_digitsFrom hbase hprints hn)
    rw [hstart, hb]
    exact readDigits_digitsFrom hbase hprints n

/-- A number behind "0x". -/
theorem readsAs_prefixed (hprints : Prints 16 ch) (b : UInt32) (n : Nat) :
    ReadsAs (48 :: 120 :: ((digitsFrom 16 n).map ch).reverse) b n := by
  have hnil : (digitsFrom 16 n).map ch ≠ [] := by
    rw [digitsFrom_eq (by decide)]
    exact List.cons_ne_nil _ _
  have hdigit : isxdigit (charAt ((digitsFrom 16 n).map ch).reverse) = true := by
    obtain ⟨d, hd, hch⟩ := List.mem_map.mp (List.getLast_mem hnil)
    rw [charAt_reverse hnil, ← hch]
    exact (hprints d (digitsFrom_lt (by decide) d hd)).1
  have hstart : strtoStart (48 :: 120 :: ((digitsFrom 16 n).map ch).reverse) b =
      (16, ((digitsFrom 16 n).map ch).reverse) := by
    have hx : (charAt (120 :: ((digitsFrom 16 n).map ch).reverse) = 120 &&
        isxdigit (charAt ((digitsFrom 16 n).map ch).reverse)) = true := by
      rw [hdigit]
      rfl
    have hzero : charAt (48 :: 120 :: ((digitsFrom 16 n).map ch).reverse) = 48 := rfl
    rw [strtoStart, if_pos hzero]
    exact if_pos hx
  rw [ReadsAs, hstart]
  exact readDigits_digitsFrom (by decide) hprints n

end Read

/-! ## The text -/

section Text

variable {num : UInt64} {base : Nat} {size precision : Int} {type : UInt32} {locase : UInt8}

theorem padding_of_nonpos {c : UInt8} (h : size ≤ 0) : padding c size = ([], size - 1) := by
  rw [padding, Int.toNat_of_nonpos h, if_pos h]
  rfl

/-- What is printed without a sign and without padding. -/
theorem number_plain (hsign : hasFlag type Flag.sign = false)
    (hleft : hasFlag type Flag.left = false)
    (hsize : size ≤ (tmpDigits num base (type &&& Flag.small).toUInt8).length)
    (hprec : precision ≤ (tmpDigits num base (type &&& Flag.small).toUInt8).length) :
    number num base size precision type =
      (if (hasFlag type Flag.special && base ≠ 10) = true then
        if base = 16 then [48, 88 ||| (type &&& Flag.small).toUInt8] else [48] else []) ++
      (tmpDigits num base (type &&& Flag.small).toUInt8).reverse := by
  have htake : takeSign num type = (none, num) := by
    rw [takeSign, hsign, if_neg Bool.false_ne_true]
  rw [number]
  simp only [hleft, Bool.false_eq_true, if_false, htake, Option.isSome_none, Option.toList_none,
    List.append_nil]
  generalize tmpDigits num base (type &&& Flag.small).toUInt8 = tmp at *
  rw [max_eq_left hprec, Int.sub_self, Int.toNat_zero, List.replicate_zero]
  have hs : (if (hasFlag type Flag.special && base ≠ 10) = true then
      if base = 16 then size - 2 else size - 1 else size) - (tmp.length : Int) ≤ 0 := by
    split_ifs <;> omega
  generalize (if (hasFlag type Flag.special && base ≠ 10) = true then
      if base = 16 then size - 2 else size - 1 else size) - (tmp.length : Int) = s at hs ⊢
  obtain ⟨s', hs', hleading⟩ : ∃ s' ≤ 0, (if hasFlag type (Flag.zeropad ||| Flag.left) = true then
      ([], s) else padding 32 s) = ([], s') := by
    by_cases hflag : hasFlag type (Flag.zeropad ||| Flag.left) = true
    · exact ⟨s, hs, if_pos hflag⟩
    · exact ⟨s - 1, by omega, (if_neg hflag).trans (padding_of_nonpos hs)⟩
  rw [hleading, padding_of_nonpos hs', padding_of_nonpos (by omega), List.append_nil,
    List.append_nil, List.append_nil, List.nil_append]

/-- `tmp` has the digits. -/
theorem tmpDigits_decimal (num : UInt64) :
    tmpDigits num 10 locase = (digitsFrom 10 num.toNat).map digitOf := by
  rw [tmpDigits]
  by_cases hzero : num = 0
  · rw [if_pos hzero, hzero]
    rfl
  · rw [if_neg hzero, if_neg (not_not_intro rfl), putDec_eq]

theorem tmpDigits_hex (hlocase : 48 ||| locase = 48) (num : UInt64) :
    tmpDigits num 16 locase = (digitsFrom 16 num.toNat).map fun d => digitOf d ||| locase := by
  rw [tmpDigits]
  by_cases hzero : num = 0
  · rw [if_pos hzero, hzero]
    exact congrArg (fun c => [c]) hlocase.symm
  · rw [if_neg hzero, if_pos (by decide), maskDigits_eq]

theorem length_digitsFrom (base n : Nat) (hbase : 1 < base) : 1 ≤ (digitsFrom base n).length := by
  rw [digitsFrom_eq hbase]
  exact Nat.le_add_left 1 _

/-- A number in base 10. -/
theorem number_decimal (num : UInt64) (hsize : size ≤ 1) (hprec : precision ≤ 1) :
    number num 10 size precision 0 = ((digitsFrom 10 num.toNat).map digitOf).reverse := by
  have hlen := length_digitsFrom 10 num.toNat (by decide)
  have htmp := @tmpDigits_decimal (0 &&& Flag.small).toUInt8 num
  have hlength : (tmpDigits num 10 (0 &&& Flag.small).toUInt8).length =
      (digitsFrom 10 num.toNat).length := by rw [htmp, List.length_map]
  rw [number_plain rfl rfl (by omega) (by omega), htmp]
  rfl

/-- A number in base 16. -/
theorem number_hex (num : UInt64) (hsize : size ≤ 1) (hprec : precision ≤ 1)
    (hsign : hasFlag type Flag.sign = false) (hleft : hasFlag type Flag.left = false)
    (hlocase : 48 ||| (type &&& Flag.small).toUInt8 = 48) :
    number num 16 size precision type =
      (if hasFlag type Flag.special = true then [48, 88 ||| (type &&& Flag.small).toUInt8] else []) ++
        ((digitsFrom 16 num.toNat).map fun d => digitOf d ||| (type &&& Flag.small).toUInt8).reverse := by
  have hlen := length_digitsFrom 16 num.toNat (by decide)
  have htmp := tmpDigits_hex hlocase num
  have hlength : (tmpDigits num 16 (type &&& Flag.small).toUInt8).length =
      (digitsFrom 16 num.toNat).length := by rw [htmp, List.length_map]
  have hpfx : (hasFlag type Flag.special && decide (16 ≠ 10)) = hasFlag type Flag.special :=
    Bool.and_true _
  rw [number_plain hsign hleft (by omega) (by omega), htmp, hpfx, if_pos rfl]

end Text

end UBoot.LibGeneric
