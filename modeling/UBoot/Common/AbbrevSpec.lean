import UBoot.Common.CmdFlash
import UBoot.Lib.Flash

/-!
# Sectors by number

The form `B:SF` or `B:SF-SL` of a range of sectors.  A number is read without a check for its size
and compared as an `int`, and the first sector is compared with the number of sectors only, so a
number from 2³¹ on passes for a first sector.

* `abbrevSpec_right_iff`: `abbrev_spec` accepts existing sectors only, and all that are written in
  decimal, if and only if no such number is met where nothing else is wrong (`FirstOk`).
-/

namespace UBoot.Common

open UBoot.Lib UBoot.LibGeneric

variable {t : FlashTable} {text : Bytes}

/-! ## Numbers -/

theorem intOf_of_lt {x : UInt32} (h : x.toNat < 2 ^ 31) : intOf x = x.toNat := by
  have h' : x.toBitVec.toNat < 2 ^ 31 := h
  rw [intOf, BitVec.toInt_eq_toNat_cond, if_pos (by omega)]
  rfl

theorem intOf_of_ge {x : UInt32} (h : 2 ^ 31 ≤ x.toNat) : intOf x = x.toNat - 2 ^ 32 := by
  have h' : 2 ^ 31 ≤ x.toBitVec.toNat := h
  rw [intOf, BitVec.toInt_eq_toNat_cond, if_neg (by omega)]
  rfl

/-- The number that some digits go on with. -/
def decimalFrom (n : Nat) (digits : Bytes) : Nat :=
  digits.foldl (fun n c => 10 * n + (c.toNat - 48)) n

/-- The digits of a number. -/
def Decimal (digits : Bytes) (n : Nat) : Prop :=
  digits ≠ [] ∧ (∀ c ∈ digits, isdigit c = true) ∧ decimalFrom 0 digits = n

theorem isdigit_iff {c : UInt8} : isdigit c = true ↔ 48 ≤ c.toNat ∧ c.toNat ≤ 57 := by
  rw [isdigit, Bool.and_eq_true, decide_eq_true_eq, decide_eq_true_eq, UInt8.le_iff_toNat_le,
    UInt8.le_iff_toNat_le]
  rfl

theorem digitValue_eq {c : UInt8} (h : isdigit c = true) :
    digitValue c = UInt32.ofNat (c.toNat - 48) ∧ digitValue c < 10 := by
  obtain ⟨hlo, hhi⟩ := isdigit_iff.mp h
  have hsub : (c - 48).toNat = c.toNat - 48 := UInt8.toNat_sub_of_le c 48 hlo
  have hvalue : digitValue c = UInt32.ofNat (c.toNat - 48) := by
    rw [digitValue, if_pos h, ← UInt32.toNat_inj, UInt8.toNat_toUInt32, hsub, UInt32.toNat_ofNat']
    omega
  refine ⟨hvalue, ?_⟩
  rw [hvalue, UInt32.lt_iff_toNat_lt, UInt32.toNat_ofNat']
  change (c.toNat - 48) % 2 ^ 32 < 10
  omega

theorem strtoulDigits_decimal {digits : Bytes} (h : ∀ c ∈ digits, isdigit c = true) (n : Nat) :
    strtoulDigits 10 (UInt32.ofNat n) digits = (UInt32.ofNat (decimalFrom n digits), []) := by
  induction digits generalizing n with
  | nil => rfl
  | cons c digits ih =>
    have hc := h c List.mem_cons_self
    obtain ⟨hvalue, hlt⟩ := digitValue_eq hc
    have htest : (isxdigit c && decide (digitValue c < 10)) = true := by
      rw [isxdigit, hc, Bool.true_or, Bool.true_or, Bool.true_and, decide_eq_true hlt]
    have hstep : UInt32.ofNat n * 10 + digitValue c = UInt32.ofNat (10 * n + (c.toNat - 48)) := by
      rw [hvalue, UInt32.ofNat_add, UInt32.ofNat_mul, UInt32.mul_comm]
      rfl
    rw [strtoulDigits, if_pos htest, hstep, ih fun x hx => h x (List.mem_cons_of_mem c hx)]
    rfl

/-- A number in decimal is read as it is written, if it is below 2³². -/
theorem simpleStrtoul_decimal {digits : Bytes} {n : Nat} (h : Decimal digits n) :
    simpleStrtoul digits 10 = (UInt32.ofNat n, []) := by
  obtain ⟨hne, hdigits, rfl⟩ := h
  obtain ⟨c, digits, rfl⟩ := List.exists_cons_of_ne_nil hne
  have hrest := fun x hx => hdigits x (List.mem_cons_of_mem c hx)
  rw [simpleStrtoul]
  by_cases hzero : c = 48
  · have hnotx : (decide (charAt digits = 120) && isxdigit (charAt digits.tail)) = false := by
      have hne : charAt digits ≠ 120 := by
        cases digits with
        | nil => decide
        | cons d digits =>
          intro hd
          change d = 120 at hd
          have hdigit := isdigit_iff.mp (hrest d List.mem_cons_self)
          rw [hd] at hdigit
          exact absurd hdigit.2 (by decide)
      rw [decide_eq_false hne, Bool.false_and]
    have hfrom := strtoulDigits_decimal hrest 0
    have hcons : decimalFrom 0 (c :: digits) = decimalFrom 0 digits := by
      rw [hzero]
      rfl
    rw [hcons, if_pos (show charAt (c :: digits) = 48 from hzero)]
    change (if (decide (charAt digits = 120) && isxdigit (charAt digits.tail)) = true then _
      else strtoulDigits 10 0 digits) = _
    rw [if_neg (by rw [hnotx]; decide)]
    exact hfrom
  · rw [if_neg (show ¬ charAt (c :: digits) = 48 from hzero)]
    exact strtoulDigits_decimal hdigits 0

theorem notNumber_decimal {digits : Bytes} {n : Nat} (h : Decimal digits n) :
    notNumber digits [] = false := by
  rw [notNumber, decide_eq_false (Ne.symm h.1), Bool.false_or]
  rfl

theorem splitAtChar_append {c : UInt8} {a : Bytes} (h : c ∉ a) (b : Bytes) :
    splitAtChar c (a ++ c :: b) = some (a, b) := by
  have hall : ∀ x ∈ a, (x != c) = true := fun x hx =>
    bne_iff_ne.mpr fun heq => h (heq ▸ hx)
  have hmem : c ∈ a ++ c :: b := by simp
  rw [splitAtChar, if_pos hmem, List.takeWhile_append_of_pos hall,
    List.dropWhile_append_of_pos hall]
  simp

theorem not_mem_decimal {digits : Bytes} {n : Nat} (h : Decimal digits n) {c : UInt8}
    (hc : isdigit c = false) : c ∉ digits := by
  intro hmem
  rw [h.2.1 c hmem] at hc
  cases hc

/-! ## The fields of the text -/

/-- The `int` that a text stands for, if it is a number and nothing else. -/
def numberOf (text : Bytes) : Option Int :=
  if notNumber text (simpleStrtoul text 10).2 then none
  else some (intOf (simpleStrtoul text 10).1)

/-- The bank, the first sector and the last sector, if one is given. -/
def abbrevText (text : Bytes) : Option (Bytes × Bytes × Option Bytes) :=
  (splitAtChar 58 text).map fun (bankText, rest) =>
    match splitAtChar 45 rest with
    | none => (bankText, rest, none)
    | some (firstText, lastText) => (bankText, firstText, some lastText)

/-- The text of a bank: it is a known bank of the table, counted from 1. -/
def NamesBank (t : FlashTable) (text : Bytes) (bank : Nat) (fp : FlashEntry) : Prop :=
  numberOf text = some ((bank : Int) + 1) ∧ t.entries[bank]? = some fp ∧ fp.known = true

/-- The last sector, which is the first one where none is given. -/
def LastIs (fp : FlashEntry) (first : Int) : Option Bytes → Int → Prop
  | none, last => last = first
  | some text, last => numberOf text = some last ∧ first ≤ last ∧ last < fp.sectorCount

theorem abbrevBank_eq_some {bank : Nat} {fp : FlashEntry} :
    abbrevBank t text = some (bank, fp) ↔ NamesBank t text bank fp := by
  have hlen := t.length_lt
  rw [abbrevBank, NamesBank, numberOf]
  by_cases hnot : notNumber text (simpleStrtoul text 10).2 = true
  · simp [hnot]
  · by_cases hlo : intOf (simpleStrtoul text 10).1 < 1
    · have hne : intOf (simpleStrtoul text 10).1 ≠ (bank : Int) + 1 := by omega
      simp [hnot, hlo, hne]
    · by_cases hhi : (t.entries.length : Int) < intOf (simpleStrtoul text 10).1
      · simp only [hnot, hhi, decide_true, Bool.or_true, if_true, reduceCtorEq, false_iff,
          Bool.false_eq_true, if_false, Option.some.injEq]
        intro h
        have hin := (List.getElem?_eq_some_iff.mp h.2.1).1
        omega
      · simp only [hnot, hlo, hhi, decide_false, Bool.or_self, Bool.false_eq_true, if_false,
          Option.some.injEq]
        generalize hvalue : intOf (simpleStrtoul text 10).1 = value at hlo hhi
        constructor
        · intro h
          split at h
          · next found hfound =>
            split at h
            · next hknown =>
              obtain ⟨rfl, rfl⟩ := Prod.mk.inj (Option.some.inj h)
              exact ⟨by omega, hfound, hknown⟩
            · cases h
          · cases h
        · rintro ⟨hbank, hfound, hknown⟩
          have hindex : (value - 1).toNat = bank := by omega
          simp [hindex, hfound, hknown]

/-- What is left of `abbrev_spec` when the bank is known. -/
def sectorsOf (bank : Nat) (fp : FlashEntry) (firstText : Bytes) (lastText : Option Bytes) :
    Abbrev :=
  match numberOf firstText with
  | none => .bad
  | some first =>
    if (fp.sectorCount : Int) ≤ first then .bad
    else
      match lastText with
      | none => .spec bank first first
      | some text =>
        match numberOf text with
        | none => .bad
        | some last =>
          if last < first ∨ (fp.sectorCount : Int) ≤ last then .bad else .spec bank first last

theorem abbrevSpec_of_text {bankText firstText : Bytes} {lastText : Option Bytes}
    (h : abbrevText text = some (bankText, firstText, lastText)) :
    abbrevSpec t text =
      match abbrevBank t bankText with
      | none => .bad
      | some (bank, fp) => sectorsOf bank fp firstText lastText := by
  rw [abbrevText] at h
  rw [abbrevSpec]
  cases hcolon : splitAtChar 58 text with
  | none =>
    rw [hcolon] at h
    cases h
  | some split =>
    obtain ⟨bankText', rest⟩ := split
    rw [hcolon, Option.map_some] at h
    simp only
    cases hdash : splitAtChar 45 rest with
    | none =>
      simp only [hdash, Option.some.injEq, Prod.mk.injEq] at h
      obtain ⟨rfl, rfl, rfl⟩ := h
      cases abbrevBank t bankText' with
      | none => rfl
      | some found =>
        simp only [sectorsOf, numberOf]
        by_cases hnot : notNumber rest (simpleStrtoul rest 10).2 = true
        · simp [hnot]
        · simp [hnot]
    | some split =>
      obtain ⟨firstText', text'⟩ := split
      simp only [hdash, Option.some.injEq, Prod.mk.injEq] at h
      obtain ⟨rfl, rfl, rfl⟩ := h
      cases abbrevBank t bankText' with
      | none => rfl
      | some found =>
        simp only [sectorsOf, numberOf]
        by_cases hnot : notNumber firstText' (simpleStrtoul firstText' 10).2 = true
        · simp [hnot]
        · by_cases hnot' : notNumber text' (simpleStrtoul text' 10).2 = true
          · simp [hnot, hnot']
          · simp [hnot, hnot']

theorem sectorsOf_eq_spec {bank bank' : Nat} {fp : FlashEntry} {firstText : Bytes}
    {lastText : Option Bytes} {first last : Int} :
    sectorsOf bank' fp firstText lastText = .spec bank first last ↔
      bank' = bank ∧ numberOf firstText = some first ∧ first < fp.sectorCount ∧
        LastIs fp first lastText last := by
  rw [sectorsOf]
  cases hfirst : numberOf firstText with
  | none => simp
  | some value =>
    simp only
    by_cases hhi : (fp.sectorCount : Int) ≤ value
    · have hno : ¬ (some value = some first ∧ first < (fp.sectorCount : Int)) := by
        rintro ⟨heq, hlt⟩
        rw [Option.some.inj heq] at hhi
        omega
      rw [if_pos hhi]
      exact ⟨nofun, fun h => absurd ⟨h.2.1, h.2.2.1⟩ hno⟩
    · rw [if_neg hhi]
      cases lastText with
      | none =>
        constructor
        · intro h
          obtain ⟨rfl, rfl, rfl⟩ := Abbrev.spec.inj h
          exact ⟨rfl, rfl, by omega, rfl⟩
        · rintro ⟨rfl, heq, -, rfl⟩
          rw [Option.some.inj heq]
      | some text =>
        simp only
        cases hlast : numberOf text with
        | none =>
          refine ⟨fun h => (nomatch h), fun h => ?_⟩
          rw [LastIs, hlast] at h
          cases h.2.2.2.1
        | some value' =>
          simp only
          by_cases hrange : value' < value ∨ (fp.sectorCount : Int) ≤ value'
          · refine ⟨fun h => ?_, fun h => ?_⟩
            · rw [if_pos hrange] at h
              cases h
            · rw [LastIs, hlast] at h
              obtain ⟨-, heq, -, heq', hle, hlt⟩ := h
              rw [Option.some.inj heq, Option.some.inj heq'] at hrange
              omega
          · rw [if_neg hrange]
            constructor
            · intro h
              obtain ⟨rfl, rfl, rfl⟩ := Abbrev.spec.inj h
              exact ⟨rfl, rfl, by omega, hlast, by omega, by omega⟩
            · rintro ⟨rfl, heq, -, heq', -, -⟩
              rw [hlast] at heq'
              rw [Option.some.inj heq, Option.some.inj heq']

/-- What `abbrev_spec` accepts, and what it makes of it. -/
theorem abbrevSpec_eq_spec {bank : Nat} {first last : Int} :
    abbrevSpec t text = .spec bank first last ↔
      ∃ bankText firstText lastText fp, abbrevText text = some (bankText, firstText, lastText) ∧
        NamesBank t bankText bank fp ∧ numberOf firstText = some first ∧
        first < fp.sectorCount ∧ LastIs fp first lastText last := by
  cases htext : abbrevText text with
  | none =>
    have hother : abbrevSpec t text = .other := by
      rw [abbrevText, Option.map_eq_none_iff] at htext
      rw [abbrevSpec, htext]
    rw [hother]
    exact ⟨nofun, fun ⟨_, _, _, _, h, _⟩ => nomatch h⟩
  | some fields =>
    obtain ⟨bankText, firstText, lastText⟩ := fields
    rw [abbrevSpec_of_text htext]
    constructor
    · intro h
      cases hbank : abbrevBank t bankText with
      | none =>
        rw [hbank] at h
        cases h
      | some found =>
        obtain ⟨bank', fp⟩ := found
        rw [hbank] at h
        obtain ⟨rfl, hsectors⟩ := sectorsOf_eq_spec.mp h
        exact ⟨_, _, _, fp, rfl, abbrevBank_eq_some.mp hbank, hsectors⟩
    · rintro ⟨_, _, _, fp, heq, hbank, hsectors⟩
      obtain ⟨rfl, rfl, rfl⟩ : bankText = _ ∧ firstText = _ ∧ lastText = _ := by
        simpa using heq
      rw [abbrevBank_eq_some.mpr hbank]
      exact sectorsOf_eq_spec.mpr ⟨rfl, hsectors⟩

theorem numberOf_decimal {digits : Bytes} {n : Nat} (h : Decimal digits n) (hn : n < 2 ^ 31) :
    numberOf digits = some (n : Int) := by
  have hvalue : (UInt32.ofNat n).toNat = n := by
    rw [UInt32.toNat_ofNat']
    omega
  rw [numberOf, simpleStrtoul_decimal h]
  simp only [notNumber_decimal h, Bool.false_eq_true, if_false]
  rw [intOf_of_lt (by rw [hvalue]; exact hn), hvalue]

theorem abbrevText_one {bankText firstText : Bytes} (hbank : 58 ∉ bankText)
    (hfirst : 45 ∉ firstText) :
    abbrevText (bankText ++ 58 :: firstText) = some (bankText, firstText, none) := by
  rw [abbrevText, splitAtChar_append hbank, Option.map_some]
  simp only [splitAtChar, if_neg hfirst]

theorem abbrevText_range {bankText firstText lastText : Bytes} (hbank : 58 ∉ bankText)
    (hfirst : 45 ∉ firstText) :
    abbrevText (bankText ++ 58 :: (firstText ++ 45 :: lastText)) =
      some (bankText, firstText, some lastText) := by
  rw [abbrevText, splitAtChar_append hbank, Option.map_some]
  simp only [splitAtChar_append hfirst]

/-! ## The sectors that are accepted -/

/-- Sectors `first` to `last` of a bank, written in decimal. -/
structure InDecimal (t : FlashTable) (bankText firstText lastText : Bytes)
    (bank first last : Nat) : Prop where
  bankDigits : Decimal bankText (bank + 1)
  firstDigits : Decimal firstText first
  lastDigits : Decimal lastText last
  exist : ∃ fp, t.entries[bank]? = some fp ∧ fp.known = true ∧ first ≤ last ∧
    last < fp.sectorCount

/-- Only existing sectors of known banks are accepted, and all that are written in decimal. -/
structure AbbrevRight (t : FlashTable) (text : Bytes) : Prop where
  inside : ∀ bank first last, abbrevSpec t text = .spec bank first last →
    ∃ fp, t.entries[bank]? = some fp ∧ fp.known = true ∧ 0 ≤ first ∧ first ≤ last ∧
      last < (fp.sectorCount : Int)
  one : ∀ bankText firstText bank first,
    InDecimal t bankText firstText firstText bank first first →
      text = bankText ++ 58 :: firstText → abbrevSpec t text = .spec bank first first
  range : ∀ bankText firstText lastText bank first last,
    InDecimal t bankText firstText lastText bank first last →
      text = bankText ++ 58 :: (firstText ++ 45 :: lastText) →
        abbrevSpec t text = .spec bank first last

/-- Where the bank is a known one, the first sector is a number and nothing else, and the last
sector, if it is given, is a number from there (as an `int`) to the end of the bank, the first
number is below 2³¹. -/
def FirstOk (t : FlashTable) (text : Bytes) : Prop :=
  ∀ bankText firstText lastText bank fp first,
    abbrevText text = some (bankText, firstText, lastText) → NamesBank t bankText bank fp →
      numberOf firstText = some first →
      (∀ l ∈ lastText, ∃ last, numberOf l = some last ∧ first ≤ last ∧ last < fp.sectorCount) →
        (simpleStrtoul firstText 10).1.toNat < 2 ^ 31

theorem numberOf_nonneg_iff {first : Int} (h : numberOf text = some first) :
    0 ≤ first ↔ (simpleStrtoul text 10).1.toNat < 2 ^ 31 := by
  have hbound := (simpleStrtoul text 10).1.toNat_lt
  rw [numberOf] at h
  split at h
  · cases h
  · rw [← Option.some.inj h]
    rcases Nat.lt_or_ge (simpleStrtoul text 10).1.toNat (2 ^ 31) with hlt | hge
    · rw [intOf_of_lt hlt]
      omega
    · rw [intOf_of_ge hge]
      omega

theorem namesBank_decimal {bankText : Bytes} {bank : Nat} {fp : FlashEntry}
    (h : Decimal bankText (bank + 1)) (hfp : t.entries[bank]? = some fp)
    (hknown : fp.known = true) : NamesBank t bankText bank fp := by
  have hlt := (List.getElem?_eq_some_iff.mp hfp).1
  have hlen := t.length_lt
  have hbound : bank + 1 < 2 ^ 31 := by omega
  exact ⟨numberOf_decimal h hbound, hfp, hknown⟩

theorem abbrevSpec_decimal {bankText firstText lastText : Bytes} {bank first last : Nat}
    (h : InDecimal t bankText firstText lastText bank first last) {given : Option Bytes}
    (htext : abbrevText text = some (bankText, firstText, given))
    (hgiven : given = some lastText ∨ given = none ∧ last = first) :
    abbrevSpec t text = .spec bank first last := by
  obtain ⟨fp, hfp, hknown, hle, hlt⟩ := h.exist
  have hcount := fp.sectorCount_lt
  refine abbrevSpec_eq_spec.mpr ⟨_, _, _, fp, htext, namesBank_decimal h.bankDigits hfp hknown,
    numberOf_decimal h.firstDigits (by omega), by omega, ?_⟩
  rcases hgiven with rfl | ⟨rfl, rfl⟩
  · exact ⟨numberOf_decimal h.lastDigits (by omega), by omega, by omega⟩
  · rfl

/-- `abbrev_spec` accepts existing sectors only, and all that are written in decimal, if and only
if the first sector is below 2³¹ where all else is in order. -/
theorem abbrevSpec_right_iff (t : FlashTable) (text : Bytes) :
    AbbrevRight t text ↔ FirstOk t text := by
  constructor
  · intro h bankText firstText lastText bank fp first htext hbank hfirst hlast
    rw [← numberOf_nonneg_iff hfirst]
    rcases Int.lt_or_le first fp.sectorCount with hlt | hge
    · -- the text is accepted, with `first` for the first sector
      have hspec : ∃ last, abbrevSpec t text = .spec bank first last := by
        cases lastText with
        | none =>
          exact ⟨first, abbrevSpec_eq_spec.mpr ⟨_, _, _, fp, htext, hbank, hfirst, hlt, rfl⟩⟩
        | some l =>
          obtain ⟨last, hrest⟩ := hlast l rfl
          exact ⟨last, abbrevSpec_eq_spec.mpr ⟨_, _, _, fp, htext, hbank, hfirst, hlt, hrest⟩⟩
      obtain ⟨last, hspec⟩ := hspec
      obtain ⟨-, -, -, hpos, -⟩ := h.inside bank first last hspec
      exact hpos
    · omega
  · intro h
    refine ⟨?_, ?_, ?_⟩
    · intro bank first last hspec
      obtain ⟨bankText, firstText, lastText, fp, htext, hbank, hfirst, hlt, hlast⟩ :=
        abbrevSpec_eq_spec.mp hspec
      refine ⟨fp, hbank.2.1, hbank.2.2, ?_, ?_⟩
      · rw [numberOf_nonneg_iff hfirst]
        refine h bankText firstText lastText bank fp first htext hbank hfirst fun l hl => ?_
        rw [Option.mem_def.mp hl] at hlast
        exact ⟨last, hlast⟩
      · cases lastText with
        | none =>
          have heq : last = first := hlast
          exact ⟨by omega, by omega⟩
        | some l => exact hlast.2
    · intro bankText firstText bank first hdec htext
      refine abbrevSpec_decimal hdec ?_ (Or.inr ⟨rfl, rfl⟩)
      rw [htext]
      exact abbrevText_one (not_mem_decimal hdec.bankDigits rfl)
        (not_mem_decimal hdec.firstDigits rfl)
    · intro bankText firstText lastText bank first last hdec htext
      refine abbrevSpec_decimal hdec ?_ (Or.inl rfl)
      rw [htext]
      exact abbrevText_range (not_mem_decimal hdec.bankDigits rfl)
        (not_mem_decimal hdec.firstDigits rfl)

/-- One bank with 4 sectors. -/
def oneBank : FlashTable where
  entries := [{ known := true, sectorCount := 4, sectorCount_lt := by decide }]
  length_lt := by decide

/-- `1:4294967295` is sector -1. -/
theorem abbrevSpec_minusOne :
    abbrevSpec oneBank (str "1:4294967295") = .spec 0 (-1) (-1) ∧
      ¬ AbbrevRight oneBank (str "1:4294967295") := by
  have hspec : abbrevSpec oneBank (str "1:4294967295") = .spec 0 (-1) (-1) := by
    decide
  refine ⟨hspec, fun h => ?_⟩
  obtain ⟨-, -, -, hpos, -⟩ := h.inside 0 (-1) (-1) hspec
  exact absurd hpos (by decide)

end UBoot.Common
