import UBoot.Common.MtdpartsNames
import UBoot.Common.MtdpartsText

/-!
# A partition by a device and a number

`find_dev_and_part` of `common/cmd_mtdparts.c`, for an identifier of the form "nand0,1".  Both
numbers are read into variables of eight bits before either of them is looked at.

* `findDevAndPart_eq_iff`: what is found is what the identifier stands for if both numbers fit into
  eight bits, or if what is left of them there stands for nothing.
-/

namespace UBoot.Common.Mtdparts

open UBoot.Lib
open UBoot.LibGeneric

/-- The identifier of a partition. -/
def partId (type : DevType) (d p : Nat) : Bytes := type.name ++ (digits d ++ (str "," ++ digits p))

/-- What an identifier stands for: the device of the type with exactly the number, and the
partition of it. -/
def partOf (devices : List Device) (type : DevType) (d p : Nat) : Option (Device × Nat × Part) :=
  (devices.find? fun dev => dev.id.type = type ∧ dev.id.num.toNat = d).bind fun dev =>
    if p < dev.numParts.toNat then dev.parts[p]?.map fun part => (dev, p, part) else none

/-- What is found, with the number as it is. -/
def numbered (found : Device × UInt8 × Part) : Device × Nat × Part :=
  (found.1, found.2.1.toNat, found.2.2)

section Find

variable {devices : List Device} {type : DevType} {d p : Nat} {rest id : Bytes} {dev : Device}

/-- The number behind the name of the type. -/
theorem mtdIdParse_number (h : ∀ c, rest.head? = some c → isdigit c = false ∧ c ≠ 0x78)
    (t : DevType) :
    (if isdigit (charAt (digits d ++ rest)) = true then
      let (devNum, p) := simpleStrtoul (digits d ++ rest) 0
      some (t, devNum.toUInt8, p) else none) = some (t, UInt8.ofNat d, rest) := by
  have hnum : (UInt32.ofNat d).toUInt8 = UInt8.ofNat d := by
    rw [← UInt8.toNat_inj, UInt32.toNat_toUInt8, UInt32.toNat_ofNat', UInt8.toNat_ofNat']
    omega
  rw [if_pos isdigit_charAt_digits, simpleStrtoul_digits h, ← hnum]

/-- The number behind the name of a type is read, as far as it goes into eight bits. -/
theorem mtdIdParse_name (h : ∀ c, rest.head? = some c → isdigit c = false ∧ c ≠ 0x78) :
    mtdIdParse (type.name ++ (digits d ++ rest)) = some (type, UInt8.ofNat d, rest) := by
  have hpre : str "nor" <+: DevType.nor.name ++ (digits d ++ rest) ∧
      str "nand" <+: DevType.nand.name ++ (digits d ++ rest) ∧
      str "onenand" <+: DevType.onenand.name ++ (digits d ++ rest) :=
    ⟨List.prefix_append _ _, List.prefix_append _ _, List.prefix_append _ _⟩
  rw [mtdIdParse]
  cases type with
  | nor =>
    have hdrop : (DevType.nor.name ++ (digits d ++ rest)).drop 3 = digits d ++ rest :=
      List.drop_left' (by decide)
    rw [if_neg (by rintro ⟨t, ht⟩; cases ht), if_pos hpre.1, hdrop]
    exact mtdIdParse_number h .nor
  | nand =>
    have hdrop : (DevType.nand.name ++ (digits d ++ rest)).drop 4 = digits d ++ rest :=
      List.drop_left' (by decide)
    rw [if_pos hpre.2.1, hdrop]
    exact mtdIdParse_number h .nand
  | onenand =>
    have hdrop : (DevType.onenand.name ++ (digits d ++ rest)).drop 7 = digits d ++ rest :=
      List.drop_left' (by decide)
    rw [if_neg (by rintro ⟨t, ht⟩; cases ht), if_neg (by rintro ⟨t, ht⟩; cases ht),
      if_pos hpre.2.2, hdrop]
    exact mtdIdParse_number h .onenand

/-- No partition is named like that, so none is found by its name. -/
theorem findName_eq_none (h : ∀ dev ∈ devices, ∀ part ∈ dev.parts, part.name ≠ id) :
    findName devices id = none := by
  refine List.findSome?_eq_none_iff.mpr ?_
  intro dev hdev
  rw [Option.map_eq_none_iff, List.find?_eq_none]
  intro x hx hname
  exact h dev hdev x.1 (List.fst_mem_of_mem_zipIdx hx) (of_decide_eq_true hname)

/-- The device and the partition with what is left of the numbers. -/
theorem findDevAndPart_partId
    (h : ∀ dev ∈ devices, ∀ part ∈ dev.parts, part.name ≠ partId type d p) :
    findDevAndPart devices (partId type d p) =
      (deviceFind devices type (UInt8.ofNat d)).bind fun dev =>
        (mtdPartInfo dev (UInt8.ofNat p)).map fun part => (dev, UInt8.ofNat p, part) := by
  have hcomma : ∀ c, (str "," ++ digits p).head? = some c → isdigit c = false ∧ c ≠ 0x78 := by
    intro c hc
    cases hc
    decide
  have hend : ∀ c, ([] : Bytes).head? = some c → isdigit c = false ∧ c ≠ 0x78 := by
    intro c hc
    cases hc
  have hnum : simpleStrtoul (digits p) 0 = (UInt32.ofNat p, []) := by
    have hread := simpleStrtoul_digits (n := p) hend
    rw [List.append_nil] at hread
    exact hread
  have hdigit : charAt (digits p) ≠ 0 := by
    intro h0
    have hd : isdigit (charAt (digits p ++ [])) = true := isdigit_charAt_digits
    rw [List.append_nil, h0] at hd
    cases hd
  have hpnum : (UInt32.ofNat p).toUInt8 = UInt8.ofNat p := by
    rw [← UInt8.toNat_inj, UInt32.toNat_toUInt8, UInt32.toNat_ofNat', UInt8.toNat_ofNat']
    omega
  have hparse : mtdIdParse (partId type d p) =
      some (type, UInt8.ofNat d, str "," ++ digits p) := mtdIdParse_name hcomma
  have hsep : ¬ (charAt (str "," ++ digits p) ≠ 0x2C ∨ charAt (str "," ++ digits p).tail = 0) := by
    rintro (hne | hzero)
    · exact hne rfl
    · exact hdigit hzero
  have htail : (str "," ++ digits p).tail = digits p := rfl
  unfold findDevAndPart
  rw [findName_eq_none h]
  dsimp only
  rw [hparse]
  simp only [Option.bind_eq_bind, Option.bind_some]
  rw [if_neg hsep, htail, hnum]
  dsimp only
  rw [if_neg (by decide), hpnum]
  cases deviceFind devices type (UInt8.ofNat d) with
  | none => rfl
  | some dev =>
    cases hpart : mtdPartInfo dev (UInt8.ofNat p) with
    | none => simp [hpart]
    | some part => simp [hpart]

/-- A number that fits into eight bits is looked up as it is. -/
theorem deviceFind_of_lt (hd : d < 256) : deviceFind devices type (UInt8.ofNat d) =
    devices.find? fun dev => dev.id.type = type ∧ dev.id.num.toNat = d := by
  rw [deviceFind]
  congr 1
  funext dev
  have hnum : dev.id.num = UInt8.ofNat d ↔ dev.id.num.toNat = d := by
    rw [← UInt8.toNat_inj, UInt8.toNat_ofNat', Nat.mod_eq_of_lt hd]
  simp only [hnum]

/-- No device has a number that does not fit. -/
theorem find?_eq_none_of_le (hd : 256 ≤ d) :
    (devices.find? fun dev => dev.id.type = type ∧ dev.id.num.toNat = d) = none := by
  refine List.find?_eq_none.mpr ?_
  intro dev _ hdev
  have hlt := dev.id.num.toNat_lt
  have heq := (of_decide_eq_true hdev).2
  omega

/-- **What is found is what the identifier stands for, if both numbers fit into eight bits; if one
of them does not, only where what is left of them stands for nothing.** -/
theorem findDevAndPart_eq_iff
    (hnames : ∀ dev ∈ devices, ∀ part ∈ dev.parts, ∀ t m n, part.name ≠ partId t m n)
    (hcount : ∀ dev ∈ devices, dev.numParts.toNat = dev.parts.length) :
    (findDevAndPart devices (partId type d p)).map numbered = partOf devices type d p ↔
      (d < 256 ∧ p < 256) ∨
        ∀ dev, deviceFind devices type (UInt8.ofNat d) = some dev → dev.parts.length ≤ p % 256 := by
  rw [findDevAndPart_partId fun dev hdev part hpart => hnames dev hdev part hpart type d p]
  have hofNat : (UInt8.ofNat p).toNat = p % 256 := UInt8.toNat_ofNat'
  have hinfo : ∀ dev ∈ devices, mtdPartInfo dev (UInt8.ofNat p) = dev.parts[p % 256]? := by
    intro dev hdev
    have hn := hcount dev hdev
    rw [mtdPartInfo]
    split
    · rename_i hle
      rw [UInt16.le_iff_toNat_le, hn, UInt8.toNat_toUInt16, hofNat] at hle
      rw [List.getElem?_eq_none hle]
    · rw [hofNat]
  cases hfind : deviceFind devices type (UInt8.ofNat d) with
  | none =>
    -- nothing is found, and nothing is meant
    have hnone : partOf devices type d p = none := by
      rw [partOf]
      by_cases hd : d < 256
      · rw [← deviceFind_of_lt hd, hfind]
        rfl
      · rw [find?_eq_none_of_le (by omega)]
        rfl
    rw [hnone]
    refine ⟨fun _ => .inr ?_, fun _ => rfl⟩
    intro dev hdev
    cases hdev
  | some dev =>
    have hmem : dev ∈ devices := List.mem_of_find?_eq_some hfind
    have hn := hcount dev hmem
    rw [Option.bind_some, hinfo dev hmem]
    have hfound : (∀ dev', some dev = some dev' → dev'.parts.length ≤ p % 256) ↔
        dev.parts.length ≤ p % 256 := by
      constructor
      · intro hall
        exact hall dev rfl
      · intro hle dev' heq
        obtain rfl := Option.some.inj heq
        exact hle
    rw [hfound]
    by_cases hd : d < 256
    · have hpart : partOf devices type d p =
          if p < dev.parts.length then dev.parts[p]?.map fun part => (dev, p, part) else none := by
        rw [partOf, ← deviceFind_of_lt hd, hfind, ← hn, Option.bind_some]
      rw [hpart]
      by_cases hp : p < 256
      · -- both numbers are what they were
        have hmod : p % 256 = p := Nat.mod_eq_of_lt hp
        rw [hmod]
        refine ⟨fun _ => .inl ⟨hd, hp⟩, fun _ => ?_⟩
        by_cases hlt : p < dev.parts.length
        · rw [if_pos hlt, List.getElem?_eq_getElem hlt]
          simp only [Option.map_some, numbered, hofNat, hmod]
        · rw [if_neg hlt, List.getElem?_eq_none (by omega)]
          rfl
      · constructor
        · intro heq
          refine .inr ?_
          by_contra hlt
          rw [List.getElem?_eq_getElem (by omega)] at heq
          split at heq
          · -- the number of the partition is not the one of the identifier
            rename_i hlt'
            rw [List.getElem?_eq_getElem hlt'] at heq
            have hnum : (UInt8.ofNat p).toNat = p :=
              congrArg (fun found => found.2.1) (Option.some.inj heq)
            omega
          · cases heq
        · rintro (⟨-, hlt⟩ | hle)
          · exact absurd hlt hp
          · rw [List.getElem?_eq_none hle, if_neg (by omega)]
            rfl
    · have hpart : partOf devices type d p = none := by
        rw [partOf, find?_eq_none_of_le (by omega)]
        rfl
      rw [hpart, Option.map_eq_none_iff, Option.map_eq_none_iff, List.getElem?_eq_none_iff]
      constructor
      · intro hle
        exact .inr hle
      · rintro (⟨hlt, -⟩ | hle)
        · exact absurd hlt hd
        · exact hle

end Find

/-- A flash with one partition. -/
def onePartition : Device :=
  { addr := 1
    id := { type := .nand, num := 0, size := 0x100000, mtdId := str "nand0" }
    numParts := 1
    parts := [⟨2, str "boot", false, 0x100000, 0, 0, 0x20000⟩] }

theorem findDevAndPart_eq_iff_one :
    (findDevAndPart [onePartition] (partId .nand 0 0)).map numbered =
      partOf [onePartition] .nand 0 0 ↔
      (0 < 256 ∧ 0 < 256) ∨ ∀ dev, deviceFind [onePartition] .nand (UInt8.ofNat 0) = some dev →
        dev.parts.length ≤ 0 % 256 := by
  refine findDevAndPart_eq_iff ?_ ?_
  · intro dev hdev part hpart t m n hname
    obtain rfl := List.mem_singleton.mp hdev
    obtain rfl := List.mem_singleton.mp hpart
    have hfirst := congrArg List.head? hname
    cases t <;> cases hfirst
  · intro dev hdev
    obtain rfl := List.mem_singleton.mp hdev
    rfl

/-- "nand256,256" is taken for "nand0,0". -/
theorem findDevAndPart_wraps :
    (findDevAndPart [onePartition] (partId .nand 256 256)).isSome = true ∧
      partOf [onePartition] .nand 256 256 = none := by
  decide

end UBoot.Common.Mtdparts
