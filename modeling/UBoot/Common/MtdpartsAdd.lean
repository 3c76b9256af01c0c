import UBoot.Common.MtdpartsNames

/-!
# The description of a new partition

`mtdparts add` of `common/cmd_mtdparts.c` puts the arguments together into a text on the stack,
which `device_parse` then reads.  The length is added up in eight bits first, and a last argument
counts only if it has two characters.

* `addDesc_fits_iff`: the text fits if the length does not wrap below the limit and the last
  argument has been counted.
-/

namespace UBoot.Common.Mtdparts

open UBoot.Lib
open UBoot.LibGeneric

/-- `PART_ADD_DESC_MAXLEN` -/
def partAddDescMaxlen : Nat := 64

/-- `id_find` -/
def idFind (mtdids : List MtdId) (type : DevType) (num : UInt8) : Option MtdId :=
  mtdids.find? fun id => id.type = type ∧ id.num = num

/-- The device that `mtdparts add` is for. -/
def addId (mtdids : List MtdId) (argv2 : Bytes) : Option MtdId := do
  let (type, num, _) ← mtdIdParse argv2
  idFind mtdids type num

/-- `len` -/
def addLen (id : MtdId) (argv3 argv4 : Bytes) (argv5 : Option Bytes) : UInt8 :=
  let len := UInt8.ofNat (id.mtdId.length + 1)
  let len := len + UInt8.ofNat argv3.length
  let len := len + UInt8.ofNat (argv4.length + 2)
  match argv5 with
  | some argv5 => if argv5.length = 2 then len + 2 else len
  | none => len

/-- `mtdparts add` with four arguments or five: the text that `sprintf` writes, or none where the
command returns before.  What follows stores through the argument `ret` of `device_parse`, which is
`NULL` here. -/
def addDesc (mtdids : List MtdId) (argv2 argv3 argv4 : Bytes) (argv5 : Option Bytes) :
    Option Bytes := do
  let id ← addId mtdids argv2
  if partAddDescMaxlen ≤ (addLen id argv3 argv4 argv5).toNat then none
  else
    return id.mtdId ++ (str ":" ++ (argv3 ++ (str "(" ++ (argv4 ++ (str ")" ++ argv5.getD [])))))

/-- What is written of the text whether there is a last argument or not. -/
def descLength (id : MtdId) (argv3 argv4 : Bytes) : Nat :=
  id.mtdId.length + argv3.length + argv4.length + 3

section Add

variable {mtdids : List MtdId} {id : MtdId} {argv2 argv3 argv4 : Bytes} {argv5 : Option Bytes}

theorem addLen_toNat : (addLen id argv3 argv4 argv5).toNat =
    (descLength id argv3 argv4 + if (argv5.getD []).length = 2 then 2 else 0) % 256 := by
  have htwo : (2 : UInt8).toNat = 2 := rfl
  cases argv5 with
  | none =>
    rw [Option.getD_none, List.length_nil, if_neg (by decide)]
    simp only [addLen, descLength, UInt8.toNat_add, UInt8.toNat_ofNat']
    omega
  | some argv5 =>
    simp only [addLen, descLength, Option.getD_some]
    split
    · simp only [UInt8.toNat_add, UInt8.toNat_ofNat', htwo]
      omega
    · simp only [UInt8.toNat_add, UInt8.toNat_ofNat']
      omega

theorem addDesc_eq (hid : addId mtdids argv2 = some id) :
    addDesc mtdids argv2 argv3 argv4 argv5 =
      if partAddDescMaxlen ≤ (addLen id argv3 argv4 argv5).toNat then none
      else some (id.mtdId ++ (str ":" ++ (argv3 ++ (str "(" ++ (argv4 ++
        (str ")" ++ argv5.getD [])))))) := by
  rw [addDesc, hid]
  rfl

theorem length_desc : (id.mtdId ++ (str ":" ++ (argv3 ++ (str "(" ++ (argv4 ++
    (str ")" ++ argv5.getD [])))))).length =
      descLength id argv3 argv4 + (argv5.getD []).length := by
  have hone : (str ":").length = 1 ∧ (str "(").length = 1 ∧ (str ")").length = 1 := by decide
  simp only [List.length_append, hone.1, hone.2.1, hone.2.2, descLength]
  omega

/-- **The text and its NUL fit into the buffer**, unless the length wraps to less than the limit or
the last argument, which has not been counted, is what makes the text too long. -/
theorem addDesc_fits_iff (mtdids : List MtdId) (argv2 argv3 argv4 : Bytes)
    (argv5 : Option Bytes) :
    (∀ text, addDesc mtdids argv2 argv3 argv4 argv5 = some text →
      text.length + 1 ≤ partAddDescMaxlen) ↔
    ∀ id, addId mtdids argv2 = some id →
      if (argv5.getD []).length = 0 ∨ (argv5.getD []).length = 2 then
        descLength id argv3 argv4 + (argv5.getD []).length < 256 ∨
          partAddDescMaxlen ≤ (descLength id argv3 argv4 + (argv5.getD []).length) % 256
      else
        descLength id argv3 argv4 + (argv5.getD []).length < partAddDescMaxlen ∨
          partAddDescMaxlen ≤ descLength id argv3 argv4 % 256 := by
  cases hid : addId mtdids argv2 with
  | none =>
    constructor
    · intro _ id hid'
      cases hid'
    · intro _ text htext
      rw [addDesc, hid] at htext
      cases htext
  | some id =>
    have hlen := @addLen_toNat id argv3 argv4 argv5
    have hdesc := @length_desc id argv3 argv4 argv5
    have hmax : partAddDescMaxlen = 64 := rfl
    simp only [Option.some.injEq, forall_eq']
    rw [addDesc_eq hid, hmax]
    generalize (addLen id argv3 argv4 argv5).toNat = len at hlen ⊢
    generalize descLength id argv3 argv4 = n at hlen hdesc ⊢
    generalize (argv5.getD []).length = last at hlen hdesc ⊢
    generalize id.mtdId ++ (str ":" ++ _) = text at hdesc ⊢
    -- the last argument is counted if it has two characters, or none
    have hcounted : last = 0 ∨ last = 2 → len = (n + last) % 256 := by
      rintro (rfl | rfl)
      · exact hlen
      · exact hlen
    have hskipped : ¬ (last = 0 ∨ last = 2) → len = n % 256 := by
      intro h
      rw [hlen, if_neg fun htwo => h (.inr htwo), Nat.add_zero]
    constructor
    · intro hfits
      by_cases hfull : 64 ≤ len
      · split
        · rename_i h
          exact .inr (hcounted h ▸ hfull)
        · rename_i h
          exact .inr (hskipped h ▸ hfull)
      · have htext := hfits text (if_neg hfull)
        split <;> omega
    · intro hcond text' htext
      by_cases hfull : 64 ≤ len
      · rw [if_pos hfull] at htext
        cases htext
      · rw [if_neg hfull] at htext
        cases htext
        split at hcond
        · rename_i h
          have htotal := hcounted h
          omega
        · rename_i h
          have htotal := hskipped h
          omega

end Add

/-- A last argument of sixty characters is not counted. -/
theorem addDesc_overflow :
    (addDesc [⟨.nand, 0, 0x100000, str "flash"⟩] (str "nand0") (str "1m") (str "boot")
      (some (List.replicate 60 0x78))).map List.length = some 74 ∧
      ¬ 74 + 1 ≤ partAddDescMaxlen := by
  decide

end UBoot.Common.Mtdparts
