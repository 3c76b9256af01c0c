import UBoot.Common.MtdpartsGenerate
import UBoot.Common.MtdpartsInvariant

/-!
# Reading what was written

What `memsize_parse` and `part_parse` make of the text that `generate_mtdparts` writes.

* `memsizeParse_format`: a size is read back.
* `partParse_text`: a partition is read back, if it is not too small and its size is not the one
  that stands for the remaining space.
-/

namespace UBoot.Common.Mtdparts

open UBoot.Lib
open UBoot.LibGeneric

/-! ## Numbers -/

section Numbers

variable {n : Nat} {v : UInt32} {rest : Bytes} {size : UInt32}

/-- The character of a digit. -/
def digitChar (d : Nat) : UInt8 := 48 + UInt8.ofNat d

theorem str_digitChar : ∀ d < 10, UInt8.ofNat (Nat.digitChar d).toNat = digitChar d := by
  decide

theorem digits_of_lt (h : n < 10) : digits n = [digitChar n] := by
  rw [digits, str, Nat.toString_eq_repr, Nat.toList_repr, Nat.toDigits_of_lt_base h,
    List.map_singleton, str_digitChar n h]

theorem digits_of_le (h : 10 ≤ n) : digits n = digits (n / 10) ++ [digitChar (n % 10)] := by
  unfold digits str
  rw [Nat.toString_eq_repr, Nat.toString_eq_repr, Nat.toList_repr, Nat.toList_repr,
    Nat.toDigits_of_base_le (by decide) h, List.map_append, List.map_singleton,
    str_digitChar _ (Nat.mod_lt _ (by decide))]

theorem isxdigit_digitChar : ∀ d < 10, isxdigit (digitChar d) = true ∧
    digitValue (digitChar d) = UInt32.ofNat d ∧ digitValue (digitChar d) < 10 ∧
      (digitChar d = 48 → d = 0) := by
  decide

/-- A text is empty or starts with one of some characters. -/
def StartsIn (l : List UInt8) (rest : Bytes) : Prop := ∀ c, rest.head? = some c → c ∈ l

/-- What can follow a partition. -/
abbrev Ends : Bytes → Prop := StartsIn [0x2C, 0x3B]

/-- What can follow a number: an offset, a name, the flag, or what follows a partition. -/
abbrev Follows : Bytes → Prop := StartsIn [0x40, 0x28, 0x72, 0x2C, 0x3B]

/-- A number ends in front of such a character, and in front of a unit. -/
theorem strtoulDigits_stop {base : UInt32} (h : ∀ c, rest.head? = some c → isdigit c = false)
    (hbase : base ≤ 10) : strtoulDigits base v rest = (v, rest) := by
  cases rest with
  | nil => rfl
  | cons c cp =>
    have hc := h c rfl
    have hvalue : isxdigit c = true → 10 ≤ digitValue c := by
      have hall : ∀ i : Fin 256, isdigit (UInt8.ofFin i) = false → isxdigit (UInt8.ofFin i) = true →
          10 ≤ digitValue (UInt8.ofFin i) := by decide +kernel
      exact hall c.toFin hc
    rw [strtoulDigits]
    by_cases hx : isxdigit c = true
    · have hge := hvalue hx
      have hnot : ¬ digitValue c < base := by
        intro hlt
        exact absurd (UInt32.lt_of_lt_of_le hlt (UInt32.le_trans hbase hge)) (UInt32.lt_irrefl _)
      rw [decide_eq_false hnot, Bool.and_false]
      rfl
    · rw [Bool.not_eq_true _ |>.mp hx]
      rfl

/-- The digits of a number are read. -/
theorem strtoulDigits_digits (n : Nat) (rest : Bytes) :
    strtoulDigits 10 0 (digits n ++ rest) = strtoulDigits 10 (UInt32.ofNat n) rest := by
  induction n using Nat.strongRecOn generalizing rest with
  | ind n ih =>
    by_cases hlt : n < 10
    · obtain ⟨hx, hvalue, hlt', -⟩ := isxdigit_digitChar n hlt
      rw [digits_of_lt hlt, List.singleton_append, strtoulDigits, hx, decide_eq_true hlt',
        Bool.and_true, if_pos rfl, hvalue]
      congr 1
      exact UInt32.zero_add _
    · obtain ⟨hx, hvalue, hlt', -⟩ := isxdigit_digitChar (n % 10) (Nat.mod_lt _ (by decide))
      rw [digits_of_le (by omega), List.append_assoc, ih (n / 10) (by omega), List.singleton_append,
        strtoulDigits, hx, decide_eq_true hlt', Bool.and_true, if_pos rfl, hvalue]
      congr 1
      have hsplit : n = n / 10 * 10 + n % 10 := by omega
      show UInt32.ofNat (n / 10) * UInt32.ofNat 10 + UInt32.ofNat (n % 10) = UInt32.ofNat n
      rw [← UInt32.ofNat_mul, ← UInt32.ofNat_add, ← hsplit]

/-- A number does not start with a zero. -/
theorem charAt_digits (hpos : 0 < n) : charAt (digits n ++ rest) ≠ 48 := by
  induction n using Nat.strongRecOn generalizing rest with
  | ind n ih =>
    by_cases hlt : n < 10
    · rw [digits_of_lt hlt]
      intro h
      have := (isxdigit_digitChar n hlt).2.2.2 h
      omega
    · rw [digits_of_le (by omega), List.append_assoc]
      exact ih (n / 10) (by omega) (by omega)

/-- A number is read up to its end. -/
theorem simpleStrtoul_digits (h : ∀ c, rest.head? = some c → isdigit c = false ∧ c ≠ 0x78) :
    simpleStrtoul (digits n ++ rest) 0 = (UInt32.ofNat n, rest) := by
  have hstop : ∀ c, rest.head? = some c → isdigit c = false := fun c hc => (h c hc).1
  unfold simpleStrtoul
  by_cases hzero : n = 0
  · subst hzero
    have hx : charAt rest ≠ 120 := by
      cases rest with
      | nil => decide
      | cons c cp => exact (h c rfl).2
    have hdigits : digits 0 ++ rest = 48 :: rest := by
      rw [digits_of_lt (by decide), List.singleton_append]
      rfl
    rw [hdigits]
    rw [if_pos (show charAt (48 :: rest) = 48 from rfl)]
    dsimp only [List.tail_cons]
    rw [decide_eq_false hx, Bool.false_and, if_neg Bool.false_ne_true, if_pos rfl]
    exact strtoulDigits_stop hstop (by decide)
  · rw [if_neg (charAt_digits (Nat.pos_of_ne_zero hzero)), if_pos rfl, strtoulDigits_digits]
    exact strtoulDigits_stop hstop (by decide)

theorem toNat_shift10 : (v <<< 10).toNat = v.toNat * 1024 % 2 ^ 32 := by
  rw [UInt32.toNat_shiftLeft, Nat.shiftLeft_eq]
  rfl

/-- What follows a number is no digit, no `x` and no unit. -/
theorem not_number {c : UInt8} (h : Follows rest) (hc : rest.head? = some c) :
    isdigit c = false ∧ c ≠ 0x78 := by
  have hmem := h c hc
  have hall : ([0x40, 0x28, 0x72, 0x2C, 0x3B] : Bytes).all (fun c => isdigit c = false ∧ c ≠ 0x78) =
      true := by decide
  exact of_decide_eq_true (List.all_eq_true.mp hall c hmem)

theorem not_unit (h : Follows rest) :
    ∀ unit ∈ ([0x47, 0x67, 0x4D, 0x6D, 0x4B, 0x6B] : Bytes), charAt rest ≠ unit := by
  intro unit hunit
  have hall : ([0, 0x40, 0x28, 0x72, 0x2C, 0x3B] : Bytes).all (fun c =>
      ([0x47, 0x67, 0x4D, 0x6D, 0x4B, 0x6B] : Bytes).all fun unit => c ≠ unit) = true := by decide
  have hne : ∀ c ∈ ([0, 0x40, 0x28, 0x72, 0x2C, 0x3B] : Bytes), c ≠ unit := by
    intro c hc
    have hc := List.all_eq_true.mp hall c hc
    exact of_decide_eq_true (List.all_eq_true.mp hc unit hunit)
  cases rest with
  | nil => exact hne 0 List.mem_cons_self
  | cons c rest => exact hne c (List.mem_cons_of_mem _ (h c rfl))

theorem toNat_dvd {d : UInt32} (h : size % d = 0) : d.toNat ∣ size.toNat := by
  apply Nat.dvd_of_mod_eq_zero
  rw [← UInt32.toNat_mod, h]
  rfl

/-- **A size is read back** from the text that `memsize_format` has written. -/
theorem memsizeParse_format (hrest : Follows rest) :
    memsizeParse (memsizeFormat size ++ rest) = (size, rest) := by
  have hread : ∀ n tail, (∀ c, (tail ++ rest).head? = some c → isdigit c = false ∧ c ≠ 0x78) →
      simpleStrtoul ((digits n ++ tail) ++ rest) 0 = (UInt32.ofNat n, tail ++ rest) := by
    intro n tail htail
    rw [List.append_assoc]
    exact simpleStrtoul_digits htail
  have hunit : ∀ unit ∈ ([0x67, 0x6D, 0x6B] : Bytes), ∀ c, (unit :: rest).head? = some c →
      isdigit c = false ∧ c ≠ 0x78 := by
    intro unit hmem c hc
    cases hc
    have hall : ([0x67, 0x6D, 0x6B] : Bytes).all (fun c => isdigit c = false ∧ c ≠ 0x78) =
        true := by decide
    exact of_decide_eq_true (List.all_eq_true.mp hall unit hmem)
  unfold memsizeFormat
  split_ifs with hg hm hk
  · obtain ⟨k, hk⟩ := toNat_dvd hg
    unfold memsizeParse
    rw [hread _ (str "g") (hunit 0x67 (by decide)), UInt32.ofNat_toNat]
    refine Prod.ext ?_ rfl
    show (size / 0x40000000) <<< 10 <<< 10 <<< 10 = size
    have hlt := size.toNat_lt
    have hd : (0x40000000 : UInt32).toNat = 1073741824 := rfl
    rw [← UInt32.toNat_inj, toNat_shift10, toNat_shift10, toNat_shift10, UInt32.toNat_div, hk, hd]
    rw [hk, hd] at hlt
    omega
  · obtain ⟨k, hk⟩ := toNat_dvd hm
    unfold memsizeParse
    rw [hread _ (str "m") (hunit 0x6D (by decide)), UInt32.ofNat_toNat]
    refine Prod.ext ?_ rfl
    show (size / 0x100000) <<< 10 <<< 10 = size
    have hlt := size.toNat_lt
    have hd : (0x100000 : UInt32).toNat = 1048576 := rfl
    rw [← UInt32.toNat_inj, toNat_shift10, toNat_shift10, UInt32.toNat_div, hk, hd]
    rw [hk, hd] at hlt
    omega
  · obtain ⟨k, hk⟩ := toNat_dvd hk
    unfold memsizeParse
    rw [hread _ (str "k") (hunit 0x6B (by decide)), UInt32.ofNat_toNat]
    refine Prod.ext ?_ rfl
    show (size / 0x400) <<< 10 = size
    have hlt := size.toNat_lt
    have hd : (0x400 : UInt32).toNat = 1024 := rfl
    rw [← UInt32.toNat_inj, toNat_shift10, UInt32.toNat_div, hk, hd]
    rw [hk, hd] at hlt
    omega
  · have hnot := not_unit hrest
    unfold memsizeParse
    have hsize := hread size.toNat [] (fun c hc => not_number hrest hc)
    rw [List.append_nil, List.nil_append] at hsize
    rw [hsize]
    dsimp only
    rw [if_neg, if_neg, if_neg, UInt32.ofNat_toNat]
    · exact not_or.mpr ⟨hnot _ (by decide), hnot _ (by decide)⟩
    · exact not_or.mpr ⟨hnot _ (by decide), hnot _ (by decide)⟩
    · exact not_or.mpr ⟨hnot _ (by decide), hnot _ (by decide)⟩

end Numbers

/-! ## A partition -/

/-- What `part_parse` can have found, once the offset has been filled in. -/
structure Part.Written (part : Part) : Prop where
  named : part.autoName = false → part.name ≠ [] ∧ 0x29 ∉ part.name
  flags : part.maskFlags = 0 ∨ part.maskFlags = mtdWriteableCmd
  placed : part.offset ≠ offsetNotSpecified

/-- The part of a text that is written if `c` holds. -/
def optional (c : Bool) (s : Bytes) : Bytes := if c then s else []

section Pieces

variable {part : Part} {prev : Option Part} {t rest name : Bytes} {size offset flags : UInt32}
  {auto : Bool} {addr n : Nat}

theorem isdigit_charAt_digits : isdigit (charAt (digits n ++ rest)) = true := by
  induction n using Nat.strongRecOn generalizing rest with
  | ind n ih =>
    by_cases hlt : n < 10
    · rw [digits_of_lt hlt]
      have hall : ∀ d < 10, isdigit (digitChar d) = true := by decide
      exact hall n hlt
    · rw [digits_of_le (by omega), List.append_assoc]
      exact ih (n / 10) (by omega)

theorem isdigit_charAt_memsizeFormat : isdigit (charAt (memsizeFormat size ++ rest)) = true := by
  unfold memsizeFormat
  split_ifs
  · rw [List.append_assoc]
    exact isdigit_charAt_digits
  · rw [List.append_assoc]
    exact isdigit_charAt_digits
  · rw [List.append_assoc]
    exact isdigit_charAt_digits
  · exact isdigit_charAt_digits

theorem parseSize_text (ht : Follows t) :
    parseSize (memsizeFormat size ++ t) = if size < minPartSize then none else some (size, t) := by
  have hdash : charAt (memsizeFormat size ++ t) ≠ 0x2D := by
    intro h
    have hdigit := @isdigit_charAt_memsizeFormat t size
    rw [h] at hdigit
    cases hdigit
  rw [parseSize, if_neg hdash, memsizeParse_format ht]

theorem parseOffset_text {gap : Bool} (ht : Follows t) (hat : charAt t ≠ 0x40) :
    parseOffset (optional gap (str "@" ++ memsizeFormat offset) ++ t) =
      (if gap then offset else offsetNotSpecified, t) := by
  cases gap with
  | true =>
    have hat : charAt ((str "@" ++ memsizeFormat offset) ++ t) = 0x40 := rfl
    exact (if_pos hat).trans (memsizeParse_format ht)
  | false => exact if_neg hat

theorem parseName_text (hname : auto = false → name ≠ [] ∧ 0x29 ∉ name) (ht : charAt t ≠ 0x28) :
    parseName (optional (!auto) (str "(" ++ name ++ str ")") ++ t) =
      some (if auto then none else some name, t) := by
  cases auto with
  | true => exact if_neg ht
  | false =>
    obtain ⟨hne, hfree⟩ := hname rfl
    have hall : ∀ c ∈ name, decide (c ≠ 0x29) = true := by
      intro c hc
      exact decide_eq_true fun heq => hfree (heq ▸ hc)
    have hsplit : optional (!false) (str "(" ++ name ++ str ")") ++ t =
        0x28 :: (name ++ 0x29 :: t) := by
      show (str "(" ++ name ++ str ")") ++ t = _
      rw [List.append_assoc, List.append_assoc]
      rfl
    have htake : (name ++ 0x29 :: t).takeWhile (fun c => decide (c ≠ 0x29)) = name := by
      rw [List.takeWhile_append_of_pos hall, List.takeWhile_cons_of_neg (by decide),
        List.append_nil]
    have hdrop : (name ++ 0x29 :: t).dropWhile (fun c => decide (c ≠ 0x29)) = 0x29 :: t := by
      rw [List.dropWhile_append_of_pos hall, List.dropWhile_cons_of_neg (by decide)]
    rw [hsplit]
    unfold parseName
    rw [if_pos (show charAt (0x28 :: (name ++ 0x29 :: t)) = 0x28 from rfl)]
    dsimp only [List.tail_cons]
    rw [htake, hdrop, if_neg (List.cons_ne_nil _ _), if_neg hne]
    rfl

theorem parseFlags_text (hflags : flags = 0 ∨ flags = mtdWriteableCmd) (ht : charAt t ≠ 0x72) :
    parseFlags (optional (flags ≠ 0) (str "ro") ++ t) = (flags, t) := by
  rcases hflags with rfl | rfl
  · refine if_neg ?_
    intro hprefix
    cases t with
    | nil => exact absurd hprefix (by decide)
    | cons c t =>
      obtain ⟨u, hu⟩ := hprefix
      exact ht (List.cons.inj hu).1.symm
  · exact if_pos (List.prefix_append _ _)

theorem parseNext_text (hrest : Ends rest) :
    parseNext size rest = if charAt rest = 0x2C then
      if size = sizeRemaining then none else some rest.tail else some rest := by
  unfold parseNext
  by_cases hcomma : charAt rest = 0x2C
  · rw [if_pos hcomma, if_pos hcomma]
  · rw [if_neg hcomma, if_neg hcomma, if_pos]
    cases rest with
    | nil => exact Or.inr rfl
    | cons c rest =>
      rcases List.mem_cons.mp (hrest c rfl) with hc | hc
      · exact absurd hc hcomma
      · exact Or.inl (List.mem_singleton.mp hc)

theorem StartsIn.optional {l : List UInt8} {a : UInt8} {s : Bytes} {c : Bool}
    (h : StartsIn l t) (ha : s.head? = some a) : StartsIn (a :: l) (optional c s ++ t) := by
  cases c with
  | true =>
    intro b hb
    cases s with
    | nil => cases ha
    | cons _ s =>
      cases ha
      cases hb
      exact List.mem_cons_self
  | false =>
    intro b hb
    exact List.mem_cons_of_mem a (h b hb)

theorem StartsIn.charAt_ne {l : List UInt8} {a : UInt8} (h : StartsIn l t) (ha : a ∉ l)
    (hzero : a ≠ 0) : charAt t ≠ a := by
  cases t with
  | nil => exact hzero.symm
  | cons c t =>
    intro heq
    exact ha (heq ▸ h c rfl)

theorem StartsIn.mono {l l' : List UInt8} (h : StartsIn l t) (hl : l ⊆ l') : StartsIn l' t :=
  fun c hc => hl (h c hc)

theorem partText_eq : partText prev part ++ rest = memsizeFormat part.size ++
    (optional (gap prev part) (str "@" ++ memsizeFormat part.offset) ++
      (optional (!part.autoName) (str "(" ++ part.name ++ str ")") ++
        (optional (part.maskFlags ≠ 0) (str "ro") ++ rest))) := by
  have hflags : (if part.maskFlags = 0 then [] else str "ro") =
      optional (part.maskFlags ≠ 0) (str "ro") := by
    unfold optional
    by_cases hzero : part.maskFlags = 0 <;> simp [hzero]
  have hname : (if part.autoName then [] else str "(" ++ part.name ++ str ")") =
      optional (!part.autoName) (str "(" ++ part.name ++ str ")") := by
    cases part.autoName <;> rfl
  rw [partText, hflags, hname]
  simp only [List.append_assoc, optional]

/-- The partition that is read in the place of one that has been written. -/
def reread (addr : Nat) (prev : Option Part) (part : Part) : Part :=
  let offset := if gap prev part then part.offset else offsetNotSpecified
  ⟨addr, if part.autoName then autoName part.size offset else part.name, part.autoName, part.size,
    offset, part.maskFlags, 0⟩

/-- **A partition is read back**, if its size is one that `part_parse` takes. -/
theorem partParse_text (hpart : part.Written) (hrest : Ends rest) :
    partParse addr (partText prev part ++ rest) =
      if part.size < minPartSize then none
      else if charAt rest = 0x2C then
        if part.size = sizeRemaining then none else some (reread addr prev part, rest.tail)
      else some (reread addr prev part, rest) := by
  have hflags : StartsIn [0x72, 0x2C, 0x3B] (optional (part.maskFlags ≠ 0) (str "ro") ++ rest) :=
    hrest.optional rfl
  have hname := @StartsIn.optional _ _ 0x28 (str "(" ++ part.name ++ str ")") (!part.autoName)
    hflags rfl
  have hoffset := @StartsIn.optional _ _ 0x40 (str "@" ++ memsizeFormat part.offset)
    (gap prev part) hname rfl
  unfold partParse
  rw [partText_eq, parseSize_text hoffset]
  by_cases hsmall : part.size < minPartSize
  · rw [if_pos hsmall, if_pos hsmall]
    rfl
  rw [if_neg hsmall, if_neg hsmall, Option.bind_eq_bind, Option.bind_some]
  dsimp only
  rw [parseOffset_text (hname.mono (by decide)) (hname.charAt_ne (by decide) (by decide)),
    parseName_text hpart.named (hflags.charAt_ne (by decide) (by decide))]
  rw [Option.bind_eq_bind, Option.bind_some]
  dsimp only
  rw [parseFlags_text hpart.flags (hrest.charAt_ne (by decide) (by decide))]
  dsimp only
  rw [parseNext_text hrest]
  have hpartOf : ∀ p : Bytes, (⟨addr, (if part.autoName then none else some part.name).getD
      (autoName part.size (if gap prev part then part.offset else offsetNotSpecified)),
      (if part.autoName then none else some part.name).isNone, part.size,
      if gap prev part then part.offset else offsetNotSpecified, part.maskFlags, 0⟩, p) =
      (reread addr prev part, p) := by
    intro p
    unfold reread
    cases part.autoName <;> rfl
  by_cases hcomma : charAt rest = 0x2C
  · rw [if_pos hcomma, if_pos hcomma]
    by_cases hsize : part.size = sizeRemaining
    · rw [if_pos hsize, if_pos hsize]
      rfl
    · rw [if_neg hsize, if_neg hsize]
      exact congrArg some (hpartOf rest.tail)
  · rw [if_neg hcomma, if_neg hcomma]
    exact congrArg some (hpartOf rest)

end Pieces

/-! ## The checks, once more -/

section Settled

variable {flash : Flash} {id : MtdId} {part part' : Part}

theorem partValidateEraseblock_congr (hoffset : part'.offset = part.offset)
    (hsize : part'.size = part.size) :
    partValidateEraseblock flash id part' = (partValidateEraseblock flash id part).map
      fun p => { part' with sectorSize := p.sectorSize } := by
  unfold partValidateEraseblock
  rw [hoffset, hsize]
  cases flash id.type id.num with
  | none => rfl
  | some mtd =>
    dsimp only
    split_ifs <;> rfl

theorem partValidate_congr (hoffset : part'.offset = part.offset)
    (hsize : part'.size = part.size) : partValidate flash id part' =
      (partValidate flash id part).map
        fun p => { part' with size := p.size, sectorSize := p.sectorSize } := by
  have hfill : (fillUp id part').offset = (fillUp id part).offset ∧
      (fillUp id part').size = (fillUp id part).size ∧
      fillUp id part' = { part' with size := (fillUp id part).size } := by
    unfold fillUp
    rw [hsize]
    split_ifs
    · exact ⟨hoffset, by rw [hoffset], by rw [hoffset]⟩
    · exact ⟨hoffset, hsize, by rw [← hsize]⟩
  obtain ⟨hoff, hsz, heq⟩ := hfill
  unfold partValidate
  dsimp only
  rw [hoff, hsz]
  split_ifs with hstart hwrap hstop
  · rfl
  · rfl
  · rfl
  · rw [partValidateEraseblock_congr hoff hsz, heq]
    refine Option.map_congr fun p hp => ?_
    obtain ⟨mtd, -, rfl, -, -⟩ := boundary_of_eraseblock (UInt32.not_le.mp hwrap) hp
    rfl

/-- A partition that has passed passes once more: nothing is left to be filled up. -/
theorem partValidate_again (h : partValidate flash id part = some part') :
    partValidate flash id part' = some part' := by
  obtain ⟨hlt, hle, hblock⟩ := partValidate_cases h
  obtain ⟨mtd, -, rfl, -, -⟩ := boundary_of_eraseblock hlt hblock
  obtain ⟨p, hp⟩ : ∃ p, fillUp id part = p := ⟨_, rfl⟩
  rw [hp] at hlt hle hblock ⊢
  have hfill : fillUp id { p with sectorSize := mtd.erasesize } =
      { p with sectorSize := mtd.erasesize } := by
    unfold fillUp
    dsimp only
    split
    · rename_i hsize
      have hid : id.size - p.offset = p.size := by
        have hsum := toNat_add_of_lt hlt
        have hmax : p.size.toNat = 4294967295 := by rw [hsize]; rfl
        have hidlt := id.size.toNat_lt
        rw [UInt32.le_iff_toNat_le] at hle
        have hoff : p.offset ≤ id.size := by
          rw [UInt32.le_iff_toNat_le]
          omega
        rw [← UInt32.toNat_inj, UInt32.toNat_sub_of_le _ _ hoff]
        omega
      rw [hid]
    · rfl
  unfold partValidate
  rw [hfill]
  dsimp only
  rw [if_neg, if_neg (UInt32.not_le.mpr hlt), if_neg (UInt32.not_lt.mpr hle)]
  · have hsame := @partValidateEraseblock_congr flash id p { p with sectorSize := mtd.erasesize }
      rfl rfl
    rw [hsame, hblock]
    rfl
  · exact UInt32.not_lt.mpr (UInt32.le_of_lt (UInt32.lt_of_lt_of_le hlt hle))

/-- The checks look at the offset and the size. -/
theorem partValidate_same (hpart : partValidate flash id part = some part)
    (hoffset : part'.offset = part.offset) (hsize : part'.size = part.size) :
    partValidate flash id part' = some { part' with sectorSize := part.sectorSize } := by
  rw [partValidate_congr hoffset hsize, hpart]
  refine congrArg some ?_
  show { part' with size := part.size, sectorSize := part.sectorSize } = _
  rw [← hsize]

end Settled

/-! ## The partitions of a device -/

/-- What of a partition is read back: a name that has been made up is not. -/
structure Key where
  offset : UInt32
  size : UInt32
  maskFlags : UInt32
  name : Option Bytes
  deriving DecidableEq

def Part.key (part : Part) : Key :=
  ⟨part.offset, part.size, part.maskFlags, if part.autoName then none else some part.name⟩

/-- The partition that stands in the place of one when the text has been read: a name that has
been made up is made up again. -/
def Part.again (part : Part) (addr : Nat) (prev : Option Part) : Part :=
  { part with
    addr := addr
    name := if part.autoName then
        Mtdparts.autoName part.size (if gap prev part then part.offset else offsetNotSpecified)
      else part.name }

def readAgain : Nat → Option Part → List Part → List Part
  | _, _, [] => []
  | addr, prev, part :: parts => part.again addr prev :: readAgain (addr + 1) (some part) parts

/-- Where the partition behind `prev` is if there is no gap. -/
def endOf : Option Part → UInt32
  | none => 0
  | some prev => prev.offset + prev.size

/-- The sizes are such that the partitions are read back. -/
def Readable (parts : List Part) : Prop :=
  (∀ p ∈ parts, minPartSize ≤ p.size) ∧ ∀ p ∈ parts.dropLast, p.size ≠ sizeRemaining

section Loop

variable {flash : Flash} {id : MtdId} {part : Part} {parts : List Part} {prev : Option Part}
  {rest p : Bytes} {addr fuel : Nat}

/-- The offset is filled in where it has been left out. -/
theorem placeAt_reread (hpart : part.Written) :
    ∃ q, (reread addr prev part).placeAt (endOf prev) = q ∧ q.offset = part.offset ∧
      q.size = part.size ∧ { q with sectorSize := part.sectorSize } = part.again addr prev := by
  refine ⟨_, rfl, ?_⟩
  have hoffset : ((reread addr prev part).placeAt (endOf prev)).offset = part.offset := by
    unfold Part.placeAt reread
    dsimp only
    by_cases hgap : gap prev part = true
    · rw [if_pos hgap, if_neg hpart.placed]
    · rw [if_neg hgap, if_pos rfl]
      cases prev with
      | none =>
        have hzero : part.offset = 0 := by simpa [gap] using hgap
        exact hzero.symm
      | some prev =>
        have hend : prev.offset + prev.size = part.offset := by simpa [gap] using hgap
        exact hend
  have hframe : ∀ q : Part, ∃ o, q.placeAt (endOf prev) = { q with offset := o } := by
    intro q
    unfold Part.placeAt
    split
    · exact ⟨_, rfl⟩
    · exact ⟨q.offset, rfl⟩
  obtain ⟨o, ho⟩ := hframe (reread addr prev part)
  rw [ho] at hoffset ⊢
  have hoffset : o = part.offset := hoffset
  subst hoffset
  exact ⟨rfl, rfl, rfl⟩

/-- One turn of the loop of `device_parse`. -/
theorem parseParts_step {text : Bytes} (hpart : part.Written)
    (hvalid : partValidate flash id part = some part)
    (hparse : partParse addr text = some (reread addr prev part, p)) :
    parseParts flash id (fuel + 1) text (endOf prev) addr =
      if charAt p = 0 ∨ charAt p = 0x3B then some ([part.again addr prev], p)
      else (parseParts flash id fuel p (endOf (some part)) (addr + 1)).map
        fun r => (part.again addr prev :: r.1, r.2) := by
  obtain ⟨q, hq, hoffset, hsize, hagain⟩ := @placeAt_reread part prev addr hpart
  have hcheck := partValidate_same hvalid hoffset hsize
  rw [hagain] at hcheck
  rw [parseParts, hparse, Option.bind_eq_bind, Option.bind_some]
  dsimp only
  rw [hq, hcheck, Option.bind_eq_bind, Option.bind_some]
  show (if _ then _ else (parseParts flash id fuel p (endOf (some part)) (addr + 1)).bind _) = _
  split_ifs
  · rfl
  · rw [Option.map_eq_bind]
    rfl

theorem length_partText_pos : 0 < (partText prev part).length := by
  have hdigit := @isdigit_charAt_memsizeFormat (optional (gap prev part)
    (str "@" ++ memsizeFormat part.offset) ++ (optional (!part.autoName)
      (str "(" ++ part.name ++ str ")") ++ (optional (part.maskFlags ≠ 0) (str "ro") ++ [])))
    part.size
  rw [← partText_eq, List.append_nil] at hdigit
  apply List.length_pos_of_ne_nil
  intro hnil
  rw [hnil] at hdigit
  cases hdigit

theorem isdigit_charAt_partsText :
    isdigit (charAt (partsText prev (part :: parts) ++ rest)) = true := by
  rw [partsText, List.append_assoc, partText_eq]
  exact isdigit_charAt_memsizeFormat

/-- What can follow a device. -/
abbrev DeviceEnds : Bytes → Prop := StartsIn [0x3B]

theorem parseParts_none {offset : UInt32} (h : partParse addr p = none) :
    parseParts flash id (fuel + 1) p offset addr = none := by
  rw [parseParts, h]
  rfl

theorem parseParts_last (hrest : DeviceEnds rest) (hpart : part.Written)
    (hvalid : partValidate flash id part = some part) :
    parseParts flash id (fuel + 1) (partText prev part ++ rest) (endOf prev) addr =
      if part.size < minPartSize then none else some ([part.again addr prev], rest) := by
  have hparse := @partParse_text part prev rest addr hpart (hrest.mono (by decide))
  rw [if_neg (hrest.charAt_ne (by decide) (by decide))] at hparse
  by_cases hsmall : part.size < minPartSize
  · rw [if_pos hsmall] at hparse ⊢
    exact parseParts_none hparse
  · rw [if_neg hsmall] at hparse ⊢
    have hend : charAt rest = 0 ∨ charAt rest = 0x3B := by
      cases rest with
      | nil => exact Or.inl rfl
      | cons c rest => exact Or.inr (List.mem_singleton.mp (hrest c rfl))
    rw [parseParts_step hpart hvalid hparse, if_pos hend]

theorem parseParts_more (hp : isdigit (charAt p) = true) (hpart : part.Written)
    (hvalid : partValidate flash id part = some part) :
    parseParts flash id (fuel + 1) (partText prev part ++ 0x2C :: p) (endOf prev) addr =
      if part.size < minPartSize ∨ part.size = sizeRemaining then none
      else (parseParts flash id fuel p (endOf (some part)) (addr + 1)).map
        fun r => (part.again addr prev :: r.1, r.2) := by
  have hcomma : Ends (0x2C :: p) := by
    intro c hc
    cases hc
    exact List.mem_cons_self
  have hparse := @partParse_text part prev (0x2C :: p) addr hpart hcomma
  rw [if_pos (show charAt (0x2C :: p) = 0x2C from rfl)] at hparse
  by_cases hsmall : part.size < minPartSize
  · rw [if_pos hsmall] at hparse
    rw [if_pos (Or.inl hsmall)]
    exact parseParts_none hparse
  rw [if_neg hsmall] at hparse
  by_cases hsize : part.size = sizeRemaining
  · rw [if_pos hsize] at hparse
    rw [if_pos (Or.inr hsize)]
    exact parseParts_none hparse
  · rw [if_neg hsize] at hparse
    have hend : ¬ (charAt p = 0 ∨ charAt p = 0x3B) := by
      rintro (hzero | hzero)
      · rw [hzero] at hp
        cases hp
      · rw [hzero] at hp
        cases hp
    rw [if_neg (not_or.mpr ⟨hsmall, hsize⟩), parseParts_step hpart hvalid hparse]
    exact if_neg hend

theorem readable_singleton : Readable [part] ↔ ¬ part.size < minPartSize := by
  unfold Readable
  rw [UInt32.not_lt]
  simp

theorem readable_cons {next : Part} : Readable (part :: next :: parts) ↔
    ¬ (part.size < minPartSize ∨ part.size = sizeRemaining) ∧ Readable (next :: parts) := by
  unfold Readable
  rw [not_or, UInt32.not_lt, List.dropLast_cons_of_ne_nil (List.cons_ne_nil _ _)]
  simp only [List.forall_mem_cons]
  tauto

/-- **The partitions of a device are read back** if their sizes are such. -/
theorem parseParts_text (hne : parts ≠ []) (hrest : DeviceEnds rest)
    (hparts : ∀ p ∈ parts, p.Written ∧ partValidate flash id p = some p)
    (hfuel : (partsText prev parts ++ rest).length ≤ fuel) :
    (Readable parts → parseParts flash id fuel (partsText prev parts ++ rest) (endOf prev) addr =
        some (readAgain addr prev parts, rest)) ∧
      (¬ Readable parts →
        parseParts flash id fuel (partsText prev parts ++ rest) (endOf prev) addr = none) := by
  induction parts generalizing prev addr fuel with
  | nil => exact absurd rfl hne
  | cons part parts ih =>
    obtain ⟨hpart, hvalid⟩ := hparts part List.mem_cons_self
    have hpos := @length_partText_pos part prev
    have hsplit : partsText prev (part :: parts) ++ rest = partText prev part ++
        ((if parts = [] then [] else str ",") ++ (partsText (some part) parts ++ rest)) := by
      rw [partsText]
      simp only [List.append_assoc]
    rw [hsplit] at hfuel ⊢
    rw [List.length_append] at hfuel
    obtain ⟨fuel, rfl⟩ : ∃ n, fuel = n + 1 := ⟨fuel - 1, by omega⟩
    cases parts with
    | nil =>
      rw [if_pos rfl, partsText, List.nil_append, List.nil_append, readable_singleton,
        parseParts_last hrest hpart hvalid]
      exact ⟨fun h => if_neg h, fun h => if_pos (not_not.mp h)⟩
    | cons next parts =>
      have hcomma : (if next :: parts = [] then ([] : Bytes) else str ",") ++
          (partsText (some part) (next :: parts) ++ rest) =
            0x2C :: (partsText (some part) (next :: parts) ++ rest) := rfl
      rw [hcomma] at hfuel ⊢
      rw [List.length_cons] at hfuel
      obtain ⟨hread, hrefused⟩ := @ih (some part) (addr + 1) fuel (List.cons_ne_nil _ _)
        (fun p hp => hparts p (List.mem_cons_of_mem _ hp)) (by omega)
      rw [parseParts_more isdigit_charAt_partsText hpart hvalid, readable_cons]
      refine ⟨?_, ?_⟩
      · rintro ⟨hsize, hreadable⟩
        rw [if_neg hsize, hread hreadable]
        rfl
      · intro hnot
        by_cases hsize : part.size < minPartSize ∨ part.size = sizeRemaining
        · exact if_pos hsize
        · rw [if_neg hsize, hrefused fun h => hnot ⟨hsize, h⟩]
          rfl

theorem length_readAgain : (readAgain addr prev parts).length = parts.length := by
  induction parts generalizing addr prev with
  | nil => rfl
  | cons part parts ih => exact congrArg Nat.succ ih

theorem map_key_readAgain : (readAgain addr prev parts).map Part.key = parts.map Part.key := by
  induction parts generalizing addr prev with
  | nil => rfl
  | cons part parts ih =>
    have hkey : (part.again addr prev).key = part.key := by
      unfold Part.key Part.again
      cases part.autoName <;> rfl
    rw [readAgain, List.map_cons, List.map_cons, hkey, ih]

end Loop

end UBoot.Common.Mtdparts
