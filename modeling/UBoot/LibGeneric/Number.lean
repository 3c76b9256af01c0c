import UBoot.LibGeneric.Div64
import UBoot.LibGeneric.Vsprintf

/-!
# Numbers that are printed

`put_dec` and `number` of `lib_generic/vsprintf.c`, and `simple_strtoull`, which reads them.  What a
function puts in a buffer is the list of the characters in their order; `put_dec` and `tmp` have the
low digit first.
-/

namespace UBoot.LibGeneric

open UBoot.Lib

/-! ## Decimal digits -/

/-- "*buf++ = d + '0'" -/
def putDigit (d : UInt32) : UInt8 := (d + 48).toUInt8

/-- `put_dec_trunc` -/
def putDecTrunc (q : UInt32) : Bytes :=
  let d1 := (q >>> 4) &&& 0xf
  let d2 := (q >>> 8) &&& 0xf
  let d3 := q >>> 12
  let d0 := 6 * (d3 + d2 + d1) + (q &&& 0xf)
  let q := (d0 * 0xcd) >>> 11
  let d0 := d0 - 10 * q
  let d1 := q + 9 * d3 + 5 * d2 + d1
  putDigit d0 ::
    if d1 ≠ 0 then
      let q := (d1 * 0xcd) >>> 11
      let d1 := d1 - 10 * q
      let d2 := q + 2 * d2
      putDigit d1 ::
        if d2 ≠ 0 ∨ d3 ≠ 0 then
          let q := (d2 * 0xd) >>> 7
          let d2 := d2 - 10 * q
          let d3 := q + 4 * d3
          putDigit d2 ::
            if d3 ≠ 0 then
              let q := (d3 * 0xcd) >>> 11
              let d3 := d3 - 10 * q
              putDigit d3 :: if q ≠ 0 then [putDigit q] else []
            else []
        else []
    else []

/-- `put_dec_full`: "Same with if's removed. Always emits five digits" -/
def putDecFull (q : UInt32) : Bytes :=
  let d1 := (q >>> 4) &&& 0xf
  let d2 := (q >>> 8) &&& 0xf
  let d3 := q >>> 12
  let d0 := 6 * (d3 + d2 + d1) + (q &&& 0xf)
  let q := (d0 * 0xcd) >>> 11
  let d0 := d0 - 10 * q
  let d1 := q + 9 * d3 + 5 * d2 + d1
  let q := (d1 * 0xcd) >>> 11
  let d1 := d1 - 10 * q
  let d2 := q + 2 * d2
  let q := (d2 * 0xd) >>> 7
  let d2 := d2 - 10 * q
  let d3 := q + 4 * d3
  let q := (d3 * 0xcd) >>> 11
  let d3 := d3 - 10 * q
  [putDigit d0, putDigit d1, putDigit d2, putDigit d3, putDigit q]

/-- `put_dec` -/
def putDec (num : UInt64) : Bytes :=
  if num < 100000 then putDecTrunc num.toUInt32
  else putDecFull (doDiv num 100000).2 ++ putDec (doDiv num 100000).1
termination_by num.toNat
decreasing_by
  have hge : ¬ num.toNat < 100000 := by assumption
  have hquot : (doDiv num 100000).1.toNat = num.toNat / 100000 := (doDiv_eq num (by decide)).1
  omega

/-! ## `number` -/

namespace Flag

def zeropad : UInt32 := 1
def sign : UInt32 := 2
def plus : UInt32 := 4
def space : UInt32 := 8
def left : UInt32 := 16
def small : UInt32 := 32
def special : UInt32 := 64

end Flag

/-- `type & flag` -/
def hasFlag (type flag : UInt32) : Bool := type &&& flag ≠ 0

/-- `digits[i]` -/
def digitOf (i : Nat) : UInt8 := (str "0123456789ABCDEF").getD i 0

/-- `shift` -/
def shiftOf (base : Nat) : UInt64 := if base = 16 then 4 else 3

/-- The digits in base 8 or 16, "do { .. } while (num)". -/
def maskDigits (base : Nat) (locase : UInt8) (num : UInt64) : Bytes :=
  (digitOf (num.toNat % 256 &&& (base - 1)) ||| locase) ::
    if num >>> shiftOf base ≠ 0 then maskDigits base locase (num >>> shiftOf base) else []
termination_by num.toNat
decreasing_by
  have hne := (by assumption : num >>> shiftOf base ≠ 0)
  have hpos : (num >>> shiftOf base).toNat ≠ 0 := fun h => hne (UInt64.toNat_inj.mp h)
  have hle : (num >>> shiftOf base).toNat ≤ num.toNat / 8 := by
    rw [shiftOf]
    split
    · rw [UInt64.toNat_shiftRight, Nat.shiftRight_eq_div_pow]
      change num.toNat / 16 ≤ _
      omega
    · rw [UInt64.toNat_shiftRight, Nat.shiftRight_eq_div_pow]
      exact Nat.le_refl _
  omega

/-- `tmp`, with the low digit first. -/
def tmpDigits (num : UInt64) (base : Nat) (locase : UInt8) : Bytes :=
  if num = 0 then [48] else if base ≠ 10 then maskDigits base locase num else putDec num

/-- "while (--size >= 0) *buf++ = c": the characters, and `size` behind it. -/
def padding (c : UInt8) (size : Int) : Bytes × Int :=
  (List.replicate size.toNat c, if size ≤ 0 then size - 1 else -1)

/-- The sign that is printed: the character, or none; and the number without it. -/
def takeSign (num : UInt64) (type : UInt32) : Option UInt8 × UInt64 :=
  if hasFlag type Flag.sign then
    if 2 ^ 63 ≤ num.toNat then (some 45, 0 - num)
    else if hasFlag type Flag.plus then (some 43, num)
    else if hasFlag type Flag.space then (some 32, num)
    else (none, num)
  else (none, num)

/-- `number` -/
def number (num : UInt64) (base : Nat) (size precision : Int) (type : UInt32) : Bytes :=
  let needPfx := hasFlag type Flag.special && base ≠ 10
  let locase := (type &&& Flag.small).toUInt8
  let type := if hasFlag type Flag.left then type &&& ~~~Flag.zeropad else type
  let (sign, num) := takeSign num type
  let size := if sign.isSome then size - 1 else size
  let size := if needPfx then (if base = 16 then size - 2 else size - 1) else size
  let tmp := tmpDigits num base locase
  -- "printing 100 using %2d gives \"100\", not \"00\""
  let precision := max (tmp.length : Int) precision
  let size := size - precision
  let (leading, size) :=
    if hasFlag type (Flag.zeropad ||| Flag.left) then ([], size) else padding 32 size
  let pfx := if needPfx then (if base = 16 then [48, 88 ||| locase] else [48]) else []
  let (zeros, size) :=
    if hasFlag type Flag.left then ([], size)
    else padding (if hasFlag type Flag.zeropad then 48 else 32) size
  let more := List.replicate (precision - tmp.length).toNat 48
  leading ++ sign.toList ++ pfx ++ zeros ++ more ++ tmp.reverse ++ (padding 32 size).1

/-! ## `simple_strtoull` -/

/-- The base that the front of a text stands for, and the text behind that. -/
def strtoStart (cp : Bytes) (base : UInt32) : UInt32 × Bytes :=
  if charAt cp = 48 then
    let cp := cp.tail
    if charAt cp = 120 && isxdigit (charAt cp.tail) then (16, cp.tail)
    else (if base = 0 then 8 else base, cp)
  else (if base = 0 then 10 else base, cp)

/-- The digit loop of `simple_strtoull`. -/
def strtoullDigits (base : UInt32) : UInt64 → Bytes → UInt64 × Bytes
  | result, [] => (result, [])
  | result, c :: cp =>
    if isxdigit c && decide (digitValue c < base) then
      strtoullDigits base (result * base.toUInt64 + (digitValue c).toUInt64) cp
    else (result, c :: cp)

/-- `simple_strtoull(cp, &endp, base)`: the value and the text from `endp` on. -/
def simpleStrtoull (cp : Bytes) (base : UInt32) : UInt64 × Bytes :=
  strtoullDigits (strtoStart cp base).1 0 (strtoStart cp base).2

end UBoot.LibGeneric
