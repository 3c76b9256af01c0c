import UBoot.Lib.Memory

/-!
# Numbers in text

`lib_generic/vsprintf.c`, the readers.  A C string is here the list of its bytes
in front of the terminator, so "the character at `cp`" is `charAt cp`, which is
`'\0'` at the end.
-/

namespace UBoot.LibGeneric

open UBoot.Lib

/-- The bytes of a string literal. -/
def str (s : String) : Bytes := s.toList.map fun c => UInt8.ofNat c.toNat

/-- `*cp`. -/
def charAt : Bytes → UInt8
  | [] => 0
  | c :: _ => c

def isdigit (c : UInt8) : Bool := decide (48 ≤ c) && decide (c ≤ 57)

def islower (c : UInt8) : Bool := decide (97 ≤ c) && decide (c ≤ 122)

def isxdigit (c : UInt8) : Bool :=
  isdigit c || (decide (65 ≤ c) && decide (c ≤ 70)) || (decide (97 ≤ c) && decide (c ≤ 102))

def toupper (c : UInt8) : UInt8 := if islower c then c - 32 else c

/-- The value of one hexadecimal digit. -/
def digitValue (c : UInt8) : UInt32 :=
  if isdigit c then (c - 48).toUInt32 else (toupper c - 65).toUInt32 + 10

/-- The digit loop of `simple_strtoul`: the value and the text behind it. -/
def strtoulDigits (base : UInt32) : UInt32 → Bytes → UInt32 × Bytes
  | result, [] => (result, [])
  | result, c :: cp =>
    if isxdigit c && decide (digitValue c < base) then
      strtoulDigits base (result * base + digitValue c) cp
    else (result, c :: cp)

/-- `simple_strtoul(cp, &endp, base)` for a 32 bit `unsigned long`: the value and
the text from `endp` on. -/
def simpleStrtoul (cp : Bytes) (base : UInt32) : UInt32 × Bytes :=
  if charAt cp = 48 then
    let cp := cp.tail
    if charAt cp = 120 && isxdigit (charAt cp.tail) then
      strtoulDigits 16 0 cp.tail
    else
      strtoulDigits (if base = 0 then 8 else base) 0 cp
  else
    strtoulDigits (if base = 0 then 10 else base) 0 cp

example : simpleStrtoul (str "192.168") 10 = (192, str ".168") := by decide

example : simpleStrtoul (str "0x1F") 10 = (31, []) := by decide

end UBoot.LibGeneric
