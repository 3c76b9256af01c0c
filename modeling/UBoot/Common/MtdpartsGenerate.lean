import UBoot.Common.Mtdparts

/-!
# The text for the variable

`generate_mtdparts` of `common/cmd_mtdparts.c` writes the lists of devices and partitions in the
syntax in which `mtdparts` is read.  A size gets the largest unit that divides it, an offset is
written where there is a gap, and a name where the user has given one.

* `generateMtdparts_eq`: where there is room for it, the text is that of the lists.
-/

namespace UBoot.Common.Mtdparts

open UBoot.Lib
open UBoot.LibGeneric

/-- `memsize_format` -/
def memsizeFormat (size : UInt32) : Bytes :=
  if size % 0x40000000 = 0 then digits (size / 0x40000000).toNat ++ str "g"
  else if size % 0x100000 = 0 then digits (size / 0x100000).toNat ++ str "m"
  else if size % 0x400 = 0 then digits (size / 0x400).toNat ++ str "k"
  else digits size.toNat

/-- The buffer up to `p`, and `maxlen`. -/
structure Out where
  text : Bytes
  maxlen : Nat

namespace Out

/-- "if (len > maxlen) goto cleanup", and the characters. -/
def put (o : Out) (s : Bytes) : Except Bytes Out :=
  if o.maxlen < s.length then .error o.text else .ok ⟨o.text ++ s, o.maxlen - s.length⟩

def putIf (o : Out) (c : Bool) (s : Bytes) : Except Bytes Out := if c then o.put s else .ok o

end Out

/-- "add offset only when there is a gap between partitions" -/
def gap (prev : Option Part) (part : Part) : Bool :=
  match prev with
  | none => part.offset ≠ 0
  | some prev => prev.offset + prev.size ≠ part.offset

/-- One turn of the inner loop. -/
def putPart (o : Out) (prev : Option Part) (part : Part) (more : Bool) : Except Bytes Out := do
  let o ← o.put (memsizeFormat part.size)
  let o ← o.putIf (gap prev part) (str "@" ++ memsizeFormat part.offset)
  let o ← o.putIf (!part.autoName) (str "(" ++ part.name ++ str ")")
  let o ← o.putIf (part.maskFlags ≠ 0) (str "ro")
  o.putIf more (str ",")

/-- The inner loop, with `part_cnt` in front of the turn. -/
def putParts (numParts : UInt16) : Nat → Option Part → List Part → Out → Except Bytes Out
  | _, _, [], o => .ok o
  | partCnt, prev, part :: rest, o => do
    let o ← putPart o prev part (partCnt + 1 < numParts.toNat)
    putParts numParts (partCnt + 1) (some part) rest o

/-- The outer loop. -/
def putDevices : List Device → Out → Except Bytes Out
  | [], o => .ok o
  | dev :: rest, o => do
    let o ← o.put (dev.id.mtdId ++ str ":")
    let o ← putParts dev.numParts 0 none dev.parts o
    let o ← o.putIf (rest ≠ []) (str ";")
    putDevices rest o

/-- `generate_mtdparts`: the text, or what has been written when there is no room for more.  The
first nine characters are not counted. -/
def generateMtdparts (devices : List Device) (buflen : Nat) : Except Bytes Bytes :=
  if devices = [] then .ok []
  else (putDevices devices ⟨str "mtdparts=", buflen - 1⟩).map Out.text

/-! ## The text -/

/-- The text of a partition, up to the separator. -/
def partText (prev : Option Part) (part : Part) : Bytes :=
  memsizeFormat part.size ++
    ((if gap prev part then str "@" ++ memsizeFormat part.offset else []) ++
      ((if part.autoName then [] else str "(" ++ part.name ++ str ")") ++
        if part.maskFlags = 0 then [] else str "ro"))

/-- The text of the partitions of a device. -/
def partsText : Option Part → List Part → Bytes
  | _, [] => []
  | prev, part :: rest =>
    partText prev part ++ ((if rest = [] then [] else str ",") ++ partsText (some part) rest)

/-- The text of the devices. -/
def devicesText : List Device → Bytes
  | [] => []
  | dev :: rest =>
    dev.id.mtdId ++ (str ":" ++ (partsText none dev.parts ++
      ((if rest = [] then [] else str ";") ++ devicesText rest)))

section Text

variable {o o' : Out} {prev : Option Part} {part : Part} {parts : List Part} {dev : Device}
  {devices : List Device} {s : Bytes} {c more : Bool} {numParts : UInt16} {n : Nat}

theorem put_text (h : o.put s = .ok o') : o'.text = o.text ++ s := by
  unfold Out.put at h
  split at h
  · cases h
  · cases h
    rfl

theorem putIf_text (h : o.putIf c s = .ok o') : o'.text = o.text ++ if c then s else [] := by
  cases c with
  | true => exact put_text h
  | false =>
    cases h
    exact (List.append_nil _).symm

theorem putPart_text (h : putPart o prev part more = .ok o') :
    o'.text = o.text ++ (partText prev part ++ if more then str "," else []) := by
  obtain ⟨o₁, h₁, h⟩ := bind_eq_ok.mp h
  obtain ⟨o₂, h₂, h⟩ := bind_eq_ok.mp h
  obtain ⟨o₃, h₃, h⟩ := bind_eq_ok.mp h
  obtain ⟨o₄, h₄, h⟩ := bind_eq_ok.mp h
  rw [putIf_text h, putIf_text h₄, putIf_text h₃, putIf_text h₂, put_text h₁, partText]
  have hflags : (if (decide (part.maskFlags ≠ 0)) = true then str "ro" else []) =
      if part.maskFlags = 0 then [] else str "ro" := by
    by_cases hzero : part.maskFlags = 0 <;> simp [hzero]
  have hname : (if (!part.autoName) = true then str "(" ++ part.name ++ str ")" else []) =
      if part.autoName then [] else str "(" ++ part.name ++ str ")" := by
    cases part.autoName <;> rfl
  rw [hflags, hname]
  simp only [List.append_assoc]

theorem putParts_text (hlen : n + parts.length = numParts.toNat)
    (h : putParts numParts n prev parts o = .ok o') :
    o'.text = o.text ++ partsText prev parts := by
  induction parts generalizing n prev o with
  | nil =>
    cases h
    exact (List.append_nil _).symm
  | cons part rest ih =>
    obtain ⟨o₁, h₁, h⟩ := bind_eq_ok.mp h
    rw [List.length_cons] at hlen
    have hmore : (if (decide (n + 1 < numParts.toNat)) = true then str "," else []) =
        if rest = [] then [] else str "," := by
      cases rest with
      | nil =>
        rw [List.length_nil] at hlen
        rw [if_pos rfl, if_neg (by simp; omega)]
      | cons p ps =>
        rw [List.length_cons] at hlen
        rw [if_pos (decide_eq_true (by omega)), if_neg (List.cons_ne_nil _ _)]
    rw [ih (by omega) h, putPart_text h₁, hmore, partsText]
    simp only [List.append_assoc]

theorem putDevices_text (hnum : ∀ dev ∈ devices, dev.numParts.toNat = dev.parts.length)
    (h : putDevices devices o = .ok o') : o'.text = o.text ++ devicesText devices := by
  induction devices generalizing o with
  | nil =>
    cases h
    exact (List.append_nil _).symm
  | cons dev rest ih =>
    obtain ⟨o₁, h₁, h⟩ := bind_eq_ok.mp h
    obtain ⟨o₂, h₂, h⟩ := bind_eq_ok.mp h
    obtain ⟨o₃, h₃, h⟩ := bind_eq_ok.mp h
    have hcount := hnum dev List.mem_cons_self
    have hsep : (if (decide (rest ≠ [])) = true then str ";" else []) =
        if rest = [] then [] else str ";" := by
      by_cases hrest : rest = [] <;> simp [hrest]
    rw [ih (fun d hd => hnum d (List.mem_cons_of_mem _ hd)) h, putIf_text h₃,
      putParts_text (by omega) h₂, put_text h₁, hsep, devicesText]
    simp only [List.append_assoc]

/-- Where there is room for it, the text is that of the lists. -/
theorem generateMtdparts_eq {buflen : Nat} (hne : devices ≠ [])
    (hnum : ∀ dev ∈ devices, dev.numParts.toNat = dev.parts.length)
    (h : generateMtdparts devices buflen = .ok s) :
    s = str "mtdparts=" ++ devicesText devices := by
  unfold generateMtdparts at h
  rw [if_neg hne] at h
  cases ho : putDevices devices ⟨str "mtdparts=", buflen - 1⟩ with
  | error e =>
    rw [ho] at h
    cases h
  | ok o =>
    rw [ho] at h
    cases h
    exact putDevices_text hnum ho

end Text

end UBoot.Common.Mtdparts
