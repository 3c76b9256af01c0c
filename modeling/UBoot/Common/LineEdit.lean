import UBoot.Lib.Memory

/-!
# The line editor

`common/main.c`: `cread_line` with its history.  A call of `cread_line` is the state after its
first lines (`creadStart`) and one step for each character that `getc` gives (`creadKey`).  The
buffer and the lines of the history are areas with checked access.  What is echoed is left out,
except that `putnstr` reads the buffer; so is the completion of commands.
-/

namespace UBoot.Common

open UBoot.Lib

/-- `MAX_CMDBUF_SIZE` -/
def maxCmdbufSize : Nat := 256

/-- `HIST_MAX` -/
def histMaxLines : Nat := 20

/-- `HIST_SIZE` -/
def histSize : Nat := maxCmdbufSize

/-- `CREAD_HIST_CHAR` -/
def creadHistChar : UInt8 := 0x21

/-- `CTL_CH` -/
def ctlCh (c : UInt8) : UInt8 := c - 0x61 + 1

/-- The history. -/
structure Hist where
  histMax : Nat
  histAddIdx : Nat
  histCur : Int
  histNum : Nat
  histLines : List Bytes

/-- The variables of `cread_line`. -/
structure Editor where
  num : Nat
  eolNum : Nat
  insert : Bool
  escLen : Nat
  escSave : Bytes
  buf : Bytes

/-- `hist_init` -/
def histInit : Hist :=
  ⟨0, 0, -1, 0, List.replicate histMaxLines (List.replicate histSize 0)⟩

/-- `cread_add_to_hist` -/
def creadAddToHist (h : Hist) (line : Bytes) : Exec Hist :=
  match h.histLines[h.histAddIdx]? with
  | none => .error (.store h.histAddIdx)
  | some old => do
    let (new, _) ← storeStr old 0 line
    let addIdx := if histMaxLines ≤ h.histAddIdx + 1 then 0 else h.histAddIdx + 1
    return { h with
      histLines := h.histLines.set h.histAddIdx new
      histAddIdx := addIdx
      histMax := if h.histMax < addIdx then addIdx else h.histMax
      histNum := (h.histNum + 1) % 2 ^ 32 }

/-- `hist_prev`: the history, and the index of the line. -/
def histPrev (h : Hist) : Hist × Option Nat :=
  if h.histCur < 0 then (h, none)
  else
    let cur := if h.histCur - 1 < 0 then (h.histMax : Int) else h.histCur - 1
    if cur = h.histAddIdx then (h, none) else ({ h with histCur := cur }, some cur.toNat)

/-- What `hist_next` returns. -/
inductive NextLine where
  | null
  | empty
  | line (i : Nat)

/-- `hist_next` -/
def histNext (h : Hist) : Hist × NextLine :=
  if h.histCur < 0 then (h, .null)
  else if h.histCur = h.histAddIdx then (h, .null)
  else
    let cur := if (h.histMax : Int) < h.histCur + 1 then 0 else h.histCur + 1
    if cur = h.histAddIdx then ({ h with histCur := cur }, .empty)
    else ({ h with histCur := cur }, .line cur.toNat)

/-- `putnstr`: `printf` reads up to `n` characters of the string. -/
def putnstr (buf : Bytes) : Nat → Nat → Exec Unit
  | _, 0 => .ok ()
  | i, n + 1 => do
    let c ← load buf i
    if c = 0 then .ok () else putnstr buf (i + 1) n

/-- `memmove(&buf[dst], &buf[src], n)` -/
def memmove (buf : Bytes) (dst src n : Nat) : Exec Bytes :=
  if n = 0 then .ok buf
  else if buf.length < src + n then .error (.load (src + n - 1))
  else if buf.length < dst + n then .error (.store (dst + n - 1))
  else .ok (buf.take dst ++ ((buf.drop src).take n ++ buf.drop (dst + n)))

/-- The unsigned difference of two indices. -/
def usub (a b : Nat) : Nat := (a + 2 ^ 32 - b) % 2 ^ 32

namespace Editor

/-- `BEGINNING_OF_LINE` -/
def beginningOfLine (e : Editor) : Editor := { e with num := 0 }

/-- `ERASE_TO_EOL` -/
def eraseToEol (e : Editor) : Editor := if e.num < e.eolNum then { e with eolNum := e.num } else e

/-- `REFRESH_TO_EOL` -/
def refreshToEol (e : Editor) : Exec Editor :=
  if e.num < e.eolNum then do
    putnstr e.buf e.num (usub e.eolNum e.num)
    return { e with num := e.eolNum }
  else .ok e

/-- The characters from `num` on are moved up by one. -/
def openGap (buf : Bytes) (num wlen : Nat) : Exec Bytes :=
  if 1 < wlen then memmove buf (num + 1) num (wlen - 1) else .ok buf

/-- `cread_add_char`, behind "room ???". -/
def placeChar (ichar : UInt8) (insert : Bool) (e : Editor) : Exec Editor :=
  if insert then do
    let wlen := usub e.eolNum e.num
    let buf ← openGap e.buf e.num wlen
    let buf ← store buf e.num ichar
    putnstr buf e.num wlen
    return { e with buf := buf, num := e.num + 1 }
  else do
    let buf ← store e.buf e.num ichar
    putnstr buf e.num 1
    return { e with buf := buf, num := e.num + 1 }

/-- `cread_add_char` -/
def creadAddChar (ichar : UInt8) (insert : Bool) (len : Nat) (e : Editor) : Exec Editor :=
  if insert ∨ e.num = e.eolNum then
    if len - 1 < e.eolNum then .ok e
    else placeChar ichar insert { e with eolNum := e.eolNum + 1 }
  else placeChar ichar insert e

/-- `cread_add_str` -/
def creadAddStr : Bytes → Bool → Nat → Editor → Exec Editor
  | [], _, _, e => .ok e
  | c :: str, insert, len, e => do
    let e ← creadAddChar c insert len e
    creadAddStr str insert len e

/-- `^F` -/
def forward (e : Editor) : Exec Editor :=
  if e.num < e.eolNum then do
    let _ ← load e.buf e.num
    return { e with num := e.num + 1 }
  else .ok e

/-- `^B` -/
def back (e : Editor) : Editor := if e.num ≠ 0 then { e with num := e.num - 1 } else e

/-- `^D` -/
def deleteChar (e : Editor) : Exec Editor :=
  if e.num < e.eolNum then do
    let wlen := usub e.eolNum (e.num + 1)
    let buf ← memmove e.buf e.num (e.num + 1) wlen
    putnstr buf e.num wlen
    return { e with buf := buf, eolNum := e.eolNum - 1 }
  else .ok e

/-- Backspace and `DEL`. -/
def backspace (e : Editor) : Exec Editor :=
  if e.num ≠ 0 then do
    let wlen := usub e.eolNum e.num
    let num := e.num - 1
    let buf ← memmove e.buf num (num + 1) wlen
    putnstr buf num wlen
    return { e with buf := buf, num := num, eolNum := e.eolNum - 1 }
  else .ok e

/-- "nuke the current line" and "copy new line into place and display" -/
def showLine (hline : Bytes) (e : Editor) : Exec Editor := do
  let e := e.beginningOfLine.eraseToEol
  let (buf, eolNum) ← storeStr e.buf 0 hline
  refreshToEol { e with buf := buf, eolNum := eolNum }

end Editor

/-- What a character is for. -/
inductive Key where
  | escape
  | beginningOfLine
  | abort
  | forward
  | back
  | deleteChar
  | eraseToEol
  | refreshToEol
  | toggleInsert
  | eraseLine
  | backspace
  | histPrev
  | histNext
  | char
  deriving DecidableEq, Repr

/-- The cases of the last switch of `cread_line`. -/
def keyOf (ichar : UInt8) : Key :=
  if ichar = 0x1B then .escape
  else if ichar = ctlCh 0x61 then .beginningOfLine
  else if ichar = ctlCh 0x63 then .abort
  else if ichar = ctlCh 0x66 then .forward
  else if ichar = ctlCh 0x62 then .back
  else if ichar = ctlCh 0x64 then .deleteChar
  else if ichar = ctlCh 0x6B then .eraseToEol
  else if ichar = ctlCh 0x65 then .refreshToEol
  else if ichar = ctlCh 0x6F then .toggleInsert
  else if ichar = ctlCh 0x78 ∨ ichar = ctlCh 0x75 then .eraseLine
  else if ichar = 255 ∨ ichar = 127 ∨ ichar = 8 then .backspace
  else if ichar = ctlCh 0x70 then .histPrev
  else if ichar = ctlCh 0x6E then .histNext
  else .char

/-- The control character that an escape sequence stands for. -/
def escKey (ichar : UInt8) : Option UInt8 :=
  if ichar = 0x44 then some (ctlCh 0x62)
  else if ichar = 0x43 then some (ctlCh 0x66)
  else if ichar = 0x48 then some (ctlCh 0x61)
  else if ichar = 0x41 then some (ctlCh 0x70)
  else if ichar = 0x42 then some (ctlCh 0x6E)
  else none

/-- After a character: the editor goes on, or the line is done with a result. -/
inductive CreadResult where
  | more (h : Hist) (e : Editor)
  | done (h : Hist) (rc : Int) (buf : Bytes) (len : Nat)

/-- The string that starts a line of the history. -/
def histLine (h : Hist) (i : Nat) : Exec Bytes :=
  match h.histLines[i]? with
  | none => .error (.load i)
  | some line => strAt line (line.length + 1) 0

/-- `case CTL_CH('p')` and `case CTL_CH('n')` -/
def histRecall (h : Hist) (e : Editor) (key : Key) : Exec CreadResult :=
  let e := { e with escLen := 0 }
  if key = .histPrev then
    match histPrev h with
    | (h, none) => .ok (.more h e)
    | (h, some i) => do
      let hline ← histLine h i
      return .more h (← e.showLine hline)
  else
    match histNext h with
    | (h, .null) => .ok (.more h e)
    | (h, .empty) => do return .more h (← e.showLine [])
    | (h, .line i) => do
      let hline ← histLine h i
      return .more h (← e.showLine hline)

/-- The last switch of `cread_line`. -/
def creadSwitch (h : Hist) (e : Editor) (ichar : UInt8) : Exec CreadResult :=
  match keyOf ichar with
  | .escape =>
    if e.escLen = 0 then do
      let escSave ← store e.escSave e.escLen ichar
      return .more h { e with escSave := escSave, escLen := 1 }
    else .ok (.more h { e with escLen := 0 })
  | .beginningOfLine => .ok (.more h e.beginningOfLine)
  | .abort => do return .done h (-1) (← store e.buf 0 0) maxCmdbufSize
  | .forward => do return .more h (← e.forward)
  | .back => .ok (.more h e.back)
  | .deleteChar => do return .more h (← e.deleteChar)
  | .eraseToEol => .ok (.more h e.eraseToEol)
  | .refreshToEol => do return .more h (← e.refreshToEol)
  | .toggleInsert => .ok (.more h { e with insert := !e.insert })
  | .eraseLine => .ok (.more h e.beginningOfLine.eraseToEol)
  | .backspace => do return .more h (← e.backspace)
  | .histPrev => histRecall h e .histPrev
  | .histNext => histRecall h e .histNext
  | .char => do return .more h (← e.creadAddChar ichar e.insert maxCmdbufSize)

/-- The end of `cread_line`. -/
def creadEnd (h : Hist) (e : Editor) : Exec CreadResult := do
  let buf ← store e.buf e.eolNum 0
  let c ← load buf 0
  if c ≠ 0 ∧ c ≠ creadHistChar then do
    let line ← strAt buf (buf.length + 1) 0
    let h ← creadAddToHist h line
    return .done { h with histCur := h.histAddIdx } 0 buf e.eolNum
  else return .done { h with histCur := h.histAddIdx } 0 buf e.eolNum

/-- The loop of `cread_line` for one character. -/
def creadKey (h : Hist) (e : Editor) (ichar : UInt8) : Exec CreadResult :=
  if ichar = 0x0A ∨ ichar = 0x0D then creadEnd h e
  else if e.escLen = 0 then creadSwitch h e ichar
  else if e.escLen = 1 then
    if ichar = 0x5B then do
      let escSave ← store e.escSave e.escLen ichar
      return .more h { e with escSave := escSave, escLen := 2 }
    else do
      let e ← e.creadAddStr (e.escSave.take e.escLen) e.insert maxCmdbufSize
      return .more h { e with escLen := 0 }
  else
    match escKey ichar with
    | some key => creadSwitch h { e with escLen := 0 } key
    | none => do
      let escSave ← store e.escSave e.escLen ichar
      let e ← { e with escSave := escSave }.creadAddStr (escSave.take (e.escLen + 1)) e.insert
        maxCmdbufSize
      return .more h { e with escLen := 0 }

/-- The start of `cread_line`, with the string that is in the buffer. -/
def creadStart (escSave buf : Bytes) : Exec Editor := do
  let init ← strAt buf (buf.length + 1) 0
  Editor.creadAddStr init true maxCmdbufSize ⟨0, 0, true, 0, escSave, buf⟩

end UBoot.Common
