import UBoot.Lib.Memory

/-!
# Command lines

`common/main.c`: `process_macros` and the loop of `run_command` over the commands of a line.

The environment is a parameter, and so is what a command does: `exec` takes the expanded token and
says whether the user has stopped the line.  `process_macros` gives, besides its output, the turns
of its loop: the position of the character that the switch looks at, with `state` and `prev`.
-/

namespace UBoot.Common

open UBoot.Lib

/-- A backslash. -/
abbrev backslash : UInt8 := 0x5C

/-- A single quote. -/
abbrev quoteMark : UInt8 := 0x27

/-- A dollar sign. -/
abbrev dollarSign : UInt8 := 0x24

/-- A semicolon. -/
abbrev semicolon : UInt8 := 0x3B

/-- An opening bracket of a variable reference. -/
def isOpening (c : UInt8) : Bool := c = 0x28 || c = 0x7B

/-- A closing bracket of a variable reference. -/
def isClosing (c : UInt8) : Bool := c = 0x29 || c = 0x7D

/-- `state` of `process_macros`, from 0 to 3. -/
inductive MacroState where
  | waitDollar
  | waitOpening
  | waitClosing
  | waitQuote
  deriving DecidableEq, Repr

/-- The variables of `process_macros`. -/
structure Macros where
  pos : Nat
  state : MacroState
  prev : UInt8
  varnameStart : Nat
  output : Bytes
  outputcnt : Nat
  deriving Repr

/-- A turn of the loop: the position of `c`, `state` and `prev` at the switch. -/
structure Turn where
  pos : Nat
  state : MacroState
  prev : UInt8
  deriving DecidableEq, Repr

namespace Macros

/-- `*(output++) = c; outputcnt--;` -/
def put (s : Macros) (c : UInt8) : Macros :=
  { s with output := s.output ++ [c], outputcnt := s.outputcnt - 1 }

/-- "Copy into the line if it exists" -/
def putValue (s : Macros) : Bytes → Macros
  | [] => s
  | c :: value => if s.outputcnt = 0 then s else (s.put c).putValue value

/-- The next character with its position and `prev`, after "remove one level of escape
characters"; `none` at the end of the input. -/
def nextChar (input : Bytes) (s : Macros) : Option (Nat × UInt8 × UInt8) :=
  match input[s.pos]? with
  | none => none
  | some c =>
    if s.state ≠ .waitQuote ∧ c = backslash ∧ s.prev ≠ backslash then
      match input[s.pos + 1]? with
      | none => none
      | some c' => some (s.pos + 1, c', c)
    else some (s.pos, c, s.prev)

/-- `switch (state)`, for the character at `pos`. -/
def switch (getenv : Bytes → Option Bytes) (input : Bytes) (pos : Nat) (c prev : UInt8)
    (s : Macros) : Macros :=
  match s.state with
  | .waitDollar =>
    if c = quoteMark ∧ prev ≠ backslash then { s with state := .waitQuote }
    else if c = dollarSign ∧ prev ≠ backslash then { s with state := .waitOpening }
    else s.put c
  | .waitOpening =>
    if isOpening c then { s with state := .waitClosing, varnameStart := pos + 1 }
    else
      let s := ({ s with state := .waitDollar } : Macros).put dollarSign
      if s.outputcnt ≠ 0 then s.put c else s
  | .waitClosing =>
    if isClosing c then
      let envname := (input.take pos).drop s.varnameStart
      match getenv envname with
      | some envval => ({ s with state := .waitDollar } : Macros).putValue envval
      | none => { s with state := .waitDollar }
    else s
  | .waitQuote =>
    if c = quoteMark ∧ prev ≠ backslash then { s with state := .waitDollar } else s.put c

/-- The loop of `process_macros`, with the turns it makes. -/
def loop (getenv : Bytes → Option Bytes) (input : Bytes) : Nat → Macros → Macros × List Turn
  | 0, s => (s, [])
  | fuel + 1, s =>
    if s.outputcnt = 0 then (s, [])
    else
      match nextChar input s with
      | none => (s, [])
      | some (pos, c, prev) =>
        let rest := loop getenv input fuel
          { switch getenv input pos c prev s with pos := pos + 1, prev := c }
        (rest.1, ⟨pos, s.state, prev⟩ :: rest.2)

/-- The variables at the start. -/
def init (cbsize : Nat) : Macros := ⟨0, .waitDollar, 0, 0, [], cbsize⟩

end Macros

/-- `process_macros`: the string in `output`. -/
def processMacros (getenv : Bytes → Option Bytes) (cbsize : Nat) (input : Bytes) : Bytes :=
  let s := (Macros.loop getenv input input.length (.init cbsize)).1
  if s.outputcnt ≠ 0 then s.output else s.output.dropLast

/-- The turns of `process_macros`. -/
def macroTurns (getenv : Bytes → Option Bytes) (cbsize : Nat) (input : Bytes) : List Turn :=
  (Macros.loop getenv input input.length (.init cbsize)).2

/-- `*(sep-1)` -/
def loadBefore (cmdbuf : Bytes) : Nat → Exec UInt8
  | 0 => .error (.load (2 ^ 32 - 1))
  | sep + 1 => load cmdbuf sep

/-- `if ((*sep=='\'') && (*(sep-1) != '\\')) inquotes=!inquotes;` -/
def toggle (cmdbuf : Bytes) (sep : Nat) (c : UInt8) (inquotes : Bool) : Exec Bool :=
  if c = quoteMark then do
    let p ← loadBefore cmdbuf sep
    return if p ≠ backslash then !inquotes else inquotes
  else .ok inquotes

/-- `!inquotes && (*sep == ';') && (sep != str) && (*(sep-1) != '\\')` -/
def isSeparator (cmdbuf : Bytes) (str sep : Nat) (c : UInt8) (inquotes : Bool) : Exec Bool :=
  if inquotes = false ∧ c = semicolon ∧ sep ≠ str then do
    let p ← loadBefore cmdbuf sep
    return p ≠ backslash
  else .ok false

/-- "Find separator, or string end" -/
def findSep (cmdbuf : Bytes) (str : Nat) : Nat → Nat → Bool → Exec Nat
  | 0, _, _ => .error .steps
  | fuel + 1, sep, inquotes => do
    let c ← load cmdbuf sep
    if c = 0 then return sep
    else
      let inquotes ← toggle cmdbuf sep c inquotes
      let found ← isSeparator cmdbuf str sep c inquotes
      if found then return sep else findSep cmdbuf str fuel (sep + 1) inquotes

/-- "Limit the token to data between separators": the buffer and the new `str`. -/
def limitToken (cmdbuf : Bytes) (sep : Nat) : Exec (Bytes × Nat) := do
  let c ← load cmdbuf sep
  if c ≠ 0 then return (← store cmdbuf sep 0, sep + 1) else return (cmdbuf, sep)

/-- What a command line runs in: the variables, and the effect of a command, which says whether
the line is stopped. -/
structure Shell (W : Type) where
  getenv : W → Bytes → Option Bytes
  exec : W → Bytes → W × Bool

/-- A command of the line: its start, the position of its separator or of the end of the line,
and what the world is before it. -/
structure Segment (W : Type) where
  start : Nat
  stop : Nat
  world : W

variable {W : Type}

/-- The loop of `run_command` over the commands of the line. -/
def runSegments (sh : Shell W) (cbsize : Nat) : Nat → Bytes → Nat → W → Exec (List (Segment W))
  | 0, _, _, _ => .error .steps
  | fuel + 1, cmdbuf, str, w => do
    let c ← load cmdbuf str
    if c = 0 then return []
    else
      let sep ← findSep cmdbuf str (cmdbuf.length + 1) str false
      let (cmdbuf, next) ← limitToken cmdbuf sep
      let token ← strAt cmdbuf (cmdbuf.length + 1) str
      let done := sh.exec w (processMacros (sh.getenv w) cbsize token)
      if done.2 then return [⟨str, sep, w⟩]
      else return ⟨str, sep, w⟩ :: (← runSegments sh cbsize fuel cmdbuf next done.1)

/-- `run_command`, with the bytes that are in `cmdbuf` at first: the commands of the line. -/
def runCommand (sh : Shell W) (cbsize : Nat) (stack cmd : Bytes) (w : W) :
    Exec (List (Segment W)) :=
  if cmd = [] then .ok []
  else if cbsize ≤ cmd.length then .ok []
  else do
    let (cmdbuf, _) ← storeStr stack 0 cmd
    runSegments sh cbsize (cmd.length + 1) cmdbuf 0 w

end UBoot.Common
