import UBoot.Common.EnvEdit

/-!
# `setenv` and `getenv`

`common/cmd_nvedit.c` on the copy of the environment in RAM.  `doSetenv` is
`_do_setenv`, with every branch of it: the illegal name, the console variables,
the variables that can be set only once, the baud rate, the removal of the old
definition, the new one, and the variables that also live elsewhere.  `getenv` is
the lookup.

What the function asks of other parts of the program is in `Board`: the
compile-time options, the table of baud rates, and the answers of the console
code.  What it changes outside the environment is in `Globals`, the printed text
included.

An argument vector (`Argv`) is what `run_command` and the C callers hand over:
strings of C, whose total length is far below the range of an `int` because they
are cut out of one console line of `CONFIG_SYS_CBSIZE` bytes.
-/

namespace UBoot.Common

open UBoot.Lib
open UBoot.LibGeneric

/-- `env_t`, with the flag byte of the redundant layouts. -/
structure Env where
  crc : UInt32
  flags : UInt8
  data : Bytes
  deriving DecidableEq, Repr

/-! ## Arguments -/

/-- `argv[2..argc)`. -/
inductive Values
  /-- `argc < 3` -/
  | absent
  /-- `argc ≥ 3` and `argv[2] == NULL`, as `forceenv` passes it for a missing value -/
  | null
  | words (v : Bytes) (vs : List Bytes)
  deriving DecidableEq, Repr

/-- The value words. -/
def Values.list : Values → List Bytes
  | .words v vs => v :: vs
  | _ => []

/-- `argv[2]`. -/
def Values.first : Values → Option Bytes
  | .words v _ => some v
  | _ => none

/-- The arguments of one call.  `behind` is the memory behind the terminator of the
name. -/
structure Argv where
  name : Bytes
  behind : Bytes
  values : Values
  name_str : 0 ∉ name
  values_str : ∀ v ∈ values.list, 0 ∉ v
  size_lt : name.length + 2 + (values.list.map fun v => v.length + 1).sum < 2 ^ 31

/-- The bytes from `argv[1]` on. -/
def Argv.nameMem (a : Argv) : Bytes := a.name ++ 0 :: a.behind

/-! ## Surroundings -/

/-- Compile-time options and the answers of other modules. -/
structure Board where
  /-- `CONFIG_CONSOLE_MUX` -/
  consoleMux : Bool
  /-- `CONFIG_SERIAL_MULTI` -/
  serialMulti : Bool
  /-- `CONFIG_ENV_OVERWRITE` -/
  envOverwrite : Bool
  /-- `CONFIG_HAS_UID` -/
  hasUid : Bool
  /-- `MK_STR(CONFIG_ETHADDR)` when `CONFIG_OVERWRITE_ETHADDR_ONCE` is defined too -/
  ethaddrOnce : Option Bytes
  /-- `CONFIG_CMD_NET` -/
  cmdNet : Bool
  /-- `CONFIG_SYS_BAUDRATE_TABLE` -/
  baudrateTable : List UInt32
  iomuxDoenv : Nat → Option Bytes → Int
  consoleAssign : Nat → Option Bytes → Int
  serialAssign : Option Bytes → Int
  /-- the string at address 0, which is what `argv[2] == NULL` points to -/
  atNull : Bytes
  ethaddr_str : ∀ addr ∈ ethaddrOnce, 0 ∉ addr

/-- The variables of the program that `_do_setenv` changes, and what it prints. -/
structure Globals where
  env : Env
  envId : UInt32
  baudrate : UInt32
  biIpAddr : UInt32
  loadAddr : UInt32
  bootFile : Bytes
  printed : List Bytes
  deriving DecidableEq, Repr

namespace Globals

def print (g : Globals) (text : Bytes) : Globals := { g with printed := g.printed ++ [text] }

def setData (g : Globals) (data : Bytes) : Globals := { g with env := { g.env with data := data } }

/-- `env_crc_update()` of `common/env_common.c`. -/
def envCrcUpdate (crc : Bytes → UInt32) (g : Globals) : Globals :=
  { g with env := { g.env with crc := crc g.env.data } }

@[simp] theorem print_env (g : Globals) (text : Bytes) : (g.print text).env = g.env := rfl

@[simp] theorem setData_env (g : Globals) (data : Bytes) :
    (g.setData data).env = { g.env with data := data } := rfl

@[simp] theorem envCrcUpdate_env (crc : Bytes → UInt32) (g : Globals) :
    (g.envCrcUpdate crc).env = { g.env with crc := crc g.env.data } := rfl

end Globals

/-! ## The steps of `_do_setenv` -/

/-- The console that a variable stands for. -/
def consoleOf (name : Bytes) : Option Nat :=
  if name = str "stdin" then some 0
  else if name = str "stdout" then some 1
  else if name = str "stderr" then some 2
  else none

/-- Check for console redirection; the return code and the text when it fails. -/
def redirectConsole (b : Board) (a : Argv) : Option (Int × Option Bytes) :=
  match consoleOf a.name with
  | none => none
  | some console =>
    if a.values = .absent then
      some (1, some (str "Can't delete \"" ++ a.name ++ str "\"\n"))
    else if b.consoleMux then
      let i := b.iomuxDoenv console a.values.first
      if i ≠ 0 then some (i, none) else none
    else if b.consoleAssign console a.values.first < 0 then
      some (1, none)
    else if b.serialMulti ∧ b.serialAssign a.values.first < 0 then
      some (1, none)
    else none

/-- Ethernet Address and serial# can be set only once. -/
def writeProtected (b : Board) (data : Bytes) (flag : UInt32) (name : Bytes) (oldval : Nat) :
    Exec Bool := do
  if b.envOverwrite then
    return false
  else if name = str "serial#" then
    return !b.hasUid || decide (flag ≠ 0xdeaf4add)
  else if name = str "ethaddr" then
    match b.ethaddrOnce with
    | none => return true
    | some addr => return !(← strEq data oldval addr)
  else
    return false

/-- `simple_strtoul(argv[2], NULL, 10)`. -/
def argBaudrate (b : Board) (a : Argv) : UInt32 :=
  (simpleStrtoul (a.values.first.getD b.atNull) 10).1

/-- Is this the baud rate, with a value that is not supported? -/
def badBaudrate (b : Board) (a : Argv) : Bool :=
  decide (a.name = str "baudrate") && !b.baudrateTable.contains (argBaudrate b a)

/-- `%d` of an `int`. -/
def decimal (x : UInt32) : Bytes := str (toString ((x.toNat : Int).bmod (2 ^ 32)))

/-- Switch to new baudrate if new baudrate is supported. -/
def switchBaudrate (b : Board) (a : Argv) (g : Globals) : Globals :=
  if a.name = str "baudrate" then
    { g.print (str "## Switch baudrate to " ++ decimal (argBaudrate b a) ++
        str " bps and press ENTER ...\n") with baudrate := argBaudrate b a }
  else g

@[simp] theorem switchBaudrate_env (b : Board) (a : Argv) (g : Globals) :
    (switchBaudrate b a g).env = g.env := by
  rw [switchBaudrate]
  split <;> rfl

/-- The four numbers of an address, each behind one separator. -/
def parseIp : Nat → UInt32 → Bytes → UInt32
  | 0, addr, _ => addr
  | n + 1, addr, s =>
    let (val, e) := simpleStrtoul s 10
    parseIp n (addr <<< 8 ||| (val &&& 0xFF)) e.tail

def htonl (x : UInt32) : UInt32 :=
  x <<< 24 ||| (x <<< 8) &&& (0xFF0000 : UInt32) ||| (x >>> 8) &&& (0xFF00 : UInt32) ||| x >>> 24

example : htonl 0xC0A80001 = 0x0100A8C0 := by decide

/-- The loop of `copy_filename`: at most `size - 1` bytes, up to a quotation mark. -/
def copyFilenameLoop : Nat → Bytes → Bytes
  | n + 2, c :: src => if c = 34 then [] else c :: copyFilenameLoop (n + 1) src
  | _, _ => []

/-- `copy_filename(dst, src, size)` of `net/net.c`. -/
def copyFilename (src : Bytes) (size : Nat) : Bytes :=
  if charAt src = 34 then copyFilenameLoop (size - 1) src.tail else copyFilenameLoop size src

/-- Some variables should be updated when the corresponding entry in the environment
is changed. -/
def updateVariable (b : Board) (name v : Bytes) (g : Globals) : Globals :=
  if name = str "ethaddr" then g
  else if name = str "ipaddr" then { g with biIpAddr := htonl (parseIp 4 0 v) }
  else if name = str "loadaddr" then { g with loadAddr := (simpleStrtoul v 16).1 }
  else if b.cmdNet ∧ name = str "bootfile" then { g with bootFile := copyFilename v 128 }
  else g

@[simp] theorem updateVariable_env (b : Board) (name v : Bytes) (g : Globals) :
    (updateVariable b name v g).env = g.env := by
  simp only [updateVariable]
  split_ifs <;> rfl

/-- What is printed when the new definition does not fit. -/
def overflowText (name : Bytes) : Bytes :=
  str "## Error: environment overflow, \"" ++ name ++ str "\" deleted\n"

/-- From "Delete only ?" to the end. -/
def define (b : Board) (crc : Bytes → UInt32) (a : Argv) (g : Globals) : Exec (Int × Globals) :=
  match a.values with
  | .words v vs => do
    match ← appendDef g.env.data a.name (v :: vs) with
    | none => return (1, g.print (overflowText a.name))
    | some data => return (0, updateVariable b a.name v ((g.setData data).envCrcUpdate crc))
  | _ => return (0, g.envCrcUpdate crc)

/-- `_do_setenv(flag, argc, argv)`: the return code and what it leaves behind. -/
def doSetenv (b : Board) (crc : Bytes → UInt32) (flag : UInt32) (a : Argv) (g : Globals) :
    Exec (Int × Globals) := do
  if 61 ∈ a.name then
    return (1, g.print (str "## Error: illegal character '=' in variable name \"" ++ a.name ++
      str "\"\n"))
  else
    let g := { g with envId := g.envId + 1 }
    let old ← search g.env.data (fun _ => false) a.nameMem
    match redirectConsole b a with
    | some (rc, text) => return (rc, text.elim g g.print)
    | none =>
      match old with
      | .found env nxt oldval =>
        if ← writeProtected b g.env.data flag a.name oldval then
          return (1, g.print (str "Can't overwrite \"" ++ a.name ++ str "\"\n"))
        else if badBaudrate b a then
          return (1, g.print (str "## Baudrate " ++ decimal (argBaudrate b a) ++
            str " bps not supported\n"))
        else
          let g := switchBaudrate b a g
          let data ← deleteEntry .stepBack g.env.data env nxt
          define b crc a (g.setData data)
      | _ => define b crc a g

/-! ## Looking a variable up -/

/-- `getenv(name)`: the index of the value.  The walk gives up at `CONFIG_ENV_SIZE`,
which is `ENV_SIZE` and the header. -/
def getenv (configEnvSize : Nat) (data nameMem : Bytes) : Exec (Option Nat) := do
  match ← search data (fun nxt => decide (configEnvSize ≤ nxt)) nameMem with
  | .found _ _ val => return some val
  | _ => return none

/-- The string that `getenv` points to. -/
def getenvString (configEnvSize : Nat) (data nameMem : Bytes) : Exec (Option Bytes) := do
  match ← getenv configEnvSize data nameMem with
  | some val => return some (← strAt data (data.length + 1) val)
  | none => return none

end UBoot.Common
