import UBoot.Common.Bootm
import UBoot.Common.ParseLine
import UBoot.Lib.Prefix

/-!
# Completion of a line

`cmd_auto_complete` of `common/command.c`, with `complete_cmdv` and `var_complete`, and
`env_complete` of `common/env_common.c`.  The candidates `cmdv` are strings, each in an area of its
own that ends with its terminator; `tmp` is the area `tmp_buf` that the line is cut up in, and
`argv` is the array on the stack, with what has been there before.
-/

namespace UBoot.Common

open UBoot.Lib
open Bootm (findCmdTbl)

/-- `"..."` -/
def dots : Bytes := [0x2E, 0x2E, 0x2E]

/-- What `cmd_auto_complete` is built with: `CONFIG_SYS_CBSIZE`, `CONFIG_SYS_MAXARGS` and
`CONFIG_SYS_PROMPT`, the commands, each with whether `install_auto_complete` has given it
`var_complete`, and the area of the environment. -/
structure Completer where
  cbsize : Nat
  maxargs : Nat
  prompt : Bytes
  table : List (Bytes × Bool)
  env : Bytes

/-- `last_char == '\0' || last_char == ' ' || last_char == '\t'` -/
def isSpace (lastChar : UInt8) : Bool := lastChar = 0 || isBlank lastChar

/-- The string `argv[i]`. -/
def argStr (mem : Bytes) (argv : ArgPtrs) (i : Nat) : Exec Bytes :=
  match argv[i]? with
  | some (some a) => strAt mem (mem.length + 1) a
  | _ => .error (.load i)

/-! ## Candidates -/

/-- The loop of `env_complete`, from the `i`-th byte on. -/
def envCompleteFrom (data var : Bytes) (maxv : Nat) : Nat → Nat → Nat → Nat → Exec (List Bytes)
  | 0, _, _, _ => .error .steps
  | fuel + 1, i, found, bufsz => do
    if (← load data i) = 0 then return []
    let nxt ← scanWhile data (· ≠ 0) (data.length + 1) i
    let lval ← strAt data (data.length + 1) i
    let name := lval.takeWhile (· ≠ 61)
    if 0 < var.length ∧ (name.length < var.length ∨ name.take var.length ≠ var) then
      envCompleteFrom data var maxv fuel (nxt + 1) found bufsz
    else if maxv - 2 ≤ found ∨ bufsz < name.length + 1 then
      return [dots]
    else
      -- the name is copied into the buffer
      let cmdv ← envCompleteFrom data var maxv fuel (nxt + 1) (found + 1)
        (bufsz - (name.length + 1))
      return name :: cmdv

/-- `env_complete` -/
def envComplete (data var : Bytes) (maxv bufsz : Nat) : Exec (List Bytes) :=
  envCompleteFrom data var maxv (data.length + 1) 0 0 bufsz

/-- `var_complete` -/
def varComplete (data mem : Bytes) (argc : Nat) (argv : ArgPtrs) (lastChar : UInt8) (maxv : Nat) :
    Exec (List Bytes) := do
  if isSpace lastChar = true ∧ argc = 1 then
    envComplete data [] maxv 512
  else if isSpace lastChar = false ∧ argc = 2 then
    envComplete data (← argStr mem argv 1) maxv 512
  else
    return []

/-- The commands whose names start with `cmd`, after `nFound` of them. -/
def listMatches (maxv : Nat) (cmd : Bytes) : List (Bytes × Bool) → Nat → List Bytes
  | [], _ => []
  | (name, _) :: table, nFound =>
    if name.length < cmd.length then listMatches maxv cmd table nFound
    else if name.take cmd.length ≠ cmd then listMatches maxv cmd table nFound
    else if maxv - 2 ≤ nFound then [dots]
    else name :: listMatches maxv cmd table (nFound + 1)

/-- `complete_cmdv`: the number of candidates and `cmdv` up to its `NULL`. -/
def completeCmdv (c : Completer) (mem : Bytes) (argc : Nat) (argv : ArgPtrs) (lastChar : UInt8)
    (maxv : Nat) : Exec (Int × List Bytes) := do
  if maxv < 2 then return (-2, [])
  if argc = 0 then
    -- the full list: the loop is the one below without the comparison
    let cmdv := listMatches maxv [] c.table 0
    return (cmdv.length, cmdv)
  let cmd ← argStr mem argv 0
  if 1 < argc ∨ isSpace lastChar = true then
    match findCmdTbl cmd c.table with
    | some true =>
      let cmdv ← varComplete c.env mem argc argv lastChar maxv
      return (cmdv.length, cmdv)
    | _ => return (0, [])
  let cmdv := listMatches maxv (cmd.takeWhile (· ≠ 0x2E)) c.table 0
  return (cmdv.length, cmdv)

/-! ## Appending -/

/-- `find_common_prefix` -/
def findCommonPrefix : List Bytes → Exec Nat
  | [] => .ok 0
  | anchor :: argv =>
    argv.foldlM (fun len t => commonLen (anchor ++ [0]) (t ++ [0]) len 0) anchor.length

/-- `strlen(argv[argc - 1])`, and nothing is known of `argv[-1]`. -/
def lastLen (mem : Bytes) (argv : ArgPtrs) : Nat → Exec Nat
  | 0 => .error (.load 0)
  | argc + 1 => do return (← argStr mem argv argc).length

/-- The text to append: `len` bytes of the first candidate from the `start`-th on, and `sep`, which
is empty for `NULL`. -/
structure Suffix where
  start : Nat
  len : Nat
  sep : Bytes
  deriving DecidableEq, Repr

/-- `s`, `len` and `sep`, or `none` for an `s` of `NULL`. -/
def findSuffix (mem : Bytes) (argc : Nat) (argv : ArgPtrs) (i : Int) (cmdv : List Bytes) :
    Exec (Option Suffix) := do
  if i = 1 then
    let cand := cmdv.headD []
    let k ← lastLen mem argv argc
    let s ← strAt (cand ++ [0]) (cand.length + 2) k
    return some ⟨k, s.length, [0x20]⟩
  else if 1 < i then
    let j ← findCommonPrefix cmdv
    if j = 0 then return none
    let k ← lastLen mem argv argc
    if 0 < j - k then return some ⟨k, j - k, []⟩ else return none
  else
    return none

/-- `for (i = 0; i < len; i++) *t++ = *s++;` -/
def copyChars (src : Bytes) : Nat → Nat → Bytes → Nat → Exec Bytes
  | 0, _, buf, _ => .ok buf
  | len + 1, s, buf, t => do
    let buf ← store buf t (← load src s)
    copyChars src len (s + 1) buf (t + 1)

/-- What is written to the console. -/
inductive Printed
  | putc (c : UInt8)
  | puts (s : Bytes)
  | printArgv (cmdv : List Bytes)
  deriving DecidableEq, Repr

structure Completion where
  ret : Nat
  buf : Bytes
  n : Nat
  col : Nat
  printed : List Printed
  deriving DecidableEq, Repr

/-- `cmd_auto_complete` behind the search for `s`: the suffix is appended to the line, or the
candidates are listed. -/
def applySuffix (c : Completer) (prompt line buf : Bytes) (n col : Nat) (cmdv : List Bytes) :
    Option Suffix → Exec Completion
  | none => .ok ⟨1, buf, n, col, [.printArgv cmdv, .puts prompt, .puts line]⟩
  | some suffix => do
    let k := suffix.len + suffix.sep.length
    if c.cbsize - 2 ≤ n + k then return ⟨1, buf, n, col, [.putc 7]⟩
    let buf ← copyChars (cmdv.headD [] ++ [0]) suffix.len suffix.start buf line.length
    let buf ← copyChars suffix.sep suffix.sep.length 0 buf (line.length + suffix.len)
    let buf ← store buf (line.length + k) 0
    let shown ← strAt buf (buf.length + 1) line.length
    return ⟨1, buf, n + k, col + k, .puts shown :: if suffix.sep = [] then [.putc 7] else []⟩

/-- `last_char`, for a line of `cnt` bytes -/
def lastCharOf (buf : Bytes) (cnt : Nat) : Exec UInt8 :=
  if 1 ≤ cnt then load buf (cnt - 1) else .ok 0

/-- `cmd_auto_complete` -/
def cmdAutoComplete (c : Completer) (prompt tmp : Bytes) (argv : ArgPtrs) (buf : Bytes)
    (n col : Nat) : Exec Completion := do
  if prompt ≠ c.prompt then return ⟨0, buf, n, col, []⟩
  let line ← strAt buf (buf.length + 1) 0
  let lastChar ← lastCharOf buf line.length
  let (tmp, _) ← storeStr tmp 0 line
  let (argc, argv, tmp) ← makeArgv tmp 0 (c.maxargs + 1) argv
  let (i, cmdv) ← completeCmdv c tmp argc argv lastChar 20
  if i = 0 then
    if 1 < argc then return ⟨0, buf, n, col, []⟩
    return ⟨1, buf, n, col, [.putc 7]⟩
  applySuffix c prompt line buf n col cmdv (← findSuffix tmp argc argv i cmdv)

end UBoot.Common
