import UBoot.Lib.Packed
import UBoot.LibGeneric.Vsprintf

/-!
# Editing the environment area in place

The environment is a list of `\0` terminated `name=value` strings closed by a
double `\0`, packed at the front of `data[ENV_SIZE]`.  `common/cmd_nvedit.c` and
`tools/env/fw_env.c` edit that area with the same loops, each in its own copy.
They are written out once here, over an area `m` whose length is `ENV_SIZE`:

* `envmatch`: compare a name with the string at an index;
* `search`: the walk over the strings, up to the first one that matches;
* `shiftDown` and `deleteEntry`: remove the string found, in its three shapes;
* `scanDoubleNul` and `appendDef`: find the end, check the room, write the new
  definition.

The two programs differ where the last string is removed (`Removal`) and in when
the walk of `search` gives up (`stop`).
-/

namespace UBoot.Common

open UBoot.Lib

/-! ## Looking a name up -/

/-- `envmatch(s1, i2)`.  The pointer `s1` is the list of the bytes from there on:
the name, its terminator and what lies behind it in memory.  The walk follows
both sides past a common `\0`, so a string without `=` lets it run on. -/
def envmatch (m : Bytes) : Bytes → Nat → Exec (Option Nat)
  | [], _ => .error (.load 0)
  | c :: s1, i2 => do
    let d ← load m i2
    if c = d then
      if c = 61 then return some (i2 + 1) else envmatch m s1 (i2 + 1)
    else if c = 0 ∧ d = 61 then
      return some (i2 + 1)
    else
      return none

/-- How a walk over the strings ends: at a string that matches, given by its first
byte, its terminator and the start of its value; at the closing `\0`; or early. -/
inductive Search
  | found (env nxt val : Nat)
  | missing
  | unterminated
  deriving DecidableEq, Repr

def searchFrom (m : Bytes) (stop : Nat → Bool) (s1 : Bytes) : Nat → Nat → Exec Search
  | 0, _ => .error .steps
  | fuel + 1, env => do
    let c ← load m env
    if c = 0 then
      return .missing
    else
      match ← scanNul m stop (m.length + 1) env with
      | none => return .unterminated
      | some nxt =>
        match ← envmatch m s1 env with
        | some val => return .found env nxt val
        | none => searchFrom m stop s1 fuel (nxt + 1)

/-- `for (env = env_data; *env; env = nxt + 1) …`, over the whole area. -/
def search (m : Bytes) (stop : Nat → Bool) (s1 : Bytes) : Exec Search :=
  searchFrom m stop s1 (m.length + 1) 0

/-! ## Removing a string -/

/-- The copy loop that closes a gap: it moves the bytes from `nxt` on down to `env`
until it has moved a `\0` that another `\0` follows. -/
def shiftDown : Nat → Bytes → Nat → Nat → Exec (Bytes × Nat)
  | 0, _, _, _ => .error .steps
  | fuel + 1, m, env, nxt => do
    let c ← load m nxt
    let m ← store m env c
    if c = 0 then
      if (← load m (nxt + 1)) = 0 then
        return (m, env)
      else
        shiftDown fuel m (env + 1) (nxt + 1)
    else
      shiftDown fuel m (env + 1) (nxt + 1)

/-- What is done when the string to remove is the last one. -/
inductive Removal
  /-- `if (env > env_data) env--; else *env = '\0';` -/
  | stepBack
  /-- `*env = '\0';` -/
  | clear
  deriving DecidableEq, Repr

/-- Remove the string from `env` to its terminator `nxt`. -/
def deleteEntry (r : Removal) (m : Bytes) (env nxt : Nat) : Exec Bytes := do
  let nxt := nxt + 1
  if (← load m nxt) = 0 then
    if r = .stepBack ∧ 0 < env then
      -- `env--`, so that the store below hits the first byte of the string
      let env := env - 1
      store m (env + 1) 0
    else
      let m ← store m env 0
      store m (env + 1) 0
  else
    let (m, env) ← shiftDown (m.length + 1) m env nxt
    store m (env + 1) 0

/-! ## Appending a definition -/

/-- `for (env = env_data; *env || *(env + 1); ++env);` -/
def scanDoubleNul (m : Bytes) : Nat → Nat → Exec Nat
  | 0, _ => .error .steps
  | fuel + 1, env => do
    if (← load m env) = 0 then
      if (← load m (env + 1)) = 0 then
        return env
      else
        scanDoubleNul m fuel (env + 1)
    else
      scanDoubleNul m fuel (env + 1)

/-- `len += n` for an `int len`. -/
def addInt (len : Int) (n : Nat) : Int := (len + n).bmod (2 ^ 32)

/-- `len` of the overflow check: the name, `"="` or `" "` before each value, and the
double `\0`. -/
def defLen (name : Bytes) (values : List Bytes) : Int :=
  values.foldl (fun len v => addInt len (v.length + 1)) (addInt 0 (name.length + 2))

/-- Write the values, the first behind `sep` and the others behind blanks. -/
def storeValues (sep : UInt8) (m : Bytes) (env : Nat) : List Bytes → Exec (Bytes × Nat)
  | [] => return (m, env)
  | v :: vs => do
    let m ← store m env sep
    let (m, env) ← storeStr m (env + 1) v
    storeValues 32 m env vs

/-- Append `name=values` behind the last string; `none` when it does not fit. -/
def appendDef (m : Bytes) (name : Bytes) (values : List Bytes) : Exec (Option Bytes) := do
  let env ← scanDoubleNul m (m.length + 1) 0
  let env := if 0 < env then env + 1 else env
  if defLen name values > (m.length : Int) - env then
    return none
  else
    let (m, env) ← storeStr m env name
    let (m, env) ← storeValues 61 m env values
    return some (← store m (env + 1) 0)

end UBoot.Common
