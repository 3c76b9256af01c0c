import UBoot.Common.CommandSplit

/-!
# The buffers of the macros

`common/main.c`: `process_macros` with the areas that it reads and writes: the string, the buffer
of the output, and `envname` for the name of a variable.  What is in `envname` before is given.

* `process_eq`: the buffer holds what `processMacros` gives, unless a name is too long for
  `envname`.
-/

namespace UBoot.Common

open UBoot.Lib

/-- The variables of `process_macros`, with the buffer of the output. -/
structure MacroVars where
  input : Nat
  inputcnt : Nat
  outputcnt : Nat
  output : Nat
  buf : Bytes
  state : MacroState
  prev : UInt8
  varnameStart : Nat

namespace MacroVars

/-- `*(output++) = c; outputcnt--;` -/
def put (s : MacroVars) (c : UInt8) : Exec MacroVars := do
  let buf ← store s.buf s.output c
  return { s with buf := buf, output := s.output + 1, outputcnt := s.outputcnt - 1 }

/-- "Copy into the line if it exists" -/
def putValue (s : MacroVars) : Bytes → Exec MacroVars
  | [] => .ok s
  | c :: value => if s.outputcnt = 0 then .ok s else do (← s.put c).putValue value

/-- The next character, after "remove one level of escape characters"; `none` for the `break`. -/
def nextChar (mem : Bytes) (s : MacroVars) : Exec (Option (UInt8 × MacroVars)) := do
  let c ← load mem s.input
  let s := { s with input := s.input + 1, inputcnt := s.inputcnt - 1 }
  if s.state ≠ .waitQuote ∧ c = backslash ∧ s.prev ≠ backslash then
    if s.inputcnt = 0 then return none
    else
      let c' ← load mem s.input
      return some (c', { s with input := s.input + 1, inputcnt := s.inputcnt - 1, prev := c })
  else return some (c, s)

/-- "Get the varname" -/
def getName (mem : Bytes) : Nat → Nat → Nat → Bytes → Exec Bytes
  | 0, _, i, envname => store envname i 0
  | envcnt + 1, start, i, envname => do
    let c ← load mem start
    let envname ← store envname i c
    getName mem envcnt (start + 1) (i + 1) envname

/-- `switch (state)` -/
def switch (getenv : Bytes → Option Bytes) (mem envname : Bytes) (c : UInt8) (s : MacroVars) :
    Exec MacroVars :=
  match s.state with
  | .waitDollar =>
    if c = quoteMark ∧ s.prev ≠ backslash then return { s with state := .waitQuote }
    else if c = dollarSign ∧ s.prev ≠ backslash then return { s with state := .waitOpening }
    else s.put c
  | .waitOpening =>
    if isOpening c then return { s with state := .waitClosing, varnameStart := s.input }
    else do
      let s ← ({ s with state := .waitDollar } : MacroVars).put dollarSign
      if s.outputcnt ≠ 0 then s.put c else return s
  | .waitClosing =>
    if isClosing c then do
      let envcnt := s.input - s.varnameStart - 1
      let envname ← getName mem envcnt s.varnameStart 0 envname
      match getenv (← strAt envname (envname.length + 1) 0) with
      | some envval => ({ s with state := .waitDollar } : MacroVars).putValue envval
      | none => return { s with state := .waitDollar }
    else return s
  | .waitQuote =>
    if c = quoteMark ∧ s.prev ≠ backslash then return { s with state := .waitDollar }
    else s.put c

/-- `while (inputcnt && outputcnt)` -/
def loop (getenv : Bytes → Option Bytes) (mem envname : Bytes) : Nat → MacroVars → Exec MacroVars
  | 0, _ => .error .steps
  | fuel + 1, s =>
    if s.inputcnt = 0 ∨ s.outputcnt = 0 then return s
    else do
      match ← nextChar mem s with
      | none => return s
      | some (c, s) =>
        let s ← switch getenv mem envname c s
        loop getenv mem envname fuel { s with prev := c }

/-- The NUL behind the output, or in the place of its last character. -/
def finish (s : MacroVars) : Exec Bytes :=
  if s.outputcnt ≠ 0 then store s.buf s.output 0
  else
    match s.output with
    | 0 => .error (.store (2 ^ 32 - 1))
    | n + 1 => store s.buf n 0

end MacroVars

/-- `process_macros`, with the bytes that are in `envname` and in the buffer of the output: what is
in the buffer then. -/
def processBuffers (getenv : Bytes → Option Bytes) (cbsize : Nat) (envname output mem : Bytes) :
    Exec Bytes := do
  let input ← strAt mem (mem.length + 1) 0
  let s ← MacroVars.loop getenv mem envname (input.length + 1)
    ⟨0, input.length, cbsize, 0, output, .waitDollar, 0, 0⟩
  s.finish

/-! ## The variables and their buffer -/

section Buffers

variable {getenv : Bytes → Option Bytes} {r area envname value : Bytes} {s : Macros}
  {c prev : UInt8} {pos : Nat}

/-- The variables with the buffer that they are in, for a string `r`. -/
def Macros.vars (r area : Bytes) (s : Macros) : MacroVars :=
  ⟨s.pos, r.length - s.pos, s.outputcnt, s.output.length, s.output ++ area.drop s.output.length,
    s.state, s.prev, s.varnameStart⟩

/-- What is in the output and what is left of it make the buffer. -/
def Macros.Fits (area : Bytes) (s : Macros) : Prop := s.output.length + s.outputcnt = area.length

theorem Macros.Fits.put (h : s.Fits area) (hcnt : s.outputcnt ≠ 0) (c : UInt8) :
    (s.put c).Fits area := by
  show (s.output ++ [c]).length + (s.outputcnt - 1) = area.length
  have hfits : s.output.length + s.outputcnt = area.length := h
  rw [List.length_append, List.length_singleton]
  omega

theorem vars_put (h : s.Fits area) (hcnt : s.outputcnt ≠ 0) (c : UInt8) :
    (s.vars r area).put c = .ok ((s.put c).vars r area) := by
  have hfits : s.output.length + s.outputcnt = area.length := h
  have hcut := List.drop_eq_getElem_cons (show s.output.length < area.length by omega)
  simp only [MacroVars.put, Macros.vars, hcut, store_cut, ok_bind, Macros.put,
    List.length_append, List.length_singleton, List.append_assoc, List.singleton_append]
  rfl

theorem Macros.Fits.putValue (h : s.Fits area) (value : Bytes) : (s.putValue value).Fits area := by
  induction value generalizing s with
  | nil => exact h
  | cons c value ih =>
    rw [Macros.putValue]
    split
    · exact h
    · rename_i hcnt
      exact ih (h.put hcnt c)

theorem vars_putValue (h : s.Fits area) (value : Bytes) :
    (s.vars r area).putValue value = .ok ((s.putValue value).vars r area) := by
  induction value generalizing s with
  | nil => rfl
  | cons c value ih =>
    have hsame : (s.vars r area).outputcnt = s.outputcnt := rfl
    rw [MacroVars.putValue, Macros.putValue, hsame]
    by_cases hcnt : s.outputcnt = 0
    · rw [if_pos hcnt, if_pos hcnt]
    · rw [if_neg hcnt, if_neg hcnt, vars_put h hcnt, ok_bind]
      exact ih (h.put hcnt c)

theorem vars_nextChar (hlt : s.pos < r.length) :
    MacroVars.nextChar (r ++ [0]) (s.vars r area) =
      .ok ((s.nextChar r).map fun (pos, c, prev) =>
        (c, ({ s with pos := pos + 1, prev := prev } : Macros).vars r area)) := by
  have hload : ∀ {i : Nat} (hi : i < r.length), load (r ++ [0]) i = .ok r[i] := by
    intro i hi
    rw [load, List.getElem?_append_left hi, List.getElem?_eq_getElem hi]
  have hstate : (s.vars r area).state = s.state := rfl
  have hprev : (s.vars r area).prev = s.prev := rfl
  have hinput : (s.vars r area).input = s.pos := rfl
  have hcnt : (s.vars r area).inputcnt = r.length - s.pos := rfl
  simp only [MacroVars.nextChar, Macros.nextChar, hinput, hload hlt, ok_bind, hstate, hprev, hcnt,
    List.getElem?_eq_getElem hlt]
  split
  · by_cases hend : r.length - s.pos - 1 = 0
    · have hnone : r[s.pos + 1]? = none := List.getElem?_eq_none (by omega)
      rw [if_pos hend, hnone]
      rfl
    · have hlt' : s.pos + 1 < r.length := by omega
      rw [if_neg hend, hload hlt', ok_bind, List.getElem?_eq_getElem hlt']
      simp only [Option.map_some, Macros.vars, Nat.sub_sub]
      rfl
  · simp only [Option.map_some, Macros.vars, Nat.sub_sub]
    rfl

/-- The name is copied if there is room for it and its NUL. -/
theorem getName_ok {name P R old Q : Bytes} {start : Nat} (h0 : 0 ∉ name)
    (hold : old.length = name.length + 1) (hstart : start = P.length) :
    ∀ {done : Bytes}, MacroVars.getName (P ++ (name ++ R)) name.length start done.length
      (done ++ (old ++ Q)) = .ok (done ++ (name ++ 0 :: Q)) := by
  induction name generalizing P old start with
  | nil =>
    intro done
    obtain ⟨x, rfl⟩ := List.length_eq_one_iff.mp hold
    exact store_cut rfl
  | cons c name ih =>
    intro done
    obtain ⟨x, old, rfl⟩ := List.exists_cons_of_ne_nil (List.ne_nil_of_length_eq_add_one hold)
    have hrec := @ih (P ++ [c]) old (start + 1) (fun h => h0 (List.mem_cons_of_mem _ h))
      (by simpa using hold) (by simp [hstart]) (done ++ [c])
    simp only [List.append_assoc, List.singleton_append, List.length_append,
      List.length_singleton] at hrec
    rw [List.length_cons, MacroVars.getName, List.cons_append, load_cut hstart, ok_bind,
      List.cons_append, store_cut rfl, ok_bind, hrec]
    rfl

/-- Else it gets behind `envname`. -/
theorem getName_error {name P R : Bytes} {start : Nat} (hstart : start = P.length) :
    ∀ {i : Nat} {envname : Bytes}, envname.length ≤ name.length + i →
      ∃ e, MacroVars.getName (P ++ (name ++ R)) name.length start i envname = .error e := by
  induction name generalizing P start with
  | nil =>
    intro i envname hlen
    rw [List.length_nil, Nat.zero_add] at hlen
    exact ⟨.store i, if_neg (by omega)⟩
  | cons c name ih =>
    intro i envname hlen
    rw [List.length_cons, MacroVars.getName, List.cons_append, load_cut hstart, ok_bind]
    by_cases hi : i < envname.length
    · have hrec := @ih (P ++ [c]) (start + 1) (by simp [hstart]) (i + 1) (envname.set i c)
        (by rw [List.length_set]; rw [List.length_cons] at hlen; omega)
      rw [List.append_assoc, List.singleton_append] at hrec
      rw [store, if_pos hi, ok_bind]
      exact hrec
    · exact ⟨.store i, by rw [store, if_neg hi, error_bind]⟩

/-- A name in the string. -/
theorem cut_name {start : Nat} (hle : start ≤ pos) (hpos : pos < r.length) :
    r ++ [0] = r.take start ++ ((r.take pos).drop start ++ (r.drop pos ++ [0])) ∧
      pos + 1 - start - 1 = ((r.take pos).drop start).length ∧ start = (r.take start).length := by
  refine ⟨?_, ?_, ?_⟩
  · have hfront := List.take_append_drop start (r.take pos)
    rw [List.take_take, Nat.min_eq_left hle] at hfront
    rw [← List.append_assoc, hfront, ← List.append_assoc, List.take_append_drop]
  · rw [List.length_drop, List.length_take]
    omega
  · rw [List.length_take]
    omega

/-- The copied name is the string in `envname`. -/
theorem getName_string (h0 : 0 ∉ r) {start : Nat} (hle : start ≤ pos) (hpos : pos < r.length)
    (hroom : ((r.take pos).drop start).length < envname.length) :
    (do
      let envname ← MacroVars.getName (r ++ [0]) (pos + 1 - start - 1) start 0 envname
      strAt envname (envname.length + 1) 0) = .ok ((r.take pos).drop start) := by
  obtain ⟨hcut, hlen, hstart⟩ := cut_name hle hpos
  have h0' : 0 ∉ (r.take pos).drop start := fun h =>
    h0 (List.mem_of_mem_take (List.mem_of_mem_drop h))
  obtain ⟨old, Q, rfl, hold⟩ := @exists_split envname (((r.take pos).drop start).length + 1) hroom
  rw [hlen, hcut]
  generalize (r.take pos).drop start = name at *
  have hget := @getName_ok name (r.take start) (r.drop pos ++ [0]) old Q start h0' hold hstart []
  have hstr := @strAt_cut Q name [] ((name ++ 0 :: Q).length + 1) 0 h0' rfl (by
    rw [List.length_append]
    omega)
  rw [List.nil_append, List.nil_append, List.length_nil] at hget
  rw [hget, ok_bind]
  exact hstr

theorem putValue_at {value : Bytes} :
    ({ s with pos := pos, prev := prev } : Macros).putValue value =
      { s.putValue value with pos := pos, prev := prev } := by
  induction value generalizing s with
  | nil => rfl
  | cons c value ih =>
    rw [Macros.putValue, Macros.putValue]
    split
    · rfl
    · exact @ih (s.put c)

theorem Macros.Fits.switch (h : s.Fits area) (hcnt : s.outputcnt ≠ 0) :
    (s.switch getenv r pos c prev).Fits area := by
  unfold Macros.switch
  cases s.state with
  | waitDollar =>
    dsimp only
    split_ifs
    · exact h
    · exact h
    · exact h.put hcnt c
  | waitOpening =>
    have hdollar : (({ s with state := .waitDollar } : Macros).put dollarSign).Fits area :=
      h.put hcnt dollarSign
    dsimp only
    split_ifs with hopen hleft
    · exact h
    · exact hdollar.put hleft c
    · exact hdollar
  | waitClosing =>
    dsimp only
    split_ifs
    · cases getenv ((r.take pos).drop s.varnameStart) with
      | none => exact h
      | some envval => exact Macros.Fits.putValue (s := { s with state := .waitDollar }) h envval
    · exact h
  | waitQuote =>
    dsimp only
    split_ifs
    · exact h
    · exact h.put hcnt c

theorem Macros.Fits.loop {fuel : Nat} (h : s.Fits area) :
    (Macros.loop getenv r fuel s).1.Fits area := by
  induction fuel generalizing s with
  | zero => exact h
  | succ fuel ih =>
    rw [Macros.loop]
    split
    · exact h
    · rename_i hcnt
      cases s.nextChar r with
      | none => exact h
      | some next =>
        obtain ⟨pos, c, prev⟩ := next
        exact @ih { s.switch getenv r pos c prev with pos := pos + 1, prev := c } (h.switch hcnt)

/-- **One switch**: if there is room for the name, the buffer is that of the output. -/
theorem vars_switch (h0 : 0 ∉ r) (h : s.Fits area) (hcnt : s.outputcnt ≠ 0) (hpos : pos < r.length)
    (hname : s.state = .waitClosing → isClosing c = true → s.varnameStart ≤ pos ∧
      ((r.take pos).drop s.varnameStart).length < envname.length) :
    MacroVars.switch getenv (r ++ [0]) envname c
        (({ s with pos := pos + 1, prev := prev } : Macros).vars r area) =
      .ok (({ s.switch getenv r pos c prev with pos := pos + 1, prev := prev } : Macros).vars r
        area) := by
  obtain ⟨pos', state, prev', start, out, cnt⟩ := s
  have hfits : ∀ state start, (⟨pos + 1, state, prev, start, out, cnt⟩ : Macros).Fits area :=
    fun _ _ => h
  cases state with
  | waitDollar =>
    simp only [MacroVars.switch, Macros.switch, Macros.vars]
    by_cases hquote : c = quoteMark ∧ prev ≠ backslash
    · simp only [if_pos hquote]
      exact if_pos hquote
    · by_cases hdollar : c = dollarSign ∧ prev ≠ backslash
      · simp only [if_neg hquote, if_pos hdollar]
        exact (if_neg hquote).trans (if_pos hdollar)
      · simp only [if_neg hquote, if_neg hdollar]
        refine (if_neg hquote).trans ((if_neg hdollar).trans ?_)
        exact vars_put (hfits .waitDollar start) hcnt c
  | waitOpening =>
    have hput := @vars_put r _ _ (hfits .waitDollar start) hcnt dollarSign
    have hfits' := (hfits .waitDollar start).put hcnt dollarSign
    simp only [MacroVars.switch, Macros.switch, Macros.vars]
    by_cases hopen : isOpening c = true
    · simp only [if_pos hopen]
      rfl
    · simp only [if_neg hopen]
      refine (congrArg (· >>= _) hput).trans ?_
      rw [ok_bind]
      by_cases hleft : cnt - 1 ≠ 0
      · refine (if_pos hleft).trans ((vars_put hfits' hleft c).trans ?_)
        have hpure : ((⟨pos', .waitDollar, prev', start, out, cnt⟩ : Macros).put
            dollarSign).outputcnt ≠ 0 := hleft
        simp only [if_pos hpure]
        rfl
      · refine (if_neg hleft).trans ?_
        have hpure : ¬ ((⟨pos', .waitDollar, prev', start, out, cnt⟩ : Macros).put
            dollarSign).outputcnt ≠ 0 := hleft
        simp only [if_neg hpure]
        rfl
  | waitClosing =>
    simp only [MacroVars.switch, Macros.switch, Macros.vars]
    by_cases hclose : isClosing c = true
    · obtain ⟨hle, hroom⟩ := hname rfl hclose
      obtain ⟨filled, hget, hstr⟩ := bind_eq_ok.mp (getName_string h0 hle hpos hroom)
      simp only [if_pos hclose]
      rw [hget, ok_bind, hstr, ok_bind]
      cases getenv ((r.take pos).drop start) with
      | none => rfl
      | some envval =>
        refine (vars_putValue (hfits .waitDollar start) envval).trans ?_
        exact congrArg (fun s => Except.ok (Macros.vars r area s))
          (@putValue_at ⟨pos', .waitDollar, prev', start, out, cnt⟩ prev (pos + 1) envval)
    · simp only [if_neg hclose]
      rfl
  | waitQuote =>
    simp only [MacroVars.switch, Macros.switch, Macros.vars]
    by_cases hquote : c = quoteMark ∧ prev ≠ backslash
    · simp only [if_pos hquote]
      exact if_pos hquote
    · simp only [if_neg hquote]
      refine (if_neg hquote).trans ?_
      exact vars_put (hfits .waitQuote start) hcnt c

end Buffers

/-! ## The loop -/

/-- A reference that ends at the position has a name for which there is no room, and what is in
front of it does not fill the output. -/
def LongNameAt (getenv : Bytes → Option Bytes) (cbsize : Nat) (r : Bytes) (i : Nat) : Prop :=
  ∃ c acc, r[i]? = some c ∧ isClosing c = true ∧ (lexAt getenv r i).ctx = .name acc ∧
    cbsize ≤ acc.length ∧ (lexAt getenv r i).width < cbsize

/-- The character at the position is a backslash that is removed. -/
structure RemovedAt (getenv : Bytes → Option Bytes) (r : Bytes) (i : Nat) : Prop where
  char : r[i]? = some backslash
  ctx : (lexAt getenv r i).ctx ≠ .quoted
  prev : (lexAt getenv r i).prev ≠ backslash

section Loop

variable {getenv getenv' : Bytes → Option Bytes} {r area envname : Bytes} {s : Macros} {c : UInt8}
  {cbsize fuel i : Nat}

/-- The next character stands where `lexAt` has it, or there is none behind a backslash. -/
theorem nextChar_cases (hs : Follows cbsize r s.pos (lexAt getenv r s.pos) s)
    (hprev : s.prev = (lexAt getenv r s.pos).prev) (hlt : s.pos < r.length) :
    (s.nextChar r = none ∧ s.pos + 1 = r.length ∧ RemovedAt getenv r s.pos) ∨
      ∃ pos c, s.nextChar r = some (pos, c, (lexAt getenv r pos).prev) ∧ r[pos]? = some c ∧
        (pos = s.pos ∨ pos = s.pos + 1 ∧ RemovedAt getenv r s.pos) ∧
        Follows cbsize r pos (lexAt getenv r pos) s ∧
        ((lexAt getenv r pos).ctx ≠ .quoted →
          ¬ (c = backslash ∧ (lexAt getenv r pos).prev ≠ backslash)) := by
  have hd : r[s.pos]? = some r[s.pos] := List.getElem?_eq_getElem hlt
  generalize r[s.pos] = d at hd
  have hquoted : s.state ≠ .waitQuote ↔ (lexAt getenv r s.pos).ctx ≠ .quoted := by
    rw [hs.state, ne_eq, ctx_state_eq_waitQuote]
  by_cases hback : s.state ≠ .waitQuote ∧ d = backslash ∧ s.prev ≠ backslash
  · have hremove : RemovedAt getenv r s.pos :=
      ⟨by rw [hd, hback.2.1], hquoted.mp hback.1, hprev ▸ hback.2.2⟩
    by_cases hend : s.pos + 1 = r.length
    · left
      have hnone : r[s.pos + 1]? = none := List.getElem?_eq_none (by omega)
      refine ⟨?_, hend, hremove⟩
      rw [Macros.nextChar, hd]
      simp only
      rw [if_pos hback, hnone]
    · right
      have hd' : r[s.pos + 1]? = some r[s.pos + 1] := List.getElem?_eq_getElem (by omega)
      have hremoved := @Follows.removed getenv cbsize s.pos r _ d s hs hd (hquoted.mp hback.1)
        ⟨hback.2.1, hprev ▸ hback.2.2⟩
      have hlast : (lexAt getenv r (s.pos + 1)).prev = d := by rw [lexAt_succ hd, lexStep_prev]
      rw [← lexAt_succ hd] at hremoved
      refine ⟨s.pos + 1, _, ?_, hd', .inr ⟨rfl, hremove⟩, hremoved, ?_⟩
      · rw [Macros.nextChar, hd, hlast]
        simp only
        rw [if_pos hback, hd']
      · rintro - ⟨-, hne⟩
        exact hne (hlast.trans hback.2.1)
  · right
    refine ⟨s.pos, d, ?_, hd, .inl rfl, hs, ?_⟩
    · rw [Macros.nextChar, hd, ← hprev]
      simp only
      rw [if_neg hback]
    · rintro hctx ⟨hbackslash, hne⟩
      exact hback ⟨hquoted.mpr hctx, hbackslash, hprev ▸ hne⟩

theorem ctx_of_waitClosing {ctx : Ctx} (h : ctx.state = .waitClosing) : ∃ acc, ctx = .name acc := by
  cases ctx with
  | name acc => exact ⟨acc, rfl⟩
  | text => cases h
  | dollar => cases h
  | quoted => cases h

/-- There is room for a name that is not too long. -/
theorem name_short {pos : Nat} (hs : Follows cbsize r pos (lexAt getenv r pos) s)
    (hc : r[pos]? = some c) (hcnt : s.outputcnt ≠ 0) (hshort : ¬ LongNameAt getenv cbsize r pos) :
    s.state = .waitClosing → isClosing c = true → s.varnameStart ≤ pos ∧
      ((r.take pos).drop s.varnameStart).length < cbsize := by
  intro hstate hclose
  obtain ⟨acc, hctx⟩ := ctx_of_waitClosing (hs.state.symm.trans hstate)
  obtain ⟨hle, hacc⟩ := hs.name acc hctx
  refine ⟨hle, ?_⟩
  by_contra hlong
  refine hshort ⟨c, acc, hc, hclose, hctx, by rw [← hacc]; omega, ?_⟩
  have hroom := hs.room
  omega

/-- There is none for the others. -/
theorem vars_switch_error {pos : Nat} {prev : UInt8} (hcb : cbsize = envname.length)
    (hs : Follows cbsize r pos (lexAt getenv r pos) s) (hlong : LongNameAt getenv cbsize r pos)
    (hc : r[pos]? = some c) :
    ∃ e, MacroVars.switch getenv (r ++ [0]) envname c
      (({ s with pos := pos + 1, prev := prev } : Macros).vars r area) = .error e := by
  obtain ⟨c', acc, hc', hclose, hctx, hlen, -⟩ := hlong
  obtain rfl := Option.some.inj (hc.symm.trans hc')
  have hpos := (List.getElem?_eq_some_iff.mp hc).1
  have hstate : s.state = .waitClosing := by
    rw [hs.state, hctx]
    rfl
  obtain ⟨hle, rfl⟩ := hs.name acc hctx
  obtain ⟨hcut, hcnt, hstart⟩ := cut_name (r := r) hle hpos
  obtain ⟨pos', state, prev', start, out, cnt⟩ := s
  obtain rfl : state = .waitClosing := hstate
  have hlong : cbsize ≤ ((r.take pos).drop start).length := hlen
  obtain ⟨e, he⟩ := @getName_error ((r.take pos).drop start) (r.take start) (r.drop pos ++ [0])
    start hstart 0 envname (by omega)
  refine ⟨e, ?_⟩
  simp only [MacroVars.switch, Macros.vars, if_pos hclose]
  rw [hcnt, hcut, he, error_bind]

/-- The loop keeps to its buffers if no name is too long, and does what it does without them. -/
theorem vars_loop (h0 : 0 ∉ r) (hcb : cbsize = envname.length)
    (hs : Follows cbsize r s.pos (lexAt getenv r s.pos) s)
    (hprev : s.prev = (lexAt getenv r s.pos).prev) (hfits : s.Fits area)
    (hfuel : r.length ≤ s.pos + fuel) (hshort : ∀ i, ¬ LongNameAt getenv cbsize r i) :
    MacroVars.loop getenv (r ++ [0]) envname (fuel + 1) (s.vars r area) =
      .ok ((Macros.loop getenv r fuel s).1.vars r area) := by
  have hinput : (s.vars r area).inputcnt = r.length - s.pos := rfl
  have houtput : (s.vars r area).outputcnt = s.outputcnt := rfl
  induction fuel generalizing s with
  | zero =>
    rw [MacroVars.loop, hinput, if_pos (.inl (by omega))]
    rfl
  | succ fuel ih =>
    rw [MacroVars.loop, Macros.loop, hinput, houtput]
    by_cases hfull : s.outputcnt = 0
    · rw [if_pos (.inr hfull), if_pos hfull]
      rfl
    · by_cases hlt : s.pos < r.length
      · rw [if_neg (by omega), if_neg hfull, vars_nextChar hlt, ok_bind]
        rcases nextChar_cases hs hprev hlt with ⟨hnone, -, -⟩ | ⟨pos, c, hnext, hc, hpos, hs', hesc⟩
        · rw [hnone]
          rfl
        · rw [hnext]
          simp only [Option.map_some]
          have hposlt := (List.getElem?_eq_some_iff.mp hc).1
          have hname := name_short hs' hc hfull (hshort pos)
          rw [hcb] at hname
          rw [vars_switch h0 hfits hfull hposlt hname, ok_bind]
          have hswitched := @Follows.switched getenv cbsize pos r _ c s hs' hc hesc
          rw [← lexAt_succ hc] at hswitched
          exact @ih { s.switch getenv r pos c (lexAt getenv r pos).prev with
              pos := pos + 1, prev := c }
            ⟨hswitched.state, hswitched.room, hswitched.name⟩
            (by rw [lexAt_succ hc, lexStep_prev])
            (show (s.switch getenv r pos c _).Fits area from hfits.switch hfull)
            (by dsimp only; omega) rfl rfl
      · have hnone : s.nextChar r = none := by
          rw [Macros.nextChar, List.getElem?_eq_none (by omega)]
        rw [if_pos (.inl (by omega)), if_neg hfull, hnone]
        rfl

/-- Else it gets behind `envname`. -/
theorem vars_loop_error (hcb : cbsize = envname.length)
    (hs : Follows cbsize r s.pos (lexAt getenv r s.pos) s)
    (hprev : s.prev = (lexAt getenv r s.pos).prev) (hfits : s.Fits area) (h0 : 0 ∉ r)
    (hle : s.pos ≤ i) (hlong : LongNameAt getenv cbsize r i) :
    ∃ e, MacroVars.loop getenv (r ++ [0]) envname fuel (s.vars r area) = .error e := by
  have hinput : (s.vars r area).inputcnt = r.length - s.pos := rfl
  have houtput : (s.vars r area).outputcnt = s.outputcnt := rfl
  obtain ⟨d, -, hd, hclosing, -, -, hwidth⟩ := id hlong
  have hlt := (List.getElem?_eq_some_iff.mp hd).1
  have hnotBack : d ≠ backslash := by
    rintro rfl
    cases hclosing
  induction fuel generalizing s with
  | zero => exact ⟨.steps, rfl⟩
  | succ fuel ih =>
    have hmono := @width_mono getenv s.pos i r hle hlt.le
    have hroom := hs.room
    have hfull : s.outputcnt ≠ 0 := by omega
    rw [MacroVars.loop, hinput, houtput, if_neg (by omega), vars_nextChar (by omega), ok_bind]
    have hbehind : ∀ {pos}, pos = s.pos ∨ pos = s.pos + 1 ∧ RemovedAt getenv r s.pos → pos ≤ i := by
      rintro pos (rfl | ⟨rfl, hback⟩)
      · exact hle
      · have hne : s.pos ≠ i := by
          rintro rfl
          exact hnotBack (Option.some.inj (hd.symm.trans hback.char))
        omega
    rcases nextChar_cases hs hprev (by omega) with
      ⟨-, hend, hback⟩ | ⟨pos, c, hnext, hc, hpos, hs', hesc⟩
    · have hle' := hbehind (.inr ⟨rfl, hback⟩)
      omega
    · rw [hnext]
      simp only [Option.map_some]
      by_cases hlong' : LongNameAt getenv cbsize r pos
      · obtain ⟨e, he⟩ := @vars_switch_error getenv r area envname s c cbsize pos
          (lexAt getenv r pos).prev hcb hs' hlong' hc
        exact ⟨e, by rw [he, error_bind]⟩
      · have hposlt := (List.getElem?_eq_some_iff.mp hc).1
        have hname := name_short hs' hc hfull hlong'
        rw [hcb] at hname
        rw [vars_switch h0 hfits hfull hposlt hname, ok_bind]
        have hne : pos ≠ i := by
          rintro rfl
          exact hlong' hlong
        have hle' := hbehind hpos
        have hswitched := @Follows.switched getenv cbsize pos r _ c s hs' hc hesc
        rw [← lexAt_succ hc] at hswitched
        exact @ih { s.switch getenv r pos c (lexAt getenv r pos).prev with
            pos := pos + 1, prev := c }
          ⟨hswitched.state, hswitched.room, hswitched.name⟩
          (by rw [lexAt_succ hc, lexStep_prev])
          (show (s.switch getenv r pos c _).Fits area from hfits.switch hfull)
          (by dsimp only; omega) rfl rfl

/-! ## What does not depend on the variables -/

theorem lexStep_ctx {l l' : Lex} (hctx : l.ctx = l'.ctx) (hprev : l.prev = l'.prev) :
    (lexStep getenv l c).ctx = (lexStep getenv' l' c).ctx := by
  unfold lexStep
  rw [hctx, hprev]
  cases l'.ctx with
  | text => dsimp only; split_ifs <;> rfl
  | dollar => dsimp only; split_ifs <;> rfl
  | name acc => dsimp only; split_ifs <;> rfl
  | quoted => dsimp only; split_ifs <;> rfl

theorem lexStep_width {l l' : Lex} (hctx : l.ctx = l'.ctx) (hprev : l.prev = l'.prev)
    (hle : l.width ≤ l'.width) :
    (lexStep (fun _ => none) l c).width ≤ (lexStep getenv' l' c).width := by
  unfold lexStep
  rw [hctx, hprev]
  cases l'.ctx with
  | text => dsimp only; split_ifs <;> simp [hle]
  | dollar => dsimp only; split_ifs <;> simp [hle]
  | name acc =>
    dsimp only
    split_ifs
    · exact hle
    · exact hle.trans (Nat.le_add_right _ _)
    · exact hle
  | quoted => dsimp only; split_ifs <;> simp [hle]

/-- Variables add to the output, and nothing else. -/
theorem lexAt_none (getenv : Bytes → Option Bytes) (hi : i ≤ r.length) :
    (lexAt (fun _ => none) r i).ctx = (lexAt getenv r i).ctx ∧
      (lexAt (fun _ => none) r i).prev = (lexAt getenv r i).prev ∧
      (lexAt (fun _ => none) r i).width ≤ (lexAt getenv r i).width := by
  induction i with
  | zero => exact ⟨rfl, rfl, le_rfl⟩
  | succ i ih =>
    have hc : r[i]? = some r[i] := List.getElem?_eq_getElem (by omega)
    obtain ⟨hctx, hprev, hwidth⟩ := ih (by omega)
    rw [lexAt_succ hc, lexAt_succ hc]
    exact ⟨lexStep_ctx hctx hprev, by rw [lexStep_prev, lexStep_prev],
      lexStep_width hctx hprev hwidth⟩

/-- Where a name is too long with some variables, it is without any. -/
theorem LongNameAt.of_getenv (h : LongNameAt getenv cbsize r i) :
    LongNameAt (fun _ => none) cbsize r i := by
  obtain ⟨c, acc, hc, hclose, hctx, hlen, hwidth⟩ := h
  have hlt := (List.getElem?_eq_some_iff.mp hc).1
  obtain ⟨hctx', -, hwidth'⟩ := lexAt_none getenv hlt.le
  exact ⟨c, acc, hc, hclose, hctx'.trans hctx, hlen, by omega⟩

/-! ## The whole -/

theorem vars_finish (hfits : s.Fits area) (hpos : 0 < area.length) :
    ∃ rest, (s.vars r area).finish =
        .ok ((if s.outputcnt ≠ 0 then s.output else s.output.dropLast) ++ 0 :: rest) ∧
      ((if s.outputcnt ≠ 0 then s.output else s.output.dropLast) ++ 0 :: rest).length =
        area.length := by
  have hlen : s.output.length + s.outputcnt = area.length := hfits
  have hcnt : (s.vars r area).outputcnt = s.outputcnt := rfl
  by_cases hfull : s.outputcnt ≠ 0
  · have hcut := List.drop_eq_getElem_cons (show s.output.length < area.length by omega)
    refine ⟨area.drop (s.output.length + 1), ?_, ?_⟩
    · rw [MacroVars.finish, hcnt, if_pos hfull, if_pos hfull]
      simp only [Macros.vars]
      rw [hcut]
      exact store_cut rfl
    · rw [if_pos hfull, List.length_append, List.length_cons, List.length_drop]
      omega
  · rw [not_not] at hfull
    obtain ⟨out, c, hout⟩ := List.eq_nil_or_concat' s.output |>.resolve_left (by
      rintro hnil
      rw [hnil, List.length_nil] at hlen
      omega)
    have hdrop : area.drop s.output.length = [] := List.drop_of_length_le (by omega)
    refine ⟨[], ?_, ?_⟩
    · rw [MacroVars.finish, hcnt, if_neg (not_not.mpr hfull), if_neg (not_not.mpr hfull)]
      simp only [Macros.vars]
      rw [hdrop, hout, List.length_append, List.length_singleton, List.dropLast_concat]
      show store (out ++ [c] ++ []) out.length 0 = _
      rw [List.append_nil]
      exact store_cut rfl
    · rw [hfull, hout, List.length_append] at hlen
      rw [if_neg (not_not.mpr hfull), hout, List.dropLast_concat, List.length_append]
      exact hlen

/-- **The buffers hold what `processMacros` gives, if no name is too long.** -/
theorem process_eq {output : Bytes} (h0 : 0 ∉ r) (hpos : 0 < cbsize)
    (henvname : envname.length = cbsize) (houtput : output.length = cbsize)
    (hshort : ∀ i, ¬ LongNameAt (fun _ => none) cbsize r i) :
    ∃ rest, processBuffers getenv cbsize envname output (r ++ [0]) =
        .ok (processMacros getenv cbsize r ++ 0 :: rest) ∧
      (processMacros getenv cbsize r ++ 0 :: rest).length = cbsize := by
  have hstr : strAt (r ++ [0]) ((r ++ [0]).length + 1) 0 = .ok r :=
    strAt_cut (P := []) h0 rfl (by rw [List.length_append]; omega)
  have hfits : (Macros.init cbsize).Fits output := by
    show 0 + cbsize = output.length
    omega
  have hloop := @vars_loop getenv r output envname (.init cbsize) cbsize r.length h0
    henvname.symm ⟨rfl, rfl, fun acc h => by cases h⟩ rfl hfits (Nat.le_add_left _ _)
    fun i h => hshort i h.of_getenv
  obtain ⟨rest, hfinish, hlen⟩ := @vars_finish r output _ (hfits.loop (r := r)) (by omega)
  refine ⟨rest, ?_, hlen.trans houtput⟩
  rw [processBuffers, hstr, ok_bind]
  refine (congrArg (· >>= _) hloop).trans ?_
  rw [ok_bind]
  exact hfinish

/-- Else there is a write behind `envname`. -/
theorem process_error {output : Bytes} (h0 : 0 ∉ r)
    (henvname : envname.length = cbsize) (houtput : output.length = cbsize)
    (hlong : LongNameAt getenv cbsize r i) :
    ∃ e, processBuffers getenv cbsize envname output (r ++ [0]) = .error e := by
  have hstr : strAt (r ++ [0]) ((r ++ [0]).length + 1) 0 = .ok r :=
    strAt_cut (P := []) h0 rfl (by rw [List.length_append]; omega)
  have hfits : (Macros.init cbsize).Fits output := by
    show 0 + cbsize = output.length
    omega
  obtain ⟨e, he⟩ := @vars_loop_error getenv r output envname (.init cbsize) cbsize (r.length + 1) i
    henvname.symm ⟨rfl, rfl, fun acc h => by cases h⟩ rfl hfits h0 (Nat.zero_le _) hlong
  refine ⟨e, ?_⟩
  rw [processBuffers, hstr, ok_bind]
  refine (congrArg (· >>= _) he).trans ?_
  exact error_bind e _

end Loop

end UBoot.Common
