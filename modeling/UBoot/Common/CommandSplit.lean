import UBoot.Common.CommandScan
import Mathlib.Tactic.SplitIfs

/-!
# Where a command line is split

A command line is read twice, for the separators and for the macros.  `lexAt` is what
`process_macros` has seen of a string up to a position, one character at a time and without the
limit of its output.

* `turn_iff`: a character that is not escaped is reached in the context that `lexAt` gives, if what
  is in front of it does not fill the output.
* `odd_quotes`: the two readings differ by the quotes in variable references.
* `runCommand_splits_iff`: when the two readings agree on every semicolon.
-/

namespace UBoot.Common

open UBoot.Lib

/-! ## The macros, one character at a time -/

/-- Where a character stands: outside of everything, behind a dollar sign, in a variable
reference with the name so far, or between quotes. -/
inductive Ctx where
  | text
  | dollar
  | name (acc : Bytes)
  | quoted
  deriving DecidableEq

/-- What is known of the characters in front of a position: the context, the last of them, how
many quotes stood in variable references, and how much output they make. -/
structure Lex where
  ctx : Ctx
  prev : UInt8
  refQuotes : Nat
  width : Nat

/-- A quote that is not escaped, counted. -/
def quoteCount (prev c : UInt8) : Nat := if c = quoteMark ∧ prev ≠ backslash then 1 else 0

/-- One character more. -/
def lexStep (getenv : Bytes → Option Bytes) (l : Lex) (c : UInt8) : Lex :=
  match l.ctx with
  | .text =>
    if c = backslash ∧ l.prev ≠ backslash then ⟨.text, c, l.refQuotes, l.width⟩
    else if c = quoteMark ∧ l.prev ≠ backslash then ⟨.quoted, c, l.refQuotes, l.width⟩
    else if c = dollarSign ∧ l.prev ≠ backslash then ⟨.dollar, c, l.refQuotes, l.width⟩
    else ⟨.text, c, l.refQuotes, l.width + 1⟩
  | .dollar =>
    if c = backslash ∧ l.prev ≠ backslash then ⟨.dollar, c, l.refQuotes, l.width⟩
    else if isOpening c then ⟨.name [], c, l.refQuotes, l.width⟩
    else ⟨.text, c, l.refQuotes + quoteCount l.prev c, l.width + 2⟩
  | .name acc =>
    if c = backslash ∧ l.prev ≠ backslash then ⟨.name (acc ++ [c]), c, l.refQuotes, l.width⟩
    else if isClosing c then ⟨.text, c, l.refQuotes, l.width + ((getenv acc).getD []).length⟩
    else ⟨.name (acc ++ [c]), c, l.refQuotes + quoteCount l.prev c, l.width⟩
  | .quoted =>
    if c = quoteMark ∧ l.prev ≠ backslash then ⟨.text, c, l.refQuotes, l.width⟩
    else ⟨.quoted, c, l.refQuotes, l.width + 1⟩

/-- What is known at a position of a string. -/
def lexAt (getenv : Bytes → Option Bytes) (r : Bytes) (i : Nat) : Lex :=
  (r.take i).foldl (lexStep getenv) ⟨.text, 0, 0, 0⟩

/-- The state of `process_macros` in a context. -/
def Ctx.state : Ctx → MacroState
  | text => .waitDollar
  | dollar => .waitOpening
  | name _ => .waitClosing
  | quoted => .waitQuote

section Lexing

variable {getenv : Bytes → Option Bytes} {cbsize fuel pos i j : Nat} {r : Bytes} {l : Lex}
  {c c' prev : UInt8} {s : Macros}

theorem lexAt_succ (hc : r[i]? = some c) :
    lexAt getenv r (i + 1) = lexStep getenv (lexAt getenv r i) c := by
  rw [lexAt, List.take_add_one, hc, List.foldl_append]
  rfl

@[simp] theorem lexStep_prev : (lexStep getenv l c).prev = c := by
  unfold lexStep
  cases l.ctx with
  | text => dsimp only; split_ifs <;> rfl
  | dollar => dsimp only; split_ifs <;> rfl
  | name acc => dsimp only; split_ifs <;> rfl
  | quoted => dsimp only; split_ifs <;> rfl

/-- A character stands behind a backslash if that was the last one. -/
theorem lexAt_prev (hlt : i < r.length) :
    (lexAt getenv r i).prev = backslash ↔ Escaped r i := by
  cases i with
  | zero =>
    have hfirst : (lexAt getenv r 0).prev = 0 := rfl
    exact iff_of_false (by rw [hfirst]; decide) fun h => absurd h.1 (by omega)
  | succ i =>
    have hc : r[i]? = some r[i] := List.getElem?_eq_getElem (by omega)
    rw [lexAt_succ hc, lexStep_prev]
    simp [Escaped, hc]

theorem width_le_lexStep : l.width ≤ (lexStep getenv l c).width := by
  unfold lexStep
  cases l.ctx with
  | text => dsimp only; split_ifs <;> simp
  | dollar => dsimp only; split_ifs <;> simp
  | name acc => dsimp only; split_ifs <;> simp
  | quoted => dsimp only; split_ifs <;> simp

theorem width_mono (hij : i ≤ j) (hj : j ≤ r.length) :
    (lexAt getenv r i).width ≤ (lexAt getenv r j).width := by
  induction j, hij using Nat.le_induction with
  | base => exact le_rfl
  | succ j hij ih =>
    rw [lexAt_succ (List.getElem?_eq_getElem (by omega))]
    exact (ih (by omega)).trans width_le_lexStep

theorem quoteMark_ne_backslash : quoteMark ≠ backslash := by decide

theorem isOpening_quoteMark : isOpening quoteMark = false := rfl

theorem isClosing_quoteMark : isClosing quoteMark = false := rfl

/-- One character keeps the parity: a quote opens or closes, or is in a reference. -/
theorem lexStep_parity :
    ((lexStep getenv l c).refQuotes + (if (lexStep getenv l c).ctx = .quoted then 1 else 0)) % 2 =
      (l.refQuotes + (if l.ctx = .quoted then 1 else 0) + quoteCount l.prev c) % 2 := by
  unfold lexStep quoteCount
  cases hctx : l.ctx with
  | text =>
    dsimp only
    split_ifs <;> simp_all [quoteMark_ne_backslash]
  | dollar =>
    dsimp only
    split_ifs <;> simp_all [quoteMark_ne_backslash, isOpening_quoteMark]
  | name acc =>
    dsimp only
    split_ifs <;> simp_all [quoteMark_ne_backslash, isClosing_quoteMark]
  | quoted =>
    dsimp only
    split_ifs <;> simp_all
    omega

/-- **The two readings** differ by the quotes in variable references. -/
theorem odd_quotes (hi : i ≤ r.length) :
    quotes r i % 2 = ((lexAt getenv r i).refQuotes +
      (if (lexAt getenv r i).ctx = .quoted then 1 else 0)) % 2 := by
  induction i with
  | zero => rfl
  | succ i ih =>
    have hc : r[i]? = some r[i] := List.getElem?_eq_getElem (by omega)
    have hquote : (if IsQuote r i then 1 else 0) =
        quoteCount (lexAt getenv r i).prev r[i] := by
      have hprev := @lexAt_prev getenv i r (by omega)
      unfold IsQuote quoteCount
      simp only [hc, Option.some.injEq, ne_eq, hprev]
    rw [quotes_succ, lexAt_succ hc, lexStep_parity, hquote, Nat.add_mod, ih (by omega),
      ← Nat.add_mod]

end Lexing

/-! ## The turns of `process_macros` -/

section Turns

variable {getenv : Bytes → Option Bytes} {cbsize fuel pos i : Nat} {r value : Bytes} {l : Lex}
  {c c' prev : UInt8} {s : Macros}

/-- The variables of `process_macros` at a position are those of what is known there. -/
structure Follows (cbsize : Nat) (r : Bytes) (pos : Nat) (l : Lex) (s : Macros) : Prop where
  state : s.state = l.ctx.state
  room : s.outputcnt = cbsize - l.width
  name : ∀ acc, l.ctx = .name acc → s.varnameStart ≤ pos ∧ (r.take pos).drop s.varnameStart = acc

theorem putValue_state : (s.putValue value).state = s.state := by
  induction value generalizing s with
  | nil => rfl
  | cons c value ih =>
    rw [Macros.putValue]
    split
    · rfl
    · exact ih

theorem putValue_outputcnt : (s.putValue value).outputcnt = s.outputcnt - value.length := by
  induction value generalizing s with
  | nil => rfl
  | cons c value ih =>
    rw [Macros.putValue]
    split
    · omega
    · rw [ih]
      show s.outputcnt - 1 - value.length = _
      rw [List.length_cons]
      omega

/-- The name of a reference with one character more. -/
theorem name_append (hc : r[pos]? = some c) {start : Nat} (hle : start ≤ pos) :
    (r.take (pos + 1)).drop start = (r.take pos).drop start ++ [c] := by
  have hlt := (List.getElem?_eq_some_iff.mp hc).1
  rw [List.take_add_one, hc, List.drop_append_of_le_length (by rw [List.length_take]; omega)]
  rfl

/-- A backslash that is removed. -/
theorem Follows.removed (h : Follows cbsize r pos l s) (hc : r[pos]? = some c)
    (hctx : l.ctx ≠ .quoted) (hback : c = backslash ∧ l.prev ≠ backslash) :
    Follows cbsize r (pos + 1) (lexStep getenv l c) s := by
  obtain ⟨hstate, hroom, hname⟩ := h
  unfold lexStep
  cases hl : l.ctx with
  | text =>
    dsimp only
    rw [if_pos hback]
    exact ⟨by rw [hstate, hl], hroom, fun acc h => by cases h⟩
  | dollar =>
    dsimp only
    rw [if_pos hback]
    exact ⟨by rw [hstate, hl], hroom, fun acc h => by cases h⟩
  | name acc =>
    obtain ⟨hle, hacc⟩ := hname acc hl
    dsimp only
    rw [if_pos hback]
    refine ⟨by rw [hstate, hl]; rfl, hroom, ?_⟩
    intro acc' h
    cases h
    exact ⟨by omega, by rw [name_append hc hle, hacc]⟩
  | quoted => exact absurd hl hctx

/-- A character that the switch looks at. -/
theorem Follows.switched (h : Follows cbsize r pos l s) (hc : r[pos]? = some c)
    (hback : l.ctx ≠ .quoted → ¬ (c = backslash ∧ l.prev ≠ backslash)) :
    Follows cbsize r (pos + 1) (lexStep getenv l c) (s.switch getenv r pos c l.prev) := by
  obtain ⟨hstate, hroom, hname⟩ := h
  unfold lexStep Macros.switch
  rw [hstate]
  cases hl : l.ctx with
  | text =>
    rw [hl] at hstate
    dsimp only [Ctx.state]
    rw [if_neg (hback (by simp [hl]))]
    split_ifs with hquote hdollar
    · exact ⟨rfl, hroom, fun acc h => by cases h⟩
    · exact ⟨rfl, hroom, fun acc h => by cases h⟩
    · refine ⟨hstate, ?_, fun acc h => by cases h⟩
      show s.outputcnt - 1 = cbsize - (l.width + 1)
      omega
  | dollar =>
    dsimp only [Ctx.state]
    rw [if_neg (hback (by simp [hl]))]
    split_ifs with hopen hleft
    · refine ⟨rfl, hroom, ?_⟩
      intro acc h
      cases h
      refine ⟨le_rfl, ?_⟩
      exact List.drop_of_length_le (by rw [List.length_take]; exact Nat.min_le_left _ _)
    · refine ⟨rfl, ?_, fun acc h => by cases h⟩
      show s.outputcnt - 1 - 1 = cbsize - (l.width + 2)
      omega
    · refine ⟨rfl, ?_, fun acc h => by cases h⟩
      have hfull : s.outputcnt - 1 = 0 := not_not.mp hleft
      show s.outputcnt - 1 = cbsize - (l.width + 2)
      omega
  | name acc =>
    obtain ⟨hle, hacc⟩ := hname acc hl
    rw [hl] at hstate
    dsimp only [Ctx.state]
    rw [if_neg (hback (by simp [hl]))]
    split_ifs with hclose
    · rw [hacc]
      cases getenv acc with
      | none => exact ⟨rfl, hroom, fun acc h => by cases h⟩
      | some envval =>
        refine ⟨putValue_state, ?_, fun acc h => by cases h⟩
        dsimp only [Option.getD_some]
        rw [putValue_outputcnt]
        show s.outputcnt - envval.length = cbsize - (l.width + envval.length)
        omega
    · refine ⟨hstate, hroom, ?_⟩
      intro acc' h
      cases h
      exact ⟨by omega, by rw [name_append hc hle, hacc]⟩
  | quoted =>
    rw [hl] at hstate
    dsimp only [Ctx.state]
    split_ifs with hquote
    · exact ⟨rfl, hroom, fun acc h => by cases h⟩
    · refine ⟨hstate, ?_, fun acc h => by cases h⟩
      show s.outputcnt - 1 = cbsize - (l.width + 1)
      omega

theorem loop_pos_le : ∀ v ∈ (Macros.loop getenv r fuel s).2, s.pos ≤ v.pos := by
  induction fuel generalizing s with
  | zero =>
    intro v hv
    cases hv
  | succ fuel ih =>
    intro v hv
    rw [Macros.loop] at hv
    split at hv
    · cases hv
    · split at hv
      · cases hv
      · rename_i pos c prev hnext
        have hpos : s.pos ≤ pos := by
          unfold Macros.nextChar at hnext
          split at hnext
          · cases hnext
          · split at hnext
            · split at hnext
              · cases hnext
              · cases hnext
                omega
            · cases hnext
              exact le_rfl
        rcases List.mem_cons.mp hv with rfl | hv
        · exact hpos
        · have := ih v hv
          dsimp only at this
          omega

theorem ctx_state_eq_waitQuote {ctx : Ctx} : ctx.state = .waitQuote ↔ ctx = .quoted := by
  cases ctx <;> simp [Ctx.state]

/-- The loop from a position on reaches a character that is not escaped in the context of its
position, if there is room for what is in front of it. -/
theorem loop_turn_iff (hs : Follows cbsize r s.pos (lexAt getenv r s.pos) s)
    (hprev : s.prev = (lexAt getenv r s.pos).prev) (hfuel : r.length ≤ s.pos + fuel)
    (hle : s.pos ≤ i) (hc : r[i]? = some c) (hne : c ≠ backslash) (hesc : ¬ Escaped r i) :
    (∃ v ∈ (Macros.loop getenv r fuel s).2,
      v.pos = i ∧ v.state ≠ .waitQuote ∧ v.prev ≠ backslash) ↔
      (lexAt getenv r i).width < cbsize ∧ (lexAt getenv r i).ctx ≠ .quoted := by
  have hlt := (List.getElem?_eq_some_iff.mp hc).1
  induction fuel generalizing s with
  | zero => omega
  | succ fuel ih =>
    have hmono := @width_mono getenv s.pos i r hle hlt.le
    rw [Macros.loop]
    by_cases hfull : s.outputcnt = 0
    · rw [if_pos hfull]
      have hroom := hs.room
      refine iff_of_false (by rintro ⟨v, hv, -⟩; cases hv) ?_
      rintro ⟨hwidth, -⟩
      omega
    · rw [if_neg hfull]
      have hd : r[s.pos]? = some r[s.pos] := List.getElem?_eq_getElem (by omega)
      generalize r[s.pos] = d at hd
      by_cases hback : s.state ≠ .waitQuote ∧ d = backslash ∧ s.prev ≠ backslash
      · -- The backslash is removed, and the switch looks at the next character.
        have hpos : s.pos ≠ i := by
          rintro rfl
          rw [hc] at hd
          exact hne (Option.some.inj hd ▸ hback.2.1)
        have hpos' : s.pos + 1 ≠ i := by
          rintro rfl
          exact hesc ⟨by omega, by rw [Nat.add_sub_cancel, hd, hback.2.1]⟩
        have hd' : r[s.pos + 1]? = some r[s.pos + 1] := List.getElem?_eq_getElem (by omega)
        generalize r[s.pos + 1] = d' at hd'
        have hnext : Macros.nextChar r s = some (s.pos + 1, d', d) := by
          unfold Macros.nextChar
          rw [hd]
          dsimp only
          rw [if_pos hback, hd']
        have hctx : (lexAt getenv r s.pos).ctx ≠ .quoted := by
          rw [hs.state, ne_eq, ctx_state_eq_waitQuote] at hback
          exact hback.1
        have hremoved := @Follows.removed getenv cbsize s.pos r _ d s hs hd hctx
          ⟨hback.2.1, hprev ▸ hback.2.2⟩
        rw [← lexAt_succ hd] at hremoved
        have hlast : (lexAt getenv r (s.pos + 1)).prev = d := by rw [lexAt_succ hd, lexStep_prev]
        have hswitched := @Follows.switched getenv cbsize (s.pos + 1) r _ d' s hremoved hd'
          (fun _ h => h.2 (hlast.trans hback.2.1))
        rw [← lexAt_succ hd', hlast] at hswitched
        rw [hnext]
        dsimp only
        have hrest := @ih { s.switch getenv r (s.pos + 1) d' d with
          pos := s.pos + 1 + 1, prev := d' } ⟨hswitched.state, hswitched.room, hswitched.name⟩
          (by rw [lexAt_succ hd', lexStep_prev]) (by dsimp only; omega) (by dsimp only; omega)
        refine Iff.trans ?_ hrest
        constructor
        · rintro ⟨v, hv, hvi⟩
          rcases List.mem_cons.mp hv with rfl | hv
          · exact absurd hvi.1 hpos'
          · exact ⟨v, hv, hvi⟩
        · rintro ⟨v, hv, hvi⟩
          exact ⟨v, List.mem_cons_of_mem _ hv, hvi⟩
      · have hnext : Macros.nextChar r s = some (s.pos, d, s.prev) := by
          unfold Macros.nextChar
          rw [hd]
          dsimp only
          rw [if_neg hback]
        have hswitched := @Follows.switched getenv cbsize s.pos r _ d s hs hd (by
          intro hctx h
          refine hback ⟨?_, h.1, hprev ▸ h.2⟩
          rw [hs.state, ne_eq, ctx_state_eq_waitQuote]
          exact hctx)
        rw [← lexAt_succ hd, ← hprev] at hswitched
        rw [hnext]
        dsimp only
        by_cases hpos : s.pos = i
        · -- This is the turn.
          subst hpos
          have hroom := hs.room
          have hnoback : s.prev ≠ backslash := by
            rw [hprev, ne_eq, lexAt_prev hlt]
            exact hesc
          have hquoted : s.state ≠ .waitQuote ↔ (lexAt getenv r s.pos).ctx ≠ .quoted := by
            rw [hs.state, ne_eq, ctx_state_eq_waitQuote]
          constructor
          · rintro ⟨v, hv, hvi, hstate, -⟩
            rcases List.mem_cons.mp hv with rfl | hv
            · exact ⟨by omega, hquoted.mp hstate⟩
            · have := loop_pos_le v hv
              dsimp only at this
              omega
          · rintro ⟨-, hctx⟩
            exact ⟨_, List.mem_cons_self, rfl, hquoted.mpr hctx, hnoback⟩
        · have hrest := @ih { s.switch getenv r s.pos d s.prev with pos := s.pos + 1, prev := d }
            ⟨hswitched.state, hswitched.room, hswitched.name⟩
            (by rw [lexAt_succ hd, lexStep_prev]) (by dsimp only; omega) (by dsimp only; omega)
          refine Iff.trans ?_ hrest
          constructor
          · rintro ⟨v, hv, hvi⟩
            rcases List.mem_cons.mp hv with rfl | hv
            · exact absurd hvi.1 hpos
            · exact ⟨v, hv, hvi⟩
          · rintro ⟨v, hv, hvi⟩
            exact ⟨v, List.mem_cons_of_mem _ hv, hvi⟩

/-- The position is reached outside single quotes, by a character that is not escaped. -/
def ReachedUnquoted (getenv : Bytes → Option Bytes) (cbsize : Nat) (r : Bytes) (i : Nat) : Prop :=
  ∃ v ∈ macroTurns getenv cbsize r, v.pos = i ∧ v.state ≠ .waitQuote ∧ v.prev ≠ backslash

theorem turn_iff (hc : r[i]? = some c) (hne : c ≠ backslash) (hesc : ¬ Escaped r i) :
    ReachedUnquoted getenv cbsize r i ↔
      (lexAt getenv r i).width < cbsize ∧ (lexAt getenv r i).ctx ≠ .quoted :=
  loop_turn_iff ⟨rfl, rfl, fun acc h => by cases h⟩ rfl (by show r.length ≤ 0 + r.length; omega)
    (Nat.zero_le _) hc hne hesc

end Turns

/-! ## The line -/

section Line

variable {W : Type} {sh : Shell W} {getenv : Bytes → Option Bytes} {cbsize fuel i start : Nat}
  {r cmd stack : Bytes} {w : W} {s : Macros} {seg : Segment W}

theorem escaped_succ {c : UInt8} (hc : r[i]? = some c) : Escaped r (i + 1) ↔ c = backslash := by
  unfold Escaped
  rw [Nat.add_sub_cancel, hc]
  simp

/-- A turn knows whether its character is escaped. -/
theorem loop_prev (hs : s.prev = backslash ↔ Escaped r s.pos) :
    ∀ v ∈ (Macros.loop getenv r fuel s).2, (v.prev = backslash ↔ Escaped r v.pos) := by
  induction fuel generalizing s with
  | zero =>
    intro v hv
    cases hv
  | succ fuel ih =>
    intro v hv
    rw [Macros.loop] at hv
    split at hv
    · cases hv
    · split at hv
      · cases hv
      · rename_i pos c prev hnext
        have hchar : r[pos]? = some c ∧ (prev = backslash ↔ Escaped r pos) := by
          unfold Macros.nextChar at hnext
          split at hnext
          · cases hnext
          · rename_i d hd
            split at hnext
            · rename_i hback
              split at hnext
              · cases hnext
              · rename_i d' hd'
                cases hnext
                exact ⟨hd', (escaped_succ hd).symm⟩
            · cases hnext
              exact ⟨hd, hs⟩
        rcases List.mem_cons.mp hv with rfl | hv
        · exact hchar.2
        · exact ih (escaped_succ hchar.1).symm v hv

theorem not_escaped_of_reached (h : ReachedUnquoted getenv cbsize r i) : ¬ Escaped r i := by
  obtain ⟨v, hv, rfl, -, hprev⟩ := h
  have hinit : (Macros.init cbsize).prev = backslash ↔ Escaped r (Macros.init cbsize).pos :=
    iff_of_false (show ¬ (0 : UInt8) = backslash by decide) fun h => absurd h.1 (Nat.lt_irrefl 0)
  exact fun hesc => hprev ((loop_prev hinit v hv).mpr hesc)

theorem stop_of_mem_segments (h : seg ∈ segments sh cbsize cmd fuel start w) :
    seg.stop = seg.start + nextSep (cmd.drop seg.start) := by
  induction fuel generalizing start w with
  | zero => cases h
  | succ fuel ih =>
    rw [segments] at h
    split at h
    · cases h
    · rcases List.mem_cons.mp h with rfl | h
      · rfl
      · split at h
        · cases h
        · exact ih h

/-- What the splitting of a line is for.  The scan stays in the buffer, and a semicolon behind the
start of its command ends it exactly if `process_macros` reaches it outside quotes and it is not
escaped. -/
def SplitOk (sh : Shell W) (cbsize : Nat) (stack cmd : Bytes) (w : W) : Prop :=
  ∃ segs, runCommand sh cbsize stack cmd w = .ok segs ∧
    ∀ seg ∈ segs, ∀ i, seg.start < i → i ≤ seg.stop → cmd[i]? = some semicolon →
      (i = seg.stop ↔ ReachedUnquoted (sh.getenv seg.world) cbsize (cmd.drop seg.start)
        (i - seg.start))

/-- What is in front of the position has an even number of quotes in variable references; or, if
it fills the output, an odd number of quotes in all. -/
def QuotesAgree (getenv : Bytes → Option Bytes) (cbsize : Nat) (r : Bytes) (i : Nat) : Prop :=
  if (lexAt getenv r i).width < cbsize then (lexAt getenv r i).refQuotes % 2 = 0
  else quotes r i % 2 = 1

/-- A semicolon of a command that is not escaped. -/
theorem splits_iff_quotesAgree (hc : r[i]? = some semicolon) (hpos : 0 < i) (hle : i ≤ nextSep r)
    (hesc : ¬ Escaped r i) :
    (i = nextSep r ↔ ReachedUnquoted getenv cbsize r i) ↔ QuotesAgree getenv cbsize r i := by
  have hlt := (List.getElem?_eq_some_iff.mp hc).1
  have hsep : i = nextSep r ↔ quotes r i % 2 = 0 := by
    constructor
    · rintro rfl
      exact (separates_nextSep hlt).2.2.2
    · intro heven
      by_contra hne
      exact not_separates_of_lt (by omega) ⟨hpos, hc, hesc, heven⟩
  have hparity := @odd_quotes getenv i r hlt.le
  rw [hsep, turn_iff hc (by decide) hesc]
  unfold QuotesAgree
  by_cases hctx : (lexAt getenv r i).ctx = .quoted
  · rw [if_pos hctx] at hparity
    split <;> simp only [hctx, ne_eq, not_true_eq_false, and_false, iff_false] <;> omega
  · rw [if_neg hctx] at hparity
    split
    · rename_i hroom
      simp only [hroom, hctx, ne_eq, not_false_eq_true, and_self, iff_true]
      omega
    · rename_i hfull
      simp only [hfull, false_and, iff_false]
      omega

/-- A line is split where its quotes say exactly if it does not start with a quote, and the two
readings agree on the quotes in front of every semicolon. -/
theorem runCommand_splits_iff (h0 : 0 ∉ cmd) (hlen : cmd.length < cbsize)
    (hstack : stack.length = cbsize) :
    SplitOk sh cbsize stack cmd w ↔ cmd.head? ≠ some quoteMark ∧
      ∀ seg ∈ segments sh cbsize cmd (cmd.length + 1) 0 w, ∀ i, seg.start < i → i ≤ seg.stop →
        cmd[i]? = some semicolon → ¬ Escaped (cmd.drop seg.start) (i - seg.start) →
        QuotesAgree (sh.getenv seg.world) cbsize (cmd.drop seg.start) (i - seg.start) := by
  by_cases hquote : cmd.head? = some quoteMark
  · obtain ⟨fault, hfault⟩ := @runCommand_fault W sh cbsize cmd stack w hlen hstack hquote
    refine iff_of_false ?_ fun h => h.1 hquote
    rintro ⟨segs, heq, -⟩
    rw [hfault] at heq
    cases heq
  · have hrun := @runCommand_eq W sh cbsize cmd stack w h0 hlen hstack hquote
    have hpoint : ∀ seg ∈ segments sh cbsize cmd (cmd.length + 1) 0 w, ∀ i, seg.start < i →
        i ≤ seg.stop → cmd[i]? = some semicolon →
        ((i = seg.stop ↔ ReachedUnquoted (sh.getenv seg.world) cbsize (cmd.drop seg.start)
          (i - seg.start)) ↔
        (¬ Escaped (cmd.drop seg.start) (i - seg.start) →
          QuotesAgree (sh.getenv seg.world) cbsize (cmd.drop seg.start) (i - seg.start))) := by
      intro seg hseg i hlo hhi hc
      have hstop := stop_of_mem_segments hseg
      obtain ⟨k, rfl⟩ : ∃ k, i = seg.start + k := ⟨i - seg.start, by omega⟩
      rw [Nat.add_sub_cancel_left, hstop, Nat.add_left_cancel_iff]
      have hc' : (cmd.drop seg.start)[k]? = some semicolon := by rw [List.getElem?_drop, hc]
      by_cases hesc : Escaped (cmd.drop seg.start) k
      · refine iff_of_true ?_ fun h => absurd hesc h
        refine iff_of_false ?_ fun h => not_escaped_of_reached h hesc
        rintro rfl
        exact (separates_nextSep (List.getElem?_eq_some_iff.mp hc').1).2.2.1 hesc
      · rw [splits_iff_quotesAgree hc' (by omega) (by omega) hesc]
        exact ⟨fun h _ => h, fun h => h hesc⟩
    constructor
    · rintro ⟨segs, heq, hsplit⟩
      rw [hrun] at heq
      cases heq
      exact ⟨hquote, fun seg hseg i hlo hhi hc =>
        (hpoint seg hseg i hlo hhi hc).mp (hsplit seg hseg i hlo hhi hc)⟩
    · rintro ⟨-, hagree⟩
      exact ⟨_, hrun, fun seg hseg i hlo hhi hc =>
        (hpoint seg hseg i hlo hhi hc).mpr (hagree seg hseg i hlo hhi hc)⟩

/-- A shell without variables, whose commands do nothing. -/
def idleShell : Shell Unit := ⟨fun _ _ => none, fun w _ => (w, false)⟩

/-- `x;y` -/
theorem runCommand_splits_two : 0 ∉ ([0x78, 0x3B, 0x79] : Bytes) ∧
    ([0x78, 0x3B, 0x79] : Bytes).length < 16 ∧ (List.replicate 16 (0 : UInt8)).length = 16 ∧
    SplitOk idleShell 16 (List.replicate 16 0) [0x78, 0x3B, 0x79] () := by
  refine ⟨by decide, by decide, rfl, ?_⟩
  refine (@runCommand_splits_iff Unit idleShell 16 [0x78, 0x3B, 0x79] (List.replicate 16 0) ()
    (by decide) (by decide) rfl).mpr ⟨by decide, ?_⟩
  have hsegs : segments idleShell 16 [0x78, 0x3B, 0x79] 4 0 () = [⟨0, 1, ()⟩, ⟨2, 3, ()⟩] := rfl
  intro seg hseg i hlo hhi hc _
  rw [show ([0x78, 0x3B, 0x79] : Bytes).length + 1 = 4 from rfl, hsegs] at hseg
  rcases List.mem_cons.mp hseg with rfl | hseg
  · obtain rfl : i = 1 := by
      dsimp only at hlo hhi
      omega
    exact rfl
  · rw [List.mem_singleton.mp hseg] at hlo hhi
    obtain rfl : i = 3 := by
      dsimp only at hlo hhi
      omega
    cases hc

/-- `x$';y` -/
theorem runCommand_not_splits :
    ¬ SplitOk idleShell 16 (List.replicate 16 0) [0x78, 0x24, 0x27, 0x3B, 0x79] () := by
  rintro ⟨segs, heq, hsplit⟩
  have hrun : runCommand idleShell 16 (List.replicate 16 0) [0x78, 0x24, 0x27, 0x3B, 0x79] () =
      .ok [⟨0, 5, ()⟩] := rfl
  rw [hrun] at heq
  cases heq
  have hiff := hsplit ⟨0, 5, ()⟩ List.mem_cons_self 3 (by decide) (by decide) rfl
  have hreached : ReachedUnquoted (idleShell.getenv ()) 16 [0x78, 0x24, 0x27, 0x3B, 0x79] 3 :=
    ⟨⟨3, .waitDollar, 0x27⟩, by decide, rfl, by decide, by decide⟩
  exact absurd (hiff.mpr hreached) (by decide)

end Line

end UBoot.Common
