import UBoot.Common.NveditSpec

/-!
# `fw_setenv` and `setenv` are the same editor

`tools/env/fw_env.c` edits the environment on the Linux side with its own copy of
the loops.  Its removal of the last string differs: it clears the first two bytes
of the string where `_do_setenv` steps back and clears one, so the area then ends in
three `\0` where the other ends in two.  `fwSetenv` is `fw_setenv` from the search to
the point where the image would be written to flash.

`fwSetenv_agrees`: on the same area, with the same arguments, either both report an
overflow or both leave the same list of strings.
-/

namespace UBoot.Tools

open UBoot.Lib
open UBoot.LibGeneric
open UBoot.Common

/-- How the edit of `fw_setenv` ends. -/
inductive FwResult
  /-- `## Error: environment not terminated`, `errno = EINVAL` -/
  | notTerminated
  /-- `Can't overwrite`, `errno = EROFS` -/
  | readOnly
  /-- `Error: environment overflow`, and the area as it is by then -/
  | overflow (e : Env)
  /-- at `WRITE_FLASH`, with the new checksum -/
  | edited (e : Env)
  deriving DecidableEq, Repr

/-- From "Delete only ?" to `WRITE_FLASH`. -/
def fwDefine (crc : Bytes → UInt32) (a : Argv) (e : Env) : Exec FwResult :=
  match a.values with
  | .absent => return .edited { e with crc := crc e.data }
  | .null => .error (.load 0)
  | .words v vs => do
    match ← appendDef e.data a.name (v :: vs) with
    | none => return .overflow e
    | some data => return .edited { e with data := data, crc := crc data }

/-- `fw_setenv(argc, argv)` on the image that `env_init` has loaded. -/
def fwSetenv (crc : Bytes → UInt32) (a : Argv) (e : Env) : Exec FwResult := do
  match ← search e.data (fun nxt => decide (e.data.length ≤ nxt)) a.nameMem with
  | .unterminated => return .notTerminated
  | .missing => fwDefine crc a e
  | .found env nxt _ =>
    if a.name = str "ethaddr" ∨ a.name = str "serial#" then
      return .readOnly
    else
      let data ← deleteEntry .clear e.data env nxt
      fwDefine crc a { e with data := data }

section

variable {crc : Bytes → UInt32} {a : Argv} {e : Env} {es : List Bytes}

/-- What the edit leaves, where `kept` is the list without the removed string. -/
inductive FwOutcome (crc : Bytes → UInt32) (a : Argv) (size : Nat) (kept : List Bytes) :
    FwResult → Prop
  | removed {e : Env} (hno : a.values.list = []) (hm : Holds e.data kept)
      (hcrc : e.crc = crc e.data) : FwOutcome crc a size kept (.edited e)
  | stored {e : Env} (hval : a.values.list ≠ []) (hm : Holds e.data (kept ++ [a.definition]))
      (hlen : e.data.length = size) (hcrc : e.crc = crc e.data) :
      FwOutcome crc a size kept (.edited e)
  | overflow {e : Env} (hval : a.values.list ≠ []) (hm : Holds e.data kept)
      (hfull : size < (strings kept).length + defSize a.name a.values.list) :
      FwOutcome crc a size kept (.overflow e)

theorem fwDefine_outcome (hm : Holds e.data es) (hnull : a.values ≠ .null) :
    ∃ r, fwDefine crc a e = .ok r ∧ FwOutcome crc a e.data.length es r := by
  rw [fwDefine]
  split
  next hv => exact ⟨_, rfl, .removed (by rw [hv]; rfl) hm rfl⟩
  next hv => exact absurd hv hnull
  next v vs hv =>
    have hlist : a.values.list = v :: vs := by rw [hv]; rfl
    have hne : a.values.list ≠ [] := by rw [hlist]; simp
    rcases Argv.appendDef_cases hm hlist with ⟨m', hm', hholds, hlen⟩ | ⟨hnone, hfull⟩
    · rw [hm', ok_bind]
      exact ⟨_, rfl, .stored hne hholds hlen rfl⟩
    · rw [hnone, ok_bind]
      exact ⟨_, rfl, .overflow hne hm hfull⟩

/-- The edit on a list of definitions. -/
theorem fwSetenv_outcome (hm : Holds e.data es) (hdef : ∀ x ∈ es, IsDef x) (h61 : 61 ∉ a.name)
    (hplain : a.name ∉ guardedNames) (hnull : a.values ≠ .null) :
    ∃ r, fwSetenv crc a e = .ok r ∧
      FwOutcome crc a e.data.length (removeVar es a.name) r := by
  obtain ⟨s, hs, hfinds⟩ : ∃ s, search e.data (fun nxt => decide (e.data.length ≤ nxt))
      a.nameMem = .ok s ∧ Finds a.name es 0 s :=
    search_defs hm hdef (Argv.isName h61) (by simp)
  rw [fwSetenv, hs, ok_bind]
  cases hfinds with
  | missing hall =>
    rw [removeVar_of_missing hall]
    exact fwDefine_outcome hm hnull
  | @found pre post x hes hname hfirst =>
    subst hes
    have hopen : ¬ (a.name = str "ethaddr" ∨ a.name = str "serial#") := by
      simp only [guardedNames, List.mem_cons, not_or] at hplain
      exact fun h => h.elim hplain.2.2.2.2.1 hplain.2.2.2.2.2.1
    obtain ⟨m', hdel, hm', hlen⟩ := deleteEntry_holds (r := .clear) hm rfl rfl
    simp only [Nat.zero_add, if_neg hopen, hdel, ok_bind]
    rw [removeVar_append hname hfirst, ← hlen]
    exact fwDefine_outcome (e := { e with data := m' }) hm' hnull

end

/-- **The two editors agree.**  On one well formed area and one argument list, for a
variable that is not guarded, both report an overflow or both leave the same strings
in the same order. -/
theorem fwSetenv_agrees (b : Board) (crc : Bytes → UInt32) (flag : UInt32) (a : Argv) (g : Globals)
    (hwf : WellFormed g.env.data) (h61 : 61 ∉ a.name) (hplain : a.name ∉ guardedNames)
    (hnull : a.values ≠ .null) :
    ∃ rc g' r, doSetenv b crc flag a g = .ok (rc, g') ∧ fwSetenv crc a g.env = .ok r ∧
      ((rc = 1 ∧ g'.printed.getLast? = some (overflowText a.name) ∧ ∃ e, r = .overflow e) ∨
        (rc = 0 ∧ ∃ e es, r = .edited e ∧ Holds g'.env.data es ∧ Holds e.data es)) := by
  obtain ⟨es, hm, hdefs⟩ := hwf
  obtain ⟨rc, g', hret, hout⟩ := doSetenv_plain b crc flag hm hdefs.isDef h61 hplain
  obtain ⟨r, hr, hfw⟩ : ∃ r, fwSetenv crc a g.env = .ok r ∧
      FwOutcome crc a g.env.data.length (removeVar es a.name) r :=
    fwSetenv_outcome hm hdefs.isDef h61 hplain hnull
  refine ⟨rc, g', r, hret, hr, ?_⟩
  cases hout with
  | removed hno hm₁ hlen _ =>
    cases hfw with
    | removed _ hm₂ _ => exact .inr ⟨rfl, _, _, rfl, hm₁, hm₂⟩
    | stored hval => exact absurd hno hval
    | overflow hval => exact absurd hno hval
  | stored hval hm₁ hlen _ =>
    cases hfw with
    | removed hno => exact absurd hno hval
    | stored _ hm₂ _ _ => exact .inr ⟨rfl, _, _, rfl, hm₁, hm₂⟩
    | overflow _ _ hfull =>
      have hfits := Argv.fits_of_holds hm₁
      omega
  | overflow hval hm₁ hlen _ hfull htext =>
    cases hfw with
    | removed hno => exact absurd hno hval
    | stored _ hm₂ hlen₂ _ =>
      have hfits := Argv.fits_of_holds hm₂
      omega
    | overflow => exact .inl ⟨rfl, htext, _, rfl⟩

theorem fwSetenv_agrees_smallArea :
    WellFormed smallArea ∧ ∃ rc g' r,
      doSetenv plainBoard crc32 0 setIp (globalsOf ⟨crc32 smallArea, 1, smallArea⟩) = .ok (rc, g') ∧
      fwSetenv crc32 setIp ⟨crc32 smallArea, 1, smallArea⟩ = .ok r ∧
      ((rc = 1 ∧ g'.printed.getLast? = some (overflowText setIp.name) ∧ ∃ e, r = .overflow e) ∨
        (rc = 0 ∧ ∃ e es, r = .edited e ∧ Holds g'.env.data es ∧ Holds e.data es)) :=
  ⟨⟨_, holds_smallArea, defs_smallArea⟩,
    fwSetenv_agrees plainBoard crc32 0 setIp (globalsOf ⟨crc32 smallArea, 1, smallArea⟩)
      ⟨_, holds_smallArea, defs_smallArea⟩ (by decide) (by decide) (by decide)⟩

end UBoot.Tools
