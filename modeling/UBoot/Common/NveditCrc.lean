import UBoot.Common.EnvFlash
import UBoot.Common.NveditSpec

/-!
# The checksum over a run of `setenv` calls

`_do_setenv` changes the area on three paths and refreshes `env_ptr->crc` on two of
them.  On the third, the old definition has been removed and the new one does not
fit: the function returns an error and the checksum is still that of the area as it
was.  An environment saved in that state is refused at the next boot.

`Call.Overflows` is that path, read on the list before the call: the call gets as
far as removing a string, and what is left has no room for the new definition.
`setenv_run_crc` says it is the only way to lose the checksum: over every run of
calls the checksum holds in every state if and only if no call overflows.
-/

namespace UBoot.Common

open UBoot.Lib
open UBoot.LibGeneric

/-- One call, with the answers the rest of the program gives to it. -/
structure Call where
  board : Board
  flag : UInt32
  argv : Argv

/-- The states after each call of a run. -/
def runCalls (crc : Bytes → UInt32) : Globals → List Call → Exec (List Globals)
  | _, [] => return []
  | g, c :: cs => do
    let (_, g) ← doSetenv c.board crc c.flag c.argv g
    return g :: (← runCalls crc g cs)

/-- The call gets as far as removing the string from `env` to `nxt`. -/
structure Call.Removes (c : Call) (data : Bytes) (env nxt : Nat) : Prop where
  name : 61 ∉ c.argv.name
  console : redirectConsole c.board c.argv = none
  found : ∃ val, search data (fun _ => false) c.argv.nameMem = .ok (.found env nxt val) ∧
    writeProtected c.board data c.flag c.argv.name val = .ok false
  baudrate : badBaudrate c.board c.argv = false

/-- **The call removes a string and then has no room for the new definition.** -/
def Call.Overflows (c : Call) (data : Bytes) : Prop :=
  ∃ pre e post, Holds data (pre ++ e :: post) ∧
    c.Removes data (strings pre).length ((strings pre).length + e.length) ∧
    c.argv.values.list ≠ [] ∧
    data.length < (strings (pre ++ post)).length + defSize c.argv.name c.argv.values.list

section Step

variable {crc : Bytes → UInt32} {c : Call} {g g' : Globals} {es : List Bytes} {rc : Int}
  {env nxt : Nat} {data : Bytes}

/-- A call that removes a string goes on with the area that is left. -/
theorem Call.Removes.doSetenv_eq (h : c.Removes g.env.data env nxt)
    (hdel : deleteEntry .stepBack g.env.data env nxt = .ok data) :
    doSetenv c.board crc c.flag c.argv g = define c.board crc c.argv
      ((switchBaudrate c.board c.argv { g with envId := g.envId + 1 }).setData data) := by
  obtain ⟨val, hsearch, hprot⟩ := h.found
  rw [doSetenv, if_neg h.name]
  simp only [hsearch, ok_bind, h.console, hprot, h.baudrate, Bool.false_eq_true, if_false,
    switchBaudrate_env, hdel]

/-- A call that returns has left the environment alone, or gone to the definition
without a removal, or removed a string first. -/
theorem doSetenv_cases (h : doSetenv c.board crc c.flag c.argv g = .ok (rc, g')) :
    g'.env = g.env ∨
      ((∀ env nxt, ¬ c.Removes g.env.data env nxt) ∧
        define c.board crc c.argv { g with envId := g.envId + 1 } = .ok (rc, g')) ∨
      ∃ env nxt data, c.Removes g.env.data env nxt ∧
        deleteEntry .stepBack g.env.data env nxt = .ok data := by
  by_cases h61 : 61 ∈ c.argv.name
  · rw [doSetenv, if_pos h61] at h
    cases h
    exact .inl rfl
  rw [doSetenv, if_neg h61] at h
  obtain ⟨old, hsearch, h⟩ := bind_eq_ok.mp h
  cases hcon : redirectConsole c.board c.argv with
  | some out =>
    obtain ⟨r, text⟩ := out
    rw [hcon] at h
    cases h
    exact .inl (by cases text <;> rfl)
  | none =>
    rw [hcon] at h
    have hmissing : (∀ i j v, old ≠ .found i j v) → ∀ i j, ¬ c.Removes g.env.data i j := by
      rintro hold i j ⟨-, -, ⟨v, hv, -⟩, -⟩
      rw [hsearch] at hv
      exact hold i j v (Except.ok.inj hv)
    cases old with
    | missing => exact .inr (.inl ⟨hmissing (by simp), h⟩)
    | unterminated => exact .inr (.inl ⟨hmissing (by simp), h⟩)
    | found env nxt val =>
      obtain ⟨p, hprot, h⟩ := bind_eq_ok.mp h
      cases p with
      | true =>
        cases h
        exact .inl rfl
      | false =>
        by_cases hbad : badBaudrate c.board c.argv = true
        · simp only [hbad, if_true, Bool.false_eq_true, if_false] at h
          cases h
          exact .inl rfl
        · simp only [hbad, Bool.false_eq_true, if_false, switchBaudrate_env] at h
          obtain ⟨data, hdel, -⟩ := bind_eq_ok.mp h
          exact .inr (.inr ⟨env, nxt, data,
            ⟨h61, hcon, ⟨val, hsearch, hprot⟩, by simpa using hbad⟩, hdel⟩)

theorem define_frame {b : Board} {a : Argv} (h : define b crc a g = .ok (rc, g')) :
    g'.env.flags = g.env.flags ∧ g'.env.data.length = g.env.data.length := by
  rw [define] at h
  split at h
  · obtain ⟨r, hr, h⟩ := bind_eq_ok.mp h
    cases r with
    | none =>
      cases h
      exact ⟨rfl, rfl⟩
    | some data =>
      cases h
      simpa using length_of_appendDef hr
  · cases h
    exact ⟨rfl, rfl⟩

/-- A call leaves the flag byte and the size of the area alone. -/
theorem doSetenv_frame (h : doSetenv c.board crc c.flag c.argv g = .ok (rc, g')) :
    g'.env.flags = g.env.flags ∧ g'.env.data.length = g.env.data.length := by
  rcases doSetenv_cases h with henv | ⟨-, hdefine⟩ | ⟨env, nxt, data, hrem, hdel⟩
  · rw [henv]
    exact ⟨rfl, rfl⟩
  · have hframe := define_frame hdefine
    exact hframe
  · rw [hrem.doSetenv_eq hdel] at h
    obtain ⟨hflags, hlen⟩ := define_frame h
    rw [hflags, hlen]
    simpa using length_of_deleteEntry hdel

/-- An error from the definition leaves the environment alone. -/
theorem define_error {b : Board} {a : Argv} (h : define b crc a g = .ok (1, g')) :
    g'.env = g.env := by
  rw [define] at h
  split at h
  · obtain ⟨r, -, h⟩ := bind_eq_ok.mp h
    cases r <;> cases h
    rfl
  · cases h

/-- The end of a call that does not overflow has a fresh checksum or the old area. -/
theorem Outcome.fresh_or_error {a : Argv} {kept : List Bytes}
    (h : Outcome crc a g kept rc g') : g'.env.crc = crc g'.env.data ∨
      rc = 1 ∧ a.values.list ≠ [] ∧
        g.env.data.length < (strings kept).length + defSize a.name a.values.list := by
  cases h with
  | removed _ _ _ hcrc => exact .inl hcrc
  | stored _ _ _ hcrc => exact .inl hcrc
  | overflow hval _ _ _ hfull _ => exact .inr ⟨rfl, hval, hfull⟩

theorem Outcome.exists_holds {a : Argv} {kept : List Bytes} (h : Outcome crc a g kept rc g') :
    ∃ es, Holds g'.env.data es := by
  cases h with
  | removed _ hm _ _ => exact ⟨_, hm⟩
  | stored _ hm _ _ => exact ⟨_, hm⟩
  | overflow _ hm _ _ _ _ => exact ⟨_, hm⟩

/-- The state after an overflow: the old checksum over another area. -/
theorem Call.Overflows.stale (ho : c.Overflows g.env.data)
    (h : doSetenv c.board crc c.flag c.argv g = .ok (rc, g')) :
    g'.env.crc = g.env.crc ∧ g'.env.data ≠ g.env.data := by
  obtain ⟨pre, e, post, hm, hrem, hval, hfull⟩ := ho
  obtain ⟨data, hdel, hm', hlen⟩ := deleteEntry_holds (r := .stepBack) hm rfl rfl
  rw [hrem.doSetenv_eq hdel] at h
  cases Outcome.of_define (by simpa using hm') h with
  | removed hno => exact absurd hno hval
  | stored _ hstored hl _ =>
    -- the new list would need more bytes than the area has
    have hfits := Argv.fits_of_holds hstored
    simp only [Globals.setData_env] at hl
    omega
  | overflow =>
    have henv := define_error h
    rw [henv]
    exact ⟨by simp, by simpa using hm.ne_of_removed hm'⟩

/-- **One call.**  The area holds a list again; and the checksum is lost exactly when
the call overflows. -/
theorem setenv_step_crc (hm : Holds g.env.data es) (hcrc : g.env.crc = crc g.env.data)
    (h : doSetenv c.board crc c.flag c.argv g = .ok (rc, g'))
    (hsep : crc g'.env.data = crc g.env.data → g'.env.data = g.env.data) :
    (∃ es', Holds g'.env.data es') ∧
      (g'.env.crc = crc g'.env.data ↔ ¬ c.Overflows g.env.data) := by
  have hlost : c.Overflows g.env.data → g'.env.crc ≠ crc g'.env.data := by
    intro ho hc
    obtain ⟨hold, hne⟩ := ho.stale h
    exact hne (hsep (by rw [← hc, hold, hcrc]))
  rcases doSetenv_cases h with henv | ⟨hno, hdefine⟩ | ⟨env, nxt, data, hrem, hdel⟩
  · rw [henv] at hlost ⊢
    exact ⟨⟨es, hm⟩, iff_of_true hcrc fun ho => hlost ho hcrc⟩
  · have hout := Outcome.of_define (g := { g with envId := g.envId + 1 }) hm hdefine
    refine ⟨hout.exists_holds, iff_of_true ?_ ?_⟩
    · rcases hout.fresh_or_error with hfresh | ⟨rfl, -⟩
      · exact hfresh
      · rw [define_error hdefine]
        exact hcrc
    · rintro ⟨pre, e, post, -, hrem, -⟩
      exact hno _ _ hrem
  · obtain ⟨val, hsearch, -⟩ := hrem.found
    obtain ⟨pre, e, post, rfl, rfl, rfl⟩ := search_found hm (by simp) hsearch
    obtain ⟨data₁, hdel₁, hm', hlen⟩ := deleteEntry_holds (r := .stepBack) hm rfl rfl
    obtain rfl : data₁ = data := by simpa [hdel] using hdel₁.symm
    rw [hrem.doSetenv_eq hdel] at h
    have hout := Outcome.of_define (by simpa using hm') h
    refine ⟨hout.exists_holds, fun hc ho => hlost ho hc, fun hno => ?_⟩
    rcases hout.fresh_or_error with hfresh | ⟨-, hval, hfull⟩
    · exact hfresh
    · exact absurd ⟨pre, e, post, hm, hrem, hval, by simpa [hlen] using hfull⟩ hno

end Step

/-- A state whose environment would be accepted at the next boot. -/
def Saveable (crc : Bytes → UInt32) (g : Globals) : Prop :=
  g.env.crc = crc g.env.data ∧ envInit crc g.env = ⟨.slot .first, 1⟩

theorem saveable_iff {crc : Bytes → UInt32} {g : Globals} :
    Saveable crc g ↔ g.env.crc = crc g.env.data := by
  refine ⟨fun h => h.1, fun h => ⟨h, ?_⟩⟩
  rw [envInit, if_pos (Env.crcOk_iff.mpr h)]

/-- **The checksum over a run.**  From a list whose checksum is right, the checksum is
right after every call, and the state acceptable at the next boot, if and only if no
call of the run overflows.  The checksum may be any function that tells the areas of
the run apart. -/
theorem setenv_run_crc (crc : Bytes → UInt32) (g : Globals) (es : List Bytes) (cs : List Call)
    (gs : List Globals) (hm : Holds g.env.data es) (hcrc : g.env.crc = crc g.env.data)
    (hrun : runCalls crc g cs = .ok gs)
    (hsep : ∀ x ∈ g :: gs, ∀ y ∈ g :: gs, crc x.env.data = crc y.env.data →
      x.env.data = y.env.data) :
    (∀ s ∈ gs, Saveable crc s) ↔ ∀ p ∈ (g :: gs).zip cs, ¬ p.2.Overflows p.1.env.data := by
  simp only [saveable_iff]
  induction cs generalizing g es gs with
  | nil =>
    cases hrun
    simp
  | cons c cs ih =>
    obtain ⟨⟨rc, g₁⟩, hret, hrun⟩ := bind_eq_ok.mp hrun
    obtain ⟨gs₁, htrace, hgs⟩ := bind_eq_ok.mp hrun
    cases hgs
    obtain ⟨⟨es₁, hm₁⟩, hstep⟩ := setenv_step_crc hm hcrc hret
      (hsep g₁ (by simp) g (by simp))
    have htail : g₁.env.crc = crc g₁.env.data →
        ((∀ s ∈ gs₁, s.env.crc = crc s.env.data) ↔
          ∀ p ∈ (g₁ :: gs₁).zip cs, ¬ p.2.Overflows p.1.env.data) := fun hcrc₁ =>
      ih g₁ es₁ gs₁ hm₁ hcrc₁ htrace fun x hx y hy =>
        hsep x (List.mem_cons_of_mem _ hx) y (List.mem_cons_of_mem _ hy)
    rw [List.zip_cons_cons, List.forall_mem_cons, List.forall_mem_cons]
    constructor
    · rintro ⟨h₁, hrest⟩
      exact ⟨hstep.mp h₁, (htail h₁).mp hrest⟩
    · rintro ⟨h₁, hrest⟩
      exact ⟨hstep.mpr h₁, (htail (hstep.mpr h₁)).mpr hrest⟩

/-- `setenv ip 10 20` on the small area. -/
def setIpCall : Call := ⟨plainBoard, 0, setIp⟩

/-- The state after it. -/
def afterSetIp : Globals :=
  let area := block [str "i=7", str "ip=10 20"] ++ [5, 5]
  ⟨⟨crc32 area, 0, area⟩, 2, 115200, 0, 0, [], []⟩

theorem setenv_run_crc_setIp :
    runCalls crc32 (globalsOf ⟨crc32 smallArea, 0, smallArea⟩) [setIpCall] = .ok [afterSetIp] ∧
      ((∀ s ∈ [afterSetIp], Saveable crc32 s) ↔
        ∀ p ∈ [globalsOf ⟨crc32 smallArea, 0, smallArea⟩, afterSetIp].zip [setIpCall],
          ¬ p.2.Overflows p.1.env.data) := by
  have hrun : runCalls crc32 (globalsOf ⟨crc32 smallArea, 0, smallArea⟩) [setIpCall] =
      .ok [afterSetIp] := by decide +kernel
  exact ⟨hrun, setenv_run_crc crc32 _ _ [setIpCall] [afterSetIp] holds_smallArea rfl hrun
    (by decide +kernel)⟩

/-- `a=1` in eight bytes. -/
def tightArea : Bytes := block [str "a=1"] ++ [5, 5, 5]

/-- `setenv a 12345`, which needs nine bytes. -/
def setLong : Argv where
  name := str "a"
  behind := []
  values := .words (str "12345") []
  name_str := by decide
  values_str := by decide
  size_lt := by decide

/-- The state after it: the definition is gone and the checksum is that of before. -/
def afterSetLong : Globals :=
  ⟨⟨crc32 tightArea, 0, [0, 0, 49, 0, 0, 5, 5, 5]⟩, 2, 115200, 0, 0, [],
    [str "## Error: environment overflow, \"a\" deleted\n"]⟩

/-- **A checksum that is lost.**  The call returns, and the state it leaves would be
refused at the next boot. -/
theorem setenv_overflow_loses_crc :
    Holds tightArea [str "a=1"] ∧
      runCalls crc32 (globalsOf ⟨crc32 tightArea, 0, tightArea⟩) [⟨plainBoard, 0, setLong⟩] =
        .ok [afterSetLong] ∧
      (∀ x ∈ [globalsOf ⟨crc32 tightArea, 0, tightArea⟩, afterSetLong],
        ∀ y ∈ [globalsOf ⟨crc32 tightArea, 0, tightArea⟩, afterSetLong],
          crc32 x.env.data = crc32 y.env.data → x.env.data = y.env.data) ∧
      ¬ (∀ s ∈ [afterSetLong], Saveable crc32 s) ∧
      envInit crc32 afterSetLong.env = ⟨.builtin, 0⟩ := by
  refine ⟨⟨by simp only [IsEntry]; decide, _, rfl⟩, by decide +kernel, by decide +kernel, ?_,
    by decide +kernel⟩
  simp only [saveable_iff]
  decide +kernel

end UBoot.Common
