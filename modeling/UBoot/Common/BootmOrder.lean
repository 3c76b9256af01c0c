import UBoot.Common.Bootm
import Mathlib.Tactic.Common

/-!
# The order of the stages of `bootm`

A run is a list of calls, and its history the stages that were executed, with what they returned,
the last one first.  The bit of a stage is compared with the sum of the bits of the stages executed
since the last `start`, and that sum is less than twice the largest of them (`Tracks`).

* `ordered_step`: the stages since a `start` come in order, each of them once.
* `doBootmSubcommand_order`: behind a `start` that has succeeded a stage that comes next is executed,
  and for one that does not come next a message is printed and `images` is as before.
-/

namespace UBoot.Common.Bootm

open UBoot.Lib UBoot.LibGeneric

variable {L : Type} {b : Board L}

/-! ## What one call does -/

/-- An attempt that leaves `state` at 0. -/
def Unstarted (x : Attempt L (Images L)) : Prop :=
  match x with
  | .ok images => images.state = 0
  | .error e => e.1.state = 0

theorem unstarted_bind {α : Type} {images : Images L} {text : String} {o : Option α}
    {f : α → Attempt L (Images L)} (h : images.state = 0) (hf : ∀ x, Unstarted (f x)) :
    Unstarted (orFail images text o >>= f) := by
  cases o with
  | none => exact h
  | some x => exact hf x

theorem Unstarted.bind {x : Attempt L (Images L)} {f : Images L → Attempt L (Images L)}
    (h : Unstarted x) (hf : ∀ images, images.state = 0 → Unstarted (f images)) :
    Unstarted (x >>= f) := by
  cases x with
  | error e => exact h
  | ok images => exact hf images h

theorem unstarted_getParameters (cfg : Config) {images : Images L} (h : images.state = 0)
    (format : ImageFormat) : Unstarted (getParameters cfg images format) := by
  cases format with
  | legacy type comp os imageEnd load => exact h
  | fit type comp os fitEnd load =>
    rw [getParameters]
    split
    · exact unstarted_bind h fun _ => unstarted_bind h fun _ => unstarted_bind h fun _ =>
        unstarted_bind h fun _ => h
    · exact h
  | unknown => exact h

theorem unstarted_findEntry (cfg : Config) (a : StartAnswers L) {images : Images L}
    (h : images.state = 0) : Unstarted (findEntry cfg a images) := by
  rw [findEntry]
  split_ifs
  · exact h
  · exact unstarted_bind h fun _ => h
  · exact h

theorem unstarted_findRamdisk (cfg : Config) (a : StartAnswers L) {images : Images L}
    (h : images.state = 0) : Unstarted (findRamdisk cfg a images) := by
  rw [findRamdisk]
  split
  · refine unstarted_bind h fun _ => ?_
    dsimp only
    split
    · exact unstarted_bind h fun _ => h
    · exact h
  · exact h

theorem unstarted_startImages (cfg : Config) (a : StartAnswers L) :
    Unstarted (startImages cfg a (gotKernel a)) := by
  have hzero : (gotKernel a).state = 0 := rfl
  rw [startImages]
  split
  · exact hzero
  · exact (unstarted_getParameters cfg hzero a.format).bind fun _ h =>
      (unstarted_findEntry cfg a h).bind fun _ h => unstarted_findRamdisk cfg a h

/-- `start` is always executed, and leaves its own bit if it succeeds and none if it fails. -/
theorem bootmStart_spec (cfg : Config) (a : StartAnswers L) :
    (bootmStart cfg a).ran = some .start ∧
      (((bootmStart cfg a).ret = some 0 ∧ (bootmStart cfg a).images.state = 1) ∨
        ((bootmStart cfg a).ret = some 1 ∧ (bootmStart cfg a).images.state = 0)) := by
  have hun := unstarted_startImages cfg a
  rw [bootmStart]
  cases hx : startImages cfg a (gotKernel a) with
  | error e =>
    rw [hx] at hun
    exact ⟨rfl, Or.inr ⟨rfl, hun⟩⟩
  | ok images => exact ⟨rfl, Or.inl ⟨rfl, rfl⟩⟩

theorem bootFn_state (b : Board L) (images : Images L) (s : BootmState) :
    (bootFn b images s).2.state = images.state := by
  rw [bootFn]
  cases b.bootOs images.os.os with
  | none => rfl
  | some f => rfl

/-- A stage does not touch `state`. -/
theorem runStage_state (b : Board L) (a : StageAnswers L) (images : Images L) (s : BootmState) :
    (runStage b a images s).2.1.state = images.state := by
  have hboot := bootFn_state b images s
  cases s <;> simp only [runStage]
  case loados => split <;> rfl
  case fdt => split <;> rfl
  all_goals exact hboot

/-! ## Runs -/

/-- A stage that was executed, with the value it returned, if it did return. -/
structure Event where
  state : BootmState
  ret : Option Int
  deriving DecidableEq, Repr

/-- `images`, whether every call has returned, and what was executed so far, the last stage first. -/
structure State (L : Type) where
  images : Images L
  returned : Bool
  history : List Event

/-- One call; there is none behind a call that has not returned. -/
def step (b : Board L) (s : State L) (call : Call L) : State L :=
  if s.returned then
    let r := doBootmSubcommand b call s.images
    ⟨r.images, r.ret.isSome, match r.ran with
      | some state => ⟨state, r.ret⟩ :: s.history
      | none => s.history⟩
  else s

/-- The calls from the start of the program on, where `images` is all zero. -/
def run (b : Board L) (lmb : L) (calls : List (Call L)) : State L :=
  calls.foldl (step b) ⟨Images.zero lmb, true, []⟩

/-- There is a `start`, and the last one has succeeded. -/
def Started (history : List Event) : Prop :=
  history.find? (fun e => e.state = .start) = some ⟨.start, some 0⟩

instance (history : List Event) : Decidable (Started history) := inferInstanceAs (Decidable (_ = _))

/-- What was executed since the last `start`. -/
def sinceStart (history : List Event) : List Event :=
  history.takeWhile fun e => e.state ≠ .start

/-- Since the last `start` only earlier stages have been executed. -/
def ComesNext (history : List Event) (s : BootmState) : Prop :=
  ∀ e ∈ sinceStart history, e.state.bit < s.bit

instance (history : List Event) (s : BootmState) : Decidable (ComesNext history s) :=
  inferInstanceAs (Decidable (∀ e ∈ _, _))

/-- Every stage has come after the others since the `start` before it. -/
def Ordered (history : List Event) : Prop :=
  ∀ later e earlier, history = later ++ e :: earlier → e.state ≠ .start →
    ComesNext earlier e.state

/-- The comparison with `images.state` finds out what was executed since the last `start`. -/
def Tracks (s : State L) : Prop :=
  ∀ state, state ≠ .start → (state.bit ≤ s.images.state ↔ ¬ ComesNext s.history state)

theorem comesNext_of_start (e : Event) (h : e.state = .start) (history : List Event)
    (s : BootmState) : ComesNext (e :: history) s := by
  rw [ComesNext, sinceStart, List.takeWhile_cons_of_neg (by simp [h])]
  exact fun _ he => absurd he List.not_mem_nil

theorem comesNext_cons {e : Event} (h : e.state ≠ .start) {history : List Event} {s : BootmState} :
    ComesNext (e :: history) s ↔ e.state.bit < s.bit ∧ ComesNext history s := by
  rw [ComesNext, sinceStart, List.takeWhile_cons_of_pos (by simpa using h)]
  exact List.forall_mem_cons

theorem exists_bit_eq (s : BootmState) : ∃ i, s.bit = 2 ^ i := by
  cases s
  exacts [⟨0, rfl⟩, ⟨1, rfl⟩, ⟨2, rfl⟩, ⟨3, rfl⟩, ⟨4, rfl⟩, ⟨5, rfl⟩, ⟨6, rfl⟩, ⟨7, rfl⟩]

/-- The sum of smaller bits and the bit of a stage lies between this bit and the next one. -/
theorem bit_le_or_iff {n : Nat} {s : BootmState} (h : n < s.bit) (t : BootmState) :
    t.bit ≤ n ||| s.bit ↔ t.bit ≤ s.bit := by
  obtain ⟨i, hi⟩ := exists_bit_eq s
  obtain ⟨j, hj⟩ := exists_bit_eq t
  rw [hi] at h ⊢
  rw [hj, Nat.or_two_pow_eq_add_of_lt h]
  rcases Nat.lt_or_ge i j with hlt | hge
  · have hpow := Nat.pow_le_pow_right (n := 2) (by omega) (Nat.succ_le_of_lt hlt)
    rw [Nat.pow_succ] at hpow
    omega
  · have hpow := Nat.pow_le_pow_right (n := 2) (by omega) hge
    omega

/-- A call either starts again, or executes the stage that comes next, or changes nothing. -/
theorem doBootmSubcommand_cases (b : Board L) (call : Call L) {s : State L} (htracks : Tracks s) :
    (findCmdTbl call.argv1 (cmdBootmSub b.config) = some .start ∧
      doBootmSubcommand b call s.images = bootmStart b.config call.start) ∨
    (∃ state, state ≠ .start ∧ findCmdTbl call.argv1 (cmdBootmSub b.config) = some state ∧
      ComesNext s.history state ∧ s.images.state < state.bit ∧
      (doBootmSubcommand b call s.images).ran = some state ∧
      (doBootmSubcommand b call s.images).images.state = s.images.state ||| state.bit) ∨
    (∃ state, state ≠ .start ∧ findCmdTbl call.argv1 (cmdBootmSub b.config) = some state ∧
      ¬ ComesNext s.history state ∧
      doBootmSubcommand b call s.images =
        ⟨some 1, s.images, [.puts "Trying to execute a command out of order\n", .cmdUsage], none⟩) ∨
    (findCmdTbl call.argv1 (cmdBootmSub b.config) = none ∧
      doBootmSubcommand b call s.images = ⟨some 1, s.images, [.cmdUsage], none⟩) := by
  rw [doBootmSubcommand]
  cases hfind : findCmdTbl call.argv1 (cmdBootmSub b.config) with
  | none => exact Or.inr (Or.inr (Or.inr ⟨rfl, rfl⟩))
  | some state =>
    by_cases hstart : state = .start
    · subst hstart
      exact Or.inl ⟨rfl, rfl⟩
    · right
      have hiff := htracks state hstart
      by_cases hle : state.bit ≤ s.images.state
      · refine Or.inr (Or.inl ⟨state, hstart, rfl, hiff.mp hle, ?_⟩)
        cases state
        case start => exact absurd rfl hstart
        all_goals exact if_pos hle
      · refine Or.inl ⟨state, hstart, rfl, not_not.mp fun hnot => hle (hiff.mpr hnot),
          Nat.not_le.mp hle, ?_⟩
        have hstate := runStage_state b call.stage
          { s.images with state := s.images.state ||| state.bit } state
        cases state
        case start => exact absurd rfl hstart
        all_goals
          dsimp only
          rw [if_neg hle]
          exact ⟨rfl, hstate⟩

theorem one_lt_bit {s : BootmState} (h : s ≠ .start) : 1 < s.bit := by
  cases s
  case start => exact absurd rfl h
  all_goals decide

theorem tracks_zero (lmb : L) : Tracks (⟨Images.zero lmb, true, []⟩ : State L) := by
  intro state hstart
  have hzero : (⟨Images.zero lmb, true, []⟩ : State L).images.state = 0 := rfl
  have hnext : ComesNext [] state := fun _ he => absurd he List.not_mem_nil
  have hone := one_lt_bit hstart
  constructor
  · intro hle
    omega
  · exact fun hnot => absurd hnext hnot

theorem step_returned {s : State L} (h : s.returned = true) (call : Call L) :
    step b s call = ⟨(doBootmSubcommand b call s.images).images,
      (doBootmSubcommand b call s.images).ret.isSome,
      match (doBootmSubcommand b call s.images).ran with
      | some state => ⟨state, (doBootmSubcommand b call s.images).ret⟩ :: s.history
      | none => s.history⟩ := if_pos h

theorem step_of_not_returned {s : State L} (h : ¬ s.returned = true) (call : Call L) :
    step b s call = s := if_neg h

theorem tracks_step {s : State L} (h : Tracks s) (call : Call L) : Tracks (step b s call) := by
  by_cases hreturned : s.returned = true
  swap
  · rw [step_of_not_returned hreturned]
    exact h
  intro t ht
  rw [step_returned hreturned]
  rcases doBootmSubcommand_cases b call h with ⟨-, hr⟩ |
    ⟨state, hstart, -, hnext, hlt, hran, himages⟩ | ⟨state, -, -, -, hr⟩ | ⟨-, hr⟩
  · obtain ⟨hran, hret⟩ := bootmStart_spec b.config call.start
    simp only [hr, hran]
    have hone := one_lt_bit ht
    have hnext := comesNext_of_start ⟨.start, (bootmStart b.config call.start).ret⟩ rfl s.history t
    constructor
    · intro hle
      rcases hret with ⟨-, hstate⟩ | ⟨-, hstate⟩ <;> omega
    · exact fun hnot => absurd hnext hnot
  · simp only [hran, himages]
    rw [bit_le_or_iff hlt, comesNext_cons hstart]
    dsimp only
    constructor
    · intro hle hnot
      omega
    · intro hnot
      by_contra hgt
      refine hnot ⟨by omega, fun e he => ?_⟩
      have := hnext e he
      omega
  · simp only [hr]
    exact h t ht
  · simp only [hr]
    exact h t ht

theorem ordered_cons {e : Event} {history : List Event} (h : Ordered history)
    (he : e.state ≠ .start → ComesNext history e.state) : Ordered (e :: history) := by
  intro later e' earlier heq hstart
  cases later with
  | nil =>
    obtain ⟨rfl, rfl⟩ := List.cons.inj heq
    exact he hstart
  | cons first later =>
    obtain ⟨-, rfl⟩ := List.cons.inj heq
    exact h later e' earlier rfl hstart

theorem ordered_step {s : State L} (htracks : Tracks s) (h : Ordered s.history) (call : Call L) :
    Ordered (step b s call).history := by
  by_cases hreturned : s.returned = true
  swap
  · rw [step_of_not_returned hreturned]
    exact h
  rw [step_returned hreturned]
  rcases doBootmSubcommand_cases b call htracks with ⟨-, hr⟩ |
    ⟨state, hstart, -, hnext, -, hran, -⟩ | ⟨state, -, -, -, hr⟩ | ⟨-, hr⟩
  · simp only [hr, (bootmStart_spec b.config call.start).1]
    exact ordered_cons h fun hne => absurd rfl hne
  · simp only [hran]
    exact ordered_cons h fun _ => hnext
  · simp only [hr]
    exact h
  · simp only [hr]
    exact h

theorem run_spec (b : Board L) (lmb : L) (calls : List (Call L)) :
    Tracks (run b lmb calls) ∧ Ordered (run b lmb calls).history := by
  rw [run]
  have hordered : Ordered (⟨Images.zero lmb, true, []⟩ : State L).history := by
    intro later e earlier heq
    cases later <;> cases heq
  generalize hs : (⟨Images.zero lmb, true, []⟩ : State L) = s at hordered ⊢
  have htracks : Tracks s := hs ▸ tracks_zero lmb
  clear hs
  induction calls generalizing s with
  | nil => exact ⟨htracks, hordered⟩
  | cons call calls ih =>
    exact ih (step b s call) (ordered_step htracks hordered call) (tracks_step htracks call)

/-- In every run the stages come in order, each of them at most once since the last `start`.  If that
one has succeeded, a subcommand whose stage comes next is executed; one whose stage does not come
next prints that it is out of order and leaves `images` as it is. -/
theorem doBootmSubcommand_order (b : Board L) (lmb : L) (calls : List (Call L)) :
    Ordered (run b lmb calls).history ∧
      ∀ call state, findCmdTbl call.argv1 (cmdBootmSub b.config) = some state → state ≠ .start →
        (run b lmb calls).returned = true →
        (Started (run b lmb calls).history → ComesNext (run b lmb calls).history state →
          ∃ ret, (step b (run b lmb calls) call).history =
            ⟨state, ret⟩ :: (run b lmb calls).history) ∧
        (¬ ComesNext (run b lmb calls).history state →
          doBootmSubcommand b call (run b lmb calls).images =
            ⟨some 1, (run b lmb calls).images,
              [.puts "Trying to execute a command out of order\n", .cmdUsage], none⟩) := by
  obtain ⟨htracks, hordered⟩ := run_spec b lmb calls
  refine ⟨hordered, fun call state hfind hstart hreturned => ?_⟩
  rcases doBootmSubcommand_cases b call htracks with ⟨hfind', -⟩ |
    ⟨state', -, hfind', hnext, -, hran, -⟩ | ⟨state', -, hfind', hnext, hr⟩ | ⟨hfind', -⟩
  · exact absurd (Option.some.inj (hfind.symm.trans hfind')) hstart
  · obtain rfl := Option.some.inj (hfind.symm.trans hfind')
    refine ⟨fun _ _ => ⟨(doBootmSubcommand b call (run b lmb calls).images).ret, ?_⟩,
      fun hnot => absurd hnext hnot⟩
    rw [step_returned hreturned]
    simp only [hran]
  · obtain rfl := Option.some.inj (hfind.symm.trans hfind')
    exact ⟨fun _ h => absurd h hnext, fun _ => hr⟩
  · cases hfind.symm.trans hfind'

/-- The kernel was loaded before it is started. -/
def Loaded (history : List Event) : Prop :=
  ∀ later e earlier, history = later ++ e :: earlier → e.state = .osGo →
    ⟨.loados, some 0⟩ ∈ sinceStart earlier

/-- A board whose operating system accepts every stage. -/
def plainBoard : Board Unit where
  config := ⟨false, true, true, true, []⟩
  bootOs _ := some fun _ fields => (0, fields)
  lmbReserve lmb _ _ := lmb

/-- A call with an image for another operating system, where every function succeeds. -/
def plainCall (argv1 : String) : Call Unit where
  argv1 := str argv1
  start := ⟨1, (), 0x1000, 0x1040, 0x100, true, false, .legacy 2 0 17 0x1140 0x8000, 0x8000, none,
    none, none⟩
  stage := ⟨none, fun fields => (0, fields.initrdStart, fields.initrdEnd, ()),
    fun fields => (0, fields.ftAddr, fields.ftLen, ())⟩

/-- Behind `start` and `loados`, `go` is executed, and `loados` is not executed again. -/
theorem doBootmSubcommand_order_twice :
    (∃ ret, (step plainBoard (run plainBoard () [plainCall "start", plainCall "loados"])
        (plainCall "go")).history =
      ⟨.osGo, ret⟩ :: (run plainBoard () [plainCall "start", plainCall "loados"]).history) ∧
    doBootmSubcommand plainBoard (plainCall "loados")
        (run plainBoard () [plainCall "start", plainCall "loados"]).images =
      ⟨some 1, (run plainBoard () [plainCall "start", plainCall "loados"]).images,
        [.puts "Trying to execute a command out of order\n", .cmdUsage], none⟩ :=
  ⟨((doBootmSubcommand_order plainBoard () [plainCall "start", plainCall "loados"]).2
      (plainCall "go") .osGo (by decide) (by decide) (by decide)).1 (by decide) (by decide),
    ((doBootmSubcommand_order plainBoard () [plainCall "start", plainCall "loados"]).2
      (plainCall "loados") .loados (by decide) (by decide) (by decide)).2 (by decide)⟩

/-- Sub-commands may be left out, and so `loados` may. -/
theorem not_loaded : ¬ ∀ calls, Loaded (run plainBoard () calls).history := by
  intro h
  have hrun : (run plainBoard () [plainCall "start", plainCall "go"]).history =
      [⟨.osGo, some 0⟩, ⟨.start, some 0⟩] := by decide
  have hmem := h [plainCall "start", plainCall "go"] [] ⟨.osGo, some 0⟩ [⟨.start, some 0⟩] hrun rfl
  exact absurd hmem (by decide)

end UBoot.Common.Bootm
