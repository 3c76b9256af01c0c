import UBoot.Lib.Words

/-!
# The arguments of a command

`parse_line` of `common/main.c` cuts a line at its blanks, in place, and `make_argv` of
`common/command.c` does the same for the completion of a line.  The array `argv` is `none` where it
holds `NULL`, and a pointer into the line is an index.

* `splitArgs_cut`: the arguments are the words of the line, as many of them as there is room for.
* `parseLine_right_iff`: `argv[argc]` is `NULL` unless something follows the last argument that
  there is room for, be it a blank.
-/

namespace UBoot.Common

open UBoot.Lib

/-- `(c == ' ') || (c == '\t')` -/
def isBlank (c : UInt8) : Bool := c = 0x20 || c = 0x09

/-- `c && (c != ' ') && (c != '\t')` -/
def isArg (c : UInt8) : Bool := c ≠ 0 && !isBlank c

/-- The array of the arguments. -/
abbrev ArgPtrs := List (Option Nat)

/-- `argv[i] = v` -/
def setArg (argv : ArgPtrs) (i : Nat) (v : Option Nat) : Exec ArgPtrs :=
  if i < argv.length then .ok (argv.set i v) else .error (.store i)

/-- `nargs`, `argv` and the line at the end of the loop, and whether the end of the line has been
seen there. -/
structure Split where
  nargs : Nat
  argv : ArgPtrs
  mem : Bytes
  ended : Bool
  deriving DecidableEq, Repr

/-- The loop, with room for `left` more arguments. -/
def splitArgs : Nat → Nat → Bytes → Nat → ArgPtrs → Exec Split
  | 0, nargs, m, _, argv => .ok ⟨nargs, argv, m, false⟩
  | left + 1, nargs, m, line, argv => do
    let line ← scanWhile m isBlank (m.length + 1) line
    if (← load m line) = 0 then return ⟨nargs, argv, m, true⟩
    let argv ← setArg argv nargs (some line)
    let line ← scanWhile m isArg (m.length + 1) line
    if (← load m line) = 0 then return ⟨nargs + 1, argv, m, true⟩
    splitArgs left (nargs + 1) (← store m line 0) (line + 1) argv

/-- `parse_line`: the number of arguments, `argv` and the line.  `NULL` is stored at the end of the
line only. -/
def parseLine (maxargs : Nat) (m : Bytes) (line : Nat) (argv : ArgPtrs) :
    Exec (Nat × ArgPtrs × Bytes) := do
  let s ← splitArgs maxargs 0 m line argv
  if s.ended then return (s.nargs, ← setArg s.argv s.nargs none, s.mem)
  return (s.nargs, s.argv, s.mem)

/-- `make_argv`, for an array of `argvsz` pointers. -/
def makeArgv (m : Bytes) (s argvsz : Nat) (argv : ArgPtrs) : Exec (Nat × ArgPtrs × Bytes) := do
  let s ← splitArgs (argvsz - 1) 0 m s argv
  return (s.nargs, ← setArg s.argv s.nargs none, s.mem)

/-! ## The loop -/

/-- What the loop leaves of a line: the first words of it are arguments, and the area is unchanged
outside of the line. -/
structure SplitOf (P line R : Bytes) (argv : ArgPtrs) (n left : Nat) (r : Split) : Prop where
  nargs : r.nargs = n + min (words isBlank line).length left
  length_argv : r.argv.length = argv.length
  before : ∀ j < n, r.argv[j]? = argv[j]?
  args : ∀ j word, j < left → (words isBlank line)[j]? = some word →
    ∃ a, r.argv[n + j]? = some (some a) ∧ PointsTo r.mem a word
  after : ∀ j, r.nargs ≤ j → r.argv[j]? = argv[j]?
  mem : ∃ line', r.mem = P ++ (line' ++ 0 :: R) ∧ line'.length = line.length
  ended : r.ended = true ↔ 0 < left ∧ behindWords isBlank left line = []

theorem isArg_of_word {c : UInt8} (h0 : c ≠ 0) (hc : isBlank c = false) : isArg c = true := by
  rw [isArg, hc, decide_eq_true h0]
  rfl

theorem isArg_of_blank {c : UInt8} (hc : isBlank c = true) : isArg c = false := by
  rw [isArg, hc, Bool.not_true, Bool.and_false]

theorem ne_zero_of_blank {c : UInt8} (hc : isBlank c = true) : c ≠ 0 := by
  rintro rfl
  cases hc

section Loop

variable {m P line R s w tail : Bytes} {c : UInt8} {argv : ArgPtrs} {nargs left : Nat}

/-- A turn of the loop that finds the end of the line. -/
theorem splitArgs_blank (hm : m = P ++ (line ++ 0 :: R)) (hs : ∀ c ∈ line, isBlank c = true) :
    splitArgs (left + 1) nargs m P.length argv = .ok ⟨nargs, argv, m, true⟩ := by
  have hcut : m = P ++ line ++ 0 :: R := by rw [hm, List.append_assoc]
  rw [splitArgs, scanWhile_of_eq hm rfl hs rfl (Nat.le_succ _), ok_bind,
    load_of_eq hcut List.length_append.symm, ok_bind, if_pos rfl]
  rfl

/-- A turn of the loop that finds an argument, up to what is behind it. -/
theorem splitArgs_word (left : Nat) (hm : m = P ++ (s ++ (w ++ c :: tail)))
    (hs : ∀ x ∈ s, isBlank x = true) (hw : ∀ x ∈ w, isBlank x = false) (hw0 : 0 ∉ w) (hne : w ≠ [])
    (hc : isArg c = false) (hnargs : nargs < argv.length) :
    splitArgs (left + 1) nargs m P.length argv =
      if c = 0 then .ok ⟨nargs + 1, argv.set nargs (some (P ++ s).length), m, true⟩
      else splitArgs left (nargs + 1) (P ++ (s ++ (w ++ 0 :: tail))) (P ++ (s ++ (w ++ [0]))).length
        (argv.set nargs (some (P ++ s).length)) := by
  obtain ⟨a, t, rfl⟩ := List.exists_cons_of_ne_nil hne
  have ha0 : a ≠ 0 := fun h => hw0 (h ▸ List.mem_cons_self)
  have hstart : m = P ++ (s ++ a :: (t ++ c :: tail)) := hm
  have hword : m = P ++ s ++ (a :: t ++ c :: tail) := by rw [hm, List.append_assoc]
  have hend : m = P ++ s ++ (a :: t) ++ c :: tail := by rw [hm]; simp only [List.append_assoc]
  have harg : ∀ x ∈ a :: t, isArg x = true :=
    fun x hx => isArg_of_word (fun h => hw0 (h ▸ hx)) (hw x hx)
  have hset : setArg argv nargs (some (P ++ s).length) =
      .ok (argv.set nargs (some (P ++ s).length)) := if_pos hnargs
  rw [splitArgs, scanWhile_of_eq hstart rfl hs (hw a List.mem_cons_self) (Nat.le_succ _), ok_bind,
    ← List.length_append, load_of_eq hword rfl, ok_bind, if_neg ha0, hset, ok_bind,
    scanWhile_of_eq hword rfl harg hc (Nat.le_succ _), ok_bind, ← List.length_append,
    load_of_eq hend rfl, ok_bind]
  by_cases hzero : c = 0
  · rw [if_pos hzero, if_pos hzero]
    rfl
  · rw [if_neg hzero, if_neg hzero, store_of_eq hend rfl, ok_bind]
    congr 1
    · simp only [List.append_assoc]
    · simp only [List.length_append, List.length_cons, List.length_nil]
      omega

theorem splitOf_zero : SplitOf P line R argv nargs 0
    ⟨nargs, argv, P ++ (line ++ 0 :: R), false⟩ where
  nargs := by rw [Nat.min_zero, Nat.add_zero]
  length_argv := rfl
  before _ _ := rfl
  args _ _ h := absurd h (Nat.not_lt_zero _)
  after _ _ := rfl
  mem := ⟨line, rfl, rfl⟩
  ended := by simp

theorem splitOf_blank (hs : ∀ c ∈ line, isBlank c = true) :
    SplitOf P line R argv nargs (left + 1) ⟨nargs, argv, P ++ (line ++ 0 :: R), true⟩ := by
  have hwords : words isBlank line = [] := by
    rw [← List.append_nil line, words_append_seps hs, words_nil]
  have hbehind : behindWords isBlank (left + 1) line = [] := by
    rw [← List.append_nil line, behindWords_append_seps hs, behindWords_nil]
  refine ⟨?_, rfl, fun _ _ => rfl, ?_, fun _ _ => rfl, ⟨line, rfl, rfl⟩, ?_⟩
  · rw [hwords]
    simp
  · intro j word _ hword
    rw [hwords] at hword
    cases hword
  · exact ⟨fun _ => ⟨Nat.succ_pos _, hbehind⟩, fun _ => rfl⟩

/-- The last argument of a line. -/
theorem splitOf_last (left : Nat) (hs : ∀ x ∈ s, isBlank x = true) (hw : ∀ x ∈ w, isBlank x = false)
    (hne : w ≠ []) (hnargs : nargs < argv.length) :
    SplitOf P (s ++ w) R argv nargs (left + 1) ⟨nargs + 1, argv.set nargs (some (P ++ s).length),
      P ++ (s ++ w ++ 0 :: R), true⟩ := by
  have hwords : words isBlank (s ++ w) = [w] := by
    rw [words_append_seps hs, words_of_none hw hne]
  have hbehind : behindWords isBlank (left + 1) (s ++ w) = [] := by
    rw [behindWords_append_seps hs, behindWords_of_none hw]
  refine ⟨?_, List.length_set, ?_, ?_, ?_, ⟨s ++ w, rfl, rfl⟩, ?_⟩
  · rw [hwords]
    simp
  · intro j hj
    rw [List.getElem?_set_ne (by omega)]
  · intro j word _ hword
    rw [hwords] at hword
    cases j with
    | zero =>
      cases hword
      refine ⟨(P ++ s).length, List.getElem?_set_self hnargs, P ++ s, R, ?_, rfl⟩
      simp only [List.append_assoc]
    | succ j => cases hword
  · intro j hj
    have hj : nargs + 1 ≤ j := hj
    rw [List.getElem?_set_ne (by omega)]
  · exact ⟨fun _ => ⟨Nat.succ_pos _, hbehind⟩, fun _ => rfl⟩

/-- An argument with a blank behind it, which is overwritten, and what the loop leaves of the rest
of the line. -/
theorem splitOf_cons {b : UInt8} {r : Split} (hs : ∀ x ∈ s, isBlank x = true)
    (hw : ∀ x ∈ w, isBlank x = false) (hne : w ≠ []) (hb : isBlank b = true)
    (hnargs : nargs < argv.length)
    (h : SplitOf (P ++ (s ++ (w ++ [0]))) tail R (argv.set nargs (some (P ++ s).length)) (nargs + 1)
      left r) :
    SplitOf P (s ++ (w ++ b :: tail)) R argv nargs (left + 1) r := by
  have hwords : words isBlank (s ++ (w ++ b :: tail)) = w :: words isBlank tail := by
    rw [words_append_seps hs, words_append_sep hw hne hb]
  have hbehind : behindWords isBlank (left + 1) (s ++ (w ++ b :: tail)) =
      behindWords isBlank left (b :: tail) := by
    rw [behindWords_append_seps hs, behindWords_append_sep hw hne hb]
  obtain ⟨tail', hmem, hlen⟩ := h.mem
  refine ⟨?_, h.length_argv.trans List.length_set, ?_, ?_, ?_, ⟨s ++ (w ++ 0 :: tail'), ?_, ?_⟩, ?_⟩
  · rw [h.nargs, hwords, List.length_cons]
    omega
  · intro j hj
    rw [h.before j (by omega), List.getElem?_set_ne (by omega)]
  · intro j word hj hword
    rw [hwords] at hword
    cases j with
    | zero =>
      cases hword
      refine ⟨(P ++ s).length, ?_, P ++ s, tail' ++ 0 :: R, ?_, rfl⟩
      · rw [Nat.add_zero, h.before nargs (Nat.lt_succ_self _), List.getElem?_set_self hnargs]
      · rw [hmem]
        simp only [List.append_assoc, List.singleton_append]
    | succ j =>
      obtain ⟨a, ha, hpoints⟩ := h.args j word (by omega) hword
      exact ⟨a, by rw [← ha]; congr 1; omega, hpoints⟩
  · intro j hj
    have hle := h.nargs
    rw [h.after j hj, List.getElem?_set_ne (by omega)]
  · rw [hmem]
    simp only [List.append_assoc, List.cons_append, List.nil_append]
  · simp only [List.length_append, List.length_cons, hlen]
  · rw [h.ended, hbehind]
    cases left with
    | zero => simp [behindWords]
    | succ left => rw [behindWords_cons_sep hb]; simp

/-- **The loop makes the words of the line the arguments**, as many as there is room for. -/
theorem splitArgs_cut : ∀ {left nargs : Nat} {P line : Bytes} {argv : ArgPtrs}, 0 ∉ line →
    nargs + left ≤ argv.length →
    ∃ r, splitArgs left nargs (P ++ (line ++ 0 :: R)) P.length argv = .ok r ∧
      SplitOf P line R argv nargs left r := by
  intro left
  induction left with
  | zero =>
    intro nargs P line argv _ _
    exact ⟨_, rfl, splitOf_zero⟩
  | succ left ih =>
    intro nargs P line argv h0 hroom
    rcases words_cases isBlank line with hs | ⟨s, w, rest, hs, hw, hne, rfl, hrest⟩
    · exact ⟨_, splitArgs_blank rfl hs, splitOf_blank hs⟩
    have hw0 : 0 ∉ w := fun h => h0 (List.mem_append_right _ (List.mem_append_left _ h))
    have hnargs : nargs < argv.length := by omega
    rcases hrest with rfl | ⟨b, tail, rfl, hb⟩
    · -- the line ends with the argument
      have hm : P ++ (s ++ (w ++ []) ++ 0 :: R) = P ++ (s ++ (w ++ 0 :: R)) := by simp
      have hturn := splitArgs_word left hm hs hw hw0 hne rfl hnargs
      rw [if_pos rfl] at hturn
      refine ⟨_, hturn, ?_⟩
      have hlast := splitOf_last (P := P) (R := R) left hs hw hne hnargs
      simpa using hlast
    · -- the blank behind the argument becomes its terminator
      have hm : P ++ (s ++ (w ++ b :: tail) ++ 0 :: R) =
          P ++ (s ++ (w ++ b :: (tail ++ 0 :: R))) := by simp
      have hturn := splitArgs_word left hm hs hw hw0 hne (isArg_of_blank hb) hnargs
      rw [if_neg (ne_zero_of_blank hb)] at hturn
      have hcut : P ++ (s ++ (w ++ 0 :: (tail ++ 0 :: R))) =
          P ++ (s ++ (w ++ [0])) ++ (tail ++ 0 :: R) := by simp
      rw [hcut] at hturn
      have htail0 : 0 ∉ tail := by
        intro h
        exact h0 (List.mem_append_right _ (List.mem_append_right _ (List.mem_cons_of_mem _ h)))
      have hset : nargs + 1 + left ≤ (argv.set nargs (some (P ++ s).length)).length := by
        rw [List.length_set]
        omega
      obtain ⟨r, hr, hsplit⟩ := ih (P := P ++ (s ++ (w ++ [0]))) htail0 hset
      exact ⟨r, hturn.trans hr, splitOf_cons hs hw hne hb hnargs hsplit⟩

end Loop

/-! ## `parse_line` -/

/-- What is wanted of `parse_line`: the arguments are the first words of the line, nothing outside
of the line is written, and the array ends with `NULL`. -/
structure Parsed (maxargs : Nat) (P line R : Bytes) (r : Nat × ArgPtrs × Bytes) : Prop where
  argc : r.1 = min (words isBlank line).length maxargs
  args : ∀ j word, j < r.1 → (words isBlank line)[j]? = some word →
    ∃ a, r.2.1[j]? = some (some a) ∧ PointsTo r.2.2 a word
  mem : ∃ line', r.2.2 = P ++ (line' ++ 0 :: R) ∧ line'.length = line.length
  null : r.2.1[r.1]? = some none

section ParseLine

variable {P line R : Bytes} {argv : ArgPtrs} {maxargs : Nat}

/-- `NULL` behind the arguments. -/
theorem parsed_of_splitOf {r : Split} (h : SplitOf P line R argv 0 maxargs r)
    (hroom : maxargs < argv.length) : setArg r.argv r.nargs none = .ok (r.argv.set r.nargs none) ∧
      Parsed maxargs P line R (r.nargs, r.argv.set r.nargs none, r.mem) := by
  have hnargs := h.nargs
  have hlen := h.length_argv
  have hlt : r.nargs < r.argv.length := by omega
  refine ⟨if_pos hlt, by rw [hnargs, Nat.zero_add], ?_, h.mem, List.getElem?_set_self hlt⟩
  intro j word hj hword
  have hj : j < r.nargs := hj
  obtain ⟨a, ha, hpoints⟩ := h.args j word (by omega) hword
  refine ⟨a, ?_, hpoints⟩
  rw [List.getElem?_set_ne (by omega), ← ha, Nat.zero_add]

/-- What is wanted, or `argv[argc]` as it was. -/
theorem parseLine_cases (h0 : 0 ∉ line) (hmax : 0 < maxargs) (hroom : argv.length = maxargs + 1) :
    ∃ r, parseLine maxargs (P ++ (line ++ 0 :: R)) P.length argv = .ok r ∧
      (behindWords isBlank maxargs line = [] → Parsed maxargs P line R r) ∧
      (behindWords isBlank maxargs line ≠ [] → r.2.1[r.1]? = argv[r.1]?) := by
  have hargs : 0 + maxargs ≤ argv.length := by omega
  obtain ⟨s, hs, hsplit⟩ := splitArgs_cut (P := P) (R := R) h0 hargs
  obtain ⟨hset, hparsed⟩ := parsed_of_splitOf hsplit (by omega)
  have hended := hsplit.ended
  by_cases hbehind : behindWords isBlank maxargs line = []
  · refine ⟨_, ?_, fun _ => hparsed, fun hne => absurd hbehind hne⟩
    rw [parseLine, hs, ok_bind, if_pos (hended.mpr ⟨hmax, hbehind⟩), hset]
    rfl
  · have hnot : ¬ s.ended = true := fun h => hbehind (hended.mp h).2
    refine ⟨(s.nargs, s.argv, s.mem), ?_, fun h => absurd h hbehind, fun _ => ?_⟩
    · rw [parseLine, hs, ok_bind, if_neg hnot]
      rfl
    · exact hsplit.after s.nargs (Nat.le_refl _)

/-- **All that is wanted holds, whatever has been in the array**, exactly if nothing is behind the
last argument that there is room for, not even a blank. -/
theorem parseLine_right_iff (h0 : 0 ∉ line) (hmax : 0 < maxargs) :
    (∀ P R argv, argv.length = maxargs + 1 →
      ∃ r, parseLine maxargs (P ++ (line ++ 0 :: R)) P.length argv = .ok r ∧
        Parsed maxargs P line R r) ↔
    behindWords isBlank maxargs line = [] := by
  constructor
  · intro hall
    by_contra hbehind
    have hroom : (List.replicate (maxargs + 1) (some 0) : ArgPtrs).length = maxargs + 1 :=
      List.length_replicate
    obtain ⟨r, hr, hparsed⟩ := hall [] [] _ hroom
    obtain ⟨r', hr', -, hkept⟩ := parseLine_cases (P := []) (R := []) h0 hmax hroom
    obtain rfl := Except.ok.inj (hr.symm.trans hr')
    have hargc := hparsed.argc
    have hnull := hparsed.null
    rw [hkept hbehind, List.getElem?_replicate_of_lt (by omega)] at hnull
    cases hnull
  · intro hbehind P R argv hroom
    obtain ⟨r, hr, hparsed, -⟩ := parseLine_cases (P := P) (R := R) h0 hmax hroom
    exact ⟨r, hr, hparsed hbehind⟩

end ParseLine

/-- A line of sixteen words, with a blank behind them. -/
def sixteenWords : Bytes := (List.replicate 16 [0x61, 0x20]).flatten

/-- ` a  bc ` -/
def twoWords : Bytes := [0x20, 0x61, 0x20, 0x20, 0x62, 0x63, 0x20]

/-- Two words, and room for three. -/
theorem parseLine_right_twoWords :
    (parseLine 3 (twoWords ++ [0]) 0 (List.replicate 4 (some 0))).toOption.map Prod.fst = some 2 ∧
    ∀ P R argv, argv.length = 3 + 1 →
      ∃ r, parseLine 3 (P ++ (twoWords ++ 0 :: R)) P.length argv = .ok r ∧
        Parsed 3 P twoWords R r :=
  ⟨by decide, (parseLine_right_iff (by decide) (by decide)).mpr (by decide)⟩

/-- What has been in `argv[16]` is still there. -/
theorem parseLine_unset : (parseLine 16 (sixteenWords ++ [0]) 0
    (List.replicate 17 (some 0))).toOption.map (fun r => (r.1, r.2.1[r.1]?)) =
      some (16, some (some 0)) := by
  decide

end UBoot.Common
