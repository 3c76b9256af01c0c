import UBoot.LibGeneric.Byteorder
import Mathlib.Data.List.TakeWhile

/-!
# Options of the hardware

`common/hwconfig.c`: options with arguments in one string, which are searched for with `strstr`.
A pointer into the string is an index.  Where the option does not occur, `strstr` gives `NULL`, and
the distance from the start of the search to what is behind it, as a `size_t`, is more than any
length; so that the search ends there.

A text is cut at the four separators into words here, each with the separator behind it.
`tokenHit` walks over the words, and `hwconfigParse_tokens` says that the search ends at the word
that it finds.
-/

namespace UBoot.Common

open UBoot.Lib
open UBoot.LibGeneric

/-- `strstr`: where `s2` occurs first. -/
def strstr : Bytes → Bytes → Option Nat
  | [], s2 => if s2 = [] then some 0 else none
  | c :: s1, s2 => if s2 <+: c :: s1 then some 0 else (strstr s1 s2).map (· + 1)

/-- The character at an index, or the NUL behind the string. -/
def charOf (text : Bytes) (i : Nat) : UInt8 := text[i]?.getD 0

/-- A pointer and a length. -/
structure Piece where
  pos : Nat
  len : Nat
  deriving DecidableEq, Repr

/-- `*arglen`, for a name from `str` to `stop`. -/
def argLen (text : Bytes) (maxlen : Nat) (stopch : UInt8) (str stop : Nat) : Nat :=
  match (text.drop str).findIdx? fun c => c = stopch with
  | none => ulong (min maxlen (text.length - str) + (2 ^ 32 - (stop - str) - 1))
  | some n => str + n - stop - 1

/-- `hwconfig_parse`, for the rest of the search from `opts` on.  `arglen` says whether the argument
is asked for; else the length is 0. -/
def parseFrom (text : Bytes) (start maxlen : Nat) (opt : Bytes) (stopch eqch : UInt8)
    (arglen : Bool) : Nat → Nat → Option (Option Piece)
  | 0, _ => none
  | fuel + 1, opts =>
    match strstr (text.drop opts) opt with
    | none => some none
    | some n =>
      let str := opts + n
      let stop := str + opt.length
      if maxlen < stop - start then some none
      else if (str = opts ∨ charOf text (str - 1) = stopch) ∧
          (charOf text stop = stopch ∨ charOf text stop = eqch ∨ charOf text stop = 0) then
        if arglen = false then some (some ⟨str, 0⟩)
        else if charOf text stop ≠ eqch then some none
        else some (some ⟨stop + 1, argLen text maxlen stopch str stop⟩)
      else parseFrom text start maxlen opt stopch eqch arglen fuel stop

/-- `hwconfig_parse`.  Each turn gets ahead by the length of the option. -/
def hwconfigParse (text : Bytes) (opts maxlen : Nat) (opt : Bytes) (stopch eqch : UInt8)
    (arglen : Bool) : Option (Option Piece) :=
  parseFrom text opts maxlen opt stopch eqch arglen (text.length + 1) opts

/-- Where the options are: the variable `hwconfig`, `board_hwconfig` and `cpu_hwconfig`. -/
structure Hwconfig where
  env : Option Bytes
  board : Option Bytes
  cpu : Option Bytes

/-- `__hwconfig`, with the string that the pointer points into. -/
def findOption (h : Hwconfig) (opt : Bytes) (arglen : Bool) : Option (Option (Bytes × Piece)) :=
  match h.env.or (h.board.or h.cpu) with
  | none => some none
  | some text =>
    (hwconfigParse text 0 text.length opt 0x3B 0x3A arglen).map fun r => r.map fun f => (text, f)

/-- `hwconfig` -/
def hwconfig (h : Hwconfig) (opt : Bytes) : Option Bool :=
  (findOption h opt false).map Option.isSome

/-- `hwconfig_arg` -/
def hwconfigArg (h : Hwconfig) (opt : Bytes) : Option (Option Piece) :=
  (findOption h opt true).map fun r => r.map Prod.snd

/-- `hwconfig_sub` -/
def hwconfigSub (h : Hwconfig) (opt subopt : Bytes) : Option Bool := do
  match ← findOption h opt true with
  | none => return false
  | some (text, arg) =>
    return (← hwconfigParse text arg.pos arg.len subopt 0x2C 0x3D false).isSome

/-- `hwconfig_subarg` -/
def hwconfigSubarg (h : Hwconfig) (opt subopt : Bytes) : Option (Option Piece) := do
  match ← findOption h opt true with
  | none => return none
  | some (text, arg) => hwconfigParse text arg.pos arg.len subopt 0x2C 0x3D true

/-! ## Occurrences in a text -/

section Strstr

variable {s1 s2 : Bytes} {c : UInt8} {n : Nat}

theorem strstr_split (h : strstr s1 s2 = some n) :
    ∃ u v, s1 = u ++ (s2 ++ v) ∧ u.length = n := by
  induction s1 generalizing n with
  | nil =>
    rw [strstr] at h
    split at h
    · rename_i hnil
      cases h
      exact ⟨[], [], by rw [hnil]; rfl, rfl⟩
    · cases h
  | cons c s1 ih =>
    rw [strstr] at h
    split at h
    · rename_i hpre
      cases h
      obtain ⟨v, hv⟩ := hpre
      exact ⟨[], v, hv.symm, rfl⟩
    · obtain ⟨k, hk, rfl⟩ := Option.map_eq_some_iff.mp h
      obtain ⟨u, v, rfl, hlen⟩ := ih hk
      exact ⟨c :: u, v, rfl, by rw [List.length_cons, hlen]⟩

theorem strstr_self (hne : s2 ≠ []) : strstr s2 s2 = some 0 := by
  obtain ⟨c, s, rfl⟩ := List.exists_cons_of_ne_nil hne
  rw [strstr, if_pos (List.prefix_refl _)]

theorem strstr_cons (c : UInt8) (s1 s2 : Bytes) :
    strstr (c :: s1) s2 = if s2 <+: c :: s1 then some 0 else (strstr s1 s2).map (· + 1) := rfl

/-- What does not contain `c` does not reach over it. -/
theorem prefix_append_cons_iff {w T : Bytes} (hc : c ∉ s2) : s2 <+: w ++ c :: T ↔ s2 <+: w := by
  constructor
  · intro hpre
    have hcut : w ++ [c] <+: w ++ c :: T := ⟨T, by rw [List.append_assoc]; rfl⟩
    rcases List.prefix_or_prefix_of_prefix hpre hcut with h | h
    · rcases List.prefix_concat_iff.mp h with rfl | h
      · exact absurd (List.mem_append_right _ List.mem_cons_self) hc
      · exact h
    · exact absurd (h.subset (List.mem_append_right _ List.mem_cons_self)) hc
  · intro hpre
    exact hpre.trans (List.prefix_append _ _)

/-- A name without the separator is in front of it or behind it. -/
theorem strstr_append (hne : s2 ≠ []) (hc : c ∉ s2) (w T : Bytes) :
    strstr (w ++ c :: T) s2 =
      (strstr w s2).or ((strstr T s2).map fun n => n + (w.length + 1)) := by
  induction w with
  | nil =>
    have hpre : ¬ s2 <+: [] ++ c :: T := by
      rw [prefix_append_cons_iff hc, List.prefix_nil]
      exact hne
    rw [List.nil_append] at hpre
    rw [List.nil_append, strstr_cons, if_neg hpre, strstr, if_neg hne, Option.none_or]
    rfl
  | cons a w ih =>
    have hiff : s2 <+: a :: (w ++ c :: T) ↔ s2 <+: a :: w :=
      prefix_append_cons_iff (w := a :: w) hc
    rw [List.cons_append, strstr_cons, strstr_cons, ih]
    by_cases hpre : s2 <+: a :: w
    · rw [if_pos (hiff.mpr hpre), if_pos hpre]
      rfl
    · rw [if_neg fun h => hpre (hiff.mp h), if_neg hpre]
      cases strstr w s2 with
      | some n => rfl
      | none =>
        cases strstr T s2 with
        | none => rfl
        | some n => rfl

end Strstr

/-! ## Words and separators -/

/-- The separators of the options and of what is in them. -/
def isSep (c : UInt8) : Bool := c = 0x3B || c = 0x3A || c = 0x2C || c = 0x3D

/-- A text without separators. -/
def IsWord (w : Bytes) : Prop := ∀ c ∈ w, isSep c = false ∧ c ≠ 0

instance (w : Bytes) : Decidable (IsWord w) :=
  inferInstanceAs (Decidable (∀ c ∈ w, isSep c = false ∧ c ≠ 0))

/-- A text with `t` behind it is cut into words, each with what is behind it. -/
inductive Cut (t : UInt8) : Bytes → List (Bytes × UInt8) → Prop
  | last {w : Bytes} (hw : IsWord w) : Cut t w [(w, t)]
  | cons {w T : Bytes} {c : UInt8} {ts : List (Bytes × UInt8)} (hw : IsWord w)
      (hc : isSep c = true) (tail : Cut t T ts) : Cut t (w ++ c :: T) ((w, c) :: ts)

/-- The words of a text up to the NUL. -/
abbrev Tokens : Bytes → List (Bytes × UInt8) → Prop := Cut 0

/-- The search behind an occurrence takes the end of the word for the option: the rest of the word
is the option, or it is behind the next occurrence. -/
def repeated (opt : Bytes) : Nat → Bytes → Bool
  | 0, _ => false
  | fuel + 1, w =>
    w = opt ||
      match strstr w opt with
      | none => false
      | some n => repeated opt fuel (w.drop (n + opt.length))

/-- The end of the word is taken for the option behind an occurrence in front of it. -/
def doubled (opt w : Bytes) : Bool :=
  match strstr w opt with
  | none => false
  | some n => repeated opt w.length (w.drop (n + opt.length))

/-- `(*end == stopch || *end == eqch || *end == '\0')` -/
def isEnd (stopch eqch c : UInt8) : Bool := c = stopch || c = eqch || c = 0

/-- The end of the first word that is taken for the option, and what is behind it.  `ok` says
whether the first of the words is behind a `stopch`. -/
def tokenHit (opt : Bytes) (stopch eqch : UInt8) :
    Bool → Nat → List (Bytes × UInt8) → Option (Nat × UInt8)
  | _, _, [] => none
  | ok, pos, (w, c) :: ts =>
    if ((ok && w = opt) || doubled opt w) && isEnd stopch eqch c then some (pos + w.length, c)
    else tokenHit opt stopch eqch (c = stopch) (pos + w.length + 1) ts

/-- The option that is searched for is a name. -/
structure IsHwName (opt : Bytes) : Prop where
  ne_nil : opt ≠ []
  word : IsWord opt

section Scan

variable {opt w v : Bytes} {stopch eqch c : UInt8} {n : Nat} {ts : List (Bytes × UInt8)} {ok : Bool}

theorem length_drop_lt (hopt : opt ≠ []) (h : strstr w opt = some n) :
    (w.drop (n + opt.length)).length < w.length := by
  obtain ⟨u, v, rfl, rfl⟩ := strstr_split h
  have hpos := List.length_pos_iff.mpr hopt
  simp only [List.length_drop, List.length_append]
  omega

/-- More turns than characters make no difference. -/
theorem repeated_fuel (hopt : opt ≠ []) {fuel more : Nat} (hfuel : w.length < fuel)
    (hmore : w.length < more) : repeated opt fuel w = repeated opt more w := by
  induction fuel generalizing w more with
  | zero => exact absurd hfuel (Nat.not_lt_zero _)
  | succ fuel ih =>
    obtain ⟨more, rfl⟩ : ∃ k, more = k + 1 := ⟨more - 1, by omega⟩
    rw [repeated, repeated]
    cases hs : strstr w opt with
    | none => rfl
    | some n =>
      have hlt := length_drop_lt hopt hs
      simp only
      rw [ih (by omega) (by omega : _ < more)]

/-- Behind an occurrence the rest of the word is searched like a word behind a `stopch`. -/
theorem doubled_of_strstr (hopt : opt ≠ []) (h : strstr w opt = some n) :
    doubled opt w = (decide (w.drop (n + opt.length) = opt) ||
      doubled opt (w.drop (n + opt.length))) := by
  have hlt := length_drop_lt hopt h
  rw [doubled, h]
  show repeated opt w.length (w.drop (n + opt.length)) = _
  obtain ⟨k, hk⟩ : ∃ k, w.length = k + 1 := ⟨w.length - 1, by omega⟩
  rw [hk, repeated, doubled]
  cases hs : strstr (w.drop (n + opt.length)) opt with
  | none => rfl
  | some m =>
    have hlt' := length_drop_lt hopt hs
    simp only
    rw [repeated_fuel hopt (by omega : _ < k) hlt']

theorem doubled_of_none (h : strstr w opt = none) : doubled opt w = false := by
  rw [doubled, h]

theorem ne_of_strstr_none (hopt : opt ≠ []) (h : strstr w opt = none) : w ≠ opt := by
  rintro rfl
  rw [strstr_self hopt] at h
  cases h

theorem IsWord.append_right {u : Bytes} (h : IsWord (u ++ v)) : IsWord v :=
  fun c hc => h c (List.mem_append_right _ hc)

/-- A word is cut off in front. -/
theorem Tokens.drop {R u : Bytes} (h : Tokens R ((u ++ v, c) :: ts)) :
    Tokens (R.drop u.length) ((v, c) :: ts) := by
  cases h with
  | last hw =>
    rw [List.drop_left]
    exact Cut.last hw.append_right
  | cons hw hc tail =>
    rw [List.append_assoc, List.drop_left]
    exact Cut.cons hw.append_right hc tail

/-- What is behind a word and its separator. -/
theorem Tokens.tail_drop {R : Bytes} {d : UInt8} (h : Tokens R ((w, c) :: (v, d) :: ts)) :
    Tokens (R.drop (w.length + 1)) ((v, d) :: ts) := by
  cases h with
  | cons hw hc tail =>
    rw [← List.drop_drop, List.drop_left, List.drop_one]
    exact tail

/-- The character in front of which a word ends. -/
theorem charOf_of_tokens {text : Bytes} (h : Tokens (text.drop n) ((v, c) :: ts)) :
    charOf text n = v.head?.getD c := by
  have hchar : charOf text n = (text.drop n).head?.getD 0 := by
    rw [charOf, List.head?_drop]
  rw [hchar]
  generalize text.drop n = R at h
  cases h with
  | last hw => rfl
  | cons hw hc tail => cases v <;> rfl

theorem ne_of_isWord {a d : UInt8} (hv : IsWord v) (ha : a ∈ v) (hd : isSep d = true) : a ≠ d := by
  rintro rfl
  rw [(hv a ha).1] at hd
  cases hd

theorem Tokens.isWord {R : Bytes} (h : Tokens R ((w, c) :: ts)) : IsWord w := by
  cases h with
  | last hw => exact hw
  | cons hw hc tail => exact hw

/-- An occurrence is at the end of the option if the character behind it is one of the three, that
is, if the word ends there. -/
theorem isEnd_charOf {text : Bytes} (h : Tokens (text.drop n) ((v, c) :: ts))
    (hstop : isSep stopch = true) (heq : isSep eqch = true) :
    isEnd stopch eqch (charOf text n) = (decide (v = []) && isEnd stopch eqch c) := by
  rw [charOf_of_tokens h]
  cases v with
  | nil => rfl
  | cons a v =>
    have hword := h.isWord
    have hmem : a ∈ a :: v := List.mem_cons_self
    show isEnd stopch eqch a = false
    rw [isEnd, decide_eq_false (ne_of_isWord hword hmem hstop),
      decide_eq_false (ne_of_isWord hword hmem heq), decide_eq_false (hword a hmem).2]
    rfl

/-- The first occurrence in the words: where it is, whether it starts a word that is behind a
`stopch`, and what is behind it of the word and of the text. -/
def firstOcc (opt : Bytes) (stopch : UInt8) : Bool → Nat → List (Bytes × UInt8) →
    Option (Nat × Bool × Bytes × UInt8 × List (Bytes × UInt8))
  | _, _, [] => none
  | ok, pos, (w, c) :: ts =>
    match strstr w opt with
    | some n => some (pos + n, ok && n = 0, w.drop (n + opt.length), c, ts)
    | none => firstOcc opt stopch (c = stopch) (pos + w.length + 1) ts

/-- The walk over the words goes from one occurrence to the next. -/
theorem tokenHit_eq (hopt : opt ≠ []) (ok : Bool) (pos : Nat) (toks : List (Bytes × UInt8)) :
    tokenHit opt stopch eqch ok pos toks =
      (firstOcc opt stopch ok pos toks).bind fun (str, ok, v, c, ts) =>
        if ok && (decide (v = []) && isEnd stopch eqch c) then some (str + opt.length, c)
        else tokenHit opt stopch eqch true (str + opt.length) ((v, c) :: ts) := by
  induction toks generalizing ok pos with
  | nil => rfl
  | cons tok ts ih =>
    obtain ⟨w, c⟩ := tok
    cases hs : strstr w opt with
    | none =>
      have hne := ne_of_strstr_none hopt hs
      rw [firstOcc, hs, tokenHit, doubled_of_none hs, decide_eq_false hne, Bool.and_false,
        Bool.or_false, Bool.false_and, if_neg Bool.false_ne_true]
      exact ih _ _
    | some n =>
      obtain ⟨u, v, hw, hn⟩ := strstr_split hs
      have hv : w.drop (n + opt.length) = v := by
        rw [hw, ← List.append_assoc, ← hn, ← List.length_append, List.drop_left]
      have hlen : w.length = n + opt.length + v.length := by
        rw [hw, List.length_append, List.length_append, hn, Nat.add_assoc]
      have hwhole : decide (w = opt) = (decide (n = 0) && decide (v = [])) := by
        by_cases hboth : n = 0 ∧ v = []
        · obtain ⟨h0, rfl⟩ := hboth
          have hu : u = [] := List.length_eq_zero_iff.mp (hn.trans h0)
          rw [decide_eq_true h0, hw, hu]
          simp
        · have hne : w ≠ opt := by
            intro h
            rw [h] at hlen
            exact hboth ⟨by omega, List.length_eq_zero_iff.mp (by omega)⟩
          rw [decide_eq_false hne]
          by_cases h0 : n = 0
          · rw [decide_eq_false fun h => hboth ⟨h0, h⟩, Bool.and_false]
          · rw [decide_eq_false h0, Bool.false_and]
      have hocc : firstOcc opt stopch ok pos ((w, c) :: ts) =
          some (pos + n, ok && decide (n = 0), v, c, ts) := by
        rw [firstOcc, hs, ← hv]
      have hpos : pos + n + opt.length + v.length = pos + (n + opt.length + v.length) := by omega
      rw [hocc, Option.bind_some, tokenHit, doubled_of_strstr hopt hs, hv, hwhole]
      simp only
      rw [tokenHit, hlen, hpos]
      -- the option is the whole word, or the end of it, or neither
      cases hend : isEnd stopch eqch c with
      | false => simp only [Bool.and_false, Bool.false_eq_true, if_false]
      | true =>
        by_cases hnil : v = []
        · have hdoubled : doubled opt [] = false := by rw [doubled, strstr, if_neg hopt]
          subst hnil
          rw [hdoubled, decide_eq_false fun h : [] = opt => hopt h.symm]
          cases hfirst : ok && decide (n = 0) with
          | false => simp [hfirst]
          | true => simp [hfirst, Nat.add_assoc]
        · rw [decide_eq_false hnil]
          simp only [Bool.and_false, Bool.and_true, Bool.false_or,
            Bool.false_eq_true, if_false, Bool.true_and]

theorem firstOcc_le {pos : Nat} {toks : List (Bytes × UInt8)}
    {occ : Nat × Bool × Bytes × UInt8 × List (Bytes × UInt8)}
    (h : firstOcc opt stopch ok pos toks = some occ) : pos ≤ occ.1 := by
  induction toks generalizing ok pos with
  | nil => cases h
  | cons tok ts ih =>
    obtain ⟨w, c⟩ := tok
    rw [firstOcc] at h
    split at h
    · cases h
      exact Nat.le_add_right _ _
    · have hle := ih h
      omega

/-- An occurrence in a text is one in a word of it. -/
theorem strstr_tokens {R : Bytes} {toks : List (Bytes × UInt8)} (hopt : IsHwName opt)
    (h : Tokens R toks) (stopch : UInt8) (ok : Bool) (pos : Nat) :
    strstr R opt = (firstOcc opt stopch ok pos toks).map fun occ => occ.1 - pos := by
  induction h generalizing ok pos with
  | @last w hw =>
    rw [firstOcc]
    cases hs : strstr w opt with
    | none => rfl
    | some n =>
      show some n = some (pos + n - pos)
      rw [Nat.add_sub_cancel_left]
  | @cons w T c ts hw hc tail ih =>
    have hnot : c ∉ opt := fun hmem => ne_of_isWord hopt.word hmem hc rfl
    rw [firstOcc, strstr_append hopt.ne_nil hnot]
    cases hs : strstr w opt with
    | some n =>
      show some n = some (pos + n - pos)
      rw [Nat.add_sub_cancel_left]
    | none =>
      rw [Option.none_or, ih (decide (c = stopch)) (pos + w.length + 1)]
      cases hocc : firstOcc opt stopch (decide (c = stopch)) (pos + w.length + 1) ts with
      | none => rfl
      | some occ =>
        have hle := firstOcc_le hocc
        simp only [Option.map_some, Option.some.injEq]
        omega

theorem Tokens.length_le {R : Bytes} (h : Tokens R ((w, c) :: ts)) : w.length ≤ R.length := by
  cases h with
  | last hw => exact Nat.le_refl _
  | cons hw hc tail =>
    rw [List.length_append]
    exact Nat.le_add_right _ _

theorem Tokens.length_lt {R : Bytes} {tok : Bytes × UInt8} (h : Tokens R ((w, c) :: tok :: ts)) :
    w.length < R.length := by
  cases h with
  | cons hw hc tail =>
    rw [List.length_append, List.length_cons]
    omega

/-- The character in front of an occurrence inside of a word. -/
theorem charOf_before {text u : Bytes} {pos : Nat} (hstop : isSep stopch = true) (hu : u ≠ [])
    (h : Tokens (text.drop pos) ((u ++ v, c) :: ts)) :
    charOf text (pos + u.length - 1) ≠ stopch := by
  obtain ⟨u, a, rfl⟩ := List.eq_nil_or_concat' u |>.resolve_left hu
  have hword := h.isWord
  rw [List.append_assoc] at h
  have hdrop := h.drop
  rw [List.drop_drop] at hdrop
  have hchar := charOf_of_tokens hdrop
  have hpos : pos + (u ++ [a]).length - 1 = pos + u.length := by
    rw [List.length_append, List.length_singleton]
    omega
  rw [hpos, hchar]
  exact ne_of_isWord hword (by simp) hstop

/-- Where the first occurrence in the words is, seen from the text. -/
structure OccAt (text opt : Bytes) (stopch : UInt8) (opts str : Nat) (ok : Bool) (v : Bytes)
    (c : UInt8) (ts : List (Bytes × UInt8)) : Prop where
  le : opts ≤ str
  stop_le : str + opt.length ≤ text.length
  accepted : ok = true ↔ str = opts ∨ charOf text (str - 1) = stopch
  tokens : Tokens (text.drop (str + opt.length)) ((v, c) :: ts)

theorem firstOcc_at {text : Bytes} {opts pos str : Nat} {toks : List (Bytes × UInt8)}
    (hstop : isSep stopch = true)
    (h : Tokens (text.drop pos) toks) (hpos : pos ≤ text.length) (hopts : opts ≤ pos)
    (hok : ok = true ↔ pos = opts ∨ charOf text (pos - 1) = stopch) {ok' : Bool}
    (hocc : firstOcc opt stopch ok pos toks = some (str, ok', v, c, ts)) :
    pos ≤ str ∧ OccAt text opt stopch opts str ok' v c ts := by
  induction toks generalizing ok pos with
  | nil => cases hocc
  | cons tok ts' ih =>
    obtain ⟨w, d⟩ := tok
    rw [firstOcc] at hocc
    cases hs : strstr w opt with
    | some n =>
      rw [hs] at hocc
      cases hocc
      obtain ⟨u, v, rfl, rfl⟩ := strstr_split hs
      have hcut : Tokens (text.drop (pos + u.length + opt.length)) ((v, c) :: ts) := by
        rw [← List.append_assoc] at h
        have hdrop := h.drop
        rw [List.drop_drop, List.length_append, ← Nat.add_assoc] at hdrop
        exact hdrop
      have hv : (u ++ (opt ++ v)).drop (u.length + opt.length) = v := by
        rw [← List.append_assoc, ← List.length_append, List.drop_left]
      rw [hv]
      refine ⟨Nat.le_add_right _ _, ⟨by omega, ?_, ?_, hcut⟩⟩
      · have hle := h.length_le
        rw [List.length_drop, List.length_append, List.length_append] at hle
        omega
      · by_cases hu : u = []
        · subst hu
          rw [List.length_nil, decide_eq_true rfl, Bool.and_true, Nat.add_zero]
          exact hok
        · have hlen := List.length_pos_iff.mpr hu
          have hbefore := charOf_before hstop hu h
          rw [decide_eq_false (by omega), Bool.and_false]
          constructor
          · intro hfalse
            cases hfalse
          · rintro (heq | heq)
            · omega
            · exact absurd heq hbefore
    | none =>
      rw [hs] at hocc
      cases ts' with
      | nil => cases hocc
      | cons tok ts' =>
        obtain ⟨w', d'⟩ := tok
        have htail := h.tail_drop
        rw [List.drop_drop, ← Nat.add_assoc] at htail
        have hlt := h.length_lt
        rw [List.length_drop] at hlt
        have hsep : charOf text (pos + w.length) = d := by
          rw [← List.append_nil w] at h
          have hdrop := h.drop
          rw [List.drop_drop] at hdrop
          exact charOf_of_tokens hdrop
        have hok' : decide (d = stopch) = true ↔
            pos + w.length + 1 = opts ∨ charOf text (pos + w.length + 1 - 1) = stopch := by
          rw [Nat.add_sub_cancel, hsep, decide_eq_true_iff]
          constructor
          · exact .inr
          · rintro (heq | heq)
            · omega
            · exact heq
        obtain ⟨hle, hat⟩ := ih htail (by omega) (by omega) hok' hocc
        exact ⟨by omega, hat⟩

/-- What is made of the end of the option and the character there. -/
def foundAt (text : Bytes) (start maxlen : Nat) (opt : Bytes) (stopch eqch : UInt8) (arglen : Bool)
    (hit : Nat × UInt8) : Option Piece :=
  if maxlen < hit.1 - start then none
  else if arglen = false then some ⟨hit.1 - opt.length, 0⟩
  else if hit.2 ≠ eqch then none
  else some ⟨hit.1 + 1, argLen text maxlen stopch (hit.1 - opt.length) hit.1⟩

theorem tokenHit_le {pos : Nat} {toks : List (Bytes × UInt8)} {hit : Nat × UInt8}
    (h : tokenHit opt stopch eqch ok pos toks = some hit) : pos ≤ hit.1 := by
  induction toks generalizing ok pos with
  | nil => cases h
  | cons tok ts ih =>
    obtain ⟨w, c⟩ := tok
    rw [tokenHit] at h
    split at h
    · cases h
      exact Nat.le_add_right _ _
    · have hle := ih h
      omega

theorem bind_foundAt_none {text : Bytes} {start maxlen pos : Nat} {arglen : Bool}
    {toks : List (Bytes × UInt8)} (h : maxlen < pos - start) :
    (tokenHit opt stopch eqch ok pos toks).bind
      (foundAt text start maxlen opt stopch eqch arglen) = none := by
  cases hhit : tokenHit opt stopch eqch ok pos toks with
  | none => rfl
  | some hit =>
    have hle := tokenHit_le hhit
    rw [Option.bind_some, foundAt, if_pos (by omega)]

theorem isEnd_iff : isEnd stopch eqch c = true ↔ c = stopch ∨ c = eqch ∨ c = 0 := by
  simp only [isEnd, Bool.or_eq_true, decide_eq_true_eq, or_assoc]

/-- **The search ends at the word that the walk over the words finds.** -/
theorem parseFrom_tokens {text : Bytes} {start maxlen : Nat} {arglen : Bool} (hopt : IsHwName opt)
    (hstop : isSep stopch = true) (heq : isSep eqch = true) {fuel opts : Nat}
    {toks : List (Bytes × UInt8)} (h : Tokens (text.drop opts) toks) (hopts : opts ≤ text.length)
    (hstart : start ≤ opts) (hfuel : text.length - opts < fuel) :
    parseFrom text start maxlen opt stopch eqch arglen fuel opts =
      some ((tokenHit opt stopch eqch true opts toks).bind
        (foundAt text start maxlen opt stopch eqch arglen)) := by
  induction fuel generalizing opts toks with
  | zero => exact absurd hfuel (Nat.not_lt_zero _)
  | succ fuel ih =>
    have hne := hopt.ne_nil
    have hpos := List.length_pos_iff.mpr hne
    rw [parseFrom, strstr_tokens hopt h stopch true opts, tokenHit_eq hne]
    cases hocc : firstOcc opt stopch true opts toks with
    | none => rfl
    | some occ =>
      obtain ⟨str, ok, v, c, ts⟩ := occ
      obtain ⟨-, hat⟩ := firstOcc_at hstop h hopts (Nat.le_refl opts)
        ⟨fun _ => .inl rfl, fun _ => rfl⟩ hocc
      have hle := hat.le
      have hstr : opts + (str - opts) = str := by omega
      have hend := isEnd_charOf hat.tokens hstop heq
      have hiff : ((str = opts ∨ charOf text (str - 1) = stopch) ∧
          (charOf text (str + opt.length) = stopch ∨ charOf text (str + opt.length) = eqch ∨
            charOf text (str + opt.length) = 0)) ↔
          (ok && (decide (v = []) && isEnd stopch eqch c)) = true := by
        rw [← hat.accepted, ← isEnd_iff, hend, Bool.and_eq_true ok]
      show (if maxlen < opts + (str - opts) + opt.length - start then some none
        else if (opts + (str - opts) = opts ∨ charOf text (opts + (str - opts) - 1) = stopch) ∧
            (charOf text (opts + (str - opts) + opt.length) = stopch ∨
              charOf text (opts + (str - opts) + opt.length) = eqch ∨
                charOf text (opts + (str - opts) + opt.length) = 0) then _
        else _) = _
      rw [hstr]
      by_cases hmax : maxlen < str + opt.length - start
      · -- every word from here on is behind the last one that is looked at
        rw [if_pos hmax, Option.bind_some]
        simp only
        split
        · rw [Option.bind_some, foundAt, if_pos hmax]
        · rw [bind_foundAt_none hmax]
      · rw [if_neg hmax, Option.bind_some]
        by_cases hcond : (ok && (decide (v = []) && isEnd stopch eqch c)) = true
        · have hv : v = [] := by
            rw [Bool.and_eq_true, Bool.and_eq_true, decide_eq_true_iff] at hcond
            exact hcond.2.1
          have hchar : charOf text (str + opt.length) = c := by
            rw [charOf_of_tokens hat.tokens, hv]
            rfl
          rw [if_pos (hiff.mpr hcond)]
          simp only
          rw [if_pos hcond, Option.bind_some, foundAt, if_neg hmax, Nat.add_sub_cancel, hchar]
          split
          · rfl
          · split <;> rfl
        · rw [if_neg fun h => hcond (hiff.mp h)]
          simp only
          rw [if_neg hcond]
          have hstop_le := hat.stop_le
          exact ih hat.tokens hstop_le (by omega) (by omega)

end Scan

end UBoot.Common
