import UBoot.Common.AutoComplete
import UBoot.Common.EnvEditSpec

/-!
# What a completion appends

`candidates` lists the names a line can go on with, for the arguments of the line and for whether it
ends in a blank.

* `completeCmdv_eq`: `complete_cmdv` finds these candidates.
* `findCommonPrefix_eq`: `find_common_prefix` finds the length of their longest common prefix and
  reads no candidate behind its terminator.
* `cmdAutoComplete_right_iff`: what is appended completes the word at the end of the line, unless
  the last argument, the bytes of which are taken for typed, is not that word (`CompleteOk`).
-/

namespace UBoot.Common

open UBoot.Lib
open Bootm (findCmdTbl)
open LibGeneric (str)

/-! ## Candidates -/

/-- The first `room` names, and dots for the rest. -/
def abridge (room : Nat) (names : List Bytes) : List Bytes :=
  names.take room ++ if room < names.length then [dots] else []

/-- The same for names that are put into a buffer of `bufsz` bytes. -/
def abridgeBuf : Nat → Nat → List Bytes → List Bytes
  | _, _, [] => []
  | room, bufsz, name :: names =>
    if room = 0 ∨ bufsz < name.length + 1 then [dots]
    else name :: abridgeBuf (room - 1) (bufsz - (name.length + 1)) names

/-- The names that start with `s`. -/
def startingWith (s : Bytes) (names : List Bytes) : List Bytes :=
  names.filter fun name => s <+: name

/-- The variables that a line can go on with, for the arguments behind the command; `space` if the
line ends in a blank. -/
def variableCandidates (es : List Bytes) : List Bytes → Bool → List Bytes
  | [], true => abridgeBuf 18 512 (startingWith [] (es.map nameOf))
  | [var], false => abridgeBuf 18 512 (startingWith var (es.map nameOf))
  | _, _ => []

/-- The names that a line can go on with, for the commands `table` and the variables `es`. -/
def candidates (table : List (Bytes × Bool)) (es : List Bytes) : List Bytes → Bool → List Bytes
  | [], _ => abridge 18 (startingWith [] (table.map Prod.fst))
  | cmd :: rest, space =>
    if rest = [] ∧ space = false then
      abridge 18 (startingWith (cmd.takeWhile (· ≠ 0x2E)) (table.map Prod.fst))
    else if findCmdTbl cmd table = some true then
      variableCandidates es rest space
    else []

theorem abridge_cons (room : Nat) (name : Bytes) (names : List Bytes) :
    abridge room (name :: names) =
      if room = 0 then [dots] else name :: abridge (room - 1) names := by
  cases room with
  | zero => rfl
  | succ room => simp [abridge]

theorem startingWith_cons_pos {s name : Bytes} (h : s <+: name) (names : List Bytes) :
    startingWith s (name :: names) = name :: startingWith s names :=
  List.filter_cons_of_pos (decide_eq_true h)

theorem startingWith_cons_neg {s name : Bytes} (h : ¬ s <+: name) (names : List Bytes) :
    startingWith s (name :: names) = startingWith s names :=
  List.filter_cons_of_neg (by simpa using h)

theorem take_eq_iff {s name : Bytes} : name.take s.length = s ↔ s <+: name := by
  rw [List.prefix_iff_eq_take]
  exact eq_comm

theorem listMatches_eq {maxv : Nat} {cmd : Bytes} (table : List (Bytes × Bool)) (found : Nat) :
    listMatches maxv cmd table found =
      abridge (maxv - 2 - found) (startingWith cmd (table.map Prod.fst)) := by
  induction table generalizing found with
  | nil => simp [listMatches, abridge, startingWith]
  | cons entry table ih =>
    obtain ⟨name, complete⟩ := entry
    rw [listMatches, List.map_cons]
    by_cases hbegins : cmd <+: name
    · have hlen := hbegins.length_le
      rw [startingWith_cons_pos hbegins, abridge_cons, if_neg (by omega),
        if_neg (fun h => h (take_eq_iff.mpr hbegins))]
      by_cases hroom : maxv - 2 ≤ found
      · rw [if_pos hroom, if_pos (by omega)]
      · rw [if_neg hroom, if_neg (by omega), ih]
        rfl
    · have hne : name.take cmd.length ≠ cmd := fun h => hbegins (take_eq_iff.mp h)
      rw [startingWith_cons_neg hbegins, if_pos hne, ite_self, ih]

/-- The walk over the variables. -/
theorem envCompleteFrom_eq {data var Q : Bytes} {maxv : Nat} :
    ∀ {es : List Bytes} {P : Bytes} {fuel i found bufsz : Nat}, (∀ e ∈ es, IsEntry e) →
      data = P ++ (strings es ++ 0 :: Q) → i = P.length → es.length < fuel →
      envCompleteFrom data var maxv fuel i found bufsz =
        .ok (abridgeBuf (maxv - 2 - found) bufsz (startingWith var (es.map nameOf))) := by
  intro es
  induction es with
  | nil =>
    intro P fuel i found bufsz _ hdata hi hfuel
    obtain ⟨fuel, rfl⟩ : ∃ k, fuel = k + 1 := ⟨fuel - 1, by simp at hfuel; omega⟩
    rw [envCompleteFrom, hdata, strings_nil, List.nil_append, load_cut hi]
    rfl
  | cons e es ih =>
    intro P fuel i found bufsz he hdata hi hfuel
    obtain ⟨fuel, rfl⟩ : ∃ k, fuel = k + 1 := ⟨fuel - 1, by omega⟩
    obtain ⟨hne, h0⟩ := he e List.mem_cons_self
    obtain ⟨c, t, hct⟩ := List.exists_cons_of_ne_nil hne
    have hc : c ≠ 0 := fun h => h0 (by simp [hct, h])
    have hcut : data = P ++ (e ++ 0 :: (strings es ++ 0 :: Q)) := by
      rw [hdata, strings, List.append_assoc]
      rfl
    have hload : load data i = .ok c := by
      rw [hcut, hct]
      exact load_cut hi
    have hall : ∀ x ∈ e, decide (x ≠ 0) = true := by
      intro x hx
      exact decide_eq_true fun h => h0 (h ▸ hx)
    have hscan : scanWhile data (· ≠ 0) (data.length + 1) i = .ok (i + e.length) :=
      scanWhile_of_eq hcut hi hall rfl (Nat.le_succ _)
    have hlval : strAt data (data.length + 1) i = .ok e := by
      rw [hcut]
      refine strAt_cut h0 hi ?_
      simp only [List.length_append]
      omega
    have hrec : ∀ found bufsz, envCompleteFrom data var maxv fuel (i + e.length + 1) found bufsz =
        .ok (abridgeBuf (maxv - 2 - found) bufsz (startingWith var (es.map nameOf))) := by
      intro found bufsz
      refine ih (P := P ++ (e ++ [0])) (fun x hx => he x (List.mem_cons_of_mem _ hx)) ?_ ?_ ?_
      · rw [hcut]
        simp
      · rw [hi]
        simp only [List.length_append, List.length_cons, List.length_nil]
        omega
      · rw [List.length_cons] at hfuel
        omega
    have hname : e.takeWhile (· ≠ 61) = nameOf e := rfl
    rw [envCompleteFrom, hload, ok_bind, if_neg hc, hscan, ok_bind, hlval, ok_bind, List.map_cons]
    simp only [hname]
    by_cases hbegins : var <+: nameOf e
    · have hlen := hbegins.length_le
      have hmatch : ¬ (0 < var.length ∧ ((nameOf e).length < var.length ∨
          (nameOf e).take var.length ≠ var)) := by
        rintro ⟨-, hshort | hdiff⟩
        · omega
        · exact hdiff (take_eq_iff.mpr hbegins)
      rw [if_neg hmatch, startingWith_cons_pos hbegins, abridgeBuf]
      by_cases hroom : maxv - 2 ≤ found ∨ bufsz < (nameOf e).length + 1
      · rw [if_pos hroom, if_pos (by omega)]
        rfl
      · rw [if_neg hroom, if_neg (by omega), hrec, ok_bind]
        rfl
    · have hpos : 0 < var.length := by
        refine List.length_pos_iff.mpr ?_
        rintro rfl
        exact hbegins List.nil_prefix
      rw [if_pos ⟨hpos, .inr fun h => hbegins (take_eq_iff.mp h)⟩, hrec,
        startingWith_cons_neg hbegins]

theorem envComplete_eq {data var : Bytes} {maxv bufsz : Nat} {es : List Bytes}
    (hdata : Holds data es) :
    envComplete data var maxv bufsz =
      .ok (abridgeBuf (maxv - 2) bufsz (startingWith var (es.map nameOf))) := by
  obtain ⟨Q, hQ⟩ := hdata.exists_tail
  have hlen := length_le_length_strings es
  refine envCompleteFrom_eq (P := []) hdata.entry hQ rfl ?_
  rw [hQ, List.length_append]
  omega

/-! ## Arguments -/

/-- The arguments of a line. -/
def argsOf (maxargs : Nat) (line : Bytes) : List Bytes := (words isBlank line).take maxargs

/-- The array points to the arguments `args`. -/
def ArgsAt (mem : Bytes) (argv : ArgPtrs) (args : List Bytes) : Prop :=
  ∀ j word, args[j]? = some word → argStr mem argv j = .ok word

theorem argStr_of_pointsTo {mem word : Bytes} {argv : ArgPtrs} {a j : Nat}
    (ha : argv[j]? = some (some a)) (h : PointsTo mem a word) (h0 : 0 ∉ word) :
    argStr mem argv j = .ok word := by
  obtain ⟨P, Q, rfl, rfl⟩ := h
  rw [argStr, ha]
  refine strAt_cut h0 rfl ?_
  simp only [List.length_append]
  omega

theorem makeArgv_eq {line R : Bytes} {argv : ArgPtrs} {maxargs : Nat} (h0 : 0 ∉ line)
    (hroom : argv.length = maxargs + 1) :
    ∃ argv' mem', makeArgv (line ++ 0 :: R) 0 (maxargs + 1) argv =
      .ok ((argsOf maxargs line).length, argv', mem') ∧
      ArgsAt mem' argv' (argsOf maxargs line) := by
  obtain ⟨s, hs, hsplit⟩ : ∃ s, splitArgs maxargs 0 ([] ++ (line ++ 0 :: R)) 0 argv = .ok s ∧
      SplitOf [] line R argv 0 maxargs s := splitArgs_cut h0 (by omega)
  obtain ⟨hset, hparsed⟩ := parsed_of_splitOf hsplit (by omega)
  rw [List.nil_append] at hs
  have hargc : s.nargs = (argsOf maxargs line).length := by
    rw [argsOf, List.length_take, Nat.min_comm]
    exact hparsed.argc
  refine ⟨s.argv.set s.nargs none, s.mem, ?_, ?_⟩
  · rw [makeArgv, Nat.add_sub_cancel, ← hargc]
    refine (congrArg (· >>= _) hs).trans ?_
    rw [ok_bind, hset]
    rfl
  · intro j word hword
    have hj : j < s.nargs := by
      rw [hargc]
      exact (List.getElem?_eq_some_iff.mp hword).1
    rw [argsOf, List.getElem?_take] at hword
    split at hword
    · obtain ⟨a, ha, hpoints⟩ := hparsed.args j word hj hword
      have hmem := List.mem_of_getElem? hword
      exact argStr_of_pointsTo ha hpoints fun h => h0 (mem_of_mem_words hmem h).1
    · cases hword

section Candidates

variable {c : Completer} {es args : List Bytes} {mem : Bytes} {argv : ArgPtrs}

theorem varComplete_eq {cmd : Bytes} {rest : List Bytes} {lastChar : UInt8}
    (henv : Holds c.env es) (hargs : ArgsAt mem argv (cmd :: rest)) :
    varComplete c.env mem (rest.length + 1) argv lastChar 20 =
      .ok (variableCandidates es rest (isSpace lastChar)) := by
  rw [varComplete]
  cases isSpace lastChar with
  | true =>
    cases rest with
    | nil => exact envComplete_eq henv
    | cons var rest =>
      rw [if_neg (by simp), if_neg (by simp)]
      cases rest with
      | nil => rfl
      | cons other rest => rfl
  | false =>
    match rest with
    | [] => rfl
    | [var] =>
      have hvar : argStr mem argv 1 = .ok var := hargs 1 var rfl
      rw [if_neg (by simp), if_pos (by simp), hvar, ok_bind]
      exact envComplete_eq henv
    | var :: other :: rest =>
      rw [if_neg (by simp), if_neg (by simp)]
      rfl

/-- **The candidates are found.** -/
theorem completeCmdv_eq (henv : Holds c.env es) (hargs : ArgsAt mem argv args) (lastChar : UInt8) :
    completeCmdv c mem args.length argv lastChar 20 =
      .ok ((candidates c.table es args (isSpace lastChar)).length,
        candidates c.table es args (isSpace lastChar)) := by
  rw [completeCmdv, if_neg (by decide)]
  cases args with
  | nil =>
    rw [List.length_nil, if_pos rfl, listMatches_eq]
    rfl
  | cons cmd rest =>
    have hcmd : argStr mem argv 0 = .ok cmd := hargs 0 cmd rfl
    have hlen : (cmd :: rest).length = rest.length + 1 := rfl
    rw [hlen, if_neg (Nat.succ_ne_zero _), hcmd, ok_bind, candidates]
    by_cases hfirst : rest = [] ∧ isSpace lastChar = false
    · have hnot : ¬ (1 < rest.length + 1 ∨ isSpace lastChar = true) := by
        rw [hfirst.1, hfirst.2]
        decide
      rw [if_neg hnot, if_pos hfirst, listMatches_eq]
      rfl
    · have hlater : 1 < rest.length + 1 ∨ isSpace lastChar = true := by
        by_contra hnot
        push Not at hnot
        refine hfirst ⟨List.length_eq_zero_iff.mp (by omega), ?_⟩
        simpa using hnot.2
      rw [if_pos hlater, if_neg hfirst, varComplete_eq henv hargs]
      by_cases hfind : findCmdTbl cmd c.table = some true
      · rw [hfind, if_pos rfl]
        rfl
      · rw [if_neg hfind]
        split
        · rename_i h
          exact absurd h hfind
        · rfl

theorem abridge_subset {room : Nat} {names : List Bytes} {name : Bytes}
    (h : name ∈ abridge room names) : name = dots ∨ name ∈ names := by
  rcases List.mem_append.mp h with h | h
  · exact .inr (List.mem_of_mem_take h)
  · split at h
    · exact .inl (List.mem_singleton.mp h)
    · cases h

theorem abridgeBuf_subset {room bufsz : Nat} {names : List Bytes} {name : Bytes}
    (h : name ∈ abridgeBuf room bufsz names) : name = dots ∨ name ∈ names := by
  induction names generalizing room bufsz with
  | nil => cases h
  | cons a names ih =>
    rw [abridgeBuf] at h
    split at h
    · exact .inl (List.mem_singleton.mp h)
    · rcases List.mem_cons.mp h with rfl | h
      · exact .inr List.mem_cons_self
      · exact (ih h).imp id (List.mem_cons_of_mem _)

/-- A candidate is the name of a command or of a variable, or the dots. -/
theorem candidates_subset {table : List (Bytes × Bool)} {space : Bool} {name : Bytes}
    (h : name ∈ candidates table es args space) :
    name = dots ∨ name ∈ table.map Prod.fst ∨ name ∈ es.map nameOf := by
  have hcommand : ∀ {s}, name ∈ abridge 18 (startingWith s (table.map Prod.fst)) →
      name = dots ∨ name ∈ table.map Prod.fst ∨ name ∈ es.map nameOf :=
    fun h => (abridge_subset h).imp id fun h => .inl (List.mem_of_mem_filter h)
  have hvariable : ∀ {s}, name ∈ abridgeBuf 18 512 (startingWith s (es.map nameOf)) →
      name = dots ∨ name ∈ table.map Prod.fst ∨ name ∈ es.map nameOf :=
    fun h => (abridgeBuf_subset h).imp id fun h => .inr (List.mem_of_mem_filter h)
  cases args with
  | nil => exact hcommand h
  | cons cmd rest =>
    rw [candidates] at h
    split at h
    · exact hcommand h
    split at h
    · rw [variableCandidates.eq_def] at h
      split at h
      · exact hvariable h
      · exact hvariable h
      · cases h
    · cases h

/-- The names have no terminator inside. -/
theorem zero_notMem_candidate {table : List (Bytes × Bool)} {space : Bool} {name : Bytes}
    (htable : ∀ entry ∈ table, 0 ∉ entry.1) (hes : ∀ e ∈ es, IsEntry e)
    (h : name ∈ candidates table es args space) : 0 ∉ name := by
  rcases candidates_subset h with rfl | h | h
  · decide
  · obtain ⟨entry, hentry, rfl⟩ := List.mem_map.mp h
    exact htable entry hentry
  · obtain ⟨e, he, rfl⟩ := List.mem_map.mp h
    exact (isName_nameOf (hes e he).2).1

end Candidates

/-! ## The common prefix -/

theorem foldlM_commonLen {a : Bytes} (h0 : 0 ∉ a) : ∀ {ls : List Bytes} {p : Bytes}, p <+: a →
    ls.foldlM (fun len t => commonLen (a ++ [0]) (t ++ [0]) len 0) p.length =
      .ok (ls.foldl commonPrefix p).length := by
  intro ls
  induction ls with
  | nil =>
    intro p _
    rfl
  | cons l ls ih =>
    intro p hp
    rw [List.foldlM_cons, commonLen_eq hp h0, ok_bind, List.foldl_cons]
    exact ih ((commonPrefix_left p l).trans hp)

/-- **`find_common_prefix` finds the length of the longest common prefix**, and no candidate is read
behind its terminator. -/
theorem findCommonPrefix_eq {cmdv : List Bytes} (h0 : ∀ cand ∈ cmdv, 0 ∉ cand) :
    findCommonPrefix cmdv = .ok (lcp cmdv).length := by
  cases cmdv with
  | nil => rfl
  | cons a ls => exact foldlM_commonLen (h0 a List.mem_cons_self) (List.prefix_refl a)

/-! ## The suffix -/

section Suffix

variable {mem typed : Bytes} {argv : ArgPtrs} {args cmdv : List Bytes}

theorem lastLen_eq (hargs : ArgsAt mem argv args) (hlast : args.getLast? = some typed) :
    lastLen mem argv args.length = .ok typed.length := by
  obtain ⟨init, rfl⟩ := List.getLast?_eq_some_iff.mp hlast
  have hstr : argStr mem argv init.length = .ok typed := by
    refine hargs init.length typed ?_
    rw [List.getElem?_append_right (Nat.le_refl _), Nat.sub_self]
    rfl
  rw [List.length_append, List.length_singleton, lastLen, hstr]
  rfl

/-- One candidate: what is behind as many of its bytes as the last argument has. -/
theorem findSuffix_one {cand : Bytes} (hargs : ArgsAt mem argv args)
    (hlast : args.getLast? = some typed) (h0 : 0 ∉ cand) (hle : typed.length ≤ cand.length) :
    findSuffix mem args.length argv 1 [cand] =
      .ok (some ⟨typed.length, cand.length - typed.length, [0x20]⟩) := by
  obtain ⟨P, s, rfl, hP⟩ := exists_split hle
  have hstr : strAt (P ++ s ++ [0]) ((P ++ s).length + 2) typed.length = .ok s := by
    rw [List.append_assoc]
    refine strAt_cut (fun h => h0 (List.mem_append_right _ h)) hP.symm ?_
    rw [List.length_append]
    omega
  rw [findSuffix, if_pos rfl, lastLen_eq hargs hlast, ok_bind, List.headD_cons, hstr, ok_bind]
  rw [List.length_append, hP, Nat.add_sub_cancel_left]
  rfl

/-- One candidate that is shorter than the last argument is read behind its terminator. -/
theorem findSuffix_behind {cand : Bytes} (hargs : ArgsAt mem argv args)
    (hlast : args.getLast? = some typed) (hlt : cand.length < typed.length) :
    findSuffix mem args.length argv 1 [cand] = .error (.load typed.length) := by
  have hload : load (cand ++ [0]) typed.length = .error (.load typed.length) := by
    rw [load, List.getElem?_eq_none]
    rw [List.length_append, List.length_singleton]
    omega
  rw [findSuffix, if_pos rfl, lastLen_eq hargs hlast, ok_bind, List.headD_cons, strAt, hload]
  rfl

theorem findSuffix_several (hargs : ArgsAt mem argv args) (h0 : ∀ cand ∈ cmdv, 0 ∉ cand)
    (hmany : 1 < cmdv.length) (hlast : args.getLast? = some typed) :
    findSuffix mem args.length argv cmdv.length cmdv =
      .ok (if typed.length < (lcp cmdv).length then
        some ⟨typed.length, (lcp cmdv).length - typed.length, []⟩ else none) := by
  rw [findSuffix, if_neg (by omega), if_pos (by omega), findCommonPrefix_eq h0, ok_bind]
  by_cases hnil : (lcp cmdv).length = 0
  · rw [if_pos hnil, if_neg (by omega)]
    rfl
  · rw [if_neg hnil, lastLen_eq hargs hlast, ok_bind]
    by_cases hlt : typed.length < (lcp cmdv).length
    · rw [if_pos (by omega), if_pos hlt]
      rfl
    · rw [if_neg (by omega), if_neg hlt]
      rfl

theorem findSuffix_apart (h0 : ∀ cand ∈ cmdv, 0 ∉ cand) (hmany : 1 < cmdv.length)
    (hlcp : lcp cmdv = []) (argc : Nat) :
    findSuffix mem argc argv cmdv.length cmdv = .ok none := by
  rw [findSuffix, if_neg (by omega), if_pos (by omega), findCommonPrefix_eq h0, ok_bind, hlcp]
  rfl

/-- Without an argument `argv[-1]` is read, for one candidate and for a common prefix. -/
theorem findSuffix_no_argument (h0 : ∀ cand ∈ cmdv, 0 ∉ cand)
    (h : cmdv.length = 1 ∨ 1 < cmdv.length ∧ lcp cmdv ≠ []) :
    findSuffix mem 0 argv cmdv.length cmdv = .error (.load 0) := by
  rcases h with hone | ⟨hmany, hlcp⟩
  · rw [findSuffix, if_pos (by omega)]
    rfl
  · have hpos : (lcp cmdv).length ≠ 0 := fun h => hlcp (List.eq_nil_of_length_eq_zero h)
    rw [findSuffix, if_neg (by omega), if_pos (by omega), findCommonPrefix_eq h0, ok_bind,
      if_neg hpos]
    rfl

end Suffix

/-! ## Appending -/

theorem copyChars_cut {B Q : Bytes} : ∀ {x A P old : Bytes} {s t : Nat}, s = A.length →
    t = P.length → old.length = x.length →
    copyChars (A ++ (x ++ B)) x.length s (P ++ (old ++ Q)) t = .ok (P ++ (x ++ Q)) := by
  intro x
  induction x with
  | nil =>
    intro A P old s t _ _ hold
    rw [List.eq_nil_of_length_eq_zero hold]
    rfl
  | cons a x ih =>
    intro A P old s t hs ht hold
    obtain ⟨b, old, rfl⟩ := List.exists_cons_of_length_eq_add_one hold
    have hload : load (A ++ (a :: x ++ B)) s = .ok a := load_cut hs
    have hstore : store (P ++ (b :: old ++ Q)) t a = .ok (P ++ (a :: (old ++ Q))) := store_cut ht
    have hrec : copyChars (A ++ [a] ++ (x ++ B)) x.length (s + 1) (P ++ [a] ++ (old ++ Q)) (t + 1) =
        .ok (P ++ [a] ++ (x ++ Q)) := by
      refine ih ?_ ?_ ?_
      · rw [List.length_append, hs]
        rfl
      · rw [List.length_append, ht]
        rfl
      · simpa using hold
    simp only [List.append_assoc, List.singleton_append] at hrec
    rw [List.length_cons, copyChars, hload, ok_bind, hstore, ok_bind]
    exact hrec

section Append

variable {c : Completer} {line junk x sep : Bytes} {cmdv : List Bytes}

/-- **The suffix is appended if there is room for it**: `x` is what is copied of the candidate. -/
theorem applySuffix_eq {A B : Bytes} (prompt : Bytes) (col : Nat)
    (hcand : cmdv.headD [] ++ [0] = A ++ (x ++ B)) (h0 : 0 ∉ x ++ sep)
    (hbuf : (line ++ 0 :: junk).length = c.cbsize) :
    ∃ r, applySuffix c prompt line (line ++ 0 :: junk) line.length col cmdv
        (some ⟨A.length, x.length, sep⟩) = .ok r ∧
      if c.cbsize - 2 ≤ line.length + (x ++ sep).length then r.buf = line ++ 0 :: junk
      else ∃ rest, r.buf = line ++ (x ++ sep) ++ 0 :: rest := by
  have hlen : (x ++ sep).length = x.length + sep.length := List.length_append
  simp only [applySuffix, hlen]
  by_cases hfull : c.cbsize - 2 ≤ line.length + (x.length + sep.length)
  · refine ⟨_, if_pos hfull, ?_⟩
    rw [if_pos hfull]
  · -- the area is cut where the candidate, the separator and the terminator go
    rw [List.length_append] at hbuf
    obtain ⟨old, tail, htail, hold⟩ := @exists_split (0 :: junk) x.length (by omega)
    have htaillen := congrArg List.length htail
    rw [List.length_append] at htaillen
    obtain ⟨oldSep, tail, rfl, holdSep⟩ := @exists_split tail sep.length (by omega)
    rw [List.length_append] at htaillen
    obtain ⟨b, rest, rfl⟩ := List.exists_cons_of_ne_nil (l := tail) (by
      rintro rfl
      rw [List.length_nil] at htaillen
      omega)
    have hcopy : copyChars (A ++ (x ++ B)) x.length A.length
        (line ++ (old ++ (oldSep ++ b :: rest))) line.length =
          .ok (line ++ (x ++ (oldSep ++ b :: rest))) := copyChars_cut rfl rfl hold
    have hsep : copyChars sep sep.length 0 (line ++ (x ++ (oldSep ++ b :: rest)))
        (line.length + x.length) = .ok (line ++ (x ++ (sep ++ b :: rest))) := by
      have h := @copyChars_cut [] (b :: rest) sep [] (line ++ x) oldSep 0 (line.length + x.length)
        rfl List.length_append.symm holdSep
      simpa only [List.nil_append, List.append_nil, List.append_assoc] using h
    have hend : store (line ++ (x ++ (sep ++ b :: rest)))
        (line.length + (x.length + sep.length)) 0 = .ok (line ++ (x ++ sep) ++ 0 :: rest) := by
      refine store_of_eq (P := line ++ (x ++ sep)) (c := b) ?_ ?_
      · simp only [List.append_assoc]
      · simp only [List.length_append]
    have hshown : strAt (line ++ (x ++ sep) ++ 0 :: rest)
        ((line ++ (x ++ sep) ++ 0 :: rest).length + 1) line.length = .ok (x ++ sep) := by
      rw [List.append_assoc line]
      refine strAt_cut h0 rfl ?_
      simp only [List.length_append]
      omega
    rw [if_neg hfull, htail, hcand, hcopy, ok_bind, hsep, ok_bind, hend, ok_bind, hshown]
    refine ⟨_, rfl, ?_⟩
    rw [if_neg hfull]
    exact ⟨rest, rfl⟩

end Append

/-! ## The completion of a line -/

/-- The names that a line can go on with. -/
def Completer.candidates (c : Completer) (es : List Bytes) (line : Bytes) : List Bytes :=
  Common.candidates c.table es (argsOf c.maxargs line) (isSpace (line.getLastD 0))

/-- The word being completed: the last one, or nothing if the line ends in a blank. -/
def wordOf (line : Bytes) : Bytes :=
  if isSpace (line.getLastD 0) = true then [] else ((words isBlank line).getLast?).getD []

/-- The one candidate and a blank, or the longest common prefix of several. -/
def Completes (cmdv : List Bytes) (text : Bytes) : Prop :=
  (∃ cand, cmdv = [cand] ∧ text = cand ++ [0x20]) ∨ 1 < cmdv.length ∧ IsLcp cmdv text

/-- What is wanted of a completion: the line goes on with `app`, it fits in its area with its
terminator, and if `app` is not empty, it completes the word. -/
def Completed (c : Completer) (es : List Bytes) (line buf : Bytes) : Prop :=
  ∃ app rest, buf = line ++ app ++ 0 :: rest ∧ 0 ∉ app ∧ (line ++ app).length < c.cbsize ∧
    (app ≠ [] → Completes (c.candidates es line) (wordOf line ++ app))

/-- There is no room behind the line for `len` more bytes. -/
def NoRoom (c : Completer) (line : Bytes) (len : Nat) : Prop := c.cbsize - 2 ≤ line.length + len

/-- `name` starts with the word being completed, and as many bytes of it are taken for typed. -/
def StartsWith (line typed name : Bytes) : Prop :=
  (wordOf line).length = typed.length ∧ wordOf line <+: name

/-- When nothing wrong is appended; `typed` is the last argument, the bytes of which are counted. -/
structure CompleteOk (c : Completer) (es : List Bytes) (line : Bytes) : Prop where
  one : ∀ cand, c.candidates es line = [cand] →
    ∃ typed, (argsOf c.maxargs line).getLast? = some typed ∧ typed.length ≤ cand.length ∧
      (NoRoom c line (cand.length - typed.length + 1) ∨ StartsWith line typed cand)
  several : 1 < (c.candidates es line).length → lcp (c.candidates es line) ≠ [] →
    ∃ typed, (argsOf c.maxargs line).getLast? = some typed ∧
      ((lcp (c.candidates es line)).length ≤ typed.length ∨
        NoRoom c line ((lcp (c.candidates es line)).length - typed.length) ∨
        StartsWith line typed (lcp (c.candidates es line)))

section Complete

variable {c : Completer} {es : List Bytes} {line junk tmp : Bytes} {argv : ArgPtrs} {col : Nat}

theorem lastCharOf_eq (line junk : Bytes) :
    lastCharOf (line ++ 0 :: junk) line.length = .ok (line.getLastD 0) := by
  rcases List.eq_nil_or_concat' line with rfl | ⟨init, a, rfl⟩
  · rfl
  · have hcut : init ++ [a] ++ 0 :: junk = init ++ a :: 0 :: junk := by simp
    rw [lastCharOf, if_pos (by simp), hcut, load_cut (by simp), List.getLastD_concat]

/-- The search for candidates, and what is done with them. -/
theorem cmdAutoComplete_eq (junk : Bytes) (n col : Nat) (h0 : 0 ∉ line)
    (htmp : line.length < tmp.length) (hargv : argv.length = c.maxargs + 1)
    (henv : Holds c.env es) :
    ∃ mem argv', ArgsAt mem argv' (argsOf c.maxargs line) ∧
      (c.candidates es line = [] →
        ∃ r, cmdAutoComplete c c.prompt tmp argv (line ++ 0 :: junk) n col = .ok r ∧
          r.buf = line ++ 0 :: junk) ∧
      (c.candidates es line ≠ [] →
        cmdAutoComplete c c.prompt tmp argv (line ++ 0 :: junk) n col =
          findSuffix mem (argsOf c.maxargs line).length argv' (c.candidates es line).length
            (c.candidates es line) >>=
          applySuffix c c.prompt line (line ++ 0 :: junk) n col (c.candidates es line)) := by
  have hline : strAt (line ++ 0 :: junk) ((line ++ 0 :: junk).length + 1) 0 = .ok line := by
    refine strAt_cut (P := []) h0 rfl ?_
    rw [List.length_append]
    omega
  obtain ⟨rest, hcopy, -⟩ := storeStr_zero htmp
  obtain ⟨argv', mem, hargs, hat⟩ := makeArgv_eq (R := rest) h0 hargv
  have hcmdv := completeCmdv_eq (c := c) henv hat (line.getLastD 0)
  have hrun : cmdAutoComplete c c.prompt tmp argv (line ++ 0 :: junk) n col =
      if ((c.candidates es line).length : Int) = 0 then
        if 1 < (argsOf c.maxargs line).length then .ok ⟨0, line ++ 0 :: junk, n, col, []⟩
        else .ok ⟨1, line ++ 0 :: junk, n, col, [.putc 7]⟩
      else findSuffix mem (argsOf c.maxargs line).length argv' (c.candidates es line).length
          (c.candidates es line) >>=
        applySuffix c c.prompt line (line ++ 0 :: junk) n col (c.candidates es line) := by
    rw [cmdAutoComplete, if_neg (fun h => h rfl), hline, ok_bind, lastCharOf_eq, ok_bind, hcopy,
      ok_bind]
    simp only [hargs, ok_bind, hcmdv]
    rfl
  refine ⟨mem, argv', hat, ?_, ?_⟩
  · intro hnil
    rw [hrun, if_pos (by rw [hnil]; rfl)]
    split
    · exact ⟨_, rfl, rfl⟩
    · exact ⟨_, rfl, rfl⟩
  · intro hne
    have hlen : ((c.candidates es line).length : Int) ≠ 0 := by
      have := List.length_pos_iff.mpr hne
      omega
    rw [hrun, if_neg hlen]

theorem append_drop_eq_iff {w p : Bytes} {k : Nat} (hk : k ≤ p.length) :
    w ++ p.drop k = p ↔ w.length = k ∧ w <+: p := by
  constructor
  · intro h
    refine ⟨?_, p.drop k, h⟩
    have hlen := congrArg List.length h
    rw [List.length_append, List.length_drop] at hlen
    omega
  · rintro ⟨rfl, rest, rfl⟩
    rw [List.drop_left]

/-- One candidate is completed by the rest of it and a blank. -/
theorem completes_one_iff {cand typed : Bytes} (hle : typed.length ≤ cand.length) :
    Completes [cand] (wordOf line ++ (cand.drop typed.length ++ [0x20])) ↔
      StartsWith line typed cand := by
  rw [StartsWith, ← append_drop_eq_iff hle, ← List.append_assoc]
  constructor
  · rintro (⟨cand', hcand, htext⟩ | ⟨hmany, -⟩)
    · cases hcand
      exact List.append_cancel_right htext
    · exact absurd hmany (by simp)
  · intro h
    rw [h]
    exact .inl ⟨cand, rfl, rfl⟩

theorem completes_several_iff {cmdv : List Bytes} {typed : Bytes} (hmany : 1 < cmdv.length)
    (hle : typed.length ≤ (lcp cmdv).length) :
    Completes cmdv (wordOf line ++ (lcp cmdv).drop typed.length) ↔
      StartsWith line typed (lcp cmdv) := by
  have hlcp : IsLcp cmdv (lcp cmdv) := by
    refine isLcp_lcp ?_
    rintro rfl
    cases hmany
  rw [StartsWith, ← append_drop_eq_iff hle]
  constructor
  · rintro (⟨cand, rfl, -⟩ | ⟨-, htext⟩)
    · exact absurd hmany (by simp)
    · exact htext.unique hlcp
  · intro h
    rw [h]
    exact .inr ⟨hmany, hlcp⟩

theorem completed_kept (hn : line.length < c.cbsize) :
    Completed c es line (line ++ 0 :: junk) := by
  refine ⟨[], junk, by rw [List.append_nil], List.not_mem_nil, ?_, fun h => absurd rfl h⟩
  rwa [List.append_nil]

/-- A text that is appended if there is room for it. -/
theorem completed_iff {app buf : Bytes} (h0 : 0 ∉ line) (hn : line.length < c.cbsize - 2)
    (hne : app ≠ []) (happ : 0 ∉ app)
    (hbuf : if c.cbsize - 2 ≤ line.length + app.length then buf = line ++ 0 :: junk
      else ∃ rest, buf = line ++ app ++ 0 :: rest) :
    Completed c es line buf ↔
      NoRoom c line app.length ∨ Completes (c.candidates es line) (wordOf line ++ app) := by
  by_cases hfull : c.cbsize - 2 ≤ line.length + app.length
  · rw [if_pos hfull] at hbuf
    subst hbuf
    exact iff_of_true (completed_kept (by omega)) (.inl hfull)
  · rw [if_neg hfull] at hbuf
    obtain ⟨rest, rfl⟩ := hbuf
    have hnul : ∀ {x : Bytes}, 0 ∉ x → 0 ∉ line ++ x := by
      intro x hx h
      exact (List.mem_append.mp h).elim h0 hx
    constructor
    · rintro ⟨app', rest', hcut, happ', -, hright⟩
      obtain ⟨heq, -⟩ := eq_of_append_nul (hnul happ) (hnul happ') hcut
      obtain rfl := List.append_cancel_left heq
      exact .inr (hright hne)
    · rintro (hroom | hright)
      · exact absurd hroom hfull
      · refine ⟨app, rest, rfl, happ, ?_, fun _ => hright⟩
        rw [List.length_append]
        omega

/-- The run behind a search that finds a suffix. -/
theorem right_iff_suffix {cmdv : List Bytes} {A x B sep : Bytes} (es : List Bytes) (col : Nat)
    (h0 : 0 ∉ line) (hn : line.length < c.cbsize - 2) (hbuf : (line ++ 0 :: junk).length = c.cbsize)
    (hcut : cmdv.headD [] ++ [0] = A ++ (x ++ B)) (hne : x ++ sep ≠ []) (hnul : 0 ∉ x ++ sep) :
    (∃ r, applySuffix c c.prompt line (line ++ 0 :: junk) line.length col cmdv
        (some ⟨A.length, x.length, sep⟩) = .ok r ∧ Completed c es line r.buf) ↔
      NoRoom c line (x ++ sep).length ∨
        Completes (c.candidates es line) (wordOf line ++ (x ++ sep)) := by
  obtain ⟨r, hr, hrbuf⟩ := applySuffix_eq c.prompt col hcut hnul hbuf
  have happ : Completed c es line r.buf ↔ _ := completed_iff h0 hn hne hnul hrbuf
  rw [hr]
  constructor
  · rintro ⟨r', hr', hcompleted⟩
    cases hr'
    exact happ.mp hcompleted
  · intro h
    exact ⟨r, rfl, happ.mpr h⟩

/-- A run that reads where nothing is. -/
theorem not_right_of_error {f : Fault} : ¬ ∃ r : Completion,
    (Except.error f : Exec Completion) = .ok r ∧ Completed c es line r.buf := by
  rintro ⟨r, hr, -⟩
  cases hr

section Run

variable {mem : Bytes} {argv' : ArgPtrs}

/-- **The run for one candidate.** -/
theorem right_iff_one {cand : Bytes} (h0 : 0 ∉ line) (hn : line.length < c.cbsize - 2)
    (hbuf : (line ++ 0 :: junk).length = c.cbsize)
    (hargs : ArgsAt mem argv' (argsOf c.maxargs line))
    (hcmdv : c.candidates es line = [cand]) (hcand : 0 ∉ cand) :
    (∃ r, (findSuffix mem (argsOf c.maxargs line).length argv' 1 [cand] >>=
        applySuffix c c.prompt line (line ++ 0 :: junk) line.length col [cand]) = .ok r ∧
      Completed c es line r.buf) ↔
    ∃ typed, (argsOf c.maxargs line).getLast? = some typed ∧ typed.length ≤ cand.length ∧
      (NoRoom c line (cand.length - typed.length + 1) ∨ StartsWith line typed cand) := by
  cases hlast : (argsOf c.maxargs line).getLast? with
  | none =>
    have hfault : findSuffix mem 0 argv' 1 [cand] = .error (.load 0) :=
      @findSuffix_no_argument mem argv' [cand] (by simpa using hcand) (.inl rfl)
    rw [List.getLast?_eq_none_iff.mp hlast, List.length_nil, hfault]
    refine iff_of_false not_right_of_error ?_
    rintro ⟨typed, h, -⟩
    cases h
  | some typed =>
    simp only [Option.some.injEq, exists_eq_left']
    by_cases hle : typed.length ≤ cand.length
    · have hx : (cand.drop typed.length).length = cand.length - typed.length := List.length_drop
      have hnul : 0 ∉ cand.drop typed.length ++ [0x20] := by
        intro h
        rcases List.mem_append.mp h with h | h
        · exact hcand (List.mem_of_mem_drop h)
        · simp at h
      have hcut : [cand].headD [] ++ [0] =
          cand.take typed.length ++ (cand.drop typed.length ++ [0]) := by
        rw [← List.append_assoc, List.take_append_drop]
        rfl
      have hright := right_iff_suffix es col h0 hn hbuf hcut (by simp) hnul
      rw [hcmdv, completes_one_iff hle, List.length_append, List.length_take_of_le hle, hx]
        at hright
      rw [findSuffix_one hargs hlast hcand hle, ok_bind]
      exact hright.trans (and_iff_right hle).symm
    · rw [findSuffix_behind hargs hlast (by omega)]
      exact iff_of_false not_right_of_error fun h => hle h.1

/-- **The run for several candidates.** -/
theorem right_iff_several {cmdv : List Bytes} (h0 : 0 ∉ line) (hn : line.length < c.cbsize - 2)
    (hbuf : (line ++ 0 :: junk).length = c.cbsize)
    (hargs : ArgsAt mem argv' (argsOf c.maxargs line))
    (hcmdv : c.candidates es line = cmdv) (hmany : 1 < cmdv.length)
    (hcand : ∀ cand ∈ cmdv, 0 ∉ cand) :
    (∃ r, (findSuffix mem (argsOf c.maxargs line).length argv' cmdv.length cmdv >>=
        applySuffix c c.prompt line (line ++ 0 :: junk) line.length col cmdv) = .ok r ∧
      Completed c es line r.buf) ↔
    (lcp cmdv ≠ [] → ∃ typed, (argsOf c.maxargs line).getLast? = some typed ∧
      ((lcp cmdv).length ≤ typed.length ∨ NoRoom c line ((lcp cmdv).length - typed.length) ∨
        StartsWith line typed (lcp cmdv))) := by
  have hlist : ∃ r, applySuffix c c.prompt line (line ++ 0 :: junk) line.length col cmdv none =
      .ok r ∧ Completed c es line r.buf := ⟨_, rfl, completed_kept (by omega)⟩
  by_cases hlcp : lcp cmdv = []
  · rw [findSuffix_apart hcand hmany hlcp, ok_bind]
    exact iff_of_true hlist fun h => absurd hlcp h
  rw [imp_iff_right hlcp]
  cases hlast : (argsOf c.maxargs line).getLast? with
  | none =>
    rw [List.getLast?_eq_none_iff.mp hlast, List.length_nil,
      findSuffix_no_argument hcand (.inr ⟨hmany, hlcp⟩)]
    refine iff_of_false not_right_of_error ?_
    rintro ⟨typed, h, -⟩
    cases h
  | some typed =>
    simp only [Option.some.injEq, exists_eq_left']
    rw [findSuffix_several hargs hcand hmany hlast, ok_bind]
    by_cases hlt : typed.length < (lcp cmdv).length
    · obtain ⟨cand, rest, rfl⟩ := List.exists_cons_of_ne_nil (l := cmdv) (by
        rintro rfl
        cases hmany)
      -- the prefix is a part of the first candidate
      obtain ⟨behind, hbehind⟩ : lcp (cand :: rest) <+: cand := foldl_commonPrefix_prefix cand rest
      have hx : ((lcp (cand :: rest)).drop typed.length).length =
          (lcp (cand :: rest)).length - typed.length := List.length_drop
      have hnul : 0 ∉ (lcp (cand :: rest)).drop typed.length ++ [] := by
        intro h
        rw [List.append_nil] at h
        refine hcand cand List.mem_cons_self ?_
        rw [← hbehind]
        exact List.mem_append_left _ (List.mem_of_mem_drop h)
      have hne : (lcp (cand :: rest)).drop typed.length ++ [] ≠ [] := by
        intro h
        have := congrArg List.length h
        rw [List.append_nil, hx, List.length_nil] at this
        omega
      have hcut : (cand :: rest).headD [] ++ [0] = (lcp (cand :: rest)).take typed.length ++
          ((lcp (cand :: rest)).drop typed.length ++ (behind ++ [0])) := by
        rw [← List.append_assoc, List.take_append_drop, ← List.append_assoc, hbehind]
        rfl
      have hright := right_iff_suffix es col h0 hn hbuf hcut hne hnul
      rw [hcmdv, List.append_nil, completes_several_iff hmany (by omega), hx,
        List.length_take_of_le (by omega)] at hright
      rw [if_pos hlt]
      refine hright.trans ⟨.inr, ?_⟩
      rintro (h | h)
      · omega
      · exact h
    · rw [if_neg hlt]
      exact iff_of_true hlist (.inl (by omega))

end Run

/-- **A completion appends what is wanted, or nothing, and reads nothing that is not there**,
exactly if the last argument has as many bytes as the word being completed and the candidate, or
the common prefix, starts with that word; or nothing is appended. -/
theorem cmdAutoComplete_right_iff {prompt : Bytes} (h0 : 0 ∉ line) (hn : line.length < c.cbsize - 2)
    (hbuf : (line ++ 0 :: junk).length = c.cbsize) (htmp : tmp.length = c.cbsize)
    (hargv : argv.length = c.maxargs + 1) (henv : Holds c.env es)
    (htable : ∀ entry ∈ c.table, 0 ∉ entry.1) :
    (∃ r, cmdAutoComplete c prompt tmp argv (line ++ 0 :: junk) line.length col = .ok r ∧
      Completed c es line r.buf) ↔ (prompt = c.prompt → CompleteOk c es line) := by
  have hkept : Completed c es line (line ++ 0 :: junk) := completed_kept (by omega)
  by_cases hprompt : prompt = c.prompt
  · subst hprompt
    rw [imp_iff_right rfl]
    obtain ⟨mem, argv', hargs, hnone, hsome⟩ := cmdAutoComplete_eq junk line.length col h0
      (by omega : line.length < tmp.length) hargv henv
    have hnul : ∀ cand ∈ c.candidates es line, 0 ∉ cand :=
      fun cand h => zero_notMem_candidate htable henv.entry h
    match hcmdv : c.candidates es line with
    | [] =>
      obtain ⟨r, hr, hrbuf⟩ := hnone hcmdv
      refine iff_of_true ⟨r, hr, hrbuf ▸ hkept⟩ ⟨?_, ?_⟩
      · intro cand h
        rw [hcmdv] at h
        cases h
      · intro h
        rw [hcmdv] at h
        cases h
    | [cand] =>
      rw [hsome (by simp [hcmdv]), hcmdv]
      rw [hcmdv] at hnul
      refine (right_iff_one h0 hn hbuf hargs hcmdv (hnul cand List.mem_cons_self)).trans ⟨?_, ?_⟩
      · intro h
        refine ⟨?_, ?_⟩
        · intro cand' hcand'
          rw [hcmdv] at hcand'
          cases hcand'
          exact h
        · intro hmany
          rw [hcmdv] at hmany
          exact absurd hmany (by simp)
      · intro h
        exact h.one cand hcmdv
    | cand :: other :: rest =>
      have hmany : 1 < (cand :: other :: rest).length := by simp
      rw [hsome (by simp [hcmdv]), hcmdv]
      rw [hcmdv] at hnul
      refine (right_iff_several h0 hn hbuf hargs hcmdv hmany hnul).trans ⟨?_, ?_⟩
      · intro h
        refine ⟨?_, ?_⟩
        · intro cand' hcand'
          rw [hcmdv] at hcand'
          cases hcand'
        · intro _
          rw [hcmdv]
          exact h
      · intro h
        have hseveral := h.several
        rw [hcmdv] at hseveral
        exact hseveral hmany
  · refine iff_of_true ⟨⟨0, line ++ 0 :: junk, line.length, col, []⟩, ?_, hkept⟩
      fun h => absurd h hprompt
    rw [cmdAutoComplete, if_pos hprompt]
    rfl

/-- Two commands, the second one for variables, and one variable. -/
def oneVariable : Completer where
  cbsize := 24
  maxargs := 16
  prompt := str "=> "
  table := [(str "cp", false), (str "run", true)]
  env := str "bootcmd=a" ++ [0, 0]

theorem holds_oneVariable : Holds oneVariable.env [str "bootcmd=a"] := by
  refine ⟨?_, [], by decide⟩
  intro e he
  rw [List.mem_singleton.mp he]
  exact ⟨by decide, by decide⟩

theorem cmdAutoComplete_right_iff_run : ∃ r, cmdAutoComplete oneVariable (str "=> ")
    (List.replicate 24 0) (List.replicate 17 none) (str "run boot" ++ 0 :: List.replicate 15 7)
      8 11 = .ok r ∧ Completed oneVariable [str "bootcmd=a"] (str "run boot") r.buf := by
  refine (cmdAutoComplete_right_iff (by decide) (by decide) (by decide) (by decide) (by decide)
    holds_oneVariable (by decide)).mpr fun _ => ⟨?_, ?_⟩
  · intro cand hcand
    obtain rfl : cand = str "bootcmd" := by
      have h : oneVariable.candidates [str "bootcmd=a"] (str "run boot") = [str "bootcmd"] := by
        decide
      rw [h] at hcand
      exact (List.singleton_inj.mp hcand).symm
    exact ⟨str "boot", by decide, by decide, .inr ⟨by decide, by decide⟩⟩
  · intro hmany
    exact absurd hmany (by decide)

/-- Behind `run ` the name of the only variable is completed from its fourth byte on, for the three
bytes of `run`. -/
theorem cmdAutoComplete_blank : ∃ r, cmdAutoComplete oneVariable (str "=> ")
    (List.replicate 24 0) (List.replicate 17 none) (str "run " ++ 0 :: List.replicate 19 7)
      4 7 = .ok r ∧ r.buf = str "run tcmd " ++ 0 :: List.replicate 14 7 ∧
    ¬ Completed oneVariable [str "bootcmd=a"] (str "run ") r.buf := by
  refine ⟨⟨1, str "run tcmd " ++ 0 :: List.replicate 14 7, 9, 12, [.puts (str "tcmd ")]⟩,
    by decide, rfl, ?_⟩
  rintro ⟨app, rest, hcut, h0, -, hright⟩
  have hnul : 0 ∉ str "run " ++ app := by
    intro h
    exact (List.mem_append.mp h).elim (by decide) h0
  obtain ⟨heq, -⟩ := eq_of_append_nul (s := str "run tcmd ") (by decide) hnul hcut
  have happ : str "run " ++ str "tcmd " = str "run " ++ app := heq
  obtain rfl := List.append_cancel_left happ
  have hcmdv : oneVariable.candidates [str "bootcmd=a"] (str "run ") = [str "bootcmd"] := by
    decide
  rcases hright (by decide) with ⟨cand, hcand, htext⟩ | ⟨hmany, -⟩
  · rw [hcmdv] at hcand
    rw [← List.singleton_inj.mp hcand] at htext
    revert htext
    decide
  · rw [hcmdv] at hmany
    revert hmany
    decide

/-- With a modifier of the length, `cp` is read behind its terminator. -/
example : cmdAutoComplete oneVariable (str "=> ") (List.replicate 24 0) (List.replicate 17 none)
    (str "cp.b" ++ 0 :: List.replicate 19 7) 4 7 = .error (.load 4) := by
  decide

/-! ### Lines that are completed well -/

end Complete

end UBoot.Common
