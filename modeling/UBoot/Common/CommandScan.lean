import UBoot.Common.Command
import Mathlib.Data.List.Basic
import Mathlib.Order.Nat

/-!
# The separators of a command line

`nextSep` is the separator that the scan of `run_command` finds: the first semicolon behind the
start that is neither escaped nor behind an odd number of quotes.

* `findSep_eq`: the scan finds it.
* `runCommand_eq`: the commands of a line are `segments`, if it does not start with a quote.
-/

namespace UBoot.Common

open UBoot.Lib

section Quotes

variable {r : Bytes} {i j : Nat}

/-- The character stands behind a backslash. -/
def Escaped (r : Bytes) (i : Nat) : Prop := 0 < i ∧ r[i - 1]? = some backslash

instance : Decidable (Escaped r i) := inferInstanceAs (Decidable (_ ∧ _))

/-- A quote that is not escaped. -/
def IsQuote (r : Bytes) (i : Nat) : Prop := r[i]? = some quoteMark ∧ ¬ Escaped r i

instance : Decidable (IsQuote r i) := inferInstanceAs (Decidable (_ ∧ _))

/-- How many quotes are in front of a position. -/
def quotes (r : Bytes) (i : Nat) : Nat := (List.range i).countP fun k => IsQuote r k

/-- A semicolon behind the start that is neither escaped nor between quotes. -/
def Separates (r : Bytes) (i : Nat) : Prop :=
  0 < i ∧ r[i]? = some semicolon ∧ ¬ Escaped r i ∧ quotes r i % 2 = 0

instance : Decidable (Separates r i) := inferInstanceAs (Decidable (_ ∧ _))

/-- The first separator, or the end of the string. -/
def nextSep (r : Bytes) : Nat :=
  ((List.range r.length).find? fun i => Separates r i).getD r.length

theorem quotes_succ (r : Bytes) (i : Nat) :
    quotes r (i + 1) = quotes r i + if IsQuote r i then 1 else 0 := by
  rw [quotes, List.range_succ, List.countP_append, quotes, List.countP_singleton]
  by_cases h : IsQuote r i <;> simp [h]

theorem nextSep_le (r : Bytes) : nextSep r ≤ r.length := by
  unfold nextSep
  cases h : (List.range r.length).find? fun i => Separates r i with
  | none => exact le_rfl
  | some i =>
    have := List.mem_range.mp (List.mem_of_find?_eq_some h)
    exact this.le

/-- Nothing in front of the next separator separates. -/
theorem not_separates_of_lt (h : i < nextSep r) : ¬ Separates r i := by
  intro hsep
  have hlt : i < r.length := h.trans_le (nextSep_le r)
  unfold nextSep at h
  cases hfind : (List.range r.length).find? fun i => Separates r i with
  | none =>
    have := List.find?_eq_none.mp hfind i (List.mem_range.mpr hlt)
    exact this (by simpa using hsep)
  | some j =>
    rw [hfind, Option.getD_some] at h
    rw [List.find?_range_eq_some] at hfind
    have := hfind.2.2 i h
    simp [hsep] at this

theorem separates_nextSep (h : nextSep r < r.length) : Separates r (nextSep r) := by
  unfold nextSep at h ⊢
  cases hfind : (List.range r.length).find? fun i => Separates r i with
  | none =>
    rw [hfind, Option.getD_none] at h
    omega
  | some j =>
    rw [Option.getD_some]
    simpa using List.find?_some hfind

/-- The position of the next separator. -/
theorem nextSep_eq (hle : i ≤ r.length) (hbefore : ∀ j < i, ¬ Separates r j)
    (hat : i = r.length ∨ Separates r i) : nextSep r = i := by
  rcases Nat.lt_trichotomy (nextSep r) i with hlt | heq | hgt
  · exact absurd (separates_nextSep (by omega)) (hbefore _ hlt)
  · exact heq
  · rcases hat with rfl | hsep
    · exact absurd (nextSep_le r) (by omega)
    · exact absurd hsep (not_separates_of_lt hgt)

end Quotes

/-! ## The scan for separators -/

section Scan

variable {A r Q : Bytes} {i fuel : Nat}

/-- The first character of a command stands behind a separator, or is no quote. -/
def StartOk (A r : Bytes) : Prop := A.getLast? = some 0 ∨ r.head? ≠ some quoteMark

theorem load_mid {m : Bytes} {c : UInt8} (hi : r[i]? = some c) :
    load (A ++ (r ++ m)) (A.length + i) = .ok c := by
  have hlt : i < r.length := (List.getElem?_eq_some_iff.mp hi).1
  rw [load, List.getElem?_append_right (by omega), Nat.add_sub_cancel_left,
    List.getElem?_append_left hlt, hi]

theorem load_end {m : Bytes} : load (A ++ (r ++ 0 :: m)) (A.length + r.length) = .ok 0 := by
  rw [load, List.getElem?_append_right (by omega), Nat.add_sub_cancel_left,
    List.getElem?_append_right le_rfl, Nat.sub_self]
  rfl

/-- What stands in front of a character that is looked at. -/
theorem loadBefore_ok {m : Bytes} {c : UInt8} (hc : r[i]? = some c) (hstart : StartOk A r)
    (hquote : i = 0 → c = quoteMark) :
    ∃ p, loadBefore (A ++ (r ++ m)) (A.length + i) = .ok p ∧
      (p = backslash ↔ Escaped r i) := by
  cases i with
  | zero =>
    obtain rfl := hquote rfl
    rcases hstart with hlast | hfirst
    · obtain ⟨B, rfl⟩ : ∃ B, A = B ++ [0] := by
        obtain ⟨ys, hys⟩ := List.getLast?_eq_some_iff.mp hlast
        exact ⟨ys, hys⟩
      refine ⟨0, ?_, ?_⟩
      · rw [List.length_append, List.length_singleton, Nat.add_zero, loadBefore,
          List.append_assoc, List.singleton_append]
        exact load_cut rfl
      · exact iff_of_false (by decide) fun h => absurd h.1 (by omega)
    · rw [List.head?_eq_getElem?] at hfirst
      exact absurd hc hfirst
  | succ i =>
    obtain ⟨p, hp⟩ : ∃ p, r[i]? = some p := by
      have hlt := (List.getElem?_eq_some_iff.mp hc).1
      exact ⟨r[i], List.getElem?_eq_getElem (by omega)⟩
    refine ⟨p, ?_, ?_⟩
    · rw [← Nat.add_assoc, loadBefore, load_mid hp]
    · simp [Escaped, hp]

theorem toggle_ok {m : Bytes} {c : UInt8} {inquotes : Bool} (hc : r[i]? = some c)
    (hstart : StartOk A r) (hin : inquotes = decide (quotes r i % 2 = 1)) :
    toggle (A ++ (r ++ m)) (A.length + i) c inquotes =
      .ok (decide (quotes r (i + 1) % 2 = 1)) := by
  rw [quotes_succ]
  unfold toggle
  by_cases hq : c = quoteMark
  · obtain ⟨p, hp, hesc⟩ := @loadBefore_ok A r i m c hc hstart fun _ => hq
    rw [if_pos hq, hp, ok_bind]
    subst hq hin
    by_cases he : Escaped r i
    · have hno : ¬ IsQuote r i := fun h => h.2 he
      rw [if_neg (not_not.mpr (hesc.mpr he)), if_neg hno]
      rfl
    · have hquote : IsQuote r i := ⟨hc, he⟩
      rw [if_pos (fun h => he (hesc.mp h)), if_pos hquote]
      have hflip : (!decide (quotes r i % 2 = 1)) = decide ((quotes r i + 1) % 2 = 1) := by
        rcases Nat.mod_two_eq_zero_or_one (quotes r i) with h | h <;> simp [h, Nat.add_mod]
      rw [hflip]
      rfl
  · have hno : ¬ IsQuote r i := by
      rintro ⟨h, -⟩
      rw [hc] at h
      exact hq (Option.some.inj h)
    rw [if_neg hq, if_neg hno, hin]
    rfl

theorem isSeparator_ok {m : Bytes} {c : UInt8} {inquotes : Bool} (hc : r[i]? = some c)
    (hstart : StartOk A r) (hin : inquotes = decide (quotes r (i + 1) % 2 = 1)) :
    isSeparator (A ++ (r ++ m)) A.length (A.length + i) c inquotes =
      .ok (decide (Separates r i)) := by
  unfold isSeparator
  by_cases hsemi : c = semicolon
  · subst hsemi
    have hno : ¬ IsQuote r i := by
      rintro ⟨h, -⟩
      rw [hc] at h
      exact absurd (Option.some.inj h) (by decide)
    have hnoquote : quotes r (i + 1) = quotes r i := by
      rw [quotes_succ, if_neg hno]
      rfl
    rw [hnoquote] at hin
    by_cases hfirst : i = 0
    · rw [if_neg (by simp [hfirst])]
      simp [Separates, hfirst]
    · obtain ⟨p, hp, hesc⟩ := @loadBefore_ok A r i m _ hc hstart fun h => absurd h hfirst
      by_cases hodd : quotes r i % 2 = 1
      · rw [if_neg (by simp [hin, hodd])]
        simp [Separates, hodd]
      · rw [if_pos (by simp [hin, hodd, hfirst]), hp, ok_bind]
        have heven : quotes r i % 2 = 0 := by omega
        have hpos : 0 < i := by omega
        by_cases he : Escaped r i <;> simp [Separates, hc, hesc, he, heven, hpos, pure, Except.pure]
  · rw [if_neg (by simp [hsemi])]
    simp [Separates, hc, hsemi]

/-- The scan finds the next separator. -/
theorem findSep_eq (h0 : 0 ∉ r) (hstart : StartOk A r) (hle : i ≤ r.length)
    (hbefore : ∀ j < i, ¬ Separates r j) (hfuel : r.length < i + fuel) :
    findSep (A ++ (r ++ 0 :: Q)) A.length fuel (A.length + i) (decide (quotes r i % 2 = 1)) =
      .ok (A.length + nextSep r) := by
  induction fuel generalizing i with
  | zero => omega
  | succ fuel ih =>
    rcases hle.lt_or_eq with hlt | rfl
    · have hc : r[i]? = some r[i] := List.getElem?_eq_getElem hlt
      have hne : r[i] ≠ 0 := fun h => h0 (h ▸ List.getElem_mem hlt)
      rw [findSep, load_mid hc, ok_bind, if_neg hne, toggle_ok hc hstart rfl, ok_bind,
        isSeparator_ok hc hstart rfl, ok_bind]
      by_cases hsep : Separates r i
      · rw [if_pos (by simpa using hsep), nextSep_eq hle hbefore (Or.inr hsep)]
        rfl
      · rw [if_neg (by simpa using hsep), Nat.add_assoc]
        refine ih hlt ?_ (by omega)
        intro j hj
        rcases Nat.lt_succ_iff_lt_or_eq.mp hj with hj | rfl
        · exact hbefore j hj
        · exact hsep
    · rw [findSep, load_end, ok_bind, if_pos rfl, nextSep_eq le_rfl hbefore (Or.inl rfl)]
      rfl

end Scan

/-! ## The commands of a line -/

section Segments

variable {W : Type} {sh : Shell W} {cbsize fuel start : Nat} {cmd A r Q stack : Bytes} {w : W}

/-- The commands of a line from a start on. -/
def segments (sh : Shell W) (cbsize : Nat) (cmd : Bytes) : Nat → Nat → W → List (Segment W)
  | 0, _, _ => []
  | fuel + 1, start, w =>
    let r := cmd.drop start
    if r = [] then []
    else
      let done := sh.exec w (processMacros (sh.getenv w) cbsize (r.take (nextSep r)))
      ⟨start, start + nextSep r, w⟩ ::
        if done.2 then [] else segments sh cbsize cmd fuel (start + nextSep r + 1) done.1

theorem nextSep_pos (h : r ≠ []) : 0 < nextSep r := by
  have hlen := List.length_pos_iff.mpr h
  by_contra hzero
  exact absurd (separates_nextSep (by omega)).1 hzero

/-- The token is terminated in the buffer. -/
theorem limitToken_eq (h0 : 0 ∉ r) :
    ∃ Q', A ++ (r.take (nextSep r) ++ 0 :: Q') =
        (if nextSep r < r.length then A ++ (r.take (nextSep r) ++ 0 ::
          (r.drop (nextSep r + 1) ++ 0 :: Q)) else A ++ (r ++ 0 :: Q)) ∧
      limitToken (A ++ (r ++ 0 :: Q)) (A.length + nextSep r) =
        .ok (A ++ (r.take (nextSep r) ++ 0 :: Q'),
          A.length + nextSep r + if nextSep r < r.length then 1 else 0) := by
  by_cases hlt : nextSep r < r.length
  · refine ⟨r.drop (nextSep r + 1) ++ 0 :: Q, by rw [if_pos hlt], ?_⟩
    have hc : r[nextSep r]? = some r[nextSep r] := List.getElem?_eq_getElem hlt
    have hne : r[nextSep r] ≠ 0 := fun h => h0 (h ▸ List.getElem_mem hlt)
    have hsplit : A ++ (r ++ 0 :: Q) =
        (A ++ r.take (nextSep r)) ++ r[nextSep r] :: (r.drop (nextSep r + 1) ++ 0 :: Q) := by
      rw [List.append_assoc, ← List.cons_append, ← List.drop_eq_getElem_cons hlt,
        ← List.append_assoc (r.take _), List.take_append_drop]
    have hpos : A.length + nextSep r = (A ++ r.take (nextSep r)).length := by
      rw [List.length_append, List.length_take, Nat.min_eq_left hlt.le]
    have hstore : store (A ++ (r ++ 0 :: Q)) (A.length + nextSep r) 0 =
        .ok (A ++ (r.take (nextSep r) ++ 0 :: (r.drop (nextSep r + 1) ++ 0 :: Q))) := by
      rw [hsplit, store_cut hpos, List.append_assoc]
    rw [limitToken, load_mid hc, ok_bind, if_pos hne, hstore, if_pos hlt]
    rfl
  · have hend : nextSep r = r.length := by
      have := nextSep_le r
      omega
    refine ⟨Q, by rw [if_neg hlt, hend, List.take_length], ?_⟩
    rw [limitToken, hend, load_end, ok_bind, if_neg (by simp), if_neg (by omega), List.take_length]
    rfl

theorem runSegments_eq (h0 : 0 ∉ cmd) (hA : A.length = start) (hr : r = cmd.drop start)
    (hstart : StartOk A r) (hfuel : r.length < fuel) :
    runSegments sh cbsize fuel (A ++ (r ++ 0 :: Q)) start w =
      .ok (segments sh cbsize cmd fuel start w) := by
  induction fuel generalizing A r Q start w with
  | zero => omega
  | succ fuel ih =>
    have h0r : 0 ∉ r := fun h => h0 (List.mem_of_mem_drop (hr ▸ h))
    rw [runSegments, segments, ← hr]
    by_cases hnil : r = []
    · subst hnil
      rw [List.nil_append, load_cut hA.symm, ok_bind, if_pos rfl, if_pos rfl]
      rfl
    · obtain ⟨c, tail, rfl⟩ := List.exists_cons_of_ne_nil hnil
      generalize hcons : c :: tail = r at *
      have hfirst : r[0]? = some c := by rw [← hcons]; rfl
      have hne : c ≠ 0 := by
        rintro rfl
        exact h0r (List.mem_of_getElem? hfirst)
      have hpos := nextSep_pos hnil
      have hle := nextSep_le r
      have hload : load (A ++ (r ++ 0 :: Q)) start = .ok c := by
        have := @load_mid A r 0 (0 :: Q) c hfirst
        rwa [Nat.add_zero, hA] at this
      have hscan : findSep (A ++ (r ++ 0 :: Q)) start ((A ++ (r ++ 0 :: Q)).length + 1) start
          false = .ok (start + nextSep r) := by
        have := @findSep_eq A r Q 0 ((A ++ (r ++ 0 :: Q)).length + 1) h0r hstart (Nat.zero_le _)
          (fun j hj => by omega) (by simp only [List.length_append, List.length_cons]; omega)
        rwa [Nat.add_zero, hA] at this
      obtain ⟨Q', hbuf, hlimit⟩ := @limitToken_eq A r Q h0r
      rw [hA] at hlimit
      have htoken : strAt (A ++ (r.take (nextSep r) ++ 0 :: Q'))
          ((A ++ (r.take (nextSep r) ++ 0 :: Q')).length + 1) start = .ok (r.take (nextSep r)) := by
        refine strAt_cut (fun h => h0r (List.mem_of_mem_take h)) hA.symm ?_
        simp only [List.length_append, List.length_cons]
        omega
      rw [hload, ok_bind, if_neg hne, hscan, ok_bind, hlimit, ok_bind]
      dsimp only
      rw [htoken, ok_bind, if_neg hnil]
      generalize sh.exec w (processMacros (sh.getenv w) cbsize (r.take (nextSep r))) = done
      obtain ⟨w', stopped⟩ := done
      cases stopped with
      | true => rfl
      | false =>
        rw [if_neg Bool.false_ne_true, if_neg Bool.false_ne_true]
        dsimp only
        by_cases hlt : nextSep r < r.length
        · rw [if_pos hlt] at hbuf ⊢
          have hrest : r.drop (nextSep r + 1) = cmd.drop (start + nextSep r + 1) := by
            rw [hr, List.drop_drop, Nat.add_assoc]
          have hnext := @ih (start + nextSep r + 1) (A ++ (r.take (nextSep r) ++ [0]))
            (r.drop (nextSep r + 1)) Q w'
            (by simp only [List.length_append, List.length_take, List.length_singleton]; omega)
            hrest (Or.inl (by simp)) (by rw [List.length_drop]; omega)
          rw [hbuf]
          simp only [List.append_assoc, List.singleton_append] at hnext
          rw [hnext]
          rfl
        · rw [if_neg hlt] at hbuf ⊢
          have hend : nextSep r = r.length := by omega
          have hlen : start + r.length = cmd.length := by
            have hpos' : 0 < r.length := by omega
            rw [hr, List.length_drop] at hpos' ⊢
            omega
          obtain ⟨fuel, rfl⟩ : ∃ k, fuel = k + 1 := ⟨fuel - 1, by omega⟩
          have hload' : load (A ++ (r ++ 0 :: Q)) (start + r.length) = .ok 0 := by
            rw [← hA]
            exact load_end
          rw [hbuf, runSegments, hend, Nat.add_zero, hload', ok_bind, if_pos rfl, segments,
            if_pos (List.drop_of_length_le (by omega))]
          rfl

/-- **The commands of a line** that does not start with a quote. -/
theorem runCommand_eq (h0 : 0 ∉ cmd) (hlen : cmd.length < cbsize) (hstack : stack.length = cbsize)
    (hquote : cmd.head? ≠ some quoteMark) :
    runCommand sh cbsize stack cmd w = .ok (segments sh cbsize cmd (cmd.length + 1) 0 w) := by
  unfold runCommand
  by_cases hnil : cmd = []
  · rw [if_pos hnil, segments, List.drop_zero, if_pos hnil]
  · rw [if_neg hnil, if_neg (by omega)]
    obtain ⟨old, Q, rfl, hold⟩ := @exists_split stack (cmd.length + 1) (by omega)
    have hcopy := @storeStr_cut Q cmd old [] 0 rfl hold
    rw [List.nil_append, List.nil_append] at hcopy
    rw [hcopy, ok_bind]
    exact @runSegments_eq W sh cbsize (cmd.length + 1) 0 cmd [] cmd Q w h0 rfl rfl
      (Or.inr hquote) (by omega)

/-- A line that starts with a quote makes the scan read in front of the buffer. -/
theorem runCommand_fault (hlen : cmd.length < cbsize) (hstack : stack.length = cbsize)
    (hquote : cmd.head? = some quoteMark) :
    ∃ fault, runCommand sh cbsize stack cmd w = .error fault := by
  obtain ⟨tail, rfl⟩ : ∃ tail, cmd = quoteMark :: tail := by
    cases cmd with
    | nil => simp at hquote
    | cons c tail => exact ⟨tail, by rw [Option.some.inj hquote]⟩
  obtain ⟨old, Q, rfl, hold⟩ := @exists_split stack ((quoteMark :: tail).length + 1) (by omega)
  have hcopy := @storeStr_cut Q (quoteMark :: tail) old [] 0 rfl hold
  rw [List.nil_append, List.nil_append] at hcopy
  refine ⟨.load (2 ^ 32 - 1), ?_⟩
  rw [runCommand, if_neg (by simp), if_neg (by omega), hcopy, ok_bind]
  rfl

end Segments

end UBoot.Common
