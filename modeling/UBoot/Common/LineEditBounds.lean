import UBoot.Common.LineEdit
import UBoot.Lib.Run
import Mathlib.Order.Nat

/-!
# The bounds of the line editor

The room check of `cread_add_char` lets a line grow to the size of the buffer, one more than its
terminator leaves.  A run is a sequence of calls of `cread_line` with their characters.

* `creadKey_ok`: a character keeps what holds of the line and of the history, if the line does not
  grow beyond 255 characters by it.
* `console_bounded`: so in every run of such characters the editor stays in its areas.
-/

namespace UBoot.Common

open UBoot.Lib

/-! ## One access -/

section Access

variable {m : Bytes} {i j n a b : Nat} {c : UInt8}

theorem usub_eq (h : b ≤ a) (ha : a < 2 ^ 32) : usub a b = a - b := by
  unfold usub
  omega

theorem store_ok (h : i < m.length) : store m i c = .ok (m.set i c) := if_pos h

theorem load_ok (h : i < m.length) : load m i = .ok m[i] := by
  rw [load, List.getElem?_eq_getElem h]

theorem putnstr_ok (h : i + n ≤ m.length) : putnstr m i n = .ok () := by
  induction n generalizing i with
  | zero => rfl
  | succ n ih =>
    rw [putnstr, load_ok (by omega), ok_bind]
    split
    · rfl
    · exact ih (by omega)

theorem memmove_ok (hsrc : j + n ≤ m.length) (hdst : i + n ≤ m.length) :
    ∃ m', memmove m i j n = .ok m' ∧ m'.length = m.length := by
  unfold memmove
  split
  · exact ⟨m, rfl, rfl⟩
  · rw [if_neg (by omega), if_neg (by omega)]
    refine ⟨_, rfl, ?_⟩
    rw [List.length_append, List.length_append, List.length_take, List.length_take,
      List.length_drop, List.length_drop]
    omega

end Access

/-! ## The line -/

/-- A line that has at most `n` characters. -/
structure Editor.Ok (n : Nat) (e : Editor) : Prop where
  buf_length : e.buf.length = maxCmdbufSize
  escSave_length : e.escSave.length = 8
  num_le : e.num ≤ e.eolNum
  eolNum_le : e.eolNum ≤ n
  escLen_le : e.escLen ≤ 2

/-- How far the line reaches when `k` characters are added. -/
def Editor.reach (e : Editor) (k : Nat) : Nat :=
  if e.insert then e.eolNum + k else max e.eolNum (e.num + k)

section Line

variable {e : Editor} {n k : Nat} {c : UInt8} {str : Bytes} {h : Hist}

theorem Editor.Ok.mono {n' : Nat} (h : e.Ok n) (hle : e.eolNum ≤ n') : e.Ok n' :=
  ⟨h.buf_length, h.escSave_length, h.num_le, hle, h.escLen_le⟩

/-- The character is put into its place, in front of the end of the line. -/
theorem placeChar_ok (hbuf : e.buf.length = maxCmdbufSize) (hnum : e.num < e.eolNum)
    (heol : e.eolNum ≤ maxCmdbufSize) (insert : Bool) :
    ∃ buf, Editor.placeChar c insert e = .ok { e with buf := buf, num := e.num + 1 } ∧
      buf.length = maxCmdbufSize := by
  have hsize : maxCmdbufSize = 256 := rfl
  cases insert with
  | true =>
    have hwlen : usub e.eolNum e.num = e.eolNum - e.num := usub_eq hnum.le (by omega)
    obtain ⟨buf, hgap, hlen⟩ : ∃ buf, Editor.openGap e.buf e.num (e.eolNum - e.num) = .ok buf ∧
        buf.length = maxCmdbufSize := by
      unfold Editor.openGap
      split
      · obtain ⟨buf, hmove, hlen⟩ := @memmove_ok e.buf (e.num + 1) e.num (e.eolNum - e.num - 1)
          (by omega) (by omega)
        exact ⟨buf, hmove, hlen.trans hbuf⟩
      · exact ⟨e.buf, rfl, hbuf⟩
    have hset : (buf.set e.num c).length = maxCmdbufSize := by rw [List.length_set, hlen]
    refine ⟨buf.set e.num c, ?_, hset⟩
    rw [Editor.placeChar, if_pos rfl, hwlen]
    dsimp only
    rw [hgap, ok_bind, store_ok (by omega), ok_bind,
      putnstr_ok (by omega), ok_bind]
    rfl
  | false =>
    have hset : (e.buf.set e.num c).length = maxCmdbufSize := by rw [List.length_set, hbuf]
    refine ⟨e.buf.set e.num c, ?_, hset⟩
    rw [Editor.placeChar, if_neg Bool.false_ne_true, store_ok (by omega), ok_bind,
      putnstr_ok (by omega), ok_bind]
    rfl

/-- What adding characters leaves: the areas, the modes, and how far the line reaches. -/
structure Added (e : Editor) (k : Nat) (e' : Editor) : Prop where
  ok : e'.Ok maxCmdbufSize
  insert_eq : e'.insert = e.insert
  escLen_eq : e'.escLen = e.escLen
  num_le : e'.num ≤ e.num + k
  eolNum_le : e'.eolNum ≤ e.reach k

theorem creadAddChar_ok (he : e.Ok maxCmdbufSize) :
    ∃ e', e.creadAddChar c e.insert maxCmdbufSize = .ok e' ∧ Added e 1 e' := by
  have hsize : maxCmdbufSize = 256 := rfl
  have hnum := he.num_le
  have heol := he.eolNum_le
  have hkeep : e.eolNum ≤ e.reach 1 := by
    unfold Editor.reach
    split <;> omega
  unfold Editor.creadAddChar
  by_cases hgrow : e.insert = true ∨ e.num = e.eolNum
  · rw [if_pos hgrow]
    by_cases hfull : maxCmdbufSize - 1 < e.eolNum
    · rw [if_pos hfull]
      exact ⟨e, rfl, he, rfl, rfl, by omega, hkeep⟩
    · rw [if_neg hfull]
      obtain ⟨buf, heq, hlen⟩ := @placeChar_ok { e with eolNum := e.eolNum + 1 } c he.buf_length
        (by dsimp only; omega) (by dsimp only; omega) e.insert
      refine ⟨_, heq, ⟨hlen, he.escSave_length, ?_, ?_, he.escLen_le⟩, rfl, rfl, le_rfl, ?_⟩
      · show e.num + 1 ≤ e.eolNum + 1
        omega
      · show e.eolNum + 1 ≤ maxCmdbufSize
        omega
      · show e.eolNum + 1 ≤ e.reach 1
        unfold Editor.reach
        rcases hgrow with hins | hend
        · rw [if_pos hins]
        · split <;> omega
  · rw [if_neg hgrow]
    have hlt : e.num < e.eolNum := by
      have : e.num ≠ e.eolNum := fun h => hgrow (Or.inr h)
      omega
    obtain ⟨buf, heq, hlen⟩ := @placeChar_ok e c he.buf_length hlt heol e.insert
    exact ⟨_, heq, ⟨hlen, he.escSave_length, hlt, heol, he.escLen_le⟩, rfl, rfl, le_rfl, hkeep⟩

theorem creadAddStr_ok (he : e.Ok maxCmdbufSize) :
    ∃ e', Editor.creadAddStr str e.insert maxCmdbufSize e = .ok e' ∧ Added e str.length e' := by
  induction str generalizing e with
  | nil =>
    have hnum := he.num_le
    refine ⟨e, rfl, he, rfl, rfl, le_rfl, ?_⟩
    unfold Editor.reach
    split
    · exact le_rfl
    · exact le_max_left _ _
  | cons c str ih =>
    obtain ⟨e₁, heq₁, hadd₁⟩ := @creadAddChar_ok e c he
    obtain ⟨e₂, heq₂, hadd₂⟩ := ih hadd₁.ok
    rw [hadd₁.insert_eq] at heq₂
    refine ⟨e₂, by rw [Editor.creadAddStr, heq₁, ok_bind, heq₂], hadd₂.ok,
      hadd₂.insert_eq.trans hadd₁.insert_eq, hadd₂.escLen_eq.trans hadd₁.escLen_eq, ?_, ?_⟩
    · have := hadd₁.num_le
      have := hadd₂.num_le
      rw [List.length_cons]
      omega
    · have hnum := hadd₁.num_le
      have heol₁ := hadd₁.eolNum_le
      have heol₂ := hadd₂.eolNum_le
      unfold Editor.reach at *
      rw [hadd₁.insert_eq] at heol₂
      rw [List.length_cons]
      split
      · rename_i hins
        rw [if_pos hins] at heol₁ heol₂
        omega
      · rename_i hover
        rw [if_neg hover] at heol₁ heol₂
        omega

/-- In insert mode every character lengthens the line that has room for it. -/
theorem creadAddChar_insert (he : e.Ok maxCmdbufSize) (hins : e.insert = true)
    (hroom : e.eolNum ≤ maxCmdbufSize - 1) :
    ∃ e', e.creadAddChar c e.insert maxCmdbufSize = .ok e' ∧ e'.eolNum = e.eolNum + 1 := by
  have hsize : maxCmdbufSize = 256 := rfl
  have hnum := he.num_le
  obtain ⟨buf, heq, -⟩ := @placeChar_ok { e with eolNum := e.eolNum + 1 } c he.buf_length
    (by dsimp only; omega) (by dsimp only; omega) e.insert
  refine ⟨{ e with eolNum := e.eolNum + 1, buf := buf, num := e.num + 1 }, ?_, rfl⟩
  rw [Editor.creadAddChar, if_pos (Or.inl hins), if_neg (by omega), heq]

theorem creadAddStr_insert (he : e.Ok maxCmdbufSize) (hins : e.insert = true)
    (hroom : e.eolNum + str.length ≤ maxCmdbufSize) :
    ∃ e', Editor.creadAddStr str e.insert maxCmdbufSize e = .ok e' ∧
      e'.eolNum = e.eolNum + str.length := by
  induction str generalizing e with
  | nil => exact ⟨e, rfl, rfl⟩
  | cons c str ih =>
    rw [List.length_cons] at hroom ⊢
    obtain ⟨e₁, heq₁, hadd₁⟩ := @creadAddChar_ok e c he
    obtain ⟨e₁', heq₁', heol₁⟩ := @creadAddChar_insert e c he hins (by omega)
    rw [heq₁] at heq₁'
    cases heq₁'
    obtain ⟨e₂, heq₂, heol₂⟩ := ih hadd₁.ok (hadd₁.insert_eq.trans hins) (by omega)
    rw [hadd₁.insert_eq] at heq₂
    exact ⟨e₂, by rw [Editor.creadAddStr, heq₁, ok_bind, heq₂], by omega⟩

/-- The handlers that move in the line or shorten it. -/
theorem beginningOfLine_ok (he : e.Ok n) : e.beginningOfLine.Ok n :=
  ⟨he.buf_length, he.escSave_length, Nat.zero_le _, he.eolNum_le, he.escLen_le⟩

theorem eraseToEol_ok (he : e.Ok n) : e.eraseToEol.Ok n := by
  have hnum := he.num_le
  have heol := he.eolNum_le
  unfold Editor.eraseToEol
  split
  · exact ⟨he.buf_length, he.escSave_length, le_rfl, hnum.trans heol, he.escLen_le⟩
  · exact he

theorem refreshToEol_ok (he : e.Ok n) (hn : n ≤ maxCmdbufSize) :
    ∃ e', e.refreshToEol = .ok e' ∧ e'.Ok n ∧ e'.buf = e.buf ∧ e'.eolNum = e.eolNum := by
  have hsize : maxCmdbufSize = 256 := rfl
  have hbuf := he.buf_length
  have heol := he.eolNum_le
  unfold Editor.refreshToEol
  split
  · rename_i hlt
    rw [usub_eq hlt.le (by omega), putnstr_ok (by omega), ok_bind]
    exact ⟨_, rfl, ⟨hbuf, he.escSave_length, le_rfl, heol, he.escLen_le⟩, rfl, rfl⟩
  · exact ⟨e, rfl, he, rfl, rfl⟩

theorem forward_ok (he : e.Ok n) (hn : n ≤ maxCmdbufSize) :
    ∃ e', e.forward = .ok e' ∧ e'.Ok n := by
  have hbuf := he.buf_length
  have heol := he.eolNum_le
  unfold Editor.forward
  split
  · rename_i hlt
    rw [load_ok (by omega), ok_bind]
    exact ⟨_, rfl, hbuf, he.escSave_length, hlt, heol, he.escLen_le⟩
  · exact ⟨e, rfl, he⟩

theorem back_ok (he : e.Ok n) : e.back.Ok n := by
  have hnum := he.num_le
  unfold Editor.back
  split
  · refine ⟨he.buf_length, he.escSave_length, ?_, he.eolNum_le, he.escLen_le⟩
    show e.num - 1 ≤ e.eolNum
    omega
  · exact he

theorem deleteChar_ok (he : e.Ok n) (hn : n ≤ maxCmdbufSize) :
    ∃ e', e.deleteChar = .ok e' ∧ e'.Ok n := by
  have hsize : maxCmdbufSize = 256 := rfl
  have hbuf := he.buf_length
  have heol := he.eolNum_le
  unfold Editor.deleteChar
  split
  · rename_i hlt
    have hwlen : usub e.eolNum (e.num + 1) = e.eolNum - (e.num + 1) := usub_eq hlt (by omega)
    obtain ⟨buf, hmove, hlen⟩ := @memmove_ok e.buf e.num (e.num + 1) (e.eolNum - (e.num + 1))
      (by omega) (by omega)
    rw [hwlen]
    dsimp only
    rw [hmove, ok_bind, putnstr_ok (by omega), ok_bind]
    refine ⟨_, rfl, hlen.trans hbuf, he.escSave_length, ?_, ?_, he.escLen_le⟩
    · show e.num ≤ e.eolNum - 1
      omega
    · show e.eolNum - 1 ≤ n
      omega
  · exact ⟨e, rfl, he⟩

theorem backspace_ok (he : e.Ok n) (hn : n ≤ maxCmdbufSize) :
    ∃ e', e.backspace = .ok e' ∧ e'.Ok n := by
  have hsize : maxCmdbufSize = 256 := rfl
  have hbuf := he.buf_length
  have hnum := he.num_le
  have heol := he.eolNum_le
  unfold Editor.backspace
  split
  · have hwlen : usub e.eolNum e.num = e.eolNum - e.num := usub_eq hnum (by omega)
    obtain ⟨buf, hmove, hlen⟩ := @memmove_ok e.buf (e.num - 1) (e.num - 1 + 1) (e.eolNum - e.num)
      (by omega) (by omega)
    rw [hwlen]
    dsimp only
    rw [hmove, ok_bind, putnstr_ok (by omega), ok_bind]
    refine ⟨_, rfl, hlen.trans hbuf, he.escSave_length, ?_, ?_, he.escLen_le⟩
    · show e.num - 1 ≤ e.eolNum - 1
      omega
    · show e.eolNum - 1 ≤ n
      omega
  · exact ⟨e, rfl, he⟩

/-- A line of the history is shown. -/
theorem showLine_ok {hline : Bytes} (he : e.Ok n) (hlen : hline.length ≤ maxCmdbufSize - 1) :
    ∃ e', e.showLine hline = .ok e' ∧ e'.Ok (maxCmdbufSize - 1) ∧
      e'.buf.take e'.eolNum = hline := by
  have hsize : maxCmdbufSize = 256 := rfl
  have hcleared := eraseToEol_ok (beginningOfLine_ok he)
  have hbuf := hcleared.buf_length
  have hnum : e.beginningOfLine.eraseToEol.num = 0 := by
    unfold Editor.eraseToEol
    split <;> rfl
  obtain ⟨rest, hstore, hstored⟩ := @storeStr_zero e.beginningOfLine.eraseToEol.buf hline
    (by omega)
  obtain ⟨e', hrefresh, hok, hbuf', heol'⟩ := @refreshToEol_ok
    { e.beginningOfLine.eraseToEol with buf := hline ++ 0 :: rest, eolNum := hline.length }
    (maxCmdbufSize - 1)
    ⟨hstored.trans hbuf, hcleared.escSave_length, by dsimp only; omega, hlen, hcleared.escLen_le⟩
    (by omega)
  refine ⟨e', ?_, hok, ?_⟩
  · rw [Editor.showLine, hstore]
    exact hrefresh
  · rw [hbuf', heol']
    exact List.take_left

end Line

/-! ## The history -/

/-- The lines of the history are strings that fit, and the indices are those of lines. -/
structure Hist.Ok (h : Hist) : Prop where
  lines_length : h.histLines.length = histMaxLines
  lines : ∀ line ∈ h.histLines, line.length = histSize ∧ 0 ∈ line
  addIdx_lt : h.histAddIdx < histMaxLines
  max_lt : h.histMax < histMaxLines
  cur_lt : h.histCur < histMaxLines

section History

variable {h : Hist} {e : Editor} {i : Nat} {c : UInt8} {line : Bytes}

theorem histInit_ok : histInit.Ok := by
  refine ⟨rfl, ?_, by decide, by decide, by decide⟩
  intro line hline
  rw [List.eq_of_mem_replicate hline]
  exact ⟨List.length_replicate, List.mem_replicate.mpr ⟨by decide, rfl⟩⟩

theorem histPrev_ok (hh : h.Ok) :
    (histPrev h).1.Ok ∧ ∀ i, (histPrev h).2 = some i → i < histMaxLines := by
  have hmax := hh.max_lt
  have hcur := hh.cur_lt
  unfold histPrev
  split
  · exact ⟨hh, fun i hi => by cases hi⟩
  · dsimp only
    generalize hnew : (if h.histCur - 1 < 0 then (h.histMax : Int) else h.histCur - 1) = cur
    have hlt : 0 ≤ cur ∧ cur < histMaxLines := by
      split at hnew <;> omega
    split
    · exact ⟨hh, fun i hi => by cases hi⟩
    · refine ⟨⟨hh.lines_length, hh.lines, hh.addIdx_lt, hh.max_lt, hlt.2⟩, ?_⟩
      intro i hi
      cases hi
      omega

theorem histNext_ok (hh : h.Ok) :
    (histNext h).1.Ok ∧ ∀ i, (histNext h).2 = .line i → i < histMaxLines := by
  have hmax := hh.max_lt
  have hcur := hh.cur_lt
  unfold histNext
  split
  · exact ⟨hh, fun i hi => by cases hi⟩
  · split
    · exact ⟨hh, fun i hi => by cases hi⟩
    · dsimp only
      generalize hnew : (if (h.histMax : Int) < h.histCur + 1 then 0 else h.histCur + 1) = cur
      have hlt : 0 ≤ cur ∧ cur < histMaxLines := by
        split at hnew <;> omega
      split
      · exact ⟨⟨hh.lines_length, hh.lines, hh.addIdx_lt, hh.max_lt, hlt.2⟩, fun i hi => by cases hi⟩
      · refine ⟨⟨hh.lines_length, hh.lines, hh.addIdx_lt, hh.max_lt, hlt.2⟩, ?_⟩
        intro i hi
        cases hi
        omega

theorem histLine_ok (hh : h.Ok) (hi : i < histMaxLines) :
    histLine h i = .ok (cstr (h.histLines.getD i [])) ∧
      (cstr (h.histLines.getD i [])).length ≤ maxCmdbufSize - 1 := by
  have hlt : i < h.histLines.length := by rw [hh.lines_length]; exact hi
  have hget : h.histLines.getD i [] = h.histLines[i] := by
    rw [List.getD_eq_getElem?_getD, List.getElem?_eq_getElem hlt, Option.getD_some]
  obtain ⟨hlen, hzero⟩ := hh.lines _ (List.getElem_mem hlt)
  have hstr := length_cstr_lt hzero
  have hsize : histSize = maxCmdbufSize := rfl
  refine ⟨?_, by rw [hget]; omega⟩
  rw [histLine, List.getElem?_eq_getElem hlt, hget]
  exact strAt_zero hzero

/-- What `cread_add_to_hist` leaves. -/
def addedHist (h : Hist) (new : Bytes) : Hist :=
  let addIdx := if histMaxLines ≤ h.histAddIdx + 1 then 0 else h.histAddIdx + 1
  { h with
    histLines := h.histLines.set h.histAddIdx new
    histAddIdx := addIdx
    histMax := if h.histMax < addIdx then addIdx else h.histMax
    histNum := (h.histNum + 1) % 2 ^ 32 }

theorem creadAddToHist_ok (hh : h.Ok) (hlen : line.length ≤ maxCmdbufSize - 1) :
    ∃ rest, creadAddToHist h line = .ok (addedHist h (line ++ 0 :: rest)) ∧
      (addedHist h (line ++ 0 :: rest)).Ok := by
  have hsize : histSize = 256 := rfl
  have hsize' : maxCmdbufSize = 256 := rfl
  have hlt : h.histAddIdx < h.histLines.length := by rw [hh.lines_length]; exact hh.addIdx_lt
  obtain ⟨hold, -⟩ := hh.lines _ (List.getElem_mem hlt)
  obtain ⟨rest, hstore, hnew⟩ := @storeStr_zero h.histLines[h.histAddIdx] line (by omega)
  have hmax := hh.max_lt
  have hlines : histMaxLines = 20 := rfl
  refine ⟨rest, ?_, ?_, ?_, ?_, ?_, hh.cur_lt⟩
  · rw [creadAddToHist, List.getElem?_eq_getElem hlt]
    dsimp only
    rw [hstore]
    rfl
  · show (h.histLines.set _ _).length = _
    rw [List.length_set, hh.lines_length]
  · intro l hl
    rcases List.mem_or_eq_of_mem_set hl with hl | rfl
    · exact hh.lines l hl
    · exact ⟨hnew.trans hold, List.mem_append_right _ List.mem_cons_self⟩
  · show (if histMaxLines ≤ h.histAddIdx + 1 then 0 else h.histAddIdx + 1) < _
    split <;> omega
  · show (if h.histMax < _ then _ else h.histMax) < _
    split <;> split <;> omega

end History

/-! ## A character -/

/-- What holds after a character. -/
def CreadResult.Ok : CreadResult → Prop
  | more h e => h.Ok ∧ e.Ok (maxCmdbufSize - 1)
  | done h _ _ _ => h.Ok

/-- How many characters `cread_line` adds to the line for a character. -/
def addedChars (e : Editor) (ichar : UInt8) : Nat :=
  if ichar = 0x0A ∨ ichar = 0x0D then 0
  else if e.escLen = 0 then if keyOf ichar = .char then 1 else 0
  else if e.escLen = 1 then if ichar = 0x5B then 0 else 1
  else if (escKey ichar).isSome then 0 else 3

/-- The line does not grow beyond what its terminator leaves. -/
def Fits (e : Editor) (ichar : UInt8) : Prop := e.reach (addedChars e ichar) ≤ maxCmdbufSize - 1

section Char

variable {h : Hist} {e : Editor} {c : UInt8}

theorem histRecall_ok {key : Key} (hh : h.Ok) (he : e.Ok (maxCmdbufSize - 1)) :
    ∃ r, histRecall h e key = .ok r ∧ r.Ok := by
  have he' : ({ e with escLen := 0 } : Editor).Ok (maxCmdbufSize - 1) :=
    ⟨he.buf_length, he.escSave_length, he.num_le, he.eolNum_le, Nat.zero_le _⟩
  unfold histRecall
  dsimp only
  split
  · obtain ⟨hok, hlt⟩ := histPrev_ok hh
    cases hprev : histPrev h with
    | mk h' found =>
      rw [hprev] at hok hlt
      cases found with
      | none => exact ⟨_, rfl, hok, he'⟩
      | some i =>
        obtain ⟨hline, hlen⟩ := histLine_ok hok (hlt i rfl)
        obtain ⟨e', hshow, hok', -⟩ := showLine_ok he' hlen
        refine ⟨.more h' e', ?_, hok, hok'⟩
        dsimp only
        rw [hline, ok_bind, hshow, ok_bind]
        rfl
  · obtain ⟨hok, hlt⟩ := histNext_ok hh
    cases hnext : histNext h with
    | mk h' found =>
      rw [hnext] at hok hlt
      cases found with
      | null => exact ⟨_, rfl, hok, he'⟩
      | empty =>
        obtain ⟨e', hshow, hok', -⟩ := @showLine_ok _ _ [] he' (Nat.zero_le _)
        refine ⟨.more h' e', ?_, hok, hok'⟩
        dsimp only
        rw [hshow, ok_bind]
        rfl
      | line i =>
        obtain ⟨hline, hlen⟩ := histLine_ok hok (hlt i rfl)
        obtain ⟨e', hshow, hok', -⟩ := showLine_ok he' hlen
        refine ⟨.more h' e', ?_, hok, hok'⟩
        dsimp only
        rw [hline, ok_bind, hshow, ok_bind]
        rfl

/-- The last switch, for a character that is not part of a sequence. -/
theorem creadSwitch_ok (hh : h.Ok) (he : e.Ok (maxCmdbufSize - 1)) :
    ∃ r, creadSwitch h e c = .ok r ∧
      (e.reach (if keyOf c = .char then 1 else 0) ≤ maxCmdbufSize - 1 → r.Ok) := by
  have hsize : maxCmdbufSize = 256 := rfl
  have hbuf := he.buf_length
  unfold creadSwitch
  cases keyOf c with
  | escape =>
    dsimp only
    split
    · have hesc := he.escSave_length
      rw [store_ok (by omega), ok_bind]
      refine ⟨_, rfl, fun _ => ⟨hh, hbuf, ?_, he.num_le, he.eolNum_le, Nat.le_succ 1⟩⟩
      show (e.escSave.set _ _).length = 8
      rw [List.length_set, hesc]
    · exact ⟨_, rfl, fun _ => ⟨hh, hbuf, he.escSave_length, he.num_le, he.eolNum_le, Nat.zero_le _⟩⟩
  | beginningOfLine => exact ⟨_, rfl, fun _ => ⟨hh, beginningOfLine_ok he⟩⟩
  | abort =>
    dsimp only
    rw [store_ok (by omega), ok_bind]
    exact ⟨_, rfl, fun _ => hh⟩
  | forward =>
    obtain ⟨e', heq, hok⟩ := forward_ok he (by omega)
    dsimp only
    rw [heq, ok_bind]
    exact ⟨_, rfl, fun _ => ⟨hh, hok⟩⟩
  | back => exact ⟨_, rfl, fun _ => ⟨hh, back_ok he⟩⟩
  | deleteChar =>
    obtain ⟨e', heq, hok⟩ := deleteChar_ok he (by omega)
    dsimp only
    rw [heq, ok_bind]
    exact ⟨_, rfl, fun _ => ⟨hh, hok⟩⟩
  | eraseToEol => exact ⟨_, rfl, fun _ => ⟨hh, eraseToEol_ok he⟩⟩
  | refreshToEol =>
    obtain ⟨e', heq, hok, -⟩ := refreshToEol_ok he (by omega)
    dsimp only
    rw [heq, ok_bind]
    exact ⟨_, rfl, fun _ => ⟨hh, hok⟩⟩
  | toggleInsert =>
    exact ⟨_, rfl, fun _ => ⟨hh, hbuf, he.escSave_length, he.num_le, he.eolNum_le, he.escLen_le⟩⟩
  | eraseLine => exact ⟨_, rfl, fun _ => ⟨hh, eraseToEol_ok (beginningOfLine_ok he)⟩⟩
  | backspace =>
    obtain ⟨e', heq, hok⟩ := backspace_ok he (by omega)
    dsimp only
    rw [heq, ok_bind]
    exact ⟨_, rfl, fun _ => ⟨hh, hok⟩⟩
  | histPrev =>
    obtain ⟨r, heq, hok⟩ := @histRecall_ok h e .histPrev hh he
    exact ⟨r, heq, fun _ => hok⟩
  | histNext =>
    obtain ⟨r, heq, hok⟩ := @histRecall_ok h e .histNext hh he
    exact ⟨r, heq, fun _ => hok⟩
  | char =>
    obtain ⟨e', heq, hadd⟩ := @creadAddChar_ok e c (he.mono (he.eolNum_le.trans (by omega)))
    dsimp only
    rw [heq, ok_bind]
    refine ⟨_, rfl, fun hfit => ⟨hh, hadd.ok.mono ?_⟩⟩
    rw [if_pos rfl] at hfit
    exact hadd.eolNum_le.trans hfit

theorem creadEnd_ok (hh : h.Ok) (he : e.Ok (maxCmdbufSize - 1)) :
    ∃ r, creadEnd h e = .ok r ∧ r.Ok := by
  have hsize : maxCmdbufSize = 256 := rfl
  have hlines : histMaxLines = 20 := rfl
  have hbuf := he.buf_length
  have heol := he.eolNum_le
  have hlt : e.eolNum < e.buf.length := by omega
  have hzero : 0 ∈ e.buf.set e.eolNum 0 := List.mem_set hlt 0
  have hlen : (e.buf.set e.eolNum 0).length = maxCmdbufSize := by rw [List.length_set, hbuf]
  have hcur : ∀ {h : Hist}, h.Ok → ({ h with histCur := h.histAddIdx } : Hist).Ok := by
    intro h hh
    have := hh.addIdx_lt
    refine ⟨hh.lines_length, hh.lines, hh.addIdx_lt, hh.max_lt, ?_⟩
    show (h.histAddIdx : Int) < _
    omega
  unfold creadEnd
  rw [store_ok hlt, ok_bind, load_ok (by omega), ok_bind]
  split
  · rw [strAt_zero hzero, ok_bind]
    have hstr := length_cstr_lt hzero
    obtain ⟨rest, hadd, hok⟩ := @creadAddToHist_ok h (cstr (e.buf.set e.eolNum 0)) hh (by omega)
    rw [hadd, ok_bind]
    exact ⟨_, rfl, hcur hok⟩
  · exact ⟨_, rfl, hcur hh⟩

/-- A character stays in the areas, and keeps what holds if the line does not grow too far. -/
theorem creadKey_ok (hh : h.Ok) (he : e.Ok (maxCmdbufSize - 1)) (c : UInt8) :
    ∃ r, creadKey h e c = .ok r ∧ (Fits e c → r.Ok) := by
  have hsize : maxCmdbufSize = 256 := rfl
  have hesc := he.escSave_length
  have hescLen := he.escLen_le
  have hwide : e.Ok maxCmdbufSize := he.mono (he.eolNum_le.trans (by omega))
  unfold creadKey Fits addedChars
  by_cases hend : c = 0x0A ∨ c = 0x0D
  · rw [if_pos hend]
    obtain ⟨r, heq, hok⟩ := creadEnd_ok hh he
    exact ⟨r, heq, fun _ => hok⟩
  · rw [if_neg hend, if_neg hend]
    by_cases h0 : e.escLen = 0
    · rw [if_pos h0, if_pos h0]
      exact creadSwitch_ok hh he
    · rw [if_neg h0, if_neg h0]
      by_cases h1 : e.escLen = 1
      · rw [if_pos h1, if_pos h1]
        split
        · rw [store_ok (by omega), ok_bind]
          refine ⟨_, rfl, fun _ => ⟨hh, he.buf_length, ?_, he.num_le, he.eolNum_le, le_rfl⟩⟩
          show (e.escSave.set _ _).length = 8
          rw [List.length_set, hesc]
        · obtain ⟨e', heq, hadd⟩ := @creadAddStr_ok e (e.escSave.take e.escLen) hwide
          rw [List.length_take, h1, hesc] at hadd
          rw [heq, ok_bind]
          refine ⟨_, rfl, fun hfit => ⟨hh, hadd.ok.buf_length, hadd.ok.escSave_length,
            hadd.ok.num_le, hadd.eolNum_le.trans hfit, Nat.zero_le _⟩⟩
      · rw [if_neg h1, if_neg h1]
        have h2 : e.escLen = 2 := by omega
        cases hkey : escKey c with
        | some key =>
          have he' : ({ e with escLen := 0 } : Editor).Ok (maxCmdbufSize - 1) :=
            ⟨he.buf_length, hesc, he.num_le, he.eolNum_le, Nat.zero_le _⟩
          obtain ⟨r, heq, hok⟩ := @creadSwitch_ok h { e with escLen := 0 } key hh he'
          refine ⟨r, heq, fun hfit => hok ?_⟩
          have hctl : keyOf key ≠ .char := by
            unfold escKey at hkey
            split at hkey
            · cases hkey; decide
            split at hkey
            · cases hkey; decide
            split at hkey
            · cases hkey; decide
            split at hkey
            · cases hkey; decide
            split at hkey
            · cases hkey; decide
            · cases hkey
          rw [if_neg hctl]
          exact hfit
        | none =>
          dsimp only
          rw [store_ok (by omega), ok_bind]
          have hset : (e.escSave.set e.escLen c).length = 8 := by rw [List.length_set, hesc]
          obtain ⟨e', heq, hadd⟩ := @creadAddStr_ok
            { e with escSave := e.escSave.set e.escLen c }
            ((e.escSave.set e.escLen c).take (e.escLen + 1))
            ⟨he.buf_length, hset, he.num_le, hwide.eolNum_le, hescLen⟩
          rw [List.length_take, hset, h2] at hadd
          dsimp only at heq
          rw [heq, ok_bind]
          exact ⟨_, rfl, fun hfit => ⟨hh, hadd.ok.buf_length, hadd.ok.escSave_length,
            hadd.ok.num_le, hadd.eolNum_le.trans hfit, Nat.zero_le _⟩⟩

end Char

/-! ## The console -/

/-- The contents of a buffer at a call of `cread_line`, and of `esc_save`. -/
structure Start where
  buf : Bytes
  escSave : Bytes
  buf_length : buf.length = maxCmdbufSize
  terminated : 0 ∈ buf
  escSave_length : escSave.length = 8

/-- Between two calls of `cread_line`, or in one. -/
inductive Console where
  | idle (h : Hist)
  | editing (h : Hist) (e : Editor)

/-- A call of `cread_line`, or a character for it. -/
inductive Event where
  | start (s : Start)
  | key (c : UInt8)

/-- The console after a character. -/
def CreadResult.console : CreadResult → Console
  | more h e => .editing h e
  | done h _ _ _ => .idle h

inductive Console.Step : Console → Event → Console → Prop
  | start {h : Hist} {e : Editor} {s : Start} (heq : creadStart s.escSave s.buf = .ok e) :
      Step (.idle h) (.start s) (.editing h e)
  | key {h : Hist} {e : Editor} {c : UInt8} {r : CreadResult} (heq : creadKey h e c = .ok r) :
      Step (.editing h e) (.key c) r.console

namespace Console

/-- What holds of the console. -/
def Ok : Console → Prop
  | idle h => h.Ok
  | editing h e => h.Ok ∧ e.Ok (maxCmdbufSize - 1)

/-- The indices are in order, and no character and no call makes the editor leave its areas. -/
def Bounded : Console → Prop
  | idle _ => ∀ s : Start, ∃ e, creadStart s.escSave s.buf = .ok e
  | editing h e => e.num ≤ e.eolNum ∧ e.eolNum ≤ maxCmdbufSize - 1 ∧
      ∀ c, ∃ r, creadKey h e c = .ok r

/-- A character does not make the line too long. -/
def Allowed : Console → Event → Prop
  | editing _ e, .key c => Fits e c
  | _, _ => True

theorem creadStart_ok (s : Start) :
    ∃ e, creadStart s.escSave s.buf = .ok e ∧ e.Ok (maxCmdbufSize - 1) := by
  have hsize : maxCmdbufSize = 256 := rfl
  have hbuf := s.buf_length
  have hstr := length_cstr_lt s.terminated
  obtain ⟨e, heq, hadd⟩ := @creadAddStr_ok ⟨0, 0, true, 0, s.escSave, s.buf⟩ (cstr s.buf)
    ⟨hbuf, s.escSave_length, le_rfl, Nat.zero_le _, Nat.zero_le _⟩
  refine ⟨e, ?_, hadd.ok.mono ?_⟩
  · rw [creadStart, strAt_zero s.terminated]
    exact heq
  · have heol : e.eolNum ≤ 0 + (cstr s.buf).length := hadd.eolNum_le
    omega

theorem Ok.bounded {con : Console} (h : con.Ok) : con.Bounded := by
  cases con with
  | idle hist =>
    intro s
    obtain ⟨e, heq, -⟩ := creadStart_ok s
    exact ⟨e, heq⟩
  | editing hist e =>
    refine ⟨h.2.num_le, h.2.eolNum_le, ?_⟩
    intro c
    obtain ⟨r, heq, -⟩ := creadKey_ok h.1 h.2 c
    exact ⟨r, heq⟩

theorem Step.ok {con con' : Console} {ev : Event} (h : con.Ok) (hallowed : con.Allowed ev)
    (hstep : Step con ev con') : con'.Ok := by
  cases hstep with
  | @start hist e s heq =>
    obtain ⟨e', heq', hok⟩ := creadStart_ok s
    rw [heq] at heq'
    cases heq'
    exact ⟨h, hok⟩
  | @key hist e c r heq =>
    obtain ⟨r', heq', hok⟩ := creadKey_ok h.1 h.2 c
    rw [heq] at heq'
    cases heq'
    have := hok hallowed
    cases r with
    | more h' e' => exact this
    | done h' rc buf len => exact this

/-- **The editor stays in its areas** in every run in which no character is added to a line of
255 characters. -/
theorem console_bounded {run : List (Console × Event)} {con : Console}
    (hrun : Run Step (idle histInit) run con) (hallowed : ∀ p ∈ run, p.1.Allowed p.2) :
    con.Bounded :=
  (hrun.invariant Ok Allowed (fun h ha hstep => hstep.ok h ha) histInit_ok hallowed).bounded

/-- A buffer with a string of one character, repeated. -/
def startOf (n : Nat) (hn : n < maxCmdbufSize) : Start where
  buf := List.replicate n 0x61 ++ List.replicate (maxCmdbufSize - n) 0
  escSave := List.replicate 8 0
  buf_length := by
    rw [List.length_append, List.length_replicate, List.length_replicate]
    omega
  terminated := List.mem_append_right _ (List.mem_replicate.mpr ⟨by omega, rfl⟩)
  escSave_length := rfl

theorem console_bounded_key : ∃ run con, run ≠ [] ∧ Run Step (idle histInit) run con ∧
    (∀ p ∈ run, p.1.Allowed p.2) ∧ con.Bounded := by
  obtain ⟨e, heq, -⟩ := creadStart_ok (startOf 3 (by decide))
  have hrun : Run Step (idle histInit) [(idle histInit, .start (startOf 3 (by decide)))]
      (editing histInit e) := Run.tail Run.refl (.start heq)
  have hallowed : ∀ p ∈ [(idle histInit, Event.start (startOf 3 (by decide)))],
      p.1.Allowed p.2 := by
    intro p hp
    rw [List.mem_singleton.mp hp]
    trivial
  exact ⟨_, _, List.cons_ne_nil _ _, hrun, hallowed, console_bounded hrun hallowed⟩

/-- A line that is started is as long as the string in the buffer. -/
theorem creadStart_line (s : Start) : ∃ e, creadStart s.escSave s.buf = .ok e ∧
    e.Ok (maxCmdbufSize - 1) ∧ e.eolNum = (cstr s.buf).length ∧ e.insert = true ∧
    e.escLen = 0 := by
  have hbuf := s.buf_length
  have hstr := length_cstr_lt s.terminated
  have hinit : (⟨0, 0, true, 0, s.escSave, s.buf⟩ : Editor).Ok maxCmdbufSize :=
    ⟨hbuf, s.escSave_length, le_rfl, Nat.zero_le _, Nat.zero_le _⟩
  obtain ⟨e, heq, hok⟩ := creadStart_ok s
  obtain ⟨e₁, heq₁, hadd⟩ := @creadAddStr_ok _ (cstr s.buf) hinit
  obtain ⟨e₂, heq₂, heol⟩ := @creadAddStr_insert _ (cstr s.buf) hinit rfl (by dsimp only; omega)
  rw [heq₁] at heq₂
  cases heq₂
  have hsame : creadStart s.escSave s.buf = .ok e₁ := by
    rw [creadStart, strAt_zero s.terminated]
    exact heq₁
  rw [heq] at hsame
  cases hsame
  exact ⟨e, heq, hok, heol.trans (Nat.zero_add _), hadd.insert_eq, hadd.escLen_eq⟩

/-- One character more than 255. -/
theorem console_not_bounded :
    ∃ run con, Run Step (idle histInit) run con ∧ ¬ con.Bounded := by
  obtain ⟨e, heq, hok, hline, hinsert, hesc⟩ := creadStart_line (startOf 255 (by decide))
  have heol : e.eolNum = 255 := by
    rw [hline]
    show (cstr (List.replicate 255 0x61 ++ 0 :: [])).length = 255
    have hnone : (0 : UInt8) ∉ List.replicate 255 0x61 := by
      intro h
      exact absurd (List.eq_of_mem_replicate h) (by decide)
    rw [cstr_append hnone, List.length_replicate]
  obtain ⟨e', hplace, hlong⟩ := @creadAddChar_insert e 0x62
    (hok.mono (by rw [heol]; decide)) hinsert (by rw [heol]; decide)
  have hkey : creadKey histInit e 0x62 = .ok (.more histInit e') := by
    rw [creadKey, if_neg (by decide), if_pos hesc]
    show (Editor.creadAddChar 0x62 e.insert maxCmdbufSize e >>= _) = _
    rw [hplace]
    rfl
  have hrun := Run.tail (Run.tail Run.refl (Step.start (h := histInit) heq)) (Step.key hkey)
  refine ⟨_, _, hrun, ?_⟩
  rintro ⟨-, hbound, -⟩
  rw [hlong, heol] at hbound
  exact absurd hbound (by decide)

end Console

end UBoot.Common
