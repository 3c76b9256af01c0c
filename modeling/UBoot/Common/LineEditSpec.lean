import UBoot.Common.LineEditBounds

/-!
# The line that is edited

An editor that keeps the characters in front of the cursor, those behind it and a mode, and has one
operation for each key; and what `cread_line` does with its buffer and its two indices.

* `creadKeys_shows`: whatever keys are pressed, the buffer shows the line.
* `creadLine_refines`: so does the line that is returned.
-/

namespace UBoot.Common

open UBoot.Lib

/-! ## The abstract editor -/

/-- The characters in front of the cursor and behind it, and whether characters are inserted. -/
structure CursorLine where
  left : Bytes
  right : Bytes
  insert : Bool

/-- The keys. -/
inductive EditKey where
  | char (c : UInt8)
  | home
  | toEnd
  | back
  | forward
  | delete
  | backspace
  | eraseToEnd
  | eraseLine
  | toggle

namespace CursorLine

/-- A key is pressed. -/
def press (l : CursorLine) : EditKey → CursorLine
  | .char c =>
    { l with left := l.left ++ [c], right := if l.insert then l.right else l.right.tail }
  | .home => { l with left := [], right := l.left ++ l.right }
  | .toEnd => { l with left := l.left ++ l.right, right := [] }
  | .back => { l with left := l.left.dropLast, right := l.left.getLast?.toList ++ l.right }
  | .forward => { l with left := l.left ++ l.right.head?.toList, right := l.right.tail }
  | .delete => { l with right := l.right.tail }
  | .backspace => { l with left := l.left.dropLast }
  | .eraseToEnd => { l with right := [] }
  | .eraseLine => { l with left := [], right := [] }
  | .toggle => { l with insert := !l.insert }

/-- All of the line. -/
def text (l : CursorLine) : Bytes := l.left ++ l.right

/-- A line that starts with a string. -/
def ofString (s : Bytes) : CursorLine := ⟨s, [], true⟩

theorem length_text (l : CursorLine) : l.text.length = l.left.length + l.right.length :=
  List.length_append

end CursorLine

/-- The characters that a key sends: a control character, or the sequence of an arrow key. -/
inductive Sends : EditKey → Bytes → Prop
  | char {c : UInt8} (hprint : 0x20 ≤ c) (h127 : c ≠ 127) (h255 : c ≠ 255) : Sends (.char c) [c]
  | home : Sends .home [ctlCh 0x61]
  | homeKey : Sends .home [0x1B, 0x5B, 0x48]
  | toEnd : Sends .toEnd [ctlCh 0x65]
  | back : Sends .back [ctlCh 0x62]
  | leftKey : Sends .back [0x1B, 0x5B, 0x44]
  | forward : Sends .forward [ctlCh 0x66]
  | rightKey : Sends .forward [0x1B, 0x5B, 0x43]
  | delete : Sends .delete [ctlCh 0x64]
  | backspace {c : UInt8} (hc : c = 8 ∨ c = 127 ∨ c = 255) : Sends .backspace [c]
  | eraseToEnd : Sends .eraseToEnd [ctlCh 0x6B]
  | eraseLine {c : UInt8} (hc : c = ctlCh 0x75 ∨ c = ctlCh 0x78) : Sends .eraseLine [c]
  | toggle : Sends .toggle [ctlCh 0x6F]

/-- The characters for a call of `cread_line`, one after the other. -/
def creadKeys (h : Hist) (e : Editor) : Bytes → Exec CreadResult
  | [] => .ok (.more h e)
  | c :: cs => do
    match ← creadKey h e c with
    | .more h e => creadKeys h e cs
    | .done h rc buf len => return .done h rc buf len

/-- The variables of `cread_line` show the line, `n` characters into a sequence. -/
structure Shows (n : Nat) (e : Editor) (l : CursorLine) : Prop where
  buf_length : e.buf.length = maxCmdbufSize
  escSave_length : e.escSave.length = 8
  escLen : e.escLen = n
  num : e.num = l.left.length
  eolNum : e.eolNum = l.left.length + l.right.length
  insert : e.insert = l.insert
  text : ∃ rest, e.buf = l.left ++ (l.right ++ rest)

/-! ## Moving characters -/

section Moves

variable {L M R Q : Bytes} {c x : UInt8} {i j n : Nat}

/-- The characters behind the cursor are moved down by one. -/
theorem memmove_down (hi : i = L.length) (hj : j = i + 1) (hn : n = R.length) :
    ∃ rest, memmove (L ++ (x :: (R ++ Q))) i j n = .ok (L ++ (R ++ rest)) := by
  subst hi hj hn
  by_cases h0 : R.length = 0
  · have hnil : R = [] := List.length_eq_zero_iff.mp h0
    subst hnil
    exact ⟨x :: Q, if_pos rfl⟩
  · have hlen : (L ++ (x :: (R ++ Q))).length = L.length + 1 + R.length + Q.length := by
      simp only [List.length_append, List.length_cons]
      omega
    refine ⟨(L ++ (x :: (R ++ Q))).drop (L.length + R.length), ?_⟩
    rw [memmove, if_neg h0, if_neg (by omega), if_neg (by omega)]
    have hsrc : (L ++ (x :: (R ++ Q))).drop (L.length + 1) = R ++ Q := by
      rw [← List.drop_drop, List.drop_left, List.drop_one]
      rfl
    rw [List.take_left, hsrc, List.take_left]

/-- They are moved up by one. -/
theorem memmove_up (hi : i = L.length + 1) (hj : j = L.length) (hn : n = R.length) :
    ∃ y, memmove (L ++ (R ++ x :: Q)) i j n = .ok (L ++ y :: (R ++ Q)) := by
  subst hi hj hn
  cases R with
  | nil => exact ⟨x, if_pos rfl⟩
  | cons r R =>
    have hlen : (L ++ (r :: R ++ x :: Q)).length = L.length + 1 + R.length + 1 + Q.length := by
      simp only [List.length_append, List.length_cons]
      omega
    have hlen' : (r :: R).length = R.length + 1 := rfl
    refine ⟨r, ?_⟩
    rw [memmove, if_neg (by omega), if_neg (by omega), if_neg (by omega), List.drop_left,
      List.take_left]
    have hfront : (L ++ (r :: R ++ x :: Q)).take (L.length + 1) = L ++ [r] := by
      rw [List.take_append, List.take_of_length_le (by omega), Nat.add_sub_cancel_left]
      rfl
    have hback : (L ++ (r :: R ++ x :: Q)).drop (L.length + 1 + (r :: R).length) = Q := by
      have hcut : L ++ (r :: R ++ x :: Q) = (L ++ (r :: R ++ [x])) ++ Q := by simp
      rw [hcut]
      refine List.drop_left' ?_
      simp only [List.length_append, List.length_cons, List.length_nil]
      omega
    rw [hfront, hback, List.append_assoc]
    rfl

theorem set_cut (hi : i = L.length) : (L ++ x :: Q).set i c = L ++ c :: Q := by
  subst hi
  rw [List.set_append_right _ _ (Nat.le_refl _), Nat.sub_self, List.set_cons_zero]

end Moves

/-! ## The keys -/

section Keys

variable {e : Editor} {l : CursorLine} {n : Nat} {c : UInt8}

/-- A character that is inserted, or put at the end of the line. -/
theorem insert_shows {right rest : Bytes} {num eolNum : Nat} {L : Bytes} {x : UInt8}
    (hbuf : e.buf = L ++ (right ++ x :: rest)) (hlen : e.buf.length = maxCmdbufSize)
    (hnum : num = L.length) (heol : eolNum = L.length + right.length + 1) :
    Editor.placeChar c true { e with num := num, eolNum := eolNum } =
      .ok { e with buf := L ++ c :: (right ++ rest), num := num + 1, eolNum := eolNum } := by
  have hsize : maxCmdbufSize = 256 := rfl
  have hlength := congrArg List.length hbuf
  simp only [List.length_append, List.length_cons] at hlength
  have hwlen : usub eolNum num = right.length + 1 := by
    rw [usub_eq (by omega) (by omega)]
    omega
  obtain ⟨y, hmove⟩ := @memmove_up L right rest x (num + 1) num right.length (by omega) hnum rfl
  have hgap : ∃ y, Editor.openGap e.buf num (right.length + 1) =
      .ok (L ++ y :: (right ++ rest)) := by
    by_cases hwide : 1 < right.length + 1
    · refine ⟨y, ?_⟩
      rw [Editor.openGap, if_pos hwide, hbuf]
      exact hmove
    · have hnil : right = [] := List.length_eq_zero_iff.mp (by omega)
      refine ⟨x, ?_⟩
      rw [Editor.openGap, if_neg hwide, hbuf, hnil]
      rfl
  obtain ⟨y, hgap⟩ := hgap
  have hlt : num < (L ++ y :: (right ++ rest)).length := by
    simp only [List.length_append, List.length_cons]
    omega
  have hfits : num + (right.length + 1) ≤ (L ++ c :: (right ++ rest)).length := by
    simp only [List.length_append, List.length_cons]
    omega
  rw [Editor.placeChar, if_pos rfl]
  simp only [hwlen]
  rw [hgap, ok_bind, store_ok hlt, ok_bind, set_cut hnum, putnstr_ok hfits, ok_bind]
  rfl

/-- A character in the place of another, or at the end of the line. -/
theorem overwrite_shows {rest : Bytes} {num eolNum : Nat} {L : Bytes} {x : UInt8}
    (hbuf : e.buf = L ++ x :: rest) (hnum : num = L.length) :
    Editor.placeChar c false { e with num := num, eolNum := eolNum } =
      .ok { e with buf := L ++ c :: rest, num := num + 1, eolNum := eolNum } := by
  have hlt : num < (L ++ x :: rest).length := by
    simp only [List.length_append, List.length_cons]
    omega
  have hfits : num + 1 ≤ (L ++ c :: rest).length := by
    simp only [List.length_append, List.length_cons]
    omega
  rw [Editor.placeChar, if_neg Bool.false_ne_true]
  simp only [hbuf]
  rw [store_ok hlt, ok_bind, set_cut hnum, putnstr_ok hfits, ok_bind]
  rfl

theorem char_shows (h : Shows n e l) (hlen : (l.press (.char c)).text.length < maxCmdbufSize - 1) :
    ∃ e', e.creadAddChar c e.insert maxCmdbufSize = .ok e' ∧ Shows n e' (l.press (.char c)) := by
  have hsize : maxCmdbufSize = 256 := rfl
  have hnum := h.num
  have heol := h.eolNum
  have hbufLen := h.buf_length
  obtain ⟨rest, hbuf⟩ := h.text
  have hlength := congrArg List.length hbuf
  simp only [List.length_append] at hlength
  obtain ⟨left, right, mode⟩ := l
  obtain rfl : e.insert = mode := h.insert
  simp only at hnum heol hbuf hlength
  rw [CursorLine.length_text] at hlen
  simp only [CursorLine.press, List.length_append, List.length_singleton] at hlen
  cases hmode : e.insert with
  | true =>
    rw [hmode, if_pos rfl] at hlen
    obtain ⟨x, rest, rfl⟩ := List.exists_cons_of_length_pos (show 0 < rest.length by omega)
    have hput := @insert_shows e c right rest e.num (e.eolNum + 1) left x hbuf hbufLen hnum
      (by omega)
    refine ⟨{ e with
        buf := left ++ c :: (right ++ rest), num := e.num + 1, eolNum := e.eolNum + 1 },
      ?_, ⟨?_, h.escSave_length, h.escLen, ?_, ?_, hmode, ⟨rest, ?_⟩⟩⟩
    · rw [Editor.creadAddChar, if_pos (.inl rfl), if_neg (by omega)]
      exact hput
    · simp only [List.length_append, List.length_cons] at hlength ⊢
      omega
    · simp only [CursorLine.press, List.length_append, List.length_singleton]
      omega
    · simp only [CursorLine.press, List.length_append, List.length_singleton, if_true]
      omega
    · simp [CursorLine.press]
  | false =>
    rw [hmode, if_neg Bool.false_ne_true] at hlen
    cases right with
    | nil =>
      obtain ⟨x, rest, rfl⟩ := List.exists_cons_of_length_pos (show 0 < rest.length by
        rw [List.length_nil] at hlength
        omega)
      have hput := @overwrite_shows e c rest e.num (e.eolNum + 1) left x hbuf hnum
      rw [List.length_nil] at heol
      refine ⟨{ e with buf := left ++ c :: rest, num := e.num + 1, eolNum := e.eolNum + 1 },
        ?_, ⟨?_, h.escSave_length, h.escLen, ?_, ?_, hmode, ⟨rest, ?_⟩⟩⟩
      · rw [Editor.creadAddChar, if_pos (.inr (by omega)), if_neg (by omega)]
        exact hput
      · simp only [List.length_append, List.length_cons, List.length_nil] at hlength ⊢
        omega
      · simp only [CursorLine.press, List.length_append, List.length_singleton]
        omega
      · simp only [CursorLine.press, List.length_append, List.length_singleton,
          Bool.false_eq_true, if_false, List.tail_nil, List.length_nil]
        omega
      · simp [CursorLine.press]
    | cons x right =>
      have hput := @overwrite_shows e c (right ++ rest) e.num e.eolNum left x hbuf hnum
      rw [List.length_cons] at heol
      refine ⟨{ e with buf := left ++ c :: (right ++ rest), num := e.num + 1 },
        ?_, ⟨?_, h.escSave_length, h.escLen, ?_, ?_, hmode, ⟨rest, ?_⟩⟩⟩
      · rw [Editor.creadAddChar, if_neg (by simp; omega)]
        exact hput
      · simp only [List.length_append, List.length_cons] at hlength ⊢
        omega
      · simp only [CursorLine.press, List.length_append, List.length_singleton]
        omega
      · simp only [CursorLine.press, List.length_append, List.length_singleton,
          Bool.false_eq_true, if_false, List.tail_cons]
        omega
      · simp [CursorLine.press]

theorem home_shows (h : Shows n e l) : Shows n e.beginningOfLine (l.press .home) := by
  obtain ⟨rest, hbuf⟩ := h.text
  refine ⟨h.buf_length, h.escSave_length, h.escLen, rfl, ?_, h.insert, ⟨rest, ?_⟩⟩
  · refine h.eolNum.trans ?_
    simp only [CursorLine.press, List.length_append, List.length_nil]
    omega
  · refine hbuf.trans ?_
    simp [CursorLine.press]

theorem eraseToEnd_shows (h : Shows n e l) : Shows n e.eraseToEol (l.press .eraseToEnd) := by
  have hnum := h.num
  have heol := h.eolNum
  obtain ⟨rest, hbuf⟩ := h.text
  unfold Editor.eraseToEol
  split
  · exact ⟨h.buf_length, h.escSave_length, h.escLen, hnum, hnum, h.insert, ⟨_, hbuf⟩⟩
  · have hnil : l.right = [] := List.length_eq_zero_iff.mp (by omega)
    refine ⟨h.buf_length, h.escSave_length, h.escLen, hnum, ?_, h.insert, ⟨rest, ?_⟩⟩
    · rw [heol, hnil]
      rfl
    · rw [hbuf, hnil]
      rfl

theorem toEnd_shows (h : Shows n e l) (hlen : l.text.length < maxCmdbufSize) :
    ∃ e', e.refreshToEol = .ok e' ∧ Shows n e' (l.press .toEnd) := by
  have hsize : maxCmdbufSize = 256 := rfl
  have hnum := h.num
  have heol := h.eolNum
  have hbufLen := h.buf_length
  rw [l.length_text] at hlen
  obtain ⟨rest, hbuf⟩ := h.text
  have hshows : e.num ≤ e.eolNum → Shows n { e with num := e.eolNum } (l.press .toEnd) := by
    intro hle
    refine ⟨h.buf_length, h.escSave_length, h.escLen, ?_, ?_, h.insert, ⟨rest, ?_⟩⟩
    · exact heol.trans List.length_append.symm
    · exact heol.trans List.length_append.symm
    · exact hbuf.trans (List.append_assoc _ _ _).symm
  unfold Editor.refreshToEol
  split
  · rename_i hlt
    rw [usub_eq hlt.le (by omega), putnstr_ok (by omega), ok_bind]
    exact ⟨_, rfl, hshows hlt.le⟩
  · have hsame : e.num = e.eolNum := by omega
    have heq : ({ e with num := e.eolNum } : Editor) = e :=
      congrArg (fun k => ({ e with num := k } : Editor)) hsame.symm
    have h' := hshows (by omega)
    rw [heq] at h'
    exact ⟨e, rfl, h'⟩

theorem eraseLine_shows (h : Shows n e l) :
    Shows n e.beginningOfLine.eraseToEol (l.press .eraseLine) :=
  eraseToEnd_shows (home_shows h)

theorem toggle_shows (h : Shows n e l) :
    Shows n { e with insert := !e.insert } (l.press .toggle) :=
  ⟨h.buf_length, h.escSave_length, h.escLen, h.num, h.eolNum, congrArg (!·) h.insert, h.text⟩

theorem back_shows (h : Shows n e l) : Shows n e.back (l.press .back) := by
  have hnum := h.num
  have heol := h.eolNum
  obtain ⟨rest, hbuf⟩ := h.text
  obtain ⟨left, right, mode⟩ := l
  rcases List.eq_nil_or_concat' left with rfl | ⟨left, c, rfl⟩
  · have hzero : e.num = 0 := hnum
    have hsame : e.back = e := by rw [Editor.back, if_neg (not_not.mpr hzero)]
    rw [hsame]
    exact h
  · simp only [List.length_append, List.length_singleton] at hnum heol
    have hsame : e.back = { e with num := e.num - 1 } := by rw [Editor.back, if_pos (by omega)]
    rw [hsame]
    refine ⟨h.buf_length, h.escSave_length, h.escLen, ?_, ?_, h.insert, ⟨rest, ?_⟩⟩
    · simp only [CursorLine.press, List.dropLast_concat]
      omega
    · simp only [CursorLine.press, List.dropLast_concat, List.getLast?_concat,
        Option.toList_some, List.singleton_append, List.length_cons]
      omega
    · rw [hbuf]
      simp [CursorLine.press]

theorem forward_shows (h : Shows n e l) :
    ∃ e', e.forward = .ok e' ∧ Shows n e' (l.press .forward) := by
  have hnum := h.num
  have heol := h.eolNum
  obtain ⟨rest, hbuf⟩ := h.text
  obtain ⟨left, right, mode⟩ := l
  cases right with
  | nil =>
    have hend : ¬ e.num < e.eolNum := by
      simp only [List.length_nil] at hnum heol
      omega
    refine ⟨e, if_neg hend, ?_⟩
    have hpress : (⟨left, [], mode⟩ : CursorLine).press .forward = ⟨left, [], mode⟩ := by
      simp [CursorLine.press]
    rw [hpress]
    exact h
  | cons c right =>
    simp only [List.length_cons] at hnum heol
    have hload : load e.buf e.num = .ok c := by
      rw [hbuf]
      exact load_cut hnum
    refine ⟨{ e with num := e.num + 1 }, ?_, h.buf_length, h.escSave_length, h.escLen, ?_, ?_,
      h.insert, ⟨rest, ?_⟩⟩
    · rw [Editor.forward, if_pos (by omega), hload]
      rfl
    · simp only [CursorLine.press, List.head?_cons, Option.toList_some, List.length_append,
        List.length_singleton]
      omega
    · simp only [CursorLine.press, List.head?_cons, Option.toList_some, List.length_append,
        List.length_singleton, List.tail_cons]
      omega
    · rw [hbuf]
      simp [CursorLine.press]

theorem delete_shows (h : Shows n e l) (hlen : l.text.length < maxCmdbufSize) :
    ∃ e', e.deleteChar = .ok e' ∧ Shows n e' (l.press .delete) := by
  have hsize : maxCmdbufSize = 256 := rfl
  have hnum := h.num
  have heol := h.eolNum
  have hbufLen := h.buf_length
  obtain ⟨rest, hbuf⟩ := h.text
  rw [l.length_text] at hlen
  obtain ⟨left, right, mode⟩ := l
  cases right with
  | nil =>
    have hend : ¬ e.num < e.eolNum := by
      simp only [List.length_nil] at hnum heol
      omega
    exact ⟨e, if_neg hend, h⟩
  | cons c right =>
    simp only [List.length_cons] at hnum heol hlen
    have hwlen : usub e.eolNum (e.num + 1) = right.length := by
      rw [usub_eq (by omega) (by omega)]
      omega
    obtain ⟨rest', hmove⟩ := @memmove_down left right rest c e.num (e.num + 1) right.length hnum
      rfl rfl
    have hbuf' : e.buf = left ++ c :: (right ++ rest) := hbuf
    have hlength : (left ++ (right ++ rest')).length = e.buf.length := by
      obtain ⟨m, hm, hlength⟩ := @memmove_ok e.buf e.num (e.num + 1) right.length
        (by omega) (by omega)
      rw [hbuf', hmove] at hm
      cases hm
      exact hlength
    refine ⟨{ e with buf := left ++ (right ++ rest'), eolNum := e.eolNum - 1 }, ?_,
      hlength.trans hbufLen, h.escSave_length, h.escLen, hnum, ?_, h.insert, ⟨rest', rfl⟩⟩
    · rw [Editor.deleteChar, if_pos (by omega)]
      simp only [hwlen]
      rw [hbuf', hmove, ok_bind, putnstr_ok (by omega)]
      rfl
    · simp only [CursorLine.press, List.tail_cons]
      omega

theorem backspace_shows (h : Shows n e l) (hlen : l.text.length < maxCmdbufSize) :
    ∃ e', e.backspace = .ok e' ∧ Shows n e' (l.press .backspace) := by
  have hsize : maxCmdbufSize = 256 := rfl
  have hnum := h.num
  have heol := h.eolNum
  have hbufLen := h.buf_length
  obtain ⟨rest, hbuf⟩ := h.text
  rw [l.length_text] at hlen
  obtain ⟨left, right, mode⟩ := l
  rcases List.eq_nil_or_concat' left with rfl | ⟨left, c, rfl⟩
  · have hzero : e.num = 0 := hnum
    exact ⟨e, if_neg (not_not.mpr hzero), h⟩
  · simp only [List.length_append, List.length_singleton] at hnum heol hlen
    have hwlen : usub e.eolNum e.num = right.length := by
      rw [usub_eq (by omega) (by omega)]
      omega
    obtain ⟨rest', hmove⟩ := @memmove_down left right rest c (e.num - 1) (e.num - 1 + 1)
      right.length (by omega) rfl rfl
    have hbuf' : e.buf = left ++ c :: (right ++ rest) := by
      rw [hbuf]
      simp
    have hlength : (left ++ (right ++ rest')).length = e.buf.length := by
      obtain ⟨m, hm, hlength⟩ := @memmove_ok e.buf (e.num - 1) (e.num - 1 + 1) right.length
        (by omega) (by omega)
      rw [hbuf', hmove] at hm
      cases hm
      exact hlength
    refine ⟨{ e with
        buf := left ++ (right ++ rest'), num := e.num - 1, eolNum := e.eolNum - 1 },
      ?_, hlength.trans hbufLen, h.escSave_length, h.escLen, ?_, ?_, h.insert, ⟨rest', ?_⟩⟩
    · rw [Editor.backspace, if_pos (by omega)]
      simp only [hwlen]
      rw [hbuf', hmove, ok_bind, putnstr_ok (by omega)]
      rfl
    · simp only [CursorLine.press, List.dropLast_concat]
      omega
    · simp only [CursorLine.press, List.dropLast_concat]
      omega
    · simp [CursorLine.press]

end Keys

/-! ## One key -/

section Press

variable {hist : Hist} {e : Editor} {l : CursorLine} {k : EditKey} {n : Nat} {c : UInt8}
  {bytes : Bytes}

theorem keyOf_char (hprint : 0x20 ≤ c) (h127 : c ≠ 127) (h255 : c ≠ 255) : keyOf c = .char := by
  have hne : ∀ d : UInt8, d < 0x20 → c ≠ d := by
    rintro d hd rfl
    exact absurd hprint (UInt8.not_le.mpr hd)
  have hback : ¬ (c = 255 ∨ c = 127 ∨ c = 8) := by
    rintro (h | h | h)
    · exact h255 h
    · exact h127 h
    · exact hne 8 (by decide) h
  have hline : ¬ (c = ctlCh 0x78 ∨ c = ctlCh 0x75) := by
    rintro (h | h)
    · exact hne _ (by decide) h
    · exact hne _ (by decide) h
  rw [keyOf, if_neg (hne _ (by decide)), if_neg (hne _ (by decide)), if_neg (hne _ (by decide)),
    if_neg (hne _ (by decide)), if_neg (hne _ (by decide)), if_neg (hne _ (by decide)),
    if_neg (hne _ (by decide)), if_neg (hne _ (by decide)), if_neg (hne _ (by decide)),
    if_neg hline, if_neg hback, if_neg (hne _ (by decide)), if_neg (hne _ (by decide))]

/-- The last switch of `cread_line`, for the control character of a key. -/
theorem creadSwitch_shows (hs : Sends k [c]) (h : Shows 0 e l)
    (hlen : l.text.length < maxCmdbufSize - 1)
    (hpress : (l.press k).text.length < maxCmdbufSize - 1) :
    ∃ e', creadSwitch hist e c = .ok (.more hist e') ∧ Shows 0 e' (l.press k) := by
  have hwide : l.text.length < maxCmdbufSize := by omega
  cases hs with
  | char hprint h127 h255 =>
    obtain ⟨e', heq, hshows⟩ := char_shows h hpress
    refine ⟨e', ?_, hshows⟩
    rw [creadSwitch, keyOf_char hprint h127 h255]
    simp only
    rw [heq]
    rfl
  | home => exact ⟨_, rfl, home_shows h⟩
  | toEnd =>
    obtain ⟨e', heq, hshows⟩ := toEnd_shows h hwide
    exact ⟨e', congrArg (· >>= _) heq, hshows⟩
  | back => exact ⟨_, rfl, back_shows h⟩
  | forward =>
    obtain ⟨e', heq, hshows⟩ := forward_shows h
    exact ⟨e', congrArg (· >>= _) heq, hshows⟩
  | delete =>
    obtain ⟨e', heq, hshows⟩ := delete_shows h hwide
    exact ⟨e', congrArg (· >>= _) heq, hshows⟩
  | backspace hc =>
    obtain ⟨e', heq, hshows⟩ := backspace_shows h hwide
    refine ⟨e', ?_, hshows⟩
    rcases hc with rfl | rfl | rfl
    · exact congrArg (· >>= _) heq
    · exact congrArg (· >>= _) heq
    · exact congrArg (· >>= _) heq
  | eraseToEnd => exact ⟨_, rfl, eraseToEnd_shows h⟩
  | eraseLine hc =>
    refine ⟨_, ?_, eraseLine_shows h⟩
    rcases hc with rfl | rfl
    · rfl
    · rfl
  | toggle => exact ⟨_, rfl, toggle_shows h⟩

/-- No key sends the end of the line. -/
theorem Sends.not_enter (hs : Sends k [c]) : ¬ (c = 0x0A ∨ c = 0x0D) := by
  cases hs with
  | char hprint h127 h255 =>
    rintro (rfl | rfl)
    · exact absurd hprint (by decide)
    · exact absurd hprint (by decide)
  | backspace hc => rcases hc with rfl | rfl | rfl <;> decide
  | eraseLine hc => rcases hc with rfl | rfl <;> decide
  | home => decide
  | toEnd => decide
  | back => decide
  | forward => decide
  | delete => decide
  | eraseToEnd => decide
  | toggle => decide

theorem escape_shows (h : Shows 0 e l) :
    ∃ e', creadKey hist e 0x1B = .ok (.more hist e') ∧ Shows 1 e' l := by
  have hesc := h.escSave_length
  refine ⟨{ e with escSave := e.escSave.set 0 0x1B, escLen := 1 }, ?_, h.buf_length,
    by rw [List.length_set, hesc], rfl, h.num, h.eolNum, h.insert, h.text⟩
  rw [creadKey, if_neg (by decide), if_pos h.escLen]
  show (if e.escLen = 0 then _ else _) = _
  rw [if_pos h.escLen, h.escLen, store_ok (by omega)]
  rfl

theorem bracket_shows (h : Shows 1 e l) :
    ∃ e', creadKey hist e 0x5B = .ok (.more hist e') ∧ Shows 2 e' l := by
  have hesc := h.escSave_length
  refine ⟨{ e with escSave := e.escSave.set 1 0x5B, escLen := 2 }, ?_, h.buf_length,
    by rw [List.length_set, hesc], rfl, h.num, h.eolNum, h.insert, h.text⟩
  rw [creadKey, if_neg (by decide), h.escLen, if_neg (by decide), if_pos rfl, if_pos rfl,
    store_ok (by omega)]
  rfl

/-- The last character of a sequence is passed off to the key that it stands for. -/
theorem arrow_shows {x : UInt8} (hkey : escKey x = some c) (hx : ¬ (x = 0x0A ∨ x = 0x0D))
    (hs : Sends k [c]) (h : Shows 2 e l) (hlen : l.text.length < maxCmdbufSize - 1)
    (hpress : (l.press k).text.length < maxCmdbufSize - 1) :
    ∃ e', creadKey hist e x = .ok (.more hist e') ∧ Shows 0 e' (l.press k) := by
  have h' : Shows 0 { e with escLen := 0 } l :=
    ⟨h.buf_length, h.escSave_length, rfl, h.num, h.eolNum, h.insert, h.text⟩
  obtain ⟨e', heq, hshows⟩ := @creadSwitch_shows hist _ l k c hs h' hlen hpress
  refine ⟨e', ?_, hshows⟩
  rw [creadKey, if_neg hx, h.escLen, if_neg (by decide), if_neg (by decide), hkey]
  exact heq

theorem creadKeys_append {front rest : Bytes} {hist' : Hist} {e' : Editor}
    (hfront : creadKeys hist e front = .ok (.more hist' e')) :
    creadKeys hist e (front ++ rest) = creadKeys hist' e' rest := by
  induction front generalizing hist e with
  | nil =>
    cases hfront
    rfl
  | cons c front ih =>
    rw [creadKeys] at hfront
    obtain ⟨r, hr, hrest⟩ := bind_eq_ok.mp hfront
    rw [List.cons_append, creadKeys, hr, ok_bind]
    cases r with
    | more h e => exact ih hrest
    | done h rc buf len => cases hrest

theorem creadKeys_one {e' : Editor} (h : creadKey hist e c = .ok (.more hist e')) :
    creadKeys hist e [c] = .ok (.more hist e') := by
  rw [creadKeys, h]
  rfl

/-- **One key**: the buffer shows the line after it. -/
theorem sends_shows (hs : Sends k bytes) (h : Shows 0 e l)
    (hlen : l.text.length < maxCmdbufSize - 1)
    (hpress : (l.press k).text.length < maxCmdbufSize - 1) :
    ∃ e', creadKeys hist e bytes = .ok (.more hist e') ∧ Shows 0 e' (l.press k) := by
  have hone : ∀ {c}, Sends k [c] →
      ∃ e', creadKeys hist e [c] = .ok (.more hist e') ∧ Shows 0 e' (l.press k) := by
    intro c hs
    obtain ⟨e', heq, hshows⟩ := @creadSwitch_shows hist e l k c hs h hlen hpress
    refine ⟨e', creadKeys_one ?_, hshows⟩
    rw [creadKey, if_neg hs.not_enter, if_pos h.escLen]
    exact heq
  have harrow : ∀ {c x}, escKey x = some c → ¬ (x = 0x0A ∨ x = 0x0D) → Sends k [c] →
      ∃ e', creadKeys hist e [0x1B, 0x5B, x] = .ok (.more hist e') ∧
        Shows 0 e' (l.press k) := by
    intro c x hkey hx hs
    obtain ⟨e₁, heq₁, h₁⟩ := @escape_shows hist e l h
    obtain ⟨e₂, heq₂, h₂⟩ := @bracket_shows hist e₁ l h₁
    obtain ⟨e₃, heq₃, h₃⟩ := @arrow_shows hist e₂ l k c x hkey hx hs h₂ hlen hpress
    refine ⟨e₃, ?_, h₃⟩
    rw [creadKeys, heq₁, ok_bind]
    show creadKeys hist e₁ [0x5B, x] = _
    rw [creadKeys, heq₂, ok_bind]
    exact creadKeys_one heq₃
  cases hs with
  | homeKey => exact harrow rfl (by decide) .home
  | leftKey => exact harrow rfl (by decide) .back
  | rightKey => exact harrow rfl (by decide) .forward
  | char hprint h127 h255 => exact hone (.char hprint h127 h255)
  | home => exact hone .home
  | toEnd => exact hone .toEnd
  | back => exact hone .back
  | forward => exact hone .forward
  | delete => exact hone .delete
  | backspace hc => exact hone (.backspace hc)
  | eraseToEnd => exact hone .eraseToEnd
  | eraseLine hc => exact hone (.eraseLine hc)
  | toggle => exact hone .toggle

/-- In a sequence that is not complete the line is still shown. -/
theorem prefix_shows {pre : Bytes} (hpre : pre <+: [0x1B, 0x5B]) (h : Shows 0 e l) :
    ∃ n e', n ≤ 2 ∧ creadKeys hist e pre = .ok (.more hist e') ∧ Shows n e' l := by
  obtain ⟨e₁, heq₁, h₁⟩ := @escape_shows hist e l h
  obtain ⟨e₂, heq₂, h₂⟩ := @bracket_shows hist e₁ l h₁
  rcases List.prefix_cons_iff.mp hpre with rfl | ⟨t, rfl, ht⟩
  · exact ⟨0, e, by decide, rfl, h⟩
  · rcases List.prefix_cons_iff.mp ht with rfl | ⟨t', rfl, ht'⟩
    · exact ⟨1, e₁, by decide, creadKeys_one heq₁, h₁⟩
    · cases List.prefix_nil.mp ht'
      refine ⟨2, e₂, by decide, ?_, h₂⟩
      rw [creadKeys, heq₁, ok_bind]
      exact creadKeys_one heq₂

/-- A key adds nothing to the line but its character. -/
theorem mem_press {x : UInt8} (hx : x ∈ (l.press k).text) : x ∈ l.text ∨ k = .char x := by
  have hleft : x ∈ l.left → x ∈ l.text := fun h => List.mem_append_left _ h
  have hright : x ∈ l.right → x ∈ l.text := fun h => List.mem_append_right _ h
  have htail : x ∈ l.right.tail → x ∈ l.text := fun h => hright (List.mem_of_mem_tail h)
  have hinit : x ∈ l.left.dropLast → x ∈ l.text := fun h => hleft (List.dropLast_subset _ h)
  cases k with
  | char c =>
    rcases List.mem_append.mp hx with hx | hx
    · rcases List.mem_append.mp hx with hx | hx
      · exact .inl (hleft hx)
      · exact .inr (congrArg EditKey.char (List.mem_singleton.mp hx).symm)
    · simp only [CursorLine.press] at hx
      split at hx
      · exact .inl (hright hx)
      · exact .inl (htail hx)
  | home => exact .inl hx
  | toEnd =>
    rw [CursorLine.text, CursorLine.press, List.append_nil] at hx
    exact .inl hx
  | back =>
    left
    rcases List.mem_append.mp hx with hx | hx
    · exact hinit hx
    · rcases List.mem_append.mp hx with hx | hx
      · exact hleft (List.mem_of_getLast? (Option.mem_toList.mp hx))
      · exact hright hx
  | forward =>
    left
    rcases List.mem_append.mp hx with hx | hx
    · rcases List.mem_append.mp hx with hx | hx
      · exact hleft hx
      · exact hright (List.mem_of_mem_head? (Option.mem_toList.mp hx))
    · exact htail hx
  | delete =>
    left
    rcases List.mem_append.mp hx with hx | hx
    · exact hleft hx
    · exact htail hx
  | backspace =>
    left
    rcases List.mem_append.mp hx with hx | hx
    · exact hinit hx
    · exact hright hx
  | eraseToEnd =>
    left
    rw [CursorLine.text, CursorLine.press, List.append_nil] at hx
    exact hleft hx
  | eraseLine => cases hx
  | toggle => exact .inl hx

theorem zero_not_mem_press (hs : Sends k bytes) (h0 : 0 ∉ l.text) : 0 ∉ (l.press k).text := by
  intro h
  rcases mem_press h with h | rfl
  · exact h0 h
  · cases hs with
    | char hprint h127 h255 => exact absurd hprint (by decide)

end Press

/-! ## All keys -/

/-- Keys, each with the characters that it sends, are pressed one after the other. -/
def CursorLine.pressAll (l : CursorLine) (keys : List (EditKey × Bytes)) : CursorLine :=
  keys.foldl (fun l k => l.press k.1) l

/-- The line after the keys of a call of `cread_line`. -/
def CursorLine.typed (s : Start) (keys : List (EditKey × Bytes)) : CursorLine :=
  (CursorLine.ofString (cstr s.buf)).pressAll keys

section All

variable {hist : Hist} {e : Editor} {l : CursorLine} {n : Nat} {keys : List (EditKey × Bytes)}

/-- **All keys**: the buffer shows the line after them. -/
theorem creadKeys_shows (hs : ∀ k ∈ keys, Sends k.1 k.2) (h : Shows 0 e l)
    (hshort : ∀ front, front <+: keys → (l.pressAll front).text.length < maxCmdbufSize - 1) :
    ∃ e', creadKeys hist e (keys.flatMap Prod.snd) = .ok (.more hist e') ∧
      Shows 0 e' (l.pressAll keys) := by
  induction keys generalizing e l with
  | nil => exact ⟨e, rfl, h⟩
  | cons k keys ih =>
    obtain ⟨e₁, heq₁, h₁⟩ := @sends_shows hist e l k.1 k.2 (hs k List.mem_cons_self) h
      (hshort [] List.nil_prefix) (hshort [k] ⟨keys, rfl⟩)
    obtain ⟨e₂, heq₂, h₂⟩ := ih (fun k' hk' => hs k' (List.mem_cons_of_mem _ hk')) h₁
      (fun front hfront => hshort (k :: front) (List.prefix_cons_inj k |>.mpr hfront))
    refine ⟨e₂, ?_, h₂⟩
    rw [List.flatMap_cons, creadKeys_append heq₁]
    exact heq₂

theorem zero_not_mem_pressAll (hs : ∀ k ∈ keys, Sends k.1 k.2) (h0 : 0 ∉ l.text) :
    0 ∉ (l.pressAll keys).text := by
  induction keys generalizing l with
  | nil => exact h0
  | cons k keys ih =>
    exact ih (fun k' hk' => hs k' (List.mem_cons_of_mem _ hk'))
      (zero_not_mem_press (hs k List.mem_cons_self) h0)

/-- The string that is in the buffer at the start is shown at first. -/
theorem creadAddStr_shows {str : Bytes} (h : Shows 0 e l) (hright : l.right = [])
    (hins : l.insert = true) (hlen : l.left.length + str.length < maxCmdbufSize - 1) :
    ∃ e', Editor.creadAddStr str true maxCmdbufSize e = .ok e' ∧
      Shows 0 e' ⟨l.left ++ str, [], true⟩ := by
  induction str generalizing e l with
  | nil =>
    refine ⟨e, rfl, ?_⟩
    obtain ⟨left, right, mode⟩ := l
    simp only at hright hins
    subst hright hins
    rw [List.append_nil]
    exact h
  | cons c str ih =>
    have hpress : l.press (.char c) = ⟨l.left ++ [c], [], true⟩ := by
      rw [CursorLine.press, hins, if_pos rfl, hright]
    rw [List.length_cons] at hlen
    obtain ⟨e₁, heq₁, h₁⟩ := @char_shows e l 0 c h (by
      rw [hpress, CursorLine.length_text]
      simp only [List.length_append, List.length_singleton, List.length_nil]
      omega)
    rw [hpress] at h₁
    rw [h.insert, hins] at heq₁
    obtain ⟨e₂, heq₂, h₂⟩ := ih h₁ rfl rfl (by
      simp only [List.length_append, List.length_singleton]
      omega)
    refine ⟨e₂, ?_, ?_⟩
    · rw [Editor.creadAddStr, heq₁, ok_bind]
      exact heq₂
    · rw [List.append_assoc] at h₂
      exact h₂

theorem creadStart_shows (s : Start) (hlen : (cstr s.buf).length < maxCmdbufSize - 1) :
    ∃ e, creadStart s.escSave s.buf = .ok e ∧ Shows 0 e (.ofString (cstr s.buf)) := by
  have hinit : Shows 0 ⟨0, 0, true, 0, s.escSave, s.buf⟩ ⟨[], [], true⟩ :=
    ⟨s.buf_length, s.escSave_length, rfl, rfl, rfl, rfl, ⟨s.buf, rfl⟩⟩
  obtain ⟨e, heq, h⟩ := @creadAddStr_shows _ _ (cstr s.buf) hinit rfl rfl (by
    rw [List.length_nil]
    omega)
  refine ⟨e, ?_, h⟩
  rw [creadStart, strAt_zero s.terminated]
  exact heq

/-- The line that is returned. -/
theorem creadEnd_shows (hh : hist.Ok) (h : Shows n e l)
    (hlen : l.text.length < maxCmdbufSize - 1) :
    ∃ hist' rest, creadEnd hist e =
      .ok (.done hist' 0 (l.text ++ 0 :: rest) l.text.length) := by
  have hsize : maxCmdbufSize = 256 := rfl
  have heol : e.eolNum = l.text.length := h.eolNum.trans l.length_text.symm
  have hbufLen := h.buf_length
  obtain ⟨rest, hbuf⟩ := h.text
  rw [← List.append_assoc] at hbuf
  have hlength := congrArg List.length hbuf
  rw [List.length_append] at hlength
  have htext : (l.left ++ l.right).length = l.text.length := rfl
  obtain ⟨x, rest, rfl⟩ := List.exists_cons_of_length_pos (show 0 < rest.length by omega)
  have hset : e.buf.set e.eolNum 0 = l.text ++ 0 :: rest := by
    rw [hbuf]
    exact set_cut heol
  have hzero : 0 ∈ l.text ++ 0 :: rest := List.mem_append_right _ List.mem_cons_self
  have hstored : (l.text ++ 0 :: rest).length = maxCmdbufSize := by
    rw [← hset, List.length_set, hbufLen]
  rw [creadEnd, store_ok (by omega), ok_bind, hset, load_ok (by omega), ok_bind]
  split
  · have hstr := length_cstr_lt hzero
    obtain ⟨new, hadd, -⟩ := @creadAddToHist_ok hist (cstr (l.text ++ 0 :: rest)) hh (by omega)
    rw [strAt_zero hzero, ok_bind, hadd, ok_bind, heol]
    exact ⟨_, rest, rfl⟩
  · rw [heol]
    exact ⟨_, rest, rfl⟩

/-- The buffer up to the end of the line, the indices and the mode are those of a line. -/
structure Agrees (e : Editor) (l : CursorLine) : Prop where
  text : e.buf.take e.eolNum = l.left ++ l.right
  num : e.num = l.left.length
  eolNum : e.eolNum = l.left.length + l.right.length
  insert : e.insert = l.insert

theorem Shows.agrees (h : Shows n e l) : Agrees e l := by
  obtain ⟨rest, hbuf⟩ := h.text
  refine ⟨?_, h.num, h.eolNum, h.insert⟩
  rw [hbuf, h.eolNum, ← List.append_assoc, ← List.length_append, List.take_left]

/-- **The line editor is the abstract one**, for every line that stays short enough, whatever has
been typed before. -/
theorem creadLine_refines {run : List (Console × Event)}
    (hrun : Run Console.Step (.idle histInit) run (.idle hist))
    (hallowed : ∀ p ∈ run, p.1.Allowed p.2) (s : Start) (hs : ∀ k ∈ keys, Sends k.1 k.2)
    (hshort : ∀ front, front <+: keys →
      (CursorLine.typed s front).text.length < maxCmdbufSize - 1)
    {pre : Bytes} (hpre : pre <+: [0x1B, 0x5B]) :
    ∃ e₀ e, creadStart s.escSave s.buf = .ok e₀ ∧
      creadKeys hist e₀ (keys.flatMap Prod.snd ++ pre) = .ok (.more hist e) ∧
      Agrees e (.typed s keys) ∧
      ∀ c, c = 0x0A ∨ c = 0x0D → ∃ hist' buf,
        creadKey hist e c = .ok (.done hist' 0 buf (CursorLine.typed s keys).text.length) ∧
        cstr buf = (CursorLine.typed s keys).left ++ (CursorLine.typed s keys).right := by
  have hh : hist.Ok := hrun.invariant Console.Ok Console.Allowed
    (fun h ha hstep => hstep.ok h ha) histInit_ok hallowed
  have hstart : (cstr s.buf).length < maxCmdbufSize - 1 := by
    have hlen := hshort [] List.nil_prefix
    rw [CursorLine.length_text] at hlen
    exact hlen
  have h0 : 0 ∉ (CursorLine.ofString (cstr s.buf)).text := by
    rw [CursorLine.text, CursorLine.ofString, List.append_nil]
    exact zero_not_mem_cstr s.buf
  obtain ⟨e₀, heq₀, hshows₀⟩ := creadStart_shows s hstart
  obtain ⟨e₁, heq₁, hshows₁⟩ := @creadKeys_shows hist e₀ _ keys hs hshows₀ hshort
  obtain ⟨n, e, hn, heq, hshows⟩ := @prefix_shows hist e₁ _ pre hpre hshows₁
  refine ⟨e₀, e, heq₀, ?_, hshows.agrees, ?_⟩
  · rw [creadKeys_append heq₁]
    exact heq
  · intro c hc
    obtain ⟨hist', rest, heq'⟩ := creadEnd_shows hh hshows (hshort keys (List.prefix_refl _))
    refine ⟨hist', (CursorLine.typed s keys).text ++ 0 :: rest, ?_,
      cstr_append (zero_not_mem_pressAll hs h0)⟩
    rw [creadKey, if_pos hc]
    exact heq'

end All

/-- `b`, the left arrow and `c`. -/
def someKeys : List (EditKey × Bytes) :=
  [(.char 0x62, [0x62]), (.back, [0x1B, 0x5B, 0x44]), (.char 0x63, [0x63])]

/-- Behind three characters, and with a sequence begun. -/
theorem creadLine_refines_keys : ∃ e₀ e,
    creadStart (Console.startOf 3 (by decide)).escSave (Console.startOf 3 (by decide)).buf =
        .ok e₀ ∧
      creadKeys histInit e₀ (someKeys.flatMap Prod.snd ++ [0x1B]) = .ok (.more histInit e) ∧
      Agrees e (.typed (Console.startOf 3 (by decide)) someKeys) ∧
      ∀ c, c = 0x0A ∨ c = 0x0D → ∃ hist' buf,
        creadKey histInit e c = .ok (.done hist' 0 buf
          (CursorLine.typed (Console.startOf 3 (by decide)) someKeys).text.length) ∧
        cstr buf = (CursorLine.typed (Console.startOf 3 (by decide)) someKeys).left ++
          (CursorLine.typed (Console.startOf 3 (by decide)) someKeys).right := by
  refine creadLine_refines Run.refl ?_ (Console.startOf 3 (by decide)) ?_ ?_ (by decide)
  · intro p hp
    cases hp
  · intro k hk
    simp only [someKeys, List.mem_cons, List.not_mem_nil, or_false] at hk
    rcases hk with rfl | rfl | rfl
    · exact .char (by decide) (by decide) (by decide)
    · exact .leftKey
    · exact .char (by decide) (by decide) (by decide)
  · intro front hfront
    rcases List.prefix_cons_iff.mp hfront with rfl | ⟨t₁, rfl, h₁⟩
    · decide
    · rcases List.prefix_cons_iff.mp h₁ with rfl | ⟨t₂, rfl, h₂⟩
      · decide
      · rcases List.prefix_cons_iff.mp h₂ with rfl | ⟨t₃, rfl, h₃⟩
        · decide
        · cases List.prefix_nil.mp h₃
          decide

end UBoot.Common
