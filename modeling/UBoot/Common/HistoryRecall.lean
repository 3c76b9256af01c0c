import UBoot.Common.LineEditBounds
import UBoot.Lib.Recent

/-!
# The recall of lines

The three indices of the history against a list of the lines that were entered, the last one first,
and a cursor into it.

* `histPrev_eq`, `histNext_eq`: the indices move as the cursor does.
* `recall_follows`: in every run the keys show the lines that the cursor points to, if no line is
  broken off while the cursor points to one.
-/

namespace UBoot.Common

open UBoot.Lib

/-- The lines that were entered, the last one first, and which of them is shown: none for 0. -/
structure Recall where
  entered : List Bytes
  cursor : Nat

namespace Recall

/-- How many lines can be recalled. -/
def top (r : Recall) : Nat := min r.entered.length (histMaxLines - 1)

def up (r : Recall) : Recall := { r with cursor := min (r.cursor + 1) r.top }

def down (r : Recall) : Recall := { r with cursor := max (r.cursor - 1) 0 }

/-- The line that the cursor points to. -/
def shown (r : Recall) : Bytes := if r.cursor = 0 then [] else r.entered.getD (r.cursor - 1) []

/-- A line is broken off. -/
def reset (r : Recall) : Recall := { r with cursor := 0 }

/-- A line is entered. -/
def enter (r : Recall) (s : Bytes) : Recall :=
  if s ≠ [] ∧ s.head? ≠ some creadHistChar then ⟨s :: r.entered, 0⟩ else r.reset

end Recall

/-! ## The indices -/

/-- The history holds the lines, and its index is that of the cursor. -/
structure Tracks (h : Hist) (r : Recall) : Prop where
  addIdx : h.histAddIdx = r.entered.length % histMaxLines
  max : h.histMax = min r.entered.length (histMaxLines - 1)
  keeps : Keeps histMaxLines (fun i => cstr (h.histLines.getD i [])) r.entered
  cursor_le : r.cursor ≤ r.top
  cur : h.histCur = -1 ∧ r.entered.length = 0 ∨
    h.histCur = ((r.entered.length - r.cursor) % histMaxLines : Nat)

section Indices

variable {h : Hist} {r : Recall} {n c : Nat}

theorem tracks_init : Tracks histInit ⟨[], 0⟩ :=
  ⟨rfl, rfl, keeps_nil, Nat.zero_le _, Or.inl ⟨rfl, rfl⟩⟩

/-- One slot back in the ring. -/
theorem slot_pred (hc : c < n) : ((n - c) % 20 = 0 → (n - (c + 1)) % 20 = 19) ∧
    ((n - c) % 20 ≠ 0 → (n - (c + 1)) % 20 + 1 = (n - c) % 20) := by
  omega

theorem slot_ne (hpos : 0 < c) (hc : c ≤ n) (hlt : c < 20) : (n - c) % 20 ≠ n % 20 := by
  omega

theorem histPrev_eq (ht : Tracks h r) : histPrev h =
    if r.cursor < r.top then
      ({ h with histCur := ((r.entered.length - (r.cursor + 1)) % histMaxLines : Nat) },
        some ((r.entered.length - (r.cursor + 1)) % histMaxLines))
    else (h, none) := by
  obtain ⟨hadd, hmax, -, hle, hcur⟩ := ht
  unfold Recall.top histMaxLines at *
  generalize r.entered.length = n at *
  generalize r.cursor = c at *
  unfold histPrev
  rcases hcur with ⟨hcur, hzero⟩ | hcur
  · rw [if_pos (by omega), if_neg (by omega)]
  · rw [if_neg (by omega)]
    dsimp only
    by_cases hlt : c < min n (20 - 1)
    · rw [if_pos hlt]
      have hpred := @slot_pred n c (by omega)
      have hother := @slot_ne n (c + 1) (by omega) (by omega) (by omega)
      have hnew : (if h.histCur - 1 < 0 then (h.histMax : Int) else h.histCur - 1) =
          ((n - (c + 1)) % 20 : Nat) := by
        split <;> omega
      rw [hnew, if_neg (by omega)]
      rfl
    · rw [if_neg hlt]
      have hstop : (if h.histCur - 1 < 0 then (h.histMax : Int) else h.histCur - 1) =
          h.histAddIdx := by
        split <;> omega
      rw [hstop, if_pos rfl]

theorem histNext_eq (ht : Tracks h r) : histNext h =
    if r.cursor = 0 then (h, .null)
    else
      ({ h with histCur := ((r.entered.length - (r.cursor - 1)) % histMaxLines : Nat) },
        if r.cursor = 1 then .empty
        else .line ((r.entered.length - (r.cursor - 1)) % histMaxLines)) := by
  obtain ⟨hadd, hmax, -, hle, hcur⟩ := ht
  unfold Recall.top histMaxLines at *
  generalize r.entered.length = n at *
  generalize r.cursor = c at *
  unfold histNext
  rcases hcur with ⟨hcur, hzero⟩ | hcur
  · rw [if_pos (by omega), if_pos (by omega)]
  · rw [if_neg (by omega)]
    by_cases hc : c = 0
    · rw [if_pos hc, if_pos (by subst hc; omega)]
    · have hother := @slot_ne n c (by omega) (by omega) (by omega)
      rw [if_neg hc, if_neg (by omega)]
      have hpred := @slot_pred n (c - 1) (by omega)
      rw [Nat.sub_add_cancel (by omega)] at hpred
      have hnew : (if (h.histMax : Int) < h.histCur + 1 then 0 else h.histCur + 1) =
          ((n - (c - 1)) % 20 : Nat) := by
        split <;> omega
      rw [hnew]
      by_cases hone : c = 1
      · rw [if_pos hone, if_pos (by subst hone; omega)]
      · have hother' := @slot_ne n (c - 1) (by omega) (by omega) (by omega)
        rw [if_neg hone, if_neg (by omega)]
        rfl

end Indices

/-! ## The keys -/

/-- The key that a character stands for, if it is one. -/
def keyAt (e : Editor) (ichar : UInt8) : Option Key :=
  if ichar = 0x0A ∨ ichar = 0x0D then none
  else if e.escLen = 0 then some (keyOf ichar)
  else if e.escLen = 1 then none
  else (escKey ichar).map keyOf

/-- The line that is shown. -/
def Editor.line (e : Editor) : Bytes := e.buf.take e.eolNum

/-- The lines that can be recalled after an event. -/
def Recall.after (r : Recall) : Console → Event → Recall
  | .editing _ e, .key c =>
    if c = 0x0A ∨ c = 0x0D then r.enter (cstr e.line)
    else
      match keyAt e c with
      | some .histPrev => r.up
      | some .histNext => r.down
      | some .abort => r.reset
      | _ => r
  | _, _ => r

/-- Nothing of the line has changed. -/
def SameLine (e e' : Editor) : Prop := e'.buf = e.buf ∧ e'.num = e.num ∧ e'.eolNum = e.eolNum

/-- A key shows the line that the cursor points to after it; one that does not move the cursor
leaves the line as it is. -/
def ShowsLine (h : Hist) (e : Editor) (c : UInt8) (r r' : Recall) : Prop :=
  ∃ h' e', creadKey h e c = .ok (.more h' e') ∧
    if r'.cursor = r.cursor then SameLine e e' else e'.line = r'.shown

section Keys

variable {h h' : Hist} {e e' : Editor} {r : Recall} {c : UInt8} {key : Key} {s new : Bytes}
  {res : CreadResult}

theorem creadKey_recall (hkey : keyAt e c = some key)
    (hrecall : key = .histPrev ∨ key = .histNext) : creadKey h e c = histRecall h e key := by
  unfold keyAt at hkey
  unfold creadKey
  by_cases hend : c = 0x0A ∨ c = 0x0D
  · rw [if_pos hend] at hkey
    cases hkey
  · rw [if_neg hend] at hkey ⊢
    by_cases h0 : e.escLen = 0
    · rw [if_pos h0] at hkey ⊢
      have hkey := Option.some.inj hkey
      unfold creadSwitch
      rw [hkey]
      rcases hrecall with rfl | rfl
      · rfl
      · rfl
    · rw [if_neg h0] at hkey ⊢
      by_cases h1 : e.escLen = 1
      · rw [if_pos h1] at hkey
        cases hkey
      · rw [if_neg h1] at hkey ⊢
        obtain ⟨ctl, hctl, hkey⟩ := Option.map_eq_some_iff.mp hkey
        rw [hctl]
        dsimp only
        unfold creadSwitch
        rw [hkey]
        rcases hrecall with rfl | rfl
        · rfl
        · rfl

/-- A line that is kept. -/
theorem Tracks.line_eq {k : Nat} (ht : Tracks h r) (hcap : k < histMaxLines)
    (hk : k < r.entered.length) :
    cstr (h.histLines.getD ((r.entered.length - (k + 1)) % histMaxLines) []) =
      r.entered.getD k [] := by
  rw [List.getD_eq_getElem?_getD (l := r.entered), List.getElem?_eq_getElem hk, Option.getD_some]
  exact ht.keeps k hcap _ (List.getElem?_eq_getElem hk)

theorem recall_prev_eq (ht : Tracks h r) (hh : h.Ok) (he : e.Ok (maxCmdbufSize - 1)) :
    ∃ h' e', histRecall h e .histPrev = .ok (.more h' e') ∧ Tracks h' r.up ∧
      if r.up.cursor = r.cursor then SameLine e e' else e'.line = r.up.shown := by
  have he' : ({ e with escLen := 0 } : Editor).Ok (maxCmdbufSize - 1) :=
    ⟨he.buf_length, he.escSave_length, he.num_le, he.eolNum_le, Nat.zero_le _⟩
  have hprev := histPrev_eq ht
  have hbound := histPrev_ok hh
  have hle := ht.cursor_le
  unfold histRecall
  dsimp only
  rw [if_pos rfl]
  by_cases hlt : r.cursor < r.top
  · rw [if_pos hlt] at hprev
    have hcursor : r.up.cursor = r.cursor + 1 := Nat.min_eq_left hlt
    have hn : r.cursor < r.entered.length := hlt.trans_le (Nat.min_le_left _ _)
    have hcap : r.cursor < histMaxLines := by
      have : r.top ≤ histMaxLines - 1 := Nat.min_le_right _ _
      omega
    rw [hprev] at hbound ⊢
    obtain ⟨hline, hlen⟩ := histLine_ok hbound.1 (hbound.2 _ rfl)
    obtain ⟨e', hshow, -, hnew⟩ := showLine_ok he' hlen
    refine ⟨{ h with histCur := ((r.entered.length - (r.cursor + 1)) % histMaxLines : Nat) }, e',
      ?_, ⟨ht.addIdx, ht.max, ht.keeps, ?_, Or.inr ?_⟩, ?_⟩
    · dsimp only
      rw [hline, ok_bind, hshow, ok_bind]
      rfl
    · exact Nat.min_le_right _ _
    · rw [hcursor]
      rfl
    · rw [if_neg (by omega), Recall.shown, if_neg (by omega), hcursor, Nat.add_sub_cancel]
      exact hnew.trans (ht.line_eq hcap hn)
  · rw [if_neg hlt] at hprev
    have hsame : r.up = r := by
      have hmin : min (r.cursor + 1) r.top = r.cursor := by omega
      rw [Recall.up, hmin]
    rw [hprev, hsame]
    refine ⟨h, _, rfl, ht, ?_⟩
    rw [if_pos rfl]
    exact ⟨rfl, rfl, rfl⟩

theorem recall_next_eq (ht : Tracks h r) (hh : h.Ok) (he : e.Ok (maxCmdbufSize - 1)) :
    ∃ h' e', histRecall h e .histNext = .ok (.more h' e') ∧ Tracks h' r.down ∧
      if r.down.cursor = r.cursor then SameLine e e' else e'.line = r.down.shown := by
  have he' : ({ e with escLen := 0 } : Editor).Ok (maxCmdbufSize - 1) :=
    ⟨he.buf_length, he.escSave_length, he.num_le, he.eolNum_le, Nat.zero_le _⟩
  have hnext := histNext_eq ht
  have hbound := histNext_ok hh
  have hle := ht.cursor_le
  have hcursor : r.down.cursor = r.cursor - 1 := Nat.max_eq_left (Nat.zero_le _)
  unfold histRecall
  dsimp only
  rw [if_neg (by decide)]
  by_cases hzero : r.cursor = 0
  · rw [if_pos hzero] at hnext
    have hsame : r.down = r := by
      have hmax : max (r.cursor - 1) 0 = r.cursor := by omega
      rw [Recall.down, hmax]
    rw [hnext, hsame]
    refine ⟨h, _, rfl, ht, ?_⟩
    rw [if_pos rfl]
    exact ⟨rfl, rfl, rfl⟩
  · rw [if_neg hzero] at hnext
    have htracks : Tracks { h with histCur := ((r.entered.length - (r.cursor - 1)) %
        histMaxLines : Nat) } r.down := by
      refine ⟨ht.addIdx, ht.max, ht.keeps, ?_, Or.inr ?_⟩
      · rw [hcursor]
        show r.cursor - 1 ≤ r.top
        omega
      · rw [hcursor]
        rfl
    by_cases hone : r.cursor = 1
    · rw [if_pos hone] at hnext
      rw [hnext]
      obtain ⟨e', hshow, -, hnew⟩ := @showLine_ok _ _ [] he' (Nat.zero_le _)
      refine ⟨{ h with histCur := ((r.entered.length - (r.cursor - 1)) % histMaxLines : Nat) }, e',
        ?_, htracks, ?_⟩
      · dsimp only
        rw [hshow]
        rfl
      · rw [if_neg (by omega), Recall.shown, if_pos (by omega)]
        exact hnew
    · rw [if_neg hone] at hnext
      have htop : r.cursor ≤ min r.entered.length (histMaxLines - 1) := hle
      have hn : r.cursor - 2 < r.entered.length := by omega
      have hcap : r.cursor - 2 < histMaxLines := by omega
      rw [hnext] at hbound ⊢
      obtain ⟨hline, hlen⟩ := histLine_ok hbound.1 (hbound.2 _ rfl)
      have hstored := ht.line_eq hcap hn
      have hback : r.cursor - 2 + 1 = r.cursor - 1 := by omega
      rw [hback] at hstored
      obtain ⟨e', hshow, -, hnew⟩ := showLine_ok he' hlen
      refine ⟨{ h with histCur := ((r.entered.length - (r.cursor - 1)) % histMaxLines : Nat) }, e',
        ?_, htracks, ?_⟩
      · dsimp only
        rw [hline, ok_bind, hshow, ok_bind]
        rfl
      · have hindex : r.cursor - 1 - 1 = r.cursor - 2 := by omega
        rw [if_neg (by omega), Recall.shown, if_neg (by omega), hcursor, hindex]
        exact hnew.trans hstored

end Keys

/-! ## The other characters -/

section Others

variable {h h' : Hist} {e e' : Editor} {r : Recall} {c : UInt8} {m rest s : Bytes} {n : Nat}
  {res : CreadResult}

/-- The history is left as it is, and only `^C` ends the line. -/
def Leaves (h : Hist) (key : Option Key) (res : CreadResult) : Prop :=
  if key = some .abort then ∃ rc buf len, res = .done h rc buf len else ∃ e, res = .more h e

theorem creadSwitch_leaves (hprev : keyOf c ≠ .histPrev) (hnext : keyOf c ≠ .histNext)
    (heq : creadSwitch h e c = .ok res) : Leaves h (some (keyOf c)) res := by
  have hmap : ∀ {x : Exec Editor}, (do return CreadResult.more h (← x)) = .ok res →
      ∃ e', res = .more h e' := by
    intro x hx
    obtain ⟨e', -, hres⟩ := bind_eq_ok.mp hx
    cases hres
    exact ⟨e', rfl⟩
  unfold creadSwitch at heq
  unfold Leaves
  cases hk : keyOf c <;> rw [hk] at heq hprev hnext <;> dsimp only at heq
  case abort =>
    rw [if_pos rfl]
    obtain ⟨m, -, hres⟩ := bind_eq_ok.mp heq
    cases hres
    exact ⟨_, _, _, rfl⟩
  case histPrev => exact absurd rfl hprev
  case histNext => exact absurd rfl hnext
  all_goals rw [if_neg (by decide)]
  case escape =>
    split at heq
    · obtain ⟨m, -, hres⟩ := bind_eq_ok.mp heq
      cases hres
      exact ⟨_, rfl⟩
    · cases heq
      exact ⟨_, rfl⟩
  case forward | deleteChar | refreshToEol | backspace | char => exact hmap heq
  all_goals
    cases heq
    exact ⟨_, rfl⟩

theorem creadKey_leaves (hend : ¬ (c = 0x0A ∨ c = 0x0D)) (hprev : keyAt e c ≠ some .histPrev)
    (hnext : keyAt e c ≠ some .histNext) (heq : creadKey h e c = .ok res) :
    Leaves h (keyAt e c) res := by
  unfold keyAt at *
  unfold creadKey at heq
  rw [if_neg hend] at *
  by_cases h0 : e.escLen = 0
  · rw [if_pos h0] at *
    exact creadSwitch_leaves (fun h => hprev (congrArg some h)) (fun h => hnext (congrArg some h))
      heq
  · rw [if_neg h0] at *
    by_cases h1 : e.escLen = 1
    · rw [if_pos h1] at *
      unfold Leaves
      rw [if_neg (by decide)]
      split at heq
      · obtain ⟨m, -, hres⟩ := bind_eq_ok.mp heq
        cases hres
        exact ⟨_, rfl⟩
      · obtain ⟨e', -, hres⟩ := bind_eq_ok.mp heq
        cases hres
        exact ⟨_, rfl⟩
    · rw [if_neg h1] at *
      cases hkey : escKey c with
      | some key =>
        rw [hkey] at heq hprev hnext
        exact creadSwitch_leaves (fun h => hprev (congrArg some h))
          (fun h => hnext (congrArg some h)) heq
      | none =>
        rw [hkey] at heq
        unfold Leaves
        rw [Option.map_none, if_neg (by decide)]
        obtain ⟨m, -, hres⟩ := bind_eq_ok.mp heq
        obtain ⟨e', -, hres⟩ := bind_eq_ok.mp hres
        cases hres
        exact ⟨_, rfl⟩

theorem cstr_append_zero : cstr (m ++ 0 :: rest) = cstr m := by
  induction m with
  | nil => rfl
  | cons c m ih =>
    unfold cstr at *
    rw [List.cons_append, List.takeWhile_cons, List.takeWhile_cons, ih]

theorem cstr_set_zero (hn : n < m.length) : cstr (m.set n 0) = cstr (m.take n) := by
  rw [List.set_eq_take_append_cons_drop, if_pos hn, cstr_append_zero]


/-- A line that is kept in its slot. -/
theorem Tracks.added (ht : Tracks h r) (hh : h.Ok) (h0 : 0 ∉ s) :
    Tracks { addedHist h (s ++ 0 :: rest) with
      histCur := (addedHist h (s ++ 0 :: rest)).histAddIdx } ⟨s :: r.entered, 0⟩ := by
  have hadd := ht.addIdx
  have hmax := ht.max
  have hlt : h.histAddIdx < h.histLines.length := by
    rw [hh.lines_length]
    exact hh.addIdx_lt
  have hnext : (if histMaxLines ≤ h.histAddIdx + 1 then 0 else h.histAddIdx + 1) =
      (r.entered.length + 1) % histMaxLines := by
    unfold histMaxLines at *
    split <;> omega
  have hslots : (fun i => cstr ((h.histLines.set h.histAddIdx (s ++ 0 :: rest)).getD i [])) =
      Function.update (fun i => cstr (h.histLines.getD i [])) (r.entered.length % histMaxLines)
        s := by
    funext i
    rw [← hadd, List.getD_eq_getElem?_getD]
    by_cases hi : h.histAddIdx = i
    · subst hi
      rw [Function.update_self, List.getElem?_set_self hlt, Option.getD_some, cstr_append h0]
    · rw [List.getElem?_set_ne hi, Function.update_of_ne (Ne.symm hi), List.getD_eq_getElem?_getD]
  refine ⟨hnext, ?_, ?_, Nat.zero_le _, Or.inr (congrArg Nat.cast hnext)⟩
  · show (if h.histMax < (if histMaxLines ≤ h.histAddIdx + 1 then 0 else h.histAddIdx + 1) then _
      else h.histMax) = min (r.entered.length + 1) _
    rw [hnext, hmax]
    unfold histMaxLines
    split <;> omega
  · show Keeps _ (fun i => cstr ((h.histLines.set h.histAddIdx _).getD i [])) _
    rw [hslots]
    exact ht.keeps.push s

theorem Tracks.reset (ht : Tracks h r) : Tracks { h with histCur := h.histAddIdx } r.reset :=
  ⟨ht.addIdx, ht.max, ht.keeps, Nat.zero_le _, Or.inr (congrArg Nat.cast ht.addIdx)⟩

theorem cstr_head (hm : m.head? = some c) :
    (c ≠ 0 ∧ c ≠ creadHistChar) ↔ cstr m ≠ [] ∧ (cstr m).head? ≠ some creadHistChar := by
  cases m with
  | nil => cases hm
  | cons d m =>
    cases hm
    unfold cstr
    rw [List.takeWhile_cons]
    by_cases hc : c = 0
    · subst hc
      rw [if_neg (by decide)]
      exact ⟨fun h => absurd rfl h.1, fun h => absurd rfl h.1⟩
    · rw [if_pos (decide_eq_true hc)]
      simp [hc]

/-- A line is entered. -/
theorem creadEnd_tracks (ht : Tracks h r) (hh : h.Ok) (he : e.Ok (maxCmdbufSize - 1)) :
    ∃ h' rc buf len, creadEnd h e = .ok (.done h' rc buf len) ∧
      Tracks h' (r.enter (cstr e.line)) := by
  have hsize : maxCmdbufSize = 256 := rfl
  have hbuf := he.buf_length
  have heol := he.eolNum_le
  have hlt : e.eolNum < e.buf.length := by omega
  have hlen : (e.buf.set e.eolNum 0).length = maxCmdbufSize := by rw [List.length_set, hbuf]
  have hpos : 0 < (e.buf.set e.eolNum 0).length := by omega
  have hzero : 0 ∈ e.buf.set e.eolNum 0 := List.mem_set hlt 0
  have hline : cstr (e.buf.set e.eolNum 0) = cstr e.line := cstr_set_zero hlt
  have hhead : (e.buf.set e.eolNum 0).head? = some (e.buf.set e.eolNum 0)[0] := by
    rw [List.head?_eq_getElem?, List.getElem?_eq_getElem hpos]
  have hiff := cstr_head hhead
  rw [hline] at hiff
  unfold creadEnd
  rw [store_ok hlt, ok_bind, load_ok hpos, ok_bind]
  by_cases hadd : (e.buf.set e.eolNum 0)[0] ≠ 0 ∧ (e.buf.set e.eolNum 0)[0] ≠ creadHistChar
  · rw [if_pos hadd, strAt_zero hzero, ok_bind, hline, Recall.enter, if_pos (hiff.mp hadd)]
    have hstr := length_cstr_lt hzero
    rw [hline] at hstr
    obtain ⟨rest, hhist, -⟩ := @creadAddToHist_ok h (cstr e.line) hh (by omega)
    rw [hhist, ok_bind]
    exact ⟨_, _, _, _, rfl, ht.added hh (zero_not_mem_cstr _)⟩
  · rw [if_neg hadd, Recall.enter, if_neg fun h => hadd (hiff.mpr h)]
    exact ⟨_, _, _, _, rfl, ht.reset⟩

end Others

/-! ## Runs -/

namespace Console

/-- A step of the console, and what it does to the lines that can be recalled. -/
def RecallStep (s : Console × Recall) (ev : Event) (s' : Console × Recall) : Prop :=
  Step s.1 ev s'.1 ∧ s'.2 = s.2.after s.1 ev

/-- The keys show the lines that the cursor points to. -/
def Recalls : Console × Recall → Prop
  | (idle _, _) => True
  | (editing h e, r) => ∀ c, (keyAt e c = some .histPrev → ShowsLine h e c r r.up) ∧
      (keyAt e c = some .histNext → ShowsLine h e c r r.down)

/-- `^C` comes when the history is at its start, and no character makes the line too long. -/
def RecallAllowed (s : Console × Recall) (ev : Event) : Prop :=
  s.1.Allowed ev ∧ ∀ h e c, s.1 = editing h e → ev = .key c → keyAt e c = some .abort →
    h.histCur < 0 ∨ h.histCur = h.histAddIdx

/-- The console and the lines that can be recalled go together. -/
def Tracking : Console × Recall → Prop
  | (idle h, r) => h.Ok ∧ Tracks h r ∧ r.cursor = 0
  | (editing h e, r) => h.Ok ∧ e.Ok (maxCmdbufSize - 1) ∧ Tracks h r

section Steps

variable {s s' : Console × Recall} {ev : Event} {h : Hist} {e : Editor} {r : Recall}

theorem Tracking.ok (ht : Tracking s) : s.1.Ok := by
  obtain ⟨con, r⟩ := s
  cases con with
  | idle h => exact ht.1
  | editing h e => exact ⟨ht.1, ht.2.1⟩

theorem Tracking.recalls (ht : Tracking s) : Recalls s := by
  obtain ⟨con, r⟩ := s
  cases con with
  | idle h => trivial
  | editing h e =>
    obtain ⟨hh, he, ht⟩ := ht
    intro c
    constructor
    · intro hkey
      obtain ⟨h', e', heq, -, hshow⟩ := recall_prev_eq ht hh he
      exact ⟨h', e', (creadKey_recall hkey (Or.inl rfl)).trans heq, hshow⟩
    · intro hkey
      obtain ⟨h', e', heq, -, hshow⟩ := recall_next_eq ht hh he
      exact ⟨h', e', (creadKey_recall hkey (Or.inr rfl)).trans heq, hshow⟩

/-- At its start the history shows no line. -/
theorem cursor_zero (ht : Tracks h r) (hstart : h.histCur < 0 ∨ h.histCur = h.histAddIdx) :
    r.cursor = 0 := by
  obtain ⟨hadd, -, -, hle, hcur⟩ := ht
  unfold Recall.top histMaxLines at *
  rcases hcur with ⟨-, hzero⟩ | hcur
  · omega
  · by_contra hne
    have hother := @slot_ne r.entered.length r.cursor (by omega) (by omega) (by omega)
    omega

/-- One step. -/
theorem RecallStep.tracking (ht : Tracking s) (hallowed : RecallAllowed s ev)
    (hstep : RecallStep s ev s') : Tracking s' := by
  obtain ⟨con, r⟩ := s
  obtain ⟨con', r'⟩ := s'
  obtain ⟨hstep, hr : r' = _⟩ := hstep
  have hok : con'.Ok := hstep.ok ht.ok hallowed.1
  subst hr
  cases hstep with
  | @start h e start heq => exact ⟨hok.1, hok.2, ht.2.1⟩
  | @key h e c res heq =>
    obtain ⟨hh, he, ht⟩ := ht
    dsimp only [Recall.after]
    by_cases hend : c = 0x0A ∨ c = 0x0D
    · rw [if_pos hend]
      obtain ⟨h', rc, buf, len, heq', ht'⟩ := creadEnd_tracks ht hh he
      rw [creadKey, if_pos hend, heq'] at heq
      cases heq
      refine ⟨hok, ht', ?_⟩
      unfold Recall.enter
      split <;> rfl
    · rw [if_neg hend]
      by_cases hprev : keyAt e c = some .histPrev
      · obtain ⟨h', e', heq', ht', -⟩ := recall_prev_eq ht hh he
        rw [creadKey_recall hprev (Or.inl rfl), heq'] at heq
        cases heq
        rw [hprev]
        exact ⟨hok.1, hok.2, ht'⟩
      by_cases hnext : keyAt e c = some .histNext
      · obtain ⟨h', e', heq', ht', -⟩ := recall_next_eq ht hh he
        rw [creadKey_recall hnext (Or.inr rfl), heq'] at heq
        cases heq
        rw [hnext]
        exact ⟨hok.1, hok.2, ht'⟩
      have hleaves := creadKey_leaves hend hprev hnext heq
      unfold Leaves at hleaves
      by_cases habort : keyAt e c = some .abort
      · rw [if_pos habort] at hleaves
        obtain ⟨rc, buf, len, rfl⟩ := hleaves
        have hzero : r.cursor = 0 := cursor_zero ht (hallowed.2 h e c rfl rfl habort)
        have hreset : r.reset = r := by rw [Recall.reset, ← hzero]
        rw [habort]
        dsimp only
        rw [hreset]
        exact ⟨hok, ht, hzero⟩
      · rw [if_neg habort] at hleaves
        obtain ⟨e', rfl⟩ := hleaves
        refine ⟨hok.1, hok.2, ?_⟩
        split
        · rename_i hkey
          exact absurd hkey hprev
        · rename_i hkey
          exact absurd hkey hnext
        · rename_i hkey
          exact absurd hkey habort
        · exact ht

end Steps

/-- **The keys recall the lines that were entered**, the last one first, in every run in which
`^C` comes only when the history is at its start. -/
theorem recall_follows {run : List ((Console × Recall) × Event)} {s : Console × Recall}
    (hrun : Run RecallStep (idle histInit, ⟨[], 0⟩) run s)
    (hallowed : ∀ p ∈ run, RecallAllowed p.1 p.2) : Recalls s :=
  (hrun.invariant Tracking RecallAllowed (fun h ha hstep => hstep.tracking h ha)
    ⟨histInit_ok, tracks_init, rfl⟩ hallowed).recalls

/-- A call with a line and an Enter, and a second call. -/
theorem recall_follows_second : ∃ run s, run.length = 3 ∧
    Run RecallStep (idle histInit, ⟨[], 0⟩) run s ∧ (∀ p ∈ run, RecallAllowed p.1 p.2) ∧
    Recalls s := by
  obtain ⟨e, hstart, he⟩ := creadStart_ok (startOf 1 (by decide))
  obtain ⟨e', hstart', -⟩ := creadStart_ok (startOf 0 (by decide))
  obtain ⟨h, rc, buf, len, hend, -⟩ := creadEnd_tracks tracks_init histInit_ok he
  have hkey : creadKey histInit e 0x0D = .ok (.done h rc buf len) := hend
  have hfirst : RecallStep (idle histInit, ⟨[], 0⟩) (.start (startOf 1 (by decide)))
      (editing histInit e, ⟨[], 0⟩) := ⟨.start hstart, rfl⟩
  have henter : RecallStep (editing histInit e, ⟨[], 0⟩) (.key 0x0D)
      (idle h, Recall.enter ⟨[], 0⟩ (cstr e.line)) := ⟨.key hkey, rfl⟩
  have hsecond : RecallStep (idle h, Recall.enter ⟨[], 0⟩ (cstr e.line))
      (.start (startOf 0 (by decide))) (editing h e', Recall.enter ⟨[], 0⟩ (cstr e.line)) :=
    ⟨.start hstart', rfl⟩
  have hrun := Run.tail (Run.tail (Run.tail Run.refl hfirst) henter) hsecond
  have hallowed : ∀ p ∈ [((idle histInit, ⟨[], 0⟩), Event.start (startOf 1 (by decide))),
      ((editing histInit e, ⟨[], 0⟩), .key 0x0D),
      ((idle h, Recall.enter ⟨[], 0⟩ (cstr e.line)), .start (startOf 0 (by decide)))],
      RecallAllowed p.1 p.2 := by
    intro p hp
    simp only [List.mem_cons, List.not_mem_nil, or_false] at hp
    rcases hp with rfl | rfl | rfl
    · exact ⟨trivial, fun _ _ _ h => by cases h⟩
    · refine ⟨?_, ?_⟩
      · show e.reach 0 ≤ maxCmdbufSize - 1
        have hnum := he.num_le
        have heol := he.eolNum_le
        unfold Editor.reach
        split <;> omega
      · intro _ _ _ h hev habort
        cases hev
        cases habort
    · exact ⟨trivial, fun _ _ _ h => by cases h⟩
  exact ⟨_, _, rfl, hrun, hallowed, recall_follows hrun hallowed⟩

/-- The step for an event. -/
def recallNext (s : Console × Recall) (ev : Event) : Option (Console × Recall) :=
  match s.1, ev with
  | idle h, .start start =>
    (creadStart start.escSave start.buf).toOption.map fun e => (editing h e, s.2.after s.1 ev)
  | editing h e, .key c =>
    (creadKey h e c).toOption.map fun res => (res.console, s.2.after s.1 ev)
  | _, _ => none

theorem recallNext_step {s s' : Console × Recall} {ev : Event} (h : recallNext s ev = some s') :
    RecallStep s ev s' := by
  obtain ⟨con, r⟩ := s
  cases con <;> cases ev
  case idle.start hist start =>
    obtain ⟨e, he, rfl⟩ := Option.map_eq_some_iff.mp h
    cases heq : creadStart start.escSave start.buf with
    | error f =>
      rw [heq] at he
      cases he
    | ok e' =>
      rw [heq] at he
      cases he
      exact ⟨.start heq, rfl⟩
  case editing.key hist e c =>
    obtain ⟨res, hres, rfl⟩ := Option.map_eq_some_iff.mp h
    cases heq : creadKey hist e c with
    | error f =>
      rw [heq] at hres
      cases hres
    | ok res' =>
      rw [heq] at hres
      cases hres
      exact ⟨.key heq, rfl⟩
  all_goals cases h

/-- The run for events, behind a run. -/
def recallTrace (run : List ((Console × Recall) × Event)) (s : Console × Recall) :
    List Event → Option (List ((Console × Recall) × Event) × (Console × Recall))
  | [] => some (run, s)
  | ev :: evs => (recallNext s ev).bind fun s' => recallTrace (run ++ [(s, ev)]) s' evs

theorem recallTrace_run {s₀ s last : Console × Recall} {evs : List Event}
    {run all : List ((Console × Recall) × Event)} (hrun : Run RecallStep s₀ run s)
    (h : recallTrace run s evs = some (all, last)) : Run RecallStep s₀ all last := by
  induction evs generalizing run s with
  | nil =>
    cases h
    exact hrun
  | cons ev evs ih =>
    obtain ⟨s', hnext, hrest⟩ := Option.bind_eq_some_iff.mp h
    exact ih (hrun.tail (recallNext_step hnext)) hrest

/-- A line, and one that is broken off when it shows the first. -/
def brokenOff : List Event :=
  [.start (startOf 1 (by decide)), .key 0x0D, .start (startOf 0 (by decide)), .key 0x10, .key 0x03,
    .start (startOf 0 (by decide))]

/-- What `^P` does to the line. -/
def prevLine : Console × Recall → Option (Option Key × Nat × Nat × Bytes × Bytes)
  | (idle _, _) => none
  | (editing h e, r) =>
    match creadKey h e 0x10 with
    | .ok (.more _ e') => some (keyAt e 0x10, r.cursor, r.up.cursor, e'.line, r.up.shown)
    | _ => none

/-- The line that was entered is not found again: the history is still where it was. -/
theorem recall_not_follows :
    ∃ run s, Run RecallStep (idle histInit, ⟨[], 0⟩) run s ∧ ¬ Recalls s := by
  have hplay : ((recallTrace [] (idle histInit, ⟨[], 0⟩) brokenOff).bind fun p => prevLine p.2) =
      some (some .histPrev, 0, 1, [], [0x61]) := by decide +kernel
  obtain ⟨⟨run, con, r⟩, htrace, hprev⟩ := Option.bind_eq_some_iff.mp hplay
  refine ⟨run, (con, r), recallTrace_run Run.refl htrace, ?_⟩
  intro hrecalls
  cases con with
  | idle h => cases hprev
  | editing h e =>
    unfold prevLine at hprev
    dsimp only at hprev
    cases hkey : creadKey h e 0x10 with
    | error f =>
      rw [hkey] at hprev
      cases hprev
    | ok res =>
      cases res with
      | done h' rc buf len =>
        rw [hkey] at hprev
        cases hprev
      | more h' e' =>
        rw [hkey] at hprev
        simp only [Option.some.injEq, Prod.mk.injEq] at hprev
        obtain ⟨hkeyAt, hcur, hup, hline, hshown⟩ := hprev
        obtain ⟨h'', e'', heq, hshow⟩ := (hrecalls 0x10).1 hkeyAt
        rw [hkey] at heq
        cases heq
        rw [if_neg (by omega), hline, hshown] at hshow
        cases hshow

end Console

end UBoot.Common
