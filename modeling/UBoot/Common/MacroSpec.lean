import UBoot.Common.MacroBuffers

/-!
# What the macros stand for

`expand` is the text with the values of the variables in it.  `process_macros` does not look at the
character behind a dollar sign for another one, drops a dollar sign at the end and a reference that
is not closed, and takes either bracket for the end of a name.

* `processMacros_eq`: the output is `macroText`, up to its limit.
* `processMacros_right_iff`: the output is the expansion if and only if nothing of this is met with.
-/

namespace UBoot.Common

open UBoot.Lib

/-! ## The output without its limit -/

/-- What one character adds to the output. -/
def Lex.emit (getenv : Bytes → Option Bytes) (l : Lex) (c : UInt8) : Bytes :=
  match l.ctx with
  | .text =>
    if c = backslash ∧ l.prev ≠ backslash then []
    else if c = quoteMark ∧ l.prev ≠ backslash then []
    else if c = dollarSign ∧ l.prev ≠ backslash then []
    else [c]
  | .dollar =>
    if c = backslash ∧ l.prev ≠ backslash then []
    else if isOpening c then []
    else [dollarSign, c]
  | .name acc =>
    if c = backslash ∧ l.prev ≠ backslash then []
    else if isClosing c then (getenv acc).getD []
    else []
  | .quoted => if c = quoteMark ∧ l.prev ≠ backslash then [] else [c]

/-- What a text adds to it. -/
def macroText (getenv : Bytes → Option Bytes) : Lex → Bytes → Bytes
  | _, [] => []
  | l, c :: r => l.emit getenv c ++ macroText getenv (lexStep getenv l c) r

section Output

variable {getenv : Bytes → Option Bytes} {cbsize fuel pos : Nat} {r value area : Bytes} {s : Macros}
  {l : Lex} {c prev : UInt8}

theorem putValue_output : (s.putValue value).output = s.output ++ value.take s.outputcnt := by
  induction value generalizing s with
  | nil =>
    rw [List.take_nil, List.append_nil]
    rfl
  | cons c value ih =>
    rw [Macros.putValue]
    split
    · rename_i hfull
      rw [hfull, List.take_zero, List.append_nil]
    · rename_i hcnt
      obtain ⟨n, hn⟩ := Nat.exists_eq_succ_of_ne_zero hcnt
      have hput : (s.put c).outputcnt = n := by
        show s.outputcnt - 1 = n
        omega
      rw [ih, hput, hn, List.take_succ_cons]
      show (s.output ++ [c]) ++ value.take n = _
      rw [List.append_assoc]
      rfl

/-- The switch puts what there is room for. -/
theorem switch_output (hs : Follows cbsize r pos l s) (hcnt : s.outputcnt ≠ 0)
    (hesc : l.ctx ≠ .quoted → ¬ (c = backslash ∧ l.prev ≠ backslash)) :
    (s.switch getenv r pos c l.prev).output =
      s.output ++ (l.emit getenv c).take s.outputcnt := by
  have hone : [c].take s.outputcnt = [c] := List.take_of_length_le (by
    rw [List.length_singleton]
    omega)
  unfold Macros.switch Lex.emit
  rw [hs.state]
  cases hctx : l.ctx with
  | text =>
    dsimp only [Ctx.state]
    rw [if_neg (hesc (by simp [hctx]))]
    split_ifs
    · simp
    · simp
    · rw [hone]
      rfl
  | dollar =>
    dsimp only [Ctx.state]
    rw [if_neg (hesc (by simp [hctx]))]
    split_ifs with hopen hleft
    · simp
    · have htwo : [dollarSign, c].take s.outputcnt = [dollarSign, c] :=
        List.take_of_length_le (by
          have hleft' : s.outputcnt - 1 ≠ 0 := hleft
          simp only [List.length_cons, List.length_nil]
          omega)
      rw [htwo]
      show (s.output ++ [dollarSign]) ++ [c] = _
      rw [List.append_assoc]
      rfl
    · have hlast : s.outputcnt = 1 := by
        have hleft' : ¬ s.outputcnt - 1 ≠ 0 := hleft
        omega
      rw [hlast]
      rfl
  | name acc =>
    obtain ⟨-, hacc⟩ := hs.name acc hctx
    dsimp only [Ctx.state]
    rw [if_neg (hesc (by simp [hctx]))]
    split_ifs
    · rw [hacc]
      cases getenv acc with
      | none => simp
      | some envval => exact putValue_output
    · simp
  | quoted =>
    dsimp only [Ctx.state]
    split_ifs
    · simp
    · rw [hone]
      rfl

/-- A backslash that is removed adds nothing. -/
theorem emit_removed (hctx : l.ctx ≠ .quoted) (hback : c = backslash ∧ l.prev ≠ backslash) :
    l.emit getenv c = [] := by
  unfold Lex.emit
  cases h : l.ctx with
  | text => exact if_pos hback
  | dollar => exact if_pos hback
  | name acc => exact if_pos hback
  | quoted => exact absurd h hctx

/-- What there is room for, and then the rest up to the same limit. -/
theorem take_append_take (out e rest : Bytes) (n : Nat) (hle : out.length ≤ n) :
    ((out ++ e.take (n - out.length)) ++ rest).take n = (out ++ (e ++ rest)).take n := by
  rw [List.append_assoc, List.take_append, List.take_append, List.take_append, List.take_append,
    List.take_take, Nat.min_self, List.length_take]
  congr 2
  by_cases hfit : e.length ≤ n - out.length
  · rw [Nat.min_eq_right hfit]
  · rw [Nat.min_eq_left (by omega), Nat.sub_self, List.take_zero]
    have hzero : n - out.length - e.length = 0 := by omega
    rw [hzero, List.take_zero]

theorem drop_cons_of_getElem? {i : Nat} (hc : r[i]? = some c) : r.drop i = c :: r.drop (i + 1) := by
  obtain ⟨hlt, rfl⟩ := List.getElem?_eq_some_iff.mp hc
  exact List.drop_eq_getElem_cons hlt

/-- The loop from a position on. -/
theorem loop_output (hs : Follows cbsize r s.pos (lexAt getenv r s.pos) s)
    (hprev : s.prev = (lexAt getenv r s.pos).prev) (hfits : s.output.length + s.outputcnt = cbsize)
    (hfuel : r.length ≤ s.pos + fuel) :
    (Macros.loop getenv r fuel s).1.output =
      (s.output ++ macroText getenv (lexAt getenv r s.pos) (r.drop s.pos)).take cbsize := by
  have hsame : s.output.take cbsize = s.output := List.take_of_length_le (by omega)
  induction fuel generalizing s with
  | zero =>
    have hend : r.drop s.pos = [] := List.drop_of_length_le (by omega)
    rw [hend, macroText, List.append_nil, hsame]
    rfl
  | succ fuel ih =>
    rw [Macros.loop]
    by_cases hfull : s.outputcnt = 0
    · have hroom : cbsize - s.output.length = 0 := by omega
      rw [if_pos hfull, List.take_append, hroom, List.take_zero, List.append_nil, hsame]
    · rw [if_neg hfull]
      by_cases hlt : s.pos < r.length
      · rcases nextChar_cases hs hprev hlt with
          ⟨hnone, hend, hback⟩ | ⟨pos, c, hnext, hc, hpos, hs', hesc⟩
        · -- the backslash is the last character
          have hnil : r.drop (s.pos + 1) = [] := List.drop_of_length_le (by omega)
          rw [hnone, drop_cons_of_getElem? hback.char, macroText,
            emit_removed hback.ctx ⟨rfl, hback.prev⟩, hnil, macroText, List.append_nil,
            List.append_nil, hsame]
        · have hswitched := @Follows.switched getenv cbsize pos r _ c s hs' hc hesc
          rw [← lexAt_succ hc] at hswitched
          have hfits' : (s.switch getenv r pos c (lexAt getenv r pos).prev).output.length +
              (s.switch getenv r pos c (lexAt getenv r pos).prev).outputcnt = cbsize := by
            have h := @Macros.Fits.switch getenv r (List.replicate cbsize 0) s c
              (lexAt getenv r pos).prev pos (hfits.trans List.length_replicate.symm) hfull
            exact h.trans List.length_replicate
          have hout := @switch_output getenv cbsize pos r s _ c hs' hfull hesc
          have hroom : s.outputcnt = cbsize - s.output.length := by omega
          have hrest := @ih { s.switch getenv r pos c (lexAt getenv r pos).prev with
              pos := pos + 1, prev := c }
            ⟨hswitched.state, hswitched.room, hswitched.name⟩
            (by rw [lexAt_succ hc, lexStep_prev]) hfits' (by dsimp only; omega)
            (List.take_of_length_le (by dsimp only; omega))
          rw [hnext]
          refine hrest.trans ?_
          have htext : macroText getenv (lexAt getenv r pos) (r.drop pos) =
              (lexAt getenv r pos).emit getenv c ++
                macroText getenv (lexAt getenv r (pos + 1)) (r.drop (pos + 1)) := by
            rw [drop_cons_of_getElem? hc, macroText, lexAt_succ hc]
          dsimp only
          rw [hout, hroom, take_append_take _ _ _ _ (by omega), ← htext]
          rcases hpos with rfl | ⟨rfl, hback⟩
          · rfl
          · rw [drop_cons_of_getElem? hback.char, macroText,
              emit_removed hback.ctx ⟨rfl, hback.prev⟩, lexAt_succ hback.char, List.nil_append]
      · have hend : r.drop s.pos = [] := List.drop_of_length_le (by omega)
        have hnone : s.nextChar r = none := by
          rw [Macros.nextChar, List.getElem?_eq_none (by omega)]
        rw [hnone, hend, macroText, List.append_nil, hsame]

/-- **The output is that text, up to the limit.** -/
theorem processMacros_eq (hpos : 0 < cbsize) :
    processMacros getenv cbsize r =
      (macroText getenv ⟨.text, 0, 0, 0⟩ r).take (cbsize - 1) := by
  have hstart : Follows cbsize r 0 (lexAt getenv r 0) (.init cbsize) :=
    ⟨rfl, rfl, fun acc h => by cases h⟩
  have hout := @loop_output getenv cbsize r.length r (.init cbsize) hstart rfl (Nat.zero_add _)
    (Nat.le_add_left _ _)
  have hinit : (Macros.init cbsize).Fits (List.replicate cbsize 0) :=
    (Nat.zero_add _).trans List.length_replicate.symm
  have hfits : (Macros.loop getenv r r.length (.init cbsize)).1.output.length +
      (Macros.loop getenv r r.length (.init cbsize)).1.outputcnt = cbsize :=
    (@Macros.Fits.loop getenv r _ _ r.length hinit).trans List.length_replicate
  have htext : (Macros.loop getenv r r.length (.init cbsize)).1.output =
      (macroText getenv ⟨.text, 0, 0, 0⟩ r).take cbsize := hout
  rw [processMacros, htext]
  rw [htext, List.length_take] at hfits
  generalize (Macros.loop getenv r r.length (.init cbsize)).1.outputcnt = cnt at hfits
  by_cases hcnt : cnt ≠ 0
  · have hlen : (macroText getenv ⟨.text, 0, 0, 0⟩ r).length ≤ cbsize - 1 := by omega
    rw [if_pos hcnt, List.take_of_length_le hlen, List.take_of_length_le (by omega)]
  · rw [if_neg hcnt, List.dropLast_eq_take, List.length_take, List.take_take]
    congr 1
    omega

end Output

/-! ## The expansion -/

/-- A text cut at its first character of a kind. -/
def cutAt (p : UInt8 → Bool) : Bytes → Option (Bytes × UInt8 × Bytes)
  | [] => none
  | c :: r =>
    if p c then some ([], c, r) else (cutAt p r).map fun (name, d, rest) => (c :: name, d, rest)

/-- The bracket that closes a reference. -/
def closes (o d : UInt8) : Bool := (o = 0x28 && d = 0x29) || (o = 0x7B && d = 0x7D)

/-- The reference that starts a text: its name, and what is behind it. -/
def reference : Bytes → Option (Bytes × Bytes)
  | c :: o :: r =>
    if c = dollarSign ∧ isOpening o = true then
      (cutAt (closes o) r).map fun (name, _, rest) => (name, rest)
    else none
  | _ => none

section Cut

variable {p : UInt8 → Bool} {r name rest : Bytes} {c d o : UInt8}

theorem cutAt_eq_some (h : cutAt p r = some (name, d, rest)) :
    r = name ++ d :: rest ∧ (∀ x ∈ name, p x = false) ∧ p d = true := by
  induction r generalizing name with
  | nil => cases h
  | cons c r ih =>
    rw [cutAt] at h
    split at h
    · rename_i hc
      cases h
      exact ⟨rfl, fun x hx => (by cases hx), hc⟩
    · rename_i hc
      obtain ⟨⟨name', d', rest'⟩, hrec, heq⟩ := Option.map_eq_some_iff.mp h
      cases heq
      obtain ⟨rfl, hname, hd⟩ := ih hrec
      refine ⟨rfl, ?_, hd⟩
      intro x hx
      rcases List.mem_cons.mp hx with rfl | hx
      · exact eq_false_of_ne_true hc
      · exact hname x hx

theorem cutAt_append (hname : ∀ x ∈ name, p x = false) (hd : p d = true) :
    cutAt p (name ++ d :: rest) = some (name, d, rest) := by
  induction name with
  | nil => rw [List.nil_append, cutAt, if_pos hd]
  | cons c name ih =>
    have hc : ¬ p c = true := by simp [hname c List.mem_cons_self]
    rw [List.cons_append, cutAt, if_neg hc, ih fun x hx => hname x (List.mem_cons_of_mem _ hx)]
    rfl

theorem cutAt_eq_none (h : cutAt p r = none) : ∀ x ∈ r, p x = false := by
  induction r with
  | nil =>
    intro x hx
    cases hx
  | cons c r ih =>
    rw [cutAt] at h
    split at h
    · cases h
    · rename_i hc
      intro x hx
      rcases List.mem_cons.mp hx with rfl | hx
      · exact eq_false_of_ne_true hc
      · exact ih (Option.map_eq_none_iff.mp h) x hx

theorem cutAt_of_none (h : ∀ x ∈ r, p x = false) : cutAt p r = none := by
  cases hcut : cutAt p r with
  | none => rfl
  | some found =>
    obtain ⟨name, d, rest⟩ := found
    obtain ⟨rfl, -, hd⟩ := cutAt_eq_some hcut
    rw [h d (by simp)] at hd
    cases hd

theorem length_of_reference (h : reference r = some (name, rest)) :
    rest.length + name.length + 3 = r.length := by
  rcases r with _ | ⟨c, _ | ⟨o, r⟩⟩
  · cases h
  · cases h
  · rw [reference] at h
    split at h
    · obtain ⟨⟨name', d, rest'⟩, hcut, heq⟩ := Option.map_eq_some_iff.mp h
      cases heq
      obtain ⟨rfl, -, -⟩ := cutAt_eq_some hcut
      simp only [List.length_cons, List.length_append]
      omega
    · cases h

theorem isClosing_of_closes (h : closes o d = true) : isClosing d = true := by
  rw [closes, Bool.or_eq_true, Bool.and_eq_true, Bool.and_eq_true] at h
  rw [isClosing, Bool.or_eq_true]
  exact h.imp And.right And.right

theorem isOpening_of_closes (h : closes o d = true) : isOpening o = true := by
  rw [closes, Bool.or_eq_true, Bool.and_eq_true, Bool.and_eq_true] at h
  rw [isOpening, Bool.or_eq_true]
  exact h.imp And.left And.left

end Cut

/-- The text with the values of its references; a variable that is not defined is empty. -/
def expand (getenv : Bytes → Option Bytes) (r : Bytes) : Bytes :=
  match _h : reference r with
  | some (name, rest) => (getenv name).getD [] ++ expand getenv rest
  | none =>
    match r with
    | [] => []
    | c :: r => c :: expand getenv r
termination_by r.length
decreasing_by
  · have hlen := length_of_reference _h
    omega
  · exact Nat.lt_succ_self _

/-- What `process_macros` reads in a text as it is meant: every dollar sign in front of a bracket
starts a reference that is closed by the bracket of its kind, and one in front of another character
does not make that one start a reference. -/
inductive RefsOk : Bytes → Prop
  | nil : RefsOk []
  | char {c : UInt8} {r : Bytes} (hc : c ≠ dollarSign) (tail : RefsOk r) : RefsOk (c :: r)
  | ref {o d : UInt8} {name r : Bytes} (hclose : closes o d = true)
      (hname : ∀ x ∈ name, isClosing x = false) (tail : RefsOk r) :
      RefsOk (dollarSign :: o :: (name ++ d :: r))
  | dollar {o : UInt8} {r : Bytes} (ho : isOpening o = false) (href : reference (o :: r) = none)
      (tail : RefsOk r) : RefsOk (dollarSign :: o :: r)

/-! ## Texts without backslashes and quotes -/

/-- What a text without them adds to the output. -/
def plainText (getenv : Bytes → Option Bytes) : Ctx → Bytes → Bytes
  | _, [] => []
  | .dollar, c :: r =>
    if isOpening c then plainText getenv (.name []) r
    else dollarSign :: c :: plainText getenv .text r
  | .name acc, c :: r =>
    if isClosing c then (getenv acc).getD [] ++ plainText getenv .text r
    else plainText getenv (.name (acc ++ [c])) r
  | _, c :: r =>
    if c = dollarSign then plainText getenv .dollar r else c :: plainText getenv .text r

section Plain

variable {getenv : Bytes → Option Bytes} {r name rest : Bytes} {l : Lex} {c d o : UInt8}

theorem plainText_nil (ctx : Ctx) : plainText getenv ctx [] = [] := by
  cases ctx <;> rfl

theorem plainText_text : plainText getenv .text (c :: r) =
    if c = dollarSign then plainText getenv .dollar r else c :: plainText getenv .text r := rfl

theorem plainText_quoted : plainText getenv .quoted (c :: r) =
    if c = dollarSign then plainText getenv .dollar r else c :: plainText getenv .text r := rfl

theorem plainText_inDollar : plainText getenv .dollar (c :: r) =
    if isOpening c then plainText getenv (.name []) r
    else dollarSign :: c :: plainText getenv .text r := rfl

theorem plainText_inName (acc : Bytes) : plainText getenv (.name acc) (c :: r) =
    if isClosing c then (getenv acc).getD [] ++ plainText getenv .text r
    else plainText getenv (.name (acc ++ [c])) r := rfl

theorem macroText_plain (hback : backslash ∉ r) (hquote : quoteMark ∉ r)
    (hprev : l.prev ≠ backslash) (hctx : l.ctx ≠ .quoted) :
    macroText getenv l r = plainText getenv l.ctx r := by
  induction r generalizing l with
  | nil => rw [macroText, plainText_nil]
  | cons c r ih =>
    have hc : c ≠ backslash := fun h => hback (h ▸ List.mem_cons_self)
    have hc' : c ≠ quoteMark := fun h => hquote (h ▸ List.mem_cons_self)
    have htail := fun l => @ih l (fun h => hback (List.mem_cons_of_mem _ h))
      (fun h => hquote (List.mem_cons_of_mem _ h))
    have hnot : ¬ (c = backslash ∧ l.prev ≠ backslash) := fun h => hc h.1
    have hnot' : ¬ (c = quoteMark ∧ l.prev ≠ backslash) := fun h => hc' h.1
    rw [macroText, Lex.emit, lexStep]
    cases hl : l.ctx with
    | text =>
      dsimp only
      rw [if_neg hnot, if_neg hnot', if_neg hnot, if_neg hnot', plainText_text]
      by_cases hdollar : c = dollarSign
      · rw [if_pos ⟨hdollar, hprev⟩, if_pos ⟨hdollar, hprev⟩, if_pos hdollar, List.nil_append]
        exact htail _ hc (by simp)
      · rw [if_neg fun h => hdollar h.1, if_neg fun h => hdollar h.1, if_neg hdollar]
        exact congrArg (c :: ·) (htail _ hc (by simp))
    | dollar =>
      dsimp only
      rw [if_neg hnot, if_neg hnot, plainText_inDollar]
      by_cases hopen : isOpening c = true
      · rw [if_pos hopen, if_pos hopen, if_pos hopen, List.nil_append]
        exact htail _ hc (by simp)
      · rw [if_neg hopen, if_neg hopen, if_neg hopen]
        exact congrArg (dollarSign :: c :: ·) (htail _ hc (by simp))
    | name acc =>
      dsimp only
      rw [if_neg hnot, if_neg hnot, plainText_inName]
      by_cases hclose : isClosing c = true
      · rw [if_pos hclose, if_pos hclose, if_pos hclose]
        exact congrArg (_ ++ ·) (htail _ hc (by simp))
      · rw [if_neg hclose, if_neg hclose, if_neg hclose, List.nil_append]
        exact htail _ hc (by simp)
    | quoted => exact absurd hl hctx

theorem plainText_name (acc r : Bytes) :
    plainText getenv (.name acc) r =
      match cutAt isClosing r with
      | none => []
      | some (name, _, rest) => (getenv (acc ++ name)).getD [] ++ plainText getenv .text rest := by
  induction r generalizing acc with
  | nil => rw [plainText_nil, cutAt]
  | cons c r ih =>
    rw [plainText_inName, cutAt]
    by_cases hclose : isClosing c = true
    · rw [if_pos hclose, if_pos hclose]
      simp only [List.append_nil]
    · rw [if_neg hclose, if_neg hclose, ih]
      cases hcut : cutAt isClosing r with
      | none => rfl
      | some found =>
        simp only [Option.map_some]
        rw [List.append_assoc]
        rfl

theorem plainText_char (hc : c ≠ dollarSign) :
    plainText getenv .text (c :: r) = c :: plainText getenv .text r := by
  rw [plainText_text, if_neg hc]

theorem plainText_opening (ho : isOpening o = true) :
    plainText getenv .text (dollarSign :: o :: r) = plainText getenv (.name []) r := by
  rw [plainText_text, if_pos rfl, plainText_inDollar, if_pos ho]

theorem plainText_dollar (ho : isOpening o = false) :
    plainText getenv .text (dollarSign :: o :: r) =
      dollarSign :: o :: plainText getenv .text r := by
  rw [plainText_text, if_pos rfl, plainText_inDollar, ho, if_neg Bool.false_ne_true]

theorem plainText_last : plainText getenv .text [dollarSign] = [] := by
  rw [plainText_text, if_pos rfl, plainText_nil]

theorem expand_eq : expand getenv r =
    match reference r with
    | some (name, rest) => (getenv name).getD [] ++ expand getenv rest
    | none =>
      match r with
      | [] => []
      | c :: r => c :: expand getenv r := by
  rw [expand]
  split
  · rename_i h'
    rw [h']
  · rename_i h'
    cases r with
    | nil => simp only [h']
    | cons c r => simp only [h']

theorem expand_nil : expand getenv [] = [] := by
  rw [expand_eq]
  rfl

theorem expand_ref (h : reference r = some (name, rest)) :
    expand getenv r = (getenv name).getD [] ++ expand getenv rest := by
  rw [expand_eq, h]

theorem expand_char (h : reference (c :: r) = none) :
    expand getenv (c :: r) = c :: expand getenv r := by
  rw [expand_eq, h]

theorem reference_of_ne (hc : c ≠ dollarSign) : reference (c :: r) = none := by
  cases r with
  | nil => rfl
  | cons o r => exact if_neg fun h => hc h.1

theorem reference_of_not_opening (ho : isOpening o = false) :
    reference (dollarSign :: o :: r) = none := by
  refine if_neg fun h => ?_
  rw [ho] at h
  cases h.2

theorem reference_opening (ho : isOpening o = true) :
    reference (dollarSign :: o :: r) =
      (cutAt (closes o) r).map fun (name, _, rest) => (name, rest) :=
  if_pos ⟨rfl, ho⟩

theorem not_closes (h : isClosing d = false) : closes o d = false := by
  cases hclose : closes o d with
  | false => rfl
  | true =>
    rw [isClosing_of_closes hclose] at h
    cases h

/-- A text that is read as it is meant is expanded. -/
theorem RefsOk.plainText_eq (h : RefsOk r) : plainText getenv .text r = expand getenv r := by
  induction h with
  | nil => rw [expand_nil, plainText_nil]
  | char hc tail ih => rw [plainText_char hc, expand_char (reference_of_ne hc), ih]
  | @ref o d name r hclose hname tail ih =>
    have hcut : cutAt (closes o) (name ++ d :: r) = some (name, d, r) :=
      cutAt_append (fun x hx => not_closes (hname x hx)) hclose
    have href : reference (dollarSign :: o :: (name ++ d :: r)) = some (name, r) := by
      rw [reference_opening (isOpening_of_closes hclose), hcut]
      rfl
    rw [plainText_opening (isOpening_of_closes hclose), plainText_name,
      cutAt_append hname (isClosing_of_closes hclose), expand_ref href, ← ih]
    rfl
  | dollar ho href tail ih =>
    rw [plainText_dollar ho, expand_char (reference_of_not_opening ho), expand_char href, ih]

end Plain

/-! ## What is not read as it is meant -/

/-- No variables. -/
def noVars : Bytes → Option Bytes := fun _ => none

/-- One variable, with one character in it. -/
def oneVar (name : Bytes) : Bytes → Option Bytes := fun n => if n = name then some [0x61] else none

section Wrong

variable {getenv : Bytes → Option Bytes} {r name : Bytes} {ctx : Ctx}

theorem oneVar_self : oneVar name name = some [0x61] := if_pos rfl

theorem oneVar_short (name n : Bytes) : ((oneVar name n).getD []).length ≤ 1 := by
  rw [oneVar]
  split
  · exact Nat.le_refl _
  · exact Nat.zero_le _

/-- No name that is looked up has a closing bracket in it. -/
theorem plainText_oneVar (hname : ∃ x ∈ name, isClosing x = true)
    (hacc : ∀ acc, ctx = .name acc → ∀ x ∈ acc, isClosing x = false) :
    plainText (oneVar name) ctx r = plainText noVars ctx r := by
  induction r generalizing ctx with
  | nil => rw [plainText_nil, plainText_nil]
  | cons c r ih =>
    have htext := @ih .text (fun acc h => by cases h)
    have hdollar := @ih .dollar (fun acc h => by cases h)
    have hnil := @ih (.name []) (fun acc h => by cases h; exact fun x hx => (by cases hx))
    cases ctx with
    | text => rw [plainText_text, plainText_text, htext, hdollar]
    | quoted => rw [plainText_quoted, plainText_quoted, htext, hdollar]
    | dollar => rw [plainText_inDollar, plainText_inDollar, htext, hnil]
    | name acc =>
      have hclean := hacc acc rfl
      rw [plainText_inName, plainText_inName, htext]
      by_cases hclose : isClosing c = true
      · have hne : acc ≠ name := by
          rintro rfl
          obtain ⟨x, hx, hx'⟩ := hname
          rw [hclean x hx] at hx'
          cases hx'
        rw [if_pos hclose, if_pos hclose, oneVar, if_neg hne]
        rfl
      · rw [if_neg hclose, if_neg hclose]
        refine ih ?_
        intro acc' h x hx
        cases h
        rcases List.mem_append.mp hx with hx | hx
        · exact hclean x hx
        · cases List.mem_singleton.mp hx
          exact eq_false_of_ne_true hclose

/-- Variables add to the expansion. -/
theorem length_expand_le (getenv : Bytes → Option Bytes) (r : Bytes) :
    (expand noVars r).length ≤ (expand getenv r).length := by
  induction hn : r.length using Nat.strong_induction_on generalizing r with
  | _ n ih =>
    cases href : reference r with
    | some found =>
      obtain ⟨name, rest⟩ := found
      have hlen := length_of_reference href
      have hrec := ih rest.length (by omega) rest rfl
      rw [expand_ref href, expand_ref href, List.length_append, List.length_append]
      exact Nat.add_le_add (Nat.zero_le _) hrec
    | none =>
      cases r with
      | nil =>
        rw [expand_nil, expand_nil]
      | cons c r =>
        have hrec := ih r.length (by rw [← hn]; exact Nat.lt_succ_self _) r rfl
        rw [expand_char href, expand_char href]
        exact Nat.succ_le_succ hrec

/-- Short values do not make a text longer. -/
theorem length_expand_of_short (hshort : ∀ n, ((getenv n).getD []).length ≤ 1) (r : Bytes) :
    (expand getenv r).length ≤ r.length := by
  induction hn : r.length using Nat.strong_induction_on generalizing r with
  | _ n ih =>
    cases href : reference r with
    | some found =>
      obtain ⟨name, rest⟩ := found
      have hlen := length_of_reference href
      have hrec := ih rest.length (by omega) rest rfl
      have hvalue := hshort name
      rw [expand_ref href, List.length_append]
      omega
    | none =>
      cases r with
      | nil =>
        rw [expand_nil]
        exact Nat.zero_le _
      | cons c r =>
        rw [List.length_cons] at hn
        have hrec := ih r.length (by omega) r rfl
        rw [expand_char href, List.length_cons]
        omega

theorem length_plainText_of_short (hshort : ∀ n, ((getenv n).getD []).length ≤ 1) (ctx : Ctx)
    (r : Bytes) :
    (plainText getenv ctx r).length ≤ r.length + (if ctx = .dollar then 1 else 0) := by
  induction r generalizing ctx with
  | nil =>
    rw [plainText_nil]
    exact Nat.zero_le _
  | cons c r ih =>
    have htext := ih .text
    have hdollar := ih .dollar
    cases ctx with
    | text =>
      rw [plainText_text]
      grind
    | quoted =>
      rw [plainText_quoted]
      grind
    | dollar =>
      have hname := ih (.name [])
      rw [plainText_inDollar]
      grind
    | name acc =>
      have hname := ih (.name (acc ++ [c]))
      have hvalue := hshort acc
      rw [plainText_inName]
      grind

theorem getD_noVars (n : Bytes) : (noVars n).getD [] = [] := rfl

theorem noVars_short (n : Bytes) : ((noVars n).getD []).length ≤ 1 := Nat.zero_le _

/-- A text for which the output is the expansion, whatever the variables are, is read as it is
meant. -/
theorem refsOk_of_eq (hnone : plainText noVars .text r = expand noVars r)
    (hone : ∀ name, plainText (oneVar name) .text r = expand (oneVar name) r) : RefsOk r := by
  induction hn : r.length using Nat.strong_induction_on generalizing r with
  | _ n ih =>
    rcases r with _ | ⟨c, r⟩
    · exact .nil
    · rw [List.length_cons] at hn
      by_cases hc : c = dollarSign
      · subst hc
        rcases r with _ | ⟨o, r⟩
        · -- the last dollar sign
          rw [plainText_last, expand_char rfl] at hnone
          cases hnone
        · rw [List.length_cons] at hn
          cases ho : isOpening o with
          | false =>
            simp only [plainText_dollar ho, expand_char (reference_of_not_opening ho)] at hnone hone
            cases href : reference (o :: r) with
            | none =>
              simp only [expand_char href, List.cons.injEq, true_and] at hnone hone
              exact .dollar ho href (ih r.length (by omega) hnone hone rfl)
            | some found =>
              -- the second dollar sign starts a reference
              obtain ⟨name, rest⟩ := found
              have hwrong := hone name
              rw [expand_ref href, oneVar_self, List.cons.injEq] at hwrong
              have hdollar : o = 0x61 := (List.cons.inj hwrong.2).1
              rw [hdollar, reference_of_ne (by decide)] at href
              cases href
          | true =>
            simp only [plainText_opening ho, plainText_name, List.nil_append] at hnone hone
            cases hcut : cutAt isClosing r with
            | none =>
              -- no bracket closes the reference
              have hopen := cutAt_eq_none hcut
              have href : reference (dollarSign :: o :: r) = none := by
                rw [reference_opening ho, cutAt_of_none fun x hx => not_closes (hopen x hx)]
                rfl
              rw [hcut, expand_char href] at hnone
              cases hnone
            | some found =>
              obtain ⟨name, d, rest⟩ := found
              obtain ⟨rfl, hname, hd⟩ := cutAt_eq_some hcut
              simp only [hcut] at hnone hone
              rw [List.length_append, List.length_cons] at hn
              cases hclose : closes o d with
              | true =>
                have href : reference (dollarSign :: o :: (name ++ d :: rest)) =
                    some (name, rest) := by
                  rw [reference_opening ho,
                    cutAt_append (fun x hx => not_closes (hname x hx)) hclose]
                  rfl
                simp only [expand_ref href, List.append_cancel_left_eq] at hnone hone
                exact .ref hclose hname (ih rest.length (by omega) hnone hone rfl)
              | false =>
                -- the first bracket is of the other kind
                exfalso
                cases hcut' : cutAt (closes o) (name ++ d :: rest) with
                | none =>
                  have href : reference (dollarSign :: o :: (name ++ d :: rest)) = none := by
                    rw [reference_opening ho, hcut']
                    rfl
                  have hwrong := hone name
                  rw [expand_char href, oneVar_self] at hwrong
                  exact absurd (List.cons.inj hwrong).1 (by decide)
                | some found =>
                  obtain ⟨name', d', rest'⟩ := found
                  obtain ⟨heq, hname', hd'⟩ := cutAt_eq_some hcut'
                  have href : reference (dollarSign :: o :: (name ++ d :: rest)) =
                      some (name', rest') := by
                    rw [reference_opening ho, hcut']
                    rfl
                  have hclosing : ∃ x ∈ name', isClosing x = true := by
                    by_contra hnot
                    have hclean : ∀ x ∈ name', isClosing x = false := fun x hx =>
                      eq_false_of_ne_true fun h => hnot ⟨x, hx, h⟩
                    rw [heq, cutAt_append hclean (isClosing_of_closes hd')] at hcut
                    cases hcut
                    rw [hd'] at hclose
                    cases hclose
                  have hwrong := hone name'
                  have hsame := @plainText_oneVar (name ++ d :: rest) name' (.name []) hclosing
                    (fun acc h => by cases h; exact fun x hx => (by cases hx))
                  simp only [plainText_name, hcut, List.nil_append] at hsame
                  have hlen := length_expand_le (oneVar name') rest'
                  rw [expand_ref href, oneVar_self, hsame, hnone, expand_ref href] at hwrong
                  have hlong := congrArg List.length hwrong
                  simp only [List.length_append, getD_noVars, Option.getD_some,
                    List.length_cons, List.length_nil] at hlong
                  omega
      · simp only [plainText_char hc, expand_char (reference_of_ne hc), List.cons.injEq,
          true_and] at hnone hone
        exact .char hc (ih r.length (by omega) hnone hone rfl)

end Wrong

/-! ## When the output is the expansion -/

/-- The strings that are to be expanded. -/
structure Plain (cbsize : Nat) (r : Bytes) : Prop where
  length_lt : r.length < cbsize
  back : backslash ∉ r
  quote : quoteMark ∉ r

section Right

variable {getenv : Bytes → Option Bytes} {cbsize : Nat} {r : Bytes}

theorem zero_not_mem_emit (hvalue : ∀ name value, getenv name = some value → 0 ∉ value)
    {l : Lex} {c : UInt8} (hc : c ≠ 0) : 0 ∉ l.emit getenv c := by
  have hone : (0 : UInt8) ∉ [c] := fun h => hc (List.mem_singleton.mp h).symm
  unfold Lex.emit
  cases l.ctx with
  | text => dsimp only; split_ifs <;> simp [hc.symm]
  | dollar =>
    dsimp only
    split_ifs
    · exact List.not_mem_nil
    · exact List.not_mem_nil
    · intro h
      rcases List.mem_cons.mp h with h | h
      · cases h
      · exact hone h
  | name acc =>
    dsimp only
    split_ifs
    · exact List.not_mem_nil
    · cases hget : getenv acc with
      | none => exact List.not_mem_nil
      | some value => exact hvalue acc value hget
    · exact List.not_mem_nil
  | quoted => dsimp only; split_ifs <;> simp [hc.symm]

theorem zero_not_mem_macroText (hvalue : ∀ name value, getenv name = some value → 0 ∉ value)
    (h0 : 0 ∉ r) (l : Lex) : 0 ∉ macroText getenv l r := by
  induction r generalizing l with
  | nil => exact List.not_mem_nil
  | cons c r ih =>
    intro h
    have hc : c ≠ 0 := fun h => h0 (h ▸ List.mem_cons_self)
    rw [macroText] at h
    rcases List.mem_append.mp h with h | h
    · exact zero_not_mem_emit hvalue hc h
    · exact ih (fun h => h0 (List.mem_cons_of_mem _ h)) _ h

theorem processMacros_plain (h : Plain cbsize r) :
    processMacros getenv cbsize r = (plainText getenv .text r).take (cbsize - 1) := by
  have hlen := h.length_lt
  rw [processMacros_eq (by omega), macroText_plain h.back h.quote (by decide) (by simp)]

/-- **`process_macros` keeps to its buffers, and its output is the expansion, if and only if no name
is too long and every dollar sign is read as it is meant.** -/
theorem processMacros_right_iff (h0 : 0 ∉ r) (hpos : 0 < cbsize) :
    (∀ getenv, (∀ name value, getenv name = some value → 0 ∉ value) →
      ∀ envname output : Bytes, envname.length = cbsize → output.length = cbsize →
        ∃ s rest, processBuffers getenv cbsize envname output (r ++ [0]) = .ok (s ++ 0 :: rest) ∧
          (s ++ 0 :: rest).length = cbsize ∧ 0 ∉ s ∧
          (Plain cbsize r → s = (expand getenv r).take (cbsize - 1))) ↔
    (∀ i, ¬ LongNameAt noVars cbsize r i) ∧ (Plain cbsize r → RefsOk r) := by
  have hroom : (List.replicate cbsize 0 : Bytes).length = cbsize := List.length_replicate
  constructor
  · intro hright
    have hshort : ∀ i, ¬ LongNameAt noVars cbsize r i := by
      intro i hlong
      obtain ⟨s, rest, hrun, -⟩ := hright noVars (fun name value h => by cases h) _ _ hroom hroom
      obtain ⟨e, he⟩ := process_error h0 hroom hroom hlong
      rw [he] at hrun
      cases hrun
    refine ⟨hshort, fun hplain => ?_⟩
    have hlen := hplain.length_lt
    -- with short values there is no limit
    have heq : ∀ getenv : Bytes → Option Bytes,
        (∀ name value, getenv name = some value → 0 ∉ value) →
        (∀ n, ((getenv n).getD []).length ≤ 1) →
        plainText getenv .text r = expand getenv r := by
      intro getenv hvalue hvalues
      obtain ⟨s, rest, hrun, -, hs, hexpand⟩ := hright getenv hvalue _ _ hroom hroom
      obtain ⟨rest', hrun', -⟩ := @process_eq getenv r _ cbsize _ h0 hpos hroom hroom hshort
      rw [hrun', Except.ok.injEq] at hrun
      have h0' : 0 ∉ processMacros getenv cbsize r := by
        rw [processMacros_eq hpos]
        exact fun h => zero_not_mem_macroText hvalue h0 _ (List.mem_of_mem_take h)
      have hstr := congrArg cstr hrun
      rw [cstr_append h0', cstr_append hs] at hstr
      have hle := length_expand_of_short hvalues r
      have hle' := length_plainText_of_short hvalues .text r
      rw [if_neg (by simp)] at hle'
      rw [hexpand hplain, processMacros_plain hplain, List.take_of_length_le (by omega),
        List.take_of_length_le (by omega)] at hstr
      exact hstr
    refine refsOk_of_eq (heq noVars (fun name value h => by cases h) noVars_short) fun name => ?_
    refine heq (oneVar name) (fun n value h => ?_) (oneVar_short name)
    rw [oneVar] at h
    split at h
    · cases h
      decide
    · cases h
  · rintro ⟨hshort, hrefs⟩ getenv hvalue envname output henvname houtput
    obtain ⟨rest, hrun, hlen⟩ := @process_eq getenv r envname cbsize output h0 hpos henvname houtput
      hshort
    refine ⟨_, rest, hrun, hlen, ?_, ?_⟩
    · rw [processMacros_eq hpos]
      exact fun h => zero_not_mem_macroText hvalue h0 _ (List.mem_of_mem_take h)
    · intro hplain
      rw [processMacros_plain hplain, (hrefs hplain).plainText_eq]

end Right

/-- `${a}$b$(xy)` -/
def references : Bytes := [0x24, 0x7B, 0x61, 0x7D, 0x24, 0x62, 0x24, 0x28, 0x78, 0x79, 0x29]

theorem references_ok : RefsOk references := by
  have hlast : RefsOk [0x24, 0x28, 0x78, 0x79, 0x29] :=
    RefsOk.ref (show closes 0x28 0x29 = true by decide)
      (show ∀ x ∈ [0x78, 0x79], isClosing x = false by simp [isClosing]) .nil
  have hdollar : RefsOk [0x24, 0x62, 0x24, 0x28, 0x78, 0x79, 0x29] :=
    .dollar (show isOpening 0x62 = false by decide) rfl hlast
  exact RefsOk.ref (show closes 0x7B 0x7D = true by decide)
    (show ∀ x ∈ [0x61], isClosing x = false by simp [isClosing]) hdollar

theorem references_short (i : Nat) : ¬ LongNameAt noVars 16 references i := by
  rintro ⟨c, acc, hc, -, hctx, hlen, -⟩
  have hi : i < 11 := (List.getElem?_eq_some_iff.mp hc).1
  interval_cases i <;> cases hctx <;> simp at hlen
/-- The values of `a` and `xy` are in the output, whatever they are. -/
theorem processMacros_right_references :
    Plain 16 references ∧
    ∀ getenv, (∀ name value, getenv name = some value → 0 ∉ value) →
      ∀ envname output : Bytes, envname.length = 16 → output.length = 16 →
        ∃ s rest, processBuffers getenv 16 envname output (references ++ [0]) =
            .ok (s ++ 0 :: rest) ∧
          (s ++ 0 :: rest).length = 16 ∧ 0 ∉ s ∧
          (Plain 16 references → s = (expand getenv references).take (16 - 1)) :=
  ⟨⟨by decide, by decide, by decide⟩, (processMacros_right_iff (by decide) (by decide)).mpr
    ⟨references_short, fun _ => references_ok⟩⟩

/-- `$$(x)` stays as it is, where `x` is not defined. -/
theorem processMacros_two_dollars :
    Plain 16 [0x24, 0x24, 0x28, 0x78, 0x29] ∧
      processBuffers noVars 16 (List.replicate 16 0) (List.replicate 16 0)
        ([0x24, 0x24, 0x28, 0x78, 0x29] ++ [0]) =
        .ok ([0x24, 0x24, 0x28, 0x78, 0x29] ++ 0 :: List.replicate 10 0) ∧
      expand noVars [0x24, 0x24, 0x28, 0x78, 0x29] = [0x24] := by
  refine ⟨⟨by decide, by decide, by decide⟩, by rfl, ?_⟩
  rw [expand_char rfl, expand_ref rfl, expand_nil]
  rfl

end UBoot.Common
