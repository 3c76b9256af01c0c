import UBoot.Common.Hwconfig

/-!
# What the options say

The grammar of the string in `hwconfig`, and what the four functions find of it.  A word that ends
with the name twice in a row can be taken for the name (`doubled`), the last sub-option is not
found if it has no argument and another option follows, and its argument is taken up to a comma of
another option.

* `hwconfig_right_iff`: the functions are right if and only if nothing of this is met with.
-/

namespace UBoot.Common

open UBoot.Lib
open UBoot.LibGeneric

/-! ## The grammar -/

/-- `sub[=arg]` -/
structure SubOpt where
  name : Bytes
  arg : Option Bytes
  isName : IsHwName name
  isArg : ∀ a, arg = some a → ∀ c ∈ a, c ≠ 0x3B ∧ c ≠ 0x2C ∧ c ≠ 0

/-- `opt[:sub[=arg]{,sub[=arg]}]` -/
structure HwOpt where
  name : Bytes
  subs : List SubOpt
  isName : IsHwName name

/-- Texts with a separator between them. -/
def joined (sep : UInt8) : List Bytes → Bytes
  | [] => []
  | [s] => s
  | s :: t :: rest => s ++ sep :: joined sep (t :: rest)

def SubOpt.text (s : SubOpt) : Bytes :=
  match s.arg with
  | none => s.name
  | some a => s.name ++ 0x3D :: a

/-- The text of sub-options. -/
def subsText (subs : List SubOpt) : Bytes := joined 0x2C (subs.map SubOpt.text)

def HwOpt.text (o : HwOpt) : Bytes :=
  if o.subs = [] then o.name else o.name ++ 0x3A :: subsText o.subs

/-- The text of options. -/
def optsText (opts : List HwOpt) : Bytes := joined 0x3B (opts.map HwOpt.text)

/-! ## The words of it -/

/-- An argument, with `t` behind it, is cut at the separators in it. -/
def argTokens : Bytes → UInt8 → List (Bytes × UInt8)
  | [], t => [([], t)]
  | c :: a, t =>
    if isSep c then ([], c) :: argTokens a t
    else
      match argTokens a t with
      | [] => []
      | (w, d) :: ts => (c :: w, d) :: ts

def SubOpt.tokens (s : SubOpt) (t : UInt8) : List (Bytes × UInt8) :=
  match s.arg with
  | none => [(s.name, t)]
  | some a => (s.name, 0x3D) :: argTokens a t

/-- The words of texts with a separator between them. -/
def joinedTokens {α : Type} (tokens : α → UInt8 → List (Bytes × UInt8)) (sep t : UInt8) :
    List α → List (Bytes × UInt8)
  | [] => []
  | [a] => tokens a t
  | a :: b :: rest => tokens a sep ++ joinedTokens tokens sep t (b :: rest)

def subsTokens (subs : List SubOpt) (t : UInt8) : List (Bytes × UInt8) :=
  joinedTokens SubOpt.tokens 0x2C t subs

def HwOpt.tokens (o : HwOpt) (t : UInt8) : List (Bytes × UInt8) :=
  if o.subs = [] then [(o.name, t)] else (o.name, 0x3A) :: subsTokens o.subs t

def optsTokens (opts : List HwOpt) : List (Bytes × UInt8) :=
  joinedTokens HwOpt.tokens 0x3B 0 opts

/-- The characters of words and of what is behind them. -/
def sizeOf (toks : List (Bytes × UInt8)) : Nat := (toks.map fun tok => tok.1.length + 1).sum

theorem sizeOf_append (A B : List (Bytes × UInt8)) : sizeOf (A ++ B) = sizeOf A + sizeOf B := by
  rw [sizeOf, List.map_append, List.sum_append]
  rfl

section Cuts

variable {R T w : Bytes} {c t : UInt8} {A B ts : List (Bytes × UInt8)}

theorem Cut.sizeOf_eq (h : Cut t R A) : sizeOf A = R.length + 1 := by
  induction h with
  | last hw => rfl
  | cons hw hc tail ih =>
    simp only [sizeOf, List.map_cons, List.sum_cons, List.length_append, List.length_cons] at ih ⊢
    omega

/-- Two texts with a separator between them. -/
theorem Cut.append (h : Cut c R A) (hc : isSep c = true) (h' : Cut t T B) :
    Cut t (R ++ c :: T) (A ++ B) := by
  induction h with
  | last hw => exact .cons hw hc h'
  | cons hw hd tail ih =>
    rw [List.append_assoc]
    exact .cons hw hd ih

theorem Cut.ne_nil (h : Cut t R A) : A ≠ [] := by
  cases h <;> exact List.cons_ne_nil _ _

/-- The last of the words is in front of the end. -/
theorem Cut.getLast? (h : Cut t R A) : A.getLast?.map Prod.snd = some t := by
  induction h with
  | last hw => rfl
  | cons hw hc tail ih => rw [List.getLast?_cons_of_ne_nil tail.ne_nil]; exact ih

theorem cut_argTokens {a : Bytes} (h0 : 0 ∉ a) : Cut t a (argTokens a t) := by
  induction a with
  | nil => exact .last fun c hc => by cases hc
  | cons c a ih =>
    have htail := ih fun h => h0 (List.mem_cons_of_mem _ h)
    rw [argTokens]
    cases hc : isSep c with
    | true =>
      rw [if_pos rfl]
      exact Cut.cons (w := []) (fun c hc => by cases hc) hc htail
    | false =>
      have hc0 : c ≠ 0 := fun h => h0 (h ▸ List.mem_cons_self)
      rw [if_neg Bool.false_ne_true]
      generalize argTokens a t = A at htail
      have hcons : ∀ w, IsWord w → IsWord (c :: w) := by
        intro w hw d hd
        rcases List.mem_cons.mp hd with rfl | hd
        · exact ⟨hc, hc0⟩
        · exact hw d hd
      cases htail with
      | last hw => exact .last (hcons _ hw)
      | cons hw hd tail => exact .cons (hcons _ hw) hd tail

theorem SubOpt.cut (s : SubOpt) (t : UInt8) : Cut t s.text (s.tokens t) := by
  have hname := s.isName.word
  rw [SubOpt.text, SubOpt.tokens]
  cases harg : s.arg with
  | none => exact .last hname
  | some a =>
    have h0 : 0 ∉ a := fun h => (s.isArg a harg 0 h).2.2 rfl
    exact .cons hname rfl (cut_argTokens h0)

theorem cut_joined {α : Type} {text : α → Bytes} {tokens : α → UInt8 → List (Bytes × UInt8)}
    (hcut : ∀ a t, Cut t (text a) (tokens a t)) (hc : isSep c = true) {l : List α} (hne : l ≠ []) :
    Cut t (joined c (l.map text)) (joinedTokens tokens c t l) := by
  induction l with
  | nil => exact absurd rfl hne
  | cons a l ih =>
    cases l with
    | nil => exact hcut a t
    | cons b l => exact (hcut a c).append hc (ih (List.cons_ne_nil _ _))

theorem cut_subs {subs : List SubOpt} (hne : subs ≠ []) (t : UInt8) :
    Cut t (subsText subs) (subsTokens subs t) := cut_joined SubOpt.cut rfl hne

theorem HwOpt.cut (o : HwOpt) (t : UInt8) : Cut t o.text (o.tokens t) := by
  have hname := o.isName.word
  rw [HwOpt.text, HwOpt.tokens]
  split
  · exact .last hname
  · rename_i hne
    exact .cons hname rfl (cut_subs hne t)

theorem cut_opts {opts : List HwOpt} (hne : opts ≠ []) :
    Tokens (optsText opts) (optsTokens opts) := cut_joined HwOpt.cut rfl hne

end Cuts

/-! ## The walk over words that are not the name -/

/-- The character behind the first word that can be taken for the name although it is not. -/
def falseHit (opt : Bytes) (stopch eqch : UInt8) (toks : List (Bytes × UInt8)) : Option UInt8 :=
  (toks.find? fun tok => doubled opt tok.1 && isEnd stopch eqch tok.2).map Prod.snd

/-- No word that is looked at as a whole is the name. -/
def Quiet (opt : Bytes) (stopch : UInt8) : Bool → List (Bytes × UInt8) → Prop
  | _, [] => True
  | ok, (w, c) :: ts => (ok = true → w ≠ opt) ∧ Quiet opt stopch (c = stopch) ts

section Walk

variable {opt : Bytes} {stopch eqch c : UInt8} {ok : Bool} {pos : Nat}
  {A B toks : List (Bytes × UInt8)} {hit : Nat × UInt8}

theorem tokenHit_append (h : A.getLast?.map Prod.snd = some c) :
    tokenHit opt stopch eqch ok pos (A ++ B) = (tokenHit opt stopch eqch ok pos A).or
      (tokenHit opt stopch eqch (c = stopch) (pos + sizeOf A) B) := by
  induction A generalizing ok pos with
  | nil => cases h
  | cons tok A ih =>
    obtain ⟨w, d⟩ := tok
    rw [List.cons_append, tokenHit, tokenHit]
    split
    · rfl
    · cases A with
      | nil =>
        cases h
        rfl
      | cons tok' A =>
        have hpos : pos + w.length + 1 + sizeOf (tok' :: A) =
            pos + sizeOf ((w, d) :: tok' :: A) := by
          simp only [sizeOf, List.map_cons, List.sum_cons]
          omega
        rw [ih (by rwa [List.getLast?_cons_cons] at h), hpos]

theorem tokenHit_lt (h : tokenHit opt stopch eqch ok pos toks = some hit) :
    hit.1 < pos + sizeOf toks := by
  induction toks generalizing ok pos with
  | nil => cases h
  | cons tok toks ih =>
    obtain ⟨w, c⟩ := tok
    have hsize : sizeOf ((w, c) :: toks) = w.length + 1 + sizeOf toks := rfl
    rw [tokenHit] at h
    split at h
    · cases h
      simp only
      omega
    · have hlt := ih h
      omega

/-- Where no word is the name, only a false one is hit. -/
theorem tokenHit_quiet (h : Quiet opt stopch ok toks) (eqch : UInt8) (pos : Nat) :
    (tokenHit opt stopch eqch ok pos toks).map Prod.snd = falseHit opt stopch eqch toks := by
  induction toks generalizing ok pos with
  | nil => rfl
  | cons tok toks ih =>
    obtain ⟨w, c⟩ := tok
    obtain ⟨hw, htail⟩ := h
    have hfirst : (ok && decide (w = opt)) = false := by
      cases ok with
      | false => rfl
      | true => rw [decide_eq_false (hw rfl), Bool.and_false]
    have hrec := ih htail (pos + w.length + 1)
    rw [falseHit] at hrec
    rw [tokenHit, hfirst, Bool.false_or, falseHit, List.find?_cons]
    cases hend : doubled opt w && isEnd stopch eqch c with
    | true => rfl
    | false => exact hrec

theorem Quiet.append (hA : Quiet opt stopch ok A) (h : A.getLast?.map Prod.snd = some c)
    (hB : Quiet opt stopch (c = stopch) B) : Quiet opt stopch ok (A ++ B) := by
  induction A generalizing ok with
  | nil => cases h
  | cons tok A ih =>
    obtain ⟨w, d⟩ := tok
    refine ⟨hA.1, ?_⟩
    cases A with
    | nil =>
      cases h
      exact hB
    | cons tok' A => exact ih hA.2 (by rwa [List.getLast?_cons_cons] at h)

/-- Words behind separators of another kind are not looked at as a whole. -/
theorem quiet_argTokens {a : Bytes} (h : ∀ d ∈ a, d ≠ stopch) (t : UInt8) :
    Quiet opt stopch false (argTokens a t) := by
  induction a with
  | nil => exact ⟨fun h => (Bool.false_ne_true h).elim, trivial⟩
  | cons d a ih =>
    have htail := ih fun x hx => h x (List.mem_cons_of_mem _ hx)
    have hd := h d List.mem_cons_self
    rw [argTokens]
    split
    · refine ⟨fun h => (Bool.false_ne_true h).elim, ?_⟩
      rw [decide_eq_false hd]
      exact htail
    · generalize argTokens a t = A at htail
      cases A with
      | nil => trivial
      | cons tok A => exact ⟨fun h => (Bool.false_ne_true h).elim, htail.2⟩

/-- A sub-option that is not the name, in front of which a name can be. -/
theorem SubOpt.quiet (s : SubOpt) (t : UInt8) (hok : ok = true → s.name ≠ opt)
    (hstop : stopch = 0x2C ∨ stopch = 0x3B) : Quiet opt stopch ok (s.tokens t) := by
  have hne : (0x3D : UInt8) ≠ stopch := by rcases hstop with rfl | rfl <;> decide
  rw [SubOpt.tokens]
  cases harg : s.arg with
  | none => exact ⟨hok, trivial⟩
  | some a =>
    refine ⟨hok, ?_⟩
    rw [decide_eq_false hne]
    refine quiet_argTokens (fun d hd => ?_) t
    have h := s.isArg a harg d hd
    rcases hstop with rfl | rfl
    · exact h.2.1
    · exact h.1

theorem quiet_subs (subs : List SubOpt) (t : UInt8) :
    Quiet opt 0x3B false (subsTokens subs t) := by
  have hok : ∀ s : SubOpt, false = true → s.name ≠ opt := fun s h => (Bool.false_ne_true h).elim
  induction subs with
  | nil => trivial
  | cons s subs ih =>
    cases subs with
    | nil => exact s.quiet t (hok s) (.inr rfl)
    | cons s' subs => exact (s.quiet 0x2C (hok s) (.inr rfl)).append (s.cut 0x2C).getLast? ih

theorem HwOpt.quiet (o : HwOpt) (t : UInt8) (hname : o.name ≠ opt) :
    Quiet opt 0x3B true (o.tokens t) := by
  rw [HwOpt.tokens]
  split
  · exact ⟨fun _ => hname, trivial⟩
  · exact ⟨fun _ => hname, quiet_subs o.subs t⟩

end Walk

/-! ## Texts with a separator between them -/

section Joined

variable {α : Type} {tokens : α → UInt8 → List (Bytes × UInt8)} {text : α → Bytes}
  {opt : Bytes} {sep eqch t : UInt8} {pos : Nat} {l before after : List α} {a : α}

/-- What is behind an element. -/
def endOf (sep t : UInt8) (after : List α) : UInt8 := if after.isEmpty then t else sep

theorem joinedTokens_append (before after : List α) (a : α) :
    joinedTokens tokens sep t (before ++ a :: after) =
      before.flatMap (tokens · sep) ++
        (tokens a (endOf sep t after) ++ joinedTokens tokens sep t after) := by
  induction before with
  | nil =>
    cases after with
    | nil => exact (List.append_nil _).symm
    | cons b after => rfl
  | cons b before ih =>
    rw [List.flatMap_cons, List.append_assoc, ← ih]
    cases before <;> rfl

/-- The length of elements with a separator behind each. -/
def lengthOf (text : α → Bytes) (l : List α) : Nat := (l.map fun a => (text a).length + 1).sum

theorem sizeOf_flatMap (hcut : ∀ a t, Cut t (text a) (tokens a t)) (l : List α) :
    sizeOf (l.flatMap (tokens · sep)) = lengthOf text l := by
  induction l with
  | nil => rfl
  | cons a l ih =>
    rw [List.flatMap_cons, sizeOf_append, ih, (hcut a sep).sizeOf_eq, lengthOf, lengthOf,
      List.map_cons, List.sum_cons]

theorem quiet_flatMap (hcut : ∀ a t, Cut t (text a) (tokens a t))
    (hquiet : ∀ a ∈ l, Quiet opt sep true (tokens a sep)) :
    Quiet opt sep true (l.flatMap (tokens · sep)) := by
  induction l with
  | nil => trivial
  | cons a l ih =>
    refine (hquiet a List.mem_cons_self).append (hcut a sep).getLast? ?_
    rw [decide_eq_true rfl]
    exact ih fun b hb => hquiet b (List.mem_cons_of_mem _ hb)

theorem quiet_joined (hcut : ∀ a t, Cut t (text a) (tokens a t))
    (hquiet : ∀ a ∈ l, ∀ t, Quiet opt sep true (tokens a t)) :
    Quiet opt sep true (joinedTokens tokens sep t l) := by
  induction l with
  | nil => trivial
  | cons a l ih =>
    cases l with
    | nil => exact hquiet a List.mem_cons_self t
    | cons b l =>
      refine (hquiet a List.mem_cons_self sep).append (hcut a sep).getLast? ?_
      rw [decide_eq_true rfl]
      exact ih fun b hb => hquiet b (List.mem_cons_of_mem _ hb)

/-- The walk over some elements, and then over the rest. -/
theorem tokenHit_flatMap (hcut : ∀ a t, Cut t (text a) (tokens a t))
    (B : List (Bytes × UInt8)) :
    tokenHit opt sep eqch true pos (l.flatMap (tokens · sep) ++ B) =
      (tokenHit opt sep eqch true pos (l.flatMap (tokens · sep))).or
        (tokenHit opt sep eqch true (pos + lengthOf text l) B) := by
  induction l generalizing pos with
  | nil => rfl
  | cons a l ih =>
    have hsize := (hcut a sep).sizeOf_eq
    have hlast := (hcut a sep).getLast?
    have hpos : pos + sizeOf (tokens a sep) + lengthOf text l = pos + lengthOf text (a :: l) := by
      rw [hsize, lengthOf, lengthOf, List.map_cons, List.sum_cons, Nat.add_assoc]
    rw [List.flatMap_cons, List.append_assoc, tokenHit_append hlast, tokenHit_append hlast,
      decide_eq_true rfl, ih, hpos, Option.or_assoc]

end Joined

/-! ## What is wanted -/

/-- The first element of a name, with what is in front of it and behind it. -/
def splitAtName {α : Type} (name : α → Bytes) (opt : Bytes) :
    List α → Option (List α × α × List α)
  | [] => none
  | a :: l =>
    if name a = opt then some ([], a, l)
    else (splitAtName name opt l).map fun (before, b, after) => (a :: before, b, after)

theorem splitAtName_eq_some {α : Type} {name : α → Bytes} {opt : Bytes} {l before after : List α}
    {a : α} (h : splitAtName name opt l = some (before, a, after)) :
    l = before ++ a :: after ∧ name a = opt ∧ ∀ b ∈ before, name b ≠ opt := by
  induction l generalizing before with
  | nil => cases h
  | cons b l ih =>
    rw [splitAtName] at h
    split at h
    · rename_i hname
      cases h
      exact ⟨rfl, hname, fun b hb => by cases hb⟩
    · rename_i hname
      obtain ⟨⟨before', a', after'⟩, hrec, heq⟩ := Option.map_eq_some_iff.mp h
      cases heq
      obtain ⟨rfl, ha, hbefore⟩ := ih hrec
      refine ⟨rfl, ha, ?_⟩
      intro x hx
      rcases List.mem_cons.mp hx with rfl | hx
      · exact hname
      · exact hbefore x hx

theorem splitAtName_eq_none {α : Type} {name : α → Bytes} {opt : Bytes} {l : List α}
    (h : splitAtName name opt l = none) : ∀ b ∈ l, name b ≠ opt := by
  induction l with
  | nil =>
    intro b hb
    cases hb
  | cons a l ih =>
    rw [splitAtName] at h
    split at h
    · cases h
    · rename_i hname
      intro b hb
      rcases List.mem_cons.mp hb with rfl | hb
      · exact hname
      · exact ih (Option.map_eq_none_iff.mp h) b hb

/-- The argument of the first option of the name. -/
def argOf (opts : List HwOpt) (opt : Bytes) : Option Piece :=
  (splitAtName HwOpt.name opt opts).bind fun (before, o, _) =>
    if o.subs = [] then none
    else some ⟨lengthOf HwOpt.text before + o.name.length + 1, (subsText o.subs).length⟩

/-- Whether the first option of the name has the sub-option. -/
def isSub (opts : List HwOpt) (opt sub : Bytes) : Bool :=
  (splitAtName HwOpt.name opt opts).any fun (_, o, _) => o.subs.any fun s => s.name = sub

/-- The argument of the first sub-option of the name that it has. -/
def subargOf (opts : List HwOpt) (opt sub : Bytes) : Option Piece :=
  (splitAtName HwOpt.name opt opts).bind fun (before, o, _) =>
    (splitAtName SubOpt.name sub o.subs).bind fun (subsBefore, s, _) =>
      s.arg.map fun a =>
        ⟨lengthOf HwOpt.text before + o.name.length + 1 + lengthOf SubOpt.text subsBefore +
          s.name.length + 1, a.length⟩

/-- What is wanted of the four functions. -/
structure HwconfigRight (h : Hwconfig) (opts : List HwOpt) (opt sub : Bytes) : Prop where
  listed : hwconfig h opt = some (opts.any fun o => o.name = opt)
  arg : hwconfigArg h opt = some (argOf opts opt)
  subListed : hwconfigSub h opt sub = some (isSub opts opt sub)
  subarg : hwconfigSubarg h opt sub = some (subargOf opts opt sub)

/-- What the sub-options must be like, with `t` behind them and `rest` behind the option. -/
def SubOk (subs : List SubOpt) (sub : Bytes) (after : List HwOpt) : Prop :=
  match splitAtName SubOpt.name sub subs with
  | none => falseHit sub 0x2C 0x3D (subsTokens subs (endOf 0x3B 0 after)) = none
  | some (before, s, rest) =>
    let hit := falseHit sub 0x2C 0x3D (before.flatMap (SubOpt.tokens · 0x2C))
    match s.arg with
    | none => (hit = none ∧ (rest ≠ [] ∨ after = [])) ∨ ∃ c, hit = some c ∧ c ≠ 0x3D
    | some _ => hit = none ∧
        (rest ≠ [] ∨ after = [] ∨ (before = [] ∧ 0x2C ∉ optsText after))

/-- What the options must be like. -/
def OptsOk (opts : List HwOpt) (opt sub : Bytes) : Prop :=
  match splitAtName HwOpt.name opt opts with
  | none => falseHit opt 0x3B 0x3A (optsTokens opts) = none
  | some (before, o, after) =>
    let hit := falseHit opt 0x3B 0x3A (before.flatMap (HwOpt.tokens · 0x3B))
    if o.subs = [] then hit ≠ some 0x3A else hit = none ∧ SubOk o.subs sub after

/-! ## The text around an element -/

section Text

variable {α : Type} {text : α → Bytes} {sep : UInt8}

/-- What is behind the text of an element. -/
def restText (text : α → Bytes) (sep : UInt8) (after : List α) : Bytes :=
  if after.isEmpty then [] else sep :: joined sep (after.map text)

theorem joined_append (before after : List α) (a : α) :
    joined sep ((before ++ a :: after).map text) =
      before.flatMap (fun b => text b ++ [sep]) ++ (text a ++ restText text sep after) := by
  induction before with
  | nil =>
    cases after with
    | nil => exact (List.append_nil _).symm
    | cons b after => rfl
  | cons b before ih =>
    rw [List.flatMap_cons, List.append_assoc, ← ih]
    cases before <;> simp [joined]

theorem length_flatMap (l : List α) :
    (l.flatMap fun b => text b ++ [sep]).length = lengthOf text l := by
  induction l with
  | nil => rfl
  | cons a l ih =>
    rw [List.flatMap_cons, List.length_append, ih, List.length_append, lengthOf, lengthOf,
      List.map_cons, List.sum_cons]
    rfl

theorem drop_joined (text : α → Bytes) (sep : UInt8) (before after : List α) (a : α) :
    (joined sep ((before ++ a :: after).map text)).drop (lengthOf text before) =
      text a ++ restText text sep after := by
  have hlen := @length_flatMap α text sep before
  rw [joined_append, ← hlen, List.drop_left]

theorem length_joined (text : α → Bytes) (sep : UInt8) (before after : List α) (a : α) :
    (joined sep ((before ++ a :: after).map text)).length =
      lengthOf text before + ((text a).length + (restText text sep after).length) := by
  have hlen := @length_flatMap α text sep before
  rw [joined_append, List.length_append, List.length_append, hlen]

end Text

/-! ## The search for an option -/

section Top

variable {opts before after : List HwOpt} {o : HwOpt} {opt : Bytes} {h : Hwconfig}

/-- The walk over all words of the options. -/
def topHit (opts : List HwOpt) (opt : Bytes) : Option (Nat × UInt8) :=
  tokenHit opt 0x3B 0x3A true 0 (optsTokens opts)

/-- What the walk finds, as an argument. -/
def topArg (opts : List HwOpt) (opt : Bytes) (hit : Nat × UInt8) : Option Piece :=
  if hit.2 ≠ 0x3A then none
  else some ⟨hit.1 + 1, argLen (optsText opts) (optsText opts).length 0x3B (hit.1 - opt.length)
    hit.1⟩

theorem hwconfigParse_opts (hne : opts ≠ []) (hopt : IsHwName opt) (arglen : Bool) :
    hwconfigParse (optsText opts) 0 (optsText opts).length opt 0x3B 0x3A arglen =
      some ((topHit opts opt).bind fun hit =>
        if arglen = false then some ⟨hit.1 - opt.length, 0⟩ else topArg opts opt hit) := by
  have hcut : Tokens ((optsText opts).drop 0) (optsTokens opts) := cut_opts hne
  have hfuel : (optsText opts).length - 0 < (optsText opts).length + 1 := by omega
  rw [hwconfigParse, parseFrom_tokens hopt rfl rfl hcut (Nat.zero_le _) (Nat.le_refl _) hfuel,
    topHit]
  cases hhit : tokenHit opt 0x3B 0x3A true 0 (optsTokens opts) with
  | none => rfl
  | some hit =>
    have hlt := tokenHit_lt hhit
    rw [hcut.sizeOf_eq, List.drop_zero] at hlt
    rw [Option.bind_some, Option.bind_some, foundAt, if_neg (by omega)]
    rfl

theorem findOption_opts (hne : opts ≠ []) (hopt : IsHwName opt)
    (hsrc : h.env.or (h.board.or h.cpu) = some (optsText opts)) (arglen : Bool) :
    findOption h opt arglen = some (((topHit opts opt).bind fun hit =>
      if arglen = false then some ⟨hit.1 - opt.length, 0⟩ else topArg opts opt hit).map
        fun f => (optsText opts, f)) := by
  rw [findOption, hsrc]
  simp only
  rw [hwconfigParse_opts hne hopt]
  rfl

theorem hwconfig_opts (hne : opts ≠ []) (hopt : IsHwName opt)
    (hsrc : h.env.or (h.board.or h.cpu) = some (optsText opts)) :
    hwconfig h opt = some (topHit opts opt).isSome := by
  rw [hwconfig, findOption_opts hne hopt hsrc]
  cases topHit opts opt <;> rfl

theorem hwconfigArg_opts (hne : opts ≠ []) (hopt : IsHwName opt)
    (hsrc : h.env.or (h.board.or h.cpu) = some (optsText opts)) :
    hwconfigArg h opt = some ((topHit opts opt).bind (topArg opts opt)) := by
  rw [hwconfigArg, findOption_opts hne hopt hsrc]
  cases topHit opts opt with
  | none => rfl
  | some hit =>
    show some ((Option.map _ (topArg opts opt hit)).map Prod.snd) = some (topArg opts opt hit)
    cases topArg opts opt hit <;> rfl

/-- Where the option is not listed, only a false one is hit. -/
theorem topHit_none (hsplit : splitAtName HwOpt.name opt opts = none) :
    (topHit opts opt).map Prod.snd = falseHit opt 0x3B 0x3A (optsTokens opts) := by
  refine tokenHit_quiet (quiet_joined HwOpt.cut ?_) _ _
  intro o ho t
  exact o.quiet t (splitAtName_eq_none hsplit o ho)

/-- The words in front of the option. -/
def frontHit (before : List HwOpt) (opt : Bytes) : Option (Nat × UInt8) :=
  tokenHit opt 0x3B 0x3A true 0 (before.flatMap (HwOpt.tokens · 0x3B))

theorem frontHit_snd (hbefore : ∀ b ∈ before, b.name ≠ opt) :
    (frontHit before opt).map Prod.snd =
      falseHit opt 0x3B 0x3A (before.flatMap (HwOpt.tokens · 0x3B)) := by
  refine tokenHit_quiet (quiet_flatMap HwOpt.cut ?_) _ _
  intro o ho
  exact o.quiet 0x3B (hbefore o ho)

theorem frontHit_lt {hit : Nat × UInt8} (hhit : frontHit before opt = some hit) :
    hit.1 < lengthOf HwOpt.text before := by
  have hlt := tokenHit_lt hhit
  rw [sizeOf_flatMap HwOpt.cut] at hlt
  omega

/-- Else the option is hit, if nothing in front of it is. -/
theorem topHit_some (hsplit : splitAtName HwOpt.name opt opts = some (before, o, after)) :
    topHit opts opt = (frontHit before opt).or
      (some (lengthOf HwOpt.text before + opt.length,
        if o.subs = [] then endOf 0x3B 0 after else 0x3A)) := by
  obtain ⟨rfl, hname, -⟩ := splitAtName_eq_some hsplit
  have hend : isEnd 0x3B 0x3A (if o.subs = [] then endOf 0x3B 0 after else 0x3A) = true := by
    split
    · rw [endOf]
      split <;> rfl
    · rfl
  have hfirst : ∃ ts, o.tokens (endOf 0x3B 0 after) =
      (opt, if o.subs = [] then endOf 0x3B 0 after else 0x3A) :: ts := by
    rw [HwOpt.tokens, hname]
    split
    · exact ⟨_, rfl⟩
    · exact ⟨_, rfl⟩
  obtain ⟨ts, hts⟩ := hfirst
  rw [topHit, optsTokens, joinedTokens_append, tokenHit_flatMap HwOpt.cut, hts, List.cons_append,
    tokenHit, hend, decide_eq_true rfl, Nat.zero_add]
  rfl

theorem IsWord.not_mem {w : Bytes} {c : UInt8} (hw : IsWord w) (hc : isSep c = true) : c ∉ w := by
  intro hmem
  have h := (hw c hmem).1
  rw [hc] at h
  cases h

/-- A comma is not in a sub-option, a semicolon not in an option. -/
theorem SubOpt.not_mem (s : SubOpt) {c : UInt8} (hc : c = 0x3B ∨ c = 0x2C) : c ∉ s.text := by
  have hsep : isSep c = true ∧ c ≠ 0x3D := by rcases hc with rfl | rfl <;> decide
  have hname := s.isName.word.not_mem hsep.1
  rw [SubOpt.text]
  cases harg : s.arg with
  | none => exact hname
  | some a =>
    intro hmem
    rcases List.mem_append.mp hmem with hmem | hmem
    · exact hname hmem
    · rcases List.mem_cons.mp hmem with heq | hmem
      · exact hsep.2 heq
      · have h := s.isArg a harg c hmem
        rcases hc with rfl | rfl
        · exact h.1 rfl
        · exact h.2.1 rfl

theorem not_mem_joined {α : Type} {text : α → Bytes} {sep c : UInt8} {l : List α}
    (htext : ∀ a ∈ l, c ∉ text a) (hc : c ≠ sep) : c ∉ joined sep (l.map text) := by
  induction l with
  | nil => exact List.not_mem_nil
  | cons a l ih =>
    have hrec := ih fun b hb => htext b (List.mem_cons_of_mem _ hb)
    cases l with
    | nil => exact htext a List.mem_cons_self
    | cons b l =>
      intro hmem
      rcases List.mem_append.mp hmem with hmem | hmem
      · exact htext a List.mem_cons_self hmem
      · rcases List.mem_cons.mp hmem with heq | hmem
        · exact hc heq
        · exact hrec hmem

theorem HwOpt.not_mem (o : HwOpt) : 0x3B ∉ o.text := by
  have hname := o.isName.word.not_mem (c := 0x3B) rfl
  rw [HwOpt.text]
  split
  · exact hname
  · intro hmem
    rcases List.mem_append.mp hmem with hmem | hmem
    · exact hname hmem
    · rcases List.mem_cons.mp hmem with heq | hmem
      · cases heq
      · exact not_mem_joined (fun s _ => s.not_mem (.inl rfl)) (by decide) hmem

/-- The next separator behind a text without it. -/
theorem findIdx?_append_cons {s T : Bytes} {c : UInt8} (h : c ∉ s) :
    (s ++ c :: T).findIdx? (fun d => d = c) = some s.length := by
  induction s with
  | nil =>
    rw [List.nil_append, List.findIdx?_cons, decide_eq_true rfl]
    rfl
  | cons a s ih =>
    have ha : a ≠ c := fun e => h (e ▸ List.mem_cons_self)
    rw [List.cons_append, List.findIdx?_cons, decide_eq_false ha,
      ih fun hmem => h (List.mem_cons_of_mem _ hmem)]
    rfl

theorem findIdx?_none {s : Bytes} {c : UInt8} (h : c ∉ s) :
    s.findIdx? (fun d => d = c) = none := by
  rw [List.findIdx?_eq_none_iff]
  intro d hd
  exact decide_eq_false fun e => h (e ▸ hd)

/-- The argument of the option itself is the text up to the next option. -/
theorem topArg_option (hlen : (optsText opts).length < 2 ^ 32)
    (hsplit : splitAtName HwOpt.name opt opts = some (before, o, after)) (hsubs : o.subs ≠ []) :
    topArg opts opt (lengthOf HwOpt.text before + opt.length, 0x3A) =
      some ⟨lengthOf HwOpt.text before + opt.length + 1, (subsText o.subs).length⟩ := by
  obtain ⟨rfl, hname, -⟩ := splitAtName_eq_some hsplit
  have htext : o.text.length = opt.length + 1 + (subsText o.subs).length := by
    rw [HwOpt.text, if_neg hsubs, List.length_append, List.length_cons, hname]
    omega
  have hdrop := drop_joined HwOpt.text 0x3B before after o
  have hwhole := length_joined HwOpt.text 0x3B before after o
  have hstr : lengthOf HwOpt.text before + opt.length - opt.length = lengthOf HwOpt.text before :=
    Nat.add_sub_cancel _ _
  rw [topArg, if_neg (by simp)]
  simp only
  rw [hstr, argLen, optsText, hdrop, restText]
  cases after with
  | nil =>
    rw [restText, List.isEmpty_nil, if_pos rfl, List.length_nil] at hwhole
    rw [optsText, hwhole] at hlen
    rw [List.isEmpty_nil, if_pos rfl, List.append_nil, findIdx?_none o.not_mem, hwhole]
    simp only [ulong, Option.some.injEq, Piece.mk.injEq, true_and]
    omega
  | cons b after =>
    rw [List.isEmpty_cons, if_neg Bool.false_ne_true, findIdx?_append_cons o.not_mem]
    simp only [Option.some.injEq, Piece.mk.injEq, true_and]
    omega

end Top

/-! ## The search for a sub-option -/

section Sub

variable {before after : List HwOpt} {o : HwOpt} {opt sub : Bytes} {subs sb sa : List SubOpt}
  {s : SubOpt} {pos : Nat} {t : UInt8}

/-- The walk over the words of the sub-options. -/
def subHit (subs : List SubOpt) (t : UInt8) (sub : Bytes) (pos : Nat) : Option (Nat × UInt8) :=
  tokenHit sub 0x2C 0x3D true pos (subsTokens subs t)

/-- What the walk finds, as an argument. -/
def subArg (text : Bytes) (maxlen : Nat) (sub : Bytes) (hit : Nat × UInt8) : Option Piece :=
  if hit.2 ≠ 0x3D then none
  else some ⟨hit.1 + 1, argLen text maxlen 0x2C (hit.1 - sub.length) hit.1⟩

/-- The text of the sub-options of an option, and what is behind it. -/
theorem drop_subs (before after : List HwOpt) (hsubs : o.subs ≠ []) :
    (optsText (before ++ o :: after)).drop (lengthOf HwOpt.text before + o.name.length + 1) =
      subsText o.subs ++ restText HwOpt.text 0x3B after := by
  have hdrop := drop_joined HwOpt.text 0x3B before after o
  rw [Nat.add_assoc, ← List.drop_drop, optsText, hdrop, HwOpt.text, if_neg hsubs, List.append_assoc,
    ← List.drop_drop, List.drop_left]
  rfl

theorem tokens_subs (hsubs : o.subs ≠ []) (after : List HwOpt) :
    Tokens (subsText o.subs ++ restText HwOpt.text 0x3B after)
      (subsTokens o.subs (endOf 0x3B 0 after) ++ optsTokens after) := by
  cases after with
  | nil =>
    show Tokens (subsText o.subs ++ []) (subsTokens o.subs 0 ++ [])
    rw [List.append_nil, List.append_nil]
    exact cut_subs hsubs 0
  | cons b after =>
    exact (cut_subs hsubs 0x3B).append rfl (cut_opts (List.cons_ne_nil b after))

/-- The search in the sub-options does not get behind them. -/
theorem hwconfigParse_subs (hsubs : o.subs ≠ []) (hsub : IsHwName sub) (arglen : Bool) :
    hwconfigParse (optsText (before ++ o :: after))
        (lengthOf HwOpt.text before + o.name.length + 1) (subsText o.subs).length sub 0x2C 0x3D
        arglen =
      some ((subHit o.subs (endOf 0x3B 0 after) sub
        (lengthOf HwOpt.text before + o.name.length + 1)).bind fun hit =>
          if arglen = false then some ⟨hit.1 - sub.length, 0⟩
          else subArg (optsText (before ++ o :: after)) (subsText o.subs).length sub hit) := by
  have hdrop := drop_subs before after hsubs
  have htokens := tokens_subs hsubs after
  have hwhole := length_joined HwOpt.text 0x3B before after o
  have htext : o.text.length = o.name.length + 1 + (subsText o.subs).length := by
    rw [HwOpt.text, if_neg hsubs, List.length_append, List.length_cons]
    omega
  have hcut := cut_subs hsubs (endOf 0x3B 0 after)
  have hsize := hcut.sizeOf_eq
  rw [← hdrop] at htokens
  rw [← optsText] at hwhole
  generalize hp : lengthOf HwOpt.text before + o.name.length + 1 = p at *
  generalize optsText (before ++ o :: after) = text at *
  rw [hwconfigParse, parseFrom_tokens hsub rfl rfl htokens (by omega) (Nat.le_refl _) (by omega),
    tokenHit_append hcut.getLast?, subHit]
  cases hhit : tokenHit sub 0x2C 0x3D true p (subsTokens o.subs (endOf 0x3B 0 after)) with
  | some hit =>
    have hlt := tokenHit_lt hhit
    rw [Option.some_or, Option.bind_some, Option.bind_some, foundAt, if_neg (by omega)]
    rfl
  | none =>
    rw [Option.none_or, bind_foundAt_none (by omega)]
    rfl

/-- Where the sub-option is not listed, only a false one is hit. -/
theorem subHit_none (hsplit : splitAtName SubOpt.name sub subs = none) :
    (subHit subs t sub pos).map Prod.snd = falseHit sub 0x2C 0x3D (subsTokens subs t) := by
  refine tokenHit_quiet (quiet_joined SubOpt.cut ?_) _ _
  intro s hs t
  exact s.quiet t (fun _ => splitAtName_eq_none hsplit s hs) (.inl rfl)

/-- The words in front of the sub-option. -/
def frontSubHit (sb : List SubOpt) (sub : Bytes) (pos : Nat) : Option (Nat × UInt8) :=
  tokenHit sub 0x2C 0x3D true pos (sb.flatMap (SubOpt.tokens · 0x2C))

theorem frontSubHit_snd (hsb : ∀ b ∈ sb, b.name ≠ sub) :
    (frontSubHit sb sub pos).map Prod.snd =
      falseHit sub 0x2C 0x3D (sb.flatMap (SubOpt.tokens · 0x2C)) := by
  refine tokenHit_quiet (quiet_flatMap SubOpt.cut ?_) _ _
  intro s hs
  exact s.quiet 0x2C (fun _ => hsb s hs) (.inl rfl)

theorem frontSubHit_lt {hit : Nat × UInt8} (hhit : frontSubHit sb sub pos = some hit) :
    hit.1 < pos + lengthOf SubOpt.text sb := by
  have hlt := tokenHit_lt hhit
  rw [sizeOf_flatMap SubOpt.cut] at hlt
  exact hlt

/-- Else the sub-option is hit, if nothing in front of it is, and if there is no semicolon behind
it. -/
theorem subHit_some (hsplit : splitAtName SubOpt.name sub subs = some (sb, s, sa))
    (after : List HwOpt) :
    subHit subs (endOf 0x3B 0 after) sub pos = (frontSubHit sb sub pos).or
      (if s.arg = none ∧ sa = [] ∧ after ≠ [] then none
        else some (pos + lengthOf SubOpt.text sb + sub.length,
          if s.arg = none then endOf 0x2C (endOf 0x3B 0 after) sa else 0x3D)) := by
  obtain ⟨rfl, hname, -⟩ := splitAtName_eq_some hsplit
  rw [subHit, subsTokens, joinedTokens_append, tokenHit_flatMap SubOpt.cut]
  congr 1
  rw [SubOpt.tokens, hname]
  cases s.arg with
  | some a =>
    show tokenHit sub 0x2C 0x3D true _ ((sub, 0x3D) :: _) = _
    rw [tokenHit, decide_eq_true rfl]
    rfl
  | none =>
    show tokenHit sub 0x2C 0x3D true _ ((sub, endOf 0x2C (endOf 0x3B 0 after) sa) :: _) = _
    rw [tokenHit, decide_eq_true rfl]
    cases sa with
    | cons b sa => rfl
    | nil => cases after <;> rfl

/-- A comma that is further on than the next semicolon. -/
theorem findIdx?_behind {w T : Bytes} {c d : UInt8} (hw : c ∉ w) (hd : d ≠ c) (hT : c ∈ T) :
    ∃ k, (w ++ d :: T).findIdx? (fun e => e = c) = some k ∧ w.length < k := by
  obtain ⟨T₁, T₂, rfl, hT₁⟩ := List.eq_append_cons_of_mem hT
  have hall : c ∉ w ++ d :: T₁ := by
    intro hmem
    rcases List.mem_append.mp hmem with hmem | hmem
    · exact hw hmem
    · rcases List.mem_cons.mp hmem with heq | hmem
      · exact hd heq.symm
      · exact hT₁ hmem
  refine ⟨(w ++ d :: T₁).length, ?_, ?_⟩
  · rw [show w ++ d :: (T₁ ++ c :: T₂) = w ++ d :: T₁ ++ c :: T₂ by simp]
    exact findIdx?_append_cons hall
  · rw [List.length_append, List.length_cons]
    omega

/-- The text from a sub-option on. -/
theorem drop_sub (before after : List HwOpt) (hsubs : o.subs = sb ++ s :: sa) :
    (optsText (before ++ o :: after)).drop
        (lengthOf HwOpt.text before + o.name.length + 1 + lengthOf SubOpt.text sb) =
      s.text ++ (restText SubOpt.text 0x2C sa ++ restText HwOpt.text 0x3B after) := by
  have hne : o.subs ≠ [] := by
    rw [hsubs]
    simp
  have hlen := length_joined SubOpt.text 0x2C sb sa s
  rw [← List.drop_drop, drop_subs before after hne, subsText, hsubs,
    List.drop_append_of_le_length (by omega), drop_joined, List.append_assoc]

/-- The length of its argument is right if another sub-option follows, or no other option; else it
is if it is the only one of the option and no comma follows. -/
theorem subArg_option {a : Bytes} (hsubs : o.subs = sb ++ s :: sa) (hname : s.name = sub)
    (harg : s.arg = some a) (hlen : (optsText (before ++ o :: after)).length < 2 ^ 32) :
    subArg (optsText (before ++ o :: after)) (subsText o.subs).length sub
        (lengthOf HwOpt.text before + o.name.length + 1 + lengthOf SubOpt.text sb + sub.length,
          0x3D) =
      some ⟨lengthOf HwOpt.text before + o.name.length + 1 + lengthOf SubOpt.text sb +
        sub.length + 1, a.length⟩ ↔
    sa ≠ [] ∨ after = [] ∨ (sb = [] ∧ 0x2C ∉ optsText after) := by
  have hdrop := drop_sub before after hsubs
  have htext : s.text.length = sub.length + 1 + a.length := by
    rw [SubOpt.text, harg, ← hname]
    simp only [List.length_append, List.length_cons]
    omega
  have hcomma : 0x2C ∉ s.text := s.not_mem (.inr rfl)
  have hsubsLen : (subsText o.subs).length = lengthOf SubOpt.text sb +
      (s.text.length + (restText SubOpt.text 0x2C sa).length) := by
    rw [subsText, hsubs]
    exact length_joined SubOpt.text 0x2C sb sa s
  have hdropLen := congrArg List.length hdrop
  rw [List.length_drop, List.length_append, List.length_append] at hdropLen
  generalize lengthOf HwOpt.text before + o.name.length + 1 + lengthOf SubOpt.text sb = str at *
  generalize optsText (before ++ o :: after) = text at *
  have hstr : str + sub.length - sub.length = str := Nat.add_sub_cancel _ _
  have hopt : str + sub.length - str = sub.length := Nat.add_sub_cancel_left _ _
  rw [subArg, if_neg (by simp)]
  simp only [Option.some.injEq, Piece.mk.injEq, true_and]
  rw [hstr, argLen, hdrop]
  cases sa with
  | cons b sa =>
    have hrest : restText SubOpt.text 0x2C (b :: sa) ++ restText HwOpt.text 0x3B after =
        0x2C :: (subsText (b :: sa) ++ restText HwOpt.text 0x3B after) := rfl
    rw [hrest, findIdx?_append_cons hcomma]
    simp only [ne_eq, List.cons_ne_nil, not_false_eq_true, true_or, iff_true]
    omega
  | nil =>
    have hrest : restText SubOpt.text 0x2C ([] : List SubOpt) = [] := rfl
    rw [hrest, List.length_nil] at hsubsLen hdropLen
    rw [hrest, List.nil_append]
    cases after with
    | nil =>
      have hrest' : restText HwOpt.text 0x3B ([] : List HwOpt) = [] := rfl
      rw [hrest', List.length_nil] at hdropLen
      rw [hrest', List.append_nil, findIdx?_none hcomma]
      simp only [ulong, hopt, true_or, or_true, iff_true]
      omega
    | cons b after =>
      have hrest' : restText HwOpt.text 0x3B (b :: after) = 0x3B :: optsText (b :: after) := rfl
      rw [hrest', List.length_cons] at hdropLen
      rw [hrest']
      by_cases hmem : 0x2C ∈ optsText (b :: after)
      · obtain ⟨k, hk, hlt⟩ := findIdx?_behind hcomma (by decide : (0x3B : UInt8) ≠ 0x2C) hmem
        rw [hk]
        simp only [hmem]
        constructor
        · intro h
          omega
        · rintro (h | h | h)
          · exact absurd rfl h
          · cases h
          · exact absurd trivial h.2
      · have hnone : 0x2C ∉ s.text ++ 0x3B :: optsText (b :: after) := by
          intro h
          rcases List.mem_append.mp h with h | h
          · exact hcomma h
          · rcases List.mem_cons.mp h with h | h
            · cases h
            · exact hmem h
        have hsb : lengthOf SubOpt.text sb = 0 ↔ sb = [] := by
          cases sb with
          | nil => exact ⟨fun _ => rfl, fun _ => rfl⟩
          | cons x sb =>
            constructor
            · intro h
              rw [lengthOf, List.map_cons, List.sum_cons] at h
              omega
            · intro h
              cases h
        rw [findIdx?_none hnone]
        simp only [ulong, hopt, hmem, ← hsb, not_false_eq_true, and_true, List.cons_ne_nil,
          false_or, ne_eq, not_true_eq_false]
        omega

end Sub

/-! ## When all four are right -/

section Right

variable {opts before after : List HwOpt} {o : HwOpt} {opt sub : Bytes} {h : Hwconfig} {pos : Nat}

theorem any_splitAtName {α : Type} (name : α → Bytes) (opt : Bytes) (l : List α) :
    (l.any fun a => name a = opt) = (splitAtName name opt l).isSome := by
  induction l with
  | nil => rfl
  | cons a l ih =>
    rw [List.any_cons, splitAtName, ih]
    by_cases ha : name a = opt
    · rw [if_pos ha, decide_eq_true ha]
      rfl
    · rw [if_neg ha, decide_eq_false ha, Bool.false_or, Option.isSome_map]

theorem endOf_ne (sep t c : UInt8) {α : Type} (after : List α) (hsep : sep ≠ c) (ht : t ≠ c) :
    endOf sep t after ≠ c := by
  rw [endOf]
  split
  · exact ht
  · exact hsep

theorem subArg_eq_none_iff {text : Bytes} {maxlen : Nat} {hit : Nat × UInt8} :
    subArg text maxlen sub hit = none ↔ hit.2 ≠ 0x3D := by
  rw [subArg]
  split
  · rename_i hne
    exact ⟨fun _ => hne, fun _ => rfl⟩
  · rename_i heq
    constructor
    · intro h
      cases h
    · intro h
      exact absurd h heq

theorem topArg_eq_none_iff {hit : Nat × UInt8} : topArg opts opt hit = none ↔ hit.2 ≠ 0x3A := by
  rw [topArg]
  split
  · rename_i hne
    exact ⟨fun _ => hne, fun _ => rfl⟩
  · rename_i heq
    constructor
    · intro h
      cases h
    · intro h
      exact absurd h heq

/-- What is right about the search in the sub-options. -/
theorem sub_right_iff (sub : Bytes) (hlen : (optsText (before ++ o :: after)).length < 2 ^ 32)
    (hpos : pos = lengthOf HwOpt.text before + o.name.length + 1) :
    ((subHit o.subs (endOf 0x3B 0 after) sub pos).isSome =
        (o.subs.any fun s => s.name = sub) ∧
      (subHit o.subs (endOf 0x3B 0 after) sub pos).bind
          (subArg (optsText (before ++ o :: after)) (subsText o.subs).length sub) =
        (splitAtName SubOpt.name sub o.subs).bind fun (sb, s, _) =>
          s.arg.map fun a => ⟨pos + lengthOf SubOpt.text sb + s.name.length + 1, a.length⟩) ↔
    SubOk o.subs sub after := by
  rw [SubOk, any_splitAtName]
  cases hsplit : splitAtName SubOpt.name sub o.subs with
  | none =>
    simp only
    have hsnd : (subHit o.subs (endOf 0x3B 0 after) sub pos).map Prod.snd = _ := subHit_none hsplit
    rw [← hsnd]
    cases subHit o.subs (endOf 0x3B 0 after) sub pos with
    | none => simp
    | some hit => simp
  | some found =>
    obtain ⟨sb, s, sa⟩ := found
    obtain ⟨hsubs, hname, hsb⟩ := splitAtName_eq_some hsplit
    rw [subHit_some hsplit after]
    simp only [Option.bind_some, Option.isSome_some]
    have hsnd : (frontSubHit sb sub pos).map Prod.snd = _ := frontSubHit_snd hsb
    rw [← hsnd]
    cases harg : s.arg with
    | none =>
      have hend : endOf 0x2C (endOf 0x3B 0 after) sa ≠ 0x3D :=
        endOf_ne _ _ _ _ (by decide) (endOf_ne _ _ _ _ (by decide) (by decide))
      cases hfront : frontSubHit sb sub pos with
      | none =>
        by_cases hlast : sa = [] ∧ after ≠ []
        · obtain ⟨rfl, hafter⟩ := hlast
          simp [hafter]
        · have hor : sa ≠ [] ∨ after = [] := by
            by_contra hnot
            push Not at hnot
            exact hlast hnot
          rw [if_neg fun hcond => hlast hcond.2, Option.none_or, if_pos rfl, Option.bind_some,
            subArg_eq_none_iff.mpr hend]
          simp [hor]
      | some hit =>
        rw [Option.some_or, Option.bind_some]
        simp only [Option.isSome_some, Option.map_none, true_and, subArg_eq_none_iff,
          Option.map_some, reduceCtorEq, false_and, false_or, Option.some.injEq, exists_eq_left']
    | some a =>
      cases hfront : frontSubHit sb sub pos with
      | none =>
        have hiff := subArg_option hsubs hname harg hlen
        rw [← hpos] at hiff
        rw [if_neg (by simp), Option.none_or, if_neg (by simp), Option.bind_some]
        simp only [Option.isSome_some, Option.map_some, true_and, Option.map_none]
        rw [hname]
        exact hiff
      | some hit =>
        have hlt := frontSubHit_lt hfront
        rw [Option.some_or, Option.bind_some]
        simp only [Option.isSome_some, Option.map_some, true_and, reduceCtorEq, false_and,
          iff_false]
        intro heq
        rw [subArg] at heq
        split at heq
        · cases heq
        · have hp := congrArg Piece.pos (Option.some.inj heq)
          simp only at hp
          omega

/-- Without an argument there are no sub-options. -/
theorem sub_of_no_arg (sub : Bytes) (hne : opts ≠ []) (hopt : IsHwName opt)
    (hsrc : h.env.or (h.board.or h.cpu) = some (optsText opts))
    (harg : (topHit opts opt).bind (topArg opts opt) = none) :
    hwconfigSub h opt sub = some false ∧ hwconfigSubarg h opt sub = some none := by
  have hfind := findOption_opts hne hopt hsrc true
  simp only [Bool.true_eq_false, if_false] at hfind
  rw [harg] at hfind
  rw [hwconfigSub, hwconfigSubarg, hfind]
  exact ⟨rfl, rfl⟩

theorem sub_of_arg {f : Piece} (sub : Bytes) (hne : opts ≠ []) (hopt : IsHwName opt)
    (hsrc : h.env.or (h.board.or h.cpu) = some (optsText opts))
    (harg : (topHit opts opt).bind (topArg opts opt) = some f) :
    hwconfigSub h opt sub =
        (hwconfigParse (optsText opts) f.pos f.len sub 0x2C 0x3D false).map Option.isSome ∧
      hwconfigSubarg h opt sub = hwconfigParse (optsText opts) f.pos f.len sub 0x2C 0x3D true := by
  have hfind := findOption_opts hne hopt hsrc true
  simp only [Bool.true_eq_false, if_false] at hfind
  rw [harg] at hfind
  rw [hwconfigSub, hwconfigSubarg, hfind]
  refine ⟨?_, rfl⟩
  show (hwconfigParse (optsText opts) f.pos f.len sub 0x2C 0x3D false >>= fun r =>
    some r.isSome) = _
  cases hwconfigParse (optsText opts) f.pos f.len sub 0x2C 0x3D false <;> rfl

/-- The argument of the option is right unless a false one is hit in front of it. -/
theorem top_right_iff (hlen : (optsText opts).length < 2 ^ 32)
    (hsplit : splitAtName HwOpt.name opt opts = some (before, o, after)) :
    (topHit opts opt).bind (topArg opts opt) = argOf opts opt ↔
      if o.subs = [] then
        falseHit opt 0x3B 0x3A (before.flatMap (HwOpt.tokens · 0x3B)) ≠ some 0x3A
      else falseHit opt 0x3B 0x3A (before.flatMap (HwOpt.tokens · 0x3B)) = none := by
  obtain ⟨-, hname, hbefore⟩ := splitAtName_eq_some hsplit
  rw [topHit_some hsplit, ← frontHit_snd hbefore, argOf, hsplit, Option.bind_some]
  simp only
  by_cases hsubs : o.subs = []
  · rw [if_pos hsubs, if_pos hsubs, if_pos hsubs]
    cases hfront : frontHit before opt with
    | none =>
      have hend : endOf 0x3B 0 after ≠ 0x3A := endOf_ne _ _ _ _ (by decide) (by decide)
      rw [Option.none_or, Option.bind_some, topArg_eq_none_iff]
      simp [hend]
    | some hit =>
      rw [Option.some_or, Option.bind_some, topArg_eq_none_iff]
      simp
  · rw [if_neg hsubs, if_neg hsubs, if_neg hsubs]
    cases hfront : frontHit before opt with
    | none =>
      rw [Option.none_or, Option.bind_some, topArg_option hlen hsplit hsubs, hname]
      simp
    | some hit =>
      have hlt := frontHit_lt hfront
      rw [Option.some_or, Option.bind_some, Option.map_some]
      constructor
      · intro heq
        rw [topArg] at heq
        split at heq
        · cases heq
        · have hp := congrArg Piece.pos (Option.some.inj heq)
          simp only at hp
          omega
      · intro hnone
        cases hnone

/-- The wanted argument is the text of the sub-options. -/
theorem argOf_text (hsplit : splitAtName HwOpt.name opt opts = some (before, o, after))
    (hsubs : o.subs ≠ []) : ∃ f, argOf opts opt = some f ∧
      ((optsText opts).drop f.pos).take f.len = subsText o.subs := by
  obtain ⟨rfl, -, -⟩ := splitAtName_eq_some hsplit
  refine ⟨⟨lengthOf HwOpt.text before + o.name.length + 1, (subsText o.subs).length⟩, ?_, ?_⟩
  · rw [argOf, hsplit, Option.bind_some]
    exact if_neg hsubs
  · simp only
    rw [drop_subs before after hsubs, List.take_left]

/-- The wanted argument of the sub-option is its text. -/
theorem subargOf_text {sb sa : List SubOpt} {s : SubOpt} {a : Bytes}
    (hsplit : splitAtName HwOpt.name opt opts = some (before, o, after))
    (hsub : splitAtName SubOpt.name sub o.subs = some (sb, s, sa)) (harg : s.arg = some a) :
    ∃ f, subargOf opts opt sub = some f ∧ ((optsText opts).drop f.pos).take f.len = a := by
  obtain ⟨rfl, -, -⟩ := splitAtName_eq_some hsplit
  obtain ⟨hsubs, -, -⟩ := splitAtName_eq_some hsub
  refine ⟨⟨lengthOf HwOpt.text before + o.name.length + 1 + lengthOf SubOpt.text sb +
    s.name.length + 1, a.length⟩, ?_, ?_⟩
  · simp only [subargOf, hsplit, Option.bind_some, hsub, harg, Option.map_some]
  · simp only
    rw [Nat.add_assoc _ s.name.length, ← List.drop_drop, drop_sub before after hsubs, SubOpt.text,
      harg, List.append_assoc, ← List.drop_drop, List.drop_left]
    exact List.take_left

/-- **The four functions are right if and only if nothing that is not the name can be taken for it
in front of it, and the last sub-option of an option is one that is found.** -/
theorem hwconfig_right_iff (hne : opts ≠ []) (hopt : IsHwName opt) (hsub : IsHwName sub)
    (hsrc : h.env.or (h.board.or h.cpu) = some (optsText opts))
    (hlen : (optsText opts).length < 2 ^ 32) :
    HwconfigRight h opts opt sub ↔ OptsOk opts opt sub := by
  have hlisted := hwconfig_opts hne hopt hsrc
  have harg := hwconfigArg_opts hne hopt hsrc
  rw [OptsOk]
  cases hsplit : splitAtName HwOpt.name opt opts with
  | none =>
    have hany : (opts.any fun o => o.name = opt) = false := by rw [any_splitAtName, hsplit]; rfl
    have hargOf : argOf opts opt = none := by rw [argOf, hsplit]; rfl
    have hisSub : isSub opts opt sub = false := by rw [isSub, hsplit]; rfl
    have hsubargOf : subargOf opts opt sub = none := by rw [subargOf, hsplit]; rfl
    have hfalse := topHit_none hsplit
    simp only
    rw [← hfalse]
    constructor
    · intro hright
      have heq := hright.listed
      rw [hlisted, hany, Option.some.injEq, Option.isSome_eq_false_iff, Option.isNone_iff_eq_none]
        at heq
      rw [heq]
      rfl
    · intro hnone
      have htop := Option.map_eq_none_iff.mp hnone
      obtain ⟨hsub', hsubarg⟩ := sub_of_no_arg sub hne hopt hsrc (by rw [htop]; rfl)
      refine ⟨?_, ?_, ?_, ?_⟩
      · rw [hlisted, hany, htop]
        rfl
      · rw [harg, hargOf, htop]
        rfl
      · rw [hsub', hisSub]
      · rw [hsubarg, hsubargOf]
  | some found =>
    obtain ⟨before, o, after⟩ := found
    have hiff := top_right_iff hlen hsplit
    have hlist : hwconfig h opt = some (opts.any fun o => o.name = opt) := by
      rw [hlisted, any_splitAtName, hsplit, topHit_some hsplit]
      cases frontHit before opt <;> rfl
    have hisSub : isSub opts opt sub = o.subs.any fun s => s.name = sub := by
      rw [isSub, hsplit]
      rfl
    simp only
    by_cases hsubs : o.subs = []
    · rw [if_pos hsubs] at hiff
      rw [if_pos hsubs, ← hiff]
      have hargOf : argOf opts opt = none := by
        rw [argOf, hsplit, Option.bind_some]
        exact if_pos hsubs
      have hsubargOf : subargOf opts opt sub = none := by
        rw [subargOf, hsplit]
        show (splitAtName SubOpt.name sub o.subs).bind _ = none
        rw [hsubs]
        rfl
      constructor
      · intro hright
        have heq := hright.arg
        rw [harg] at heq
        exact Option.some.inj heq
      · intro heq
        obtain ⟨hsub', hsubarg⟩ := sub_of_no_arg sub hne hopt hsrc (heq.trans hargOf)
        refine ⟨hlist, ?_, ?_, ?_⟩
        · rw [harg, heq]
        · rw [hsub', hisSub, hsubs]
          rfl
        · rw [hsubarg, hsubargOf]
    · rw [if_neg hsubs] at hiff
      rw [if_neg hsubs, ← hiff]
      obtain ⟨rfl, hname, -⟩ := splitAtName_eq_some hsplit
      have hargOf : argOf (before ++ o :: after) opt =
          some ⟨lengthOf HwOpt.text before + o.name.length + 1, (subsText o.subs).length⟩ := by
        rw [argOf, hsplit, Option.bind_some]
        exact if_neg hsubs
      have hsubargOf : subargOf (before ++ o :: after) opt sub =
          (splitAtName SubOpt.name sub o.subs).bind fun (sb, s, _) =>
            s.arg.map fun a => ⟨lengthOf HwOpt.text before + o.name.length + 1 +
              lengthOf SubOpt.text sb + s.name.length + 1, a.length⟩ := by
        rw [subargOf, hsplit]
        rfl
      have hsubOk := sub_right_iff sub hlen rfl
      -- the search in the sub-options, once the argument is right
      have hsearch : (topHit (before ++ o :: after) opt).bind (topArg (before ++ o :: after) opt) =
          argOf (before ++ o :: after) opt →
        hwconfigSub h opt sub = some (subHit o.subs (endOf 0x3B 0 after) sub
            (lengthOf HwOpt.text before + o.name.length + 1)).isSome ∧
          hwconfigSubarg h opt sub = some ((subHit o.subs (endOf 0x3B 0 after) sub
            (lengthOf HwOpt.text before + o.name.length + 1)).bind
              (subArg (optsText (before ++ o :: after)) (subsText o.subs).length sub)) := by
        intro heq
        obtain ⟨hsub', hsubarg⟩ := sub_of_arg sub hne hopt hsrc (heq.trans hargOf)
        rw [hsub', hsubarg, hwconfigParse_subs hsubs hsub, hwconfigParse_subs hsubs hsub]
        refine ⟨?_, rfl⟩
        cases subHit o.subs (endOf 0x3B 0 after) sub
          (lengthOf HwOpt.text before + o.name.length + 1) <;> rfl
      constructor
      · intro hright
        have heq := hright.arg
        rw [harg] at heq
        have hargRight := Option.some.inj heq
        obtain ⟨hsub', hsubarg⟩ := hsearch hargRight
        have hlistedSub := hright.subListed
        have hsubargRight := hright.subarg
        rw [hsub', hisSub] at hlistedSub
        rw [hsubarg, hsubargOf] at hsubargRight
        exact ⟨hargRight, hsubOk.mp ⟨Option.some.inj hlistedSub, Option.some.inj hsubargRight⟩⟩
      · rintro ⟨heq, hok⟩
        obtain ⟨hsub', hsubarg⟩ := hsearch heq
        obtain ⟨hlistedSub, hsubargRight⟩ := hsubOk.mpr hok
        refine ⟨hlist, ?_, ?_, ?_⟩
        · rw [harg, heq]
        · rw [hsub', hisSub, hlistedSub]
        · rw [hsubarg, hsubargOf, hsubargRight]

end Right

/-- `usb:host=1;dr:host;tsec` -/
def someOptions : List HwOpt := [
  ⟨[0x75, 0x73, 0x62],
    [⟨[0x68, 0x6F, 0x73, 0x74], some [0x31], ⟨by decide, by decide +kernel⟩, by simp⟩],
    ⟨by decide, by decide +kernel⟩⟩,
  ⟨[0x64, 0x72], [⟨[0x68, 0x6F, 0x73, 0x74], none, ⟨by decide, by decide +kernel⟩, by simp⟩],
    ⟨by decide, by decide +kernel⟩⟩,
  ⟨[0x74, 0x73, 0x65, 0x63], [], ⟨by decide, by decide +kernel⟩⟩]

/-- The options are listed, and `host` is a sub-option of `usb` with the argument 1. -/
theorem hwconfig_right_usb :
    HwconfigRight ⟨some (optsText someOptions), none, none⟩ someOptions [0x75, 0x73, 0x62]
        [0x68, 0x6F, 0x73, 0x74] ∧
      subargOf someOptions [0x75, 0x73, 0x62] [0x68, 0x6F, 0x73, 0x74] = some ⟨9, 1⟩ := by
  have hok : OptsOk someOptions [0x75, 0x73, 0x62] [0x68, 0x6F, 0x73, 0x74] :=
    ⟨rfl, rfl, .inr (.inr ⟨rfl, by decide⟩)⟩
  exact ⟨(hwconfig_right_iff (by simp [someOptions]) ⟨by decide, by decide +kernel⟩
    ⟨by decide, by decide +kernel⟩ rfl (by decide)).mpr hok, rfl⟩

/-- `dr` has a sub-option `host`, which is not found. -/
theorem hwconfigSub_last :
    hwconfigSub ⟨some (optsText someOptions), none, none⟩ [0x64, 0x72] [0x68, 0x6F, 0x73, 0x74] =
        some false ∧
      isSub someOptions [0x64, 0x72] [0x68, 0x6F, 0x73, 0x74] = true := by
  decide

end UBoot.Common
