import Mathlib.Data.List.Nodup
import UBoot.Common.EnvEditSpec
import UBoot.Common.Nvedit
import UBoot.LibGeneric.Crc32

/-!
# `setenv` on a list of definitions

An environment is *well formed* (`WellFormed`) when its area holds a list of
`name=value` strings, each name at most once.  On that list `setenv` is the
removal of the old definition followed by the appending of the new one, and
`getenv` is `lookup`.

* `doSetenv_outcome`: on a list of definitions every call returns, and what it
  leaves is one of four things (`Outcome`): it was refused; it only removed; it
  stored; or the new definition did not fit and the old one is gone.
* `setenv_getenv`: after a call that returns `0` the variable reads as the words
  joined by blanks, every other variable reads as before, and the environment is
  well formed again.
* `setenv_in_bounds`: no call touches a byte outside the area, and the double `\0`
  is still inside it.
-/

namespace UBoot.Common

open UBoot.Lib
open UBoot.LibGeneric

/-! ## The list of definitions -/

/-- The value of a variable. -/
def lookup (es : List Bytes) (name : Bytes) : Option Bytes :=
  (es.find? fun e => nameOf e = name).map valueOf

/-- The list without the first definition of a variable. -/
def removeVar (es : List Bytes) (name : Bytes) : List Bytes := es.eraseP fun e => nameOf e = name

/-- A list of definitions, each name at most once. -/
structure Defs (es : List Bytes) : Prop where
  isDef : ∀ e ∈ es, IsDef e
  nodup : (es.map nameOf).Nodup

/-- The area holds a list of definitions, each name at most once. -/
def WellFormed (data : Bytes) : Prop := ∃ es, Holds data es ∧ Defs es

theorem removeVar_append {pre post : List Bytes} {e name : Bytes} (he : nameOf e = name)
    (hpre : ∀ x ∈ pre, nameOf x ≠ name) : removeVar (pre ++ e :: post) name = pre ++ post := by
  rw [removeVar, List.eraseP_append_right _ (by simpa using hpre),
    List.eraseP_cons_of_pos (by simpa using he)]

theorem removeVar_of_missing {es : List Bytes} {name : Bytes} (h : ∀ x ∈ es, nameOf x ≠ name) :
    removeVar es name = es :=
  List.eraseP_of_forall_not (by simpa using h)

theorem mem_of_mem_removeVar {es : List Bytes} {name x : Bytes} (h : x ∈ removeVar es name) :
    x ∈ es :=
  List.mem_of_mem_eraseP h

theorem lookup_append_of_missing {es fs : List Bytes} {name : Bytes}
    (h : ∀ x ∈ es, nameOf x ≠ name) : lookup (es ++ fs) name = lookup fs name := by
  have hnone : es.find? (fun e => decide (nameOf e = name)) = none :=
    List.find?_eq_none.mpr (by simpa using h)
  rw [lookup, List.find?_append, hnone, Option.none_or, lookup]

/-- The name that is removed does not come back behind it. -/
theorem Defs.removeVar_missing {es : List Bytes} (h : Defs es) (name : Bytes) :
    ∀ x ∈ removeVar es name, nameOf x ≠ name := by
  have hnodup := h.nodup
  clear h
  induction es with
  | nil => simp [removeVar]
  | cons e es ih =>
    rw [List.map_cons, List.nodup_cons] at hnodup
    by_cases he : nameOf e = name
    · rw [removeVar, List.eraseP_cons_of_pos (by simpa using he)]
      intro x hx hxn
      exact hnodup.1 (List.mem_map.mpr ⟨x, hx, hxn.trans he.symm⟩)
    · rw [removeVar, List.eraseP_cons_of_neg (by simpa using he)]
      intro x hx
      rcases List.mem_cons.mp hx with rfl | hx
      · exact he
      · exact ih hnodup.2 x hx

theorem Defs.removeVar {es : List Bytes} (h : Defs es) (name : Bytes) : Defs (removeVar es name) :=
  ⟨fun e he => h.isDef e (mem_of_mem_removeVar he),
    h.nodup.sublist ((List.eraseP_sublist).map nameOf)⟩

theorem Defs.lookup_removeVar_self {es : List Bytes} (h : Defs es) (name : Bytes) :
    lookup (Common.removeVar es name) name = none := by
  have hnone : (Common.removeVar es name).find? (fun e => decide (nameOf e = name)) = none :=
    List.find?_eq_none.mpr (by simpa using h.removeVar_missing name)
  rw [lookup, hnone, Option.map_none]

theorem lookup_removeVar_of_ne {name other : Bytes} (hne : other ≠ name) (es : List Bytes) :
    lookup (removeVar es name) other = lookup es other := by
  induction es with
  | nil => rfl
  | cons e es ih =>
    by_cases he : nameOf e = name
    · have heo : nameOf e ≠ other := fun h => hne (h.symm.trans he)
      rw [removeVar, List.eraseP_cons_of_pos (by simpa using he), lookup, lookup,
        List.find?_cons_of_neg (by simpa using heo)]
    · rw [removeVar, List.eraseP_cons_of_neg (by simpa using he)]
      by_cases heo : nameOf e = other
      · rw [lookup, lookup, List.find?_cons_of_pos (by simpa using heo),
          List.find?_cons_of_pos (by simpa using heo)]
      · rw [lookup, lookup, List.find?_cons_of_neg (by simpa using heo),
          List.find?_cons_of_neg (by simpa using heo)]
        exact ih

/-! ## Reading a variable -/

/-- The walk stops at the value of a variable, or the variable is not there. -/
theorem search_lookup {data name : Bytes} {es : List Bytes} {configEnvSize : Nat}
    (hm : Holds data es) (hdef : ∀ e ∈ es, IsDef e) (hname : IsName name)
    (hsize : data.length ≤ configEnvSize) (behind : Bytes) :
    ∃ r, search data (fun nxt => decide (configEnvSize ≤ nxt)) (name ++ 0 :: behind) = .ok r ∧
      ((r = .missing ∧ lookup es name = none) ∨
        ∃ env nxt P v Q, r = .found env nxt P.length ∧ lookup es name = some v ∧ 0 ∉ v ∧
          data = P ++ (v ++ 0 :: Q)) := by
  have hstop : ∀ j, j < data.length → decide (configEnvSize ≤ j) = false := by
    intro j hj
    simpa using lt_of_lt_of_le hj hsize
  obtain ⟨r, hr, hfinds⟩ : ∃ r, search data (fun nxt => decide (configEnvSize ≤ nxt))
      (name ++ 0 :: behind) = .ok r ∧ Finds name es 0 r := search_defs hm hdef hname hstop
  refine ⟨r, hr, ?_⟩
  cases hfinds with
  | missing hall =>
    refine Or.inl ⟨rfl, ?_⟩
    rw [lookup, List.find?_eq_none.mpr (by simpa using hall), Option.map_none]
  | @found pre post e hes hne hfirst =>
    subst hes
    have hval : lookup (pre ++ e :: post) name = some (valueOf e) := by
      rw [lookup_append_of_missing hfirst, lookup, List.find?_cons_of_pos (by simpa using hne)]
      rfl
    have hde := hdef e (by simp)
    obtain ⟨junk, hcut⟩ := hm.cut
    have hv0 : 0 ∉ valueOf e := fun h => hde.1 (by rw [hde.eq]; simp [h])
    have hlen : 0 + (strings pre).length + name.length + 1 =
        (strings pre ++ (name ++ [61])).length := by
      simp
      omega
    refine Or.inr ⟨_, _, strings pre ++ (name ++ [61]), valueOf e, strings post ++ 0 :: junk,
      by rw [hlen], hval, hv0, ?_⟩
    rw [hcut]
    conv_lhs => rw [hde.eq, hne]
    simp

/-- **`getenv` reads the list.** -/
theorem getenvString_eq {data name behind : Bytes} {es : List Bytes} {configEnvSize : Nat}
    (hm : Holds data es) (hdef : ∀ e ∈ es, IsDef e) (hname : IsName name)
    (hsize : data.length ≤ configEnvSize) :
    getenvString configEnvSize data (name ++ 0 :: behind) = .ok (lookup es name) := by
  obtain ⟨r, hr, hcases⟩ := search_lookup hm hdef hname hsize behind
  rw [getenvString, getenv, hr]
  rcases hcases with ⟨rfl, hnone⟩ | ⟨env, nxt, P, v, Q, rfl, hval, hv0, harea⟩
  · rw [hnone]
    rfl
  · have hstr : strAt data (data.length + 1) P.length = .ok v := by
      rw [harea]
      exact strAt_cut hv0 rfl (by simp; omega)
    rw [hval, ok_bind]
    show (do return some (← strAt data (data.length + 1) P.length)) = _
    rw [hstr]
    rfl

/-! ## The definition a call asks for -/

theorem Argv.isName {a : Argv} (h : 61 ∉ a.name) : IsName a.name := ⟨a.name_str, h⟩

/-- The string that the call appends. -/
def Argv.definition (a : Argv) : Bytes := a.name ++ valuesText 61 a.values.list

theorem length_valuesText (sep : UInt8) (vs : List Bytes) :
    (valuesText sep vs).length = (vs.map fun v => v.length + 1).sum := by
  induction vs generalizing sep with
  | nil => rfl
  | cons v vs ih =>
    simp only [valuesText, List.length_cons, List.length_append, ih, List.map_cons, List.sum_cons]
    omega

theorem Argv.defSize_lt (a : Argv) : defSize a.name a.values.list < 2 ^ 31 := by
  have h := a.size_lt
  rw [defSize, length_valuesText]
  omega

theorem notMem_valuesText {sep : UInt8} {vs : List Bytes} (hsep : sep ≠ 0)
    (h : ∀ v ∈ vs, 0 ∉ v) : 0 ∉ valuesText sep vs := by
  induction vs generalizing sep with
  | nil => simp [valuesText]
  | cons v vs ih =>
    rw [valuesText, List.mem_cons, List.mem_append]
    rintro (h0 | h0 | h0)
    · exact hsep h0.symm
    · exact h v (by simp) h0
    · exact ih (by decide) (fun w hw => h w (List.mem_cons_of_mem _ hw)) h0

theorem Values.list_eq_nil_iff {vals : Values} : vals.list = [] ↔ ∀ v vs, vals ≠ .words v vs := by
  cases vals <;> simp [Values.list]

theorem Argv.isDef_definition {a : Argv} (h : a.values.list ≠ []) : IsDef a.definition := by
  obtain ⟨v, vs, hv⟩ := List.exists_cons_of_ne_nil h
  refine ⟨fun h0 => ?_, ?_⟩
  · rcases List.mem_append.mp h0 with h0 | h0
    · exact a.name_str h0
    · exact notMem_valuesText (by decide) a.values_str h0
  · rw [definition, hv, valuesText]
    simp

theorem Argv.nameOf_definition {a : Argv} (h : a.values.list ≠ []) (hname : 61 ∉ a.name) :
    nameOf a.definition = a.name := by
  obtain ⟨v, vs, hv⟩ := List.exists_cons_of_ne_nil h
  rw [definition, hv, valuesText]
  exact nameOf_append hname

theorem Argv.valueOf_definition {a : Argv} (h : a.values.list ≠ []) (hname : 61 ∉ a.name) :
    valueOf a.definition = [32].intercalate a.values.list := by
  obtain ⟨v, vs, hv⟩ := List.exists_cons_of_ne_nil h
  rw [definition, hv, valuesText_eq_cons]
  exact valueOf_append hname

/-! ## Outcomes -/

/-- The variables that `setenv` may refuse to change. -/
def guardedNames : List Bytes :=
  [str "stdin", str "stdout", str "stderr", str "baudrate", str "ethaddr", str "serial#"]

section Outcome

variable {b : Board} {crc : Bytes → UInt32} {flag : UInt32} {a : Argv} {g g' : Globals}
  {es : List Bytes} {rc : Int}

/-- What a call leaves, on an area that holds `es` before it and where `kept` is `es`
without the string that the call removes. -/
inductive Outcome (crc : Bytes → UInt32) (a : Argv) (g : Globals) (kept : List Bytes) :
    Int → Globals → Prop
  | removed {g' : Globals} (hno : a.values.list = []) (hm : Holds g'.env.data kept)
      (hlen : g'.env.data.length = g.env.data.length)
      (hcrc : g'.env.crc = crc g'.env.data) : Outcome crc a g kept 0 g'
  | stored {g' : Globals} (hval : a.values.list ≠ [])
      (hm : Holds g'.env.data (kept ++ [a.definition]))
      (hlen : g'.env.data.length = g.env.data.length)
      (hcrc : g'.env.crc = crc g'.env.data) : Outcome crc a g kept 0 g'
  | overflow {g' : Globals} (hval : a.values.list ≠ []) (hm : Holds g'.env.data kept)
      (hlen : g'.env.data.length = g.env.data.length) (hcrc : g'.env.crc = g.env.crc)
      (hfull : g.env.data.length < (strings kept).length + defSize a.name a.values.list)
      (htext : g'.printed.getLast? = some (overflowText a.name)) :
      Outcome crc a g kept 1 g'

theorem Outcome.of_env {crc : Bytes → UInt32} {a : Argv} {g h : Globals} {kept : List Bytes}
    {rc : Int} {g' : Globals} (ho : Outcome crc a h kept rc g') (hcrc : h.env.crc = g.env.crc)
    (hlen : h.env.data.length = g.env.data.length) : Outcome crc a g kept rc g' := by
  cases ho with
  | removed hno hm hl hc => exact .removed hno hm (hl.trans hlen) hc
  | stored hval hm hl hc => exact .stored hval hm (hl.trans hlen) hc
  | overflow hval hm hl hc hfull htext =>
    exact .overflow hval hm (hl.trans hlen) (hc.trans hcrc) (by rwa [← hlen]) htext

/-- A list with the new definition at its end has had room for it. -/
theorem Argv.fits_of_holds {m : Bytes} {kept : List Bytes} (h : Holds m (kept ++ [a.definition])) :
    (strings kept).length + defSize a.name a.values.list ≤ m.length := by
  have hle := h.length_le
  rw [block_of_ne_nil (by simp), strings_append, strings_singleton] at hle
  rw [defSize]
  simp [Argv.definition] at hle
  omega

/-- The new definition is put behind the others, or there is no room for it. -/
theorem Argv.appendDef_cases {m v : Bytes} {vs : List Bytes} (hm : Holds m es)
    (hlist : a.values.list = v :: vs) :
    (∃ m', appendDef m a.name (v :: vs) = .ok (some m') ∧ Holds m' (es ++ [a.definition]) ∧
        m'.length = m.length) ∨
      appendDef m a.name (v :: vs) = .ok none ∧
        m.length < (strings es).length + defSize a.name a.values.list := by
  have hne : a.values.list ≠ [] := by
    rw [hlist]
    exact List.cons_ne_nil v vs
  have happend := appendDef_holds hm a.defSize_lt (Argv.isDef_definition hne).isEntry
  rw [hlist] at happend ⊢
  split at happend
  next hfit =>
    obtain ⟨m', hm', hholds, hlen⟩ := happend
    refine Or.inl ⟨m', hm', ?_, hlen⟩
    simpa [Argv.definition, hlist] using hholds
  next hfit => exact Or.inr ⟨happend, by omega⟩

/-- From "Delete only ?" on, for an area that holds `es`. -/
theorem define_outcome (hm : Holds g.env.data es) :
    ∃ rc g', define b crc a g = .ok (rc, g') ∧ Outcome crc a g es rc g' := by
  rw [define]
  split
  next v vs hv =>
    have hlist : a.values.list = v :: vs := by rw [hv]; rfl
    have hne : a.values.list ≠ [] := by rw [hlist]; simp
    rcases Argv.appendDef_cases hm hlist with ⟨m', hm', hholds, hlen⟩ | ⟨hnone, hfull⟩
    · rw [hm', ok_bind]
      exact ⟨0, _, rfl, .stored hne (by simpa using hholds) (by simpa using hlen) (by simp)⟩
    · rw [hnone, ok_bind]
      exact ⟨1, _, rfl, .overflow hne (by simpa using hm) (by simp) (by simp) hfull
        (by simp [Globals.print])⟩
  next hv =>
    have hno : a.values.list = [] := Values.list_eq_nil_iff.mpr hv
    exact ⟨0, _, rfl, .removed hno (by simpa using hm) (by simp) (by simp)⟩

theorem Outcome.of_define (hm : Holds g.env.data es) (h : define b crc a g = .ok (rc, g')) :
    Outcome crc a g es rc g' := by
  obtain ⟨rc₁, g₁, hdefine, hout⟩ : ∃ rc₁ g₁, define b crc a g = .ok (rc₁, g₁) ∧
      Outcome crc a g es rc₁ g₁ := define_outcome hm
  rw [h] at hdefine
  cases hdefine
  exact hout

/-- Reading a value against a string stays inside the area. -/
theorem strEq_ok {Q : Bytes} : ∀ {s v P : Bytes} {i : Nat}, 0 ∉ s → i = P.length →
    ∃ r, strEq (P ++ (v ++ 0 :: Q)) i s = .ok r := by
  intro s
  induction s with
  | nil =>
    intro v P i _ hi
    cases v with
    | nil => exact ⟨_, by rw [List.nil_append, strEq, load_cut hi]; rfl⟩
    | cons c v => exact ⟨_, by rw [List.cons_append, strEq, load_cut hi]; rfl⟩
  | cons d s ih =>
    intro v P i h0 hi
    have hd : d ≠ 0 := fun h => h0 (by simp [h])
    cases v with
    | nil =>
      refine ⟨false, ?_⟩
      rw [List.nil_append, strEq, load_cut hi, ok_bind, if_neg hd.symm]
      rfl
    | cons c v =>
      rw [List.cons_append, strEq, load_cut hi, ok_bind]
      by_cases hcd : c = d
      · obtain ⟨r, hr⟩ : ∃ r, strEq (P ++ [c] ++ (v ++ 0 :: Q)) (i + 1) s = .ok r :=
          ih (fun h => h0 (List.mem_cons_of_mem _ h)) (by simp [hi])
        rw [if_pos hcd]
        exact ⟨r, by simpa using hr⟩
      · rw [if_neg hcd]
        exact ⟨false, rfl⟩

/-- The test for a protected variable returns. -/
theorem writeProtected_ok {data e : Bytes} {pre post : List Bytes}
    (hm : Holds data (pre ++ e :: post)) (he : IsDef e) (hname : nameOf e = a.name) :
    ∃ r, writeProtected b data flag a.name ((strings pre).length + a.name.length + 1) = .ok r := by
  rw [writeProtected]
  split_ifs
  · exact ⟨_, rfl⟩
  · exact ⟨_, rfl⟩
  · cases hb : b.ethaddrOnce with
    | none => exact ⟨_, rfl⟩
    | some addr =>
      obtain ⟨junk, hcut⟩ := hm.cut
      have harea : data = strings pre ++ (a.name ++ [61]) ++
          (valueOf e ++ 0 :: (strings post ++ 0 :: junk)) := by
        rw [hcut]
        conv_lhs => rw [he.eq, hname]
        simp
      obtain ⟨r, hr⟩ : ∃ r, strEq data ((strings pre).length + a.name.length + 1) addr = .ok r := by
        rw [harea]
        exact strEq_ok (b.ethaddr_str addr (by simp [hb])) (by simp; omega)
      exact ⟨!r, by simp only [hr]; rfl⟩
  · exact ⟨_, rfl⟩

theorem writeProtected_guarded {data name : Bytes} {oldval : Nat}
    (h : writeProtected b data flag name oldval = .ok true) : name ∈ guardedNames := by
  rw [writeProtected] at h
  split_ifs at h with _ hserial heth
  · cases h
  · simp [guardedNames, hserial]
  · simp [guardedNames, heth]
  · cases h

theorem badBaudrate_guarded (h : badBaudrate b a = true) : a.name ∈ guardedNames := by
  rw [badBaudrate, Bool.and_eq_true, decide_eq_true_eq] at h
  simp [guardedNames, h.1]

/-- A console that refuses its device gives an error code. -/
theorem redirectConsole_refused {text : Option Bytes} (h : redirectConsole b a = some (rc, text)) :
    rc ≠ 0 ∧ a.name ∈ guardedNames := by
  have hname : consoleOf a.name ≠ none → a.name ∈ guardedNames := by
    rw [consoleOf]
    split_ifs with h₁ h₂ h₃
    · simp [guardedNames, h₁]
    · simp [guardedNames, h₂]
    · simp [guardedNames, h₃]
    · simp
  simp only [redirectConsole] at h
  split at h
  · cases h
  next hc =>
    refine ⟨?_, hname (by simp [hc])⟩
    split_ifs at h with _ _ hmux <;> cases h
    · decide
    · exact hmux
    · decide
    · decide

/-- **Every call on a list of definitions returns.**  Either it was refused and the
environment is what it was, or the old definition is gone and the new one, if there
is one and it fits, is there. -/
theorem doSetenv_outcome (b : Board) (crc : Bytes → UInt32) (flag : UInt32) (a : Argv)
    (hm : Holds g.env.data es) (hdef : ∀ e ∈ es, IsDef e) :
    ∃ rc g', doSetenv b crc flag a g = .ok (rc, g') ∧
      ((rc ≠ 0 ∧ g'.env = g.env ∧ (61 ∈ a.name ∨ a.name ∈ guardedNames)) ∨
        61 ∉ a.name ∧ Outcome crc a g (removeVar es a.name) rc g') := by
  by_cases h61 : 61 ∈ a.name
  · rw [doSetenv, if_pos h61]
    exact ⟨1, _, rfl, .inl ⟨by decide, rfl, .inl h61⟩⟩
  obtain ⟨r, hr, hfinds⟩ : ∃ r, search g.env.data (fun _ => false) a.nameMem = .ok r ∧
      Finds a.name es 0 r := search_defs hm hdef (Argv.isName h61) (by simp)
  rw [doSetenv, if_neg h61]
  simp only [hr, ok_bind]
  cases hcon : redirectConsole b a with
  | some out =>
    obtain ⟨rc, text⟩ := out
    have hrefused := redirectConsole_refused hcon
    exact ⟨rc, _, rfl, .inl ⟨hrefused.1, by cases text <;> rfl, .inr hrefused.2⟩⟩
  | none =>
    cases hfinds with
    | missing hall =>
      obtain ⟨rc, g', hg', hout⟩ : ∃ rc g', define b crc a { g with envId := g.envId + 1 } =
          .ok (rc, g') ∧ Outcome crc a { g with envId := g.envId + 1 } es rc g' :=
        define_outcome hm
      refine ⟨rc, g', hg', .inr ⟨h61, ?_⟩⟩
      rw [removeVar_of_missing hall]
      exact hout.of_env rfl rfl
    | @found pre post e hes hne hfirst =>
      subst hes
      obtain ⟨p, hp⟩ : ∃ p, writeProtected b g.env.data flag a.name
          ((strings pre).length + a.name.length + 1) = .ok p :=
        writeProtected_ok hm (hdef e (by simp)) hne
      simp only [Nat.zero_add, hp, ok_bind]
      cases p with
      | true => exact ⟨1, _, rfl, .inl ⟨by decide, rfl, .inr (writeProtected_guarded hp)⟩⟩
      | false =>
        by_cases hbad : badBaudrate b a = true
        · simp only [hbad, if_true, Bool.false_eq_true, if_false]
          exact ⟨1, _, rfl, .inl ⟨by decide, rfl, .inr (badBaudrate_guarded hbad)⟩⟩
        · simp only [hbad, Bool.false_eq_true, if_false, switchBaudrate_env]
          obtain ⟨m', hdel, hm', hlen⟩ := deleteEntry_holds (r := .stepBack) hm rfl rfl
          simp only [hdel, ok_bind]
          obtain ⟨rc, g', hg', hout⟩ : ∃ rc g', define b crc a
              ((switchBaudrate b a { g with envId := g.envId + 1 }).setData m') = .ok (rc, g') ∧
              Outcome crc a ((switchBaudrate b a { g with envId := g.envId + 1 }).setData m')
                (pre ++ post) rc g' :=
            define_outcome (by simpa using hm')
          refine ⟨rc, g', hg', .inr ⟨h61, ?_⟩⟩
          rw [removeVar_append hne hfirst]
          exact hout.of_env (by simp) (by simpa using hlen)

/-- A call on a variable that is not guarded is never refused. -/
theorem doSetenv_plain (b : Board) (crc : Bytes → UInt32) (flag : UInt32)
    (hm : Holds g.env.data es) (hdef : ∀ e ∈ es, IsDef e)
    (h61 : 61 ∉ a.name) (hplain : a.name ∉ guardedNames) :
    ∃ rc g', doSetenv b crc flag a g = .ok (rc, g') ∧
      Outcome crc a g (removeVar es a.name) rc g' := by
  obtain ⟨rc, g', hret, hrefused | hout⟩ := doSetenv_outcome b crc flag a hm hdef
  · exact absurd hrefused.2.2 (by simp [h61, hplain])
  · exact ⟨rc, g', hret, hout.2⟩

end Outcome

/-! ## Reading back what was set -/

theorem Defs.append_definition {es : List Bytes} {a : Argv} (h : Defs es) (h61 : 61 ∉ a.name)
    (hval : a.values.list ≠ []) : Defs (Common.removeVar es a.name ++ [a.definition]) := by
  have hkept := h.removeVar a.name
  refine ⟨fun e he => ?_, ?_⟩
  · rcases List.mem_append.mp he with he | he
    · exact hkept.isDef e he
    · rw [List.mem_singleton.mp he]
      exact Argv.isDef_definition hval
  · rw [List.map_append, List.map_singleton, Argv.nameOf_definition hval h61]
    refine List.nodup_append.mpr ⟨hkept.nodup, List.nodup_singleton _, ?_⟩
    intro x hx y hy
    obtain ⟨e, he, rfl⟩ := List.mem_map.mp hx
    rw [List.mem_singleton.mp hy]
    exact h.removeVar_missing a.name e he

/-- **What was set is what is read.**  A call on a variable that is not guarded
returns; without a value it returns `0`.  When it returns `0` the environment is well
formed again, the variable reads as the words joined by single blanks (or is not
there, if there were none), and every other variable reads as before. -/
theorem setenv_getenv (b : Board) (crc : Bytes → UInt32) (flag : UInt32) (a : Argv) (g : Globals)
    (header : Nat) (hwf : WellFormed g.env.data) (h61 : 61 ∉ a.name)
    (hplain : a.name ∉ guardedNames) :
    ∃ rc g', doSetenv b crc flag a g = .ok (rc, g') ∧ (a.values.list = [] → rc = 0) ∧
      (rc = 0 → WellFormed g'.env.data ∧
        (∀ behind, getenvString (g'.env.data.length + header) g'.env.data
            (a.name ++ 0 :: behind) =
          .ok (if a.values.list = [] then none else some ([32].intercalate a.values.list))) ∧
        ∀ other behind, IsName other → other ≠ a.name →
          getenvString (g'.env.data.length + header) g'.env.data (other ++ 0 :: behind) =
            getenvString (g.env.data.length + header) g.env.data (other ++ 0 :: behind)) := by
  obtain ⟨es, hm, hdefs⟩ := hwf
  obtain ⟨rc, g', hret, hout⟩ := doSetenv_plain b crc flag hm hdefs.isDef h61 hplain
  have hkept := hdefs.removeVar a.name
  refine ⟨rc, g', hret, ?_, ?_⟩
  · intro hno
    cases hout with
    | removed => rfl
    | stored => rfl
    | overflow hval => exact absurd hno hval
  intro hrc
  cases hout with
  | overflow => exact absurd hrc (by decide)
  | removed hno hm' hlen _ =>
    refine ⟨⟨_, hm', hkept⟩, fun behind => ?_, fun other behind hother hne => ?_⟩
    · rw [getenvString_eq hm' hkept.isDef (Argv.isName h61) (by omega), if_pos hno,
        hdefs.lookup_removeVar_self]
    · rw [getenvString_eq hm' hkept.isDef hother (by omega),
        getenvString_eq hm hdefs.isDef hother (by omega), lookup_removeVar_of_ne hne]
  | stored hval hm' hlen _ =>
    have hnew := hdefs.append_definition h61 hval
    have hname := Argv.nameOf_definition hval h61
    refine ⟨⟨_, hm', hnew⟩, fun behind => ?_, fun other behind hother hne => ?_⟩
    · rw [getenvString_eq hm' hnew.isDef (Argv.isName h61) (by omega), if_neg hval,
        lookup_append_of_missing (hdefs.removeVar_missing a.name), lookup,
        List.find?_cons_of_pos (by simpa using hname), Option.map_some,
        Argv.valueOf_definition hval h61]
    · rw [getenvString_eq hm' hnew.isDef hother (by omega),
        getenvString_eq hm hdefs.isDef hother (by omega), ← lookup_removeVar_of_ne hne es]
      have hlast : ¬ nameOf a.definition = other := fun h => hne (h.symm.trans hname)
      rw [lookup, List.find?_append, List.find?_cons_of_neg (by simpa using hlast),
        List.find?_nil, Option.or_none, lookup]

/-- A board with one console and write protection. -/
def plainBoard : Board where
  consoleMux := false
  serialMulti := false
  envOverwrite := false
  hasUid := false
  ethaddrOnce := none
  cmdNet := true
  baudrateTable := [9600, 115200]
  iomuxDoenv := fun _ _ => 0
  consoleAssign := fun _ _ => 0
  serialAssign := fun _ => 0
  atNull := []
  ethaddr_str := by simp

/-- A program state with the given environment. -/
def globalsOf (env : Env) : Globals := ⟨env, 1, 115200, 0, 0, [], []⟩

/-- `setenv ip 10 20` -/
def setIp : Argv where
  name := str "ip"
  behind := []
  values := .words (str "10") [str "20"]
  name_str := by decide
  values_str := by decide
  size_lt := by decide

/-- `i=7` and `ip=1` in sixteen bytes. -/
def smallArea : Bytes := block [str "i=7", str "ip=1"] ++ [5, 5, 5, 5, 5, 5]

theorem holds_smallArea : Holds smallArea [str "i=7", str "ip=1"] :=
  ⟨by simp only [IsEntry]; decide, _, rfl⟩

theorem defs_smallArea : Defs [str "i=7", str "ip=1"] :=
  ⟨by simp only [IsDef]; decide, by decide⟩

theorem setenv_getenv_smallArea :
    WellFormed smallArea ∧ ∃ rc g', doSetenv plainBoard crc32 0 setIp
        (globalsOf ⟨crc32 smallArea, 0, smallArea⟩) = .ok (rc, g') ∧
      (setIp.values.list = [] → rc = 0) ∧
      (rc = 0 → WellFormed g'.env.data ∧
        (∀ behind, getenvString (g'.env.data.length + 4) g'.env.data (setIp.name ++ 0 :: behind) =
          .ok (if setIp.values.list = [] then none
            else some ([32].intercalate setIp.values.list))) ∧
        ∀ other behind, IsName other → other ≠ setIp.name →
          getenvString (g'.env.data.length + 4) g'.env.data (other ++ 0 :: behind) =
            getenvString (smallArea.length + 4) smallArea (other ++ 0 :: behind)) :=
  ⟨⟨_, holds_smallArea, defs_smallArea⟩,
    setenv_getenv plainBoard crc32 0 setIp (globalsOf ⟨crc32 smallArea, 0, smallArea⟩) 4
      ⟨_, holds_smallArea, defs_smallArea⟩ (by decide) (by decide)⟩

example : (doSetenv plainBoard (fun _ => 0) 0 setIp (globalsOf ⟨0, 0, smallArea⟩)).map
    (fun r => (r.1, r.2.env.data)) =
      .ok (0, block [str "i=7", str "ip=10 20"] ++ [5, 5]) := by decide

/-! ## Staying inside the area -/

/-- **No call leaves the area.**  On a list of definitions every call returns, so that
no byte outside `data[0 .. ENV_SIZE)` was read or written; the area holds a list
again, its double `\0` included. -/
theorem setenv_in_bounds (b : Board) (crc : Bytes → UInt32) (flag : UInt32) (a : Argv)
    (g : Globals) (es : List Bytes) (hm : Holds g.env.data es) (hdef : ∀ e ∈ es, IsDef e) :
    ∃ rc g' es', doSetenv b crc flag a g = .ok (rc, g') ∧
      g'.env.data.length = g.env.data.length ∧ Holds g'.env.data es' ∧
      (block es').length ≤ g.env.data.length := by
  obtain ⟨rc, g', hret, hrefused | ⟨-, hout⟩⟩ := doSetenv_outcome b crc flag a hm hdef
  · exact ⟨rc, g', es, hret, by rw [hrefused.2.1], by rwa [hrefused.2.1], hm.length_le⟩
  · cases hout with
    | removed _ hm' hlen _ => exact ⟨0, g', _, hret, hlen, hm', hlen ▸ hm'.length_le⟩
    | stored _ hm' hlen _ => exact ⟨0, g', _, hret, hlen, hm', hlen ▸ hm'.length_le⟩
    | overflow _ hm' hlen _ _ _ => exact ⟨1, g', _, hret, hlen, hm', hlen ▸ hm'.length_le⟩

theorem setenv_in_bounds_smallArea :
    Holds smallArea [str "i=7", str "ip=1"] ∧ ∃ rc g' es', doSetenv plainBoard crc32 0 setIp
        (globalsOf ⟨crc32 smallArea, 0, smallArea⟩) = .ok (rc, g') ∧
      g'.env.data.length = smallArea.length ∧ Holds g'.env.data es' ∧
      (block es').length ≤ smallArea.length :=
  ⟨holds_smallArea, setenv_in_bounds plainBoard crc32 0 setIp
    (globalsOf ⟨crc32 smallArea, 0, smallArea⟩) _ holds_smallArea defs_smallArea.isDef⟩

end UBoot.Common
