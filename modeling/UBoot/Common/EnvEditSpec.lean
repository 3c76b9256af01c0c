import Mathlib.Data.List.TakeWhile
import UBoot.Common.EnvEdit

/-!
# What the environment editor does to the list

`Common/EnvEdit.lean` writes the editing loops over bytes.  Here each of them is
read on the list of strings that the area holds:

* `search_found`: the walk stops at a string of the list;
* `search_defs`: on `name=value` strings it finds the definition of the name and
  nothing else;
* `deleteEntry_holds`: removing a string of the list leaves the list without it,
  in each of the three shapes;
* `appendDef_holds`: the new definition goes behind the last string, exactly when
  it fits.

Every one of them also says that the loop returns, so that all bytes it touches
lie inside the area.
-/

namespace UBoot.Common

open UBoot.Lib

/-! ## The search -/

/-- A walk that finds a string has found one of the list. -/
theorem searchFrom_found {stop : Nat → Bool} {s1 Q m : Bytes} {env nxt val : Nat} :
    ∀ {es : List Bytes} {P : Bytes} {fuel i : Nat}, (∀ e ∈ es, IsEntry e) →
      m = P ++ (strings es ++ 0 :: Q) → (∀ j, j < m.length → stop j = false) → i = P.length →
      searchFrom m stop s1 fuel i = .ok (.found env nxt val) →
      ∃ pre e post, es = pre ++ e :: post ∧ env = P.length + (strings pre).length ∧
        nxt = env + e.length := by
  intro es
  induction es with
  | nil =>
    intro P fuel i _ hm _ hi h
    cases fuel with
    | zero => cases h
    | succ fuel =>
      rw [searchFrom, hm, strings_nil, List.nil_append, load_cut hi] at h
      cases h
  | cons e es ih =>
    intro P fuel i he hm hstop hi h
    cases fuel with
    | zero => cases h
    | succ fuel =>
      obtain ⟨hne, h0⟩ := he e (by simp)
      obtain ⟨c, t, rfl⟩ := List.exists_cons_of_ne_nil hne
      have hm' : m = P ++ (c :: t ++ 0 :: (strings es ++ 0 :: Q)) := by
        rw [hm]; simp [strings]
      have hload : load m i = .ok c := by rw [hm']; exact load_cut hi
      have hc : c ≠ 0 := fun hc => h0 (by simp [hc])
      have hscan : scanNul m stop (m.length + 1) i = .ok (some (i + (c :: t).length)) := by
        rw [hm']
        refine scanNul_cut h0 hi (by simp; omega) fun j hj => hstop j ?_
        rw [hm']; simp at hj ⊢; omega
      rw [searchFrom, hload, ok_bind, if_neg hc, hscan, ok_bind] at h
      obtain ⟨r, hr, h⟩ := bind_eq_ok.mp h
      cases r with
      | some v =>
        cases h
        exact ⟨[], c :: t, es, rfl, by simp [hi], rfl⟩
      | none =>
        obtain ⟨pre, f, post, rfl, henv, hnxt⟩ := ih (P := P ++ (c :: t ++ [0]))
          (fun x hx => he x (List.mem_cons_of_mem _ hx)) (by rw [hm']; simp) hstop
          (by simp [hi]; omega) h
        refine ⟨(c :: t) :: pre, f, post, rfl, ?_, hnxt⟩
        rw [henv]
        simp [strings]
        omega

theorem search_found {m s1 : Bytes} {stop : Nat → Bool} {es : List Bytes} {env nxt val : Nat}
    (hm : Holds m es) (hstop : ∀ j, j < m.length → stop j = false)
    (h : search m stop s1 = .ok (.found env nxt val)) :
    ∃ pre e post, es = pre ++ e :: post ∧ env = (strings pre).length ∧ nxt = env + e.length := by
  obtain ⟨Q, hQ⟩ := hm.exists_tail
  obtain ⟨pre, e, post, hes, henv, hnxt⟩ := searchFrom_found (P := []) hm.entry
    (by simpa using hQ) hstop rfl h
  exact ⟨pre, e, post, hes, by simpa using henv, hnxt⟩

/-! ### Definitions -/

/-- The name of a `name=value` string. -/
def nameOf (e : Bytes) : Bytes := e.takeWhile (· ≠ 61)

/-- The value of a `name=value` string. -/
def valueOf (e : Bytes) : Bytes := (e.dropWhile (· ≠ 61)).tail

/-- A `name=value` string. -/
def IsDef (e : Bytes) : Prop := 0 ∉ e ∧ 61 ∈ e

/-- A string that can stand as a variable's name. -/
def IsName (n : Bytes) : Prop := 0 ∉ n ∧ 61 ∉ n

theorem IsDef.isEntry {e : Bytes} (h : IsDef e) : IsEntry e :=
  ⟨List.ne_nil_of_mem h.2, h.1⟩

theorem isName_nameOf {e : Bytes} (h : 0 ∉ e) : IsName (nameOf e) := by
  refine ⟨fun h0 => h (List.takeWhile_sublist _ |>.mem h0), fun h61 => ?_⟩
  simpa using List.mem_takeWhile_imp h61

theorem IsName.tail {c : UInt8} {n : Bytes} (h : IsName (c :: n)) : IsName n :=
  ⟨fun h0 => h.1 (List.mem_cons_of_mem _ h0), fun h61 => h.2 (List.mem_cons_of_mem _ h61)⟩

theorem IsDef.eq {e : Bytes} (h : IsDef e) : e = nameOf e ++ 61 :: valueOf e := by
  have hne : e.dropWhile (· ≠ 61) ≠ [] := by
    rw [Ne, List.dropWhile_eq_nil_iff]
    exact fun hall => by simpa using hall 61 h.2
  obtain ⟨c, t, hct⟩ := List.exists_cons_of_ne_nil hne
  have hc : c = 61 := by
    have := List.head?_dropWhile_not (p := fun x : UInt8 => decide (x ≠ 61)) e
    rw [hct] at this
    simpa using this
  have happ := List.takeWhile_append_dropWhile (p := fun x : UInt8 => decide (x ≠ 61)) (l := e)
  rw [hct, hc] at happ
  rw [nameOf, valueOf, hct]
  exact happ.symm

theorem nameOf_append {n v : Bytes} (h : 61 ∉ n) : nameOf (n ++ 61 :: v) = n := by
  have hall : ∀ x ∈ n, decide (x ≠ 61) = true := by
    intro x hx
    simp only [ne_eq, decide_eq_true_eq]
    rintro rfl
    exact h hx
  rw [nameOf, List.takeWhile_append_of_pos hall]
  simp

theorem valueOf_append {n v : Bytes} (h : 61 ∉ n) : valueOf (n ++ 61 :: v) = v := by
  have hall : ∀ x ∈ n, decide (x ≠ 61) = true := by
    intro x hx
    simp only [ne_eq, decide_eq_true_eq]
    rintro rfl
    exact h hx
  rw [valueOf, List.dropWhile_append_of_pos hall]
  simp

/-- **`envmatch` compares names.**  It walks the common part of the two names and
stops inside the string, whatever lies behind the name in memory. -/
theorem envmatch_def {v Q behind : Bytes} : ∀ {n name P : Bytes} {i : Nat}, IsName n →
    IsName name → i = P.length →
    envmatch (P ++ (n ++ 61 :: v ++ Q)) (name ++ 0 :: behind) i =
      .ok (if name = n then some (i + n.length + 1) else none) := by
  intro n
  induction n with
  | nil =>
    intro name P i _ hname hi
    cases name with
    | nil =>
      rw [List.nil_append, List.nil_append, List.cons_append, envmatch, load_cut hi, ok_bind,
        if_neg (by decide), if_pos ⟨rfl, rfl⟩, if_pos rfl]
      rfl
    | cons c name =>
      have hc : c ≠ 61 := fun h => hname.2 (by simp [h])
      have hc0 : c ≠ 0 := fun h => hname.1 (by simp [h])
      rw [List.nil_append, List.cons_append, List.cons_append, envmatch, load_cut hi, ok_bind,
        if_neg hc, if_neg (fun h => hc0 h.1), if_neg (by simp)]
      rfl
  | cons d n ih =>
    intro name P i hn hname hi
    have hd : d ≠ 61 := fun h => hn.2 (by simp [h])
    have hd0 : d ≠ 0 := fun h => hn.1 (by simp [h])
    cases name with
    | nil =>
      rw [List.nil_append, List.cons_append, List.cons_append, envmatch, load_cut hi, ok_bind,
        if_neg (fun h => hd0 h.symm), if_neg (fun h => hd h.2), if_neg (by simp)]
      rfl
    | cons c name =>
      by_cases hcd : c = d
      · subst hcd
        have hrec : envmatch (P ++ [c] ++ (n ++ 61 :: v ++ Q)) (name ++ 0 :: behind) (i + 1) =
            .ok (if name = n then some (i + 1 + n.length + 1) else none) :=
          ih hn.tail hname.tail (by simp [hi])
        simp only [List.append_assoc, List.cons_append, List.nil_append] at hrec
        simp only [List.append_assoc, List.cons_append]
        rw [envmatch, load_cut hi, ok_bind, if_pos rfl, if_neg hd, hrec]
        have : i + 1 + n.length + 1 = i + (c :: n).length + 1 := by
          simp only [List.length_cons]; omega
        by_cases hnn : name = n
        · rw [if_pos hnn, if_pos (by rw [hnn]), this]
        · rw [if_neg hnn, if_neg (by simpa using hnn)]
      · have hc0 : c ≠ 0 := fun h => hname.1 (by simp [h])
        rw [List.cons_append, List.cons_append, List.cons_append, envmatch, load_cut hi, ok_bind,
          if_neg hcd, if_neg (fun h => hc0 h.1), if_neg (by simp [hcd])]
        rfl

/-- What the walk over definitions returns. -/
inductive Finds (name : Bytes) (es : List Bytes) (base : Nat) : Search → Prop
  | found {pre post : List Bytes} {e : Bytes} (hes : es = pre ++ e :: post)
      (hname : nameOf e = name) (hfirst : ∀ x ∈ pre, nameOf x ≠ name) :
      Finds name es base (.found (base + (strings pre).length)
        (base + (strings pre).length + e.length)
        (base + (strings pre).length + name.length + 1))
  | missing (hall : ∀ x ∈ es, nameOf x ≠ name) : Finds name es base .missing

theorem searchFrom_defs {stop : Nat → Bool} {name behind Q m : Bytes} (hname : IsName name) :
    ∀ {es : List Bytes} {P : Bytes} {fuel i : Nat}, (∀ e ∈ es, IsDef e) →
      m = P ++ (strings es ++ 0 :: Q) → (∀ j, j < m.length → stop j = false) → i = P.length →
      es.length < fuel →
      ∃ r, searchFrom m stop (name ++ 0 :: behind) fuel i = .ok r ∧ Finds name es i r := by
  intro es
  induction es with
  | nil =>
    intro P fuel i _ hm _ hi hf
    obtain ⟨fuel, rfl⟩ : ∃ k, fuel = k + 1 := ⟨fuel - 1, by simp at hf; omega⟩
    refine ⟨.missing, ?_, .missing (by simp)⟩
    rw [searchFrom, hm, strings_nil, List.nil_append, load_cut hi]
    rfl
  | cons e es ih =>
    intro P fuel i he hm hstop hi hf
    obtain ⟨fuel, rfl⟩ : ∃ k, fuel = k + 1 := ⟨fuel - 1, by omega⟩
    have hdef := he e (by simp)
    obtain ⟨c, t, hct⟩ := List.exists_cons_of_ne_nil hdef.isEntry.1
    have hm' : m = P ++ (e ++ 0 :: (strings es ++ 0 :: Q)) := by rw [hm]; simp [strings]
    have hload : load m i = .ok c := by rw [hm', hct]; exact load_cut hi
    have hc : c ≠ 0 := fun hc => hdef.1 (by simp [hct, hc])
    have hscan : scanNul m stop (m.length + 1) i = .ok (some (i + e.length)) := by
      rw [hm']
      refine scanNul_cut hdef.1 hi (by simp; omega) fun j hj => hstop j ?_
      rw [hm']; simp at hj ⊢; omega
    have hmatch : envmatch m (name ++ 0 :: behind) i =
        .ok (if name = nameOf e then some (i + (nameOf e).length + 1) else none) := by
      rw [hm']
      conv_lhs => rw [hdef.eq]
      exact envmatch_def (isName_nameOf hdef.1) hname hi
    rw [searchFrom, hload, ok_bind, if_neg hc, hscan, ok_bind]
    simp only [hmatch, ok_bind]
    by_cases hne : name = nameOf e
    · refine ⟨_, by rw [if_pos hne]; rfl, ?_⟩
      have hfound : Finds name (e :: es) i (.found (i + (strings []).length)
          (i + (strings []).length + e.length) (i + (strings []).length + name.length + 1)) :=
        .found rfl hne.symm (by simp)
      simpa [← hne] using hfound
    · obtain ⟨r, hr, hfinds⟩ : ∃ r, searchFrom m stop (name ++ 0 :: behind) fuel
          (i + e.length + 1) = .ok r ∧ Finds name es (i + e.length + 1) r :=
        ih (P := P ++ (e ++ [0])) (fun x hx => he x (List.mem_cons_of_mem _ hx))
          (by rw [hm']; simp) hstop (by simp [hi]; omega) (by simpa using hf)
      refine ⟨r, by rw [if_neg hne]; exact hr, ?_⟩
      cases hfinds with
      | @found pre post f hes hnf hfirst =>
        have hlen : i + e.length + 1 + (strings pre).length = i + (strings (e :: pre)).length := by
          simp [strings]; omega
        rw [hlen]
        refine .found (by rw [hes]; rfl) hnf fun x hx => ?_
        rcases List.mem_cons.mp hx with rfl | hx
        · exact fun h => hne h.symm
        · exact hfirst x hx
      | missing hall =>
        refine .missing fun x hx => ?_
        rcases List.mem_cons.mp hx with rfl | hx
        · exact fun h => hne h.symm
        · exact hall x hx

theorem length_le_length_strings (es : List Bytes) : es.length ≤ (strings es).length := by
  induction es with
  | nil => simp
  | cons e es ih => simp [strings]; omega

/-- **The walk over definitions** finds the first one of the name, or runs to the
closing `\0`. -/
theorem search_defs {m name behind : Bytes} {stop : Nat → Bool} {es : List Bytes}
    (hm : Holds m es) (hdef : ∀ e ∈ es, IsDef e) (hname : IsName name)
    (hstop : ∀ j, j < m.length → stop j = false) :
    ∃ r, search m stop (name ++ 0 :: behind) = .ok r ∧ Finds name es 0 r := by
  obtain ⟨Q, hQ⟩ := hm.exists_tail
  have hlen := length_le_length_strings es
  exact searchFrom_defs hname hdef (P := []) (by simpa using hQ) hstop rfl
    (by rw [hQ]; simp; omega)

/-! ## The removal -/

/-- **Closing a gap.**  The bytes `T` and the `\0` behind them move down over the gap
`G`; the loop stops there because `T` holds no double `\0`. -/
theorem shiftDown_cut {J : Bytes} : ∀ {T P G : Bytes} {fuel env nxt : Nat}, G ≠ [] →
    NoDouble (T ++ [0]) → env = P.length → nxt = P.length + G.length → T.length < fuel →
    ∃ R, shiftDown fuel (P ++ (G ++ (T ++ 0 :: 0 :: J))) env nxt =
      .ok (P ++ (T ++ 0 :: R), env + T.length) ∧ R.length = G.length + 1 + J.length := by
  intro T
  induction T with
  | nil =>
    intro P G fuel env nxt hG _ henv hnxt hf
    obtain ⟨fuel, rfl⟩ : ∃ k, fuel = k + 1 := ⟨fuel - 1, by simp at hf; omega⟩
    obtain ⟨g, G, rfl⟩ := List.exists_cons_of_ne_nil hG
    have hload : load (P ++ (g :: G ++ 0 :: 0 :: J)) nxt = .ok 0 := by
      rw [← List.append_assoc]
      exact load_cut (by simp [hnxt])
    have hnext : load (P ++ 0 :: (G ++ 0 :: 0 :: J)) (nxt + 1) = .ok 0 := by
      have : P ++ 0 :: (G ++ 0 :: 0 :: J) = P ++ 0 :: (G ++ [0]) ++ 0 :: J := by simp
      rw [this]
      exact load_cut (by simp [hnxt]; omega)
    refine ⟨G ++ 0 :: 0 :: J, ?_, by simp; omega⟩
    rw [List.nil_append, shiftDown, hload, ok_bind, List.cons_append, store_cut henv, ok_bind,
      if_pos rfl, hnext, ok_bind, if_pos rfl]
    rfl
  | cons c T ih =>
    intro P G fuel env nxt hG hT henv hnxt hf
    obtain ⟨fuel, rfl⟩ : ∃ k, fuel = k + 1 := ⟨fuel - 1, by omega⟩
    obtain ⟨g, G, rfl⟩ := List.exists_cons_of_ne_nil hG
    have hload : load (P ++ (g :: G ++ (c :: T ++ 0 :: 0 :: J))) nxt = .ok c := by
      rw [← List.append_assoc]
      exact load_cut (by simp [hnxt])
    obtain ⟨R, hR, hlen⟩ : ∃ R, shiftDown fuel (P ++ [c] ++ (G ++ [c] ++ (T ++ 0 :: 0 :: J)))
        (env + 1) (nxt + 1) = .ok (P ++ [c] ++ (T ++ 0 :: R), env + 1 + T.length) ∧
        R.length = (G ++ [c]).length + 1 + J.length :=
      ih (by simp) hT.tail (by simp [henv]) (by simp [hnxt]; omega)
        (by simp only [List.length_cons] at hf; omega)
    have harea : P ++ [c] ++ (G ++ [c] ++ (T ++ 0 :: 0 :: J)) =
        P ++ c :: (G ++ (c :: T ++ 0 :: 0 :: J)) := by simp
    rw [harea] at hR
    refine ⟨R, ?_, by simp at hlen ⊢; omega⟩
    have hstep : shiftDown fuel (P ++ c :: (G ++ (c :: T ++ 0 :: 0 :: J))) (env + 1) (nxt + 1) =
        .ok (P ++ (c :: T ++ 0 :: R), env + (c :: T).length) := by
      rw [hR]
      simp only [List.append_assoc, List.cons_append, List.length_cons]
      congr 2
      omega
    rw [shiftDown, hload, ok_bind, List.cons_append, store_cut henv, ok_bind]
    by_cases hc : c = 0
    · subst hc
      -- the byte behind a moved `\0` is the first of the next string
      obtain ⟨d, t, hd⟩ : ∃ d t, T ++ [0] = d :: t := List.exists_cons_of_ne_nil (by simp)
      have hnext : load (P ++ 0 :: (G ++ (0 :: T ++ 0 :: 0 :: J))) (nxt + 1) = .ok d := by
        have htail : T ++ 0 :: 0 :: J = d :: (t ++ 0 :: J) := by
          simpa using congrArg (· ++ 0 :: J) hd
        have harea : P ++ 0 :: (G ++ (0 :: T ++ 0 :: 0 :: J)) =
            P ++ 0 :: (G ++ [0]) ++ d :: (t ++ 0 :: J) := by
          rw [List.cons_append, htail]; simp
        rw [harea]
        exact load_cut (by simp [hnxt]; omega)
      have hd0 : d ≠ 0 := by
        rw [List.cons_append, hd] at hT
        exact hT.next_ne
      rw [if_pos rfl, hnext, ok_bind, if_neg hd0, hstep]
    · rw [if_neg hc, hstep]

/-- The last string of the list, where the two editors write different bytes. -/
theorem deleteEntry_last {r : Removal} {t junk : Bytes} {c : UInt8} {pre : List Bytes}
    {env nxt : Nat} (hentry : ∀ x ∈ pre, IsEntry x) (henv : env = (strings pre).length)
    (hnxt : nxt = env + (c :: t).length) :
    ∃ m', deleteEntry r (strings pre ++ (c :: t ++ 0 :: 0 :: junk)) env nxt = .ok m' ∧
      Holds m' pre ∧ m'.length = (strings pre ++ (c :: t ++ 0 :: 0 :: junk)).length := by
  have hload : load (strings pre ++ (c :: t ++ 0 :: 0 :: junk)) (nxt + 1) = .ok 0 := by
    have harea : strings pre ++ (c :: t ++ 0 :: 0 :: junk) =
        strings pre ++ (c :: t ++ [0]) ++ 0 :: junk := by simp
    rw [harea]
    exact load_cut (by simp [hnxt, henv]; omega)
  rw [deleteEntry, hload, ok_bind, if_pos rfl]
  by_cases hr : r = .stepBack ∧ 0 < env
  · -- the string before it keeps its terminator, and the first byte becomes the closing one
    refine ⟨strings pre ++ 0 :: (t ++ 0 :: 0 :: junk), ?_, ?_, by simp⟩
    · rw [if_pos hr]
      show store _ (env - 1 + 1) 0 = _
      rw [Nat.sub_add_cancel hr.2]
      exact store_cut henv
    · have hpre : pre ≠ [] := by
        rintro rfl
        simp [henv] at hr
      exact ⟨hentry, t ++ 0 :: 0 :: junk, by simp [block_of_ne_nil hpre]⟩
  · obtain ⟨d, u, hd⟩ : ∃ d u, t ++ 0 :: 0 :: junk = d :: u :=
      List.exists_cons_of_ne_nil (by simp)
    have hsecond : store (strings pre ++ 0 :: (d :: u)) (env + 1) 0 =
        .ok (strings pre ++ 0 :: (0 :: u)) := by
      have hcut := store_cut (P := strings pre ++ [0]) (Q := u) (c := d) (x := 0)
        (i := env + 1) (by simp [henv])
      simpa using hcut
    refine ⟨strings pre ++ 0 :: (0 :: u), ?_, ?_, ?_⟩
    · rw [if_neg hr, List.cons_append, hd, store_cut henv, ok_bind, hsecond]
    · by_cases hpre : pre = []
      · subst hpre
        exact ⟨hentry, u, by simp [block]⟩
      · exact ⟨hentry, 0 :: u, by simp [block_of_ne_nil hpre]⟩
    · have := congrArg List.length hd
      simp at this ⊢
      omega

/-- A string with others behind it, which move down. -/
theorem deleteEntry_middle {r : Removal} {e f junk : Bytes} {pre fs : List Bytes} {env nxt : Nat}
    (hentry : ∀ x ∈ pre ++ f :: fs, IsEntry x) (henv : env = (strings pre).length)
    (hnxt : nxt = env + e.length) :
    ∃ m', deleteEntry r (strings pre ++ (e ++ 0 :: (strings (f :: fs) ++ 0 :: junk))) env nxt =
        .ok m' ∧ Holds m' (pre ++ f :: fs) ∧
      m'.length = (strings pre ++ (e ++ 0 :: (strings (f :: fs) ++ 0 :: junk))).length := by
  obtain ⟨T, hT⟩ := strings_eq_concat (List.cons_ne_nil f fs)
  obtain ⟨d, u, rfl⟩ := List.exists_cons_of_ne_nil (hentry f (by simp)).1
  have hd0 : d ≠ 0 := by
    rintro rfl
    exact (hentry (0 :: u) (by simp)).2 (by simp)
  have hdouble : NoDouble (T ++ [0]) := by
    rw [← hT]
    apply noDouble_strings
    intro x hx
    exact hentry x (List.mem_append_right _ hx)
  have hload : load (strings pre ++ (e ++ 0 :: (strings ((d :: u) :: fs) ++ 0 :: junk)))
      (nxt + 1) = .ok d := by
    have harea : strings pre ++ (e ++ 0 :: (strings ((d :: u) :: fs) ++ 0 :: junk)) =
        strings pre ++ (e ++ [0]) ++ d :: (u ++ 0 :: (strings fs ++ 0 :: junk)) := by
      simp [strings]
    rw [harea]
    exact load_cut (by simp [hnxt, henv]; omega)
  have harea : strings pre ++ (e ++ 0 :: (strings ((d :: u) :: fs) ++ 0 :: junk)) =
      strings pre ++ (e ++ [0] ++ (T ++ 0 :: 0 :: junk)) := by
    rw [hT]
    simp
  obtain ⟨R, hR, hlen⟩ := shiftDown_cut (J := junk) (T := T) (P := strings pre)
    (G := e ++ [0]) (by simp) hdouble henv (by simp [hnxt, henv]; omega : nxt + 1 = _)
    (by rw [harea]; simp; omega : T.length < (strings pre ++ (e ++ 0 ::
      (strings ((d :: u) :: fs) ++ 0 :: junk))).length + 1)
  obtain ⟨x, R, rfl⟩ := List.exists_cons_of_length_pos (by omega : 0 < R.length)
  have hlast : store (strings pre ++ (T ++ 0 :: x :: R)) (env + T.length + 1) 0 =
      .ok (strings pre ++ (T ++ 0 :: 0 :: R)) := by
    have hcut := store_cut (P := strings pre ++ (T ++ [0])) (Q := R) (c := x) (x := 0)
      (i := env + T.length + 1) (by simp [henv]; omega)
    simpa using hcut
  refine ⟨strings pre ++ (T ++ 0 :: 0 :: R), ?_, ⟨hentry, R, ?_⟩, ?_⟩
  · rw [deleteEntry, hload, ok_bind, if_neg hd0]
    rw [harea] at hR ⊢
    rw [hR, ok_bind]
    exact hlast
  · rw [block_of_ne_nil (by simp), strings_append, hT]
    simp
  · have hTlen := congrArg List.length hT
    simp at hTlen hlen ⊢
    omega

/-- **Removing a string of the list** leaves the list without it, in an area of the
same length. -/
theorem deleteEntry_holds {r : Removal} {m e : Bytes} {pre post : List Bytes} {env nxt : Nat}
    (hm : Holds m (pre ++ e :: post)) (henv : env = (strings pre).length)
    (hnxt : nxt = env + e.length) :
    ∃ m', deleteEntry r m env nxt = .ok m' ∧ Holds m' (pre ++ post) ∧ m'.length = m.length := by
  have hentry : ∀ x ∈ pre ++ post, IsEntry x := by
    intro x hx
    apply hm.entry
    rcases List.mem_append.mp hx with h | h <;> simp [h]
  obtain ⟨junk, rfl⟩ := hm.cut
  cases post with
  | nil =>
    obtain ⟨c, t, rfl⟩ := List.exists_cons_of_ne_nil (hm.entry e (by simp)).1
    rw [List.append_nil] at hentry ⊢
    exact deleteEntry_last hentry henv hnxt
  | cons f fs => exact deleteEntry_middle hentry henv hnxt

/-! ## The new definition -/

theorem scanDoubleNul_cut {J : Bytes} : ∀ {T P : Bytes} {fuel env : Nat}, NoDouble (T ++ [0]) →
    env = P.length → T.length < fuel →
    scanDoubleNul (P ++ (T ++ 0 :: 0 :: J)) fuel env = .ok (env + T.length) := by
  intro T
  induction T with
  | nil =>
    intro P fuel env _ henv hf
    obtain ⟨fuel, rfl⟩ : ∃ k, fuel = k + 1 := ⟨fuel - 1, by simp at hf; omega⟩
    have hnext : load (P ++ 0 :: 0 :: J) (env + 1) = .ok 0 := by
      have hcut := load_cut (P := P ++ [0]) (Q := J) (c := 0) (i := env + 1) (by simp [henv])
      simpa using hcut
    rw [List.nil_append, scanDoubleNul, load_cut henv, ok_bind, if_pos rfl, hnext, ok_bind,
      if_pos rfl]
    rfl
  | cons c T ih =>
    intro P fuel env hT henv hf
    obtain ⟨fuel, rfl⟩ : ∃ k, fuel = k + 1 := ⟨fuel - 1, by omega⟩
    have hrec : scanDoubleNul (P ++ [c] ++ (T ++ 0 :: 0 :: J)) fuel (env + 1) =
        .ok (env + 1 + T.length) :=
      ih hT.tail (by simp [henv]) (by simp only [List.length_cons] at hf; omega)
    have hstep : scanDoubleNul (P ++ c :: (T ++ 0 :: 0 :: J)) fuel (env + 1) =
        .ok (env + (c :: T).length) := by
      simp only [List.append_assoc, List.singleton_append] at hrec
      rw [hrec]
      simp only [List.length_cons]
      congr 1
      omega
    rw [List.cons_append, scanDoubleNul, load_cut henv, ok_bind]
    by_cases hc : c = 0
    · subst hc
      obtain ⟨d, t, hd⟩ : ∃ d t, T ++ [0] = d :: t := List.exists_cons_of_ne_nil (by simp)
      have htail : T ++ 0 :: 0 :: J = d :: (t ++ 0 :: J) := by
        simpa using congrArg (· ++ 0 :: J) hd
      have hnext : load (P ++ 0 :: (T ++ 0 :: 0 :: J)) (env + 1) = .ok d := by
        have hcut := load_cut (P := P ++ [0]) (Q := t ++ 0 :: J) (c := d) (i := env + 1)
          (by simp [henv])
        rw [htail]
        simpa using hcut
      have hd0 : d ≠ 0 := by
        rw [List.cons_append, hd] at hT
        exact hT.next_ne
      rw [if_pos rfl, hnext, ok_bind, if_neg hd0, hstep]
    · rw [if_neg hc, hstep]

/-- The position for a new definition is the end of the strings, whether or not
there are any. -/
theorem scanDoubleNul_holds {m : Bytes} {es : List Bytes} (hm : Holds m es) :
    ∃ env, scanDoubleNul m (m.length + 1) 0 = .ok env ∧
      (if 0 < env then env + 1 else env) = (strings es).length := by
  obtain ⟨junk, rfl⟩ := hm.starts
  by_cases hes : es = []
  · subst hes
    refine ⟨0, ?_, rfl⟩
    have hcut : scanDoubleNul ([] ++ ([] ++ 0 :: 0 :: junk)) ((block [] ++ junk).length + 1) 0 =
        .ok (0 + [].length) :=
      scanDoubleNul_cut (.singleton 0) rfl (Nat.succ_pos _)
    simpa [block] using hcut
  · obtain ⟨T, hT⟩ := strings_eq_concat hes
    have hdouble : NoDouble (T ++ [0]) := hT ▸ noDouble_strings hm.entry
    have hTne : T ≠ [] := by
      rintro rfl
      obtain ⟨e, es, rfl⟩ := List.exists_cons_of_ne_nil hes
      obtain ⟨c, e, rfl⟩ := List.exists_cons_of_ne_nil (hm.entry e (by simp)).1
      simp [strings] at hT
    refine ⟨T.length, ?_, ?_⟩
    · have hcut : scanDoubleNul ([] ++ (T ++ 0 :: 0 :: junk)) ((block es ++ junk).length + 1) 0 =
          .ok (0 + T.length) :=
        scanDoubleNul_cut hdouble rfl
          (by rw [block_of_ne_nil hes, hT]; simp only [List.length_append]; omega)
      simpa [block, hes, hT] using hcut
    · rw [if_pos (List.length_pos_iff.mpr hTne), hT]
      simp

/-! ### The text of a definition -/

/-- The values with their separators in front. -/
def valuesText : UInt8 → List Bytes → Bytes
  | _, [] => []
  | sep, v :: vs => sep :: (v ++ valuesText 32 vs)

theorem valuesText_eq_cons (sep : UInt8) (v : Bytes) (vs : List Bytes) :
    valuesText sep (v :: vs) = sep :: [32].intercalate (v :: vs) := by
  induction vs generalizing sep v with
  | nil => simp [valuesText]
  | cons w vs ih =>
    rw [valuesText, ih]
    simp

theorem storeValues_cut {Q : Bytes} : ∀ {vs : List Bytes} {sep : UInt8} {P old : Bytes} {env : Nat},
    env = P.length → old.length = (valuesText sep vs).length →
    storeValues sep (P ++ 0 :: (old ++ Q)) env vs =
      .ok (P ++ (valuesText sep vs ++ 0 :: Q), env + (valuesText sep vs).length) := by
  intro vs
  induction vs with
  | nil =>
    intro sep P old env henv hold
    obtain rfl : old = [] := List.length_eq_zero_iff.mp (by simpa [valuesText] using hold)
    rfl
  | cons v vs ih =>
    intro sep P old env henv hold
    simp only [valuesText, List.length_cons, List.length_append] at hold
    obtain ⟨A, B, rfl, hA⟩ := exists_split (by omega : v.length + 1 ≤ old.length)
    have hstr : storeStr (P ++ sep :: (A ++ B ++ Q)) (env + 1) v =
        .ok (P ++ [sep] ++ (v ++ 0 :: (B ++ Q)), env + 1 + v.length) := by
      have hcut := storeStr_cut (Q := B ++ Q) (P := P ++ [sep]) (i := env + 1) (by simp [henv]) hA
      simpa using hcut
    have hrec : storeValues 32 (P ++ [sep] ++ v ++ 0 :: (B ++ Q)) (env + 1 + v.length) vs =
        .ok (P ++ [sep] ++ v ++ (valuesText 32 vs ++ 0 :: Q),
          env + 1 + v.length + (valuesText 32 vs).length) :=
      ih (by simp [henv]; omega) (by simp at hold; omega)
    rw [storeValues, store_cut henv, ok_bind, hstr, ok_bind]
    simp only [List.append_assoc] at hrec ⊢
    rw [hrec]
    simp only [valuesText, List.cons_append, List.append_assoc, List.length_cons,
      List.length_append]
    congr 2
    omega

/-- The length that the overflow check computes, as a number. -/
def defSize (name : Bytes) (values : List Bytes) : Nat :=
  name.length + (valuesText 61 values).length + 2

theorem addInt_of_lt {a : Int} {n : Nat} (h0 : 0 ≤ a) (h : a + n < 2 ^ 31) :
    addInt a n = a + n := by
  rw [addInt, Int.bmod_eq_of_le] <;> omega

theorem foldl_addInt : ∀ (vs : List Bytes) (sep : UInt8) {a : Int}, 0 ≤ a →
    a + (valuesText sep vs).length < 2 ^ 31 →
    vs.foldl (fun len v => addInt len (v.length + 1)) a = a + (valuesText sep vs).length := by
  intro vs
  induction vs with
  | nil =>
    intro sep a _ _
    simp [valuesText]
  | cons v vs ih =>
    intro sep a h0 h
    simp only [valuesText, List.length_cons, List.length_append] at h
    have hstep : addInt a (v.length + 1) = a + (v.length + 1 : Nat) :=
      addInt_of_lt h0 (by omega)
    rw [List.foldl_cons, hstep, ih 32 (by omega) (by omega)]
    simp only [valuesText, List.length_cons, List.length_append]
    omega

theorem defLen_eq {name : Bytes} {values : List Bytes} (h : defSize name values < 2 ^ 31) :
    defLen name values = defSize name values := by
  rw [defSize] at h ⊢
  rw [defLen, addInt_of_lt (by omega) (by omega), foldl_addInt values 61 (by omega) (by omega)]
  omega

/-- **Appending a definition.**  It goes behind the last string when the strings and
the new text with its double `\0` fit into the area, and only then. -/
theorem appendDef_holds {m name : Bytes} {values : List Bytes} {es : List Bytes}
    (hm : Holds m es) (hsize : defSize name values < 2 ^ 31)
    (hentry : IsEntry (name ++ valuesText 61 values)) :
    if (strings es).length + defSize name values ≤ m.length then
      ∃ m', appendDef m name values = .ok (some m') ∧
        Holds m' (es ++ [name ++ valuesText 61 values]) ∧ m'.length = m.length
    else appendDef m name values = .ok none := by
  obtain ⟨env, hscan, henv⟩ := scanDoubleNul_holds hm
  have hle := hm.length_le
  have hblock := length_block es
  have hpos : (strings es).length ≤ m.length := by split at hblock <;> omega
  split
  next hfit =>
    obtain ⟨Q, hQ⟩ := hm.exists_tail
    rw [defSize] at hfit
    obtain ⟨A, B, hAB, hA⟩ := exists_split (m := 0 :: Q) (n := name.length + 1)
      (by rw [hQ] at hfit; simp at hfit ⊢; omega)
    obtain ⟨C, D, rfl, hC⟩ := exists_split (m := B) (n := (valuesText 61 values).length)
      (by
        have := congrArg List.length hAB
        rw [hQ] at hfit
        simp at hfit this
        omega)
    obtain ⟨x, D, rfl⟩ : ∃ x t, D = x :: t := by
      refine List.exists_cons_of_length_pos ?_
      have := congrArg List.length hAB
      rw [hQ] at hfit
      simp at hfit this
      omega
    have hname : storeStr m (strings es).length name =
        .ok (strings es ++ (name ++ 0 :: (C ++ x :: D)), (strings es).length + name.length) := by
      rw [hQ, hAB]
      exact storeStr_cut rfl hA
    have hvalues : storeValues 61 (strings es ++ (name ++ 0 :: (C ++ x :: D)))
        ((strings es).length + name.length) values =
        .ok (strings es ++ name ++ (valuesText 61 values ++ 0 :: x :: D),
          (strings es).length + name.length + (valuesText 61 values).length) := by
      rw [← List.append_assoc]
      exact storeValues_cut (by simp) hC
    have hlast : store (strings es ++ name ++ (valuesText 61 values ++ 0 :: x :: D))
        ((strings es).length + name.length + (valuesText 61 values).length + 1) 0 =
        .ok (strings es ++ name ++ (valuesText 61 values ++ 0 :: 0 :: D)) := by
      have hcut := store_cut (P := strings es ++ name ++ (valuesText 61 values ++ [0])) (Q := D)
        (c := x) (x := 0)
        (i := (strings es).length + name.length + (valuesText 61 values).length + 1)
        (by simp; omega)
      simpa using hcut
    refine ⟨strings es ++ name ++ (valuesText 61 values ++ 0 :: 0 :: D), ?_, ⟨?_, D, ?_⟩, ?_⟩
    · simp only [appendDef, hscan, ok_bind, henv, defLen_eq hsize]
      rw [if_neg (by rw [defSize]; omega), hname, ok_bind]
      simp only [hvalues, hlast, ok_bind]
      rfl
    · intro e he
      rcases List.mem_append.mp he with h | h
      · exact hm.entry e h
      · rw [List.mem_singleton.mp h]
        exact hentry
    · rw [block_of_ne_nil (by simp)]
      simp [strings]
    · have h₁ := congrArg List.length hAB
      rw [hQ]
      simp at h₁ ⊢
      omega
  next hfit =>
    simp only [appendDef, hscan, ok_bind, henv, defLen_eq hsize]
    rw [if_pos (by omega)]
    rfl

/-! ## The size of the area

No loop changes the size of the area, whatever it holds. -/

theorem length_of_shiftDown : ∀ {fuel : Nat} {m m' : Bytes} {env nxt env' : Nat},
    shiftDown fuel m env nxt = .ok (m', env') → m'.length = m.length := by
  intro fuel
  induction fuel with
  | zero =>
    intro m m' env nxt env' h
    cases h
  | succ fuel ih =>
    intro m m' env nxt env' h
    obtain ⟨c, -, h⟩ := bind_eq_ok.mp h
    obtain ⟨m₁, h₁, h⟩ := bind_eq_ok.mp h
    rw [← length_of_store h₁]
    split at h
    · obtain ⟨d, -, h⟩ := bind_eq_ok.mp h
      split at h
      · cases h
        rfl
      · exact ih h
    · exact ih h

theorem length_of_deleteEntry {r : Removal} {m m' : Bytes} {env nxt : Nat}
    (h : deleteEntry r m env nxt = .ok m') : m'.length = m.length := by
  obtain ⟨c, -, h⟩ := bind_eq_ok.mp h
  split at h
  · split at h
    · exact length_of_store h
    · obtain ⟨m₁, h₁, h⟩ := bind_eq_ok.mp h
      rw [length_of_store h, length_of_store h₁]
  · obtain ⟨⟨m₁, env₁⟩, h₁, h⟩ := bind_eq_ok.mp h
    rw [length_of_store h, length_of_shiftDown h₁]

theorem length_of_storeValues : ∀ {vs : List Bytes} {sep : UInt8} {m m' : Bytes} {env env' : Nat},
    storeValues sep m env vs = .ok (m', env') → m'.length = m.length := by
  intro vs
  induction vs with
  | nil =>
    intro sep m m' env env' h
    cases h
    rfl
  | cons v vs ih =>
    intro sep m m' env env' h
    obtain ⟨m₁, h₁, h⟩ := bind_eq_ok.mp h
    obtain ⟨⟨m₂, env₂⟩, h₂, h⟩ := bind_eq_ok.mp h
    rw [ih h, length_of_storeStr h₂, length_of_store h₁]

theorem length_of_appendDef {m m' name : Bytes} {values : List Bytes}
    (h : appendDef m name values = .ok (some m')) : m'.length = m.length := by
  obtain ⟨env, -, h⟩ := bind_eq_ok.mp h
  generalize (if 0 < env then env + 1 else env) = start at h
  dsimp only at h
  split at h
  · cases h
  · obtain ⟨⟨m₁, env₁⟩, h₁, h⟩ := bind_eq_ok.mp h
    obtain ⟨⟨m₂, env₂⟩, h₂, h⟩ := bind_eq_ok.mp h
    obtain ⟨m₃, h₃, h⟩ := bind_eq_ok.mp h
    cases h
    rw [length_of_store h₃, length_of_storeValues h₂, length_of_storeStr h₁]

end UBoot.Common
