import Mathlib.Data.List.Induction
import UBoot.Lib.Ranges
import UBoot.LibGeneric.Lmb

/-!
# What the operations on a table do

A table *holds* the list of its first `cnt` slots.  `Added` lists the outcomes of
`lmb_add_region` on that list: the region is there already, an entry that it touches grows,
the grown entry is joined with the next one, the table is full, or the region is inserted.
`lmbAddRegion_added` says that these are all, for a table with an entry and as long as an
insertion at the front does not find the table out of order.
-/

namespace UBoot.LibGeneric

open UBoot.Lib

variable {w : Nat} {t : LmbRegion w} {es pre post : List (LmbProperty w)} {e r : LmbProperty w}

/-! ## The slots -/

/-- The first `cnt` slots. -/
def LmbRegion.Holds (t : LmbRegion w) (es : List (LmbProperty w)) : Prop :=
  t.cnt = es.length ∧ ∃ junk, t.region = es ++ junk

theorem LmbRegion.Holds.entries_eq (h : t.Holds es) : t.entries = es := by
  obtain ⟨hcnt, junk, hregion⟩ := h
  rw [LmbRegion.entries, hregion, hcnt, List.take_left]

theorem LmbRegion.Holds.length_le (h : t.Holds es) : es.length ≤ maxLmbRegions + 1 := by
  obtain ⟨-, junk, hregion⟩ := h
  rw [← t.length_region, hregion, List.length_append]
  exact Nat.le_add_right _ _

theorem slot_cut {P Q : List (LmbProperty w)} (h : t.region = P ++ e :: Q) :
    t.slot P.length = some e := by
  rw [LmbRegion.slot, h]
  simp

theorem put_cut {P Q : List (LmbProperty w)} (h : t.region = P ++ e :: Q) (r : LmbProperty w) :
    ∃ t', t.put P.length r = some t' ∧ t'.region = P ++ r :: Q ∧ t'.cnt = t.cnt := by
  have hlen : P.length ≤ maxLmbRegions := by
    have := t.length_region
    rw [h, List.length_append, List.length_cons] at this
    omega
  refine ⟨_, if_pos hlen, ?_, rfl⟩
  show t.region.set P.length r = _
  rw [h]
  simp

theorem LmbRegion.Holds.slot (h : t.Holds (pre ++ e :: post)) : t.slot pre.length = some e := by
  obtain ⟨-, junk, hregion⟩ := h
  rw [List.append_assoc, List.cons_append] at hregion
  exact slot_cut hregion

theorem LmbRegion.Holds.put (h : t.Holds (pre ++ e :: post)) (r : LmbProperty w) :
    ∃ t', t.put pre.length r = some t' ∧ t'.Holds (pre ++ r :: post) := by
  obtain ⟨hcnt, junk, hregion⟩ := h
  rw [List.append_assoc, List.cons_append] at hregion
  obtain ⟨t', hput, hregion', hcnt'⟩ := put_cut hregion r
  refine ⟨t', hput, ?_, junk, by rw [hregion', List.append_assoc, List.cons_append]⟩
  rw [hcnt', hcnt]
  simp

/-! ## Removal -/

theorem removeLoop_cut {J : List (LmbProperty w)} : ∀ {T P : List (LmbProperty w)}
    {y : LmbProperty w} {fuel : Nat} {t : LmbRegion w}, t.region = P ++ y :: (T ++ J) →
    t.cnt = P.length + 1 + T.length → T.length < fuel →
    ∃ t' z, removeLoop fuel t P.length = some t' ∧ t'.region = P ++ T ++ z :: J ∧
      t'.cnt = t.cnt := by
  intro T
  induction T with
  | nil =>
    intro P y fuel t hregion hcnt hfuel
    obtain ⟨fuel, rfl⟩ : ∃ k, fuel = k + 1 := ⟨fuel - 1, by omega⟩
    have hlast : ¬ t.BeforeLast P.length := by
      rw [LmbRegion.BeforeLast, hcnt]
      simp
    exact ⟨t, y, by rw [removeLoop, if_neg hlast], by simpa using hregion, rfl⟩
  | cons x T ih =>
    intro P y fuel t hregion hcnt hfuel
    obtain ⟨fuel, rfl⟩ : ∃ k, fuel = k + 1 := ⟨fuel - 1, by omega⟩
    rw [List.length_cons] at hcnt hfuel
    have hbefore : t.BeforeLast P.length := by
      rw [LmbRegion.BeforeLast, hcnt]
      omega
    have hslot : t.slot (P.length + 1) = some x := by
      rw [LmbRegion.slot, hregion]
      simp
    obtain ⟨t₁, hput, hregion₁, hcnt₁⟩ := put_cut hregion x
    have hregion₂ : t₁.region = (P ++ [x]) ++ x :: (T ++ J) := by simpa using hregion₁
    obtain ⟨t', z, hloop, hregion', hcnt'⟩ := ih hregion₂
      (by rw [hcnt₁, hcnt]; simp; omega) (show T.length < fuel by omega)
    rw [List.length_append, List.length_singleton] at hloop
    refine ⟨t', z, ?_, by simpa using hregion', hcnt'.trans hcnt₁⟩
    rw [removeLoop, if_pos hbefore, hslot]
    simp only [Option.bind_eq_bind, Option.bind_some, hput, hloop]

theorem lmbRemoveRegion_holds (h : t.Holds (pre ++ e :: post)) :
    ∃ t', lmbRemoveRegion t pre.length = some t' ∧ t'.Holds (pre ++ post) := by
  have hle := h.length_le
  obtain ⟨hcnt, junk, hregion⟩ := h
  rw [List.append_assoc, List.cons_append] at hregion
  simp only [List.length_append, List.length_cons] at hcnt hle
  obtain ⟨t', z, hloop, hregion', hcnt'⟩ := removeLoop_cut hregion (by omega)
    (show post.length < maxLmbRegions + 2 by omega)
  refine ⟨{ t' with cnt := t'.cnt - 1 }, ?_, ?_, z :: junk, hregion'⟩
  · rw [lmbRemoveRegion, hloop]
    rfl
  · show t'.cnt - 1 = (pre ++ post).length
    rw [hcnt', hcnt, List.length_append]
    omega

theorem put_cnt {t' : LmbRegion w} {i : Nat} (h : t.put i r = some t') : t'.cnt = t.cnt := by
  rw [LmbRegion.put] at h
  split at h
  · cases h
    rfl
  · cases h

/-- Without entries the loop runs out of the array. -/
theorem removeLoop_empty : ∀ {fuel : Nat} {t : LmbRegion w} {i : Nat}, t.cnt = 0 →
    removeLoop fuel t i = none := by
  intro fuel
  induction fuel with
  | zero =>
    intro t i _
    rfl
  | succ fuel ih =>
    intro t i hcnt
    rw [removeLoop, if_pos (.inl hcnt)]
    cases hslot : t.slot (i + 1) with
    | none => rfl
    | some x =>
      cases hput : t.put i x with
      | none => simp [hput]
      | some t' => simpa [hput] using ih ((put_cnt hput).trans hcnt)

/-! ## Insertion -/

/-- The loop stops behind the last entry whose base is not above the new one, or at the
front. -/
theorem insertLoop_cut (base size : BitVec w) : ∀ {A : List (LmbProperty w)}
    {h : LmbProperty w} {B : List (LmbProperty w)} {t : LmbRegion w}, t.region = A ++ h :: B →
    ∃ A₁ C t', A = A₁ ++ C ∧ (∀ x ∈ C, base < x.base) ∧
      insertLoop base size A.length t = some t' ∧ t'.cnt = t.cnt ∧
      (A₁ = [] ∧ (∃ h', t'.region = h' :: (C ++ B) ∧ (C ++ [h]).head? = some h') ∨
        ∃ x ∈ A₁.getLast?, ¬ base < x.base ∧ t'.region = A₁ ++ ⟨base, size⟩ :: (C ++ B)) := by
  intro A
  induction A using List.reverseRecOn with
  | nil =>
    intro h B t hregion
    exact ⟨[], [], t, rfl, by simp, rfl, rfl, .inl ⟨rfl, h, hregion, rfl⟩⟩
  | append_singleton A x ih =>
    intro h B t hregion
    have hslot : t.slot A.length = some x := by
      apply slot_cut (Q := h :: B)
      rw [hregion]
      simp
    rw [List.length_append, List.length_singleton, insertLoop, hslot]
    simp only [Option.bind_eq_bind, Option.bind_some]
    have hlen : (A ++ [x]).length = A.length + 1 := by simp
    by_cases hlt : base < x.base
    · obtain ⟨t₁, hput, hregion₁, hcnt₁⟩ := put_cut hregion x
      rw [hlen] at hput
      obtain ⟨A₁, C, t', rfl, hC, hloop, hcnt', hend⟩ := ih (h := x) (B := x :: B) (t := t₁)
        (by simpa using hregion₁)
      refine ⟨A₁, C ++ [x], t', by simp, ?_, ?_, hcnt'.trans hcnt₁, ?_⟩
      · intro y hy
        rcases List.mem_append.mp hy with hy | hy
        · exact hC y hy
        · rw [List.mem_singleton.mp hy]
          exact hlt
      · rw [if_pos hlt, hput]
        exact hloop
      · rcases hend with ⟨hA₁, h', hregion', hhead⟩ | ⟨y, hy, hle, hregion'⟩
        · refine .inl ⟨hA₁, h', by simpa using hregion', ?_⟩
          cases C <;> simpa using hhead
        · exact .inr ⟨y, hy, hle, by simpa using hregion'⟩
    · obtain ⟨t₁, hput, hregion₁, hcnt₁⟩ := put_cut hregion ⟨base, size⟩
      rw [hlen] at hput
      exact ⟨A ++ [x], [], t₁, by simp, by simp, by rw [if_neg hlt]; exact hput, hcnt₁,
        .inr ⟨x, by simp, hlt, by simpa using hregion₁⟩⟩

/-- An insertion into a table that is in order as far as the front is concerned: where the
new base is below that of the first entry, it is below all of them. -/
theorem insertRegion_holds (h : t.Holds es) (hne : es ≠ []) (hlen : es.length ≤ maxLmbRegions)
    (hfront : ∀ f ∈ es.head?, r.base < f.base → ∀ x ∈ es, r.base < x.base) :
    ∃ A B t', es = A ++ B ∧ (∀ x ∈ B, r.base < x.base) ∧ (∀ x ∈ A.getLast?, ¬ r.base < x.base) ∧
      insertRegion t r.base r.size = some t' ∧ t'.Holds (A ++ r :: B) := by
  obtain ⟨hcnt, junk, hregion⟩ := h
  obtain ⟨y, junk, rfl⟩ : ∃ y js, junk = y :: js := by
    cases junk with
    | nil =>
      have := t.length_region
      rw [hregion, List.append_nil] at this
      omega
    | cons y js => exact ⟨y, js, rfl⟩
  obtain ⟨A, B, t₁, rfl, hB, hloop, hcnt₁, hend⟩ := insertLoop_cut r.base r.size hregion
  rw [← hcnt] at hloop
  rw [insertRegion, hloop]
  simp only [Option.bind_eq_bind, Option.bind_some]
  rcases hend with ⟨rfl, h', hregion₁, hhead⟩ | ⟨x, hx, hle, hregion₁⟩
  · -- every entry has moved, and the new one goes to the front
    rw [List.nil_append] at hne hcnt
    obtain ⟨b, B, rfl⟩ := List.exists_cons_of_ne_nil hne
    obtain rfl : b = h' := by simpa using hhead
    have hcut : t₁.region = [] ++ b :: (b :: B ++ junk) := hregion₁
    obtain ⟨t', hput, hregion', hcnt'⟩ := put_cut hcut r
    refine ⟨[], b :: B, { t' with cnt := t'.cnt + 1 }, rfl, hB, nofun, ?_, ?_, junk, hregion'⟩
    · have hslot : t₁.slot 0 = some b := slot_cut hcut
      rw [hslot]
      simp only [Option.bind_some]
      rw [if_pos (hB b (by simp))]
      rw [List.length_nil] at hput
      simp only [hput, Option.bind_some]
      rfl
    · show t'.cnt + 1 = _
      rw [hcnt', hcnt₁, hcnt]
      simp
  · have hmem : x ∈ A := List.mem_of_mem_getLast? hx
    obtain ⟨a, A, rfl⟩ := List.exists_cons_of_ne_nil (List.ne_nil_of_mem hmem)
    have hcut : t₁.region = [] ++ a :: (A ++ ⟨r.base, r.size⟩ :: (B ++ junk)) := hregion₁
    have hfirst : ¬ r.base < a.base := fun hlt =>
      hle (hfront a (by simp) hlt x (List.mem_append_left _ hmem))
    refine ⟨a :: A, B, { t₁ with cnt := t₁.cnt + 1 }, rfl, hB, ?_, ?_, ?_, junk, ?_⟩
    · intro y hy
      rwa [Option.mem_unique hy hx]
    · have hslot : t₁.slot 0 = some a := slot_cut hcut
      rw [hslot]
      simp only [Option.bind_some]
      rw [if_neg hfirst]
      rfl
    · show t₁.cnt + 1 = _
      rw [hcnt₁, hcnt]
      simp only [List.length_append, List.length_cons]
      omega
    · show t₁.region = _
      rw [hregion₁, List.append_assoc]
      rfl

/-! ## `lmb_add_region` -/

/-- `lmb_addrs_adjacent`, for two regions. -/
def adjacency (x y : LmbProperty w) : Int := lmbAddrsAdjacent x.base x.size y.base y.size

/-- The entry `e` with the region `r` that it touches. -/
def grow (r e : LmbProperty w) : LmbProperty w :=
  if adjacency r e > 0 then ⟨e.base - r.size, e.size + r.size⟩ else ⟨e.base, e.size + r.size⟩

/-- The entry `x` with the next one. -/
def join (x y : LmbProperty w) : LmbProperty w := ⟨x.base, x.size + y.size⟩

/-- Where the region has to be inserted and goes to the front, it is below every entry. -/
def FrontOk (r : LmbProperty w) (es : List (LmbProperty w)) : Prop :=
  (∀ x ∈ es, stopsAt r.base r.size x = false) →
    ∀ f ∈ es.head?, r.base < f.base → ∀ x ∈ es, r.base < x.base

/-- The outcomes of `lmb_add_region` for the region `r`: the entries before, the return
value, and the entries after. -/
inductive Added (r : LmbProperty w) :
    List (LmbProperty w) → Int → List (LmbProperty w) → Prop
  | already {es : List (LmbProperty w)} (mem : r ∈ es) : Added r es 0 es
  | grown {pre post : List (LmbProperty w)} {e : LmbProperty w}
      (first : ∀ x ∈ pre, stopsAt r.base r.size x = false) (touches : adjacency r e ≠ 0)
      (next : ∀ y ∈ post.head?, adjacency (grow r e) y = 0) :
      Added r (pre ++ e :: post) 1 (pre ++ grow r e :: post)
  | joined {pre post : List (LmbProperty w)} {e y : LmbProperty w}
      (first : ∀ x ∈ pre, stopsAt r.base r.size x = false) (touches : adjacency r e ≠ 0)
      (next : adjacency (grow r e) y ≠ 0) :
      Added r (pre ++ e :: y :: post) 2 (pre ++ join (grow r e) y :: post)
  | full {es : List (LmbProperty w)} (apart : ∀ x ∈ es, stopsAt r.base r.size x = false)
      (length : maxLmbRegions ≤ es.length) : Added r es (-1) es
  | inserted {A B : List (LmbProperty w)}
      (apart : ∀ x ∈ A ++ B, stopsAt r.base r.size x = false)
      (length : (A ++ B).length < maxLmbRegions)
      (above : ∀ x ∈ B, r.base < x.base) (below : ∀ x ∈ A.getLast?, ¬ r.base < x.base) :
      Added r (A ++ B) 0 (A ++ r :: B)

theorem findIdx?_eq_some {α : Type} {p : α → Bool} : ∀ {l : List α} {i : Nat},
    l.findIdx? p = some i → ∃ A a B, l = A ++ a :: B ∧ i = A.length ∧ p a = true ∧
      ∀ x ∈ A, p x = false := by
  intro l
  induction l with
  | nil =>
    intro i h
    cases h
  | cons a l ih =>
    intro i h
    rw [List.findIdx?_cons] at h
    by_cases ha : p a = true
    · rw [if_pos ha] at h
      cases h
      exact ⟨[], a, l, rfl, rfl, ha, by simp⟩
    · rw [if_neg ha] at h
      obtain ⟨j, hj, rfl⟩ := Option.map_eq_some_iff.mp h
      obtain ⟨A, b, B, rfl, rfl, hb, hA⟩ := ih hj
      refine ⟨a :: A, b, B, rfl, rfl, hb, fun x hx => ?_⟩
      rcases List.mem_cons.mp hx with rfl | hx
      · simpa using ha
      · exact hA x hx

theorem LmbRegion.Holds.beforeLast_iff (h : t.Holds (pre ++ e :: post)) :
    t.BeforeLast pre.length ↔ post ≠ [] := by
  rw [LmbRegion.BeforeLast, h.1, List.length_append, List.length_cons, ← List.length_pos_iff]
  omega

/-- Behind an entry that has grown. -/
theorem finishAdd_grown {x : LmbProperty w} (h : t.Holds (pre ++ x :: post)) :
    (finishAdd t r.base r.size pre.length 1 = some (1, t) ∧ ∀ y ∈ post.head?, adjacency x y = 0) ∨
      ∃ y post' t', post = y :: post' ∧ adjacency x y ≠ 0 ∧
        finishAdd t r.base r.size pre.length 1 = some (2, t') ∧
        t'.Holds (pre ++ join x y :: post') := by
  cases post with
  | nil =>
    have hlast : ¬ t.BeforeLast pre.length := by
      rw [h.beforeLast_iff]
      simp
    refine .inl ⟨?_, nofun⟩
    rw [finishAdd, touchesNext, if_neg hlast]
    rfl
  | cons y post =>
    have hbefore : t.BeforeLast pre.length := by
      rw [h.beforeLast_iff]
      simp
    have hslot := h.slot
    have hnext : t.slot (pre.length + 1) = some y := by
      have h' : t.Holds ((pre ++ [x]) ++ y :: post) := by simpa using h
      simpa using h'.slot
    have htouches : touchesNext t pre.length = some (adjacency x y != 0) := by
      rw [touchesNext, if_pos hbefore, lmbRegionsAdjacent, hslot, hnext]
      rfl
    rw [finishAdd, htouches]
    by_cases hadj : adjacency x y = 0
    · refine .inl ⟨by simp [hadj], ?_⟩
      intro z hz
      rw [Option.mem_some.mp hz] at hadj
      exact hadj
    · refine .inr ⟨y, post, ?_⟩
      obtain ⟨t₁, hput, hholds₁⟩ := h.put (join x y)
      have hholds₂ : t₁.Holds ((pre ++ [join x y]) ++ y :: post) := by simpa using hholds₁
      obtain ⟨t', hremove, hholds'⟩ := lmbRemoveRegion_holds hholds₂
      rw [List.length_append, List.length_singleton] at hremove
      have hcoalesce : lmbCoalesceRegions t pre.length (pre.length + 1) = some t' := by
        rw [lmbCoalesceRegions, hslot, hnext]
        show t.put pre.length (join x y) >>= _ = _
        rw [hput]
        exact hremove
      refine ⟨t', rfl, hadj, ?_, by simpa using hholds'⟩
      simp [hadj, hcoalesce]

theorem stopsAt_of_not_adjacent (h : stopsAt r.base r.size e = true) (hne : e ≠ r) :
    adjacency r e ≠ 0 := by
  rw [stopsAt, Bool.or_eq_true, Bool.and_eq_true] at h
  rcases h with ⟨hbase, hsize⟩ | h
  · exact absurd (by cases e; cases r; simp_all) hne
  · exact bne_iff_ne.mp h

/-- `lmb_add_region` in a table that is not the dummy, where no entry ends its first loop. -/
theorem lmbAddRegion_of_none (hslot : t.slot 0 = some e) (hdummy : ¬ (t.cnt = 1 ∧ e.size = 0))
    (hfind : t.entries.findIdx? (stopsAt r.base r.size) = none) :
    lmbAddRegion t r.base r.size = finishAdd t r.base r.size t.cnt 0 := by
  rw [lmbAddRegion, hslot]
  simp only [Option.bind_eq_bind, Option.bind_some]
  rw [if_neg hdummy, hfind]

/-- The same, where the first loop ends at an entry. -/
theorem lmbAddRegion_of_some {i : Nat} {x : LmbProperty w} (hslot : t.slot 0 = some e)
    (hdummy : ¬ (t.cnt = 1 ∧ e.size = 0))
    (hfind : t.entries.findIdx? (stopsAt r.base r.size) = some i) (hi : t.slot i = some x) :
    lmbAddRegion t r.base r.size =
      if x = r then some (0, t)
      else (t.put i (grow r x)).bind fun t => finishAdd t r.base r.size i 1 := by
  have hsame : (x.base = r.base ∧ x.size = r.size) ↔ x = r := by
    cases x
    cases r
    simp
  rw [lmbAddRegion, hslot]
  simp only [Option.bind_eq_bind, Option.bind_some]
  rw [if_neg hdummy, hfind]
  simp only [hi, Option.bind_some, hsame]
  by_cases hx : x = r
  · rw [if_pos hx, if_pos hx]
    rfl
  · rw [if_neg hx, if_neg hx, grow, adjacency]
    split <;> rfl

theorem lmbAddRegion_added (h : t.Holds es) (hne : es ≠ []) (hsize : ∀ x ∈ es, x.size ≠ 0)
    (hfront : FrontOk r es) :
    ∃ rc t' es', lmbAddRegion t r.base r.size = some (rc, t') ∧ t'.Holds es' ∧
      Added r es rc es' := by
  obtain ⟨f, fs, hes⟩ := List.exists_cons_of_ne_nil hne
  have hslot : t.slot 0 = some f := by
    have h' : t.Holds ([] ++ f :: fs) := by rwa [hes] at h
    exact h'.slot
  have hdummy : ¬ (t.cnt = 1 ∧ f.size = 0) := fun hd => hsize f (by simp [hes]) hd.2
  cases hfind : t.entries.findIdx? (stopsAt r.base r.size) with
  | none =>
    rw [lmbAddRegion_of_none hslot hdummy hfind]
    have hapart : ∀ x ∈ es, stopsAt r.base r.size x = false := by
      simpa [List.findIdx?_eq_none_iff, h.entries_eq] using hfind
    have hlast : ¬ t.BeforeLast t.cnt := by
      have : t.cnt ≠ 0 := by
        rw [h.1, hes]
        simp
      rw [LmbRegion.BeforeLast]
      omega
    rw [finishAdd, touchesNext, if_neg hlast]
    simp only [Option.bind_eq_bind, Option.bind_some, Bool.false_eq_true, if_false, ne_eq,
      not_true_eq_false]
    by_cases hfull : t.cnt ≥ maxLmbRegions
    · exact ⟨-1, t, es, if_pos hfull, h, .full hapart (h.1 ▸ hfull)⟩
    · have hlt : es.length < maxLmbRegions := by
        rw [← h.1]
        omega
      obtain ⟨A, B, t', rfl, habove, hbelow, hinsert, hholds⟩ :=
        insertRegion_holds h hne hlt.le (hfront hapart)
      refine ⟨0, t', A ++ r :: B, ?_, hholds, .inserted hapart hlt habove hbelow⟩
      rw [if_neg hfull, hinsert]
      rfl
  | some i =>
    have hfind' := hfind
    rw [h.entries_eq] at hfind'
    obtain ⟨pre, e, post, rfl, rfl, hstop, hfirst⟩ := findIdx?_eq_some hfind'
    rw [lmbAddRegion_of_some hslot hdummy hfind h.slot]
    by_cases hsame : e = r
    · subst hsame
      exact ⟨0, t, _, if_pos rfl, h, .already (by simp)⟩
    · have htouches := stopsAt_of_not_adjacent hstop hsame
      obtain ⟨t₁, hput, hholds₁⟩ := h.put (grow r e)
      rw [if_neg hsame, hput, Option.bind_some]
      rcases finishAdd_grown (r := r) hholds₁ with
        ⟨hfin, hnext⟩ | ⟨y, post', t', rfl, hnext, hfin, hholds'⟩
      · exact ⟨1, t₁, _, hfin, hholds₁, .grown hfirst htouches hnext⟩
      · exact ⟨2, t', _, hfin, hholds', .joined hfirst htouches hnext⟩

theorem lmbAddRegion_dummy {base : BitVec w} (h : t.Holds [⟨base, 0⟩]) (r : LmbProperty w) :
    ∃ t', lmbAddRegion t r.base r.size = some (0, t') ∧ t'.Holds [r] := by
  have h' : t.Holds ([] ++ ⟨base, 0⟩ :: []) := h
  obtain ⟨t', hput, hholds⟩ := h'.put r
  refine ⟨t', ?_, hholds⟩
  have hslot : t.slot 0 = some ⟨base, 0⟩ := h'.slot
  rw [lmbAddRegion, hslot]
  simp only [Option.bind_eq_bind, Option.bind_some]
  rw [if_pos ⟨h.1, trivial⟩]
  show (t.put ([] : List (LmbProperty w)).length r >>= _) = _
  rw [hput]
  rfl

/-- In a table without entries the first slot decides: what is there stays, unless the new
region is below it. -/
theorem lmbAddRegion_empty {t' : LmbRegion w} {rc : Int} (h : t.Holds [])
    (hadd : lmbAddRegion t r.base r.size = some (rc, t'))
    (hstale : ∀ x ∈ t.slot 0, r.base < x.base ∨ x = r) : rc = 0 ∧ t'.Holds [r] := by
  obtain ⟨hcnt, junk, hregion⟩ := h
  rw [List.length_nil] at hcnt
  obtain ⟨x, y, junk, rfl⟩ : ∃ x y js, junk = x :: y :: js := by
    have hlen := t.length_region
    rw [hregion] at hlen
    match junk, hlen with
    | x :: y :: js, _ => exact ⟨x, y, js, rfl⟩
  have hslot : t.slot 0 = some x := slot_cut (P := []) hregion
  have hnext : t.slot 1 = some y := slot_cut (P := [x]) hregion
  have hnone : t.entries.findIdx? (stopsAt r.base r.size) = none := by
    rw [LmbRegion.entries, hcnt]
    rfl
  have hbefore : t.BeforeLast 0 := .inl hcnt
  have htouches : touchesNext t 0 = some (adjacency x y != 0) := by
    rw [touchesNext, if_pos hbefore, lmbRegionsAdjacent, hslot, hnext]
    rfl
  rw [lmbAddRegion_of_none hslot (by omega) hnone, hcnt, finishAdd, htouches] at hadd
  simp only [Option.bind_eq_bind, Option.bind_some] at hadd
  split at hadd
  · -- the slots 0 and 1 touch, and the removal of the second never ends
    have hrun : lmbCoalesceRegions t 0 1 = none := by
      obtain ⟨t₁, hput, -, hcnt₁⟩ := put_cut (P := []) hregion (join x y)
      rw [List.length_nil] at hput
      rw [lmbCoalesceRegions, hslot, hnext]
      show (t.put 0 (join x y)).bind (lmbRemoveRegion · 1) = none
      rw [hput, Option.bind_some]
      rw [lmbRemoveRegion, removeLoop_empty (hcnt₁.trans hcnt)]
      rfl
    simp [hrun] at hadd
  · have hroom : ¬ maxLmbRegions ≤ 0 := by decide
    simp only [ne_eq, not_true_eq_false, if_false, hcnt, ge_iff_le, if_neg hroom, insertRegion,
      insertLoop, Option.bind_eq_bind, Option.bind_some, hslot] at hadd
    split at hadd
    · obtain ⟨t₁, hput, hregion₁, hcnt₁⟩ := put_cut (P := []) hregion r
      rw [List.length_nil] at hput
      rw [hput] at hadd
      cases hadd
      refine ⟨rfl, ?_, y :: junk, hregion₁⟩
      show t₁.cnt + 1 = 1
      rw [hcnt₁, hcnt]
    · have hx : x = r := (hstale x hslot).resolve_left ‹_›
      cases hadd
      refine ⟨rfl, rfl, y :: junk, ?_⟩
      show t.region = _
      rw [hregion, hx]
      rfl

/-! ## `lmb_free` -/

/-- The test of `lmb_free`. -/
def LmbProperty.Contains (e f : LmbProperty w) : Prop :=
  e.base ≤ f.base ∧ f.base + f.size ≤ e.base + e.size

instance (e f : LmbProperty w) : Decidable (e.Contains f) := inferInstanceAs (Decidable (_ ∧ _))

/-- What is left of the entry `e` in front of the hole `f`. -/
def front (e f : LmbProperty w) : LmbProperty w := ⟨e.base, f.base - e.base⟩

/-- The region behind the hole. -/
def tail (e f : LmbProperty w) : LmbProperty w :=
  ⟨f.base + f.size, e.base + e.size - (f.base + f.size)⟩

/-- What `lmb_free` does with the entry `e` that contains the range `f`. -/
inductive Cut (f e : LmbProperty w) (pre post : List (LmbProperty w)) :
    Int → List (LmbProperty w) → Prop
  | whole (same : e = f) : Cut f e pre post 0 (pre ++ post)
  | first (base : e.base = f.base) (stop : e.base + e.size ≠ f.base + f.size) :
      Cut f e pre post 0 (pre ++ ⟨f.base + f.size, e.size - f.size⟩ :: post)
  | last (base : e.base ≠ f.base) (stop : e.base + e.size = f.base + f.size) :
      Cut f e pre post 0 (pre ++ ⟨e.base, e.size - f.size⟩ :: post)
  | split {es' : List (LmbProperty w)} {rc : Int} (base : e.base ≠ f.base)
      (stop : e.base + e.size ≠ f.base + f.size)
      (added : Added (tail e f) (pre ++ front e f :: post) rc es') : Cut f e pre post rc es'

/-- The outcomes of `lmb_free` for the range `f`. -/
inductive Freed (f : LmbProperty w) :
    List (LmbProperty w) → Int → List (LmbProperty w) → Prop
  | missing {es : List (LmbProperty w)} (none : ∀ x ∈ es, ¬ x.Contains f) : Freed f es (-1) es
  | found {pre post es' : List (LmbProperty w)} {e : LmbProperty w} {rc : Int}
      (first : ∀ x ∈ pre, ¬ x.Contains f) (contains : e.Contains f)
      (cut : Cut f e pre post rc es') : Freed f (pre ++ e :: post) rc es'

theorem lmbFreeRegion_missing {f : LmbProperty w} (h : t.Holds es)
    (hnone : ∀ x ∈ es, ¬ x.Contains f) : lmbFreeRegion t f.base f.size = some (-1, t) := by
  have hfind : es.findIdx? (fun x =>
      decide (x.base ≤ f.base ∧ f.base + f.size ≤ x.base + x.size)) = none := by
    rw [List.findIdx?_eq_none_iff]
    intro x hx
    exact decide_eq_false (hnone x hx)
  rw [lmbFreeRegion, h.entries_eq]
  simp only [hfind]
  rfl

/-- The search on the entries. -/
theorem lmbFreeRegion_search {f : LmbProperty w} (h : t.Holds es) :
    lmbFreeRegion t f.base f.size =
      match es.findIdx? fun x => decide (x.Contains f) with
      | none => some (-1, t)
      | some i => (t.slot i).bind fun e =>
        if e.base = f.base ∧ e.base + e.size = f.base + f.size then
          (lmbRemoveRegion t i).bind fun t => some (0, t)
        else if e.base = f.base then
          (t.put i ⟨f.base + f.size, e.size - f.size⟩).bind fun t => some (0, t)
        else if e.base + e.size = f.base + f.size then
          (t.put i ⟨e.base, e.size - f.size⟩).bind fun t => some (0, t)
        else (t.put i (front e f)).bind fun t =>
          lmbAddRegion t (tail e f).base (tail e f).size := by
  rw [← h.entries_eq]
  rfl

theorem lmbFreeRegion_freed {f : LmbProperty w} (h : t.Holds es) (hsize : ∀ x ∈ es, x.size ≠ 0)
    (hsplit : ∀ pre e post, es = pre ++ e :: post → (∀ x ∈ pre, ¬ x.Contains f) → e.Contains f →
      e.base ≠ f.base → e.base + e.size ≠ f.base + f.size →
      FrontOk (tail e f) (pre ++ front e f :: post)) :
    ∃ rc t' es', lmbFreeRegion t f.base f.size = some (rc, t') ∧ t'.Holds es' ∧
      Freed f es rc es' := by
  by_cases hnone : ∀ x ∈ es, ¬ x.Contains f
  · exact ⟨-1, t, es, lmbFreeRegion_missing h hnone, h, .missing hnone⟩
  rw [lmbFreeRegion_search h]
  cases hfind : es.findIdx? fun x => decide (x.Contains f) with
  | none => exact absurd (by simpa [List.findIdx?_eq_none_iff] using hfind) hnone
  | some i =>
    obtain ⟨pre, e, post, rfl, rfl, hcontains, hfirst⟩ := findIdx?_eq_some hfind
    simp only [decide_eq_true_eq, decide_eq_false_iff_not] at hcontains hfirst
    simp only [h.slot, Option.bind_some]
    by_cases hbase : e.base = f.base
    · by_cases hstop : e.base + e.size = f.base + f.size
      · obtain ⟨t', hremove, hholds⟩ := lmbRemoveRegion_holds h
        have hsame : e = f := by
          rw [hbase] at hstop
          cases e
          cases f
          simp_all
        refine ⟨0, t', _, ?_, hholds, .found hfirst hcontains (.whole hsame)⟩
        rw [if_pos ⟨hbase, hstop⟩, hremove]
        rfl
      · obtain ⟨t', hput, hholds⟩ := h.put ⟨f.base + f.size, e.size - f.size⟩
        refine ⟨0, t', _, ?_, hholds, .found hfirst hcontains (.first hbase hstop)⟩
        rw [if_neg fun hboth => hstop hboth.2, if_pos hbase, hput]
        rfl
    · rw [if_neg fun hboth => hbase hboth.1, if_neg hbase]
      by_cases hstop : e.base + e.size = f.base + f.size
      · obtain ⟨t', hput, hholds⟩ := h.put ⟨e.base, e.size - f.size⟩
        refine ⟨0, t', _, ?_, hholds, .found hfirst hcontains (.last hbase hstop)⟩
        rw [if_pos hstop, hput]
        rfl
      · obtain ⟨t₁, hput, hholds₁⟩ := h.put (front e f)
        have hsize₁ : ∀ x ∈ pre ++ front e f :: post, x.size ≠ 0 := by
          intro x hx
          rcases List.mem_append.mp hx with hx | hx
          · exact hsize x (by simp [hx])
          · rcases List.mem_cons.mp hx with rfl | hx
            · show f.base - e.base ≠ 0
              exact fun hzero => hbase (BitVec.sub_eq_iff_eq_add.mp hzero ▸ by simp)
            · exact hsize x (by simp [hx])
        obtain ⟨rc, t', es', hadd, hholds, hadded⟩ := lmbAddRegion_added hholds₁ (by simp) hsize₁
          (hsplit pre e post rfl hfirst hcontains hbase hstop)
        refine ⟨rc, t', es', ?_, hholds, .found hfirst hcontains (.split hbase hstop hadded)⟩
        rw [if_neg hstop, hput]
        exact hadd

end UBoot.LibGeneric
