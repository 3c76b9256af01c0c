import Mathlib.Order.Interval.Set.Disjoint
import Mathlib.Order.Interval.Set.LinearOrder
import UBoot.LibGeneric.LmbSpec

/-!
# The addresses of a table

A region stands for the addresses from `lo` to `hi`.  `Added` puts the addresses of the
region to those of the table, as long as no entry is joined with one that ends where it
begins (`JoinOk`), and `Freed` takes the range from them, as long as no other entry has
addresses in it.  In a gapped table both conditions hold of a region that is apart from the
entries, and the table stays gapped.
-/

namespace UBoot.LibGeneric

open UBoot.Lib

variable {w : Nat} {es es' pre post : List (LmbProperty w)} {e r f x y : LmbProperty w} {rc : Int}

namespace LmbProperty

def lo (r : LmbProperty w) : Nat := r.base.toNat

def hi (r : LmbProperty w) : Nat := r.base.toNat + r.size.toNat

/-- The addresses of a region. -/
def addresses (r : LmbProperty w) : Set Nat := Set.Ico r.lo r.hi

/-- A region with addresses that does not wrap. -/
def Proper (r : LmbProperty w) : Prop := r.lo < r.hi ∧ r.hi < 2 ^ w

theorem base_lt_iff : x.base < y.base ↔ x.lo < y.lo := Iff.rfl

theorem toNat_stop (h : r.hi < 2 ^ w) : (r.base + r.size).toNat = r.hi := by
  rw [BitVec.toNat_add]
  exact Nat.mod_eq_of_lt h

theorem lo_le_hi (r : LmbProperty w) : r.lo ≤ r.hi := Nat.le_add_right _ _

theorem Proper.size_ne (h : r.Proper) : r.size ≠ 0 := by
  intro hzero
  have := h.1
  rw [hi, lo, hzero] at this
  simp at this

end LmbProperty

open LmbProperty

/-- The addresses of the entries. -/
def addressesOf (es : List (LmbProperty w)) : Set Nat := covered lo hi es

/-! ## Growing and joining -/

theorem base_eq_stop_iff (hx : x.hi < 2 ^ w) : y.base = x.base + x.size ↔ y.lo = x.hi := by
  rw [← BitVec.toNat_inj, toNat_stop hx]
  rfl

theorem adjacency_eq (hx : x.hi < 2 ^ w) (hy : y.hi < 2 ^ w) :
    adjacency x y = if y.lo = x.hi then 1 else if x.lo = y.hi then -1 else 0 := by
  simp only [adjacency, lmbAddrsAdjacent, base_eq_stop_iff hx, base_eq_stop_iff hy]

theorem adjacency_eq_zero_iff (hx : x.hi < 2 ^ w) (hy : y.hi < 2 ^ w) :
    adjacency x y = 0 ↔ y.lo ≠ x.hi ∧ x.lo ≠ y.hi := by
  rw [adjacency_eq hx hy]
  split
  · simp [*]
  · split <;> simp [*]

theorem stopsAt_eq_false (hx : x.hi < 2 ^ w) (hr : r.hi < 2 ^ w)
    (h : stopsAt r.base r.size x = false) : x.lo ≠ r.hi ∧ r.lo ≠ x.hi := by
  rw [stopsAt, Bool.or_eq_false_iff] at h
  exact (adjacency_eq_zero_iff hr hx).mp (by simpa [adjacency] using h.2)

/-- The entry grows downwards or upwards. -/
theorem grow_cases (hr : r.Proper) (he : e.Proper) (h : adjacency r e ≠ 0) :
    e.lo = r.hi ∧ (grow r e).lo = r.lo ∧ (grow r e).hi = e.hi ∨
      r.lo = e.hi ∧ (grow r e).lo = e.lo ∧ (grow r e).hi = r.hi := by
  obtain ⟨hrlo, hrhi⟩ := hr
  obtain ⟨helo, hehi⟩ := he
  rw [grow]
  rw [adjacency_eq hrhi hehi] at h ⊢
  by_cases hdown : e.lo = r.hi
  · refine .inl ⟨hdown, ?_⟩
    rw [if_pos hdown, if_pos (by decide)]
    simp only [lo, hi, BitVec.toNat_sub, BitVec.toNat_add] at *
    have hbase : (2 ^ w - r.size.toNat + e.base.toNat) % 2 ^ w = r.base.toNat := by
      have : 2 ^ w - r.size.toNat + e.base.toNat = r.base.toNat + 2 ^ w := by omega
      rw [this, Nat.add_mod_right]
      exact Nat.mod_eq_of_lt (by omega)
    rw [hbase, Nat.mod_eq_of_lt (by omega)]
    omega
  · rw [if_neg hdown] at h ⊢
    by_cases hup : r.lo = e.hi
    · refine .inr ⟨hup, ?_⟩
      rw [if_pos hup, if_neg (by decide)]
      simp only [lo, hi, BitVec.toNat_add] at *
      rw [Nat.mod_eq_of_lt (by omega), true_and]
      omega
    · rw [if_neg hup] at h
      exact absurd rfl h

theorem join_spec (hy : y.hi < 2 ^ w) (h : y.lo = x.hi) :
    (join x y).lo = x.lo ∧ (join x y).hi = y.hi := by
  refine ⟨rfl, ?_⟩
  simp only [join, lo, hi, BitVec.toNat_add] at *
  rw [Nat.mod_eq_of_lt (by omega)]
  omega

theorem grow_proper (hr : r.Proper) (he : e.Proper) (h : adjacency r e ≠ 0) :
    (grow r e).Proper := by
  rcases grow_cases hr he h with ⟨htouch, hlo, hhi⟩ | ⟨htouch, hlo, hhi⟩
  all_goals
    obtain ⟨hrlo, hrhi⟩ := hr
    obtain ⟨helo, hehi⟩ := he
    rw [Proper, hlo, hhi]
    omega

theorem grow_addresses (hr : r.Proper) (he : e.Proper) (h : adjacency r e ≠ 0) :
    (grow r e).addresses = e.addresses ∪ r.addresses := by
  rcases grow_cases hr he h with ⟨htouch, hlo, hhi⟩ | ⟨htouch, hlo, hhi⟩
  · rw [addresses, addresses, addresses, hlo, hhi, htouch, Set.union_comm]
    exact (Set.Ico_union_Ico_eq_Ico hr.1.le (htouch ▸ he.1.le)).symm
  · rw [addresses, addresses, addresses, hlo, hhi, htouch]
    exact (Set.Ico_union_Ico_eq_Ico he.1.le (htouch ▸ hr.1.le)).symm

theorem join_proper (hx : x.Proper) (hy : y.Proper) (h : y.lo = x.hi) : (join x y).Proper := by
  obtain ⟨hlo, hhi⟩ := join_spec hy.2 h
  obtain ⟨hxlo, hxhi⟩ := hx
  obtain ⟨hylo, hyhi⟩ := hy
  rw [Proper, hlo, hhi]
  omega

theorem join_addresses (hx : x.Proper) (hy : y.Proper) (h : y.lo = x.hi) :
    (join x y).addresses = x.addresses ∪ y.addresses := by
  obtain ⟨hlo, hhi⟩ := join_spec hy.2 h
  rw [addresses, addresses, addresses, hlo, hhi, h]
  exact (Set.Ico_union_Ico_eq_Ico hx.1.le (h ▸ hy.1.le)).symm

/-! ## `lmb_add_region` -/

/-- The entry behind the one that `r` is joined to does not end where that begins. -/
def JoinOk (r : LmbProperty w) (es : List (LmbProperty w)) : Prop :=
  ∀ pre e y post, es = pre ++ e :: y :: post → (∀ x ∈ pre, stopsAt r.base r.size x = false) →
    adjacency r e ≠ 0 → (grow r e).lo ≠ y.hi

theorem forall_middle_iff {p : LmbProperty w → Prop} :
    (∀ x ∈ pre ++ e :: post, p x) ↔ p e ∧ ∀ x ∈ pre ++ post, p x := by
  simp only [List.mem_append, List.mem_cons]
  grind

/-- The grown entry and the next one touch in the order of the table. -/
theorem JoinOk.touches (h : JoinOk r (pre ++ e :: y :: post))
    (hes : ∀ x ∈ pre ++ e :: y :: post, x.Proper) (hr : r.Proper)
    (first : ∀ x ∈ pre, stopsAt r.base r.size x = false) (touches : adjacency r e ≠ 0)
    (next : adjacency (grow r e) y ≠ 0) : y.lo = (grow r e).hi := by
  obtain ⟨he, hothers⟩ := forall_middle_iff.mp hes
  have hy := hothers y (by simp)
  have hback := h pre e y post rfl first touches
  by_contra hne
  exact next ((adjacency_eq_zero_iff (grow_proper hr he touches).2 hy.2).mpr ⟨hne, hback⟩)

theorem Added.addresses (h : Added r es rc es') (hrc : 0 ≤ rc) (hes : ∀ x ∈ es, x.Proper)
    (hr : r.Proper) (hjoin : JoinOk r es) :
    (∀ x ∈ es', x.Proper) ∧ addressesOf es' = addressesOf es ∪ r.addresses := by
  cases h with
  | already mem =>
    refine ⟨hes, ?_⟩
    rw [eq_comm, Set.union_eq_left]
    exact fun a ha => ⟨r, mem, ha⟩
  | grown first touches next =>
    obtain ⟨he, hothers⟩ := forall_middle_iff.mp hes
    exact ⟨forall_middle_iff.mpr ⟨grow_proper hr he touches, hothers⟩,
      covered_replace (grow_addresses hr he touches)⟩
  | @joined pre post e y first touches next =>
    obtain ⟨he, hothers⟩ := forall_middle_iff.mp hes
    obtain ⟨hy, hothers⟩ := forall_middle_iff.mp hothers
    have hgrow := grow_proper hr he touches
    have htouch := hjoin.touches hes hr first touches next
    refine ⟨forall_middle_iff.mpr ⟨join_proper hgrow hy htouch, hothers⟩, ?_⟩
    calc addressesOf (pre ++ join (grow r e) y :: post)
        = addressesOf (pre ++ post) ∪ (join (grow r e) y).addresses := covered_insert
      _ = addressesOf (pre ++ post) ∪ y.addresses ∪ e.addresses ∪ r.addresses := by
        rw [join_addresses hgrow hy htouch, grow_addresses hr he touches]
        ac_rfl
      _ = addressesOf (pre ++ e :: y :: post) ∪ r.addresses := by
        rw [show addressesOf (pre ++ e :: y :: post) =
          addressesOf (pre ++ y :: post) ∪ e.addresses from covered_insert,
          show addressesOf (pre ++ y :: post) =
          addressesOf (pre ++ post) ∪ y.addresses from covered_insert]
  | full apart length => exact absurd hrc (by decide)
  | inserted apart length above below =>
    exact ⟨forall_middle_iff.mpr ⟨hr, hes⟩, covered_insert⟩

/-- A failed call finds the table full and leaves it. -/
theorem Added.failed (h : Added r es rc es') (hrc : rc < 0) :
    es' = es ∧ maxLmbRegions ≤ es.length ∧ ∀ x ∈ es, stopsAt r.base r.size x = false := by
  cases h with
  | full apart length => exact ⟨rfl, length, apart⟩
  | already _ => exact absurd hrc (by decide)
  | grown _ _ _ => exact absurd hrc (by decide)
  | joined _ _ _ => exact absurd hrc (by decide)
  | inserted _ _ _ _ => exact absurd hrc (by decide)

theorem Added.length_le (h : Added r es rc es') (hlen : es.length ≤ maxLmbRegions) :
    es'.length ≤ maxLmbRegions := by
  cases h with
  | full apart length => exact hlen
  | already _ => exact hlen
  | grown _ _ _ => simpa using hlen
  | joined _ _ _ =>
    simp only [List.length_append, List.length_cons] at hlen ⊢
    omega
  | inserted _ length _ _ =>
    simp only [List.length_append, List.length_cons] at length ⊢
    omega

/-! ## Gapped tables -/

theorem disjoint_addresses_iff (hx : x.lo < x.hi) (hr : r.lo < r.hi) :
    Disjoint x.addresses r.addresses ↔ x.hi ≤ r.lo ∨ r.hi ≤ x.lo := by
  rw [addresses, addresses, Set.Ico_disjoint_Ico]
  omega

theorem frontOk_of_gapped (hg : Gapped lo hi es) (hes : ∀ x ∈ es, x.Proper) : FrontOk r es := by
  intro _ f hf hlt x hx
  cases es with
  | nil => cases hx
  | cons g es =>
    obtain rfl : g = f := by simpa using hf
    rcases List.mem_cons.mp hx with rfl | hx
    · exact hlt
    · have hgap := (List.pairwise_cons.mp hg).1 x hx
      have hlo := (hes g (by simp)).1
      rw [base_lt_iff] at hlt ⊢
      omega

theorem joinOk_of_gapped (hg : Gapped lo hi es) (hes : ∀ x ∈ es, x.Proper) (hr : r.Proper) :
    JoinOk r es := by
  rintro pre e y post rfl _ touches
  have hgap := (gapped_middle_iff.mp hg).2.2 y (by simp)
  obtain ⟨he, hothers⟩ := forall_middle_iff.mp hes
  have hy := hothers y (by simp)
  rcases grow_cases hr he touches with ⟨htouch, hlo, hhi⟩ | ⟨htouch, hlo, hhi⟩
  all_goals
    have := hr.1
    have := he.1
    have := hy.1
    omega

theorem not_touching_of_gapped (hg : Gapped lo hi es) (hes : ∀ x ∈ es, x.Proper) (hx : x ∈ es)
    (hy : y ∈ es) : adjacency x y = 0 := by
  have hxlo := (hes x hx).1
  have hylo := (hes y hy).1
  rw [adjacency_eq_zero_iff (hes x hx).2 (hes y hy).2]
  by_cases hne : x = y
  · subst hne
    omega
  · have := hg.apart hx hy hne
    omega

/-- A region that touches an entry of a gapped table is apart from all of them, unless it
overlaps one. -/
theorem apart_of_touching (hg : Gapped lo hi es) (hes : ∀ x ∈ es, x.Proper) (hr : r.Proper)
    (hapart : r ∈ es ∨ ∀ x ∈ es, Disjoint x.addresses r.addresses) (he : e ∈ es)
    (touches : adjacency r e ≠ 0) (hx : x ∈ es) : x.hi ≤ r.lo ∨ r.hi ≤ x.lo := by
  rcases hapart with hmem | hdisjoint
  · exact absurd (not_touching_of_gapped hg hes hmem he) touches
  · exact (disjoint_addresses_iff (hes x hx).1 hr.1).mp (hdisjoint x hx)

theorem gapped_grow (hg : Gapped lo hi (pre ++ e :: post)) (hes : ∀ x ∈ pre ++ e :: post, x.Proper)
    (hr : r.Proper) (hdisjoint : ∀ x ∈ pre ++ e :: post, x.hi ≤ r.lo ∨ r.hi ≤ x.lo)
    (first : ∀ x ∈ pre, stopsAt r.base r.size x = false) (touches : adjacency r e ≠ 0)
    (next : ∀ y ∈ post.head?, adjacency (grow r e) y = 0) :
    Gapped lo hi (pre ++ grow r e :: post) := by
  obtain ⟨hrest, hpre, hpost⟩ := gapped_middle_iff.mp hg
  obtain ⟨he, hothers⟩ := forall_middle_iff.mp hes
  have hgrow := grow_proper hr he touches
  rcases grow_cases hr he touches with ⟨htouch, hlo, hhi⟩ | ⟨htouch, hlo, hhi⟩
  · refine hg.replace ?_ (hhi ▸ hpost)
    intro x hx
    have hproper := hothers x (List.mem_append_left _ hx)
    have hbefore := hpre x hx
    have hside := hdisjoint x (List.mem_append_left _ hx)
    have hne := stopsAt_eq_false hproper.2 hr.2 (first x hx)
    have := hproper.1
    omega
  · refine hg.replace (hlo ▸ hpre) ?_
    intro x hx
    obtain ⟨y, ys, rfl⟩ := List.exists_cons_of_ne_nil (List.ne_nil_of_mem hx)
    have hy := hothers y (by simp)
    have hbehind := hpost y (by simp)
    have hside := hdisjoint y (by simp)
    have hne := (adjacency_eq_zero_iff hgrow.2 hy.2).mp (next y rfl)
    have := hy.1
    rcases List.mem_cons.mp hx with rfl | hx
    · omega
    · have hgap := (List.pairwise_cons.mp (List.pairwise_append.mp hrest).2.1).1 x hx
      omega

theorem gapped_join (hg : Gapped lo hi (pre ++ e :: y :: post))
    (hes : ∀ x ∈ pre ++ e :: y :: post, x.Proper) (hr : r.Proper)
    (first : ∀ x ∈ pre, stopsAt r.base r.size x = false) (touches : adjacency r e ≠ 0)
    (next : adjacency (grow r e) y ≠ 0) : Gapped lo hi (pre ++ join (grow r e) y :: post) := by
  obtain ⟨hrest, hpre, hpost⟩ := gapped_middle_iff.mp hg
  obtain ⟨he, hothers⟩ := forall_middle_iff.mp hes
  have hy := hothers y (by simp)
  have hgap := hpost y (by simp)
  have htouch := (joinOk_of_gapped hg hes hr).touches hes hr first touches next
  have hlo : (grow r e).lo = e.lo := by
    rcases grow_cases hr he touches with ⟨-, -, hhi⟩ | ⟨-, hlo, -⟩
    · omega
    · exact hlo
  obtain ⟨hjlo, hjhi⟩ := join_spec hy.2 htouch
  refine hrest.replace ?_ ?_
  · rw [hjlo, hlo]
    exact hpre
  · rw [hjhi]
    exact (gapped_middle_iff.mp hrest).2.2

theorem Added.gapped (h : Added r es rc es') (hg : Gapped lo hi es) (hes : ∀ x ∈ es, x.Proper)
    (hr : r.Proper) (hapart : r ∈ es ∨ ∀ x ∈ es, Disjoint x.addresses r.addresses) :
    Gapped lo hi es' := by
  cases h with
  | already _ => exact hg
  | full _ _ => exact hg
  | grown first touches next =>
    refine gapped_grow hg hes hr ?_ first touches next
    intro x hx
    exact apart_of_touching hg hes hr hapart (by simp) touches hx
  | joined first touches next => exact gapped_join hg hes hr first touches next
  | @inserted A B apart length above below =>
    refine hg.insert (fun x hx => (hes x hx).1) hr.1 ?_ ?_ above
    · intro x hx
      have hne := stopsAt_eq_false (hes x hx).2 hr.2 (apart x hx)
      rcases hapart with hmem | hdisjoint
      · simpa [stopsAt] using apart r hmem
      · have hside := (disjoint_addresses_iff (hes x hx).1 hr.1).mp (hdisjoint x hx)
        omega
    · intro x hx
      exact not_lt.mp (mt base_lt_iff.mpr (below x hx))

/-! ## `lmb_free` -/

/-- The other entries have no address of the range, and where the entry is split, its tail
can be put to the table. -/
def FreeOk (f : LmbProperty w) (es : List (LmbProperty w)) : Prop :=
  ∀ pre e post, es = pre ++ e :: post → (∀ x ∈ pre, ¬ x.Contains f) → e.Contains f →
    (∀ x ∈ pre ++ post, Disjoint x.addresses f.addresses) ∧
      (e.base ≠ f.base → e.base + e.size ≠ f.base + f.size →
        FrontOk (tail e f) (pre ++ front e f :: post) ∧
          JoinOk (tail e f) (pre ++ front e f :: post))

theorem contains_iff (he : e.hi < 2 ^ w) (hf : f.hi < 2 ^ w) :
    e.Contains f ↔ e.lo ≤ f.lo ∧ f.hi ≤ e.hi := by
  rw [Contains, BitVec.le_def, BitVec.le_def, toNat_stop he, toNat_stop hf]
  rfl

theorem front_spec (h : e.lo ≤ f.lo) : (front e f).lo = e.lo ∧ (front e f).hi = f.lo := by
  refine ⟨rfl, ?_⟩
  have hlt := f.base.isLt
  simp only [front, lo, hi, BitVec.toNat_sub] at *
  rw [show 2 ^ w - e.base.toNat + f.base.toNat = f.base.toNat - e.base.toNat + 2 ^ w by omega,
    Nat.add_mod_right, Nat.mod_eq_of_lt (by omega)]
  omega

theorem tail_spec (he : e.hi < 2 ^ w) (h : f.hi ≤ e.hi) :
    (tail e f).lo = f.hi ∧ (tail e f).hi = e.hi := by
  have hf : f.hi < 2 ^ w := h.trans_lt he
  have hlo : (tail e f).lo = f.hi := toNat_stop hf
  refine ⟨hlo, ?_⟩
  have hsize : (tail e f).size.toNat = e.hi - f.hi := by
    show (e.base + e.size - (f.base + f.size)).toNat = _
    rw [BitVec.toNat_sub, toNat_stop he, toNat_stop hf,
      show 2 ^ w - f.hi + e.hi = e.hi - f.hi + 2 ^ w by omega, Nat.add_mod_right,
      Nat.mod_eq_of_lt (by omega)]
  show (tail e f).lo + (tail e f).size.toNat = e.hi
  omega

/-- What is left of an entry around a hole. -/
theorem addresses_hole (hlo : e.lo ≤ f.lo) (hhi : f.hi ≤ e.hi) :
    e.addresses \ f.addresses = Set.Ico e.lo f.lo ∪ Set.Ico f.hi e.hi := by
  have hf := f.lo_le_hi
  ext a
  simp only [addresses, Set.mem_sdiff, Set.mem_union, Set.mem_Ico]
  omega

theorem first_eq_tail (hbase : e.base = f.base) :
    (⟨f.base + f.size, e.size - f.size⟩ : LmbProperty w) = tail e f := by
  rw [tail, hbase]
  congr 1
  grind

theorem last_eq_front (hstop : e.base + e.size = f.base + f.size) :
    (⟨e.base, e.size - f.size⟩ : LmbProperty w) = front e f := by
  rw [front]
  congr 1
  grind

/-- The tail is put to a table in which the front stands for the entry. -/
theorem split_addresses (hes : ∀ x ∈ pre ++ e :: post, x.Proper) (hlo : e.lo < f.lo)
    (hhi : f.hi < e.hi) (hothers : ∀ x ∈ pre ++ post, Disjoint x.addresses f.addresses) :
    (∀ x ∈ pre ++ front e f :: post, x.Proper) ∧ (tail e f).Proper ∧
      addressesOf (pre ++ front e f :: post) ∪ (tail e f).addresses =
        addressesOf (pre ++ e :: post) \ f.addresses := by
  obtain ⟨he, hrest⟩ := forall_middle_iff.mp hes
  obtain ⟨hflo, hfhi⟩ := front_spec hlo.le
  obtain ⟨htlo, hthi⟩ := tail_spec he.2 hhi.le
  have hf := f.lo_le_hi
  have hehi := he.2
  refine ⟨forall_middle_iff.mpr ⟨?_, hrest⟩, ?_, ?_⟩
  · rw [Proper, hflo, hfhi]
    omega
  · rw [Proper, htlo, hthi]
    omega
  · have hleft : addressesOf (pre ++ front e f :: post) =
        addressesOf (pre ++ post) ∪ (front e f).addresses := covered_insert
    have hright : addressesOf (pre ++ e :: post) = addressesOf (pre ++ post) ∪ e.addresses :=
      covered_insert
    have hdisjoint : Disjoint (addressesOf (pre ++ post)) f.addresses := disjoint_covered hothers
    rw [hleft, hright, Set.union_sdiff_distrib, hdisjoint.sdiff_eq_left,
      addresses_hole hlo.le hhi.le, Set.union_assoc]
    rw [addresses, addresses, hflo, hfhi, htlo, hthi]

theorem base_eq_iff : e.base = f.base ↔ e.lo = f.lo := BitVec.toNat_inj.symm

theorem stop_eq_iff (he : e.hi < 2 ^ w) (hf : f.hi < 2 ^ w) :
    e.base + e.size = f.base + f.size ↔ e.hi = f.hi := by
  rw [← BitVec.toNat_inj, toNat_stop he, toNat_stop hf]

theorem lo_lt_of_base_ne (hlo : e.lo ≤ f.lo) (base : e.base ≠ f.base) : e.lo < f.lo :=
  lt_of_le_of_ne hlo (mt base_eq_iff.mpr base)

theorem hi_lt_of_stop_ne (he : e.hi < 2 ^ w) (hhi : f.hi ≤ e.hi)
    (stop : e.base + e.size ≠ f.base + f.size) : f.hi < e.hi := by
  refine lt_of_le_of_ne hhi ?_
  intro heq
  exact stop ((stop_eq_iff he (hhi.trans_lt he)).mpr heq.symm)

theorem Freed.addresses (h : Freed f es rc es') (hrc : 0 ≤ rc) (hes : ∀ x ∈ es, x.Proper)
    (hf : f.hi < 2 ^ w) (hok : FreeOk f es) :
    (∀ x ∈ es', x.Proper) ∧ addressesOf es' = addressesOf es \ f.addresses := by
  cases h with
  | missing none => exact absurd hrc (by decide)
  | @found pre post es' e rc first contains cut =>
    obtain ⟨hothers, hsplit⟩ := hok pre e post rfl first contains
    obtain ⟨he, hrest⟩ := forall_middle_iff.mp hes
    obtain ⟨hlo, hhi⟩ := (contains_iff he.2 hf).mp contains
    have hehi := he.2
    have hfhi := f.lo_le_hi
    cases cut with
    | whole same =>
      subst same
      exact ⟨hrest, covered_remove hothers⟩
    | first base stop =>
      have hlt := hi_lt_of_stop_ne he.2 hhi stop
      obtain ⟨htlo, hthi⟩ := tail_spec he.2 hhi
      rw [first_eq_tail base]
      refine ⟨forall_middle_iff.mpr ⟨?_, hrest⟩, covered_cut hothers ?_⟩
      · rw [Proper, htlo, hthi]
        omega
      · show Set.Ico (tail e f).lo (tail e f).hi = e.addresses \ f.addresses
        rw [addresses_hole hlo hhi, htlo, hthi, base_eq_iff.mp base, Set.Ico_self,
          Set.empty_union]
    | last base stop =>
      have hlt := lo_lt_of_base_ne hlo base
      obtain ⟨hflo, hfhi⟩ := front_spec hlo
      rw [last_eq_front stop]
      refine ⟨forall_middle_iff.mpr ⟨?_, hrest⟩, covered_cut hothers ?_⟩
      · rw [Proper, hflo, hfhi]
        omega
      · show Set.Ico (front e f).lo (front e f).hi = e.addresses \ f.addresses
        rw [addresses_hole hlo hhi, hflo, hfhi, (stop_eq_iff he.2 hf).mp stop, Set.Ico_self,
          Set.union_empty]
    | split base stop added =>
      have hltlo := lo_lt_of_base_ne hlo base
      have hlthi := hi_lt_of_stop_ne he.2 hhi stop
      obtain ⟨hproper, htail, haddresses⟩ := split_addresses hes hltlo hlthi hothers
      rw [← haddresses]
      exact added.addresses hrc hproper htail (hsplit base stop).2

theorem lmbFreeRegion_of_freeOk {t : LmbRegion w} (h : t.Holds es) (hes : ∀ x ∈ es, x.Proper)
    (hok : FreeOk f es) :
    ∃ rc t' es', lmbFreeRegion t f.base f.size = some (rc, t') ∧ t'.Holds es' ∧
      Freed f es rc es' := by
  apply lmbFreeRegion_freed h
  · intro x hx
    exact (hes x hx).size_ne
  · intro pre e post hsplit first contains base stop
    exact ((hok pre e post hsplit first contains).2 base stop).1

/-- A range inside an entry of a gapped table has nothing of the others. -/
theorem disjoint_others (hg : Gapped lo hi (pre ++ e :: post)) (hlo : e.lo ≤ f.lo)
    (hhi : f.hi ≤ e.hi) (hx : x ∈ pre ++ post) : Disjoint x.addresses f.addresses := by
  obtain ⟨-, hpre, hpost⟩ := gapped_middle_iff.mp hg
  rw [addresses, addresses, Set.Ico_disjoint_Ico]
  rcases List.mem_append.mp hx with hx | hx
  · have := hpre x hx
    omega
  · have := hpost x hx
    omega

theorem gapped_front (hg : Gapped lo hi (pre ++ e :: post)) (hlo : e.lo ≤ f.lo)
    (hhi : f.hi ≤ e.hi) : Gapped lo hi (pre ++ front e f :: post) := by
  obtain ⟨-, hpre, hpost⟩ := gapped_middle_iff.mp hg
  obtain ⟨hflo, hfhi⟩ := front_spec hlo
  have hf := f.lo_le_hi
  refine hg.replace (hflo ▸ hpre) ?_
  intro x hx
  have := hpost x hx
  omega

theorem freeOk_of_gapped (hg : Gapped lo hi es) (hes : ∀ x ∈ es, x.Proper) (hf : f.hi < 2 ^ w) :
    FreeOk f es := by
  rintro pre e post rfl - contains
  have he := (forall_middle_iff.mp hes).1
  obtain ⟨hlo, hhi⟩ := (contains_iff he.2 hf).mp contains
  refine ⟨fun x hx => disjoint_others hg hlo hhi hx, fun base stop => ?_⟩
  have hltlo := lo_lt_of_base_ne hlo base
  have hlthi := hi_lt_of_stop_ne he.2 hhi stop
  have hgap := gapped_front hg hlo hhi
  obtain ⟨hproper, htail, -⟩ :=
    split_addresses hes hltlo hlthi fun x hx => disjoint_others hg hlo hhi hx
  exact ⟨frontOk_of_gapped hgap hproper, joinOk_of_gapped hgap hproper htail⟩

theorem Freed.gapped (h : Freed f es rc es') (hg : Gapped lo hi es) (hes : ∀ x ∈ es, x.Proper)
    (hf : f.hi < 2 ^ w) : Gapped lo hi es' := by
  cases h with
  | missing none => exact hg
  | @found pre post es' e rc first contains cut =>
    have he := (forall_middle_iff.mp hes).1
    obtain ⟨hlo, hhi⟩ := (contains_iff he.2 hf).mp contains
    obtain ⟨hrest, hpre, hpost⟩ := gapped_middle_iff.mp hg
    obtain ⟨htlo, hthi⟩ := tail_spec he.2 hhi
    have hfhi := f.lo_le_hi
    cases cut with
    | whole same => exact hrest
    | first base stop =>
      rw [first_eq_tail base]
      refine hg.replace ?_ (hthi ▸ hpost)
      intro x hx
      have := hpre x hx
      omega
    | last base stop =>
      rw [last_eq_front stop]
      exact gapped_front hg hlo hhi
    | split base stop added =>
      have hltlo := lo_lt_of_base_ne hlo base
      have hlthi := hi_lt_of_stop_ne he.2 hhi stop
      obtain ⟨hproper, htail, -⟩ :=
        split_addresses hes hltlo hlthi fun x hx => disjoint_others hg hlo hhi hx
      refine added.gapped (gapped_front hg hlo hhi) hproper htail
        (.inr (forall_middle_iff.mpr ⟨?_, fun x hx => disjoint_others hg ?_ hthi.le hx⟩))
      · obtain ⟨hflo, hfront⟩ := front_spec hlo
        rw [LmbProperty.addresses, LmbProperty.addresses, Set.Ico_disjoint_Ico]
        omega
      · omega

theorem Freed.length_le (h : Freed f es rc es') (hlen : es.length ≤ maxLmbRegions) :
    es'.length ≤ maxLmbRegions := by
  cases h with
  | missing none => exact hlen
  | found first contains cut =>
    cases cut with
    | whole same =>
      simp only [List.length_append, List.length_cons] at hlen ⊢
      omega
    | first base stop => simpa using hlen
    | last base stop => simpa using hlen
    | split base stop added => exact added.length_le (by simpa using hlen)

/-- A failed call leaves the table, unless it has split an entry of a full one. -/
theorem Freed.failed (h : Freed f es rc es') (hrc : rc < 0) (hes : ∀ x ∈ es, x.Proper)
    (hf : f.hi < 2 ^ w) (hroom : maxLmbRegions ≤ es.length → f.lo < f.hi →
      ∀ x ∈ es, ¬ (x.lo < f.lo ∧ f.hi < x.hi)) : es' = es := by
  cases h with
  | missing none => rfl
  | @found pre post es' e rc first contains cut =>
    obtain ⟨he, hrest⟩ := forall_middle_iff.mp hes
    obtain ⟨hlo, hhi⟩ := (contains_iff he.2 hf).mp contains
    cases cut with
    | whole same => exact absurd hrc (by decide)
    | first base stop => exact absurd hrc (by decide)
    | last base stop => exact absurd hrc (by decide)
    | split base stop added =>
      exfalso
      have hltlo := lo_lt_of_base_ne hlo base
      have hlthi := hi_lt_of_stop_ne he.2 hhi stop
      obtain ⟨-, hfull, hapart⟩ := added.failed hrc
      have hsize : ¬ f.lo < f.hi := fun hlt =>
        hroom (by simpa using hfull) hlt e (by simp) ⟨hltlo, hlthi⟩
      -- an empty hole leaves two halves that touch
      obtain ⟨hflo, hfront⟩ := front_spec hlo
      obtain ⟨htlo, hthi⟩ := tail_spec he.2 hhi
      have hehi := he.2
      have hfhi := f.lo_le_hi
      have hne := stopsAt_eq_false (x := front e f) (r := tail e f) (by omega) (by omega)
        (hapart _ (by simp))
      omega

end UBoot.LibGeneric
