import UBoot.LibGeneric.LmbRun

/-!
# Calls on the reserved regions that fail

`lmb_add_region` fails only where the table is full, and leaves it alone (`lmbAddRegion_neg`).
`lmb_free` fails where no entry contains the range, and leaves the table alone too; or behind a
split, when the tail finds no entry (`lmbFreeRegion_neg`).  Then the entry has been cut already.

* `lmb_failed_unchanged_iff`: the reserved addresses stay if and only if those that the cut takes
  or adds are in other entries (`KeepsTail`).
-/

namespace UBoot.LibGeneric

open UBoot.Lib LmbProperty

variable {w : Nat} {t t' : LmbRegion w} {e f r : LmbProperty w} {pre post : List (LmbProperty w)}
  {rc : Int}

theorem put_entries {i : Nat} (h : t.put i r = some t') : t'.entries = t.entries.set i r := by
  rw [LmbRegion.put] at h
  split at h
  · cases h
    exact List.take_set
  · cases h

theorem slot_of_entries (h : t.entries = pre ++ e :: post) : t.slot pre.length = some e := by
  have hget : t.entries[pre.length]? = some e := by
    rw [h]
    simp
  rw [LmbRegion.entries, List.getElem?_take] at hget
  split at hget
  · exact hget
  · cases hget

/-- An entry is replaced. -/
theorem put_of_entries (h : t.entries = pre ++ e :: post) (r : LmbProperty w) :
    ∃ t₁, t.put pre.length r = some t₁ ∧ t₁.entries = pre ++ r :: post ∧ t₁.cnt = t.cnt := by
  have hslot := slot_of_entries h
  have hlen : pre.length ≤ maxLmbRegions := by
    obtain ⟨hlt, -⟩ := List.getElem?_eq_some_iff.mp hslot
    rw [t.length_region] at hlt
    omega
  refine ⟨_, if_pos hlen, ?_, rfl⟩
  rw [put_entries (if_pos hlen), h]
  simp

/-! ## `lmb_add_region` -/

/-- Where no entry ends the first loop, in a full table. -/
theorem lmbAddRegion_full (hfull : maxLmbRegions ≤ t.cnt)
    (hnone : ∀ x ∈ t.entries, stopsAt r.base r.size x = false) :
    lmbAddRegion t r.base r.size = some (-1, t) := by
  have hregion := t.length_region
  have height : maxLmbRegions = 8 := rfl
  obtain ⟨x, hslot⟩ : ∃ x, t.slot 0 = some x :=
    ⟨_, List.getElem?_eq_getElem (by rw [hregion]; exact Nat.succ_pos _)⟩
  have hlast : ¬ t.BeforeLast t.cnt := by
    rw [LmbRegion.BeforeLast]
    omega
  rw [lmbAddRegion_of_none hslot (fun h => by omega) (List.findIdx?_eq_none_iff.mpr hnone),
    finishAdd, touchesNext, if_neg hlast]
  exact if_pos hfull

theorem finishAdd_neg {i coalesced : Nat}
    (h : finishAdd t r.base r.size i coalesced = some (rc, t')) (hrc : rc < 0) :
    t' = t ∧ maxLmbRegions ≤ t.cnt ∧ coalesced = 0 := by
  rw [finishAdd] at h
  obtain ⟨touches, -, h⟩ := Option.bind_eq_some_iff.mp h
  split at h
  · obtain ⟨t₁, -, h⟩ := Option.bind_eq_some_iff.mp h
    cases h
    omega
  · split at h
    · cases h
      omega
    · rename_i hzero
      split at h
      · rename_i hfull
        cases h
        exact ⟨rfl, hfull, not_not.mp hzero⟩
      · obtain ⟨t₁, -, h⟩ := Option.bind_eq_some_iff.mp h
        cases h
        omega

theorem lmbAddRegion_neg (h : lmbAddRegion t r.base r.size = some (rc, t')) (hrc : rc < 0) :
    t' = t ∧ maxLmbRegions ≤ t.cnt ∧ ∀ x ∈ t.entries, stopsAt r.base r.size x = false := by
  have h' := h
  rw [lmbAddRegion] at h'
  obtain ⟨x, hslot, h'⟩ := Option.bind_eq_some_iff.mp h'
  by_cases hdummy : t.cnt = 1 ∧ x.size = 0
  · rw [if_pos hdummy] at h'
    obtain ⟨t₁, -, h'⟩ := Option.bind_eq_some_iff.mp h'
    cases h'
    omega
  · cases hfind : t.entries.findIdx? (stopsAt r.base r.size) with
    | none =>
      rw [lmbAddRegion_of_none hslot hdummy hfind] at h
      obtain ⟨hsame, hfull, -⟩ := finishAdd_neg h hrc
      exact ⟨hsame, hfull, List.findIdx?_eq_none_iff.mp hfind⟩
    | some i =>
      obtain ⟨pre, e, post, hentries, rfl, -, -⟩ := findIdx?_eq_some hfind
      rw [lmbAddRegion_of_some hslot hdummy hfind (slot_of_entries hentries)] at h
      split at h
      · cases h
        omega
      · obtain ⟨t₁, -, h⟩ := Option.bind_eq_some_iff.mp h
        exact absurd (finishAdd_neg h hrc).2.2 Nat.one_ne_zero

/-! ## `lmb_free` -/

/-- The range is inside the entry, and at neither end of it. -/
structure Splits (e f : LmbProperty w) : Prop where
  contains : e.Contains f
  base : e.base ≠ f.base
  stop : e.base + e.size ≠ f.base + f.size

theorem lmbFreeRegion_split (hentries : t.entries = pre ++ e :: post)
    (hfirst : ∀ x ∈ pre, ¬ x.Contains f) (hsplits : Splits e f) :
    lmbFreeRegion t f.base f.size = (t.put pre.length (front e f)).bind fun t =>
      lmbAddRegion t (tail e f).base (tail e f).size := by
  have hfind : t.entries.findIdx? (fun x =>
      decide (x.base ≤ f.base ∧ f.base + f.size ≤ x.base + x.size)) = some pre.length := by
    have hpre : pre.findIdx? (fun x =>
        decide (x.base ≤ f.base ∧ f.base + f.size ≤ x.base + x.size)) = none :=
      List.findIdx?_eq_none_iff.mpr fun x hx => decide_eq_false (hfirst x hx)
    have htest : decide (e.base ≤ f.base ∧ f.base + f.size ≤ e.base + e.size) = true :=
      decide_eq_true hsplits.contains
    rw [hentries, List.findIdx?_append, hpre, List.findIdx?_cons, if_pos htest]
    simp
  rw [lmbFreeRegion]
  simp only [hfind, Option.bind_eq_bind, slot_of_entries hentries, Option.bind_some]
  rw [if_neg fun h => hsplits.base h.1, if_neg hsplits.base, if_neg hsplits.stop]
  rfl

theorem nonneg_of_bind {o : Option (LmbRegion w)}
    (h : (o.bind fun t => some ((0 : Int), t)) = some (rc, t')) : 0 ≤ rc := by
  obtain ⟨t₁, -, h⟩ := Option.bind_eq_some_iff.mp h
  cases h
  exact le_refl 0

/-- A call that fails has found no entry, or has failed behind a split. -/
theorem lmbFreeRegion_neg (h : lmbFreeRegion t f.base f.size = some (rc, t')) (hrc : rc < 0) :
    t' = t ∨ ∃ pre e post, t.entries = pre ++ e :: post ∧ (∀ x ∈ pre, ¬ x.Contains f) ∧
      Splits e f := by
  have h' := h
  rw [lmbFreeRegion] at h'
  cases hfind : t.entries.findIdx? (fun x =>
      decide (x.base ≤ f.base ∧ f.base + f.size ≤ x.base + x.size)) with
  | none =>
    simp only [hfind] at h'
    cases h'
    exact .inl rfl
  | some i =>
    obtain ⟨pre, e, post, hentries, rfl, hcontains, hfirst⟩ := findIdx?_eq_some hfind
    simp only [hfind, Option.bind_eq_bind, slot_of_entries hentries, Option.bind_some] at h'
    refine .inr ⟨pre, e, post, hentries, fun x hx => of_decide_eq_false (hfirst x hx), ?_⟩
    by_cases hwhole : e.base = f.base ∧ e.base + e.size = f.base + f.size
    · rw [if_pos hwhole] at h'
      exact absurd hrc (not_lt.mpr (nonneg_of_bind h'))
    by_cases hbase : e.base = f.base
    · rw [if_neg hwhole, if_pos hbase] at h'
      exact absurd hrc (not_lt.mpr (nonneg_of_bind h'))
    by_cases hstop : e.base + e.size = f.base + f.size
    · rw [if_neg hwhole, if_neg hbase, if_pos hstop] at h'
      exact absurd hrc (not_lt.mpr (nonneg_of_bind h'))
    exact ⟨of_decide_eq_true hcontains, hbase, hstop⟩

/-- Where the tail of a split finds the table full, the addresses between the start of the range
and the end of the entry are in other entries too. -/
def KeepsTail (t : LmbRegion w) (f : LmbProperty w) : Prop :=
  ∀ pre e post, t.entries = pre ++ e :: post → (∀ x ∈ pre, ¬ x.Contains f) → Splits e f →
    maxLmbRegions ≤ t.cnt →
    (∀ x ∈ pre ++ front e f :: post, stopsAt (tail e f).base (tail e f).size x = false) →
    Set.Ico (min f.lo e.hi) (max f.lo e.hi) ⊆ addressesOf (pre ++ post)

theorem front_addresses (h : e.lo ≤ f.lo) : (front e f).addresses = Set.Ico e.lo f.lo := by
  obtain ⟨hlo, hhi⟩ := front_spec h
  rw [addresses, hlo, hhi]

/-- The cut leaves the addresses of the table if and only if other entries have what it changes. -/
theorem front_unchanged_iff (h : e.lo ≤ f.lo) :
    addressesOf (pre ++ front e f :: post) = addressesOf (pre ++ e :: post) ↔
      Set.Ico (min f.lo e.hi) (max f.lo e.hi) ⊆ addressesOf (pre ++ post) := by
  have hfront : addressesOf (pre ++ front e f :: post) =
      addressesOf (pre ++ post) ∪ Set.Ico e.lo f.lo := by
    rw [← front_addresses h]
    exact covered_insert
  have hentry : addressesOf (pre ++ e :: post) = addressesOf (pre ++ post) ∪ Set.Ico e.lo e.hi :=
    covered_insert
  have hle := e.lo_le_hi
  rw [hfront, hentry]
  constructor
  · intro heq a ha
    have hiff := Set.ext_iff.mp heq a
    simp only [Set.mem_union, Set.mem_Ico] at hiff ha
    by_contra hnot
    simp only [hnot, false_or] at hiff
    omega
  · intro hsub
    ext a
    have hmem := @hsub a
    simp only [Set.mem_union, Set.mem_Ico] at hmem ⊢
    by_cases hnot : a ∈ addressesOf (pre ++ post)
    · simp only [hnot, true_or]
    · have hout : ¬ (min f.lo e.hi ≤ a ∧ a < max f.lo e.hi) := fun hin => hnot (hmem hin)
      simp only [hnot, false_or]
      omega

theorem lmbFreeRegion_unchanged_iff (t : LmbRegion w) (f : LmbProperty w) :
    (∀ rc t', lmbFreeRegion t f.base f.size = some (rc, t') → rc < 0 →
      addressesOf t'.entries = addressesOf t.entries) ↔ KeepsTail t f := by
  constructor
  · intro h pre e post hentries hfirst hsplits hfull hnone
    obtain ⟨t₁, hput, hentries₁, hcnt₁⟩ := put_of_entries hentries (front e f)
    have hadd : lmbAddRegion t₁ (tail e f).base (tail e f).size = some (-1, t₁) :=
      lmbAddRegion_full (hcnt₁ ▸ hfull) (by rwa [hentries₁])
    have hfree := lmbFreeRegion_split hentries hfirst hsplits
    rw [hput, Option.bind_some, hadd] at hfree
    have hsame := h _ _ hfree (by decide)
    rw [hentries₁, hentries] at hsame
    exact (front_unchanged_iff hsplits.contains.1).mp hsame
  · intro hkeeps rc t' hfree hrc
    rcases lmbFreeRegion_neg hfree hrc with rfl | ⟨pre, e, post, hentries, hfirst, hsplits⟩
    · rfl
    · obtain ⟨t₁, hput, hentries₁, hcnt₁⟩ := put_of_entries hentries (front e f)
      rw [lmbFreeRegion_split hentries hfirst hsplits, hput, Option.bind_some] at hfree
      obtain ⟨rfl, hfull, hnone⟩ := lmbAddRegion_neg hfree hrc
      rw [hentries₁] at hnone ⊢
      rw [hentries]
      exact (front_unchanged_iff hsplits.contains.1).mpr
        (hkeeps pre e post hentries hfirst hsplits (hcnt₁ ▸ hfull) hnone)

/-! ## The calls -/

/-- The condition on a call in the state before it. -/
def LmbCall.KeepsTail (lmb : Lmb w) : LmbCall w → Prop
  | .free base size => LibGeneric.KeepsTail lmb.reserved ⟨base, size⟩
  | _ => True

/-- **A call that fails** leaves the reserved addresses, and exactly when it does. -/
theorem lmb_failed_unchanged_iff (lmb : Lmb w) (call : LmbCall w) :
    (∀ rc lmb', call.run lmb = some (rc, lmb') → rc < 0 →
      addressesOf lmb'.reserved.entries = addressesOf lmb.reserved.entries) ↔
      call.KeepsTail lmb := by
  cases call with
  | add base size =>
    refine ⟨fun _ => trivial, fun _ rc lmb' hrun _ => ?_⟩
    obtain ⟨-, hreserved⟩ := run_add_iff.mp hrun
    rw [hreserved]
  | reserve base size =>
    refine ⟨fun _ => trivial, fun _ rc lmb' hrun hrc => ?_⟩
    have hadd := (run_reserve_iff.mp hrun).1
    rw [(lmbAddRegion_neg (r := ⟨base, size⟩) hadd hrc).1]
  | free base size =>
    rw [LmbCall.KeepsTail, ← lmbFreeRegion_unchanged_iff]
    constructor
    · intro h rc t' hfree hrc
      exact h rc ⟨lmb.memory, t'⟩ (run_free_iff.mpr ⟨hfree, rfl⟩) hrc
    · intro h rc lmb' hrun hrc
      exact h rc lmb'.reserved (run_free_iff.mp hrun).1 hrc

/-- Eight regions of 256 bytes, 4 KiB apart. -/
def fullTable : LmbRegion 32 where
  cnt := 8
  region := (List.range 9).map fun k => ⟨BitVec.ofNat 32 (0x1000 * (k + 1)), 0x100⟩
  length_region := by simp [maxLmbRegions]

/-- A hole in the last of eight regions: the call fails, and what was behind the hole is free. -/
theorem lmb_failed_changed :
    ¬ ∀ (lmb : Lmb 32) (call : LmbCall 32) (rc : Int) (lmb' : Lmb 32),
      call.run lmb = some (rc, lmb') → rc < 0 →
        addressesOf lmb'.reserved.entries = addressesOf lmb.reserved.entries := by
  intro h
  have hrun : (LmbCall.free 0x8040 0x40).run ⟨fullTable, fullTable⟩ =
      some (-1, ⟨fullTable, ⟨8, fullTable.region.set 7 ⟨0x8000, 0x40⟩, by decide⟩⟩) := by
    decide
  have hsame := Set.ext_iff.mp (h _ _ _ _ hrun (by decide)) 0x8080
  have hbefore : ∃ x ∈ fullTable.entries, x.lo ≤ 0x8080 ∧ 0x8080 < x.hi := by decide
  obtain ⟨x, hx, hlo, hhi⟩ := hsame.mpr hbefore
  have hafter : ∀ x ∈ (⟨8, fullTable.region.set 7 ⟨0x8000, 0x40⟩, by decide⟩ :
      LmbRegion 32).entries, ¬ (x.lo ≤ 0x8080 ∧ 0x8080 < x.hi) := by decide
  exact hafter x hx ⟨hlo, hhi⟩

end UBoot.LibGeneric
