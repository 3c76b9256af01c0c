import UBoot.LibGeneric.LmbSets

/-!
# Allocation below a limit

`__lmb_alloc_base` of `lib_generic/lmb.c` goes through the memory regions from the last to
the first, and in each of them down from the highest place that fits, past one reserved
region after the other.  A sum that wraps hides a reserved region from it, and a difference
that wraps leads it out of the region.

* `probe_found`, `probe_greatest`: what the search finds in a region is the **greatest seen
  place** of it (`Seen`).
* `lmbAllocBase_cases`: the place comes from the last region that has one (`LastSeen`).
* `Seen.placedRight`, `PlacedRight.searchOk`: the place is right if and only if nothing wraps
  in the search of that region (`SearchOk`).
-/

namespace UBoot.LibGeneric

open UBoot.Lib LmbProperty

variable {w : Nat}

/-! ## The code -/

/-- `lmb_addrs_overlap` -/
def lmbAddrsOverlap (base1 size1 base2 size2 : BitVec w) : Bool :=
  decide (base1 < base2 + size2) && decide (base2 < base1 + size1)

/-- `lmb_overlaps_region`, as the entry at the index that it returns. -/
def lmbOverlapsRegion (rgn : LmbRegion w) (base size : BitVec w) : Option (LmbProperty w) :=
  rgn.entries.find? fun r => lmbAddrsOverlap base size r.base r.size

/-- `lmb_align_down` -/
def lmbAlignDown (addr size : BitVec w) : BitVec w := addr &&& ~~~(size - 1)

/-- `lmb_align_up` -/
def lmbAlignUp (addr size : BitVec w) : BitVec w := (addr + (size - 1)) &&& ~~~(size - 1)

theorem lmbAlignDown_le (addr size : BitVec w) :
    (lmbAlignDown addr size).toNat ≤ addr.toNat := by
  rw [lmbAlignDown, BitVec.toNat_and]
  exact Nat.and_le_left

theorem lmbAddrsOverlap_iff {base1 size1 base2 size2 : BitVec w} :
    lmbAddrsOverlap base1 size1 base2 size2 = true ↔
      base1.toNat < (base2 + size2).toNat ∧ base2.toNat < (base1 + size1).toNat := by
  rw [lmbAddrsOverlap, Bool.and_eq_true, decide_eq_true_eq, decide_eq_true_eq]
  rfl

theorem lmbOverlapsRegion_eq_some {rgn : LmbRegion w} {base size : BitVec w} {r : LmbProperty w}
    (h : lmbOverlapsRegion rgn base size = some r) :
    r ∈ rgn.entries ∧ lmbAddrsOverlap base size r.base r.size = true := by
  rw [lmbOverlapsRegion] at h
  exact ⟨List.mem_of_find?_eq_some h, by simpa using List.find?_some h⟩

/-- The next place is below the one that overlaps, whatever wraps. -/
theorem next_lt {base size align : BitVec w} {r : LmbProperty w}
    (h : lmbAddrsOverlap base size r.base r.size = true) (hr : ¬ r.base < size) :
    (lmbAlignDown (r.base - size) align).toNat < base.toNat := by
  have hdown := lmbAlignDown_le (r.base - size) align
  have hbelow : r.base.toNat < (base + size).toNat := (lmbAddrsOverlap_iff.mp h).2
  have hsize : size.toNat ≤ r.base.toNat := Nat.le_of_not_lt hr
  have hsub : (r.base - size).toNat = r.base.toNat - size.toNat := BitVec.toNat_sub_of_le hsize
  have hsum : (base + size).toNat ≤ base.toNat + size.toNat := by
    rw [BitVec.toNat_add]
    exact Nat.mod_le _ _
  omega

/-- The `while` loop in a region that begins at `lmbbase`: the place that it takes. -/
def probe (reserved : LmbRegion w) (size align lmbbase base : BitVec w) : Option (BitVec w) :=
  if base ≠ 0 ∧ lmbbase ≤ base then
    match h : lmbOverlapsRegion reserved base size with
    | none => some base
    | some r =>
      if hr : r.base < size then none
      else probe reserved size align lmbbase (lmbAlignDown (r.base - size) align)
  else none
termination_by base.toNat
decreasing_by exact next_lt (lmbOverlapsRegion_eq_some h).2 hr

/-- Where the search in a region starts, if the region is looked at. -/
def firstBase (size align maxAddr : BitVec w) (r : LmbProperty w) : Option (BitVec w) :=
  if r.size < size then none
  else if maxAddr = 0 then some (lmbAlignDown (r.base + r.size - size) align)
  else if r.base < maxAddr then
    some (lmbAlignDown ((if r.base + r.size < maxAddr then r.base + r.size else maxAddr) - size)
      align)
  else none

/-- The search in one region. -/
def probeRegion (reserved : LmbRegion w) (size align maxAddr : BitVec w) (r : LmbProperty w) :
    Option (BitVec w) :=
  (firstBase size align maxAddr r).bind (probe reserved size align r.base)

/-- "This area isn't reserved, take it": the return value and the tables. -/
def takePlace (lmb : Lmb w) (base size : BitVec w) : Option (BitVec w × Lmb w) := do
  let (rc, reserved) ← lmbAddRegion lmb.reserved base size
  return (if rc < 0 then 0 else base, { lmb with reserved := reserved })

/-- The loop over the memory regions. -/
def allocLoop (lmb : Lmb w) (size align maxAddr : BitVec w) :
    List (LmbProperty w) → Option (BitVec w × Lmb w)
  | [] => some (0, lmb)
  | r :: rs =>
    match probeRegion lmb.reserved size align maxAddr r with
    | none => allocLoop lmb size align maxAddr rs
    | some base => takePlace lmb base (lmbAlignUp size align)

/-- `__lmb_alloc_base` -/
def lmbAllocBase (lmb : Lmb w) (size align maxAddr : BitVec w) : Option (BitVec w × Lmb w) :=
  allocLoop lmb size align maxAddr lmb.memory.entries.reverse

/-! ## Alignment -/

section Align

variable {align : BitVec w} {k : Nat}

theorem lmbAlignDown_eq (h : align.toNat = 2 ^ k) (addr : BitVec w) :
    (lmbAlignDown addr align).toNat = addr.toNat / 2 ^ k * 2 ^ k := by
  have hmask : (align - 1).toNat = 2 ^ k - 1 := by
    have hlt := align.isLt
    have hpos := Nat.two_pow_pos k
    have hone : (1 : BitVec w).toNat = 1 % 2 ^ w := BitVec.toNat_ofNat ..
    rcases Nat.lt_or_ge 1 (2 ^ w) with hw | hw
    · rw [Nat.mod_eq_of_lt hw] at hone
      rw [BitVec.toNat_sub_of_le (by rw [BitVec.le_def]; omega)]
      omega
    · have := (align - 1).isLt
      omega
  refine Nat.eq_of_testBit_eq fun i => ?_
  rw [lmbAlignDown, BitVec.toNat_and, Nat.testBit_and, BitVec.testBit_toNat, BitVec.testBit_toNat,
    BitVec.getLsbD_not, ← BitVec.testBit_toNat (align - 1), hmask, Nat.testBit_two_pow_sub_one,
    Nat.testBit_mul_two_pow, Nat.testBit_div_two_pow]
  by_cases hi : k ≤ i
  · rw [Nat.sub_add_cancel hi, BitVec.testBit_toNat, decide_eq_false (Nat.not_lt.mpr hi),
      decide_eq_true hi, Bool.not_false, Bool.and_true, Bool.true_and]
    by_cases hw : i < w
    · rw [decide_eq_true hw, Bool.and_true]
    · rw [BitVec.getLsbD_of_ge _ _ (Nat.not_lt.mp hw), Bool.false_and]
  · rw [decide_eq_true (Nat.not_le.mp hi), decide_eq_false hi, Bool.not_true, Bool.and_false,
      Bool.and_false, Bool.false_and]

theorem dvd_lmbAlignDown (h : align.toNat = 2 ^ k) (addr : BitVec w) :
    align.toNat ∣ (lmbAlignDown addr align).toNat := by
  rw [lmbAlignDown_eq h, h]
  exact Nat.dvd_mul_left _ _

theorem le_lmbAlignDown (h : align.toNat = 2 ^ k) {b addr : BitVec w}
    (hb : align.toNat ∣ b.toNat) (hle : b.toNat ≤ addr.toNat) :
    b.toNat ≤ (lmbAlignDown addr align).toNat := by
  rw [h] at hb
  rw [lmbAlignDown_eq h]
  calc b.toNat = b.toNat / 2 ^ k * 2 ^ k := (Nat.div_mul_cancel hb).symm
    _ ≤ addr.toNat / 2 ^ k * 2 ^ k := Nat.mul_le_mul_right _ (Nat.div_le_div_right hle)

end Align

/-! ## The search in a region -/

/-- A place at or below `start` where the search sees no reserved region.  When the start
reaches over the end of the address space, the search ends there. -/
structure SeenFrom (reserved : LmbRegion w) (size align lmbbase start b : BitVec w) : Prop where
  le_start : b.toNat ≤ start.toNat
  reach : b = start ∨ start.toNat + size.toNat ≤ 2 ^ w
  ne_zero : b ≠ 0
  inside : lmbbase.toNat ≤ b.toNat
  aligned : align.toNat ∣ b.toNat
  free : lmbOverlapsRegion reserved b size = none

section Probe

variable {reserved : LmbRegion w} {size align lmbbase start b : BitVec w} {r : LmbProperty w}
  {k : Nat}

theorem toNat_add_cases (x y : BitVec w) :
    x.toNat + y.toNat < 2 ^ w ∧ (x + y).toNat = x.toNat + y.toNat ∨
      2 ^ w ≤ x.toNat + y.toNat ∧ (x + y).toNat + 2 ^ w = x.toNat + y.toNat := by
  have hx := x.isLt
  have hy := y.isLt
  rw [BitVec.toNat_add]
  rcases Nat.lt_or_ge (x.toNat + y.toNat) (2 ^ w) with h | h
  · exact .inl ⟨h, Nat.mod_eq_of_lt h⟩
  · rw [Nat.mod_eq_sub_mod h, Nat.mod_eq_of_lt (by omega)]
    omega

/-- A place that the search passes by does not reach over the end. -/
theorem passed_lt (h : lmbAddrsOverlap start size r.base r.size = true) (hr : ¬ r.base < size) :
    start.toNat + size.toNat < 2 ^ w := by
  have hbelow := (lmbAddrsOverlap_iff.mp h).2
  have hsize : size.toNat ≤ r.base.toNat := Nat.le_of_not_lt hr
  have := start.isLt
  rcases toNat_add_cases start size with hsum | hsum <;> omega

theorem probe_found (halign : align.toNat = 2 ^ k) (hstart : align.toNat ∣ start.toNat)
    (h : probe reserved size align lmbbase start = some b) :
    SeenFrom reserved size align lmbbase start b := by
  fun_induction probe reserved size align lmbbase start with
  | case1 start hlive hfree =>
    cases h
    exact ⟨Nat.le_refl _, .inl rfl, hlive.1, hlive.2, hstart, hfree⟩
  | case2 => cases h
  | case3 start hlive r hover hr ih =>
    have hover := (lmbOverlapsRegion_eq_some hover).2
    have hseen := ih (dvd_lmbAlignDown halign _) h
    have hnext : (lmbAlignDown (r.base - size) align).toNat < start.toNat := next_lt hover hr
    have hpassed := passed_lt hover hr
    exact { hseen with
      le_start := hseen.le_start.trans hnext.le
      reach := .inr hpassed.le }
  | case4 => cases h

/-- Whatever is seen below a reserved region that the search runs into is below its next
place. -/
theorem SeenFrom.overlap (hseen : SeenFrom reserved size align lmbbase start b)
    (hover : lmbOverlapsRegion reserved start size = some r) :
    b.toNat + size.toNat ≤ r.base.toNat := by
  obtain ⟨hmem, hover⟩ := lmbOverlapsRegion_eq_some hover
  obtain ⟨hstop, hbase⟩ := lmbAddrsOverlap_iff.mp hover
  have hne : b ≠ start := by
    rintro rfl
    exact List.find?_eq_none.mp hseen.free r hmem hover
  have hreach := hseen.reach.resolve_left hne
  have hle := hseen.le_start
  have hnot : ¬ (b.toNat < (r.base + r.size).toNat ∧ r.base.toNat < (b + size).toNat) := by
    intro h
    exact List.find?_eq_none.mp hseen.free r hmem (lmbAddrsOverlap_iff.mpr h)
  have hlt : b.toNat ≠ start.toNat := fun h => hne (BitVec.eq_of_toNat_eq h)
  rcases toNat_add_cases b size with hsum | hsum <;> omega

theorem probe_greatest (halign : align.toNat = 2 ^ k)
    (hseen : SeenFrom reserved size align lmbbase start b) :
    ∃ c, probe reserved size align lmbbase start = some c ∧ b.toNat ≤ c.toNat := by
  fun_induction probe reserved size align lmbbase start with
  | case1 start hlive hfree => exact ⟨start, rfl, hseen.le_start⟩
  | case2 start hlive r hover hr =>
    have hfits := hseen.overlap hover
    have hr : r.base.toNat < size.toNat := hr
    omega
  | case3 start hlive r hover hr ih =>
    have hfits := hseen.overlap hover
    have hsize : size.toNat ≤ r.base.toNat := Nat.le_of_not_lt hr
    have hsub : (r.base - size).toNat = r.base.toNat - size.toNat := BitVec.toNat_sub_of_le hsize
    have hdown := lmbAlignDown_le (r.base - size) align
    have hbase := r.base.isLt
    exact ih { hseen with
      le_start := le_lmbAlignDown halign hseen.aligned (by omega)
      reach := .inr (by omega) }
  | case4 start hlive =>
    refine absurd ⟨?_, hseen.inside.trans hseen.le_start⟩ hlive
    rintro rfl
    refine hseen.ne_zero (BitVec.eq_of_toNat_eq ?_)
    have := hseen.le_start
    simpa using this

end Probe

/-! ## The walk over the regions -/

/-- A place of the region where the search sees no reserved region. -/
def Seen (lmb : Lmb w) (size align maxAddr : BitVec w) (m : LmbProperty w) (b : BitVec w) : Prop :=
  ∃ start, firstBase size align maxAddr m = some start ∧
    SeenFrom lmb.reserved size align m.base start b

/-- The last memory region that has such a place. -/
def LastSeen (lmb : Lmb w) (size align maxAddr : BitVec w) (m : LmbProperty w) : Prop :=
  ∃ below above, lmb.memory.entries = below ++ m :: above ∧
    (∃ b, Seen lmb size align maxAddr m b) ∧
    ∀ m' ∈ above, ∀ b, ¬ Seen lmb size align maxAddr m' b

/-- The greatest seen place of the region. -/
def Greatest (lmb : Lmb w) (size align maxAddr : BitVec w) (m : LmbProperty w) (b : BitVec w) :
    Prop :=
  Seen lmb size align maxAddr m b ∧
    ∀ c, Seen lmb size align maxAddr m c → c.toNat ≤ b.toNat

section Walk

variable {lmb : Lmb w} {size align maxAddr b : BitVec w} {m : LmbProperty w} {k : Nat}

theorem dvd_firstBase (halign : align.toNat = 2 ^ k) {start : BitVec w}
    (h : firstBase size align maxAddr m = some start) : align.toNat ∣ start.toNat := by
  unfold firstBase at h
  split at h
  · cases h
  · split at h
    · cases h
      exact dvd_lmbAlignDown halign _
    · split at h
      · cases h
        exact dvd_lmbAlignDown halign _
      · cases h

theorem probeRegion_eq_none (halign : align.toNat = 2 ^ k)
    (h : probeRegion lmb.reserved size align maxAddr m = none) :
    ∀ b, ¬ Seen lmb size align maxAddr m b := by
  rintro b ⟨start, hstart, hseen⟩
  obtain ⟨c, hc, -⟩ := probe_greatest halign hseen
  rw [probeRegion, hstart, Option.bind_some, hc] at h
  cases h

theorem probeRegion_eq_some (halign : align.toNat = 2 ^ k)
    (h : probeRegion lmb.reserved size align maxAddr m = some b) :
    Greatest lmb size align maxAddr m b := by
  obtain ⟨start, hstart, hprobe⟩ := Option.bind_eq_some_iff.mp h
  refine ⟨⟨start, hstart, probe_found halign (dvd_firstBase halign hstart) hprobe⟩, ?_⟩
  rintro c ⟨start', hstart', hseen⟩
  obtain rfl : start = start' := by simpa [hstart] using hstart'
  obtain ⟨b', hb', hle⟩ := probe_greatest halign hseen
  obtain rfl : b = b' := by simpa [hprobe] using hb'
  exact hle

theorem takePlace_eq_some {lmb' : Lmb w} {base : BitVec w} :
    takePlace lmb b size = some (base, lmb') ↔
      ∃ rc reserved, lmbAddRegion lmb.reserved b size = some (rc, reserved) ∧
        base = (if rc < 0 then 0 else b) ∧ lmb' = { lmb with reserved := reserved } := by
  unfold takePlace
  cases lmbAddRegion lmb.reserved b size with
  | none => simp
  | some p => cases p with | mk rc reserved => grind

/-- The place comes from the first region of the list that has one. -/
theorem allocLoop_cases (lmb : Lmb w) (size maxAddr : BitVec w) (halign : align.toNat = 2 ^ k)
    (ms : List (LmbProperty w)) :
    (∀ m ∈ ms, ∀ b, ¬ Seen lmb size align maxAddr m b) ∧
        allocLoop lmb size align maxAddr ms = some (0, lmb) ∨
      ∃ front m back b, ms = front ++ m :: back ∧
        (∀ m' ∈ front, ∀ c, ¬ Seen lmb size align maxAddr m' c) ∧
        Greatest lmb size align maxAddr m b ∧
        allocLoop lmb size align maxAddr ms = takePlace lmb b (lmbAlignUp size align) := by
  induction ms with
  | nil => exact .inl ⟨by simp, rfl⟩
  | cons m ms ih =>
    rw [allocLoop]
    cases hprobe : probeRegion lmb.reserved size align maxAddr m with
    | some b =>
      exact .inr ⟨[], m, ms, b, rfl, by simp, probeRegion_eq_some halign hprobe, rfl⟩
    | none =>
      have hnone := probeRegion_eq_none halign hprobe
      rcases ih with ⟨hms, hloop⟩ | ⟨front, m₁, back, b, rfl, hfront, hb, hloop⟩
      · exact .inl ⟨List.forall_mem_cons.mpr ⟨hnone, hms⟩, hloop⟩
      · exact .inr ⟨m :: front, m₁, back, b, rfl, List.forall_mem_cons.mpr ⟨hnone, hfront⟩, hb,
          hloop⟩

theorem LastSeen.eq_or_mem {below above below' above' : List (LmbProperty w)} {m m' : LmbProperty w}
    (h : below ++ m :: above = below' ++ m' :: above') : m = m' ∨ m ∈ above' ∨ m' ∈ above := by
  rcases List.append_eq_append_iff.mp h with ⟨a, -, ha⟩ | ⟨a, -, ha⟩
  all_goals cases a <;> grind

theorem LastSeen.unique {m' : LmbProperty w} (h : LastSeen lmb size align maxAddr m)
    (h' : LastSeen lmb size align maxAddr m') : m = m' := by
  obtain ⟨below, above, hentries, ⟨b, hb⟩, habove⟩ := h
  obtain ⟨below', above', hentries', ⟨b', hb'⟩, habove'⟩ := h'
  rcases LastSeen.eq_or_mem (hentries.symm.trans hentries') with heq | hmem | hmem
  · exact heq
  · exact absurd hb (habove' m hmem b)
  · exact absurd hb' (habove m' hmem b')

/-- What the call does: it takes the greatest seen place of the last region with one. -/
theorem lmbAllocBase_cases (lmb : Lmb w) (size maxAddr : BitVec w)
    (halign : align.toNat = 2 ^ k) :
    (∀ m, ¬ LastSeen lmb size align maxAddr m) ∧
        lmbAllocBase lmb size align maxAddr = some (0, lmb) ∨
      ∃ m b, LastSeen lmb size align maxAddr m ∧ Greatest lmb size align maxAddr m b ∧
        lmbAllocBase lmb size align maxAddr = takePlace lmb b (lmbAlignUp size align) := by
  rw [lmbAllocBase]
  rcases allocLoop_cases lmb size maxAddr halign lmb.memory.entries.reverse with
    ⟨hnone, hloop⟩ | ⟨front, m, back, b, hms, hfront, hb, hloop⟩
  · refine .inl ⟨?_, hloop⟩
    rintro m ⟨below, above, hentries, ⟨b, hb⟩, -⟩
    exact hnone m (by simp [hentries]) b hb
  · refine .inr ⟨m, b, ⟨back.reverse, front.reverse, ?_, ⟨b, hb.1⟩, ?_⟩, hb, hloop⟩
    · rw [← List.reverse_reverse lmb.memory.entries, hms]
      simp
    · simpa using hfront

end Walk

/-! ## Soundness -/

/-- The range from `base` on may be given to a caller. -/
structure PlacedRight (lmb : Lmb w) (size align maxAddr base : BitVec w) : Prop where
  aligned : align.toNat ∣ base.toNat
  inside : ∃ m ∈ lmb.memory.entries, m.lo ≤ base.toNat ∧ base.toNat + size.toNat ≤ m.hi
  apart : ∀ r ∈ lmb.reserved.entries,
    Disjoint (Set.Ico base.toNat (base.toNat + size.toNat)) r.addresses
  below : maxAddr ≠ 0 → base.toNat + size.toNat ≤ maxAddr.toNat

/-- Nothing wraps in the search of the region.  The limit leaves room for the size; below a
limit, the sum of base and size is not the end of the address space, or the seen places keep
to the limit by themselves; no reserved region that ends there is in the way of a seen place;
and a seen place that ends there has no reserved address. -/
structure SearchOk (lmb : Lmb w) (size align maxAddr : BitVec w) (m : LmbProperty w) : Prop where
  limit : maxAddr ≠ 0 → size.toNat ≤ maxAddr.toNat
  top : maxAddr ≠ 0 → m.hi = 2 ^ w →
    ∀ b, Seen lmb size align maxAddr m b → b.toNat + size.toNat ≤ maxAddr.toNat
  hidden : ∀ r ∈ lmb.reserved.entries, r.hi = 2 ^ w →
    ∀ b, Seen lmb size align maxAddr m b → b.toNat + size.toNat ≤ r.lo
  blind : ∀ b, Seen lmb size align maxAddr m b → b.toNat + size.toNat = 2 ^ w →
    ∀ r ∈ lmb.reserved.entries, Disjoint (Set.Ico b.toNat (2 ^ w)) r.addresses

/-- The table of reserved regions does not take the greatest seen place. -/
def Refused (lmb : Lmb w) (size align maxAddr : BitVec w) (m : LmbProperty w) : Prop :=
  ∀ b, Greatest lmb size align maxAddr m b → ∀ rc reserved,
    lmbAddRegion lmb.reserved b (lmbAlignUp size align) = some (rc, reserved) → rc < 0

section Sound

variable {lmb : Lmb w} {size align maxAddr b start : BitVec w} {m r : LmbProperty w} {k : Nat}

/-- The sum of base and size, as the code has it. -/
theorem toNat_stop_cases (h : m.hi ≤ 2 ^ w) :
    m.hi < 2 ^ w ∧ (m.base + m.size).toNat = m.hi ∨
      m.hi = 2 ^ w ∧ (m.base + m.size).toNat = 0 := by
  have hhi : m.hi = m.base.toNat + m.size.toNat := rfl
  rcases toNat_add_cases m.base m.size with hsum | hsum <;> omega

theorem toNat_sub_of_stop {x : BitVec w} {n : Nat}
    (h : n < 2 ^ w ∧ x.toNat = n ∨ n = 2 ^ w ∧ x.toNat = 0) (hsize : 0 < size.toNat)
    (hn : size.toNat ≤ n) : (x - size).toNat = n - size.toNat := by
  rw [BitVec.toNat_sub]
  rcases h with ⟨hlt, hx⟩ | ⟨rfl, hx⟩
  · have hsum : 2 ^ w - size.toNat + x.toNat = n - size.toNat + 2 ^ w := by omega
    rw [hsum, Nat.add_mod_right]
    exact Nat.mod_eq_of_lt (by omega)
  · rw [hx, Nat.add_zero]
    exact Nat.mod_eq_of_lt (by omega)

/-- Where the search starts, unless the limit is too small for the size. -/
theorem firstBase_le (h : firstBase size align maxAddr m = some start) (hhi : m.hi ≤ 2 ^ w)
    (hsize : 0 < size.toNat) (hlimit : maxAddr ≠ 0 → size.toNat ≤ maxAddr.toNat) :
    start.toNat + size.toNat ≤ m.hi ∧
      (maxAddr ≠ 0 → m.hi < 2 ^ w → start.toNat + size.toNat ≤ maxAddr.toNat) := by
  have hmhi : m.hi = m.base.toNat + m.size.toNat := rfl
  have hstop := toNat_stop_cases hhi
  unfold firstBase at h
  split at h
  · cases h
  · rename_i hfits
    have hfits : size.toNat ≤ m.size.toNat := Nat.le_of_not_lt hfits
    have hsub := toNat_sub_of_stop hstop hsize (by omega)
    split at h
    · rename_i hmax
      cases h
      have hdown := lmbAlignDown_le (m.base + m.size - size) align
      exact ⟨by omega, fun hne => absurd hmax hne⟩
    · rename_i hmax
      have hlimit := hlimit hmax
      split at h
      · cases h
        split
        · rename_i hlt
          have hdown := lmbAlignDown_le (m.base + m.size - size) align
          have hlt : (m.base + m.size).toNat < maxAddr.toNat := hlt
          exact ⟨by omega, fun _ htop => by omega⟩
        · rename_i hge
          have hdown := lmbAlignDown_le (maxAddr - size) align
          have hge : maxAddr.toNat ≤ (m.base + m.size).toNat := Nat.le_of_not_lt hge
          have hsub := BitVec.toNat_sub_of_le hlimit
          -- A sum of 0 would be below the limit, so the region ends before the last address.
          exact ⟨by omega, fun _ _ => by omega⟩
      · cases h

theorem Seen.end_le (h : Seen lmb size align maxAddr m b) (hhi : m.hi ≤ 2 ^ w)
    (hsize : 0 < size.toNat) (hlimit : maxAddr ≠ 0 → size.toNat ≤ maxAddr.toNat) :
    b.toNat + size.toNat ≤ m.hi ∧
      (maxAddr ≠ 0 → m.hi < 2 ^ w → b.toNat + size.toNat ≤ maxAddr.toNat) := by
  obtain ⟨start, hstart, hseen⟩ := h
  have hle := hseen.le_start
  obtain ⟨hinside, hbelow⟩ := firstBase_le hstart hhi hsize hlimit
  refine ⟨by omega, fun hmax htop => ?_⟩
  have := hbelow hmax htop
  omega

/-- Where nothing wraps, a seen place has no address of the reserved region. -/
theorem Seen.apart (h : Seen lmb size align maxAddr m b) (hr : r ∈ lmb.reserved.entries)
    (hhi : r.hi < 2 ^ w) (hend : b.toNat + size.toNat < 2 ^ w) :
    Disjoint (Set.Ico b.toNat (b.toNat + size.toNat)) r.addresses := by
  obtain ⟨start, hstart, hseen⟩ := h
  have hfree := List.find?_eq_none.mp hseen.free r hr
  rw [lmbAddrsOverlap_iff, toNat_stop hhi, BitVec.toNat_add, Nat.mod_eq_of_lt hend] at hfree
  have hlo : r.lo = r.base.toNat := rfl
  rw [addresses, Set.Ico_disjoint_Ico]
  omega

theorem Seen.placedRight (h : Seen lmb size align maxAddr m b) (hm : m ∈ lmb.memory.entries)
    (hmemory : ∀ m ∈ lmb.memory.entries, m.hi ≤ 2 ^ w)
    (hreserved : ∀ r ∈ lmb.reserved.entries, r.hi ≤ 2 ^ w) (hsize : 0 < size.toNat)
    (hok : SearchOk lmb size align maxAddr m) : PlacedRight lmb size align maxAddr b := by
  obtain ⟨hend, hbelow⟩ := h.end_le (hmemory m hm) hsize hok.limit
  refine ⟨?_, ⟨m, hm, ?_, hend⟩, ?_, ?_⟩
  · obtain ⟨start, -, hseen⟩ := h
    exact hseen.aligned
  · obtain ⟨start, -, hseen⟩ := h
    exact hseen.inside
  · intro r hr
    rcases (hreserved r hr).lt_or_eq with hrhi | hrhi
    · rcases (hend.trans (hmemory m hm)).lt_or_eq with hlt | heq
      · exact h.apart hr hrhi hlt
      · rw [heq]
        exact hok.blind b h heq r hr
    · have hle := hok.hidden r hr hrhi b h
      rw [addresses, Set.Ico_disjoint_Ico]
      omega
  · intro hmax
    rcases (hmemory m hm).lt_or_eq with htop | htop
    · exact hbelow hmax htop
    · exact hok.top hmax htop b h

theorem PlacedRight.searchOk (h : PlacedRight lmb size align maxAddr b)
    (hb : Greatest lmb size align maxAddr m b)
    (hmemory : ∀ m ∈ lmb.memory.entries, m.hi ≤ 2 ^ w) (hsize : 0 < size.toNat) :
    SearchOk lmb size align maxAddr m := by
  obtain ⟨m', hm', -, hend⟩ := h.inside
  have htop := hmemory m' hm'
  refine ⟨?_, ?_, ?_, ?_⟩
  · intro hmax
    have := h.below hmax
    omega
  · intro hmax _ c hc
    have hle := hb.2 c hc
    have := h.below hmax
    omega
  · intro r hr hrhi c hc
    have hle := hb.2 c hc
    have hdisj := h.apart r hr
    have hlo : r.lo < 2 ^ w := r.base.isLt
    have hlt := b.isLt
    rw [addresses, Set.Ico_disjoint_Ico] at hdisj
    omega
  · intro c hc hcend r hr
    have hle := hb.2 c hc
    have hcb : c.toNat = b.toNat := by omega
    have hdisj := h.apart r hr
    rwa [← hcb, hcend] at hdisj

/-- **Soundness of `__lmb_alloc_base`**, and exactly when it holds. -/
theorem lmb_alloc_base_sound_iff (lmb : Lmb w) (size align maxAddr : BitVec w) (k : Nat)
    (halign : align.toNat = 2 ^ k) (hsize : 0 < size.toNat)
    (hmemory : ∀ m ∈ lmb.memory.entries, m.hi ≤ 2 ^ w)
    (hreserved : ∀ r ∈ lmb.reserved.entries, r.hi ≤ 2 ^ w) :
    (∀ base lmb', lmbAllocBase lmb size align maxAddr = some (base, lmb') → base ≠ 0 →
        PlacedRight lmb size align maxAddr base) ↔
      ∀ m, LastSeen lmb size align maxAddr m →
        Refused lmb size align maxAddr m ∨ SearchOk lmb size align maxAddr m := by
  rcases lmbAllocBase_cases lmb size maxAddr halign with
    ⟨hnone, hcall⟩ | ⟨m, b, hlast, hb, hcall⟩
  · refine ⟨fun _ m hm => absurd hm (hnone m), ?_⟩
    intro _ base lmb' hbase hne
    rw [hcall] at hbase
    cases hbase
    exact absurd rfl hne
  · constructor
    · intro hsound m' hlast'
      obtain rfl := hlast.unique hlast'
      by_cases hrefused : Refused lmb size align maxAddr m
      · exact .inl hrefused
      · unfold Refused at hrefused
        push Not at hrefused
        obtain ⟨b', hb', rc, reserved, hadd, hrc⟩ := hrefused
        have hsame : b' = b :=
          BitVec.eq_of_toNat_eq (le_antisymm (hb.2 b' hb'.1) (hb'.2 b hb.1))
        subst hsame
        have hne : b' ≠ 0 := by
          obtain ⟨start, -, hseen⟩ := hb.1
          exact hseen.ne_zero
        have htaken : lmbAllocBase lmb size align maxAddr =
            some (b', { lmb with reserved := reserved }) := by
          rw [hcall, takePlace_eq_some]
          exact ⟨rc, reserved, hadd, (if_neg (Int.not_lt.mpr hrc)).symm, rfl⟩
        exact .inr ((hsound b' _ htaken hne).searchOk hb hmemory hsize)
    · intro hok base lmb' hbase hne
      rw [hcall, takePlace_eq_some] at hbase
      obtain ⟨rc, reserved, hadd, hrc, -⟩ := hbase
      by_cases hneg : rc < 0
      · rw [if_pos hneg] at hrc
        exact absurd hrc hne
      · rw [if_neg hneg] at hrc
        subst hrc
        rcases hok m hlast with hrefused | hok
        · exact absurd (hrefused base hb rc reserved hadd) hneg
        · obtain ⟨below, above, hentries, -, -⟩ := hlast
          exact hb.1.placedRight (by simp [hentries]) hmemory hreserved hsize hok

end Sound

/-- A table with one entry. -/
def oneRegion (r : LmbProperty w) : LmbRegion w :=
  ⟨1, r :: List.replicate maxLmbRegions ⟨0, 0⟩, by simp⟩

/-- 64 KiB of memory at 0x1000, nothing reserved. -/
def smallBoard : Lmb 32 := ⟨oneRegion ⟨0x1000, 0x10000⟩, oneRegion ⟨0, 0⟩⟩

/-- A search with one memory region that takes its first place. -/
theorem lmbAllocBase_first {lmb : Lmb w} {size align maxAddr : BitVec w} (m : LmbProperty w)
    (base : BitVec w) (hmemory : lmb.memory.entries = [m])
    (hstart : firstBase size align maxAddr m = some base) (hbase : base ≠ 0 ∧ m.base ≤ base)
    (hfree : lmbOverlapsRegion lmb.reserved base size = none) :
    lmbAllocBase lmb size align maxAddr = takePlace lmb base (lmbAlignUp size align) := by
  have hprobe : probe lmb.reserved size align m.base base = some base := by
    rw [probe, if_pos hbase]
    split
    · rfl
    · rename_i r hr
      rw [hfree] at hr
      cases hr
  rw [lmbAllocBase, hmemory, List.reverse_singleton, allocLoop, probeRegion, hstart,
    Option.bind_some, hprobe]

theorem lmb_alloc_base_sound_anywhere :
    lmbAllocBase smallBoard 0x4000 0x1000 0 =
        some (0xd000, ⟨smallBoard.memory, oneRegion ⟨0xd000, 0x4000⟩⟩) ∧
      PlacedRight smallBoard 0x4000 0x1000 0 0xd000 := by
  have hcall : lmbAllocBase smallBoard 0x4000 0x1000 0 =
      some (0xd000, ⟨smallBoard.memory, oneRegion ⟨0xd000, 0x4000⟩⟩) := by
    rw [lmbAllocBase_first ⟨0x1000, 0x10000⟩ 0xd000 rfl (by decide) (by decide) (by decide)]
    decide
  refine ⟨hcall, (lmb_alloc_base_sound_iff smallBoard 0x4000 0x1000 0 12 rfl (by decide)
    (by decide) (by decide)).mpr (fun m hlast => .inr ?_) _ _ hcall (by decide)⟩
  obtain ⟨below, above, hentries, -, -⟩ := hlast
  obtain rfl : m = ⟨0x1000, 0x10000⟩ := by
    have hm : m ∈ smallBoard.memory.entries := by simp [hentries]
    simpa [smallBoard, oneRegion, LmbRegion.entries] using hm
  have hend {b : BitVec 32} (hb : Seen smallBoard 0x4000 0x1000 0 ⟨0x1000, 0x10000⟩ b) :
      b.toNat + 0x4000 ≤ 0x11000 :=
    (hb.end_le (by decide) (by decide) (fun h => absurd rfl h)).1
  have hlow : ∀ r ∈ smallBoard.reserved.entries, r.hi ≠ 2 ^ 32 := by decide
  refine ⟨fun h => absurd rfl h, fun h => absurd rfl h, fun r hr h => absurd h (hlow r hr), ?_⟩
  intro b hb htop
  have hle := hend hb
  have htop : b.toNat + 0x4000 = 2 ^ 32 := htop
  omega

/-- A limit below the size: the difference wraps, and the place is at the end of the address
space. -/
theorem smallBoard_limit_wraps :
    lmbAllocBase smallBoard 0x4000 0x1000 0x2000 =
      some (0xffffe000, ⟨smallBoard.memory, oneRegion ⟨0xffffe000, 0x4000⟩⟩) := by
  rw [lmbAllocBase_first ⟨0x1000, 0x10000⟩ 0xffffe000 rfl (by decide) (by decide) (by decide)]
  decide

theorem lmb_alloc_base_unsound :
    ¬ ∀ (lmb : Lmb 32) (size align maxAddr : BitVec 32) (k : Nat), align.toNat = 2 ^ k →
      0 < size.toNat → (∀ m ∈ lmb.memory.entries, m.hi ≤ 2 ^ 32) →
      (∀ r ∈ lmb.reserved.entries, r.hi ≤ 2 ^ 32) → ∀ base lmb',
      lmbAllocBase lmb size align maxAddr = some (base, lmb') → base ≠ 0 →
        PlacedRight lmb size align maxAddr base := by
  intro h
  have hright := h smallBoard 0x4000 0x1000 0x2000 12 rfl (by decide) (by decide) (by decide)
    _ _ smallBoard_limit_wraps (by decide)
  have hbelow : 0xffffe000 + 0x4000 ≤ 0x2000 := hright.below (by decide)
  omega

end UBoot.LibGeneric
