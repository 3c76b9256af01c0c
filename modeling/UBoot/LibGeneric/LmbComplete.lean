import UBoot.LibGeneric.LmbAlloc
import UBoot.LibGeneric.LmbFailed

/-!
# Completeness of the allocation

A *fitting* place is an aligned one in a memory region, below the limit, that overlaps no reserved
region (`Fits`).  The search sees every fitting place (`Fits.seen`), so it fails only where there is
none; but it takes the greatest place that it sees in the last region with one.

* `lmb_alloc_base_complete_iff`: the call returns the highest fitting place if and only if nothing
  wraps in the search of that region (`PlaceOk`), no earlier region overlaps it and has a higher
  place, and the table of reserved regions is not an empty one with joined leftovers.
-/

namespace UBoot.LibGeneric

open UBoot.Lib LmbProperty

variable {w : Nat} {t : LmbRegion w} {lmb : Lmb w} {size align maxAddr b c : BitVec w}
  {m r : LmbProperty w} {k : Nat}

/-! ## Room in the table -/

/-- In a table without entries the first two slots do not touch. -/
def StaleApart (t : LmbRegion w) : Prop :=
  t.cnt = 0 → ∀ x ∈ t.slot 0, ∀ y ∈ t.slot 1, adjacency x y = 0

theorem exists_slot {i : Nat} (hi : i ≤ maxLmbRegions) (t : LmbRegion w) :
    ∃ x, t.slot i = some x := by
  have hlt : i < t.region.length := by
    rw [t.length_region]
    omega
  exact ⟨_, List.getElem?_eq_getElem hlt⟩

theorem insertRegion_isSome (hroom : t.cnt ≤ maxLmbRegions) (base size : BitVec w) :
    ∃ t', insertRegion t base size = some t' := by
  obtain ⟨A, h, B, hregion, hlen⟩ : ∃ A h B, t.region = A ++ h :: B ∧ A.length = t.cnt := by
    have hlt : t.cnt < t.region.length := by
      rw [t.length_region]
      omega
    refine ⟨t.region.take t.cnt, t.region[t.cnt], t.region.drop (t.cnt + 1), ?_, ?_⟩
    · rw [← List.drop_eq_getElem_cons hlt, List.take_append_drop]
    · rw [List.length_take]
      omega
  obtain ⟨-, -, t₁, -, -, hloop, -, -⟩ := insertLoop_cut base size hregion
  rw [hlen] at hloop
  obtain ⟨x, hslot⟩ := exists_slot (Nat.zero_le _) t₁
  rw [insertRegion, hloop]
  simp only [Option.bind_eq_bind, Option.bind_some, hslot]
  by_cases hlt : base < x.base
  · rw [if_pos hlt, LmbRegion.put, if_pos (Nat.zero_le _)]
    exact ⟨_, rfl⟩
  · rw [if_neg hlt]
    exact ⟨_, rfl⟩

theorem holds_entries (h : t.cnt ≤ maxLmbRegions) : t.Holds t.entries := by
  refine ⟨?_, t.region.drop t.cnt, (List.take_append_drop _ _).symm⟩
  rw [LmbRegion.entries, List.length_take, t.length_region]
  omega

/-- A call that finds an entry to end its first loop. -/
theorem lmbAddRegion_touching {i : Nat} {x : LmbProperty w} (hroom : t.cnt ≤ maxLmbRegions)
    (hslot : t.slot 0 = some x) (hdummy : ¬ (t.cnt = 1 ∧ x.size = 0))
    (hfind : t.entries.findIdx? (stopsAt r.base r.size) = some i) :
    ∃ rc t', lmbAddRegion t r.base r.size = some (rc, t') ∧ 0 ≤ rc := by
  obtain ⟨pre, e, post, hentries, rfl, -, -⟩ := findIdx?_eq_some hfind
  have hholds := holds_entries hroom
  rw [hentries] at hholds
  rw [lmbAddRegion_of_some hslot hdummy hfind hholds.slot]
  by_cases hsame : e = r
  · exact ⟨0, t, if_pos hsame, le_refl 0⟩
  · obtain ⟨t₁, hput, hholds₁⟩ := hholds.put (grow r e)
    rw [if_neg hsame, hput, Option.bind_some]
    rcases finishAdd_grown (r := r) hholds₁ with ⟨hfinish, -⟩ | ⟨-, -, t', -, -, hfinish, -⟩
    · exact ⟨1, t₁, hfinish, by decide⟩
    · exact ⟨2, t', hfinish, by decide⟩

/-- With room in the table `lmb_add_region` does not fail. -/
theorem lmbAddRegion_room (hroom : t.cnt < maxLmbRegions) (hstale : StaleApart t)
    (r : LmbProperty w) : ∃ rc t', lmbAddRegion t r.base r.size = some (rc, t') ∧ 0 ≤ rc := by
  obtain ⟨x, hslot⟩ := exists_slot (Nat.zero_le _) t
  by_cases hdummy : t.cnt = 1 ∧ x.size = 0
  · obtain ⟨t₁, hput⟩ : ∃ t₁, t.put 0 r = some t₁ := ⟨_, if_pos (Nat.zero_le _)⟩
    refine ⟨0, t₁, ?_, le_refl 0⟩
    rw [lmbAddRegion, hslot]
    simp only [Option.bind_eq_bind, Option.bind_some, if_pos hdummy]
    change (t.put 0 r).bind _ = _
    rw [hput]
    rfl
  · cases hfind : t.entries.findIdx? (stopsAt r.base r.size) with
    | some i => exact lmbAddRegion_touching hroom.le hslot hdummy hfind
    | none =>
      have htouches : touchesNext t t.cnt = some false := by
        rw [touchesNext]
        by_cases hbefore : t.BeforeLast t.cnt
        · have hcnt : t.cnt = 0 := by
            rw [LmbRegion.BeforeLast] at hbefore
            omega
          obtain ⟨y, hnext⟩ := exists_slot (show 1 ≤ maxLmbRegions by decide) t
          have hapart := hstale hcnt x hslot y hnext
          rw [adjacency] at hapart
          rw [if_pos hbefore, hcnt, lmbRegionsAdjacent, hslot, hnext]
          simp only [Option.bind_eq_bind, Option.bind_some, Option.pure_def, hapart,
            bne_self_eq_false]
        · exact if_neg hbefore
      obtain ⟨t', hinsert⟩ := insertRegion_isSome hroom.le r.base r.size
      refine ⟨0, t', ?_, le_refl 0⟩
      rw [lmbAddRegion_of_none hslot hdummy hfind, finishAdd, htouches]
      simp only [Option.bind_eq_bind, Option.bind_some, Bool.false_eq_true, if_false, ne_eq,
        not_true_eq_false, if_neg (Nat.not_le.mpr hroom), ge_iff_le, hinsert, Option.pure_def]

/-- The table without entries, where the first two slots touch: the removal of the second never
ends. -/
theorem lmbAddRegion_stale (h : ¬ StaleApart t) (r : LmbProperty w) :
    lmbAddRegion t r.base r.size = none := by
  unfold StaleApart at h
  push Not at h
  obtain ⟨hcnt, x, hslot, y, hnext, htouch⟩ := h
  have hnone : t.entries.findIdx? (stopsAt r.base r.size) = none := by
    rw [LmbRegion.entries, hcnt]
    rfl
  have hbefore : t.BeforeLast 0 := .inl hcnt
  have htouches : touchesNext t 0 = some true := by
    rw [adjacency] at htouch
    rw [touchesNext, if_pos hbefore, lmbRegionsAdjacent, hslot, hnext]
    simp only [Option.bind_eq_bind, Option.bind_some, Option.pure_def, bne_iff_ne.mpr htouch]
  have hput : t.put 0 ⟨x.base, x.size + y.size⟩ = some _ := if_pos (Nat.zero_le _)
  rw [lmbAddRegion_of_none hslot (fun hd => by omega) hnone, hcnt, finishAdd, htouches]
  simp only [Option.bind_eq_bind, Option.bind_some, if_true]
  rw [lmbCoalesceRegions, hslot, hnext]
  simp only [Option.bind_eq_bind, Option.bind_some, hput]
  rw [lmbRemoveRegion, removeLoop_empty ((put_cnt hput).trans hcnt)]
  rfl

/-! ## Fitting places -/

/-- A place in the region that is aligned, ends below the limit, and overlaps no reserved region. -/
structure Fits (lmb : Lmb w) (size align maxAddr : BitVec w) (m : LmbProperty w) (b : BitVec w) :
    Prop where
  ne_zero : b ≠ 0
  aligned : align.toNat ∣ b.toNat
  inside : m.lo ≤ b.toNat
  end_le : b.toNat + size.toNat ≤ m.hi
  below : maxAddr ≠ 0 → b.toNat + size.toNat ≤ maxAddr.toNat
  apart : ∀ r ∈ lmb.reserved.entries, ¬ (b.toNat < r.hi ∧ r.lo < b.toNat + size.toNat)

/-- The call returns, with the highest fitting place, or 0 where there is none. -/
def AllocatesHighest (lmb : Lmb w) (size align maxAddr : BitVec w) : Prop :=
  ∃ base lmb', lmbAllocBase lmb size align maxAddr = some (base, lmb') ∧
    (base ≠ 0 → ∃ m ∈ lmb.memory.entries, Fits lmb size align maxAddr m base) ∧
    ∀ m ∈ lmb.memory.entries, ∀ c, Fits lmb size align maxAddr m c → c.toNat ≤ base.toNat

/-- The search in a region starts at or above every fitting place. -/
theorem Fits.firstBase_ge (h : Fits lmb size align maxAddr m c) (halign : align.toNat = 2 ^ k)
    (hsize : 0 < size.toNat) (hhi : m.hi ≤ 2 ^ w) :
    ∃ start, firstBase size align maxAddr m = some start ∧ c.toNat ≤ start.toNat ∧
      start.toNat + size.toNat ≤ 2 ^ w := by
  have hmhi : m.hi = m.base.toNat + m.size.toNat := rfl
  have hmlo : m.lo = m.base.toNat := rfl
  have hinside := h.inside
  have hend := h.end_le
  have hstop := toNat_stop_cases hhi
  have hsub := toNat_sub_of_stop hstop hsize (by omega)
  have hfits : ¬ m.size < size := Nat.not_lt.mpr (show size.toNat ≤ m.size.toNat by omega)
  have htop := lmbAlignDown_le (m.base + m.size - size) align
  have hge := le_lmbAlignDown halign h.aligned
    (show c.toNat ≤ (m.base + m.size - size).toNat by omega)
  rw [firstBase, if_neg hfits]
  by_cases hmax : maxAddr = 0
  · exact ⟨_, if_pos hmax, hge, by omega⟩
  · have hbelow := h.below hmax
    have hlow : m.base < maxAddr := show m.base.toNat < maxAddr.toNat by omega
    rw [if_neg hmax, if_pos hlow]
    by_cases hlt : m.base + m.size < maxAddr
    · rw [if_pos hlt]
      exact ⟨_, rfl, hge, by omega⟩
    · have hlimit := maxAddr.isLt
      have hsub' : (maxAddr - size).toNat = maxAddr.toNat - size.toNat :=
        BitVec.toNat_sub_of_le (show size.toNat ≤ maxAddr.toNat by omega)
      have htop' := lmbAlignDown_le (maxAddr - size) align
      rw [if_neg hlt]
      exact ⟨_, rfl, le_lmbAlignDown halign h.aligned (by omega), by omega⟩

/-- **The search sees every fitting place.** -/
theorem Fits.seen (h : Fits lmb size align maxAddr m c) (halign : align.toNat = 2 ^ k)
    (hsize : 0 < size.toNat) (hhi : m.hi ≤ 2 ^ w) : Seen lmb size align maxAddr m c := by
  obtain ⟨start, hstart, hle, hend⟩ := h.firstBase_ge halign hsize hhi
  refine ⟨start, hstart, hle, .inr hend, h.ne_zero, h.inside, h.aligned, ?_⟩
  rw [lmbOverlapsRegion, List.find?_eq_none]
  intro r hr hover
  obtain ⟨hstop, hbase⟩ := lmbAddrsOverlap_iff.mp hover
  refine h.apart r hr ⟨hstop.trans_le ?_, hbase.trans_le ?_⟩
  · rw [BitVec.toNat_add]
    exact Nat.mod_le _ _
  · rw [BitVec.toNat_add]
    exact Nat.mod_le _ _

/-! ## Where nothing wraps -/

/-- Nothing wraps at the place.  In a region that ends with the address space it keeps to the limit;
it is below a reserved region that ends there; and where it ends there itself, the reserved regions
are below it. -/
structure PlaceOk (lmb : Lmb w) (size maxAddr : BitVec w) (m : LmbProperty w) (b : BitVec w) :
    Prop where
  top : maxAddr ≠ 0 → m.hi = 2 ^ w → b.toNat + size.toNat ≤ maxAddr.toNat
  hidden : ∀ r ∈ lmb.reserved.entries, r.hi = 2 ^ w → b.toNat + size.toNat ≤ r.lo
  blind : b.toNat + size.toNat = 2 ^ w → ∀ r ∈ lmb.reserved.entries, r.hi ≤ b.toNat

/-- What is wanted of the last region with a seen place. -/
def CompleteOk (lmb : Lmb w) (size align maxAddr : BitVec w) : Prop :=
  ∀ below m above, lmb.memory.entries = below ++ m :: above →
    (∃ b, Seen lmb size align maxAddr m b) →
    (∀ m' ∈ above, ∀ b, ¬ Seen lmb size align maxAddr m' b) →
    StaleApart lmb.reserved ∧
      (∀ b, Seen lmb size align maxAddr m b → PlaceOk lmb size maxAddr m b) ∧
      ∀ m' ∈ below, ∀ c, Fits lmb size align maxAddr m' c →
        ∃ b, Seen lmb size align maxAddr m b ∧ c.toNat ≤ b.toNat

/-- A seen place at which nothing wraps is a fitting one. -/
theorem Seen.fits (h : Seen lmb size align maxAddr m b) (hhi : m.hi ≤ 2 ^ w)
    (hreserved : ∀ r ∈ lmb.reserved.entries, r.hi ≤ 2 ^ w) (hsize : 0 < size.toNat)
    (hlimit : maxAddr ≠ 0 → size.toNat ≤ maxAddr.toNat) (hok : PlaceOk lmb size maxAddr m b) :
    Fits lmb size align maxAddr m b := by
  obtain ⟨hend, hbelow⟩ := h.end_le hhi hsize hlimit
  obtain ⟨start, hstart, hseen⟩ := h
  refine ⟨hseen.ne_zero, hseen.aligned, hseen.inside, hend, ?_, ?_⟩
  · intro hmax
    rcases hhi.lt_or_eq with htop | htop
    · exact hbelow hmax htop
    · exact hok.top hmax htop
  · rintro r hr ⟨hstop, hbase⟩
    rcases (hreserved r hr).lt_or_eq with hrhi | hrhi
    · rcases (hend.trans hhi).lt_or_eq with hlt | heq
      · have hfree := List.find?_eq_none.mp hseen.free r hr
        rw [lmbAddrsOverlap_iff, toNat_stop hrhi, BitVec.toNat_add, Nat.mod_eq_of_lt hlt] at hfree
        exact hfree ⟨hstop, hbase⟩
      · have := hok.blind heq r hr
        omega
    · have := hok.hidden r hr hrhi
      omega

/-- Where a fitting place is, nothing wraps at the places below it. -/
theorem Fits.placeOk {m' : LmbProperty w} (h : Fits lmb size align maxAddr m' b)
    (hhi : m'.hi ≤ 2 ^ w) (hle : c.toNat ≤ b.toNat) : PlaceOk lmb size maxAddr m c := by
  have hend := h.end_le
  refine ⟨fun hmax _ => ?_, fun r hr hrhi => ?_, fun hcend r hr => ?_⟩
  · have := h.below hmax
    omega
  · have hapart := h.apart r hr
    have := b.isLt
    omega
  · have hapart := h.apart r hr
    have hlo : r.lo < 2 ^ w := r.base.isLt
    omega

theorem takePlace_eq_none (h : ¬ StaleApart lmb.reserved) (b size : BitVec w) :
    takePlace lmb b size = none := by
  have hadd := lmbAddRegion_stale h ⟨b, size⟩
  rw [takePlace]
  simp only [Option.bind_eq_bind, hadd, Option.bind_none]

theorem takePlace_room (hroom : lmb.reserved.cnt < maxLmbRegions) (h : StaleApart lmb.reserved)
    (b size : BitVec w) : ∃ lmb', takePlace lmb b size = some (b, lmb') := by
  obtain ⟨rc, t', hadd, hrc⟩ := lmbAddRegion_room hroom h ⟨b, size⟩
  exact ⟨_, takePlace_eq_some.mpr ⟨rc, t', hadd, (if_neg (not_lt.mpr hrc)).symm, rfl⟩⟩

/-- **Completeness of `__lmb_alloc_base`**, and exactly when it holds. -/
theorem lmb_alloc_base_complete_iff (lmb : Lmb w) (size align maxAddr : BitVec w) (k : Nat)
    (halign : align.toNat = 2 ^ k) (hsize : 0 < size.toNat)
    (hlimit : maxAddr ≠ 0 → size.toNat ≤ maxAddr.toNat)
    (hmemory : ∀ m ∈ lmb.memory.entries, m.hi ≤ 2 ^ w)
    (hreserved : ∀ r ∈ lmb.reserved.entries, r.hi ≤ 2 ^ w)
    (hroom : lmb.reserved.cnt < maxLmbRegions) :
    AllocatesHighest lmb size align maxAddr ↔ CompleteOk lmb size align maxAddr := by
  have hseen : ∀ m ∈ lmb.memory.entries, ∀ c, Fits lmb size align maxAddr m c →
      Seen lmb size align maxAddr m c := fun m hm c hc => hc.seen halign hsize (hmemory m hm)
  rcases allocLoop_cases lmb size maxAddr halign lmb.memory.entries.reverse with
    ⟨hnone, hcall⟩ | ⟨front, m, back, b, hms, hfront, hb, hcall⟩
  · have hnone' : ∀ m ∈ lmb.memory.entries, ∀ b, ¬ Seen lmb size align maxAddr m b := fun m hm =>
      hnone m (List.mem_reverse.mpr hm)
    constructor
    · intro _ below m above hentries hm _
      obtain ⟨b, hb⟩ := hm
      exact absurd hb (hnone' m (by simp [hentries]) b)
    · intro _
      refine ⟨0, lmb, hcall, fun h => absurd rfl h, fun m hm c hc => ?_⟩
      exact absurd (hseen m hm c hc) (hnone' m hm c)
  · have hentries : lmb.memory.entries = back.reverse ++ m :: front.reverse := by
      rw [← List.reverse_reverse lmb.memory.entries, hms]
      simp
    have hm : m ∈ lmb.memory.entries := by simp [hentries]
    have habove : ∀ m' ∈ front.reverse, ∀ c, ¬ Seen lmb size align maxAddr m' c := fun m' hm' =>
      hfront m' (List.mem_reverse.mp hm')
    have hcall' : lmbAllocBase lmb size align maxAddr =
        takePlace lmb b (lmbAlignUp size align) := hcall
    have hne : b ≠ 0 := by
      obtain ⟨start, -, hfrom⟩ := hb.1
      exact hfrom.ne_zero
    constructor
    · rintro ⟨base, lmb', hbase, hfits, hhighest⟩ below m' above hentries' hm' habove'
      rw [hcall'] at hbase
      have hstale : StaleApart lmb.reserved := by
        by_contra hstale
        rw [takePlace_eq_none hstale] at hbase
        cases hbase
      obtain ⟨lmb₁, htake⟩ := takePlace_room hroom hstale b (lmbAlignUp size align)
      rw [htake] at hbase
      cases hbase
      obtain ⟨m₁, hm₁, hfit⟩ := hfits hne
      have hlast : LastSeen lmb size align maxAddr m := ⟨_, _, hentries, ⟨b, hb.1⟩, habove⟩
      obtain rfl := hlast.unique ⟨below, above, hentries', hm', habove'⟩
      refine ⟨hstale, fun c hc => hfit.placeOk (hmemory m₁ hm₁) (hb.2 c hc), fun m₂ hm₂ c hc => ?_⟩
      exact ⟨b, hb.1, hhighest m₂ (by simp [hentries', hm₂]) c hc⟩
    · intro hok
      obtain ⟨hstale, hplace, hbelow⟩ := hok _ m _ hentries ⟨b, hb.1⟩ habove
      obtain ⟨lmb', htake⟩ := takePlace_room hroom hstale b (lmbAlignUp size align)
      refine ⟨b, lmb', hcall'.trans htake, fun _ => ⟨m, hm, ?_⟩, fun m' hm' c hc => ?_⟩
      · exact hb.1.fits (hmemory m hm) hreserved hsize hlimit (hplace b hb.1)
      · have hc' := hseen m' hm' c hc
        rw [hentries, List.mem_append, List.mem_cons] at hm'
        rcases hm' with hm' | rfl | hm'
        · obtain ⟨b', hb', hle⟩ := hbelow m' hm' c hc
          exact hle.trans (hb.2 b' hb')
        · exact hb.2 c hc'
        · exact absurd hc' (habove m' hm' c)

/-- Memory regions in order that do not overlap, with no region at the end of the address space. -/
theorem completeOk_of_gapped (hmemory : ∀ m ∈ lmb.memory.entries, m.hi < 2 ^ w)
    (hreserved : ∀ r ∈ lmb.reserved.entries, r.hi < 2 ^ w) (hsize : 0 < size.toNat)
    (hlimit : maxAddr ≠ 0 → size.toNat ≤ maxAddr.toNat)
    (hsorted : lmb.memory.entries.Pairwise fun x y => x.hi ≤ y.lo) (hcnt : lmb.reserved.cnt ≠ 0) :
    CompleteOk lmb size align maxAddr := by
  intro below m above hentries hm _
  obtain ⟨b, hb⟩ := hm
  have hhi := hmemory m (by simp [hentries])
  refine ⟨fun hzero => absurd hzero hcnt, fun c hc => ⟨fun _ htop => ?_, fun r hr htop => ?_, ?_⟩,
    fun m' hm' c hc => ⟨b, hb, ?_⟩⟩
  · exact absurd htop hhi.ne
  · exact absurd htop (hreserved r hr).ne
  · intro hend
    have := (hc.end_le hhi.le hsize hlimit).1
    omega
  · rw [hentries] at hsorted
    have hle : m'.hi ≤ m.lo := (List.pairwise_append.mp hsorted).2.2 m' hm' m List.mem_cons_self
    have hend := hc.end_le
    obtain ⟨start, -, hfrom⟩ := hb
    have hlo : m.lo ≤ b.toNat := hfrom.inside
    omega

/-- The highest place of 16 KiB. -/
theorem lmb_alloc_base_complete_anywhere : AllocatesHighest smallBoard 0x4000 0x1000 0 :=
  (lmb_alloc_base_complete_iff smallBoard 0x4000 0x1000 0 12 rfl (by decide)
    (fun h => absurd rfl h) (by decide) (by decide) (by decide)).mpr
    (completeOk_of_gapped (by decide) (by decide) (by decide) (fun h => absurd rfl h) (by decide)
      (by decide))

/-- 256 MiB of memory at the end of the address space, and the last 64 KiB of it reserved. -/
def topBoard : Lmb 32 := ⟨oneRegion ⟨0xf0000000, 0x10000000⟩, oneRegion ⟨0xffff0000, 0x10000⟩⟩

/-- The reserved region at the end is not seen. -/
theorem lmb_alloc_base_incomplete :
    ¬ ∀ (lmb : Lmb 32) (size align maxAddr : BitVec 32) (k : Nat), align.toNat = 2 ^ k →
      0 < size.toNat → (maxAddr ≠ 0 → size.toNat ≤ maxAddr.toNat) →
      (∀ m ∈ lmb.memory.entries, m.hi ≤ 2 ^ 32) → (∀ r ∈ lmb.reserved.entries, r.hi ≤ 2 ^ 32) →
      lmb.memory.entries.Pairwise (fun x y => x.lo ≤ y.lo) → lmb.reserved.cnt < maxLmbRegions →
      AllocatesHighest lmb size align maxAddr := by
  intro h
  obtain ⟨base, lmb', hcall, hfits, -⟩ := h topBoard 0x1000 0x1000 0 12 rfl (by decide)
    (fun h => absurd rfl h) (by decide) (by decide) (by decide) (by decide)
  have htake : (lmbAllocBase topBoard 0x1000 0x1000 0).map Prod.fst = some 0xfffff000 := by
    rw [lmbAllocBase_first ⟨0xf0000000, 0x10000000⟩ 0xfffff000 rfl (by decide) (by decide)
      (by decide)]
    decide
  rw [hcall] at htake
  obtain rfl : base = 0xfffff000 := Option.some.inj htake
  obtain ⟨m, -, hfit⟩ := hfits (by decide)
  exact hfit.apart ⟨0xffff0000, 0x10000⟩ (by decide) (by decide)

end UBoot.LibGeneric
