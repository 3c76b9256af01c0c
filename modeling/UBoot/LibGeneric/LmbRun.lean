import UBoot.Lib.Run
import UBoot.LibGeneric.LmbSets

/-!
# Runs of calls

The tables are there for two sets of addresses: what `lmb_add` and `lmb_reserve` have added,
less what `lmb_free` has taken away.  A run carries both sets beside the tables.

The reserved addresses are those of the set after every run whose calls keep clear of five
slips (`ReserveOk`, `FreeOk`).  A table whose regions are apart from each other keeps its
shape after every run whose calls of `lmb_free` find room for what they split off
(`HoleOk`).
-/

namespace UBoot.LibGeneric

open UBoot.Lib LmbProperty

variable {w : Nat} {t t' : LmbRegion w} {es : List (LmbProperty w)} {r f : LmbProperty w}
  {S : Set Nat} {rc : Int}

/-! ## Calls and sets -/

structure AddressSets where
  memory : Set Nat
  reserved : Set Nat

/-- The base and size that a call is given. -/
def LmbCall.range : LmbCall w → LmbProperty w
  | .add base size => ⟨base, size⟩
  | .reserve base size => ⟨base, size⟩
  | .free base size => ⟨base, size⟩

/-- What a call is for. -/
def LmbCall.apply : LmbCall w → AddressSets → AddressSets
  | .add base size, S => { S with memory := S.memory ∪ addresses ⟨base, size⟩ }
  | .reserve base size, S => { S with reserved := S.reserved ∪ addresses ⟨base, size⟩ }
  | .free base size, S => { S with reserved := S.reserved \ addresses ⟨base, size⟩ }

/-- A call that returned. -/
structure LmbEvent (w : Nat) where
  call : LmbCall w
  rc : Int

structure LmbState (w : Nat) where
  lmb : Lmb w
  sets : AddressSets

def LmbState.start (lmb : Lmb w) : LmbState w := ⟨lmbInit lmb, ⟨∅, ∅⟩⟩

/-- A call that returns a negative value is not meant to change the sets. -/
structure LmbStep (s : LmbState w) (e : LmbEvent w) (s' : LmbState w) : Prop where
  run : e.call.run s.lmb = some (e.rc, s'.lmb)
  sets : s'.sets = if 0 ≤ e.rc then e.call.apply s.sets else s.sets

section Run

variable {lmb lmb' : Lmb w} {base size : BitVec w}

theorem run_add_iff : (LmbCall.add base size).run lmb = some (rc, lmb') ↔
    lmbAddRegion lmb.memory base size = some (rc, lmb'.memory) ∧ lmb'.reserved = lmb.reserved := by
  rw [LmbCall.run]
  cases lmbAddRegion lmb.memory base size <;> cases lmb' <;> grind

theorem run_reserve_iff : (LmbCall.reserve base size).run lmb = some (rc, lmb') ↔
    lmbAddRegion lmb.reserved base size = some (rc, lmb'.reserved) ∧ lmb'.memory = lmb.memory := by
  rw [LmbCall.run]
  cases lmbAddRegion lmb.reserved base size <;> cases lmb' <;> grind

theorem run_free_iff : (LmbCall.free base size).run lmb = some (rc, lmb') ↔
    lmbFreeRegion lmb.reserved base size = some (rc, lmb'.reserved) ∧
      lmb'.memory = lmb.memory := by
  rw [LmbCall.run]
  cases lmbFreeRegion lmb.reserved base size <;> cases lmb' <;> grind

end Run

theorem LmbRegion.init_holds (t : LmbRegion w) : t.init.Holds [⟨0, 0⟩] := by
  refine ⟨rfl, t.region.tail, ?_⟩
  show t.region.set 0 ⟨0, 0⟩ = _
  have hlen := t.length_region
  cases hregion : t.region with
  | nil =>
    rw [hregion] at hlen
    cases hlen
  | cons x xs => rfl

/-! ## The reserved set -/

/-- The table has the addresses of the set. -/
def Tracks (t : LmbRegion w) (S : Set Nat) : Prop :=
  ∃ es, t.Holds es ∧ (∀ x ∈ es, x.Proper) ∧ addressesOf es = S

/-- The table has the addresses of the set, or it is still the one of `lmb_init`. -/
def Follows (t : LmbRegion w) (S : Set Nat) : Prop :=
  Tracks t S ∨ t.Holds [⟨0, 0⟩] ∧ S = ∅

/-- The region can be put to the table.  In a table without entries it is below what is left
in the first slot, or the same. -/
def ReserveOk (t : LmbRegion w) (r : LmbProperty w) : Prop :=
  (t.cnt = 0 → ∀ x ∈ t.slot 0, r.base < x.base ∨ x = r) ∧ FrontOk r t.entries ∧
    JoinOk r t.entries

theorem lmbAddRegion_tracks (h : Follows t S) (hr : r.Proper) (hok : ReserveOk t r)
    (hadd : lmbAddRegion t r.base r.size = some (rc, t')) (hrc : 0 ≤ rc) :
    Tracks t' (S ∪ r.addresses) := by
  obtain ⟨hempty, hfront, hjoin⟩ := hok
  rcases h with ⟨es, hholds, hes, rfl⟩ | ⟨hholds, rfl⟩
  · rw [hholds.entries_eq] at hfront hjoin
    by_cases hne : es = []
    · subst hne
      obtain ⟨-, hholds'⟩ := lmbAddRegion_empty hholds hadd (hempty hholds.1)
      exact ⟨[r], hholds', by simpa using hr, by simp [addressesOf, addresses]⟩
    · obtain ⟨rc', t₁, es', hadd', hholds', hadded⟩ :=
        lmbAddRegion_added hholds hne (fun x hx => (hes x hx).size_ne) hfront
      obtain ⟨rfl, rfl⟩ : rc' = rc ∧ t₁ = t' := by simpa [hadd] using hadd'.symm
      obtain ⟨hes', haddresses⟩ := hadded.addresses hrc hes hr hjoin
      exact ⟨es', hholds', hes', haddresses⟩
  · obtain ⟨t₁, hadd', hholds'⟩ := lmbAddRegion_dummy hholds r
    obtain ⟨-, rfl⟩ : (0 : Int) = rc ∧ t₁ = t' := by simpa [hadd] using hadd'.symm
    exact ⟨[r], hholds', by simpa using hr, by simp [addressesOf, addresses]⟩

theorem dummy_not_contains (hf : f.hi < 2 ^ w) (hpos : 0 < f.hi) :
    ¬ (⟨0, 0⟩ : LmbProperty w).Contains f := by
  have hzero : (⟨0, 0⟩ : LmbProperty w).hi = 0 := by simp [hi]
  rw [contains_iff (by omega) hf]
  omega

theorem lmbFreeRegion_tracks (h : Follows t S) (hf : f.Proper) (hok : FreeOk f t.entries)
    (hfree : lmbFreeRegion t f.base f.size = some (rc, t')) (hrc : 0 ≤ rc) :
    Tracks t' (S \ f.addresses) := by
  rcases h with ⟨es, hholds, hes, rfl⟩ | ⟨hholds, rfl⟩
  · rw [hholds.entries_eq] at hok
    obtain ⟨rc', t₁, es', hfree', hholds', hfreed⟩ := lmbFreeRegion_of_freeOk hholds hes hok
    obtain ⟨rfl, rfl⟩ : rc' = rc ∧ t₁ = t' := by simpa [hfree] using hfree'.symm
    obtain ⟨hes', haddresses⟩ := hfreed.addresses hrc hes hf.2 hok
    exact ⟨es', hholds', hes', haddresses⟩
  · have hnone := dummy_not_contains hf.2 (Nat.zero_lt_of_lt hf.1)
    rw [lmbFreeRegion_missing hholds (by simpa using hnone)] at hfree
    cases hfree
    exact absurd hrc (by decide)

/-- The condition on a call in the state before it. -/
def LmbCall.Ok (lmb : Lmb w) : LmbCall w → Prop
  | .add _ _ => True
  | .reserve base size => ReserveOk lmb.reserved ⟨base, size⟩
  | .free base size => FreeOk ⟨base, size⟩ lmb.reserved.entries

def LmbCall.OnReserved : LmbCall w → Prop
  | .add _ _ => False
  | _ => True

/-- The calls of the reserved set: a region that has addresses and does not wrap, and a
return value that is not negative. -/
def LmbEvent.Proper (e : LmbEvent w) : Prop := e.call.range.Proper ∧ 0 ≤ e.rc

theorem LmbStep.follows {s s' : LmbState w} {e : LmbEvent w} (h : LmbStep s e s')
    (hs : Follows s.lmb.reserved s.sets.reserved) (he : e.Proper) (hok : e.call.Ok s.lmb) :
    Follows s'.lmb.reserved s'.sets.reserved ∧
      (Tracks s.lmb.reserved s.sets.reserved ∨ e.call.OnReserved →
        Tracks s'.lmb.reserved s'.sets.reserved) := by
  obtain ⟨call, rc⟩ := e
  obtain ⟨hproper, hrc⟩ : call.range.Proper ∧ 0 ≤ rc := he
  obtain ⟨hrun, hsets⟩ := h
  rw [if_pos hrc] at hsets
  rw [hsets]
  cases call with
  | add base size =>
    obtain ⟨-, hreserved⟩ := run_add_iff.mp hrun
    rw [hreserved]
    exact ⟨hs, fun h => h.resolve_right id⟩
  | reserve base size =>
    obtain ⟨hadd, -⟩ := run_reserve_iff.mp hrun
    have htracks : Tracks s'.lmb.reserved (s.sets.reserved ∪ addresses ⟨base, size⟩) :=
      lmbAddRegion_tracks hs hproper hok hadd hrc
    exact ⟨.inl htracks, fun _ => htracks⟩
  | free base size =>
    obtain ⟨hfree, -⟩ := run_free_iff.mp hrun
    have htracks : Tracks s'.lmb.reserved (s.sets.reserved \ addresses ⟨base, size⟩) :=
      lmbFreeRegion_tracks hs hproper hok hfree hrc
    exact ⟨.inl htracks, fun _ => htracks⟩

/-- `lmb_is_reserved` in a table whose regions do not wrap. -/
theorem Tracks.lmbIsReserved_iff {lmb : Lmb w} (h : Tracks lmb.reserved S) (a : BitVec w) :
    lmbIsReserved lmb a = true ↔ a.toNat ∈ S := by
  obtain ⟨es, hholds, hes, rfl⟩ := h
  rw [lmbIsReserved, hholds.entries_eq, List.any_eq_true]
  refine exists_congr fun x => and_congr_right fun hx => ?_
  obtain ⟨hlo, hhi⟩ := hes x hx
  have hupper : (x.base + x.size - 1).toNat = x.hi - 1 := by
    have hpow : 1 < 2 ^ w := by omega
    have hone : (1 : BitVec w).toNat = 1 := Nat.mod_eq_of_lt hpow
    rw [BitVec.toNat_sub_of_le (by rw [BitVec.le_def, toNat_stop hhi, hone]; omega),
      toNat_stop hhi, hone]
  rw [Bool.and_eq_true, decide_eq_true_iff, decide_eq_true_iff, BitVec.le_def, BitVec.le_def,
    hupper, Set.mem_Ico]
  show x.lo ≤ a.toNat ∧ _ ↔ _
  omega

/-- **The reserved set.**  After every run of calls that meet the condition, with at least
one on the reserved regions, `lmb_is_reserved` answers for the set. -/
theorem lmb_reserved_run {lmb : Lmb w} {s : LmbState w} {tr : List (LmbState w × LmbEvent w)}
    (hrun : Run LmbStep (LmbState.start lmb) tr s) (hcalls : ∀ p ∈ tr, p.2.Proper)
    (hok : ∀ p ∈ tr, p.2.call.Ok p.1.lmb) (hone : ∃ p ∈ tr, p.2.call.OnReserved)
    (a : BitVec w) : lmbIsReserved s.lmb a = true ↔ a.toNat ∈ s.sets.reserved := by
  have hinv : Follows s.lmb.reserved s.sets.reserved ∧
      ((∃ p ∈ tr, p.2.call.OnReserved) → Tracks s.lmb.reserved s.sets.reserved) := by
    clear hone a
    induction hrun with
    | refl => exact ⟨.inr ⟨lmb.reserved.init_holds, rfl⟩, nofun⟩
    | @tail tr s s' e run last ih =>
      obtain ⟨hfollows, htracks⟩ := ih (fun p hp => hcalls p (List.mem_append_left _ hp))
        fun p hp => hok p (List.mem_append_left _ hp)
      have hlast : (s, e) ∈ tr ++ [(s, e)] := by simp
      obtain ⟨hfollows', htracks'⟩ := last.follows hfollows (hcalls _ hlast) (hok _ hlast)
      refine ⟨hfollows', ?_⟩
      rintro ⟨p, hp, hon⟩
      rcases List.mem_append.mp hp with hp | hp
      · exact htracks' (.inl (htracks ⟨p, hp, hon⟩))
      · rw [List.mem_singleton.mp hp] at hon
        exact htracks' (.inr hon)
  exact (hinv.2 hone).lmbIsReserved_iff a

/-! ### Two runs -/

/-- The state behind a call. -/
def LmbState.after (s : LmbState w) (call : LmbCall w) : LmbState w :=
  match call.run s.lmb with
  | some (rc, lmb) => ⟨lmb, if 0 ≤ rc then call.apply s.sets else s.sets⟩
  | none => s

theorem lmbStep_after {s : LmbState w} {call : LmbCall w}
    (h : (call.run s.lmb).map Prod.fst = some rc) : LmbStep s ⟨call, rc⟩ (s.after call) := by
  obtain ⟨⟨rc, lmb⟩, hrun, rfl⟩ := Option.map_eq_some_iff.mp h
  rw [LmbState.after, hrun]
  exact ⟨hrun, rfl⟩

def blankRegion : LmbRegion 32 := ⟨0, List.replicate 9 ⟨0, 0⟩, rfl⟩

def blankState : LmbState 32 := .start ⟨blankRegion, blankRegion⟩

/-- A state with one region reserved. -/
def oneReserved : LmbState 32 := blankState.after (.reserve 0x1000 0x100)

/-- A region that touches the first one. -/
def grownReserved : LmbState 32 := oneReserved.after (.reserve 0x1100 0x100)

/-- A hole in the middle of both. -/
def splitReserved : LmbState 32 := grownReserved.after (.free 0x1080 0x100)

theorem reserveOk_of_gapped (hcnt : t.cnt ≠ 0) (hg : Gapped lo hi t.entries)
    (hes : ∀ x ∈ t.entries, x.Proper) (hr : r.Proper) : ReserveOk t r :=
  ⟨fun h => absurd h hcnt, frontOk_of_gapped hg hes, joinOk_of_gapped hg hes hr⟩

instance (r : LmbProperty w) : Decidable r.Proper := inferInstanceAs (Decidable (_ ∧ _))

instance (es : List (LmbProperty w)) : Decidable (Gapped lo hi es) :=
  inferInstanceAs (Decidable (es.Pairwise _))

theorem reserveOk_single (h : t.Holds [f]) : ReserveOk t r := by
  refine ⟨fun hcnt => ?_, ?_, ?_⟩
  · rw [h.1] at hcnt
    cases hcnt
  · rw [h.entries_eq]
    intro _ x hx hlt y hy
    obtain rfl : f = x := Option.some.inj hx
    rwa [List.mem_singleton.mp hy]
  · rw [h.entries_eq]
    intro pre e y post hes
    have := congrArg List.length hes
    simp only [List.length_append, List.length_cons, List.length_nil] at this
    omega

theorem run_splitReserved : Run LmbStep blankState
    [(blankState, ⟨.reserve 0x1000 0x100, 0⟩), (oneReserved, ⟨.reserve 0x1100 0x100, 1⟩),
      (grownReserved, ⟨.free 0x1080 0x100, 0⟩)] splitReserved :=
  ((Run.refl.tail (lmbStep_after (by decide))).tail
    (lmbStep_after (by decide))).tail (lmbStep_after (by decide))

/-- Two regions that touch, and a hole in the middle. -/
theorem lmb_reserved_run_split :
    lmbIsReserved splitReserved.lmb 0x1180 = true ∧ 0x1180 ∈ splitReserved.sets.reserved := by
  have hreserved : lmbIsReserved splitReserved.lmb 0x1180 = true := by decide
  refine ⟨hreserved, (lmb_reserved_run run_splitReserved ?_ ?_ ⟨_, List.mem_cons_self, trivial⟩
    _).mp hreserved⟩
  · simp only [List.forall_mem_cons]
    exact ⟨⟨by decide, by decide⟩, ⟨by decide, by decide⟩, ⟨by decide, by decide⟩, nofun⟩
  · simp only [List.forall_mem_cons]
    refine ⟨reserveOk_single blankRegion.init_holds, ?_, ?_, nofun⟩
    · exact reserveOk_of_gapped (by decide) (by decide) (by decide)
        (by decide)
    · exact freeOk_of_gapped (by decide) (by decide) (by decide)

/-- The region is freed again. -/
def freedReserved : LmbState 32 := oneReserved.after (.free 0x1000 0x100)

/-- Another one is reserved. -/
def staleReserved : LmbState 32 := freedReserved.after (.reserve 0x3000 0x100)

/-- **A reservation that is lost.**  The last region is freed and another one reserved, and
the table has the old one again. -/
theorem lmb_stale_region :
    Run LmbStep blankState
        [(blankState, ⟨.reserve 0x1000 0x100, 0⟩), (oneReserved, ⟨.free 0x1000 0x100, 0⟩),
          (freedReserved, ⟨.reserve 0x3000 0x100, 0⟩)] staleReserved ∧
      (lmbIsReserved staleReserved.lmb 0x3000 = false ∧ 0x3000 ∈ staleReserved.sets.reserved) ∧
      lmbIsReserved staleReserved.lmb 0x1000 = true ∧ 0x1000 ∉ staleReserved.sets.reserved := by
  have hfirst : LmbStep blankState ⟨.reserve 0x1000 0x100, 0⟩ oneReserved :=
    lmbStep_after (by decide)
  have hfree : LmbStep oneReserved ⟨.free 0x1000 0x100, 0⟩ freedReserved :=
    lmbStep_after (by decide)
  have hsecond : LmbStep freedReserved ⟨.reserve 0x3000 0x100, 0⟩ staleReserved :=
    lmbStep_after (by decide)
  have hsets : staleReserved.sets.reserved =
      ((∅ ∪ Set.Ico 0x1000 0x1100) \ Set.Ico 0x1000 0x1100) ∪ Set.Ico 0x3000 0x3100 := by
    rw [hsecond.sets, hfree.sets, hfirst.sets]
    rfl
  refine ⟨((Run.refl.tail hfirst).tail hfree).tail hsecond, ⟨by decide, ?_⟩,
    by decide, ?_⟩
  all_goals
    rw [hsets]
    simp

/-! ## The shape of the tables -/

/-- What the first `cnt` entries of a table are like. -/
structure Shape (t : LmbRegion w) (S : Set Nat) : Prop where
  cnt_le : t.cnt ≤ maxLmbRegions
  sorted : t.entries.Pairwise (·.base < ·.base)
  disjoint : t.entries.Pairwise fun x y => Disjoint x.addresses y.addresses
  apart : t.entries.Pairwise fun x y => lmbAddrsAdjacent x.base x.size y.base y.size = 0
  union : addressesOf t.entries = S

/-- The table is gapped, or it is still the one of `lmb_init`. -/
def Shaped (t : LmbRegion w) (S : Set Nat) : Prop :=
  ∃ es, t.Holds es ∧ es.length ≤ maxLmbRegions ∧
    ((∀ x ∈ es, x.Proper) ∧ Gapped lo hi es ∧ addressesOf es = S ∨ es = [⟨0, 0⟩] ∧ S = ∅)

theorem Shaped.shape (h : Shaped t S) : Shape t S := by
  obtain ⟨es, hholds, hlen, ⟨hes, hg, rfl⟩ | ⟨rfl, rfl⟩⟩ := h
  · have hpairs : es.Pairwise fun x y => x.Proper ∧ y.Proper ∧ x.hi < y.lo :=
      hg.imp_of_mem fun hx hy hlt => ⟨hes _ hx, hes _ hy, hlt⟩
    refine ⟨hholds.1 ▸ hlen, ?_, ?_, ?_, ?_⟩
    all_goals rw [hholds.entries_eq]
    · refine hpairs.imp ?_
      rintro x y ⟨hx, -, hlt⟩
      rw [base_lt_iff]
      exact hx.1.trans hlt
    · refine hpairs.imp ?_
      rintro x y ⟨hx, hy, hlt⟩
      exact (disjoint_addresses_iff hx.1 hy.1).mpr (.inl hlt.le)
    · refine hpairs.imp ?_
      rintro x y ⟨hx, hy, hlt⟩
      refine (adjacency_eq_zero_iff hx.2 hy.2).mpr ⟨hlt.ne', ?_⟩
      exact (hx.1.trans (hlt.trans hy.1)).ne
  · refine ⟨hholds.1 ▸ hlen, ?_, ?_, ?_, ?_⟩
    all_goals rw [hholds.entries_eq]
    · exact List.pairwise_singleton _ _
    · exact List.pairwise_singleton _ _
    · exact List.pairwise_singleton _ _
    · simp [addressesOf, lo, hi]

/-- A region that has addresses, does not wrap, and is the same as one entry or apart from
all of them. -/
def AddOk (t : LmbRegion w) (r : LmbProperty w) : Prop :=
  r.Proper ∧ (r ∈ t.entries ∨ ∀ x ∈ t.entries, Disjoint x.addresses r.addresses)

/-- A range for `lmb_free`: where it wraps, no entry contains it, and where the table is
full, it does not split an entry. -/
def HoleOk (t : LmbRegion w) (f : LmbProperty w) : Prop :=
  (2 ^ w ≤ f.hi → ∀ x ∈ t.entries, ¬ x.Contains f) ∧
    (t.cnt = maxLmbRegions → f.lo < f.hi → ∀ x ∈ t.entries, ¬ (x.lo < f.lo ∧ f.hi < x.hi))

theorem lmbAddRegion_shaped (h : Shaped t S) (hcnt : t.cnt ≠ 0) (hok : AddOk t r) :
    ∃ rc t', lmbAddRegion t r.base r.size = some (rc, t') ∧
      Shaped t' (if 0 ≤ rc then S ∪ r.addresses else S) := by
  obtain ⟨es, hholds, hlen, hcase⟩ := h
  obtain ⟨hr, hapart⟩ := hok
  rw [hholds.entries_eq] at hapart
  rcases hcase with ⟨hes, hg, rfl⟩ | ⟨rfl, rfl⟩
  · have hne : es ≠ [] := by
      rintro rfl
      exact hcnt hholds.1
    obtain ⟨rc, t', es', hadd, hholds', hadded⟩ := lmbAddRegion_added hholds hne
      (fun x hx => (hes x hx).size_ne) (frontOk_of_gapped hg hes)
    refine ⟨rc, t', hadd, es', hholds', hadded.length_le hlen, .inl ?_⟩
    by_cases hrc : 0 ≤ rc
    · obtain ⟨hes', haddresses⟩ := hadded.addresses hrc hes hr (joinOk_of_gapped hg hes hr)
      rw [if_pos hrc]
      exact ⟨hes', hadded.gapped hg hes hr hapart, haddresses⟩
    · obtain ⟨rfl, -⟩ := hadded.failed (not_le.mp hrc)
      rw [if_neg hrc]
      exact ⟨hes, hg, rfl⟩
  · obtain ⟨t', hadd, hholds'⟩ := lmbAddRegion_dummy hholds r
    refine ⟨0, t', hadd, [r], hholds', Nat.le_add_left 1 7, .inl ?_⟩
    rw [if_pos le_rfl]
    exact ⟨by simpa using hr, List.pairwise_singleton _ _, by simp [addressesOf, addresses]⟩

/-- The only range in the table of `lmb_init` is the dummy itself. -/
theorem lmbFreeRegion_dummy (h : t.Holds [⟨0, 0⟩]) (hf : f.hi < 2 ^ w) :
    lmbFreeRegion t f.base f.size = some (-1, t) ∨
      ∃ t', lmbFreeRegion t f.base f.size = some (0, t') ∧ t'.Holds [] := by
  by_cases hpos : 0 < f.hi
  · exact .inl (lmbFreeRegion_missing h (by simpa using dummy_not_contains hf hpos))
  · have hbase : f.base = 0 := BitVec.eq_of_toNat_eq (by rw [hi] at hpos; simp; omega)
    have hsize : f.size = 0 := BitVec.eq_of_toNat_eq (by rw [hi] at hpos; simp; omega)
    have hcut : t.Holds ([] ++ ⟨0, 0⟩ :: []) := h
    obtain ⟨t', hremove, hholds⟩ := lmbRemoveRegion_holds hcut
    have hslot := hcut.slot
    rw [List.length_nil] at hremove hslot
    refine .inr ⟨t', ?_, hholds⟩
    rw [lmbFreeRegion, h.entries_eq, hbase, hsize]
    simp [List.findIdx?_cons, hslot, hremove]

theorem lmbFreeRegion_shaped (h : Shaped t S) (hok : HoleOk t f) :
    ∃ rc t', lmbFreeRegion t f.base f.size = some (rc, t') ∧
      Shaped t' (if 0 ≤ rc then S \ f.addresses else S) := by
  have hshaped := h
  obtain ⟨es, hholds, hlen, hcase⟩ := h
  obtain ⟨hwrap, hroom⟩ := hok
  rw [hholds.entries_eq] at hwrap hroom
  by_cases hf : f.hi < 2 ^ w
  · rcases hcase with ⟨hes, hg, rfl⟩ | ⟨rfl, rfl⟩
    · have hfree := freeOk_of_gapped hg hes hf
      obtain ⟨rc, t', es', hrun, hholds', hfreed⟩ := lmbFreeRegion_of_freeOk hholds hes hfree
      refine ⟨rc, t', hrun, es', hholds', hfreed.length_le hlen, .inl ?_⟩
      by_cases hrc : 0 ≤ rc
      · obtain ⟨hes', haddresses⟩ := hfreed.addresses hrc hes hf hfree
        rw [if_pos hrc]
        exact ⟨hes', hfreed.gapped hg hes hf, haddresses⟩
      · obtain rfl := hfreed.failed (not_le.mp hrc) hes hf fun hfull =>
          hroom (hholds.1.trans (hlen.antisymm hfull))
        rw [if_neg hrc]
        exact ⟨hes, hg, rfl⟩
    · rcases lmbFreeRegion_dummy hholds hf with hrun | ⟨t', hrun, hholds'⟩
      · exact ⟨-1, t, hrun, hshaped⟩
      · refine ⟨0, t', hrun, [], hholds', Nat.zero_le _, .inl ⟨nofun, .nil, ?_⟩⟩
        simp [addressesOf]
  · exact ⟨-1, t, lmbFreeRegion_missing hholds (hwrap (not_lt.mp hf)), hshaped⟩

/-- The calls that the shape is promised for. -/
def LmbCall.Fits (lmb : Lmb w) : LmbCall w → Prop
  | .add base size => AddOk lmb.memory ⟨base, size⟩
  | .reserve base size => AddOk lmb.reserved ⟨base, size⟩
  | .free _ _ => True

/-- The condition on a call of `lmb_free` in the state before it. -/
def LmbCall.LeavesRoom (lmb : Lmb w) : LmbCall w → Prop
  | .free base size => HoleOk lmb.reserved ⟨base, size⟩
  | _ => True

def LmbState.Inv (s : LmbState w) : Prop :=
  Shaped s.lmb.memory s.sets.memory ∧ Shaped s.lmb.reserved s.sets.reserved

/-- Both tables have an entry. -/
def Lmb.NonEmpty (lmb : Lmb w) : Prop := lmb.memory.cnt ≠ 0 ∧ lmb.reserved.cnt ≠ 0

theorem LmbState.Inv.run {s : LmbState w} {call : LmbCall w} (h : s.Inv) (hne : s.lmb.NonEmpty)
    (hfits : call.Fits s.lmb) (hroom : call.LeavesRoom s.lmb) :
    ∃ rc lmb', call.run s.lmb = some (rc, lmb') ∧
      LmbState.Inv ⟨lmb', if 0 ≤ rc then call.apply s.sets else s.sets⟩ := by
  obtain ⟨hmemory, hreserved⟩ := h
  simp only [LmbState.Inv, apply_ite AddressSets.memory, apply_ite AddressSets.reserved]
  cases call with
  | add base size =>
    obtain ⟨rc, t', hadd, hshaped⟩ := lmbAddRegion_shaped hmemory hne.1 hfits
    refine ⟨rc, ⟨t', s.lmb.reserved⟩, run_add_iff.mpr ⟨hadd, rfl⟩, hshaped, ?_⟩
    rwa [LmbCall.apply, ite_self]
  | reserve base size =>
    obtain ⟨rc, t', hadd, hshaped⟩ := lmbAddRegion_shaped hreserved hne.2 hfits
    refine ⟨rc, ⟨s.lmb.memory, t'⟩, run_reserve_iff.mpr ⟨hadd, rfl⟩, ?_, hshaped⟩
    rwa [LmbCall.apply, ite_self]
  | free base size =>
    obtain ⟨rc, t', hfree, hshaped⟩ := lmbFreeRegion_shaped hreserved hroom
    refine ⟨rc, ⟨s.lmb.memory, t'⟩, run_free_iff.mpr ⟨hfree, rfl⟩, ?_, hshaped⟩
    rwa [LmbCall.apply, ite_self]

theorem LmbStep.inv {s s' : LmbState w} {e : LmbEvent w} (h : LmbStep s e s') (hs : s.Inv)
    (hne : s.lmb.NonEmpty) (hfits : e.call.Fits s.lmb) (hroom : e.call.LeavesRoom s.lmb) :
    s'.Inv := by
  obtain ⟨rc, lmb', hrun, hinv⟩ := hs.run hne hfits hroom
  obtain ⟨hstep, hsets⟩ := h
  obtain ⟨rfl, rfl⟩ : rc = e.rc ∧ lmb' = s'.lmb := by simpa [hstep] using hrun.symm
  rw [← hsets] at hinv
  exact hinv

/-- **The shape of the tables.**  After every run of calls that leave room, of which those
that add do so with a region that fits, both tables have their shape, and no further such
call writes outside the array. -/
theorem lmb_shape_run {lmb : Lmb w} {s : LmbState w} {tr : List (LmbState w × LmbEvent w)}
    (hrun : Run LmbStep (LmbState.start lmb) tr s) (hne : ∀ p ∈ tr, p.1.lmb.NonEmpty)
    (hfits : ∀ p ∈ tr, p.2.call.Fits p.1.lmb)
    (hroom : ∀ p ∈ tr, p.2.call.LeavesRoom p.1.lmb) :
    Shape s.lmb.memory s.sets.memory ∧ Shape s.lmb.reserved s.sets.reserved ∧
      ∀ call : LmbCall w, s.lmb.NonEmpty → call.Fits s.lmb → call.LeavesRoom s.lmb →
        (call.run s.lmb).isSome := by
  have hinv : s.Inv := by
    refine hrun.invariant LmbState.Inv
      (fun s e => s.lmb.NonEmpty ∧ e.call.Fits s.lmb ∧ e.call.LeavesRoom s.lmb) ?_ ?_ ?_
    · rintro s e s' hs ⟨hne, hfits, hroom⟩ hstep
      exact hstep.inv hs hne hfits hroom
    · exact ⟨⟨_, lmb.memory.init_holds, Nat.le_add_left 1 7, .inr ⟨rfl, rfl⟩⟩,
        ⟨_, lmb.reserved.init_holds, Nat.le_add_left 1 7, .inr ⟨rfl, rfl⟩⟩⟩
    · intro p hp
      exact ⟨hne p hp, hfits p hp, hroom p hp⟩
  refine ⟨hinv.1.shape, hinv.2.shape, fun call hne hfits hroom => ?_⟩
  obtain ⟨rc, lmb', hcall, -⟩ := hinv.run hne hfits hroom
  rw [hcall]
  rfl

/-! ### A hole, and a hole in a full table -/

instance (x r : LmbProperty w) : Decidable (Disjoint x.addresses r.addresses) :=
  decidable_of_iff _ Set.Ico_disjoint_Ico.symm

instance (t : LmbRegion w) (r : LmbProperty w) : Decidable (AddOk t r) :=
  inferInstanceAs (Decidable (_ ∧ _))

instance (lmb : Lmb w) : Decidable lmb.NonEmpty := inferInstanceAs (Decidable (_ ∧ _))

/-- Two regions that touch, and the two entries around the hole in them. -/
theorem lmb_shape_run_split : splitReserved.lmb.reserved.cnt = 2 ∧
    Shape splitReserved.lmb.reserved splitReserved.sets.reserved := by
  refine ⟨by decide, (lmb_shape_run run_splitReserved ?_ ?_ ?_).2.1⟩
  all_goals simp only [List.forall_mem_cons]
  · exact ⟨by decide, by decide, by decide, nofun⟩
  · have hfirst : AddOk blankState.lmb.reserved ⟨0x1000, 0x100⟩ := by decide
    have hsecond : AddOk oneReserved.lmb.reserved ⟨0x1100, 0x100⟩ := by decide
    exact ⟨hfirst, hsecond, trivial, nofun⟩
  · have hcnt : grownReserved.lmb.reserved.cnt ≠ maxLmbRegions := by decide
    refine ⟨trivial, trivial, ⟨fun h => absurd h (by decide), fun h => absurd h hcnt⟩, nofun⟩

/-- The region `k` of eight. -/
def fullCall (k : Nat) : LmbCall 32 := .reserve (BitVec.ofNat 32 (0x1000 * (k + 1))) 0x100

def fullState : Nat → LmbState 32
  | 0 => blankState
  | k + 1 => (fullState k).after (fullCall k)

theorem run_fullState : ∀ k ≤ 8, Run LmbStep blankState
    ((List.range k).map fun i => (fullState i, ⟨fullCall i, 0⟩)) (fullState k) := by
  intro k
  induction k with
  | zero =>
    intro _
    exact .refl
  | succ k ih =>
    intro hk
    have hcalls : ∀ i < 8, ((fullCall i).run (fullState i).lmb).map Prod.fst = some 0 := by
      decide
    rw [List.range_succ, List.map_append]
    exact (ih (by omega)).tail (lmbStep_after (hcalls k (by omega)))

/-- A hole in the last of eight regions. -/
def lostState : LmbState 32 := (fullState 8).after (.free 0x8040 0x40)

/-- **A tail that is lost.**  Eight regions are reserved; a hole in one of them fails for want
of a ninth entry, and what was behind the hole is gone. -/
theorem lmb_free_loses_tail :
    Run LmbStep blankState
        (((List.range 8).map fun i => (fullState i, ⟨fullCall i, 0⟩)) ++
          [(fullState 8, ⟨.free 0x8040 0x40, -1⟩)]) lostState ∧
      (∀ i < 8, (fullState i).lmb.NonEmpty ∧ (fullCall i).Fits (fullState i).lmb) ∧
      0x8080 ∈ lostState.sets.reserved ∧ 0x8080 ∉ addressesOf lostState.lmb.reserved.entries := by
  have hlast : LmbStep (fullState 7) ⟨fullCall 7, 0⟩ (fullState 8) :=
    lmbStep_after (by decide)
  have hfree : LmbStep (fullState 8) ⟨.free 0x8040 0x40, -1⟩ lostState :=
    lmbStep_after (by decide)
  refine ⟨(run_fullState 8 le_rfl).tail hfree, ?_, ?_, ?_⟩
  · have hfits : ∀ i < 8, (fullState i).lmb.NonEmpty ∧
        AddOk (fullState i).lmb.reserved ⟨BitVec.ofNat 32 (0x1000 * (i + 1)), 0x100⟩ := by
      decide
    exact hfits
  · rw [hfree.sets, if_neg (by decide), hlast.sets]
    right
    simp [addresses, lo, hi]
  · have hentries : ∀ x ∈ lostState.lmb.reserved.entries, ¬ (x.lo ≤ 0x8080 ∧ 0x8080 < x.hi) := by
      decide
    rintro ⟨x, hx, ha⟩
    exact hentries x hx ha

end UBoot.LibGeneric
