import Mathlib.Data.List.Chain
import Mathlib.Data.Set.Finite.Lattice
import Mathlib.Order.Interval.Set.Nat
import UBoot.Fs.FatDirScan
import UBoot.Lib.Orbit

/-!
# Going through a directory

`get_dentfromdir` goes from cluster to cluster of a directory.  A cluster that it has been in looks
the same when it comes back, so it goes round for ever exactly if it comes back at all.  A chain of
a FAT12 ends with a mark below the threshold of `CHECK_CLUST`, so that the search goes on behind it
unless something in the directory ends it, and the reserved bits of a FAT32 lead it away from the
chain (`traverses_iff`).
-/

namespace UBoot.Fs.Fat

open UBoot.Lib

/-! ## Well-formed directories -/

/-- The values that mark the end of a chain. -/
def endMark (fatsize : Int) : Nat :=
  if fatsize = 32 then 0xffffff8 else if fatsize = 16 then 0xfff8 else 0xff8

/-- The values that are no clusters. -/
def firstReserved (fatsize : Int) : Nat :=
  if fatsize = 32 then 0xffffff0 else if fatsize = 16 then 0xfff0 else 0xff0

/-- A directory that begins with a cluster: its chain, what is in it, and the entries from the end
marker on, if there is one. -/
structure Directory (dev : BlockDev) (disk : Contents) (d : FsData) (start : Nat) where
  clusters : List Nat
  items : List Item
  rest : List Bytes
  width : d.fatsize = 12 ∨ d.fatsize = 16 ∨ d.fatsize = 32
  sized : d.clustSize ≠ 0
  head : clusters.head? = some start
  data : ∀ c ∈ clusters, 2 ≤ c ∧ c < firstReserved d.fatsize
  nodup : clusters.Nodup
  linked : List.IsChain (fun c next => tableEntry d.fatsize disk (fatStart dev d) c = next) clusters
  ended : ∀ c ∈ clusters.getLast?, endMark d.fatsize ≤ tableEntry d.fatsize disk (fatStart dev d) c
  table : ∀ c ∈ clusters, ∀ q, fatBufEntries d.fatsize = some q → readWindow dev d (c / q) ≠ none
  readable : ∀ c ∈ clusters, getCluster dev d c d.bytesPerClust ≠ none
  slots : clusters.flatMap (clusterSlots dev disk d) = items.flatMap Item.slots ++ rest
  entries : Entries items rest
  marker : ∀ slot ∈ rest.head?, IsMarker slot

/-- How many clusters there are up to the file, the end marker, or the end. -/
def Directory.upTo {dev : BlockDev} {disk : Contents} {d : FsData} {start : Nat}
    (dir : Directory dev disk d start) (filename : Bytes) (dols : Bool) : Nat :=
  min dir.clusters.length (stopOf filename dols dir.items / d.direntsPerClust + 1)

/-! ## What is to be shown -/

/-- `curclust` in the rounds of the loop. -/
def curclusts (dev : BlockDev) (filename : Bytes) (dols : Bool) : Nat → Nat → World → List Nat
  | 0, _, _ => []
  | fuel + 1, c, w =>
    c :: match (dirRound dev fuel filename dols c w).2 with
      | some (.inr next, v) => curclusts dev filename dols fuel next v
      | _ => []

/-- The search ends, and in a well-formed directory it goes along the chain, up to the file or the
end marker or the end, and without a file if there is none. -/
structure Traverses (dev : BlockDev) (disk : Contents) (w : World) (filename retdent : Bytes)
    (dols : Bool) : Prop where
  ends : ∃ fuel r v, (getDentfromdir dev fuel filename retdent dols w).2 = some (r, v)
  visits : ∀ (dir : Directory dev disk w.mydata (startOf w.mydata (dirEntry retdent))) fuel r v,
    (getDentfromdir dev fuel filename retdent dols w).2 = some (r, v) →
      curclusts dev filename dols fuel (startOf w.mydata (dirEntry retdent)) w =
        dir.clusters.take (dir.upTo filename dols) ∧
      (Misses filename dols dir.items → r = none)

/-! ## What is on the disk -/

section Disk

variable (dev : BlockDev) (disk : Contents) (d : FsData) (filename : Bytes) (dols : Bool)

/-- The entry of the FAT for a cluster, with all its bits; 0 if its sectors cannot be read. -/
def diskLink (c : Nat) : Nat :=
  match fatBufEntries d.fatsize with
  | none => 0
  | some q =>
    if readWindow dev d (c / q) = none then 0 else rawEntry d.fatsize disk (fatStart dev d) c

/-- A cluster can be read, and has neither the file nor an end marker in it. -/
def PassedOver (c : Nat) : Prop :=
  getCluster dev d c d.bytesPerClust ≠ none ∧
    ∃ items, Listed dev disk d filename dols c items [] ∧ Misses filename dols items

open Classical in
/-- The cluster behind such a one, if its entry of the FAT passes `CHECK_CLUST`. -/
noncomputable def diskNext (c : Nat) : Option Nat :=
  if PassedOver dev disk d filename dols c ∧ checkClust (diskLink dev disk d c) d.fatsize = false
  then some (diskLink dev disk d c) else none

/-- A cluster cannot be read, or nothing in it is mistaken; and the sectors with its entry of the
FAT have numbers of 32 bits. -/
structure RegularAt (c : Nat) : Prop where
  clear : getCluster dev d c d.bytesPerClust = none ∨
    ∃ items rest, Listed dev disk d filename dols c items rest
  entry : ∀ q, fatBufEntries d.fatsize = some q →
    dev.partOffset + d.fatSect.toNat + c / q * fatBufBlocks < 2 ^ 32

/-- It is so for the clusters from one on that follow each other on the disk. -/
structure Regular (start : Nat) : Prop where
  named : dols = true ∨ filename ≠ []
  table : d.fatlength ≠ 0
  clusters : ∀ n c, orbit (diskNext dev disk d filename dols) start n = some c →
    RegularAt dev disk d filename dols c

end Disk

/-- The entries of the FAT lead along the chain of a directory as far as it is searched, and a FAT12
has the file or an end marker in it. -/
structure Directory.Followed {dev : BlockDev} {disk : Contents} {d : FsData} {start : Nat}
    (dir : Directory dev disk d start) (filename : Bytes) (dols : Bool) : Prop where
  links : ∀ c ∈ dir.clusters.take (dir.upTo filename dols - 1),
    rawEntry d.fatsize disk (fatStart dev d) c = tableEntry d.fatsize disk (fatStart dev d) c
  twelve : d.fatsize = 12 → dir.rest ≠ [] ∨ ¬ Misses filename dols dir.items

/-! ## Rounds -/

section Rounds

variable (dev : BlockDev) (w : World) (filename : Bytes) (dols : Bool)

/-- A cluster is read, and this is what its entries come to. -/
def Scans (c : Nat) (r : Look (Option Bytes)) : Prop :=
  ∃ data, getCluster dev w.mydata c w.mydata.bytesPerClust = some data ∧ ∃ fuel v,
    (forEntries (dirEntryStep dev fuel c filename dols) w.mydata.direntsPerClust 0
      (w.filled .getDentfromdir 0 data)).2 = some (r, v)

/-- The entry of the FAT for a cluster. -/
def link (c : Nat) : Nat := (getFatent dev w.mydata c).1

/-- A cluster is read, and the loops of `get_vfatname` do not come to an end in it. -/
def RunsAway (c : Nat) : Prop :=
  getCluster dev w.mydata c w.mydata.bytesPerClust ≠ none ∧ ∀ r, ¬ Scans dev w filename dols c r

/-- The entries are passed over, and the FAT has another cluster. -/
def GoesOn (c next : Nat) : Prop :=
  Scans dev w filename dols c .next ∧ link dev w c = next ∧
    checkClust next w.mydata.fatsize = false

open Classical in
/-- The next cluster. -/
noncomputable def dirNext (c : Nat) : Option Nat :=
  if GoesOn dev w filename dols c (link dev w c) then some (link dev w c) else none

/-- What a round comes to. -/
def Rounds (c : Nat) (r : Option Bytes ⊕ Nat) : Prop :=
  ∃ fuel v, (dirRound dev fuel filename dols c w).2 = some (r, v)

/-- The clusters of a search, and its result. -/
inductive Visits : Nat → List Nat → Option Bytes → Prop
  | last {c : Nat} {r : Option Bytes} (round : Rounds dev w filename dols c (.inl r)) :
      Visits c [c] r
  | next {c next : Nat} {cs : List Nat} {r : Option Bytes}
      (round : Rounds dev w filename dols c (.inr next)) (rest : Visits next cs r) :
      Visits c (c :: cs) r

end Rounds

section Search

variable {dev : BlockDev} {w u v : World} {filename : Bytes} {dols : Bool} {disk : Contents}
  {c next fuel fuel' : Nat} {cs : List Nat} {r : Option Bytes} {after : Option Bytes ⊕ Nat}

theorem Beside.refl (hcache : CacheOk dev w.mydata) : Beside dev w w :=
  ⟨.refl hcache, fun _ _ _ => rfl⟩

theorem alike_nil (hu : Beside dev w u) (hv : Beside dev w v) : Alike dev w [] u v :=
  ⟨hu, hv, fun _ hb => absurd hb List.not_mem_nil⟩

/-- A round that has a result has it with more steps and in any other state. -/
theorem dirRound_again (hdev : ReadsOf dev disk) (hcache : CacheOk dev w.mydata) (hc : c < 2 ^ 32)
    (hu : Beside dev w u) {u' : World} (hu' : Beside dev w u') (hle : fuel ≤ fuel')
    (h : (dirRound dev fuel filename dols c u).2 = some (after, v)) :
    ∃ v', (dirRound dev fuel' filename dols c u').2 = some (after, v') ∧ Beside dev w v' := by
  obtain ⟨v', hv', halike⟩ := dirRound_follows hdev hcache hc hle u u' after v (alike_nil hu hu') h
  exact ⟨v', hv', halike.right⟩

theorem rounds_of_dirRound (hdev : ReadsOf dev disk) (hcache : CacheOk dev w.mydata)
    (hc : c < 2 ^ 32) (hu : Beside dev w u)
    (h : (dirRound dev fuel filename dols c u).2 = some (after, v)) :
    Rounds dev w filename dols c after ∧ Beside dev w v := by
  obtain ⟨v', hv', -⟩ := dirRound_again hdev hcache hc hu (.refl hcache) (Nat.le_refl fuel) h
  obtain ⟨v'', hv'', hbeside⟩ := dirRound_again hdev hcache hc hu hu (Nat.le_refl fuel) h
  rw [h] at hv''
  cases hv''
  exact ⟨⟨fuel, v', hv'⟩, hbeside⟩

theorem rounds_unique (hdev : ReadsOf dev disk) (hcache : CacheOk dev w.mydata) (hc : c < 2 ^ 32)
    {after' : Option Bytes ⊕ Nat} (h : Rounds dev w filename dols c after)
    (h' : Rounds dev w filename dols c after') : after = after' := by
  obtain ⟨fuel, v, h⟩ := h
  obtain ⟨fuel', v', h'⟩ := h'
  have hself := Beside.refl hcache
  obtain ⟨u, hu, -⟩ := dirRound_again hdev hcache hc hself hself (Nat.le_max_left fuel fuel') h
  obtain ⟨u', hu', -⟩ := dirRound_again hdev hcache hc hself hself (Nat.le_max_right fuel fuel') h'
  rw [hu] at hu'
  cases hu'
  rfl

/-- The entries and the FAT decide what a round comes to. -/
theorem rounds_iff (hdev : ReadsOf dev disk) (hcache : CacheOk dev w.mydata) (hc : c < 2 ^ 32) :
    Rounds dev w filename dols c after ↔
      (getCluster dev w.mydata c w.mydata.bytesPerClust = none ∧ after = .inl none) ∨
        (∃ found, Scans dev w filename dols c (.done found) ∧ after = .inl found) ∨
          (Scans dev w filename dols c .next ∧ after =
            if checkClust (link dev w c) w.mydata.fatsize then .inl none
            else .inr (link dev w c)) := by
  have hlink : ∀ {fuel data v}, getCluster dev w.mydata c w.mydata.bytesPerClust = some data →
      (forEntries (dirEntryStep dev fuel c filename dols) w.mydata.direntsPerClust 0
        (w.filled .getDentfromdir 0 data)).2 = some (.next, v) →
      (getFatent dev v.mydata c).1 = link dev w c := by
    intro fuel data v hread h
    have hself : Alike dev w [.getDentfromdir] (w.filled .getDentfromdir 0 data)
        (w.filled .getDentfromdir 0 data) :=
      (alike_nil (Beside.refl hcache) (Beside.refl hcache)).filled (length_getCluster hdev hread)
    have hroom := direntsPerClust_le w.mydata
    obtain ⟨v', hv', halike⟩ := follows_forEntries hdev hcache hc (Nat.le_refl fuel) _
      (Int.le_refl 0) (by omega) _ _ _ v hself h
    exact (halike.left.steady.getFatent hdev hcache hc).1
  constructor
  · rintro ⟨fuel, v, h⟩
    rw [dirRound_snd] at h
    cases hread : getCluster dev w.mydata c w.mydata.bytesPerClust with
    | none =>
      rw [hread] at h
      cases h
      exact .inl ⟨rfl, rfl⟩
    | some data =>
      rw [hread] at h
      obtain ⟨⟨found, u⟩, hscan, h⟩ := Option.bind_eq_some_iff.mp h
      cases found with
      | done found =>
        cases h
        exact .inr (.inl ⟨found, ⟨data, hread, fuel, _, hscan⟩, rfl⟩)
      | next =>
        dsimp only at h
        rw [hlink hread hscan] at h
        cases h
        exact .inr (.inr ⟨⟨data, hread, fuel, _, hscan⟩, rfl⟩)
  · rintro (⟨hread, rfl⟩ | ⟨found, ⟨data, hread, fuel, v, hscan⟩, rfl⟩ |
      ⟨⟨data, hread, fuel, v, hscan⟩, rfl⟩)
    · refine ⟨0, w, ?_⟩
      rw [dirRound_snd, hread]
    · refine ⟨fuel, v, ?_⟩
      rw [dirRound_snd, hread]
      dsimp only
      rw [hscan]
      rfl
    · refine ⟨fuel, { v with mydata := (getFatent dev v.mydata c).2 }, ?_⟩
      rw [dirRound_snd, hread]
      dsimp only
      rw [hscan, Option.bind_some]
      dsimp only
      rw [hlink hread hscan]

theorem link_lt : link dev w c < 2 ^ 32 := getFatent_lt

/-- A round that goes on. -/
theorem rounds_next (hdev : ReadsOf dev disk) (hcache : CacheOk dev w.mydata) (hc : c < 2 ^ 32) :
    Rounds dev w filename dols c (.inr next) ↔ GoesOn dev w filename dols c next := by
  rw [rounds_iff hdev hcache hc]
  constructor
  · rintro (⟨-, h⟩ | ⟨found, -, h⟩ | ⟨hscan, h⟩)
    · cases h
    · cases h
    · by_cases hcheck : checkClust (link dev w c) w.mydata.fatsize = true
      · rw [if_pos hcheck] at h
        cases h
      · rw [if_neg hcheck] at h
        cases h
        exact ⟨hscan, rfl, Bool.eq_false_iff.mpr hcheck⟩
  · rintro ⟨hscan, rfl, hcheck⟩
    refine .inr (.inr ⟨hscan, ?_⟩)
    rw [hcheck]
    rfl

/-- A round that is the last. -/
theorem rounds_last (hdev : ReadsOf dev disk) (hcache : CacheOk dev w.mydata) (hc : c < 2 ^ 32) :
    Rounds dev w filename dols c (.inl r) ↔
      (getCluster dev w.mydata c w.mydata.bytesPerClust = none ∧ r = none) ∨
        Scans dev w filename dols c (.done r) ∨
          (Scans dev w filename dols c .next ∧
            checkClust (link dev w c) w.mydata.fatsize = true ∧ r = none) := by
  rw [rounds_iff hdev hcache hc]
  constructor
  · rintro (⟨hread, h⟩ | ⟨found, hscan, h⟩ | ⟨hscan, h⟩)
    · cases h
      exact .inl ⟨hread, rfl⟩
    · cases h
      exact .inr (.inl hscan)
    · by_cases hcheck : checkClust (link dev w c) w.mydata.fatsize = true
      · rw [if_pos hcheck] at h
        cases h
        exact .inr (.inr ⟨hscan, hcheck, rfl⟩)
      · rw [if_neg hcheck] at h
        cases h
  · rintro (⟨hread, rfl⟩ | hscan | ⟨hscan, hcheck, rfl⟩)
    · exact .inl ⟨hread, rfl⟩
    · exact .inr (.inl ⟨r, hscan, rfl⟩)
    · exact .inr (.inr ⟨hscan, by rw [if_pos hcheck]⟩)

theorem GoesOn.lt (h : GoesOn dev w filename dols c next) : next < 2 ^ 32 := by
  rw [← h.2.1]
  exact link_lt

/-! ## Searches -/

theorem Visits.unique (hdev : ReadsOf dev disk) (hcache : CacheOk dev w.mydata)
    (h : Visits dev w filename dols c cs r) (hc : c < 2 ^ 32) {cs' : List Nat} {r' : Option Bytes}
    (h' : Visits dev w filename dols c cs' r') : cs = cs' ∧ r = r' := by
  induction h generalizing cs' r' with
  | last round =>
    cases h' with
    | last round' =>
      cases rounds_unique hdev hcache hc round round'
      exact ⟨rfl, rfl⟩
    | next round' => cases rounds_unique hdev hcache hc round round'
  | next round rest ih =>
    cases h' with
    | last round' => cases rounds_unique hdev hcache hc round round'
    | next round' rest' =>
      cases rounds_unique hdev hcache hc round round'
      obtain ⟨rfl, rfl⟩ := ih ((rounds_next hdev hcache hc).mp round).lt rest'
      exact ⟨rfl, rfl⟩

/-- A search that ends has visited some clusters. -/
theorem visits_of_run (hdev : ReadsOf dev disk) (hcache : CacheOk dev w.mydata) (hc : c < 2 ^ 32)
    (hu : Beside dev w u)
    (h : (dentFromClusters dev filename dols fuel c u).2 = some (r, v)) :
    Visits dev w filename dols c (curclusts dev filename dols fuel c u) r := by
  induction fuel generalizing c u with
  | zero => cases h
  | succ fuel ih =>
    rw [dentFromClusters_succ] at h
    obtain ⟨⟨after, u'⟩, hround, h⟩ := Option.bind_eq_some_iff.mp h
    obtain ⟨hrounds, hu'⟩ := rounds_of_dirRound hdev hcache hc hu hround
    rw [curclusts, hround]
    cases after with
    | inl result =>
      cases h
      exact .last hrounds
    | inr next =>
      exact .next hrounds (ih ((rounds_next hdev hcache hc).mp hrounds).lt hu' h)

theorem run_of_visits (hdev : ReadsOf dev disk) (hcache : CacheOk dev w.mydata)
    (h : Visits dev w filename dols c cs r) (hc : c < 2 ^ 32) :
    ∃ least, ∀ fuel ≥ least, ∀ u, Beside dev w u →
      ∃ v, (dentFromClusters dev filename dols fuel c u).2 = some (r, v) := by
  induction h with
  | last round =>
    obtain ⟨least, v, hround⟩ := round
    refine ⟨least + 1, fun fuel hle u hu => ?_⟩
    obtain ⟨fuel, rfl⟩ : ∃ k, fuel = k + 1 := ⟨fuel - 1, by omega⟩
    obtain ⟨v', hv', -⟩ := dirRound_again hdev hcache hc (.refl hcache) hu
      (show least ≤ fuel by omega) hround
    refine ⟨v', ?_⟩
    rw [dentFromClusters_succ, hv']
    rfl
  | next round rest ih =>
    obtain ⟨least, hrun⟩ := ih ((rounds_next hdev hcache hc).mp round).lt
    obtain ⟨first, v, hround⟩ := round
    refine ⟨max first least + 1, fun fuel hle u hu => ?_⟩
    obtain ⟨fuel, rfl⟩ : ∃ k, fuel = k + 1 := ⟨fuel - 1, by omega⟩
    obtain ⟨u', hu', hbeside⟩ := dirRound_again hdev hcache hc (.refl hcache) hu
      (show first ≤ fuel by omega) hround
    obtain ⟨v', hv'⟩ := hrun fuel (by omega) u' hbeside
    refine ⟨v', ?_⟩
    rw [dentFromClusters_succ, hu']
    exact hv'

/-! ## Searches that end -/

theorem dirNext_some : dirNext dev w filename dols c = some next ↔
    GoesOn dev w filename dols c next := by
  rw [dirNext]
  by_cases hgoes : GoesOn dev w filename dols c (link dev w c)
  · rw [if_pos hgoes]
    constructor
    · intro h
      cases h
      exact hgoes
    · intro h
      rw [h.2.1]
  · rw [if_neg hgoes]
    constructor
    · intro h
      cases h
    · intro h
      exact absurd (h.2.1 ▸ h) hgoes

/-- All clusters have 32 bits. -/
theorem orbit_lt (hc : c < 2 ^ 32) : ∀ n a, orbit (dirNext dev w filename dols) c n = some a →
    a < 2 ^ 32 :=
  orbit_inv hc fun _ _ _ _ _ hnext => (dirNext_some.mp hnext).lt

/-- A round does not run away exactly if it has a result. -/
theorem rounds_or_runsAway (hdev : ReadsOf dev disk) (hcache : CacheOk dev w.mydata)
    (hc : c < 2 ^ 32) :
    (∃ after, Rounds dev w filename dols c after) ↔ ¬ RunsAway dev w filename dols c := by
  constructor
  · rintro ⟨after, hrounds⟩ ⟨hread, hno⟩
    rcases (rounds_iff hdev hcache hc).mp hrounds with ⟨hnone, -⟩ | ⟨found, hscan, -⟩ | ⟨hscan, -⟩
    · exact hread hnone
    · exact hno _ hscan
    · exact hno _ hscan
  · intro h
    by_cases hread : getCluster dev w.mydata c w.mydata.bytesPerClust = none
    · exact ⟨_, (rounds_iff hdev hcache hc).mpr (.inl ⟨hread, rfl⟩)⟩
    · obtain ⟨r, hscan⟩ : ∃ r, Scans dev w filename dols c r := by
        by_contra hno
        exact h ⟨hread, fun r hscan => hno ⟨r, hscan⟩⟩
      cases r with
      | done found => exact ⟨_, (rounds_iff hdev hcache hc).mpr (.inr (.inl ⟨found, hscan, rfl⟩))⟩
      | next => exact ⟨_, (rounds_iff hdev hcache hc).mpr (.inr (.inr ⟨hscan, rfl⟩))⟩

/-- A search ends exactly if it does not come back to a cluster, and not run away in one. -/
theorem visits_iff (hdev : ReadsOf dev disk) (hcache : CacheOk dev w.mydata) (hc : c < 2 ^ 32) :
    (∃ cs r, Visits dev w filename dols c cs r) ↔
      ¬ Lib.Returns (dirNext dev w filename dols) c ∧
        ∀ n a, orbit (dirNext dev w filename dols) c n = some a →
          ¬ RunsAway dev w filename dols a := by
  rw [← stops_iff_not_returns (Set.finite_Iio (2 ^ 32)) (orbit_lt hc)]
  constructor
  · rintro ⟨cs, r, h⟩
    induction h with
    | @last c r round =>
      have hnone : dirNext dev w filename dols c = none := by
        rw [Option.eq_none_iff_forall_ne_some]
        intro next hnext
        cases rounds_unique hdev hcache hc round
          ((rounds_next hdev hcache hc).mpr (dirNext_some.mp hnext))
      refine ⟨stops_of_none hnone, fun n a ha => ?_⟩
      cases n with
      | zero =>
        cases ha
        exact (rounds_or_runsAway hdev hcache hc).mp ⟨_, round⟩
      | succ n =>
        rw [orbit_none (show orbit (dirNext dev w filename dols) c 1 = none from hnone)
          (by omega)] at ha
        cases ha
    | next round rest ih =>
      have hgoes := (rounds_next hdev hcache hc).mp round
      have hnext := dirNext_some.mpr hgoes
      obtain ⟨hstops, hruns⟩ := ih hgoes.lt
      refine ⟨(stops_iff_of_some hnext).mpr hstops, fun n a ha => ?_⟩
      cases n with
      | zero =>
        cases ha
        exact (rounds_or_runsAway hdev hcache hc).mp ⟨_, round⟩
      | succ n =>
        rw [orbit_of_some hnext] at ha
        exact hruns n a ha
  · rintro ⟨hstops, hruns⟩
    refine hstops.induct (motive := fun c => c < 2 ^ 32 →
      (∀ n a, orbit (dirNext dev w filename dols) c n = some a → ¬ RunsAway dev w filename dols a) →
      ∃ cs r, Visits dev w filename dols c cs r) ?_ ?_ hc hruns
    · intro c hnone hc hruns
      obtain ⟨after, hrounds⟩ := (rounds_or_runsAway hdev hcache hc).mpr (hruns 0 c rfl)
      cases after with
      | inl result => exact ⟨_, _, .last hrounds⟩
      | inr next =>
        rw [dirNext_some.mpr ((rounds_next hdev hcache hc).mp hrounds)] at hnone
        cases hnone
    · intro c next hnext _ ih hc hruns
      have hgoes := dirNext_some.mp hnext
      obtain ⟨cs, r, hrest⟩ := ih hgoes.lt fun n a ha =>
        hruns (n + 1) a ((orbit_of_some hnext n).trans ha)
      exact ⟨_, _, .next ((rounds_next hdev hcache hc).mpr hgoes) hrest⟩

theorem Visits.second (h : Visits dev w filename dols c (c :: cs) r) (hcs : cs ≠ []) :
    ∃ next, Rounds dev w filename dols c (.inr next) ∧ Visits dev w filename dols next cs r := by
  cases h with
  | last => exact absurd rfl hcs
  | next round rest => exact ⟨_, round, rest⟩

theorem Visits.head (h : Visits dev w filename dols c cs r) : cs.head? = some c := by
  cases h with
  | last => rfl
  | next => rfl

end Search


/-! ## The disk decides -/

section Disk

variable {dev : BlockDev} {w : World} {filename : Bytes} {dols : Bool} {disk : Contents}
  {c start : Nat} {cs : List Nat} {r : Option Bytes}

/-- A cluster is scanned with one result. -/
theorem scans_unique (hdev : ReadsOf dev disk) (hcache : CacheOk dev w.mydata) (hc : c < 2 ^ 32)
    {x y : Look (Option Bytes)} (h : Scans dev w filename dols c x)
    (h' : Scans dev w filename dols c y) : x = y := by
  obtain ⟨data, hread, fuel, v, hscan⟩ := h
  obtain ⟨data', hread', fuel', v', hscan'⟩ := h'
  rw [hread] at hread'
  cases hread'
  have hself : Alike dev w [.getDentfromdir] (w.filled .getDentfromdir 0 data)
      (w.filled .getDentfromdir 0 data) :=
    (alike_nil (Beside.refl hcache) (Beside.refl hcache)).filled (length_getCluster hdev hread)
  have hroom := direntsPerClust_le w.mydata
  obtain ⟨u, hu, -⟩ := follows_forEntries hdev hcache hc (Nat.le_max_left fuel fuel') _
    (Int.le_refl 0) (by omega) _ _ _ v hself hscan
  obtain ⟨u', hu', -⟩ := follows_forEntries hdev hcache hc (Nat.le_max_right fuel fuel') _
    (Int.le_refl 0) (by omega) _ _ _ v' hself hscan'
  rw [hu] at hu'
  cases hu'
  rfl

/-- `get_fatent` returns the entry that is on the disk. -/
theorem link_eq (hdev : ReadsOf dev disk) (hcache : CacheOk dev w.mydata) (hc : c < 2 ^ 32)
    (htable : w.mydata.fatlength ≠ 0)
    (hentry : ∀ q, fatBufEntries w.mydata.fatsize = some q →
      dev.partOffset + w.mydata.fatSect.toNat + c / q * fatBufBlocks < 2 ^ 32) :
    link dev w c = diskLink dev disk w.mydata c := by
  rw [link, diskLink]
  cases hq : fatBufEntries w.mydata.fatsize with
  | none => rw [getFatent_unsupported hq]
  | some q =>
    have hge := fatBufEntries_ge hq
    have hbound := hentry q hq
    have hnum : c / q ≠ 2 ^ 32 - 1 := by
      have hhalf : c / q ≤ c / 2 := Nat.div_le_div_left hge (by decide)
      omega
    have hwindow : readFatBlock dev w.mydata (c / q) = (readWindow dev w.mydata (c / q)).map
        fun data => { w.mydata with
          fatbuf := storeAt w.mydata.fatbuf 0 data
          fatbufnum := c / q } := rfl
    rw [getFatent_reads hcache hq hnum, hwindow]
    dsimp only
    cases hread : readWindow dev w.mydata (c / q) with
    | none => exact (if_pos rfl).symm
    | some data =>
      have hlen : data.length = fatBufSize := by
        rcases length_readWindow hdev hread with ⟨-, hlen⟩ | ⟨hzero, -⟩
        · exact hlen
        · exact absurd hzero htable
      have hdata := hdev _ _ _ hread
      rw [Nat.mod_eq_of_lt (by omega), Nat.mod_eq_of_lt (by omega)] at hdata
      have hsize := congrArg List.length hdata
      rw [length_readAt, hlen] at hsize
      rw [← hsize] at hdata
      have hstart : (c / q * fatBufBlocks + w.mydata.fatSect.toNat + dev.partOffset) * sectorSize =
          fatStart dev w.mydata + c / q * fatBufSize := by
        have hblocks : fatBufSize = fatBufBlocks * sectorSize := rfl
        rw [fatStart, hblocks, ← Nat.mul_assoc, ← Nat.add_mul]
        congr 1
        omega
      have hhas := hasWindow_store (n := c / q) w.mydata w.mydata.fatbuf disk hstart
      have hoffset : c - c / q * q < q := by
        have hlt := Nat.lt_div_mul_add (a := c) (b := q) (by omega)
        omega
      have hmod : c / q * q + (c - c / q * q) = c := by
        have hle := Nat.div_mul_le_self c q
        omega
      rw [← hdata] at hhas
      have hvalue := fatEntry_window (by exact hq) hhas hoffset
      rw [hmod] at hvalue
      rw [if_neg (by simp)]
      exact hvalue

/-- What is in a cluster tells what it comes to. -/
theorem Listed.scans {items : List Item} {rest : List Bytes} (hdev : ReadsOf dev disk)
    (hname : dols = true ∨ filename ≠ [])
    (hread : getCluster dev w.mydata c w.mydata.bytesPerClust ≠ none)
    (h : Listed dev disk w.mydata filename dols c items rest) :
    Scans dev w filename dols c (outcome filename dols items rest) := by
  obtain ⟨data, hdata⟩ := Option.ne_none_iff_exists'.mp hread
  obtain ⟨v, hscan⟩ := h.scan hdev hdata hname
  exact ⟨data, hdata, 20, v, hscan⟩

theorem outcome_next {items : List Item} {rest : List Bytes} :
    outcome filename dols items rest = .next ↔ rest = [] ∧ Misses filename dols items := by
  rw [outcome, misses_iff]
  cases (if dols then none else lookup filename items) with
  | none => by_cases hrest : rest = [] <;> simp [hrest]
  | some dent => simp

/-- A cluster is passed over exactly if there is neither the file nor an end marker in it. -/
theorem passedOver_iff (hdev : ReadsOf dev disk) (hcache : CacheOk dev w.mydata) (hc : c < 2 ^ 32)
    (hname : dols = true ∨ filename ≠ []) (hreg : RegularAt dev disk w.mydata filename dols c) :
    PassedOver dev disk w.mydata filename dols c ↔ Scans dev w filename dols c .next := by
  constructor
  · rintro ⟨hread, items, hlisted, hmisses⟩
    have hscan := hlisted.scans hdev hname hread
    rwa [outcome_next.mpr ⟨rfl, hmisses⟩] at hscan
  · intro hscan
    obtain ⟨data, hdata, -⟩ := id hscan
    have hread : getCluster dev w.mydata c w.mydata.bytesPerClust ≠ none := by
      rw [hdata]
      simp
    obtain ⟨items, rest, hlisted⟩ := hreg.clear.resolve_left hread
    have hsame := scans_unique hdev hcache hc (hlisted.scans hdev hname hread) hscan
    obtain ⟨rfl, hmisses⟩ := outcome_next.mp hsame
    exact ⟨hread, items, hlisted, hmisses⟩

theorem diskNext_some {d : FsData} {next : Nat}
    (h : diskNext dev disk d filename dols c = some next) :
    diskLink dev disk d c = next ∧ checkClust next d.fatsize = false := by
  rw [diskNext] at h
  split at h
  · rename_i hpassed
    cases h
    exact ⟨rfl, hpassed.2⟩
  · cases h

/-- The search goes to the cluster that comes next on the disk. -/
theorem dirNext_eq (hdev : ReadsOf dev disk) (hcache : CacheOk dev w.mydata) (hc : c < 2 ^ 32)
    (hname : dols = true ∨ filename ≠ []) (htable : w.mydata.fatlength ≠ 0)
    (hreg : RegularAt dev disk w.mydata filename dols c) :
    dirNext dev w filename dols c = diskNext dev disk w.mydata filename dols c := by
  have hlink := link_eq hdev hcache hc htable hreg.entry
  have hpassed := passedOver_iff hdev hcache hc hname hreg
  rw [dirNext, diskNext, ← hlink, hpassed]
  by_cases hgoes : GoesOn dev w filename dols c (link dev w c)
  · rw [if_pos hgoes, if_pos ⟨hgoes.1, hgoes.2.2⟩]
  · rw [if_neg hgoes, if_neg fun h => hgoes ⟨h.1, rfl, h.2⟩]

theorem orbit_eq (hdev : ReadsOf dev disk) (hcache : CacheOk dev w.mydata) (hstart : start < 2 ^ 32)
    (hreg : Regular dev disk w.mydata filename dols start) (n : Nat) :
    orbit (dirNext dev w filename dols) start n =
      orbit (diskNext dev disk w.mydata filename dols) start n := by
  induction n with
  | zero => rfl
  | succ n ih =>
    have hstep : ∀ c ∈ orbit (dirNext dev w filename dols) start n,
        dirNext dev w filename dols c = diskNext dev disk w.mydata filename dols c := by
      intro c hc
      refine dirNext_eq hdev hcache (orbit_lt hstart n c hc) hreg.named hreg.table ?_
      exact hreg.clusters n c (ih.symm.trans hc)
    show (orbit (dirNext dev w filename dols) start n).bind _ = (orbit _ start n).bind _
    rw [← ih]
    cases horbit : orbit (dirNext dev w filename dols) start n with
    | none => rfl
    | some c => exact hstep c horbit

/-- A search ends exactly if no cluster follows on the disk that has been there before. -/
theorem visits_iff_disk (hdev : ReadsOf dev disk) (hcache : CacheOk dev w.mydata)
    (hstart : start < 2 ^ 32) (hreg : Regular dev disk w.mydata filename dols start) :
    (∃ cs r, Visits dev w filename dols start cs r) ↔
      ¬ Lib.Returns (diskNext dev disk w.mydata filename dols) start := by
  have horbit := orbit_eq hdev hcache hstart hreg
  have hreturns : Lib.Returns (dirNext dev w filename dols) start ↔
      Lib.Returns (diskNext dev disk w.mydata filename dols) start := by
    simp only [Lib.Returns, horbit]
  rw [visits_iff hdev hcache hstart, hreturns]
  refine and_iff_left fun n c hc => ?_
  rintro ⟨hread, hno⟩
  rw [horbit] at hc
  obtain ⟨items, rest, hlisted⟩ := (hreg.clusters n c hc).clear.resolve_left hread
  exact hno _ (hlisted.scans hdev hreg.named hread)

theorem Regular.next {next : Nat} (h : Regular dev disk w.mydata filename dols start)
    (hnext : diskNext dev disk w.mydata filename dols start = some next) :
    Regular dev disk w.mydata filename dols next := by
  refine ⟨h.named, h.table, fun n c hc => h.clusters (n + 1) c ?_⟩
  rw [orbit_of_some hnext, hc]

end Disk

/-! ## Directories -/

section Directory

variable {dev : BlockDev} {w : World} {filename : Bytes} {dols : Bool} {disk : Contents}
  {c start : Nat} {cs : List Nat} {r : Option Bytes}

/-- A cluster passes `CHECK_CLUST`. -/
theorem Directory.checkClust {d : FsData} (dir : Directory dev disk d start)
    (hc : c ∈ dir.clusters) : Fat.checkClust c d.fatsize = false := by
  obtain ⟨hlow, hhigh⟩ := dir.data c hc
  have hsmall : ¬ c ≤ 1 := by omega
  have hlarge : ¬ (if d.fatsize ≠ 32 then 0xfff0 else 0xffffff0) ≤ c := by
    rcases dir.width with h | h | h
    · rw [firstReserved, h] at hhigh
      rw [h]
      exact Nat.not_le_of_lt (Nat.lt_of_lt_of_le hhigh (by decide))
    · rw [firstReserved, h] at hhigh
      rw [h]
      exact Nat.not_le_of_lt hhigh
    · rw [firstReserved, h] at hhigh
      rw [h]
      exact Nat.not_le_of_lt hhigh
  rw [Fat.checkClust, decide_eq_false hsmall, decide_eq_false hlarge]
  rfl

/-- The end marks of a FAT12 are not recognised. -/
theorem checkClust_endMark {d : FsData} {e : Nat}
    (hwidth : d.fatsize = 12 ∨ d.fatsize = 16 ∨ d.fatsize = 32) (he : endMark d.fatsize ≤ e)
    (hlt : d.fatsize = 12 → e < 4096) : Fat.checkClust e d.fatsize = true ↔ d.fatsize ≠ 12 := by
  rw [Fat.checkClust, Bool.or_eq_true, decide_eq_true_iff, decide_eq_true_iff]
  rcases hwidth with h | h | h
  · have hsmall := hlt h
    rw [h] at he ⊢
    have hmark : endMark 12 = 0xff8 := rfl
    rw [if_pos (by decide)]
    omega
  · rw [h] at he ⊢
    have hmark : endMark 16 = 0xfff8 := rfl
    rw [if_pos (by decide)]
    omega
  · rw [h] at he ⊢
    have hmark : endMark 32 = 0xffffff8 := rfl
    rw [if_neg (by decide)]
    omega

/-- The directory from its second cluster on. -/
def Directory.behind {d : FsData} (dir : Directory dev disk d start) {next : Nat}
    {clusters : List Nat} {more : List Item} (hclusters : dir.clusters = start :: next :: clusters)
    (hentries : Entries more dir.rest)
    (hslots : (next :: clusters).flatMap (clusterSlots dev disk d) =
      more.flatMap Item.slots ++ dir.rest) : Directory dev disk d next where
  clusters := next :: clusters
  items := more
  rest := dir.rest
  width := dir.width
  sized := dir.sized
  head := rfl
  data := fun c hc => dir.data c (by rw [hclusters]; exact List.mem_cons_of_mem _ hc)
  nodup := (List.nodup_cons.mp (hclusters ▸ dir.nodup)).2
  linked := (List.isChain_cons.mp (hclusters ▸ dir.linked)).2
  ended := fun c hc => dir.ended c (by rw [hclusters, List.getLast?_cons_cons]; exact hc)
  table := fun c hc => dir.table c (by rw [hclusters]; exact List.mem_cons_of_mem _ hc)
  readable := fun c hc => dir.readable c (by rw [hclusters]; exact List.mem_cons_of_mem _ hc)
  slots := hslots
  entries := hentries
  marker := dir.marker

theorem Directory.start_mem {d : FsData} (dir : Directory dev disk d start) :
    start ∈ dir.clusters := List.mem_of_mem_head? dir.head

theorem Directory.exists_clusters {d : FsData} (dir : Directory dev disk d start) :
    ∃ clusters, dir.clusters = start :: clusters := by
  have hhead := dir.head
  cases hcs : dir.clusters with
  | nil =>
    rw [hcs] at hhead
    cases hhead
  | cons c clusters =>
    rw [hcs] at hhead
    cases hhead
    exact ⟨clusters, rfl⟩

theorem Directory.direntsPerClust_pos {d : FsData} (dir : Directory dev disk d start) :
    0 < d.direntsPerClust := by
  have hpos : d.clustSize.toNat ≠ 0 := fun h => dir.sized (UInt16.toNat_inj.mp h)
  rw [FsData.direntsPerClust, FsData.bytesPerClust, sectorSize]
  omega

/-- The search stops in the first cluster. -/
theorem Directory.upTo_one {d : FsData} (dir : Directory dev disk d start)
    (h : stopOf filename dols dir.items < d.direntsPerClust) : dir.upTo filename dols = 1 := by
  obtain ⟨clusters, hclusters⟩ := dir.exists_clusters
  rw [Directory.upTo, Nat.div_eq_of_lt h, hclusters, List.length_cons]
  omega

/-- The search of the directory from its second cluster on. -/
theorem Directory.upTo_behind {d : FsData} (dir : Directory dev disk d start) {next : Nat}
    {clusters : List Nat} {more : List Item} (hclusters : dir.clusters = start :: next :: clusters)
    (hentries : Entries more dir.rest)
    (hslots : (next :: clusters).flatMap (clusterSlots dev disk d) =
      more.flatMap Item.slots ++ dir.rest)
    (hstop : stopOf filename dols dir.items = d.direntsPerClust + stopOf filename dols more) :
    dir.upTo filename dols = (dir.behind hclusters hentries hslots).upTo filename dols + 1 := by
  have hlength : (dir.behind hclusters hentries hslots).clusters.length + 1 =
      dir.clusters.length := by
    rw [hclusters]
    rfl
  have hitems : (dir.behind hclusters hentries hslots).items = more := rfl
  have hdiv : stopOf filename dols dir.items / d.direntsPerClust =
      stopOf filename dols more / d.direntsPerClust + 1 := by
    rw [hstop, Nat.add_div_left _ dir.direntsPerClust_pos]
  rw [Directory.upTo, Directory.upTo, hitems, hdiv, ← hlength, Nat.add_min_add_right]

/-- Every item has a slot. -/
theorem items_nil {items : List Item} (h : items.flatMap Item.slots = []) : items = [] := by
  cases items with
  | nil => rfl
  | cons item items =>
    have hlength := congrArg List.length h
    have hone := slots_pos item
    rw [List.flatMap_cons, List.length_append, List.length_nil] at hlength
    omega

/-- What is in the first cluster, and how the directory goes on behind it. -/
theorem Directory.first_cases {d : FsData} (dir : Directory dev disk d start) {front : List Item}
    {rest : List Bytes} (h : Listed dev disk d filename dols start front rest) :
    (¬ Misses filename dols dir.items ∧ dir.upTo filename dols = 1 ∧ ∃ dent,
      outcome filename dols front rest = .done (some dent)) ∨
    (dir.rest ≠ [] ∧ dir.upTo filename dols = 1 ∧ outcome filename dols front rest = .done none) ∨
    (outcome filename dols front rest = .next ∧
      ((dir.clusters = [start] ∧ dir.rest = [] ∧ Misses filename dols dir.items ∧
        dir.upTo filename dols = 1) ∨
      ∃ next, ∃ dir' : Directory dev disk d next, dir.clusters = start :: dir'.clusters ∧
        dir'.rest = dir.rest ∧
        (Misses filename dols dir.items ↔ Misses filename dols dir'.items) ∧
        dir.upTo filename dols = dir'.upTo filename dols + 1)) := by
  obtain ⟨clusters, hclusters⟩ := dir.exists_clusters
  have hsize : (clusterSlots dev disk d start).length = d.direntsPerClust :=
    length_clusterSlots d
  have hslots := dir.slots
  rw [hclusters, List.flatMap_cons, h.slots, List.append_assoc] at hslots
  have hall := hsize
  rw [h.slots, List.length_append] at hall
  have hcluster (k : Nat) (x : Bytes) (hk : 0 + k < d.direntsPerClust)
      (hx : (front.flatMap Item.slots ++
        (rest ++ clusters.flatMap (clusterSlots dev disk d)))[k]? = some x) :
      slotAt disk (clusterPos dev d start) (0 + k) = x := by
    rw [Nat.zero_add] at hk ⊢
    rw [← List.append_assoc, ← h.slots, List.getElem?_append_left (by rw [hsize]; exact hk)] at hx
    exact clusterSlots_some hx
  obtain ⟨hmiss, hfound⟩ := front_of_entries h.wf h.clear hcluster dir.entries hslots
  by_cases hmisses : Misses filename dols front
  · have hwhole := stopOf_misses hmisses
    obtain ⟨more, hitems, hentries, hbehind⟩ := hmiss hmisses
    have hsame : Misses filename dols dir.items ↔ Misses filename dols more := by
      rw [hitems]
      exact misses_append hmisses
    have hstop : stopOf filename dols dir.items =
        (front.flatMap Item.slots).length + stopOf filename dols more := by
      rw [hitems]
      exact stopOf_append hmisses
    right
    cases rest with
    | cons m rest =>
      -- the end marker is in the first cluster
      have hmarker := h.ends hmisses m rfl
      obtain rfl : more = [] := by
        cases more with
        | nil => rfl
        | cons item more =>
          obtain ⟨slot, slots, hfirst, hne⟩ := hentries.1.slots_head
          rw [List.flatMap_cons, hfirst] at hbehind
          obtain ⟨rfl, -⟩ := List.cons.inj hbehind
          exact absurd hmarker.1 hne
      have hzero : stopOf filename dols [] = 0 := stopOf_misses (.inr rfl)
      rw [hzero, Nat.add_zero] at hstop
      rw [List.length_cons] at hall
      refine .inl ⟨?_, dir.upTo_one (by omega), ?_⟩
      · intro hnil
        rw [hnil] at hbehind
        cases hbehind
      · rw [outcome, misses_iff.mp hmisses]
        exact if_neg (List.cons_ne_nil m rest)
    | nil =>
      rw [List.length_nil, Nat.add_zero] at hall
      refine .inr ⟨outcome_next.mpr ⟨rfl, hmisses⟩, ?_⟩
      cases clusters with
      | nil =>
        have hnil := List.append_eq_nil_iff.mp hbehind.symm
        refine .inl ⟨hclusters, hnil.2, hsame.mpr (.inr (by rw [items_nil hnil.1]; rfl)), ?_⟩
        rw [Directory.upTo, hclusters, List.length_singleton]
        exact Nat.min_eq_left (Nat.le_add_left 1 _)
      | cons next clusters =>
        refine .inr ⟨next, dir.behind hclusters hentries hbehind, hclusters, rfl, hsame, ?_⟩
        exact dir.upTo_behind hclusters hentries hbehind (by rw [hstop, hall])
  · left
    obtain ⟨hlookup, hstop⟩ := hfound hmisses
    obtain ⟨hdols, hsome⟩ := not_or.mp hmisses
    have hlt := stopIndex_lt hsome
    refine ⟨?_, dir.upTo_one ?_, ?_⟩
    · rw [Misses, hlookup]
      exact hmisses
    · rw [stopOf, if_neg hdols, hstop]
      omega
    · obtain ⟨dent, hdent⟩ := Option.ne_none_iff_exists'.mp hsome
      refine ⟨dent, ?_⟩
      rw [outcome, if_neg hdols, hdent]

/-- The end marks of a FAT12 are not recognised. -/
theorem Directory.stops_iff (dir : Directory dev disk w.mydata start)
    (hclusters : dir.clusters = [start])
    (hlink : link dev w start = rawEntry w.mydata.fatsize disk (fatStart dev w.mydata) start) :
    Fat.checkClust (link dev w start) w.mydata.fatsize = true ↔ w.mydata.fatsize ≠ 12 := by
  have hended := dir.ended start (by rw [hclusters]; rfl)
  have hle : tableEntry w.mydata.fatsize disk (fatStart dev w.mydata) start ≤
      link dev w start := by
    rw [hlink, tableEntry]
    split
    · exact Nat.mod_le _ _
    · exact Nat.le_refl _
  refine checkClust_endMark dir.width (Nat.le_trans hended hle) fun htwelve => ?_
  rw [hlink, htwelve, rawEntry, if_neg (by decide), if_neg (by decide)]
  exact Nat.mod_lt _ (by decide)

theorem startOf_lt (d : FsData) (dent : DirEntry) : startOf d dent < 2 ^ 32 :=
  Nat.mod_lt _ (by decide)

theorem getDentfromdir_snd (dev : BlockDev) (fuel : Nat) (filename retdent : Bytes) (dols : Bool)
    (w : World) : (getDentfromdir dev fuel filename retdent dols w).2 =
      (dentFromClusters dev filename dols fuel (startOf w.mydata (dirEntry retdent)) w).2 := by
  rw [getDentfromdir, FatM.bind_snd]
  rfl

/-- The first cluster of a directory is read, and something is known of what it comes to. -/
theorem Directory.listed {d : FsData} (dir : Directory dev disk d start)
    (hreg : RegularAt dev disk d filename dols start) :
    ∃ front rest, Listed dev disk d filename dols start front rest :=
  hreg.clear.resolve_left (dir.readable start dir.start_mem)

/-- The sectors with the entry of the first cluster can be read. -/
theorem Directory.diskLink_eq {d : FsData} (dir : Directory dev disk d start) :
    diskLink dev disk d start = rawEntry d.fatsize disk (fatStart dev d) start := by
  obtain ⟨q, hq⟩ : ∃ q, fatBufEntries d.fatsize = some q := by
    rcases dir.width with h | h | h <;> rw [h] <;> exact ⟨_, rfl⟩
  rw [diskLink, hq]
  exact if_neg (dir.table start dir.start_mem q hq)

theorem Directory.take_one {d : FsData} (dir : Directory dev disk d start)
    (h : dir.upTo filename dols = 1) : dir.clusters.take (dir.upTo filename dols) = [start] := by
  obtain ⟨clusters, hclusters⟩ := dir.exists_clusters
  rw [h, hclusters]
  rfl

theorem Directory.followed_one {d : FsData} (dir : Directory dev disk d start)
    (h : dir.upTo filename dols = 1)
    (htwelve : d.fatsize = 12 → dir.rest ≠ [] ∨ ¬ Misses filename dols dir.items) :
    dir.Followed filename dols := by
  refine ⟨fun c hc => ?_, htwelve⟩
  rw [h] at hc
  cases hc

theorem Directory.upTo_pos {d : FsData} (dir : Directory dev disk d start) :
    0 < dir.upTo filename dols := by
  obtain ⟨clusters, hclusters⟩ := dir.exists_clusters
  rw [Directory.upTo, hclusters, List.length_cons]
  exact Nat.lt_min.mpr ⟨Nat.succ_pos _, Nat.succ_pos _⟩

/-- The chain of a directory is that of its first cluster, and the rest. -/
theorem Directory.followed_cons {d : FsData} (dir : Directory dev disk d start) {next : Nat}
    {dir' : Directory dev disk d next} (hclusters : dir.clusters = start :: dir'.clusters)
    (hrest : dir'.rest = dir.rest)
    (hmisses : Misses filename dols dir.items ↔ Misses filename dols dir'.items)
    (hupTo : dir.upTo filename dols = dir'.upTo filename dols + 1) :
    dir.Followed filename dols ↔
      rawEntry d.fatsize disk (fatStart dev d) start =
          tableEntry d.fatsize disk (fatStart dev d) start ∧
        dir'.Followed filename dols := by
  have htake : dir.clusters.take (dir.upTo filename dols - 1) =
      start :: dir'.clusters.take (dir'.upTo filename dols - 1) := by
    have hpos : 0 < dir'.upTo filename dols := dir'.upTo_pos
    obtain ⟨n, hn⟩ := Nat.exists_eq_succ_of_ne_zero (Nat.ne_of_gt hpos)
    rw [hupTo, hn, hclusters]
    rfl
  constructor
  · rintro ⟨hlinks, htwelve⟩
    rw [htake] at hlinks
    obtain ⟨hfirst, hlinks⟩ := List.forall_mem_cons.mp hlinks
    refine ⟨hfirst, hlinks, fun h => ?_⟩
    rw [hrest, ← hmisses]
    exact htwelve h
  · rintro ⟨hfirst, hlinks, htwelve⟩
    refine ⟨?_, fun h => ?_⟩
    · rw [htake]
      exact List.forall_mem_cons.mpr ⟨hfirst, hlinks⟩
    · rw [← hrest, hmisses]
      exact htwelve h

/-- The only cluster, if the file is not in it and there is no end marker. -/
theorem Directory.visits_single (hdev : ReadsOf dev disk) (hcache : CacheOk dev w.mydata)
    (hstart : start < 2 ^ 32) (dir : Directory dev disk w.mydata start)
    (hclusters : dir.clusters = [start]) (hrest : dir.rest = [])
    (hmisses : Misses filename dols dir.items) (hone : dir.upTo filename dols = 1)
    (hread : getCluster dev w.mydata start w.mydata.bytesPerClust ≠ none)
    (hscan : Scans dev w filename dols start .next)
    (hlink : link dev w start = rawEntry w.mydata.fatsize disk (fatStart dev w.mydata) start) :
    (∃ r, Visits dev w filename dols start [start] r ∧
      (Misses filename dols dir.items → r = none)) ↔ dir.Followed filename dols := by
  have hstops := dir.stops_iff hclusters hlink
  constructor
  · rintro ⟨r, hvisits, -⟩
    refine dir.followed_one hone fun htwelve => absurd htwelve (hstops.mp ?_)
    cases hvisits with
    | last round =>
      rcases (rounds_last hdev hcache hstart).mp round with ⟨hnone, -⟩ | hdone | ⟨-, hcheck, -⟩
      · exact absurd hnone hread
      · cases scans_unique hdev hcache hstart hscan hdone
      · exact hcheck
    | next round rest => cases rest.head
  · intro hfollowed
    have hcheck := hstops.mpr fun htwelve => by
      rcases hfollowed.twelve htwelve with hne | hfound
      · exact hne hrest
      · exact hfound hmisses
    refine ⟨none, .last ?_, fun _ => rfl⟩
    exact (rounds_last hdev hcache hstart).mpr (.inr (.inr ⟨hscan, hcheck, rfl⟩))

/-- A search goes along the chain of a directory exactly if the entries of the FAT lead along it,
and something ends it on a FAT12. -/
theorem Directory.visits_iff (hdev : ReadsOf dev disk) (hcache : CacheOk dev w.mydata)
    {clusters : List Nat} :
    ∀ {start : Nat} (dir : Directory dev disk w.mydata start), dir.clusters = clusters →
      start < 2 ^ 32 → Regular dev disk w.mydata filename dols start →
      ((∃ r, Visits dev w filename dols start (dir.clusters.take (dir.upTo filename dols)) r ∧
        (Misses filename dols dir.items → r = none)) ↔ dir.Followed filename dols) := by
  induction clusters with
  | nil =>
    intro start dir hnil _ _
    obtain ⟨clusters, hcons⟩ := dir.exists_clusters
    rw [hnil] at hcons
    cases hcons
  | cons c clusters ih =>
    intro start dir hcons hstart hreg
    have hat := hreg.clusters 0 start rfl
    have hread := dir.readable start dir.start_mem
    have hlink := (link_eq hdev hcache hstart hreg.table hat.entry).trans dir.diskLink_eq
    obtain ⟨front, rest, hlisted⟩ := dir.listed hat
    have hscan := hlisted.scans hdev hreg.named hread
    rcases dir.first_cases hlisted with ⟨hfound, hone, dent, houtcome⟩ |
      ⟨hrest, hone, houtcome⟩ | ⟨houtcome, ⟨hclusters, hrest, hmisses, hone⟩ |
        ⟨next, dir', hclusters, hrest, hmisses, hupTo⟩⟩
    · -- the file is in the first cluster
      rw [houtcome] at hscan
      rw [dir.take_one hone]
      refine iff_of_true ⟨some dent, .last ?_, fun h => absurd h hfound⟩
        (dir.followed_one hone fun _ => .inr hfound)
      exact (rounds_last hdev hcache hstart).mpr (.inr (.inl hscan))
    · -- the end marker is in the first cluster
      rw [houtcome] at hscan
      rw [dir.take_one hone]
      refine iff_of_true ⟨none, .last ?_, fun _ => rfl⟩
        (dir.followed_one hone fun _ => .inl hrest)
      exact (rounds_last hdev hcache hstart).mpr (.inr (.inl hscan))
    · -- the first cluster is the last
      rw [houtcome] at hscan
      rw [dir.take_one hone]
      exact dir.visits_single hdev hcache hstart hclusters hrest hmisses hone hread hscan hlink
    · -- there is another cluster behind the first
      rw [houtcome] at hscan
      have htail : dir'.clusters = clusters := by
        rw [hcons] at hclusters
        exact (List.cons.inj hclusters).2.symm
      obtain ⟨clusters', hclusters'⟩ := dir'.exists_clusters
      have htable : tableEntry w.mydata.fatsize disk (fatStart dev w.mydata) start = next := by
        have hlinked := dir.linked
        rw [hclusters, hclusters'] at hlinked
        exact (List.isChain_cons.mp hlinked).1 next rfl
      have hcheck : Fat.checkClust next w.mydata.fatsize = false := by
        refine dir.checkClust ?_
        rw [hclusters]
        exact List.mem_cons_of_mem _ dir'.start_mem
      have htake : dir.clusters.take (dir.upTo filename dols) =
          start :: dir'.clusters.take (dir'.upTo filename dols) := by
        rw [hupTo, hclusters, List.take_succ_cons]
      have hfollowed : dir.Followed filename dols ↔
          rawEntry w.mydata.fatsize disk (fatStart dev w.mydata) start = next ∧
            dir'.Followed filename dols := by
        have hcons := dir.followed_cons hclusters hrest hmisses hupTo
        rwa [htable] at hcons
      have hnext (hraw : rawEntry w.mydata.fatsize disk (fatStart dev w.mydata) start = next) :
          GoesOn dev w filename dols start next := ⟨hscan, hlink.trans hraw, hcheck⟩
      have hbehind (hgoes : GoesOn dev w filename dols start next) :
          Regular dev disk w.mydata filename dols next := by
        refine hreg.next ?_
        rw [← dirNext_eq hdev hcache hstart hreg.named hreg.table hat]
        exact dirNext_some.mpr hgoes
      have hhead : (dir'.clusters.take (dir'.upTo filename dols)).head? = some next := by
        have hpos : 0 < dir'.upTo filename dols := dir'.upTo_pos
        obtain ⟨n, hn⟩ := Nat.exists_eq_succ_of_ne_zero (Nat.ne_of_gt hpos)
        rw [hn, hclusters']
        rfl
      rw [htake, hfollowed]
      constructor
      · rintro ⟨r, hvisits, hmiss⟩
        obtain ⟨next', hround, hrest⟩ := hvisits.second fun hnil => by
          rw [hnil] at hhead
          cases hhead
        obtain rfl : next = next' := Option.some.inj (hhead.symm.trans hrest.head)
        have hgoes := (rounds_next hdev hcache hstart).mp hround
        refine ⟨hlink.symm.trans hgoes.2.1, ?_⟩
        refine (ih dir' htail hgoes.lt (hbehind hgoes)).mp ⟨r, hrest, fun h => ?_⟩
        exact hmiss (hmisses.mpr h)
      · rintro ⟨hraw, hrest⟩
        have hgoes := hnext hraw
        obtain ⟨r, hvisits, hmiss⟩ := (ih dir' htail hgoes.lt (hbehind hgoes)).mpr hrest
        refine ⟨r, .next ((rounds_next hdev hcache hstart).mpr hgoes) hvisits, fun h => ?_⟩
        exact hmiss (hmisses.mp h)

end Directory

/-- A file system with clusters of one sector, and its FAT in the second sector. -/
def sectorWorld (fatsize : Int) : World where
  mydata :=
    { fatbuf := fun _ => 0
      fatsize := fatsize
      fatlength := 1
      fatSect := 1
      rootdirSect := 2
      clustSize := 1
      dataBegin := 1
      fatbufnum := 2 ^ 32 - 1 }
  bufs := fun _ _ => 0

/-- The entry of a directory in the cluster 2. -/
def subdirDent : Bytes := List.replicate 26 0 ++ [2, 0] ++ List.replicate 4 0

theorem readsOf_devWith {disk : Contents} : ReadsOf (devWith disk) disk := by
  intro start count data h
  cases h
  rfl

theorem cacheOk_sector (disk : Contents) (fatsize : Int) :
    CacheOk (devWith disk) (sectorWorld fatsize).mydata := fun h => absurd rfl h

theorem startOf_sector {fatsize : Int} (h : fatsize ≠ 32) :
    startOf (sectorWorld fatsize).mydata (dirEntry subdirDent) = 2 := by
  rw [startOf, if_pos (by exact h)]
  rfl

/-- Files that have been deleted are passed over. -/
theorem clearItems_deleted {filename slot : Bytes} {dols : Bool} {room : Nat} {slotOf : Nat → Bytes}
    {items : List Item} (hslot : first slot = deletedFlag) (n : Nat) :
    ∀ p, ClearItems filename dols room slotOf (p + n) items →
      ClearItems filename dols room slotOf p (List.replicate n (.other slot) ++ items) := by
  induction n with
  | zero => exact fun p h => h
  | succ n ih =>
    intro p h
    refine ⟨.inl hslot, fun _ => ih (p + 1) ?_⟩
    rwa [Nat.add_assoc, Nat.add_comm 1]

theorem entries_deleted {slot : Bytes} (hslot : first slot = deletedFlag) (n : Nat) :
    Entries (List.replicate n (.other slot)) [] := by
  induction n with
  | zero =>
    intro m hm
    cases hm
  | succ n ih =>
    refine ⟨⟨by rw [hslot]; decide, .inl hslot⟩, fun x hx => ?_, ih⟩
    cases hx
    have hclear : (Item.other slot).Clear [] false 0 [] := .inl hslot
    refine orphan_of_clear hclear fun _ hroom => ?_
    omega

/-! ## A directory of two clusters -/

/-- An empty file with the name B. -/
def letterDent : Bytes := 66 :: List.replicate 10 32 ++ 32 :: List.replicate 20 0

/-- 14 files that have been deleted, and a file with a long name. -/
def firstItems : List Item :=
  List.replicate 14 (.other (List.replicate 32 0xe5)) ++ [.longFile readMeSlot [] readMeDent]

/-- A directory in the clusters 2 and 3, with an end marker behind the file in the second. -/
def chainDisk : Contents := fun a =>
  if 516 ≤ a ∧ a < 520 then [3, 0, 0xff, 0xff].getD (a - 516) 0
  else if 1536 ≤ a ∧ a < 2048 then ((firstItems.flatMap Item.slots).flatten).getD (a - 1536) 0
  else if 2048 ≤ a ∧ a < 2080 then letterDent.getD (a - 2048) 0
  else 0

theorem chain_links : diskLink (devWith chainDisk) chainDisk (sectorWorld 16).mydata 2 = 3 ∧
    diskLink (devWith chainDisk) chainDisk (sectorWorld 16).mydata 3 = 0xffff := by
  decide

theorem firstItems_slots : ∀ slot ∈ firstItems.flatMap Item.slots, slot.length = 32 := by
  decide

theorem readAt_chain : readAt chainDisk 1536 512 = (firstItems.flatMap Item.slots).flatten := by
  have hlen : (firstItems.flatMap Item.slots).flatten.length = 512 :=
    length_flatten_slots firstItems_slots
  rw [← hlen]
  refine (readAt_congr fun a ha => ?_).trans (readAt_storeAt (fun _ => 0) 1536 _)
  have hin : 1536 ≤ a ∧ a < 2048 := by
    rw [hlen] at ha
    exact ha
  rw [storeAt, if_pos ha, chainDisk, if_neg (by omega), if_pos hin]

theorem chain_listed : Listed (devWith chainDisk) chainDisk (sectorWorld 16).mydata [99] false 2
    firstItems [] where
  slots := by
    rw [List.append_nil]
    exact clusterSlots_of_readAt firstItems_slots rfl readAt_chain
  wf := by
    intro item hitem
    rcases List.mem_append.mp hitem with hitem | hitem
    · rw [List.eq_of_mem_replicate hitem]
      exact ⟨by decide, .inl rfl⟩
    · rw [List.mem_singleton.mp hitem]
      exact ⟨by decide, by decide, by decide, trivial, readMe_file⟩
  clear := by
    refine clearItems_deleted rfl 14 0 ⟨.inr ⟨?_, .inr (readMe_right [99])⟩, fun _ => trivial⟩
    exact (by decide : 2 ≤ 16 - 14)
  ends := by
    intro _ m hm
    cases hm

theorem readAt_chain_last : readAt chainDisk 2048 512 =
    (letterDent :: List.replicate 15 (List.replicate 32 0)).flatten := by
  have hfirst : readAt chainDisk 2048 32 = letterDent := by decide
  have hrest : readAt chainDisk 2080 480 = List.replicate 480 0 := by
    refine List.eq_replicate_iff.mpr ⟨length_readAt _ _ _, fun b hb => ?_⟩
    obtain ⟨a, ha, rfl⟩ := List.mem_map.mp hb
    obtain ⟨hlow, -⟩ := List.mem_range'_1.mp ha
    rw [chainDisk, if_neg (by omega), if_neg (by omega), if_neg (by omega)]
  rw [List.flatten_cons, List.flatten_replicate_replicate]
  exact (readAt_add chainDisk 2048 32 480).trans (congrArg₂ (· ++ ·) hfirst hrest)

theorem chain_listed_last : Listed (devWith chainDisk) chainDisk (sectorWorld 16).mydata [99] false
    3 [.file letterDent] (List.replicate 15 (List.replicate 32 0)) where
  slots := by
    refine clusterSlots_of_readAt (fun slot hslot => ?_) rfl readAt_chain_last
    rcases List.mem_cons.mp hslot with rfl | hslot
    · rfl
    · rw [List.eq_of_mem_replicate hslot]
      rfl
  wf := by
    intro item hitem
    rw [List.mem_singleton.mp hitem]
    exact ⟨by decide, by decide, by decide⟩
  clear := by
    have hname : unpad (dirEntry letterDent).name = [66] := rfl
    have hext : unpad (dirEntry letterDent).ext = [] := rfl
    refine ⟨.inr ⟨trivial, .inr (Item.readRight_file ⟨by decide, by decide, by decide⟩ ?_ ?_)⟩,
      fun _ => trivial⟩
    · rw [PlainField, hname]
      simp [space]
    · rw [PlainField, hext]
      simp
  ends := by
    intro _ m hm
    obtain rfl : List.replicate 32 0 = m := by simpa using hm
    exact ⟨by decide, by decide⟩

/-- No cluster comes behind the cluster 3. -/
theorem chain_last (filename : Bytes) : diskNext (devWith chainDisk) chainDisk
    (sectorWorld 16).mydata filename false 3 = none := by
  rw [Option.eq_none_iff_forall_ne_some]
  intro next hnext
  obtain ⟨hlink, hcheck⟩ := diskNext_some hnext
  rw [← hlink, chain_links.2] at hcheck
  exact absurd hcheck (by decide)

/-- The cluster 3 comes behind the cluster 2. -/
theorem chain_orbit {filename : Bytes} {n c : Nat} (h : orbit (diskNext (devWith chainDisk)
    chainDisk (sectorWorld 16).mydata filename false) 2 n = some c) : c = 2 ∨ c = 3 := by
  refine orbit_inv (I := fun c => c = 2 ∨ c = 3) (.inl rfl) (fun _ b c _ hb hnext => ?_) n c h
  rcases hb with rfl | rfl
  · exact .inr ((diskNext_some hnext).1.symm.trans chain_links.1)
  · rw [chain_last] at hnext
    cases hnext

theorem chain_regular : Regular (devWith chainDisk) chainDisk (sectorWorld 16).mydata [99] false
    2 where
  named := .inr (by decide)
  table := by decide
  clusters := by
    intro n c hc
    have hentry : ∀ c < 4, ∀ q, fatBufEntries (sectorWorld 16).mydata.fatsize = some q →
        (devWith chainDisk).partOffset + (sectorWorld 16).mydata.fatSect.toNat +
          c / q * fatBufBlocks < 2 ^ 32 := by
      intro c hc q hq
      cases hq
      interval_cases c <;> decide
    rcases chain_orbit hc with rfl | rfl
    · exact ⟨.inr ⟨_, _, chain_listed⟩, hentry 2 (by decide)⟩
    · exact ⟨.inr ⟨_, _, chain_listed_last⟩, hentry 3 (by decide)⟩

/-- A disk with a FAT of ones, and nothing but deleted entries. -/
def erasedDisk : Contents := fun a => if 512 ≤ a ∧ a < 1024 then 0xff else 0xe5

theorem erased_slots : clusterSlots (devWith erasedDisk) erasedDisk (sectorWorld 12).mydata 2 =
    List.replicate 16 (List.replicate 32 0xe5) := by
  refine List.eq_replicate_iff.mpr ⟨length_clusterSlots _, fun slot hslot => ?_⟩
  obtain ⟨i, -, rfl⟩ := List.mem_map.mp hslot
  refine List.eq_replicate_iff.mpr ⟨length_slotAt, fun b hb => ?_⟩
  obtain ⟨a, ha, rfl⟩ := List.mem_map.mp hb
  have hdata : 1536 ≤ a := Nat.le_of_add_right_le (List.mem_range'_1.mp ha).1
  exact if_neg (by omega)

/-- On a FAT12, a directory of one cluster. -/
def erasedDir : Directory (devWith erasedDisk) erasedDisk (sectorWorld 12).mydata 2 where
  clusters := [2]
  items := List.replicate 16 (.other (List.replicate 32 0xe5))
  rest := []
  width := .inl rfl
  sized := by decide
  head := rfl
  data := by decide
  nodup := List.nodup_singleton 2
  linked := List.isChain_singleton 2
  ended := by decide
  table := by
    intro c _ q _ hnone
    cases hnone
  readable := by
    intro c _ hnone
    have hbytes : (sectorWorld 12).mydata.bytesPerClust = 512 := rfl
    rw [hbytes, getCluster_sectors reads_devWith (by decide)] at hnone
    cases hnone
  slots := by
    rw [List.flatMap_singleton, erased_slots]
    rfl
  entries := entries_deleted rfl 16
  marker := by
    intro slot hslot
    cases hslot

theorem erased_listed : Listed (devWith erasedDisk) erasedDisk (sectorWorld 12).mydata [65] false 2
    (List.replicate 16 (.other (List.replicate 32 0xe5))) [] where
  slots := erased_slots
  wf := (entries_deleted rfl 16).wf
  clear := by
    rw [← List.append_nil (List.replicate 16 _)]
    exact clearItems_deleted rfl 16 0 trivial
  ends := by
    intro _ m hm
    cases hm

end UBoot.Fs.Fat
