import UBoot.Fs.FatCache
import UBoot.Fs.FatDir

/-!
# The rounds of a search

A round of the loop of `get_dentfromdir` fills the buffer anew, and what it looks at besides has not
been written to by the rounds before, or it is a window of the FAT.  So what a round comes to
depends on its cluster only (`dirRound_follows`), as long as the loops of `get_vfatname` come to an
end in as many steps as there are.
-/

namespace UBoot.Fs.Fat

open UBoot.Lib

/-- One round of the loop of `get_dentfromdir`: what is returned, or the next cluster. -/
def dirRound (dev : BlockDev) (fuel : Nat) (filename : Bytes) (dols : Bool) (curclust : Nat) :
    FatM (Option Bytes ⊕ Nat) := do
  let d ← FatM.mydata
  let size := d.bytesPerClust
  let data := getCluster dev d curclust size
  if !(← FatM.readInto .getDentfromdir (startSect d curclust) size data) then return .inl none
  match ← forEntries (dirEntryStep dev fuel curclust filename dols) d.direntsPerClust 0 with
  | .done found => return .inl found
  | .next =>
    let curclust ← FatM.getFatent dev curclust
    if checkClust curclust d.fatsize then return .inl none
    return .inr curclust

/-! ## Following a computation -/

section Follows

variable {α β : Type} {R S T : World → World → Prop}

/-- Where one computation has a result, the other has it too. -/
def Follows (R S : World → World → Prop) (x y : FatM α) : Prop :=
  ∀ w w' a v, R w w' → (x w).2 = some (a, v) → ∃ v', (y w').2 = some (a, v') ∧ S v v'

theorem FatM.bind_some {x : FatM α} {f : α → FatM β} {w v : World} {b : β} :
    ((x >>= f) w).2 = some (b, v) ↔ ∃ a u, (x w).2 = some (a, u) ∧ (f a u).2 = some (b, v) := by
  rcases hx : x w with ⟨log, _ | ⟨a, u⟩⟩
  · rw [FatM.bind_failed hx]
    constructor
    · intro h
      cases h
    · rintro ⟨a, u, h, -⟩
      cases h
  · rw [FatM.bind_done hx]
    constructor
    · intro h
      exact ⟨a, u, rfl, h⟩
    · rintro ⟨a', u', h, hf⟩
      cases h
      exact hf

theorem Follows.pure (h : ∀ w w', R w w' → S w w') (a : α) :
    Follows R S (Pure.pure a) (Pure.pure a) := by
  rintro w w' b v hR hx
  cases hx
  exact ⟨w', rfl, h w w' hR⟩

theorem Follows.bind {x y : FatM α} {f g : α → FatM β} (hx : Follows R S x y)
    (hf : ∀ a, Follows S T (f a) (g a)) : Follows R T (x >>= f) (y >>= g) := by
  intro w w' b v hR h
  obtain ⟨a, u, ha, hb⟩ := FatM.bind_some.mp h
  obtain ⟨u', ha', hS⟩ := hx w w' a u hR ha
  obtain ⟨v', hb', hT⟩ := hf a u u' b v hS hb
  exact ⟨v', FatM.bind_some.mpr ⟨a, u', ha', hb'⟩, hT⟩

theorem follows_outOfRounds (y : FatM α) : Follows R S FatM.outOfRounds y := by
  intro w w' a v _ h
  cases h

end Follows

/-! ## States that agree on the buffers -/

/-- Only the buffers, and the window of the FAT, have been written to. -/
structure Beside (dev : BlockDev) (w₀ w : World) : Prop where
  steady : Steady dev w₀.mydata w.mydata
  outside : ∀ b (a : Int), (a < 0 ∨ w₀.mydata.bytesPerClust ≤ a) → w.bufs b a = w₀.bufs b a

/-- Two such states that agree on some of the buffers. -/
structure Alike (dev : BlockDev) (w₀ : World) (bs : List Buf) (w w' : World) : Prop where
  left : Beside dev w₀ w
  right : Beside dev w₀ w'
  same : ∀ b ∈ bs, ∀ a, w.bufs b a = w'.bufs b a

section Alike

variable {dev : BlockDev} {w₀ w : World} {bs : List Buf} {b : Buf} {disk : Contents}
  {α : Type} {S : World → World → Prop} {fuel fuel' c : Nat} {pos : Int} {data filename : Bytes}
  {dols : Bool}

theorem Alike.mono {cs : List Buf} {w w' : World} (h : Alike dev w₀ bs w w') (hcs : cs ⊆ bs) :
    Alike dev w₀ cs w w' := ⟨h.left, h.right, fun b hb => h.same b (hcs hb)⟩

theorem follows_return (hcs : bs ⊆ cs) (a : α) :
    Follows (Alike dev w₀ cs) (Alike dev w₀ bs) (pure a) (pure a) :=
  .pure (fun _ _ h => h.mono hcs) a

/-- The geometry is the same in both. -/
theorem Follows.mydata {f g : FsData → FatM α}
    (h : ∀ e e', Steady dev w₀.mydata e → Steady dev w₀.mydata e' →
      Follows (Alike dev w₀ bs) S (f e) (g e')) :
    Follows (Alike dev w₀ bs) S (FatM.mydata >>= f) (FatM.mydata >>= g) := by
  intro w w' a v hR hx
  exact h _ _ hR.left.steady hR.right.steady w w' a v hR hx

theorem follows_look (hb : b ∈ bs) (pos : Int) :
    Follows (Alike dev w₀ bs) (Alike dev w₀ bs) (FatM.look b pos) (FatM.look b pos) := by
  intro w w' a v hR hx
  cases hx
  refine ⟨w', ?_, hR⟩
  have hbytes : (List.range 32).map (fun (k : Nat) => w'.bufs b (pos + k)) =
      (List.range 32).map fun (k : Nat) => w.bufs b (pos + k) :=
    List.map_congr_left fun k _ => (hR.same b hb _).symm
  exact congrArg (fun bytes => some (bytes, w')) hbytes

theorem length_look {b : Buf} {pos : Int} {w v : World} {slot : Bytes}
    (h : (FatM.look b pos w).2 = some (slot, v)) : slot.length = 32 := by
  cases h
  rw [List.length_map, List.length_range]

/-- The state behind `memcpy` into a buffer. -/
def World.filled (w : World) (b : Buf) (pos : Int) (data : Bytes) : World :=
  { w with
    bufs := fun b' a =>
      if b' = b ∧ pos ≤ a ∧ a < pos + data.length then data.getD (a - pos).toNat 0
      else w.bufs b' a }

theorem store_some {u : World} {x : Unit} :
    (FatM.store b pos data w).2 = some (x, u) ↔ u = w.filled b pos data := by
  constructor
  · intro h
    cases h
    rfl
  · rintro rfl
    rfl

theorem Beside.filled (h : Beside dev w₀ w) (hpos : 0 ≤ pos)
    (hsize : pos + data.length ≤ w₀.mydata.bytesPerClust) :
    Beside dev w₀ (w.filled b pos data) := by
  refine ⟨h.steady, fun b' a ha => ?_⟩
  rw [← h.outside b' a ha]
  exact if_neg (by omega)

/-- What is stored is stored in both. -/
theorem follows_store (hpos : 0 ≤ pos) (hsize : pos + data.length ≤ w₀.mydata.bytesPerClust) :
    Follows (Alike dev w₀ bs) (Alike dev w₀ bs) (FatM.store b pos data)
      (FatM.store b pos data) := by
  intro w w' x v hR hx
  obtain rfl := store_some.mp hx
  refine ⟨w'.filled b pos data, rfl, hR.left.filled hpos hsize, hR.right.filled hpos hsize, ?_⟩
  intro b' hb' a
  exact congrArg (fun byte => if b' = b ∧ pos ≤ a ∧ a < pos + data.length then
    data.getD (a - pos).toNat 0 else byte) (hR.same b' hb' a)

/-- A buffer that is filled is the same in both afterwards. -/
theorem Alike.filled {w w' : World} (h : Alike dev w₀ bs w w')
    (hsize : data.length = w₀.mydata.bytesPerClust) :
    Alike dev w₀ (b :: bs) (w.filled b 0 data) (w'.filled b 0 data) := by
  refine ⟨h.left.filled (Int.le_refl 0) (by omega), h.right.filled (Int.le_refl 0) (by omega), ?_⟩
  intro b' hb' a
  show (if b' = b ∧ 0 ≤ a ∧ a < 0 + data.length then _ else w.bufs b' a) =
    if b' = b ∧ 0 ≤ a ∧ a < 0 + data.length then _ else w'.bufs b' a
  by_cases hin : b' = b ∧ 0 ≤ a ∧ a < 0 + (data.length : Int)
  · rw [if_pos hin, if_pos hin]
  · rw [if_neg hin, if_neg hin]
    rcases List.mem_cons.mp hb' with rfl | hb'
    · have hbytes : ¬ (0 ≤ a ∧ a < 0 + (data.length : Int)) := fun h => hin ⟨rfl, h⟩
      have hout : a < 0 ∨ (w₀.mydata.bytesPerClust : Int) ≤ a := by omega
      rw [h.left.outside b' a hout, h.right.outside b' a hout]
    · exact h.same b' hb' a

theorem readInto_some {sector size : Nat} {read : Option Bytes} {ok : Bool} {u : World} :
    (FatM.readInto b sector size read w).2 = some (ok, u) ↔
      (read = none ∧ ok = false ∧ u = w) ∨
        ∃ data, read = some data ∧ ok = true ∧ u = w.filled b 0 data := by
  cases read with
  | none =>
    constructor
    · intro h
      cases h
      exact .inl ⟨rfl, rfl, rfl⟩
    · rintro (⟨-, rfl, rfl⟩ | ⟨data, h, -⟩)
      · rfl
      · cases h
  | some data =>
    constructor
    · intro h
      cases h
      exact .inr ⟨data, rfl, rfl, rfl⟩
    · rintro (⟨h, -⟩ | ⟨data', h, rfl, rfl⟩)
      · cases h
      · cases h
        rfl

/-- A read into a buffer, and what comes behind it. -/
theorem Follows.readInto {sector sector' size size' : Nat} {read : Option Bytes}
    {f g : Bool → FatM α} (hread : ∀ data, read = some data →
      data.length = w₀.mydata.bytesPerClust)
    (hno : Follows (Alike dev w₀ bs) S (f false) (g false))
    (hyes : Follows (Alike dev w₀ (b :: bs)) S (f true) (g true)) :
    Follows (Alike dev w₀ bs) S (FatM.readInto b sector size read >>= f)
      (FatM.readInto b sector' size' read >>= g) := by
  intro w w' a v hR hx
  obtain ⟨ok, u, hok, hx⟩ := FatM.bind_some.mp hx
  rcases readInto_some.mp hok with ⟨rfl, rfl, rfl⟩ | ⟨data, rfl, rfl, rfl⟩
  · obtain ⟨v', hv', hS⟩ := hno u w' a v hR hx
    exact ⟨v', FatM.bind_some.mpr ⟨false, w', readInto_some.mpr (.inl ⟨rfl, rfl, rfl⟩), hv'⟩, hS⟩
  · obtain ⟨v', hv', hS⟩ := hyes _ _ a v (hR.filled (hread data rfl)) hx
    exact ⟨v', FatM.bind_some.mpr
      ⟨true, _, readInto_some.mpr (.inr ⟨data, rfl, rfl, rfl⟩), hv'⟩, hS⟩

/-- `get_fatent` returns the same, whatever window is in the buffer. -/
theorem follows_getFatent (hdev : ReadsOf dev disk) (hcache : CacheOk dev w₀.mydata)
    (hc : c < 2 ^ 32) :
    Follows (Alike dev w₀ bs) (Alike dev w₀ bs) (FatM.getFatent dev c)
      (FatM.getFatent dev c) := by
  intro w w' a v hR hx
  cases hx
  obtain ⟨hleft, hsteady⟩ := hR.left.steady.getFatent hdev hcache hc
  obtain ⟨hright, hsteady'⟩ := hR.right.steady.getFatent hdev hcache hc
  refine ⟨{ w' with mydata := (Fat.getFatent dev w'.mydata c).2 }, ?_, ⟨hsteady, hR.left.outside⟩,
    ⟨hsteady', hR.right.outside⟩, hR.same⟩
  rw [hleft, ← hright]
  rfl

/-! ## The slots of a long name -/

theorem Follows.look {f g : Bytes → FatM α} (hb : b ∈ bs)
    (h : ∀ slot, slot.length = 32 → Follows (Alike dev w₀ bs) S (f slot) (g slot)) :
    Follows (Alike dev w₀ bs) S (FatM.look b pos >>= f) (FatM.look b pos >>= g) := by
  intro w w' a v hR hx
  obtain ⟨slot, u, hslot, hx⟩ := FatM.bind_some.mp hx
  obtain ⟨u', hslot', hR'⟩ := follows_look hb pos w w' slot u hR hslot
  obtain ⟨v', hv', hS⟩ := h slot (length_look hslot) u u' a v hR' hx
  exact ⟨v', FatM.bind_some.mpr ⟨slot, u', hslot', hv'⟩, hS⟩

theorem follows_passSlots (hb : b ∈ bs) (nextclust counter : Nat) (slotptr : Int) :
    Follows (Alike dev w₀ bs) (Alike dev w₀ bs) (passSlots b nextclust counter slotptr)
      (passSlots b nextclust counter slotptr) := by
  induction counter generalizing slotptr with
  | zero => exact follows_return (List.Subset.refl _) _
  | succ counter ih =>
    rw [passSlots]
    by_cases hin : slotptr < nextclust
    · rw [if_pos hin]
      refine Follows.look hb fun slot _ => ?_
      by_cases hnum : (slotNum slot).toNat ≠ counter + 1
      · rw [if_pos hnum]
        exact follows_return (List.Subset.refl _) _
      · rw [if_neg hnum]
        exact ih _
    · rw [if_neg hin]
      exact follows_return (List.Subset.refl _) _

theorem follows_seekSlot (hb : .getVfatname ∈ bs) (hle : fuel ≤ fuel') (i : Nat) :
    Follows (Alike dev w₀ bs) (Alike dev w₀ bs) (seekSlot fuel i) (seekSlot fuel' i) := by
  induction fuel generalizing fuel' i with
  | zero => exact follows_outOfRounds _
  | succ fuel ih =>
    obtain ⟨k, rfl⟩ : ∃ k, fuel' = k + 1 := ⟨fuel' - 1, by omega⟩
    rw [seekSlot, seekSlot]
    refine Follows.look hb fun slot _ => ?_
    by_cases hid : 1 < first slot
    · rw [if_pos hid, if_pos hid]
      exact ih (by omega) (i + 1)
    · rw [if_neg hid, if_neg hid]
      exact follows_return (List.Subset.refl _) _

theorem follows_collectBack (hb : .getVfatname ∈ bs) (lName : Bytes) (i : Nat) :
    Follows (Alike dev w₀ bs) (Alike dev w₀ bs) (collectBack lName i) (collectBack lName i) := by
  induction i generalizing lName with
  | zero => exact follows_return (List.Subset.refl _) _
  | succ i ih =>
    rw [collectBack]
    exact Follows.look hb fun slot _ => ih _

theorem follows_collectName (hb : b ∈ bs) (hle : fuel ≤ fuel') (slotptr : Int) (lName : Bytes) :
    Follows (Alike dev w₀ bs) (Alike dev w₀ bs) (collectName b fuel slotptr lName)
      (collectName b fuel' slotptr lName) := by
  induction fuel generalizing fuel' slotptr lName with
  | zero => exact follows_outOfRounds _
  | succ fuel ih =>
    obtain ⟨k, rfl⟩ : ∃ k, fuel' = k + 1 := ⟨fuel' - 1, by omega⟩
    rw [collectName, collectName]
    refine Follows.look hb fun slot _ => ?_
    dsimp only
    by_cases hzero : (slot2str slot).2 = true
    · rw [if_pos hzero, if_pos hzero]
      exact follows_return (List.Subset.refl _) _
    · rw [if_neg hzero, if_neg hzero]
      by_cases hlast : first slot &&& lastLongEntryMask = 0
      · rw [if_pos hlast, if_pos hlast]
        exact ih (by omega) _ _
      · rw [if_neg hlast, if_neg hlast]
        exact follows_return (List.Subset.refl _) _

/-- Whole sectors are read of a cluster. -/
theorem length_getCluster {d : FsData} (hdev : ReadsOf dev disk)
    (h : getCluster dev d c d.bytesPerClust = some data) : data.length = d.bytesPerClust := by
  have hmod : d.bytesPerClust % sectorSize = 0 := Nat.mul_mod_left _ _
  have hdiv : d.bytesPerClust / sectorSize * sectorSize = d.bytesPerClust :=
    Nat.div_mul_cancel (Nat.dvd_of_mod_eq_zero hmod)
  obtain ⟨data', hread, h⟩ := Option.bind_eq_some_iff.mp h
  rw [if_pos hmod] at h
  cases h
  rw [hdev _ _ _ hread, length_readAt, hdiv]

/-- The end of `get_vfatname`: the entry is copied over the first slot. -/
theorem follows_copy (hb : b ∈ bs) (hsub : [.getDentfromdir] ⊆ bs) (hpos : 0 ≤ pos)
    (hsize : pos + 32 ≤ w₀.mydata.bytesPerClust) (slotptr : Int) (lName : Bytes) :
    Follows (Alike dev w₀ bs) (Alike dev w₀ [.getDentfromdir])
      (do
        let realdent ← FatM.look b slotptr
        FatM.store .getDentfromdir pos realdent
        return some (finishName lName))
      (do
        let realdent ← FatM.look b slotptr
        FatM.store .getDentfromdir pos realdent
        return some (finishName lName)) := by
  refine Follows.look hb fun realdent hlen => ?_
  exact (follows_store hpos (by rw [hlen]; exact hsize)).bind fun _ => follows_return hsub _

/-- `get_vfatname` in the buffer of the directory. -/
theorem follows_getVfatname (hdev : ReadsOf dev disk) (hcache : CacheOk dev w₀.mydata)
    (hc : c < 2 ^ 32) (hle : fuel ≤ fuel') (hpos : 0 ≤ pos)
    (hsize : pos + 32 ≤ w₀.mydata.bytesPerClust) :
    Follows (Alike dev w₀ [.getDentfromdir]) (Alike dev w₀ [.getDentfromdir])
      (getVfatname dev fuel c .getDentfromdir pos)
      (getVfatname dev fuel' c .getDentfromdir pos) := by
  have hb : Buf.getDentfromdir ∈ [Buf.getDentfromdir] := List.mem_singleton_self _
  have hboth : [Buf.getDentfromdir] ⊆ [Buf.getVfatname, Buf.getDentfromdir] :=
    List.subset_cons_self _ _
  have hvfat : Buf.getVfatname ∈ [Buf.getVfatname, Buf.getDentfromdir] := List.mem_cons_self
  rw [getVfatname, getVfatname]
  refine Follows.mydata fun e e' he he' => ?_
  dsimp only
  rw [he.geometry.bytesPerClust, he'.geometry.bytesPerClust, he.geometry.fatsize,
    he'.geometry.fatsize]
  refine Follows.look hb fun slot _ => ?_
  refine (follows_passSlots hb _ _ pos).bind fun slotptr => ?_
  cases slotptr with
  | none => exact follows_return (List.Subset.refl _) _
  | some slotptr =>
    dsimp only
    by_cases hend : (w₀.mydata.bytesPerClust : Int) ≤ slotptr
    · rw [if_pos hend, if_pos hend]
      refine (follows_getFatent hdev hcache hc).bind fun next => ?_
      by_cases hcheck : checkClust next w₀.mydata.fatsize = true
      · rw [if_pos hcheck, if_pos hcheck]
        exact follows_return (List.Subset.refl _) _
      · rw [if_neg hcheck, if_neg hcheck]
        refine Follows.mydata fun e e' he he' => ?_
        rw [he.geometry.getCluster, he'.geometry.getCluster]
        refine Follows.readInto (fun data => length_getCluster hdev) ?_ ?_
        · exact follows_return (List.Subset.refl _) _
        · refine (follows_seekSlot hvfat hle 0).bind fun slotptr2 => ?_
          refine (follows_collectBack hvfat [] _).bind fun lName => ?_
          refine (follows_collectName (hboth hb) hle _ lName).bind fun lName => ?_
          exact follows_copy hvfat hboth hpos hsize _ _
    · rw [if_neg hend, if_neg hend]
      refine (follows_collectName hb hle slotptr []).bind fun lName => ?_
      exact follows_copy hb (List.Subset.refl _) hpos hsize _ _

/-! ## A round -/

theorem follows_longName (hdev : ReadsOf dev disk) (hcache : CacheOk dev w₀.mydata)
    (hc : c < 2 ^ 32) (hle : fuel ≤ fuel') (hpos : 0 ≤ pos)
    (hsize : pos + 32 ≤ w₀.mydata.bytesPerClust) (dent : Bytes) :
    Follows (Alike dev w₀ [.getDentfromdir]) (Alike dev w₀ [.getDentfromdir])
      (longName dev fuel c .getDentfromdir pos dent)
      (longName dev fuel' c .getDentfromdir pos dent) := by
  rw [longName, longName]
  by_cases hset : attr dent &&& attrVfat ≠ 0 ∧ first dent &&& lastLongEntryMask ≠ 0
  · rw [if_pos hset, if_pos hset]
    refine (follows_getVfatname hdev hcache hc hle hpos hsize).bind fun lName => ?_
    exact follows_return (List.Subset.refl _) _
  · rw [if_neg hset, if_neg hset]
    exact follows_return (List.Subset.refl _) _

/-- What is done with an entry behind its long name. -/
def afterName (filename : Bytes) (dols : Bool) (pos : Int) (dent : Bytes) :
    Option Bytes → FatM (Look (Option Bytes))
  | none => return .next
  | some lName => do
    if attr dent &&& attrVolume ≠ 0 ∧ dols then return .next
    let dent ← FatM.look .getDentfromdir pos
    if first dent = 0 then return .done none
    if dols then return .next
    if filename ≠ getName dent ∧ filename ≠ lName then return .next
    return .done (some dent)

theorem dirEntryStep_eq : dirEntryStep dev fuel c filename dols pos =
    FatM.look .getDentfromdir pos >>= fun dent =>
      if first dent = deletedFlag then pure .next
      else
        (if attr dent &&& attrVolume ≠ 0 then longName dev fuel c .getDentfromdir pos dent
          else pure (some [])) >>= afterName filename dols pos dent := by
  rw [dirEntryStep]
  refine congrArg _ (funext fun dent => ?_)
  by_cases hdeleted : first dent = deletedFlag
  · rw [if_pos hdeleted, if_pos hdeleted]
  · rw [if_neg hdeleted, if_neg hdeleted]
    by_cases hvolume : attr dent &&& attrVolume ≠ 0
    · simp only [if_pos hvolume]
      rfl
    · simp only [if_neg hvolume]
      rfl

theorem follows_afterName (dent : Bytes) (lName : Option Bytes) :
    Follows (Alike dev w₀ [.getDentfromdir]) (Alike dev w₀ [.getDentfromdir])
      (afterName filename dols pos dent lName) (afterName filename dols pos dent lName) := by
  cases lName with
  | none => exact follows_return (List.Subset.refl _) _
  | some lName =>
    rw [afterName]
    by_cases hls : attr dent &&& attrVolume ≠ 0 ∧ dols = true
    · rw [if_pos hls]
      exact follows_return (List.Subset.refl _) _
    rw [if_neg hls]
    refine Follows.look (List.mem_singleton_self _) fun dent _ => ?_
    by_cases hmarker : first dent = 0
    · rw [if_pos hmarker]
      exact follows_return (List.Subset.refl _) _
    rw [if_neg hmarker]
    by_cases hdols : dols = true
    · rw [if_pos hdols]
      exact follows_return (List.Subset.refl _) _
    rw [if_neg hdols]
    by_cases hname : filename ≠ getName dent ∧ filename ≠ lName
    · rw [if_pos hname]
      exact follows_return (List.Subset.refl _) _
    · rw [if_neg hname]
      exact follows_return (List.Subset.refl _) _

theorem follows_dirEntryStep (hdev : ReadsOf dev disk) (hcache : CacheOk dev w₀.mydata)
    (hc : c < 2 ^ 32) (hle : fuel ≤ fuel') (hpos : 0 ≤ pos)
    (hsize : pos + 32 ≤ w₀.mydata.bytesPerClust) :
    Follows (Alike dev w₀ [.getDentfromdir]) (Alike dev w₀ [.getDentfromdir])
      (dirEntryStep dev fuel c filename dols pos) (dirEntryStep dev fuel' c filename dols pos) := by
  rw [dirEntryStep_eq, dirEntryStep_eq]
  refine Follows.look (List.mem_singleton_self _) fun dent _ => ?_
  by_cases hdeleted : first dent = deletedFlag
  · rw [if_pos hdeleted, if_pos hdeleted]
    exact follows_return (List.Subset.refl _) _
  rw [if_neg hdeleted, if_neg hdeleted]
  refine Follows.bind ?_ (follows_afterName dent)
  by_cases hvolume : attr dent &&& attrVolume ≠ 0
  · rw [if_pos hvolume, if_pos hvolume]
    exact follows_longName hdev hcache hc hle hpos hsize dent
  · rw [if_neg hvolume, if_neg hvolume]
    exact follows_return (List.Subset.refl _) _

theorem follows_forEntries (hdev : ReadsOf dev disk) (hcache : CacheOk dev w₀.mydata)
    (hc : c < 2 ^ 32) (hle : fuel ≤ fuel') (n : Nat) (hpos : 0 ≤ pos)
    (hsize : pos + 32 * n ≤ w₀.mydata.bytesPerClust) :
    Follows (Alike dev w₀ [.getDentfromdir]) (Alike dev w₀ [.getDentfromdir])
      (forEntries (dirEntryStep dev fuel c filename dols) n pos)
      (forEntries (dirEntryStep dev fuel' c filename dols) n pos) := by
  induction n generalizing pos with
  | zero => exact follows_return (List.Subset.refl _) _
  | succ n ih =>
    rw [forEntries, forEntries]
    refine (follows_dirEntryStep hdev hcache hc hle hpos (by omega)).bind fun after => ?_
    cases after with
    | done found => exact follows_return (List.Subset.refl _) _
    | next => exact ih (by omega) (by omega)

theorem direntsPerClust_le (d : FsData) : 32 * d.direntsPerClust ≤ d.bytesPerClust :=
  Nat.mul_div_le _ _

/-- **What a round comes to depends on the cluster only.** -/
theorem dirRound_follows (hdev : ReadsOf dev disk) (hcache : CacheOk dev w₀.mydata)
    (hc : c < 2 ^ 32) (hle : fuel ≤ fuel') :
    Follows (Alike dev w₀ []) (Alike dev w₀ []) (dirRound dev fuel filename dols c)
      (dirRound dev fuel' filename dols c) := by
  have hsub : ([] : List Buf) ⊆ [.getDentfromdir] := List.nil_subset _
  have hroom := direntsPerClust_le w₀.mydata
  rw [dirRound, dirRound]
  refine Follows.mydata fun e e' he he' => ?_
  have hdirents : e.direntsPerClust = w₀.mydata.direntsPerClust := by
    rw [FsData.direntsPerClust, he.geometry.bytesPerClust]
    rfl
  have hdirents' : e'.direntsPerClust = w₀.mydata.direntsPerClust := by
    rw [FsData.direntsPerClust, he'.geometry.bytesPerClust]
    rfl
  dsimp only
  rw [he.geometry.bytesPerClust, he'.geometry.bytesPerClust, he.geometry.getCluster,
    he'.geometry.getCluster, hdirents, hdirents', he.geometry.fatsize, he'.geometry.fatsize]
  refine Follows.readInto (fun data => length_getCluster hdev) ?_ ?_
  · exact follows_return (List.Subset.refl _) _
  · refine (follows_forEntries hdev hcache hc hle _ (Int.le_refl 0) (by omega)).bind fun after => ?_
    cases after with
    | done found => exact follows_return hsub _
    | next =>
      refine (follows_getFatent hdev hcache hc).bind fun next => ?_
      by_cases hcheck : checkClust next w₀.mydata.fatsize = true
      · rw [if_pos hcheck]
        exact follows_return hsub _
      · rw [if_neg hcheck]
        exact follows_return hsub _

/-! ## The loop -/

theorem FatM.bind_snd {β : Type} (x : FatM α) (f : α → FatM β) (w : World) :
    ((x >>= f) w).2 = (x w).2.bind fun p => (f p.1 p.2).2 := by
  rcases hx : x w with ⟨log, _ | ⟨a, u⟩⟩
  · rw [FatM.bind_failed hx, Option.bind_none]
  · rw [FatM.bind_done hx, Option.bind_some]

/-- The entries of a cluster, and the next cluster. -/
theorem dirRound_snd (dev : BlockDev) (filename : Bytes) (dols : Bool) (fuel c : Nat) (w : World) :
    (dirRound dev fuel filename dols c w).2 =
      match getCluster dev w.mydata c w.mydata.bytesPerClust with
      | none => some (.inl none, w)
      | some data =>
        (forEntries (dirEntryStep dev fuel c filename dols) w.mydata.direntsPerClust 0
          (w.filled .getDentfromdir 0 data)).2.bind fun p =>
            match p.1 with
            | .done found => some (.inl found, p.2)
            | .next =>
              some (if checkClust (Fat.getFatent dev p.2.mydata c).1 w.mydata.fatsize then .inl none
                else .inr (Fat.getFatent dev p.2.mydata c).1,
                { p.2 with mydata := (Fat.getFatent dev p.2.mydata c).2 }) := by
  rw [dirRound]
  show ((FatM.readInto .getDentfromdir (startSect w.mydata c) w.mydata.bytesPerClust
    (getCluster dev w.mydata c w.mydata.bytesPerClust) >>= _ : FatM _) w).2 = _
  rw [FatM.bind_snd]
  cases getCluster dev w.mydata c w.mydata.bytesPerClust with
  | none => rfl
  | some data =>
    show ((forEntries (dirEntryStep dev fuel c filename dols) w.mydata.direntsPerClust 0 >>= _ :
      FatM _) (w.filled .getDentfromdir 0 data)).2 = _
    rw [FatM.bind_snd]
    refine congrArg _ (funext fun p => ?_)
    obtain ⟨after, v⟩ := p
    cases after with
    | done found => rfl
    | next =>
      show ((FatM.getFatent dev c >>= _ : FatM _) v).2 = _
      rw [FatM.bind_snd]
      show Option.bind (some ((Fat.getFatent dev v.mydata c).1,
        { v with mydata := (Fat.getFatent dev v.mydata c).2 })) _ = _
      rw [Option.bind_some]
      by_cases hcheck : checkClust (Fat.getFatent dev v.mydata c).1 w.mydata.fatsize = true
      · simp only [if_pos hcheck]
        rfl
      · simp only [if_neg hcheck]
        rfl

/-- The loop goes from round to round. -/
theorem dentFromClusters_succ (dev : BlockDev) (filename : Bytes) (dols : Bool) (fuel c : Nat)
    (w : World) :
    (dentFromClusters dev filename dols (fuel + 1) c w).2 =
      (dirRound dev fuel filename dols c w).2.bind fun p =>
        match p.1 with
        | .inl result => some (result, p.2)
        | .inr next => (dentFromClusters dev filename dols fuel next p.2).2 := by
  rw [dirRound_snd, dentFromClusters]
  show ((FatM.readInto .getDentfromdir (startSect w.mydata c) w.mydata.bytesPerClust
    (getCluster dev w.mydata c w.mydata.bytesPerClust) >>= _ : FatM _) w).2 = _
  rw [FatM.bind_snd]
  cases getCluster dev w.mydata c w.mydata.bytesPerClust with
  | none => rfl
  | some data =>
    show ((forEntries (dirEntryStep dev fuel c filename dols) w.mydata.direntsPerClust 0 >>= _ :
      FatM _) (w.filled .getDentfromdir 0 data)).2 = _
    rw [FatM.bind_snd, Option.bind_assoc]
    refine congrArg _ (funext fun p => ?_)
    obtain ⟨after, v⟩ := p
    cases after with
    | done found => rfl
    | next =>
      show ((FatM.getFatent dev c >>= _ : FatM _) v).2 = _
      rw [FatM.bind_snd]
      show Option.bind (some ((Fat.getFatent dev v.mydata c).1,
        { v with mydata := (Fat.getFatent dev v.mydata c).2 })) _ = _
      rw [Option.bind_some]
      by_cases hcheck : checkClust (Fat.getFatent dev v.mydata c).1 w.mydata.fatsize = true
      · simp only [if_pos hcheck]
        rfl
      · simp only [if_neg hcheck]
        rfl

end Alike

end UBoot.Fs.Fat
