import UBoot.Fs.FatBuffers
import UBoot.Fs.FatScan

/-!
# The root directory of a FAT volume

`do_fat_read` keeps the first sectors of the root directory and of the data in 16 bits, and goes
through the root directory sector by sector, whatever its chain says, up to an end marker.  Where
the volume is small enough for the 16 bits and the directory is as `do_fat_read` takes it to be, it
looks at the entries of the directory up to the file or the marker, and finds the first file with
the name.
-/

namespace UBoot.Fs.Fat

open UBoot.Lib

variable {dev : BlockDev} {d : FsData} {disk : Contents} {base start perClust : Nat}
  {name : Bytes} {dols : Ls}

/-- The addresses of the entries in `do_fat_read_block` that are looked at, the buffer having been
read from a sector. -/
def examined (dev : BlockDev) : Nat → List Access → List Nat
  | _, [] => []
  | _, .read .doFatRead sector _ :: log => examined dev sector log
  | sector, .look .doFatRead pos :: log =>
    (((dev.partOffset + sector) * sectorSize : Nat) + pos).toNat :: examined dev sector log
  | sector, _ :: log => examined dev sector log

theorem examined_looks {sector : Nat} {js : List Nat} {log : List Access} {a : Nat} :
    a ∈ examined dev sector (looks .doFatRead js ++ log) ↔
      (∃ j ∈ js, a = (dev.partOffset + sector) * sectorSize + 32 * j) ∨
        a ∈ examined dev sector log := by
  induction js with
  | nil => simp [looks]
  | cons j js ih =>
    have hcons : looks .doFatRead (j :: js) ++ log =
        .look .doFatRead (32 * j) :: (looks .doFatRead js ++ log) := rfl
    have haddr : (((dev.partOffset + sector) * sectorSize : Nat) + 32 * (j : Int)).toNat =
        (dev.partOffset + sector) * sectorSize + 32 * j := by omega
    rw [hcons, examined, haddr, List.mem_cons, ih, List.exists_mem_cons_iff, or_assoc]

/-! ## Going on -/

theorem FatM.bind_assoc {α β γ : Type} (x : FatM α) (f : α → FatM β) (g : β → FatM γ) :
    x >>= f >>= g = x >>= fun a => f a >>= g := by
  funext w
  rcases hx : x w with ⟨log, _ | ⟨a, w₁⟩⟩
  · rw [FatM.bind_failed (FatM.bind_failed hx), FatM.bind_failed hx]
  · rw [FatM.bind_done hx]
    rcases hf : f a w₁ with ⟨log', _ | ⟨b, w₂⟩⟩
    · have hboth : (x >>= f) w = (log ++ log', none) := by rw [FatM.bind_done hx, hf]
      rw [FatM.bind_failed hboth, FatM.bind_failed hf]
    · have hboth : (x >>= f) w = (log ++ log', some (b, w₂)) := by rw [FatM.bind_done hx, hf]
      rw [FatM.bind_done hboth, FatM.bind_done hf]
      exact Prod.ext (List.append_assoc _ _ _) rfl

/-- Where the search is: the rounds that are left, the sector of the directory and the entry in it,
and the state. -/
structure Place where
  fuel : Nat
  sector : Nat
  entry : Nat
  w : World

/-- The number of the entry in the directory. -/
def Place.index (q : Place) : Nat := 16 * q.sector + q.entry

/-- The search from a place on. -/
def searchFrom (dev : BlockDev) (name : Bytes) (dols : Ls) (start : Nat) (q : Place) :
    FatM (Look (Option Bytes)) := do
  match ← forEntries (rootEntryStep dev q.fuel name dols) (16 - q.entry) (32 * q.entry) with
  | .done found => return .done found
  | .next => rootSectors dev name dols q.fuel (start + q.sector + 1)

/-- What holds at a place. -/
structure At (d : FsData) (disk : Contents) (base perClust : Nat) (q : Place) : Prop where
  entry : q.entry < 16
  holds : Holds .doFatRead d disk base perClust q.sector q.entry q.w

/-- From one place to another, with the entries that are looked at on the way. -/
def Leads (dev : BlockDev) (name : Bytes) (dols : Ls) (start base : Nat) (seen : Nat → Prop)
    (q q' : Place) : Prop :=
  ∀ log r w, Does (searchFrom dev name dols start q') q'.w log r w →
    ∃ log', Does (searchFrom dev name dols start q) q.w log' r w ∧
      ∀ a, a ∈ examined dev (start + q.sector) log' ↔
        (∃ i, seen i ∧ a = base + 32 * i) ∨ a ∈ examined dev (start + q'.sector) log

theorem Leads.trans {seen seen' : Nat → Prop} {q q' q'' : Place}
    (h : Leads dev name dols start base seen q q')
    (h' : Leads dev name dols start base seen' q' q'') :
    Leads dev name dols start base (fun i => seen i ∨ seen' i) q q'' := by
  intro log r w hdoes
  obtain ⟨log', hdoes, hseen'⟩ := h' log r w hdoes
  obtain ⟨log'', hdoes, hseen⟩ := h log' r w hdoes
  refine ⟨log'', hdoes, fun a => ?_⟩
  rw [hseen, hseen', ← or_assoc]
  refine or_congr_left ?_
  constructor
  · rintro (⟨i, hi, rfl⟩ | ⟨i, hi, rfl⟩)
    · exact ⟨i, .inl hi, rfl⟩
    · exact ⟨i, .inr hi, rfl⟩
  · rintro ⟨i, hi | hi, rfl⟩
    · exact .inl ⟨i, hi, rfl⟩
    · exact .inr ⟨i, hi, rfl⟩

theorem Leads.refl (q : Place) : Leads dev name dols start base (fun _ => False) q q :=
  fun log _ _ hdoes => ⟨log, hdoes, fun a => by simp⟩

/-- The directory begins with the sector `start`, at the address `base`, and `perClust` entries are
read at a time. -/
structure Scanning (dev : BlockDev) (d : FsData) (disk : Contents) (base start perClust : Nat) :
    Prop where
  reads : Reads dev disk
  clust : perClust = 16 * d.clustSize.toNat
  pos : 16 ≤ perClust
  base : base = (dev.partOffset + start) * sectorSize

theorem examined_at {s a : Nat} {js : List Nat} {log : List Access}
    (hs : Scanning dev d disk base start perClust) :
    a ∈ examined dev (start + s) (looks .doFatRead js ++ log) ↔
      (∃ i, (∃ j ∈ js, i = 16 * s + j) ∧ a = base + 32 * i) ∨ a ∈ examined dev (start + s) log := by
  have haddr (k : Nat) : (dev.partOffset + (start + s)) * sectorSize + 32 * k =
      base + 32 * (16 * s + k) := by
    rw [hs.base, sectorSize]
    omega
  rw [examined_looks]
  refine or_congr_left ?_
  constructor
  · rintro ⟨k, hk, rfl⟩
    exact ⟨_, ⟨k, hk, rfl⟩, haddr k⟩
  · rintro ⟨_, ⟨k, hk, rfl⟩, rfl⟩
    exact ⟨k, hk, (haddr k).symm⟩

/-- A sector of the directory, with those behind it, is read into the buffer. -/
theorem does_read {w : World} {s : Nat} (hs : Scanning dev d disk base start perClust)
    (hd : w.mydata = d) (hbound : dev.partOffset + start + s < 2 ^ 32) :
    ∃ w', Does (FatM.readInto .doFatRead (start + s) d.bytesPerClust
        (diskRead dev (start + s) d.clustSize.toNat)) w
        [.read .doFatRead (start + s) d.bytesPerClust] true w' ∧
      Holds .doFatRead d disk base perClust s 0 w' := by
  have hsize : d.bytesPerClust = 32 * perClust := by
    rw [FsData.bytesPerClust, sectorSize, hs.clust]
    omega
  have hdata : diskRead dev (start + s) d.clustSize.toNat =
      some (readAt disk (base + 512 * s) d.bytesPerClust) := by
    have hmod : (start + s + dev.partOffset) % 2 ^ 32 = dev.partOffset + start + s := by
      rw [Nat.mod_eq_of_lt (by omega)]
      omega
    have hpos : (dev.partOffset + start + s) * sectorSize = base + 512 * s := by
      rw [hs.base, sectorSize]
      omega
    rw [diskRead, hmod, hs.reads, hpos, FsData.bytesPerClust]
  rw [hdata]
  refine ⟨_, rfl, hd, hsize, fun a _ hlt => ?_⟩
  have hlen : (readAt disk (base + 512 * s) d.bytesPerClust).length = d.bytesPerClust :=
    length_readAt _ _ _
  show (if Buf.doFatRead = .doFatRead ∧ (0 : Int) ≤ a ∧
    (a : Int) < 0 + (readAt disk (base + 512 * s) d.bytesPerClust).length then
      (readAt disk (base + 512 * s) d.bytesPerClust).getD ((a : Int) - 0).toNat 0 else _) = _
  rw [if_pos ⟨rfl, by omega, by omega⟩, show ((a : Int) - 0).toNat = a by omega,
    List.getD_eq_getElem?_getD, getElem?_readAt (by omega), Option.getD_some]

/-- The loop over the sectors reads one and searches on in it. -/
theorem rootSectors_search (name : Bytes) (dols : Ls) (fuel s : Nat) {w : World}
    (hs : Scanning dev d disk base start perClust) (hd : w.mydata = d)
    (hbound : dev.partOffset + start + s < 2 ^ 32) :
    ∃ w', At d disk base perClust ⟨fuel, s, 0, w'⟩ ∧
      ∀ log r w'', Does (searchFrom dev name dols start ⟨fuel, s, 0, w'⟩) w' log r w'' →
        Does (rootSectors dev name dols (fuel + 1) (start + s)) w
          (.read .doFatRead (start + s) d.bytesPerClust :: log) r w'' := by
  obtain ⟨w', hdoes, hholds⟩ := does_read (s := s) hs hd hbound
  refine ⟨w', ⟨Nat.zero_lt_succ 15, hholds⟩, fun log r w'' hsearch => ?_⟩
  rw [rootSectors]
  refine Does.bind_nil Does.mydata ?_
  rw [hd]
  exact hdoes.bind hsearch

/-- What has been found in the entry at a place is the result. -/
theorem search_done {q : Place} {js : List Nat} {found : Option Bytes} {w : World}
    (hq : q.entry < 16) (hstep : Does (rootEntryStep dev q.fuel name dols (32 * q.entry)) q.w
      (looks .doFatRead js) (.done found) w) :
    Does (searchFrom dev name dols start q) q.w (looks .doFatRead js) (.done found) w := by
  obtain ⟨n, hn⟩ : ∃ n, 16 - q.entry = n + 1 := ⟨15 - q.entry, by omega⟩
  have hlog : looks .doFatRead js = looks .doFatRead js ++ [] := by rw [List.append_nil]
  rw [hlog, searchFrom, hn, forEntries, FatM.bind_assoc]
  refine hstep.bind ?_
  exact Does.pure

/-- An entry that is passed over leads to the next one. -/
theorem search_next {q : Place} {js : List Nat} {w : World}
    (hs : Scanning dev d disk base start perClust)
    (hq : At d disk base perClust q)
    (hstep : Does (rootEntryStep dev q.fuel name dols (32 * q.entry)) q.w (looks .doFatRead js)
      .next w)
    (hw : Holds .doFatRead d disk base perClust q.sector (q.entry + 1) w) (hfuel : 0 < q.fuel)
    (hbound : dev.partOffset + start + (q.index + 1) / 16 < 2 ^ 32) :
    ∃ q', At d disk base perClust q' ∧ q'.index = q.index + 1 ∧ q.fuel ≤ q'.fuel + 1 ∧
      Leads dev name dols start base (fun i => ∃ j ∈ js, i = 16 * q.sector + j) q q' := by
  have hentry := hq.entry
  obtain ⟨fuel, s, j, w₀⟩ := q
  simp only [Place.index] at hbound hentry ⊢
  obtain ⟨n, hn⟩ : ∃ n, 16 - j = n + 1 := ⟨15 - j, by omega⟩
  have hfirst (log : List Access) (r : Look (Option Bytes)) (w' : World)
      (hrest : Does (do
        match ← forEntries (rootEntryStep dev fuel name dols) n (32 * (j : Int) + 32) with
        | .done found => return .done found
        | .next => rootSectors dev name dols fuel (start + s + 1)) w log r w') :
      Does (searchFrom dev name dols start ⟨fuel, s, j, w₀⟩) w₀ (looks .doFatRead js ++ log) r
        w' := by
    rw [searchFrom]
    simp only
    rw [hn, forEntries, FatM.bind_assoc]
    exact hstep.bind hrest
  rcases Nat.lt_or_ge j 15 with hj | hj
  · refine ⟨⟨fuel, s, j + 1, w⟩, ⟨Nat.succ_lt_succ hj, hw⟩, rfl, Nat.le_succ fuel,
      fun log r w' hdoes => ?_⟩
    refine ⟨looks .doFatRead js ++ log, hfirst log r w' ?_, fun a => examined_at hs⟩
    rw [searchFrom] at hdoes
    simp only at hdoes
    rw [show 16 - (j + 1) = n by omega, show 32 * (((j + 1 : Nat)) : Int) = 32 * (j : Int) + 32 by
      omega] at hdoes
    exact hdoes
  · obtain ⟨fuel, rfl⟩ := Nat.exists_eq_succ_of_ne_zero (show fuel ≠ 0 by exact Nat.ne_of_gt hfuel)
    obtain ⟨w₁, hat, hsearch⟩ := rootSectors_search name dols fuel (s + 1) hs hw.mydata
      (by omega)
    have hindex : 16 * (s + 1) + 0 = 16 * s + j + 1 := by omega
    refine ⟨⟨fuel, s + 1, 0, w₁⟩, hat, hindex, Nat.le_refl _, fun log r w' hdoes => ?_⟩
    refine ⟨looks .doFatRead js ++
        ([] ++ (.read .doFatRead (start + (s + 1)) d.bytesPerClust :: log)),
      hfirst _ r w' ?_, fun a => examined_at hs⟩
    rw [show n = 0 by omega]
    exact Does.bind Does.pure (hsearch log r w' hdoes)

theorem Leads.congr {seen seen' : Nat → Prop} {q q' : Place}
    (h : Leads dev name dols start base seen q q') (hseen : ∀ i, seen i ↔ seen' i) :
    Leads dev name dols start base seen' q q' := by
  obtain rfl : seen = seen' := funext fun i => propext (hseen i)
  exact h

/-! ## The items of the directory -/

/-- The search from a place comes to a result, and looks at these entries. -/
def Finds (dev : BlockDev) (d : FsData) (name : Bytes) (dols : Ls) (start base : Nat)
    (found : Option Bytes) (seen : Nat → Prop) (q : Place) : Prop :=
  ∃ log w, Does (searchFrom dev name dols start q) q.w log (.done found) w ∧ w.mydata = d ∧
    ∀ a, a ∈ examined dev (start + q.sector) log ↔ ∃ i, seen i ∧ a = base + 32 * i

theorem Finds.congr {found : Option Bytes} {seen seen' : Nat → Prop} {q : Place}
    (h : Finds dev d name dols start base found seen q) (hseen : ∀ i, seen i ↔ seen' i) :
    Finds dev d name dols start base found seen' q := by
  obtain rfl : seen = seen' := funext fun i => propext (hseen i)
  exact h

/-- A way to a place, and the search from there. -/
theorem Leads.finds {found : Option Bytes} {seen seen' : Nat → Prop} {q q' : Place}
    (h : Leads dev name dols start base seen q q')
    (h' : Finds dev d name dols start base found seen' q') :
    Finds dev d name dols start base found (fun i => seen i ∨ seen' i) q := by
  obtain ⟨log, w, hdoes, hw, hseen'⟩ := h'
  obtain ⟨log', hdoes, hseen⟩ := h log _ w hdoes
  refine ⟨log', w, hdoes, hw, fun a => ?_⟩
  rw [hseen, hseen']
  constructor
  · rintro (⟨i, hi, rfl⟩ | ⟨i, hi, rfl⟩)
    · exact ⟨i, .inl hi, rfl⟩
    · exact ⟨i, .inr hi, rfl⟩
  · rintro ⟨i, hi | hi, rfl⟩
    · exact .inl ⟨i, hi, rfl⟩
    · exact .inr ⟨i, hi, rfl⟩

theorem At.mod {q : Place} (hq : At d disk base perClust q) : q.index % 16 = q.entry := by
  have := hq.entry
  rw [Place.index]
  omega

/-- The search ends at a place. -/
theorem finds_done {q : Place} {js : List Nat} {found : Option Bytes} {w : World}
    (hs : Scanning dev d disk base start perClust) (hq : At d disk base perClust q)
    (hstep : Does (rootEntryStep dev q.fuel name dols (32 * q.entry)) q.w (looks .doFatRead js)
      (.done found) w)
    (hw : w.mydata = d) :
    Finds dev d name dols start base found (fun i => ∃ j ∈ js, i = 16 * q.sector + j) q := by
  refine ⟨looks .doFatRead js, w, search_done hq.entry hstep, hw, fun a => ?_⟩
  rw [← List.append_nil (looks .doFatRead js), examined_at hs]
  exact or_iff_left List.not_mem_nil

variable {q : Place} {slot dent : Bytes}

/-- An entry without the volume attribute and without the name. -/
theorem search_plain (hs : Scanning dev d disk base start perClust) (hq : At d disk base perClust q)
    (hslot : slotAt disk base q.index = slot) (hattr : attr slot &&& attrVolume = 0)
    (hfirst : first slot ≠ 0) (hname : name ≠ []) (hdols : dols ≠ .root)
    (hne : name ≠ getName slot) (hfuel : 0 < q.fuel)
    (hbound : dev.partOffset + start + (q.index + 1) / 16 < 2 ^ 32) :
    ∃ q', At d disk base perClust q' ∧ q'.index = q.index + 1 ∧ q.fuel ≤ q'.fuel + 1 ∧
      Leads dev name dols start base (fun i => i = q.index) q q' := by
  have hpos := hs.pos
  have hentry := hq.entry
  have hstep : Does (rootEntryStep dev q.fuel name dols (32 * q.entry)) q.w
      (looks .doFatRead [q.entry, q.entry]) _ q.w :=
    step_plain hq.holds (by omega) hslot hattr hfirst hname hdols
  rw [if_neg hne] at hstep
  obtain ⟨q', hat, hindex, hfuel, hleads⟩ :=
    search_next hs hq hstep (hq.holds.mono (Nat.le_succ _)) hfuel hbound
  refine ⟨q', hat, hindex, hfuel, hleads.congr fun i => ?_⟩
  simp [Place.index]

/-- The slots of a long name behind the first are passed over. -/
theorem search_tail (name : Bytes) (dols : Ls) (hs : Scanning dev d disk base start perClust)
    {tail : List Bytes} :
    ∀ {q : Place}, At d disk base perClust q →
      (∀ x ∈ tail, first x &&& lastLongEntryMask = 0 ∧ attr x &&& attrVolume ≠ 0) →
      (∀ k x, tail[k]? = some x → slotAt disk base (q.index + k) = x) → tail.length ≤ q.fuel →
      dev.partOffset + start + (q.index + tail.length) / 16 < 2 ^ 32 →
      ∃ q', At d disk base perClust q' ∧ q'.index = q.index + tail.length ∧
        q.fuel ≤ q'.fuel + tail.length ∧
        Leads dev name dols start base (fun i => q.index ≤ i ∧ i < q.index + tail.length) q q' := by
  induction tail with
  | nil =>
    intro q hq _ _ _ _
    refine ⟨q, hq, rfl, Nat.le_refl _, (Leads.refl q).congr fun i => iff_of_false id ?_⟩
    rw [List.length_nil]
    omega
  | cons x tail ih =>
    intro q hq hmem hslots hfuel hbound
    obtain ⟨⟨hmask, hattr⟩, hmem⟩ := List.forall_mem_cons.mp hmem
    rw [List.length_cons] at hfuel hbound
    have hpos := hs.pos
    have hentry := hq.entry
    have hstep : Does (rootEntryStep dev q.fuel name dols (32 * q.entry)) q.w
        (looks .doFatRead [q.entry]) .next q.w :=
      step_skip hq.holds (by omega) (hslots 0 x rfl) hattr hmask
    obtain ⟨q₁, hat, hindex, hfuel₁, hleads⟩ :=
      search_next hs hq hstep (hq.holds.mono (Nat.le_succ _)) (by omega) (by omega)
    obtain ⟨q₂, hat₂, hindex₂, hfuel₂, hleads₂⟩ := ih hat hmem
      (fun k y hy => by
        rw [hindex, Nat.add_assoc, Nat.add_comm 1]
        exact hslots (k + 1) y hy)
      (by omega) (by rw [hindex]; omega)
    refine ⟨q₂, hat₂, by rw [hindex₂, hindex, List.length_cons]; omega,
      by rw [List.length_cons]; omega, (hleads.trans hleads₂).congr fun i => ?_⟩
    simp only [List.mem_singleton, exists_eq_left, hindex, List.length_cons]
    rw [Place.index]
    omega

/-- Something that is not a file. -/
theorem search_other (hs : Scanning dev d disk base start perClust) (hq : At d disk base perClust q)
    (hslot : slotAt disk base q.index = slot) (hwf : (Item.other slot).Wf)
    (hfits : (Item.other slot).Fits (perClust - q.index % 16) (slotAt disk base (q.index + 1)))
    (hright : (Item.other slot).ReadRight name) (hname : name ≠ []) (hdols : dols ≠ .root)
    (hfuel : 0 < q.fuel)
    (hbound : dev.partOffset + start + (q.index + 1) / 16 < 2 ^ 32) :
    ∃ q', At d disk base perClust q' ∧ q'.index = q.index + 1 ∧ q.fuel ≤ q'.fuel + 1 ∧
      ∃ seen : Nat → Prop, (∀ i, seen i → q.index ≤ i ∧ i ≤ q.index + 1) ∧ seen q.index ∧
        Leads dev name dols start base seen q q' := by
  have hpos := hs.pos
  have hentry := hq.entry
  obtain ⟨hfirst, hkind⟩ := hwf
  by_cases hattr : attr slot &&& attrVolume = 0
  · have hdeleted : getName slot = [] := getName_deleted (hkind.resolve_right fun h => h hattr)
    obtain ⟨q', hat, hindex, hfuel, hleads⟩ := search_plain hs hq hslot hattr hfirst hname hdols
      (by rw [hdeleted]; exact hname) hfuel hbound
    exact ⟨q', hat, hindex, hfuel, fun i => i = q.index, fun i hi => by omega, rfl, hleads⟩
  by_cases hmask : first slot &&& lastLongEntryMask = 0
  · have hstep : Does (rootEntryStep dev q.fuel name dols (32 * q.entry)) q.w
        (looks .doFatRead [q.entry]) .next q.w :=
      step_skip hq.holds (by omega) hslot hattr hmask
    obtain ⟨q', hat, hindex, hfuel, hleads⟩ :=
      search_next hs hq hstep (hq.holds.mono (Nat.le_succ _)) hfuel hbound
    refine ⟨q', hat, hindex, hfuel, _, fun i hi => ?_, ?_, hleads⟩
    · obtain ⟨j, hj, rfl⟩ := hi
      rw [List.mem_singleton.mp hj, Place.index]
      omega
    · exact ⟨_, List.mem_singleton_self _, rfl⟩
  · obtain ⟨hin, hnum, hnext⟩ := hfits hattr hmask
    have hne := hright hattr hmask
    rw [hq.mod] at hin
    have hvfat : Does (getVfatname dev q.fuel 0 .doFatRead (32 * q.entry)) q.w
        (looks .doFatRead [q.entry, q.entry, q.entry + 1]) none q.w :=
      getVfatname_mistaken hq.holds hslot (by omega) hnum hnext
    have hlook := hq.holds.look (Nat.le_refl _) (show q.entry < perClust by omega)
    rw [show 16 * q.sector + q.entry = q.index from rfl, hslot] at hlook
    have hstep : Does (rootEntryStep dev q.fuel name dols (32 * q.entry)) q.w _ _ q.w :=
      step_named hq.holds (by omega) hslot hattr hmask hdols hvfat hlook
    rw [if_neg (by rw [Option.getD_none]; tauto)] at hstep
    obtain ⟨q', hat, hindex, hfuel, hleads⟩ :=
      search_next hs hq hstep (hq.holds.mono (Nat.le_succ _)) hfuel hbound
    refine ⟨q', hat, hindex, hfuel, _, fun i hi => ?_, ?_, hleads⟩
    · obtain ⟨j, hj, rfl⟩ := hi
      have : j = q.entry ∨ j = q.entry + 1 ∨ j = q.entry := by simpa using hj
      rw [Place.index]
      omega
    · exact ⟨_, List.mem_append_left _ (List.mem_singleton_self _), rfl⟩

/-- Something that looks like a set of one slot: what is behind it is found, or the search goes
on. -/
theorem search_label (hs : Scanning dev d disk base start perClust) (hq : At d disk base perClust q)
    (hslot : slotAt disk base q.index = slot)
    (hread : (Item.other slot).OneSlot name (perClust - q.index % 16)
      (slotAt disk base (q.index + 1)))
    (hdols : dols ≠ .root) (hfuel : 22 ≤ q.fuel)
    (hbound : dev.partOffset + start + (q.index + 1) / 16 < 2 ^ 32) :
    (name = getName (slotAt disk base (q.index + 1)) ∧ Finds dev d name dols start base
      (some (slotAt disk base (q.index + 1))) (fun i => q.index ≤ i ∧ i ≤ q.index + 1) q) ∨
    (name ≠ getName (slotAt disk base (q.index + 1)) ∧
      ∃ q', At d disk base perClust q' ∧ q'.index = q.index + 1 ∧ q.fuel ≤ q'.fuel + 1 ∧
        Leads dev name dols start base (fun i => q.index ≤ i ∧ i ≤ q.index + 1) q q') := by
  obtain ⟨hattr, hmask, hin, hnum, hne, -⟩ := hread
  rw [hq.mod] at hin
  have hpos := hs.pos
  have hentry := hq.entry
  obtain ⟨fuel, hfuelEq⟩ : ∃ fuel, q.fuel = fuel + 1 := ⟨q.fuel - 1, by omega⟩
  have hvfat : Does (getVfatname dev (fuel + 1) 0 .doFatRead (32 * q.entry)) q.w
      (looks .doFatRead [q.entry, q.entry, q.entry, q.entry + 1])
      (some (finishName (longChars slot [])))
      (q.w.stored .doFatRead q.entry (slotAt disk base (q.index + 1))) :=
    getVfatname_label hq.holds hslot (by omega) hnum hmask rfl
  rw [← hfuelEq] at hvfat
  have hstep : Does (rootEntryStep dev q.fuel name dols (32 * q.entry)) q.w _ _ _ :=
    step_named hq.holds (by omega) hslot hattr hmask hdols hvfat (look_stored length_slotAt)
  rw [Option.getD_some] at hstep
  have hseen (i : Nat) : (∃ j ∈ [q.entry] ++ ([q.entry, q.entry, q.entry, q.entry + 1] ++
      [q.entry]), i = 16 * q.sector + j) ↔ q.index ≤ i ∧ i ≤ q.index + 1 := by
    simp only [List.mem_append, List.mem_cons, List.not_mem_nil, or_false, Place.index]
    constructor
    · rintro ⟨j, hj, rfl⟩
      omega
    · intro hi
      exact ⟨i - 16 * q.sector, by omega, by omega⟩
  by_cases hfound : name = getName (slotAt disk base (q.index + 1))
  · left
    rw [if_pos (.inl hfound)] at hstep
    exact ⟨hfound, (finds_done hs hq hstep hq.holds.mydata).congr hseen⟩
  · right
    rw [if_neg (not_or.mpr ⟨hfound, hne⟩)] at hstep
    obtain ⟨q', hat, hindex, hfuel', hleads⟩ :=
      search_next hs hq hstep (hq.holds.stored length_slotAt) (by omega) hbound
    exact ⟨hfound, q', hat, hindex, hfuel', hleads.congr hseen⟩

/-- The set of a file with a long name: the file is found at the first slot, or the search goes on
behind the entry of the file. -/
theorem search_set (hs : Scanning dev d disk base start perClust) (hq : At d disk base perClust q)
    {head : Bytes} {tail : List Bytes} (hwf : (Item.longFile head tail dent).Wf)
    (hin : tail.length + 2 ≤ perClust - q.index % 16)
    (hright : (Item.longFile head tail dent).ReadRight name)
    (hslots : ∀ k x, (head :: tail ++ [dent])[k]? = some x → slotAt disk base (q.index + k) = x)
    (hname : name ≠ []) (hdols : dols ≠ .root) (hfuel : 22 ≤ q.fuel)
    (hbound : dev.partOffset + start + (q.index + tail.length + 2) / 16 < 2 ^ 32) :
    ((Item.longFile head tail dent).find name = some dent ∧
      Finds dev d name dols start base (some dent)
        (fun i => q.index ≤ i ∧ i ≤ q.index + tail.length + 1) q) ∨
    ((Item.longFile head tail dent).find name = none ∧
      ∃ q', At d disk base perClust q' ∧ q'.index = q.index + tail.length + 2 ∧
        q.fuel ≤ q'.fuel + tail.length + 2 ∧ Leads dev name dols start base
          (fun i => q.index ≤ i ∧ i ≤ q.index + tail.length + 1) q q') := by
  rw [hq.mod] at hin
  have hset := hwf
  obtain ⟨hnum, hlen, hattr, htail, hfile⟩ := hwf
  have hmask := (slotNum_head hnum (by omega)).2
  have hvolume : attr head &&& attrVolume ≠ 0 := by
    rw [hattr]
    exact vfat_volume
  have hpos := hs.pos
  have hentry := hq.entry
  have hhead : slotAt disk base q.index = head := hslots 0 head rfl
  have hlast : slotAt disk base (q.index + (tail.length + 1)) = dent :=
    hslots (tail.length + 1) dent (by simp)
  have hdent : dent.length = 32 := by rw [← hlast, length_slotAt]
  obtain ⟨js, hvfat, hjs⟩ : ∃ js, Does (getVfatname dev q.fuel 0 .doFatRead (32 * q.entry)) q.w
      (looks .doFatRead js) (some (finishName (longChars head tail)))
        (q.w.stored .doFatRead q.entry dent) ∧
      ∀ i, i ∈ js ↔ q.entry ≤ i ∧ i ≤ q.entry + tail.length + 1 :=
    getVfatname_set hq.holds hset (by omega) (by omega)
      fun k x hx => by
        rw [← Nat.add_assoc]
        exact hslots k x hx
  have hstep : Does (rootEntryStep dev q.fuel name dols (32 * q.entry)) q.w _ _ _ :=
    step_named hq.holds (by omega) hhead hvolume hmask hdols hvfat (look_stored hdent)
  rw [Option.getD_some] at hstep
  have hseen (i : Nat) : (∃ j ∈ [q.entry] ++ (js ++ [q.entry]), i = 16 * q.sector + j) ↔
      q.index ≤ i ∧ i ≤ q.index + tail.length + 1 := by
    simp only [List.mem_append, List.mem_singleton, hjs, Place.index]
    constructor
    · rintro ⟨j, hj, rfl⟩
      omega
    · intro hi
      exact ⟨i - 16 * q.sector, by omega, by omega⟩
  by_cases hfound : name = getName dent ∨ name = finishName (longChars head tail)
  · left
    rw [if_pos hfound] at hstep
    exact ⟨if_pos (hright.mp hfound), (finds_done hs hq hstep hq.holds.mydata).congr hseen⟩
  · right
    rw [if_neg hfound] at hstep
    refine ⟨if_neg fun h => hfound (hright.mpr h), ?_⟩
    obtain ⟨q₁, hat₁, hindex₁, hfuel₁, hleads₁⟩ :=
      search_next hs hq hstep (hq.holds.stored hdent) (by omega) (by omega)
    obtain ⟨q₂, hat₂, hindex₂, hfuel₂, hleads₂⟩ := search_tail name dols hs hat₁
      (htail.mem hlen)
      (fun k x hx => by
        rw [hindex₁, Nat.add_assoc, Nat.add_comm 1]
        refine hslots (k + 1) x ?_
        rw [List.cons_append, List.getElem?_cons_succ,
          List.getElem?_append_left (List.getElem?_eq_some_iff.mp hx).1, hx])
      (by omega) (by rw [hindex₁]; omega)
    obtain ⟨q₃, hat₃, hindex₃, hfuel₃, hleads₃⟩ := search_plain hs hat₂
      (by rw [hindex₂, hindex₁, Nat.add_assoc, Nat.add_comm 1]; exact hlast) hfile.1 hfile.2.1
      hname hdols (fun h => hfound (.inl h)) (by omega) (by rw [hindex₂, hindex₁]; omega)
    refine ⟨q₃, hat₃, by rw [hindex₃, hindex₂, hindex₁]; omega, by omega,
      ((hleads₁.trans hleads₂).trans hleads₃).congr fun i => ?_⟩
    rw [hseen, hindex₂, hindex₁]
    omega

/-- The search at an item: the file is found in it or right behind it, or the search goes on. -/
theorem search_item (hs : Scanning dev d disk base start perClust) (hname : name ≠ [])
    (hdols : dols ≠ .root) {item : Item} (hq : At d disk base perClust q) (hwf : item.Wf)
    (hslots : ∀ k x, item.slots[k]? = some x → slotAt disk base (q.index + k) = x)
    (hread : item.Readable name (perClust - q.index % 16) (slotAt disk base (q.index + 1)))
    (hfuel : 22 ≤ q.fuel)
    (hbound : dev.partOffset + start + (q.index + item.slots.length) / 16 < 2 ^ 32) :
    (∃ dent, item.find name = some dent ∧ Finds dev d name dols start base (some dent)
      (fun i => q.index ≤ i ∧ i < q.index + item.slots.length) q) ∨
    (item.find name = none ∧ item.slots.length = 1 ∧
      name = getName (slotAt disk base (q.index + 1)) ∧
      IsFile (slotAt disk base (q.index + 1)) ∧
      Finds dev d name dols start base (some (slotAt disk base (q.index + 1)))
        (fun i => q.index ≤ i ∧ i ≤ q.index + 1) q) ∨
    (item.find name = none ∧ ∃ q', At d disk base perClust q' ∧
      q'.index = q.index + item.slots.length ∧ q.fuel ≤ q'.fuel + item.slots.length ∧
        ∃ seen : Nat → Prop, (∀ i, seen i → q.index ≤ i ∧ i ≤ q.index + item.slots.length) ∧
          (∀ i, q.index ≤ i → i < q.index + item.slots.length → seen i) ∧
          Leads dev name dols start base seen q q') := by
  have hpos := hs.pos
  have hentry := hq.entry
  cases item with
  | file dent =>
    obtain ⟨-, hright⟩ := hread.resolve_right id
    have hslot : slotAt disk base q.index = dent := hslots 0 dent rfl
    by_cases hfound : name = getName dent
    · left
      have hstep : Does (rootEntryStep dev q.fuel name dols (32 * q.entry)) q.w
          (looks .doFatRead [q.entry, q.entry]) _ q.w :=
        step_plain hq.holds (by omega) hslot hwf.1 hwf.2.1 hname hdols
      rw [if_pos hfound] at hstep
      refine ⟨dent, if_pos (hright.mp hfound),
        (finds_done hs hq hstep hq.holds.mydata).congr fun i => ?_⟩
      simp only [List.mem_cons, List.not_mem_nil, or_false, or_self, exists_eq_left, Item.slots,
        List.length_singleton]
      rw [Place.index]
      omega
    · right
      right
      obtain ⟨q', hat, hindex, hfuel, hleads⟩ :=
        search_plain hs hq hslot hwf.1 hwf.2.1 hname hdols hfound (by omega) hbound
      refine ⟨if_neg fun h => hfound (hright.mpr h), q', hat, hindex, hfuel, _, fun i hi => ?_,
        fun i hi hlt => ?_, hleads⟩
      · rw [hi]
        exact ⟨Nat.le_refl _, Nat.le_add_right _ _⟩
      · have hlt : i < q.index + 1 := hlt
        omega
  | longFile head tail dent =>
    obtain ⟨hin, hright⟩ := hread.resolve_right id
    have hlen : (Item.longFile head tail dent).slots.length = tail.length + 2 := by
      simp [Item.slots]
    rw [hlen] at hbound ⊢
    rcases search_set hs hq hwf hin hright hslots hname hdols hfuel hbound with
      ⟨hfind, hfinds⟩ | ⟨hfind, q', hat, hindex, hfuel, hleads⟩
    · exact .inl ⟨dent, hfind, hfinds.congr fun i => by omega⟩
    · exact .inr (.inr ⟨hfind, q', hat, hindex, hfuel, _, fun i hi => by omega,
        fun i hi hlt => by omega, hleads⟩)
  | other slot =>
    right
    have hslot : slotAt disk base q.index = slot := hslots 0 slot rfl
    rcases hread with ⟨hfits, hright⟩ | hlabel
    · right
      obtain ⟨q', hat, hindex, hfuel, seen, hle, hseen, hleads⟩ :=
        search_other hs hq hslot hwf hfits hright hname hdols (by omega) hbound
      refine ⟨rfl, q', hat, hindex, hfuel, seen, hle, fun i hi hlt => ?_, hleads⟩
      have hlt : i < q.index + 1 := hlt
      rwa [show i = q.index by omega]
    · rcases search_label hs hq hslot hlabel hdols hfuel hbound with
        ⟨hfound, hfinds⟩ | ⟨-, q', hat, hindex, hfuel, hleads⟩
      · left
        obtain ⟨-, -, -, -, -, hfile⟩ := hlabel
        exact ⟨rfl, rfl, hfound, hfile hfound, hfinds⟩
      · right
        refine ⟨rfl, q', hat, hindex, hfuel, _, fun i hi => hi, fun i hi hlt => ?_, hleads⟩
        exact ⟨hi, Nat.le_of_lt hlt⟩

/-- A file behind something else is the first of the items that follow. -/
theorem items_of_file {items : List Item} {next : Bytes} (hwf : ∀ item ∈ items, item.Wf)
    (hfile : IsFile next) (hslot : ∀ x, (items.flatMap Item.slots)[0]? = some x → next = x)
    (hend : items = [] → IsMarker next) : ∃ more, items = .file next :: more := by
  cases items with
  | nil => exact absurd (hend rfl).1 hfile.2.1
  | cons item more =>
    have hitem := (List.forall_mem_cons.mp hwf).1
    cases item with
    | file dent =>
      obtain rfl := hslot dent rfl
      exact ⟨more, rfl⟩
    | longFile head tail dent =>
      obtain rfl := hslot head rfl
      exact absurd hfile.1 (by rw [hitem.2.2.1]; exact vfat_volume)
    | other slot =>
      obtain rfl := hslot slot rfl
      exact absurd hitem.2 (not_or.mpr ⟨hfile.2.2, not_not_intro hfile.1⟩)

/-- The search through the items from a place on. -/
theorem search_items (hs : Scanning dev d disk base start perClust) (hname : name ≠ [])
    (hdols : dols ≠ .root) {items : List Item} :
    ∀ {q : Place}, At d disk base perClust q → (∀ item ∈ items, item.Wf) →
      (∀ i x, i ≤ stopIndex name items → (items.flatMap Item.slots)[i]? = some x →
        slotAt disk base (q.index + i) = x) →
      (lookup name items = none → IsMarker (slotAt disk base (q.index + stopIndex name items))) →
      Readable name perClust (slotAt disk base) q.index items →
      stopIndex name items + 22 ≤ q.fuel →
      dev.partOffset + start + (q.index + stopIndex name items + 1) / 16 < 2 ^ 32 →
      Finds dev d name dols start base (lookup name items)
        (fun i => q.index ≤ i ∧ i ≤ q.index + stopIndex name items) q := by
  induction items with
  | nil =>
    intro q hq _ _ hmarker _ _ _
    have hpos := hs.pos
    have hentry := hq.entry
    have hstep : Does (rootEntryStep dev q.fuel name dols (32 * q.entry)) q.w
        (looks .doFatRead [q.entry]) (.done none) q.w :=
      step_marker hq.holds (by omega) (hmarker rfl)
    refine (finds_done hs hq hstep hq.holds.mydata).congr fun i => ?_
    simp only [List.mem_singleton, exists_eq_left, stopIndex]
    rw [Place.index]
    omega
  | cons item items ih =>
    intro q hq hwf hslots hmarker hread hfuel hbound
    obtain ⟨hitem, hwf⟩ := List.forall_mem_cons.mp hwf
    obtain ⟨hread, hreadRest⟩ := hread
    have hlen := slots_pos item
    have hstop : stopIndex name (item :: items) = if item.find name = none then
        item.slots.length + stopIndex name items else item.slots.length - 1 := rfl
    have hge : item.slots.length - 1 ≤ stopIndex name (item :: items) := by
      rw [hstop]
      split <;> omega
    have hitemSlots (k : Nat) (x : Bytes) (hx : item.slots[k]? = some x) :
        slotAt disk base (q.index + k) = x := by
      have hk := (List.getElem?_eq_some_iff.mp hx).1
      refine hslots k x (by omega) ?_
      rw [List.flatMap_cons, List.getElem?_append_left hk, hx]
    rcases search_item hs hname hdols hq hitem hitemSlots hread (by omega) (by omega) with
      ⟨dent, hfind, hfinds⟩ | ⟨hfind, hone, hfound, hfile, hfinds⟩ |
      ⟨hfind, q', hat, hindex, hfuel', seen, hle, hseen, hleads⟩
    · have hlookup : lookup name (item :: items) = some dent := by
        rw [lookup, List.findSome?_cons, hfind]
      rw [hlookup]
      refine hfinds.congr fun i => ?_
      rw [hstop, hfind, if_neg (by simp)]
      omega
    · -- the file behind the label is the next item, and its name is right
      have hlookup : lookup name (item :: items) = lookup name items := by
        rw [lookup, List.findSome?_cons, hfind]
        rfl
      rw [if_pos hfind, hone] at hstop
      obtain ⟨more, rfl⟩ : ∃ more, items = .file (slotAt disk base (q.index + 1)) :: more := by
        refine items_of_file hwf hfile (fun x hx => ?_) fun hnil => ?_
        · refine hslots 1 x (by omega) ?_
          rw [List.flatMap_cons, List.getElem?_append_right (by omega), hone, hx]
        · have hend := hmarker (by rw [hlookup, hnil]; rfl)
          rwa [hstop, hnil] at hend
      obtain ⟨-, hright⟩ := (hreadRest hfind).1.resolve_right id
      have hnext : (Item.file (slotAt disk base (q.index + 1))).find name =
          some (slotAt disk base (q.index + 1)) := if_pos (hright.mp hfound)
      have hzero : stopIndex name (.file (slotAt disk base (q.index + 1)) :: more) = 0 := by
        rw [stopIndex, if_neg (by rw [hnext]; simp)]
        rfl
      rw [hlookup, lookup, List.findSome?_cons, hnext]
      refine hfinds.congr fun i => ?_
      rw [hstop, hzero]
    · have hlookup : lookup name (item :: items) = lookup name items := by
        rw [lookup, List.findSome?_cons, hfind]
        rfl
      rw [if_pos hfind] at hstop
      rw [hstop] at hfuel hbound hslots
      rw [hlookup, hstop, ← Nat.add_assoc, ← hindex] at hmarker
      have hrest := ih hat hwf
        (fun i x hi hx => by
          rw [hindex, Nat.add_assoc]
          refine hslots (item.slots.length + i) x (by omega) ?_
          rw [List.flatMap_cons, List.getElem?_append_right (Nat.le_add_right _ _),
            Nat.add_sub_cancel_left, hx])
        hmarker (by rw [hindex]; exact hreadRest hfind) (by omega) (by rw [hindex]; omega)
      rw [hlookup]
      refine (hleads.finds hrest).congr fun i => ?_
      rw [hindex, hstop]
      constructor
      · rintro (hi | hi)
        · have := hle i hi
          omega
        · omega
      · intro hi
        by_cases hlt : i < q.index + item.slots.length
        · exact .inl (hseen i hi.1 hlt)
        · exact .inr (by omega)

end UBoot.Fs.Fat
