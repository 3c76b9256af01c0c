import UBoot.Common.CmdFlash

/-!
# A range by its start and its length

The form `start +length` of a range.  `addr_spec` moves the last address to the end of its sector,
and `flash_fill_sect_ranges` then looks for the sectors of the range.

* `addrSpec_right_iff`: the sectors chosen are those of the range, if and only if their bank is
  known and, where it ends with the address space, no known bank behind it in the array is at
  address 0 (`RoundedOk`): `addr_first` is 0 when the loop leaves the first of the two.
-/

namespace UBoot.Common

open UBoot.Lib UBoot.LibGeneric

variable {banks : List FlashInfo} {a e first last i k : Nat} {b : FlashInfo} {r : SectRanges}

/-! ## The end of the sector -/

theorem flashSectRoundb_eq_some (h : flashSectRoundb banks a = some e) :
    ∃ (k : Nat) (b : FlashInfo) (i : Nat), banks[k]? = some b ∧ b.InSector i a ∧
      e + 1 = b.sectorStop i := by
  obtain ⟨b, hb, hfound⟩ := List.exists_of_findSome?_eq_some h
  obtain ⟨i, hi, hhit⟩ := List.exists_of_findSome?_eq_some hfound
  obtain ⟨k, hk⟩ := List.mem_iff_getElem?.mp hb
  have hsect := FlashInfo.start_lt_sectorStop (List.mem_range.mp hi)
  rw [sectorEnd_eq] at hhit
  split at hhit
  · next htest =>
    have heq := Option.some.inj hhit
    exact ⟨k, b, i, hk, ⟨List.mem_range.mp hi, htest.2, by omega⟩, by omega⟩
  · cases hhit

theorem flashSectRoundb_isSome :
    (flashSectRoundb banks a).isSome = true ↔ ∃ b ∈ banks, ∃ i, b.InSector i a := by
  constructor
  · intro h
    obtain ⟨e, he⟩ := Option.isSome_iff_exists.mp h
    obtain ⟨k, b, i, hk, hin, -⟩ := flashSectRoundb_eq_some he
    exact ⟨b, List.mem_of_getElem? hk, i, hin⟩
  · rintro ⟨b, hb, i, hi, hlo, hhi⟩
    by_contra hnone
    rw [Bool.not_eq_true, Option.isSome_eq_false_iff, Option.isNone_iff_eq_none, flashSectRoundb,
      List.findSome?_eq_none_iff] at hnone
    have hmiss := List.findSome?_eq_none_iff.mp (hnone b hb) i (List.mem_range.mpr hi)
    rw [sectorEnd_eq, if_pos ⟨by omega, hlo⟩] at hmiss
    cases hmiss

/-! ## The choice for a range that ends with a sector -/

/-- A bank without an address of the range at either end is passed over. -/
theorem fillStep_pass (herror : r.error = none)
    (hno : r.addrFirst ≤ last → b.known = true → ¬ b.InBank r.addrFirst ∧ ¬ b.InBank last) :
    fillStep last r b = { r with chosen := r.chosen ++ [(-1, -1)] } := by
  rw [fillStep]
  by_cases hle : r.addrFirst ≤ last
  · rw [if_pos ⟨herror, hle⟩]
    by_cases hknown : b.known = true
    · obtain ⟨hfirst, hlast⟩ := hno hle hknown
      obtain ⟨hstart, hstop⟩ := scanSectors_found (b := b) hle le_rfl
      have hsize := b.start_lt_stop
      -- neither end of the range is that of a sector
      have hone : (scanSectors b r.addrFirst last b.sectorCount).1 = -1 := by
        rcases hstart with ⟨i, hi, heq, -⟩ | ⟨-, hnone⟩
        · have hin : b.InSector i r.addrFirst :=
            ⟨hi, heq.le, by rw [← heq]; exact FlashInfo.start_lt_sectorStop hi⟩
          exact absurd hin.inBank hfirst
        · exact hnone
      have htwo : (scanSectors b r.addrFirst last b.sectorCount).2 = -1 := by
        rcases hstop with ⟨i, hi, heq, -⟩ | ⟨-, hnone⟩
        · have hsect := FlashInfo.start_lt_sectorStop hi
          have hin : b.InSector i last := ⟨hi, by omega, by omega⟩
          exact absurd hin.inBank hlast
        · exact hnone
      have hout : ¬ (b.start 0 ≤ r.addrFirst ∧ r.addrFirst < b.stop - 1) := by
        rintro ⟨hlo, hhi⟩
        exact hfirst ⟨hlo, by omega⟩
      rw [fillBank, bLast_eq, if_neg (by simp [hknown]), hone, if_neg (by omega), if_neg hout,
        htwo, if_neg (by omega)]
      rw [show scanSectors b r.addrFirst last b.sectorCount = (-1, -1) from Prod.ext hone htwo]
    · rw [fillBank, if_pos (by simpa using hknown)]
  · rw [if_neg fun h => hle h.2]

theorem foldl_pass (herror : r.error = none)
    (hno : ∀ b ∈ banks, r.addrFirst ≤ last → b.known = true →
      ¬ b.InBank r.addrFirst ∧ ¬ b.InBank last) :
    banks.foldl (fillStep last) r =
      { r with chosen := r.chosen ++ List.replicate banks.length (-1, -1) } := by
  induction banks generalizing r with
  | nil => simp
  | cons b banks ih =>
    have hb := hno b List.mem_cons_self
    have hrest := fun c hc => hno c (List.mem_cons_of_mem b hc)
    rw [List.foldl_cons, fillStep_pass herror hb]
    rw [ih (r := { r with chosen := r.chosen ++ [(-1, -1)] }) herror hrest]
    simp [List.replicate_succ]

theorem FlashInfo.start_inj {j : Nat} (hi : i < b.sectorCount) (hj : j < b.sectorCount)
    (h : b.start i = b.start j) : i = j := by
  rcases Nat.lt_trichotomy i j with hlt | heq | hgt
  · have := FlashInfo.start_lt_start hlt hj
    omega
  · exact heq
  · have := FlashInfo.start_lt_start hgt hi
    omega

theorem FlashInfo.sectorStop_inj {j : Nat} (hi : i < b.sectorCount) (hj : j < b.sectorCount)
    (h : b.sectorStop i = b.sectorStop j) : i = j := by
  have hsi := FlashInfo.start_lt_sectorStop hi
  have hsj := FlashInfo.start_lt_sectorStop hj
  rcases Nat.lt_trichotomy i j with hlt | heq | hgt
  · have := FlashInfo.sectorStop_le_start hlt hj
    omega
  · exact heq
  · have := FlashInfo.sectorStop_le_start hgt hi
    omega

/-- The bank of the range is chosen from the sector at its start to the one at its end. -/
theorem fillStep_pick (herror : r.error = none) (hknown : b.known = true) {f : Nat}
    (hf : f < b.sectorCount) (hstart : b.start f = r.addrFirst) (hi : i < b.sectorCount)
    (hstop : b.sectorStop i = last + 1) (hle : r.addrFirst ≤ last) :
    f ≤ i ∧ fillStep last r b =
      ⟨(last + 1) % 2 ^ 32, r.chosen ++ [((f : Int), (i : Int))], r.count + (i - f + 1), none⟩ := by
  have hfi : f ≤ i := by
    by_contra hlt
    have hbefore := FlashInfo.sectorStop_le_start (Nat.lt_of_not_le hlt) hf
    omega
  refine ⟨hfi, ?_⟩
  obtain ⟨hfoundStart, hfoundStop⟩ := scanSectors_found (b := b) hle le_rfl
  have hone : (scanSectors b r.addrFirst last b.sectorCount).1 = f := by
    rcases hfoundStart with ⟨f', hf', heq, hone⟩ | ⟨hnone, -⟩
    · rw [hone, FlashInfo.start_inj hf' hf (heq.trans hstart.symm)]
    · exact absurd hstart (hnone f hf)
  have htwo : (scanSectors b r.addrFirst last b.sectorCount).2 = i := by
    rcases hfoundStop with ⟨i', hi', heq, htwo⟩ | ⟨hnone, -⟩
    · rw [htwo, FlashInfo.sectorStop_inj hi' hi (heq.trans hstop.symm)]
    · exact absurd hstop (hnone i hi)
  rw [fillStep, if_pos ⟨herror, hle⟩, fillBank, if_neg (by simp [hknown]), hone, htwo,
    if_pos (by omega), if_neg (by omega)]
  simp only [if_neg (show ¬ (i : Int) < 0 by omega)]
  rw [if_neg (by omega), next_eq hi, hstop]

theorem BanksApart.not_inBank (hapart : BanksApart banks) {j : Nat} {c : FlashInfo} (hne : j ≠ k)
    (hb : banks[k]? = some b) (hc : banks[j]? = some c) (hin : b.InBank a) : ¬ c.InBank a := by
  rintro ⟨hlo, hhi⟩
  obtain ⟨hlo', hhi'⟩ := hin
  have := hapart.apart hne hb hc
  omega

/-- The range from the start of a sector to the end of one in the same bank, which is bank `k`:
no other one is chosen if the loop does not come to a bank at address 0 behind the end of the
address space. -/
theorem flashFillSectRanges_pick (hapart : BanksApart banks) (hb : banks[k]? = some b)
    (hknown : b.known = true) {f : Nat} (hf : f < b.sectorCount) (hstart : b.start f = first)
    (hi : i < b.sectorCount) (hstop : b.sectorStop i = last + 1) (hle : first ≤ last)
    (hwrap : last + 1 = 2 ^ 32 → ∀ (j : Nat) (c : FlashInfo), k < j → banks[j]? = some c →
      c.known = true → c.start 0 ≠ 0) :
    f ≤ i ∧ flashFillSectRanges banks first last =
      ⟨(last + 1) % 2 ^ 32, List.replicate k (-1, -1) ++ [((f : Int), (i : Int))] ++
        List.replicate (banks.length - (k + 1)) (-1, -1), (i : Int) - f + 1, none⟩ := by
  have hk := (List.getElem?_eq_some_iff.mp hb).1
  have hfirst : b.InBank first := by
    have hsect : b.InSector f first :=
      ⟨hf, hstart.le, hstart ▸ FlashInfo.start_lt_sectorStop hf⟩
    exact hsect.inBank
  have hlast : b.InBank last := by
    have hsect := FlashInfo.start_lt_sectorStop hi
    have hin : b.InSector i last := ⟨hi, by omega, by omega⟩
    exact hin.inBank
  have hend := FlashInfo.sectorStop_le_stop hi
  have htop := b.stop_le
  -- the banks in front of it
  have hbefore : flashFillSectRanges (banks.take k) first last =
      ⟨first, List.replicate k (-1, -1), 0, none⟩ := by
    rw [flashFillSectRanges, foldl_pass rfl]
    · simp [Nat.min_eq_left hk.le]
    · intro c hc _ _
      obtain ⟨j, hj⟩ := List.mem_iff_getElem?.mp hc
      have hjk : j < k := by
        have := (List.getElem?_eq_some_iff.mp hj).1
        rw [List.length_take] at this
        omega
      rw [List.getElem?_take, if_pos hjk] at hj
      exact ⟨hapart.not_inBank (by omega) hb hj hfirst, hapart.not_inBank (by omega) hb hj hlast⟩
  obtain ⟨hfi, hpick⟩ := fillStep_pick (r := ⟨first, List.replicate k (-1, -1), 0, none⟩) rfl hknown
    hf hstart hi hstop hle
  refine ⟨hfi, ?_⟩
  rw [flashFillSectRanges_split (k + 1), flashFillSectRanges_succ hb, hbefore, hpick,
    foldl_pass rfl]
  · simp only [List.length_drop, Int.zero_add]
  · intro c hc hgo hcknown
    obtain ⟨j, hj⟩ := List.mem_iff_getElem?.mp hc
    rw [List.getElem?_drop] at hj
    have hout := hapart.not_inBank (by omega) hb hj hlast
    refine ⟨?_, hout⟩
    -- the loop goes on at address 0 only
    have hmax : last + 1 = 2 ^ 32 := by
      by_contra hne
      dsimp only at hgo
      rw [Nat.mod_eq_of_lt (by omega)] at hgo
      omega
    have hzero := hwrap hmax _ c (by omega) hj hcknown
    dsimp only
    rw [hmax, Nat.mod_self]
    rintro ⟨hlo, -⟩
    omega

theorem chosen_pick {f n j sect : Nat} :
    Chosen (List.replicate k (-1, -1) ++ [((f : Int), (i : Int))] ++ List.replicate n (-1, -1)) j
      sect ↔ j = k ∧ f ≤ sect ∧ sect ≤ i := by
  rw [Chosen]
  constructor
  · rintro ⟨s, t, hst, hpos, hlo, hhi⟩
    rcases Nat.lt_trichotomy j k with hlt | rfl | hgt
    · rw [List.append_assoc, List.getElem?_append_left (by simpa using hlt),
        List.getElem?_replicate, if_pos hlt] at hst
      cases hst
      omega
    · rw [List.append_assoc, List.getElem?_append_right (by simp)] at hst
      simp at hst
      omega
    · have hmem := List.mem_of_getElem? (by
        rwa [List.getElem?_append_right (by simp; omega)] at hst)
      cases List.eq_of_mem_replicate hmem
      omega
  · rintro ⟨rfl, hlo, hhi⟩
    refine ⟨f, i, ?_, by omega, by omega, by omega⟩
    rw [List.append_assoc, List.getElem?_append_right (by simp)]
    simp

/-! ## The form `start +length` -/

/-- A number in hexadecimal with nothing behind it. -/
def ReadsHex (text : Bytes) (x : UInt32) : Prop := text ≠ [] ∧ simpleStrtoul text 16 = (x, [])

/-- The two arguments, for a range that does not go round the end of the address space. -/
structure StartLength (arg1 arg2 : Bytes) (start length : UInt32) : Prop where
  start_reads : ReadsHex arg1 start
  length_reads : ∃ text, arg2 = 43 :: text ∧ ReadsHex text length
  length_pos : 0 < length.toNat
  noWrap : start.toNat + length.toNat ≤ 2 ^ 32

/-- What `addr_spec` does for the bytes from `start` to `finish`, and with its result
`flash_fill_sect_ranges`, if `start` is the start of a sector of the bank of `finish`. -/
structure AddrRight (banks : List FlashInfo) (arg1 arg2 : Bytes) (start finish : Nat) : Prop where
  succeeds : (addrSpec banks arg1 arg2).isSome = true ↔ ∃ b ∈ banks, ∃ i, b.InSector i finish
  rounded : ∀ first last, addrSpec banks arg1 arg2 = some (first, last) →
    first = start ∧ finish ≤ last ∧
      ∀ b ∈ banks, ∀ i, b.InSector i finish → last + 1 = b.sectorStop i
  chosen : ∀ first last, addrSpec banks arg1 arg2 = some (first, last) →
    ∀ b ∈ banks, ∀ f < b.sectorCount, b.start f = start → b.InBank finish →
      (flashFillSectRanges banks first last).error = none ∧
        ∀ (j : Nat) (c : FlashInfo) (sect : Nat), banks[j]? = some c →
          (Chosen (flashFillSectRanges banks first last).chosen j sect ↔
            sect < c.sectorCount ∧ c.Meets sect start finish)

/-- If `start` is the start of a sector of the bank of `finish`, the bank is known, and if the
sector of `finish` ends with the address space, no known bank behind it is at address 0. -/
def RoundedOk (banks : List FlashInfo) (start finish : Nat) : Prop :=
  ∀ (k : Nat) (b : FlashInfo) (f i : Nat), banks[k]? = some b → f < b.sectorCount →
    b.start f = start → b.InSector i finish → b.known = true ∧
      (b.sectorStop i = 2 ^ 32 → ∀ (j : Nat) (c : FlashInfo), k < j → banks[j]? = some c →
        c.known = true → c.start 0 ≠ 0)

theorem addrSpec_eq {arg1 arg2 : Bytes} {start length : UInt32}
    (h : StartLength arg1 arg2 start length) :
    addrSpec banks arg1 arg2 =
      (flashSectRoundb banks (start.toNat + length.toNat - 1)).map (start.toNat, ·) := by
  obtain ⟨⟨hne1, hreads1⟩, ⟨text, rfl, hne2, hreads2⟩, hpos, hwrap⟩ := h
  have hnum1 : notNumber arg1 [] = false := by
    rw [notNumber, decide_eq_false (Ne.symm hne1), Bool.false_or]
    rfl
  have hnum2 : notNumber text [] = false := by
    rw [notNumber, decide_eq_false (Ne.symm hne2), Bool.false_or]
    rfl
  have hsum : (start + length - 1).toNat = start.toNat + length.toNat - 1 := by
    have hone : (1 : UInt32).toNat = 1 := rfl
    rw [UInt32.toNat_sub, UInt32.toNat_add, hone]
    omega
  have hplus : charAt (43 :: text) = 43 := rfl
  rw [addrSpec]
  simp only [hreads1, hnum1, hplus, if_true, List.tail_cons, hreads2, hnum2, Bool.false_eq_true,
    if_false, hsum]
  cases flashSectRoundb banks (start.toNat + length.toNat - 1) with
  | none => rfl
  | some last => rfl

theorem BanksApart.inSector_unique (hapart : BanksApart banks) {j m : Nat} {c : FlashInfo}
    (hb : banks[k]? = some b) (hc : banks[j]? = some c) (hin : b.InSector i a)
    (hin' : c.InSector m a) : j = k ∧ c = b ∧ m = i := by
  have hjk : j = k := by
    by_contra hne
    exact hapart.not_inBank hne hb hc hin.inBank hin'.inBank
  subst hjk
  rw [hb] at hc
  cases hc
  refine ⟨rfl, rfl, ?_⟩
  rcases Nat.lt_trichotomy m i with hlt | heq | hgt
  · have := FlashInfo.sectorStop_le_start hlt hin.1
    have := hin.2.1
    have := hin'.2.2
    omega
  · exact heq
  · have := FlashInfo.sectorStop_le_start hgt hin'.1
    have := hin'.2.1
    have := hin.2.2
    omega

/-- The sectors of a bank that meet the range are those from the one at its start to the one of
its end. -/
theorem meets_iff {finish f sect : Nat} (hf : f < b.sectorCount) (hstart : b.start f = first)
    (hin : b.InSector i finish) (hsect : sect < b.sectorCount) :
    b.Meets sect first finish ↔ f ≤ sect ∧ sect ≤ i := by
  obtain ⟨hi, hlo, hhi⟩ := hin
  constructor
  · rintro ⟨hbelow, habove⟩
    constructor
    · by_contra hlt
      have := FlashInfo.sectorStop_le_start (Nat.lt_of_not_le hlt) hf
      omega
    · by_contra hlt
      have := FlashInfo.sectorStop_le_start (Nat.lt_of_not_le hlt) hsect
      omega
  · rintro ⟨hfs, hsi⟩
    have hle := FlashInfo.start_le_start hsi hi
    have hge := FlashInfo.start_le_start hfs hsect
    have hlt := FlashInfo.start_lt_sectorStop hsect
    exact ⟨by omega, by omega⟩

/-- No sector of another bank meets the range. -/
theorem BanksApart.not_meets (hapart : BanksApart banks) {finish j sect : Nat} {c : FlashInfo}
    (hb : banks[k]? = some b) (hc : banks[j]? = some c) (hne : j ≠ k)
    (hfirst : b.start 0 ≤ first) (hfinish : b.InBank finish) (hsect : sect < c.sectorCount) :
    ¬ c.Meets sect first finish := by
  rintro ⟨hbelow, habove⟩
  have hle := FlashInfo.start_le_start (Nat.zero_le sect) hsect
  have hend := FlashInfo.sectorStop_le_stop hsect
  have hlast := hfinish.2
  have := hapart.apart hne hb hc
  omega

section Right

variable {arg1 arg2 : Bytes} {start length : UInt32} {finish : Nat}

theorem addrSpec_rounded (hapart : BanksApart banks) (h : StartLength arg1 arg2 start length)
    (hfinish : finish = start.toNat + length.toNat - 1)
    (hsome : addrSpec banks arg1 arg2 = some (first, last)) (hb : banks[k]? = some b)
    (hin : b.InSector i finish) : first = start.toNat ∧ last + 1 = b.sectorStop i := by
  rw [addrSpec_eq h, ← hfinish] at hsome
  obtain ⟨e, he, heq⟩ := Option.map_eq_some_iff.mp hsome
  obtain ⟨rfl, rfl⟩ := Prod.mk.inj heq
  obtain ⟨j, c, m, hc, hin', hstop⟩ := flashSectRoundb_eq_some he
  obtain ⟨-, rfl, rfl⟩ := hapart.inSector_unique hb hc hin hin'
  exact ⟨rfl, hstop⟩

theorem addrSpec_isSome (h : StartLength arg1 arg2 start length)
    (hfinish : finish = start.toNat + length.toNat - 1) :
    (addrSpec banks arg1 arg2).isSome = true ↔ ∃ b ∈ banks, ∃ i, b.InSector i finish := by
  rw [addrSpec_eq h, ← hfinish, Option.isSome_map, flashSectRoundb_isSome]

/-- The choice where the bank is known and the loop ends with it. -/
theorem addrSpec_chosen (hapart : BanksApart banks) (h : StartLength arg1 arg2 start length)
    (hfinish : finish = start.toNat + length.toNat - 1)
    (hok : RoundedOk banks start.toNat finish)
    (hsome : addrSpec banks arg1 arg2 = some (first, last)) (hb : banks[k]? = some b) {f : Nat}
    (hf : f < b.sectorCount) (hstart : b.start f = start.toNat) (hin : b.InSector i finish) :
    (flashFillSectRanges banks first last).error = none ∧
      ∀ (j : Nat) (c : FlashInfo) (sect : Nat), banks[j]? = some c →
        (Chosen (flashFillSectRanges banks first last).chosen j sect ↔
          sect < c.sectorCount ∧ c.Meets sect start.toNat finish) := by
  obtain ⟨rfl, hlast⟩ := addrSpec_rounded hapart h hfinish hsome hb hin
  obtain ⟨hknown, hwrap⟩ := hok k b f i hb hf hstart hin
  have hpos := h.length_pos
  have hle : start.toNat ≤ last := by
    have := hin.2.2
    omega
  obtain ⟨-, hfill⟩ := flashFillSectRanges_pick hapart hb hknown hf hstart hin.1 hlast.symm hle
    (fun hmax => hwrap (hlast.symm.trans hmax))
  rw [hfill]
  refine ⟨rfl, ?_⟩
  intro j c sect hc
  rw [chosen_pick]
  constructor
  · rintro ⟨rfl, hfs, hsi⟩
    rw [hb] at hc
    cases hc
    have hsect := Nat.lt_of_le_of_lt hsi hin.1
    exact ⟨hsect, (meets_iff hf hstart hin hsect).mpr ⟨hfs, hsi⟩⟩
  · rintro ⟨hsect, hmeets⟩
    have hbase := FlashInfo.start_le_start (Nat.zero_le f) hf
    have hjk : j = k := by
      by_contra hne
      exact hapart.not_meets hb hc hne (by omega) hin.inBank hsect hmeets
    subst hjk
    rw [hb] at hc
    cases hc
    exact ⟨rfl, (meets_iff hf hstart hin hsect).mp hmeets⟩

/-- What a right choice needs: the sector at the start is chosen, and none at address 0. -/
theorem roundedOk_of_chosen (hapart : BanksApart banks) (hb : banks[k]? = some b) {f : Nat}
    (hf : f < b.sectorCount) (hstart : b.start f = first) (hin : b.InSector i finish)
    (hfirst : first ≤ finish) (hlast : last + 1 = b.sectorStop i)
    (hok : (flashFillSectRanges banks first last).error = none)
    (hchosen : ∀ (j : Nat) (c : FlashInfo) (sect : Nat), banks[j]? = some c →
      (Chosen (flashFillSectRanges banks first last).chosen j sect ↔
        sect < c.sectorCount ∧ c.Meets sect first finish)) :
    b.known = true ∧ (b.sectorStop i = 2 ^ 32 → ∀ (j : Nat) (c : FlashInfo), k < j →
      banks[j]? = some c → c.known = true → c.start 0 ≠ 0) := by
  have hwalk := flashFillSectRanges_walk hok
  have hfi : f ≤ i := by
    by_contra hlt
    have := FlashInfo.sectorStop_le_start (Nat.lt_of_not_le hlt) hf
    have := hin.2.2
    omega
  have hchosenf := (hchosen k b f hb).mpr
    ⟨hf, (meets_iff hf hstart hin hf).mpr ⟨Nat.le_refl f, hfi⟩⟩
  obtain ⟨s, t, hst, hpos, -, -⟩ := hchosenf
  obtain ⟨f', l, rfl, rfl, hpick, hnext⟩ := hwalk.pick_of_chosen hb hst hpos
  refine ⟨hpick.known, ?_⟩
  intro hmax j c hkj hc hcknown hzero
  have hend := FlashInfo.sectorStop_le_stop hin.1
  have htop := b.stop_le
  -- `addr_first` is 0 behind the bank, and bank `j` is chosen
  have hwrapped : addrAt banks first last (k + 1) = 0 := by
    rw [hnext, hpick.stop_eq, hlast, hmax, Nat.min_eq_left (by omega), Nat.mod_self]
  have hczero : c.InBank (addrAt banks first last (k + 1)) := by
    rw [hwrapped]
    exact ⟨hzero.le, by have := c.start_lt_stop; omega⟩
  have hstay := hwalk.stay (knownApart_of_pairwise hapart) hc hcknown hczero hkj
  obtain ⟨m, n, hpick', -, hmn⟩ := hwalk.pick_of_start hc hcknown (by omega) c.count_pos
    (by omega)
  have hm : m = 0 := FlashInfo.start_inj (Nat.lt_of_le_of_lt hpick'.le hpick'.lt) c.count_pos
    (by rw [hpick'.start_eq]; omega)
  obtain ⟨-, hmeets⟩ := (hchosen j c 0 hc).mp ⟨m, n, hmn, by omega, by omega, by omega⟩
  have hbase := FlashInfo.start_le_start (Nat.zero_le f) hf
  exact hapart.not_meets hb hc (by omega) (by omega) hin.inBank c.count_pos hmeets

end Right

/-- A range that is given by its length is rounded to the end of its sector, and its sectors are
chosen, if and only if their bank is known and the loop does not go on at address 0. -/
theorem addrSpec_right_iff {banks : List FlashInfo} (hapart : BanksApart banks)
    {arg1 arg2 : Bytes} {start length : UInt32} (h : StartLength arg1 arg2 start length) :
    AddrRight banks arg1 arg2 start.toNat (start.toNat + length.toNat - 1) ↔
      RoundedOk banks start.toNat (start.toNat + length.toNat - 1) := by
  have hpos := h.length_pos
  constructor
  · intro hright k b f i hb hf hstart hin
    obtain ⟨⟨first, last⟩, hsome⟩ := Option.isSome_iff_exists.mp
      (hright.succeeds.mpr ⟨b, List.mem_of_getElem? hb, i, hin⟩)
    obtain ⟨rfl, hlast⟩ := addrSpec_rounded hapart h rfl hsome hb hin
    obtain ⟨hok, hchosen⟩ := hright.chosen _ last hsome b (List.mem_of_getElem? hb) f hf hstart
      hin.inBank
    exact roundedOk_of_chosen hapart hb hf hstart hin (by omega) hlast hok hchosen
  · intro hok
    refine ⟨addrSpec_isSome h rfl, ?_, ?_⟩
    · intro first last hsome
      obtain ⟨b, hb, i, hin⟩ := (addrSpec_isSome h rfl).mp (by rw [hsome]; rfl)
      obtain ⟨k, hk⟩ := List.mem_iff_getElem?.mp hb
      obtain ⟨rfl, hlast⟩ := addrSpec_rounded hapart h rfl hsome hk hin
      have hhi := hin.2.2
      refine ⟨rfl, by omega, ?_⟩
      intro c hc m hin'
      obtain ⟨j, hj⟩ := List.mem_iff_getElem?.mp hc
      obtain ⟨-, rfl, rfl⟩ := hapart.inSector_unique hk hj hin hin'
      exact hlast
    · intro first last hsome b hb f hf hstart hbank
      obtain ⟨c, hc, i, hin⟩ := (addrSpec_isSome h rfl).mp (by rw [hsome]; rfl)
      obtain ⟨k, hk⟩ := List.mem_iff_getElem?.mp hb
      obtain ⟨j, hj⟩ := List.mem_iff_getElem?.mp hc
      have hjk : j = k := by
        by_contra hne
        exact hapart.not_inBank hne hk hj hbank hin.inBank
      subst hjk
      rw [hk] at hj
      cases hj
      exact addrSpec_chosen hapart h rfl hok hsome hk hf hstart hin

theorem addrSpec_right_secondSector : BanksApart (gapBanks 0 (by decide)) ∧
    addrSpec (gapBanks 0 (by decide)) (str "0") (str "+10001") = some (0, 0x1FFFF) ∧
    AddrRight (gapBanks 0 (by decide)) (str "0") (str "+10001") 0 0x10000 := by
  have hapart : BanksApart (gapBanks 0 (by decide)) :=
    List.pairwise_pair.mpr (Or.inl (by decide))
  have hargs : StartLength (str "0") (str "+10001") 0 0x10001 :=
    ⟨⟨by decide, by decide⟩, ⟨str "10001", by decide, by decide, by decide⟩,
      by decide, by decide⟩
  refine ⟨hapart, by decide, (addrSpec_right_iff hapart hargs).mpr ?_⟩
  intro k b f i hb hf hstart hin
  have hend := FlashInfo.sectorStop_le_stop hin.1
  rcases k with _ | _ | k
  · cases hb
    exact ⟨rfl, fun hmax => absurd (hmax ▸ hend) (by decide)⟩
  · cases hb
    exact ⟨rfl, fun hmax => absurd (hmax ▸ hend) (by decide)⟩
  · cases hb

/-- A bank at the end of the address space in front of one at address 0. -/
def topBanks : List FlashInfo :=
  [FlashInfo.uniform 0xFFFE0000 0x10000 2 (fun _ => false) sector_pos two_sectors two_sectors_lt
      (by decide),
    FlashInfo.uniform 0 0x10000 2 (fun _ => false) sector_pos two_sectors two_sectors_lt
      two_sectors_le]

/-- For the last sector of the first bank, all of the second one is chosen as well. -/
theorem addrSpec_wrong_top : BanksApart topBanks ∧
    StartLength (str "FFFF0000") (str "+10000") 0xFFFF0000 0x10000 ∧
    addrSpec topBanks (str "FFFF0000") (str "+10000") = some (0xFFFF0000, 0xFFFFFFFF) ∧
    flashFillSectRanges topBanks 0xFFFF0000 0xFFFFFFFF = ⟨0x20000, [(1, 1), (0, 1)], 3, none⟩ ∧
    ¬ AddrRight topBanks (str "FFFF0000") (str "+10000") 0xFFFF0000 0xFFFFFFFF := by
  have haddr : addrSpec topBanks (str "FFFF0000") (str "+10000") =
      some (0xFFFF0000, 0xFFFFFFFF) := by
    decide
  have hfill : flashFillSectRanges topBanks 0xFFFF0000 0xFFFFFFFF =
      ⟨0x20000, [(1, 1), (0, 1)], 3, none⟩ := by
    decide
  refine ⟨List.pairwise_pair.mpr (Or.inr (by decide)), ⟨⟨by decide, by decide⟩,
    ⟨str "10000", by decide, by decide, by decide⟩, by decide, by decide⟩, haddr, hfill, ?_⟩
  intro hright
  obtain ⟨-, hchosen⟩ := hright.chosen _ _ haddr _ List.mem_cons_self 1 (by decide) (by decide)
    ⟨by decide, by decide⟩
  rw [hfill] at hchosen
  have hzero : Chosen [(1, 1), (0, 1)] 1 0 := ⟨0, 1, rfl, by decide, by decide, by decide⟩
  exact absurd ((hchosen 1 _ 0 rfl).mp hzero).2.2 (by decide)

end UBoot.Common
