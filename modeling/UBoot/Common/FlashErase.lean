import UBoot.Common.Flash
import Mathlib.Algebra.Order.BigOperators.Group.List
import Mathlib.Data.Nat.Count
import Mathlib.Order.Interval.Finset.Nat

/-!
# Erasing a range of flash

`flash_fill_sect_ranges` and `flash_sect_erase` of `common/cmd_flash.c`.  The first goes through
the banks in the order of the array with `addr_first`, the address from which on sectors are
still to be chosen.  A bank is chosen from where `addr_first` is the start of one of its sectors,
and moves it behind the last sector chosen.  The other banks are passed over, and only some of
them with an error.

* `fillBank_cases`: what a step without an error does.
* `flashSectErase_exact_iff`: the choice is exact if and only if each bank of the range, apart
  from the first one, comes after the one that ends where it starts (`InOrder`), and
  `addr_first` does not go on from 0 behind the end of the address space (`NoWrap`).
-/

namespace UBoot.Common

/-- The errors of `flash_fill_sect_ranges`. -/
inductive FillError where
  | endUnaligned
  | endPrecedes
  | startUnaligned
  | reverseOrder
  deriving DecidableEq, Repr

/-- The text that is printed. -/
def FillError.text : FillError → String
  | endUnaligned => "Error: end address not on sector boundary\n"
  | endPrecedes => "Error: end sector precedes start sector\n"
  | startUnaligned => "Error: start address not on sector boundary\n"
  | reverseOrder => "Error: cannot span across banks when they are mapped in reverse order\n"

/-- The variables of `flash_fill_sect_ranges`: `addr_first`, the pairs of `s_first` and `s_last`
of the banks so far, `s_count`, and the error behind an `rcode` of 1. -/
structure SectRanges where
  addrFirst : Nat
  chosen : List (Int × Int)
  count : Int
  error : Option FillError
  deriving DecidableEq

/-- The last address of a sector. -/
def sectorEnd (b : FlashInfo) (sect : Nat) : Nat :=
  if sect + 1 = b.sectorCount then (b.start 0 + b.size - 1) % 2 ^ 32 else b.start (sect + 1) - 1

/-- One sector in the inner loop, with `s_first` and `s_last` of the bank. -/
def scanSector (b : FlashInfo) (addrFirst addrLast : Nat) (s : Int × Int) (sect : Nat) :
    Int × Int :=
  if sectorEnd b sect < addrFirst then s
  else if addrLast < b.start sect then s
  else (if addrFirst = b.start sect then sect else s.1,
    if addrLast = sectorEnd b sect then sect else s.2)

/-- The inner loop, over the first `n` sectors. -/
def scanSectors (b : FlashInfo) (addrFirst addrLast n : Nat) : Int × Int :=
  (List.range n).foldl (scanSector b addrFirst addrLast) (-1, -1)

/-- The body of the outer loop. -/
def fillBank (addrLast : Nat) (r : SectRanges) (b : FlashInfo) : SectRanges :=
  let bEnd := (b.start 0 + b.size - 1) % 2 ^ 32
  let sEnd : Int := b.sectorCount - 1
  let s := scanSectors b r.addrFirst addrLast b.sectorCount
  let fail (s : Int × Int) (e : FillError) : SectRanges :=
    { r with chosen := r.chosen ++ [s], error := some e }
  if b.known = false then { r with chosen := r.chosen ++ [(-1, -1)] }
  else if 0 ≤ s.1 then
    if s.2 < 0 ∧ addrLast ≤ bEnd then fail s .endUnaligned
    else
      let sLast := if s.2 < 0 then sEnd else s.2
      if sLast < s.1 then fail (s.1, sLast) .endPrecedes
      else
        { addrFirst := if sLast = sEnd then (bEnd + 1) % 2 ^ 32 else b.start (sLast.toNat + 1)
          chosen := r.chosen ++ [(s.1, sLast)]
          count := r.count + (sLast - s.1 + 1)
          error := none }
  else if b.start 0 ≤ r.addrFirst ∧ r.addrFirst < bEnd then fail s .startUnaligned
  else if 0 ≤ s.2 then fail s .reverseOrder
  else { r with chosen := r.chosen ++ [s] }

/-- The outer loop goes on while there is no error and `addr_first <= addr_last`; the pairs of
the banks that it does not reach stay -1. -/
def fillStep (addrLast : Nat) (r : SectRanges) (b : FlashInfo) : SectRanges :=
  if r.error = none ∧ r.addrFirst ≤ addrLast then fillBank addrLast r b
  else { r with chosen := r.chosen ++ [(-1, -1)] }

/-- `flash_fill_sect_ranges` -/
def flashFillSectRanges (banks : List FlashInfo) (addrFirst addrLast : Nat) : SectRanges :=
  banks.foldl (fillStep addrLast) ⟨addrFirst, [], 0, none⟩

/-- A call of `flash_erase`. -/
structure EraseCall where
  bank : Nat
  sFirst : Int
  sLast : Int
  deriving DecidableEq, Repr

/-- The loop of `flash_sect_erase`: the calls of `flash_erase` and the return value. -/
def eraseBanks (answer : Nat → Int) : List ((Int × Int) × Nat) → List EraseCall × Int
  | [] => ([], 0)
  | ((sFirst, sLast), k) :: rest =>
    if 0 ≤ sFirst then
      if answer k ≠ 0 then ([⟨k, sFirst, sLast⟩], answer k)
      else (⟨k, sFirst, sLast⟩ :: (eraseBanks answer rest).1, (eraseBanks answer rest).2)
    else eraseBanks answer rest

/-- `flash_sect_erase`, with the answers of `flash_erase` for the banks. -/
def flashSectErase (banks : List FlashInfo) (answer : Nat → Int) (addrFirst addrLast : Nat) :
    List EraseCall × Int :=
  let r := flashFillSectRanges banks addrFirst addrLast
  if r.count ≠ 0 ∧ r.error = none then eraseBanks answer r.chosen.zipIdx
  else ([], 1)

/-! ## The sectors of a bank -/

/-- What a search through the first `n` sectors leaves: the number of one, or -1. -/
def Found (P : Nat → Prop) (n : Nat) (s : Int) : Prop :=
  (∃ i < n, P i ∧ s = i) ∨ (∀ i < n, ¬ P i) ∧ s = -1

theorem Found.succ_of {P : Nat → Prop} {n : Nat} (h : P n) : Found P (n + 1) n :=
  Or.inl ⟨n, Nat.lt_succ_self n, h, rfl⟩

theorem Found.succ_of_not {P : Nat → Prop} {n : Nat} {s : Int} (h : ¬ P n) (hs : Found P n s) :
    Found P (n + 1) s := by
  rcases hs with ⟨i, hi, hP, rfl⟩ | ⟨hnone, rfl⟩
  · exact Or.inl ⟨i, by omega, hP, rfl⟩
  · refine Or.inr ⟨?_, rfl⟩
    intro i hi
    rcases Nat.lt_succ_iff_lt_or_eq.mp hi with hlt | rfl
    · exact hnone i hlt
    · exact h

section Sectors

variable {b : FlashInfo} {addrFirst addrLast i n : Nat}

theorem bLast_eq (b : FlashInfo) : (b.start 0 + b.size - 1) % 2 ^ 32 = b.stop - 1 := by
  have hlt := b.start_lt_stop
  have hle := b.stop_le
  exact Nat.mod_eq_of_lt (by unfold FlashInfo.stop at *; omega)

theorem sectorEnd_eq (b : FlashInfo) (i : Nat) : sectorEnd b i = b.sectorStop i - 1 := by
  unfold sectorEnd FlashInfo.sectorStop
  split
  · exact bLast_eq b
  · rfl

/-- The inner loop finds the sector that starts at the first address and the one that ends with
the last: the two tests before it skip neither. -/
theorem scanSectors_found (hle : addrFirst ≤ addrLast) (hn : n ≤ b.sectorCount) :
    Found (fun i => b.start i = addrFirst) n (scanSectors b addrFirst addrLast n).1 ∧
      Found (fun i => b.sectorStop i = addrLast + 1) n (scanSectors b addrFirst addrLast n).2 := by
  induction n with
  | zero => exact ⟨Or.inr ⟨by simp, rfl⟩, Or.inr ⟨by simp, rfl⟩⟩
  | succ n ih =>
    obtain ⟨hfirst, hlast⟩ := ih (by omega)
    have hsector := FlashInfo.start_lt_sectorStop (b := b) (i := n) (by omega)
    have hstep : scanSectors b addrFirst addrLast (n + 1) =
        scanSector b addrFirst addrLast (scanSectors b addrFirst addrLast n) n := by
      rw [scanSectors, List.range_succ, List.foldl_append]
      rfl
    rw [hstep, scanSector, sectorEnd_eq]
    split
    · exact ⟨hfirst.succ_of_not (by omega), hlast.succ_of_not (by omega)⟩
    · split
      · exact ⟨hfirst.succ_of_not (by omega), hlast.succ_of_not (by omega)⟩
      · constructor
        · dsimp only
          split
          · exact Found.succ_of (by omega)
          · exact hfirst.succ_of_not (by omega)
        · dsimp only
          split
          · exact Found.succ_of (by omega)
          · exact hlast.succ_of_not (by omega)

/-- The sector has an address in the range. -/
def FlashInfo.Meets (b : FlashInfo) (i addrFirst addrLast : Nat) : Prop :=
  b.start i ≤ addrLast ∧ addrFirst < b.sectorStop i

instance : Decidable (b.Meets i addrFirst addrLast) := by
  unfold FlashInfo.Meets
  infer_instance

/-- The sectors from `f` to `l` are chosen: from the first address on, to the last one or to the
end of the bank. -/
structure Pick (addrFirst addrLast : Nat) (b : FlashInfo) (f l : Nat) : Prop where
  known : b.known = true
  le : f ≤ l
  lt : l < b.sectorCount
  start_eq : b.start f = addrFirst
  first_le : addrFirst ≤ addrLast
  stop_eq : b.sectorStop l = min (addrLast + 1) b.stop

namespace Pick

variable {f l : Nat}

/-- A sector is chosen if it has an address behind the first one of the choice. -/
theorem mem_iff (h : Pick addrFirst addrLast b f l) (hi : i < b.sectorCount) :
    f ≤ i ∧ i ≤ l ↔ b.Meets i addrFirst addrLast := by
  obtain ⟨-, hfl, hl, hstart, hle, hstop⟩ := h
  have hsector := FlashInfo.start_lt_sectorStop hi
  have hend := FlashInfo.sectorStop_le_stop hi
  constructor
  · rintro ⟨hfi, hil⟩
    have hlo : b.start f ≤ b.start i := FlashInfo.start_le_start hfi hi
    have hhi : b.start i ≤ b.start l := FlashInfo.start_le_start hil hl
    have hlast := FlashInfo.start_lt_sectorStop hl
    exact ⟨by omega, by omega⟩
  · rintro ⟨hlo, hhi⟩
    constructor
    · by_contra hlt
      have := FlashInfo.sectorStop_le_start (not_le.mp hlt) (hfl.trans_lt hl)
      omega
    · by_contra hlt
      have := FlashInfo.sectorStop_le_start (not_le.mp hlt) hi
      omega

/-- What is chosen lies inside the range. -/
theorem inside (h : Pick addrFirst addrLast b f l) (hi : i < b.sectorCount) (hfi : f ≤ i)
    (hil : i ≤ l) : addrFirst ≤ b.start i ∧ b.sectorStop i ≤ addrLast + 1 := by
  obtain ⟨-, hfl, hl, hstart, hle, hstop⟩ := h
  have hlo : b.start f ≤ b.start i := FlashInfo.start_le_start hfi hi
  refine ⟨by omega, ?_⟩
  rcases hil.lt_or_eq with hlt | rfl
  · have hnext := FlashInfo.sectorStop_le_start hlt hl
    have hlast := FlashInfo.start_lt_sectorStop hl
    omega
  · omega

theorem inBank (h : Pick addrFirst addrLast b f l) : b.InBank addrFirst := by
  have hf : f < b.sectorCount := h.le.trans_lt h.lt
  have hin : b.InSector f (b.start f) := ⟨hf, le_rfl, FlashInfo.start_lt_sectorStop hf⟩
  rw [h.start_eq] at hin
  exact hin.inBank

end Pick

end Sectors

/-! ## A step -/

section Step

variable {b : FlashInfo} {r : SectRanges} {addrLast : Nat}

/-- The start of the sector behind the last one chosen. -/
theorem next_eq {l : Nat} (hl : l < b.sectorCount) :
    (if (l : Int) = (b.sectorCount : Int) - 1 then ((b.start 0 + b.size - 1) % 2 ^ 32 + 1) % 2 ^ 32
      else b.start ((l : Int).toNat + 1)) = b.sectorStop l % 2 ^ 32 := by
  have hlt := b.start_lt_stop
  unfold FlashInfo.sectorStop
  split
  · rw [if_pos (by omega), bLast_eq, Nat.sub_add_cancel (by omega)]
  · have hnext := FlashInfo.start_lt_sectorStop (b := b) (i := l + 1) (by omega)
    have hend := FlashInfo.sectorStop_le_stop (b := b) (i := l + 1) (by omega)
    have hle := b.stop_le
    rw [if_neg (by omega), Int.toNat_natCast, Nat.mod_eq_of_lt (by omega)]

/-- A bank without an error is chosen from the first address on, or it has no sector there. -/
theorem fillBank_cases (hle : r.addrFirst ≤ addrLast)
    (h : (fillBank addrLast r b).error = none) :
    (∃ f l : Nat, Pick r.addrFirst addrLast b f l ∧ fillBank addrLast r b =
        ⟨b.sectorStop l % 2 ^ 32, r.chosen ++ [((f : Int), (l : Int))], r.count + (l - f + 1),
          none⟩) ∨
      (b.known = true → ∀ i < b.sectorCount, b.start i ≠ r.addrFirst) ∧
        fillBank addrLast r b = { r with chosen := r.chosen ++ [(-1, -1)] } := by
  obtain ⟨hfirst, hlast⟩ := scanSectors_found (b := b) hle le_rfl
  have hpos := b.count_pos
  have hlt := b.start_lt_stop
  unfold fillBank at h ⊢
  rw [bLast_eq] at *
  generalize scanSectors b r.addrFirst addrLast b.sectorCount = s at hfirst hlast h ⊢
  obtain ⟨sFirst, sLast⟩ := s
  dsimp only at hfirst hlast h ⊢
  by_cases hknown : b.known = true
  · rw [if_neg (by simp [hknown])] at h ⊢
    rcases hfirst with ⟨f, hf, hstart, rfl⟩ | ⟨hnone, rfl⟩
    · -- The choice starts here.
      rw [if_pos (by omega)] at h ⊢
      rcases hlast with ⟨l, hl, hstop, rfl⟩ | ⟨-, rfl⟩
      · have hfl : f ≤ l := by
          by_contra hgt
          have := FlashInfo.sectorStop_le_start (not_le.mp hgt) hf
          omega
        have hend := FlashInfo.sectorStop_le_stop hl
        have hfound : ¬ (l : Int) < 0 := by omega
        rw [if_neg (fun hneg => hfound hneg.1)]
        simp only [if_neg hfound]
        rw [if_neg (by omega)]
        refine Or.inl ⟨f, l, ⟨hknown, hfl, hl, hstart, hle, by omega⟩, ?_⟩
        rw [← next_eq hl, bLast_eq]
      · by_cases hend : addrLast ≤ b.stop - 1
        · rw [if_pos ⟨by omega, hend⟩] at h
          cases h
        · have hl : b.sectorCount - 1 < b.sectorCount := by omega
          have hcast : (b.sectorCount : Int) - 1 = (b.sectorCount - 1 : Nat) := by omega
          rw [if_neg (by omega)]
          simp only [if_pos (show (-1 : Int) < 0 by decide), hcast]
          rw [if_neg (by omega)]
          refine Or.inl ⟨f, b.sectorCount - 1, ⟨hknown, by omega, hl, hstart, hle, ?_⟩, ?_⟩
          · rw [FlashInfo.sectorStop, if_pos (by omega)]
            omega
          · rw [← next_eq hl, bLast_eq, hcast, if_pos rfl, if_pos trivial]
    · -- Nothing starts here, and the other errors are excluded.
      rw [if_neg (by omega)] at h ⊢
      refine Or.inr ⟨fun _ => hnone, ?_⟩
      by_cases hin : b.start 0 ≤ r.addrFirst ∧ r.addrFirst < b.stop - 1
      · rw [if_pos hin] at h
        cases h
      · rw [if_neg hin] at h ⊢
        rcases hlast with ⟨l, -, -, rfl⟩ | ⟨-, rfl⟩
        · rw [if_pos (by omega)] at h
          cases h
        · rw [if_neg (by omega)]
  · rw [if_pos (by simpa using hknown)]
    exact Or.inr ⟨fun hk => absurd hk hknown, rfl⟩

theorem fillStep_cases (h : (fillStep addrLast r b).error = none) : r.error = none ∧
    ((∃ f l : Nat, Pick r.addrFirst addrLast b f l ∧ fillStep addrLast r b =
        ⟨b.sectorStop l % 2 ^ 32, r.chosen ++ [((f : Int), (l : Int))], r.count + (l - f + 1),
          none⟩) ∨
      (b.known = true → r.addrFirst ≤ addrLast → ∀ i < b.sectorCount, b.start i ≠ r.addrFirst) ∧
        fillStep addrLast r b = { r with chosen := r.chosen ++ [(-1, -1)] }) := by
  unfold fillStep at h ⊢
  split at h
  · rename_i hrun
    rw [if_pos hrun]
    refine ⟨hrun.1, ?_⟩
    rcases fillBank_cases hrun.2 h with hpick | ⟨hskip, heq⟩
    · exact Or.inl hpick
    · exact Or.inr ⟨fun hk _ => hskip hk, heq⟩
  · rename_i hstop
    rw [if_neg hstop]
    have hr : r.error = none := h
    exact ⟨hr, Or.inr ⟨fun _ hle => absurd ⟨hr, hle⟩ hstop, rfl⟩⟩

theorem fillStep_chosen (addrLast : Nat) (r : SectRanges) (b : FlashInfo) :
    ∃ s, (fillStep addrLast r b).chosen = r.chosen ++ [s] := by
  unfold fillStep fillBank
  dsimp only
  split_ifs <;> exact ⟨_, rfl⟩

end Step

/-! ## A run -/

section Run

variable {banks : List FlashInfo} {addrFirst addrLast i j : Nat} {b c : FlashInfo}

/-- `addr_first` when the loop comes to bank `i`. -/
def addrAt (banks : List FlashInfo) (addrFirst addrLast i : Nat) : Nat :=
  (flashFillSectRanges (banks.take i) addrFirst addrLast).addrFirst

theorem foldl_error {r : SectRanges} (h : (banks.foldl (fillStep addrLast) r).error = none) :
    r.error = none := by
  induction banks generalizing r with
  | nil => exact h
  | cons b banks ih => exact (fillStep_cases (ih h)).1

theorem foldl_chosen (addrLast : Nat) (r : SectRanges) : ∃ rest : List (Int × Int),
    (banks.foldl (fillStep addrLast) r).chosen = r.chosen ++ rest ∧
      rest.length = banks.length := by
  induction banks generalizing r with
  | nil => exact ⟨[], by simp⟩
  | cons b banks ih =>
    obtain ⟨s, hs⟩ := fillStep_chosen addrLast r b
    obtain ⟨rest, hrest, hlen⟩ := ih (fillStep addrLast r b)
    refine ⟨s :: rest, ?_, by simp [hlen]⟩
    rw [List.foldl_cons, hrest, hs, List.append_assoc, List.singleton_append]

theorem flashFillSectRanges_split (n : Nat) : flashFillSectRanges banks addrFirst addrLast =
    (banks.drop n).foldl (fillStep addrLast)
      (flashFillSectRanges (banks.take n) addrFirst addrLast) := by
  rw [flashFillSectRanges, flashFillSectRanges, ← List.foldl_append, List.take_append_drop]

theorem flashFillSectRanges_succ (hb : banks[i]? = some b) :
    flashFillSectRanges (banks.take (i + 1)) addrFirst addrLast =
      fillStep addrLast (flashFillSectRanges (banks.take i) addrFirst addrLast) b := by
  rw [flashFillSectRanges, List.take_add_one, hb, List.foldl_append]
  rfl

/-- A loop without an error: `x i` is `addr_first` when it comes to bank `i`, which it either
chooses from there on or passes over. -/
structure Walk (banks : List FlashInfo) (first last : Nat) (chosen : List (Int × Int))
    (x : Nat → Nat) : Prop where
  length : chosen.length = banks.length
  zero : x 0 = first
  step : ∀ i b, banks[i]? = some b →
    (∃ f l : Nat, Pick (x i) last b f l ∧ x (i + 1) = b.sectorStop l % 2 ^ 32 ∧
      chosen[i]? = some ((f : Int), (l : Int))) ∨
    (b.known = true → x i ≤ last → ∀ k < b.sectorCount, b.start k ≠ x i) ∧ x (i + 1) = x i ∧
      chosen[i]? = some (-1, -1)

theorem flashFillSectRanges_walk
    (hok : (flashFillSectRanges banks addrFirst addrLast).error = none) :
    Walk banks addrFirst addrLast (flashFillSectRanges banks addrFirst addrLast).chosen
      (addrAt banks addrFirst addrLast) := by
  obtain ⟨all, hall, hcount⟩ := @foldl_chosen banks addrLast ⟨addrFirst, [], 0, none⟩
  refine ⟨by rw [flashFillSectRanges, hall, List.nil_append, hcount], rfl, ?_⟩
  intro i b hb
  have hi : i < banks.length := (List.getElem?_eq_some_iff.mp hb).1
  have hsucc := @flashFillSectRanges_succ banks addrFirst addrLast i b hb
  -- The pair of the bank is not touched by the rest of the run.
  have hentry (s : Int × Int)
      (hs : (flashFillSectRanges (banks.take (i + 1)) addrFirst addrLast).chosen =
        (flashFillSectRanges (banks.take i) addrFirst addrLast).chosen ++ [s]) :
      (flashFillSectRanges banks addrFirst addrLast).chosen[i]? = some s := by
    obtain ⟨rest, hrest, -⟩ := @foldl_chosen (banks.drop (i + 1)) addrLast
      (flashFillSectRanges (banks.take (i + 1)) addrFirst addrLast)
    obtain ⟨pre, hpre, hlen⟩ := @foldl_chosen (banks.take i) addrLast ⟨addrFirst, [], 0, none⟩
    rw [List.nil_append] at hpre
    rw [List.length_take, Nat.min_eq_left hi.le] at hlen
    rw [flashFillSectRanges_split (i + 1), hrest, hs, flashFillSectRanges, hpre,
      List.append_assoc, ← hlen]
    simp
  rw [flashFillSectRanges_split (i + 1)] at hok
  have herror := foldl_error hok
  rw [hsucc] at herror
  obtain ⟨-, ⟨f, l, hpick, heq⟩ | ⟨hskip, heq⟩⟩ := fillStep_cases herror
  · refine Or.inl ⟨f, l, hpick, ?_, hentry _ ?_⟩
    · rw [addrAt, hsucc, heq]
    · rw [hsucc, heq]
  · refine Or.inr ⟨hskip, ?_, hentry _ ?_⟩
    · rw [addrAt, hsucc, heq]
      rfl
    · rw [hsucc, heq]

end Run

/-- No two of the banks that are known have an address in common. -/
def KnownApart (banks : List FlashInfo) : Prop :=
  ∀ (i j : Nat) (b c : FlashInfo), i ≠ j → banks[i]? = some b → banks[j]? = some c →
    b.known = true → c.known = true → b.stop ≤ c.start 0 ∨ c.stop ≤ b.start 0

/-- Each bank of the range that starts behind the first address comes in the array after the
one that ends there. -/
def InOrder (banks : List FlashInfo) (first last : Nat) : Prop :=
  ∀ (j : Nat) (c : FlashInfo), banks[j]? = some c → c.known = true → first < c.start 0 →
    c.start 0 ≤ last → ∃ i b, i < j ∧ banks[i]? = some b ∧ b.known = true ∧ b.stop = c.start 0

/-- If the range goes to the end of the address space, a bank at address 0 does not come in the
array after the one at the end. -/
def NoWrap (banks : List FlashInfo) (last : Nat) : Prop :=
  ∀ (i j : Nat) (b c : FlashInfo), i < j → banks[i]? = some b → banks[j]? = some c →
    b.known = true → c.known = true → b.stop = last + 1 → last + 1 = 2 ^ 32 →
    c.start 0 ≠ 0

namespace Walk

variable {banks : List FlashInfo} {first last i j a : Nat} {b c : FlashInfo}
  {chosen : List (Int × Int)} {x : Nat → Nat}

theorem eq_of_inBank (hapart : KnownApart banks) (hb : banks[i]? = some b)
    (hc : banks[j]? = some c) (hbk : b.known = true) (hck : c.known = true) (hba : b.InBank a)
    (hca : c.InBank a) : i = j := by
  by_contra hne
  have := hapart i j b c hne hb hc hbk hck
  unfold FlashInfo.InBank at hba hca
  omega

/-- A bank whose sector starts at `addr_first` is chosen. -/
theorem pick_of_start (h : Walk banks first last chosen x) (hb : banks[i]? = some b)
    (hknown : b.known = true) (hle : x i ≤ last) {k : Nat} (hk : k < b.sectorCount)
    (hstart : b.start k = x i) :
    ∃ f l : Nat, Pick (x i) last b f l ∧ x (i + 1) = b.sectorStop l % 2 ^ 32 ∧
      chosen[i]? = some ((f : Int), (l : Int)) := by
  rcases h.step i b hb with hpick | ⟨hskip, -⟩
  · exact hpick
  · exact absurd hstart (hskip hknown hle k hk)

/-- The pair of a bank is that of its choice. -/
theorem pick_of_chosen (h : Walk banks first last chosen x) (hb : banks[i]? = some b)
    {s t : Int} (hs : chosen[i]? = some (s, t)) (hpos : 0 ≤ s) :
    ∃ f l : Nat, s = f ∧ t = l ∧ Pick (x i) last b f l ∧
      x (i + 1) = b.sectorStop l % 2 ^ 32 := by
  rcases h.step i b hb with ⟨f, l, hpick, hnext, hfl⟩ | ⟨-, -, hnone⟩
  · rw [hs] at hfl
    cases hfl
    exact ⟨f, l, rfl, rfl, hpick, hnext⟩
  · rw [hs] at hnone
    cases hnone
    omega

/-- `addr_first` is the first address or comes from an earlier choice. -/
theorem from_pick (h : Walk banks first last chosen x) (hi : i ≤ banks.length) :
    x i = first ∨ ∃ k < i, ∃ b, ∃ f l : Nat, banks[k]? = some b ∧ Pick (x k) last b f l ∧
      x i = b.sectorStop l % 2 ^ 32 := by
  induction i with
  | zero => exact Or.inl h.zero
  | succ i ih =>
    have hb : banks[i]? = some banks[i] := List.getElem?_eq_getElem (by omega)
    rcases h.step i _ hb with ⟨f, l, hpick, hnext, -⟩ | ⟨-, hnext, -⟩
    · exact Or.inr ⟨i, Nat.lt_succ_self i, _, f, l, hb, hpick, hnext⟩
    · rw [hnext]
      rcases ih (by omega) with hfirst | ⟨k, hk, rest⟩
      · exact Or.inl hfirst
      · exact Or.inr ⟨k, hk.trans (Nat.lt_succ_self i), rest⟩

/-- If `addr_first` has moved, the first address was that of a choice. -/
theorem first_pick (h : Walk banks first last chosen x) (hi : i ≤ banks.length)
    (hne : x i ≠ first) :
    ∃ k < i, ∃ b, ∃ f l : Nat, banks[k]? = some b ∧ Pick (x k) last b f l ∧ x k = first := by
  induction i with
  | zero => exact absurd h.zero hne
  | succ i ih =>
    have hb : banks[i]? = some banks[i] := List.getElem?_eq_getElem (by omega)
    by_cases hxi : x i = first
    · rcases h.step i _ hb with ⟨f, l, hpick, -⟩ | ⟨-, hnext, -⟩
      · exact ⟨i, Nat.lt_succ_self i, _, f, l, hb, hpick, hxi⟩
      · exact absurd (hnext.trans hxi) hne
    · obtain ⟨k, hk, rest⟩ := ih (by omega) hxi
      exact ⟨k, hk.trans (Nat.lt_succ_self i), rest⟩

/-- `addr_first` stays in front of the only bank that it is in. -/
theorem stay (h : Walk banks first last chosen x) (hapart : KnownApart banks)
    (hc : banks[j]? = some c) (hknown : c.known = true) (hin : c.InBank (x i)) (hij : i ≤ j) :
    x j = x i := by
  have hj : j < banks.length := (List.getElem?_eq_some_iff.mp hc).1
  have hstay : ∀ k, i ≤ k → k ≤ j → x k = x i := by
    intro k
    induction k with
    | zero =>
      intro hik _
      rw [Nat.le_zero.mp hik]
    | succ k ih =>
      intro hik hkj
      rcases hik.lt_or_eq with hlt | heq
      · have hk := ih (by omega) (by omega)
        have hb : banks[k]? = some banks[k] := List.getElem?_eq_getElem (by omega)
        rcases h.step k _ hb with ⟨f, l, hpick, -⟩ | ⟨-, hnext, -⟩
        · have hkin := hpick.inBank
          rw [hk] at hkin
          have := eq_of_inBank hapart hb hc hpick.known hknown hkin hin
          omega
        · exact hnext.trans hk
      · rw [heq]
  exact hstay j hij le_rfl

/-- A bank that `addr_first` comes to from another one starts there, or at 0. -/
theorem start_of_pick (hapart : KnownApart banks) (hlast : last < 2 ^ 32)
    (hb : banks[i]? = some b) (hc : banks[j]? = some c) (hne : i ≠ j) {f l m n : Nat}
    (hpick : Pick (x i) last b f l) (hnext : x j = b.sectorStop l % 2 ^ 32)
    (hpick' : Pick (x j) last c m n) :
    (b.stop = c.start 0 ∧ x j = b.stop) ∨
      (b.stop = last + 1 ∧ last + 1 = 2 ^ 32 ∧ c.start 0 = 0) := by
  have hstop := hpick.stop_eq
  have hle := b.stop_le
  have hin := hpick'.inBank
  have hbelow := hpick'.first_le
  have hdisjoint := hapart i j b c hne hb hc hpick.known hpick'.known
  have hbs := b.start_lt_stop
  unfold FlashInfo.InBank at hin
  rcases hle.lt_or_eq with hlt | heq
  · rw [Nat.mod_eq_of_lt (by omega)] at hnext
    exact Or.inl ⟨by omega, by omega⟩
  · by_cases htop : last + 1 = 2 ^ 32
    · rw [hstop, heq, htop, Nat.min_self, Nat.mod_self] at hnext
      exact Or.inr ⟨by omega, htop, by omega⟩
    · rw [Nat.mod_eq_of_lt (by omega)] at hnext
      omega

/-- Without a wrap, the choices do not go below the first address. -/
theorem first_le_of_pick (h : Walk banks first last chosen x) (hapart : KnownApart banks)
    (hlast : last < 2 ^ 32) (hwrap : NoWrap banks last) (hb : banks[i]? = some b) {f l : Nat}
    (hpick : Pick (x i) last b f l) : first ≤ x i ∧ (x i = first ∨ x i = b.start 0) := by
  induction i using Nat.strongRecOn generalizing b f l with
  | ind i ih =>
    have hi : i < banks.length := (List.getElem?_eq_some_iff.mp hb).1
    rcases h.from_pick hi.le with hfirst | ⟨k, hk, c, m, n, hc, hpick', hnext⟩
    · exact ⟨hfirst.ge, Or.inl hfirst⟩
    · have hprev := (ih k hk hc hpick').1
      have hin := hpick'.inBank.2
      rcases start_of_pick hapart hlast hc hb (by omega) hpick' hnext hpick with
        ⟨hstop, hx⟩ | ⟨hstop, htop, hzero⟩
      · exact ⟨by omega, Or.inr (by omega)⟩
      · exact absurd hzero (hwrap k i c b hk hc hb hpick'.known hpick.known hstop htop)

/-- In order, every bank of the range is chosen. -/
theorem pick_of_inOrder (h : Walk banks first last chosen x) (hapart : KnownApart banks)
    (hlast : last < 2 ^ 32) (horder : InOrder banks first last)
    (hsome : ∃ i b, ∃ f l : Nat, banks[i]? = some b ∧ Pick (x i) last b f l)
    (hc : banks[j]? = some c) (hknown : c.known = true) (hlo : c.start 0 ≤ last)
    (hhi : first < c.stop) :
    ∃ f l : Nat, Pick (x j) last c f l ∧ x (j + 1) = c.sectorStop l % 2 ^ 32 ∧
      chosen[j]? = some ((f : Int), (l : Int)) := by
  induction hbase : c.start 0 using Nat.strongRecOn generalizing j c with
  | ind base ih =>
    rcases Nat.lt_or_ge first (c.start 0) with hlt | hge
    · -- The bank before it is chosen to its end.
      obtain ⟨i, b, hij, hb, hbk, hstop⟩ := horder j c hc hknown hlt hlo
      have hbs := b.start_lt_stop
      have hcs := c.start_lt_stop
      obtain ⟨f, l, hpick, hnext, -⟩ :=
        ih (b.start 0) (by omega) hb hbk (by omega) (by omega) rfl
      have hx : x (i + 1) = c.start 0 := by
        have hend := hpick.stop_eq
        rw [hnext, Nat.mod_eq_of_lt (by omega)]
        omega
      have hstay : x j = x (i + 1) :=
        h.stay hapart hc hknown ⟨hx.ge, by omega⟩ hij
      exact h.pick_of_start hc hknown (by omega) c.count_pos (by omega)
    · -- The bank of the first address, where there is some choice.
      have hfirst : ∃ k b, ∃ f l : Nat, banks[k]? = some b ∧ Pick (x k) last b f l ∧
          x k = first := by
        obtain ⟨i, b, f, l, hb, hpick⟩ := hsome
        by_cases hxi : x i = first
        · exact ⟨i, b, f, l, hb, hpick, hxi⟩
        · have hi : i < banks.length := (List.getElem?_eq_some_iff.mp hb).1
          obtain ⟨k, -, rest⟩ := h.first_pick hi.le hxi
          exact ⟨k, rest⟩
      obtain ⟨k, b, f, l, hb, hpick, hxk⟩ := hfirst
      have hin := hpick.inBank
      rw [hxk] at hin
      have hkj := eq_of_inBank hapart hb hc hpick.known hknown hin ⟨hge, hhi⟩
      subst hkj
      rw [hb] at hc
      cases hc
      exact h.pick_of_start hb hknown hpick.first_le (hpick.le.trans_lt hpick.lt) hpick.start_eq

end Walk

/-! ## The choice -/

/-- The sector is among `s_first` to `s_last` of the bank, where `s_first` is not -1. -/
def Chosen (chosen : List (Int × Int)) (i sect : Nat) : Prop :=
  ∃ s t : Int, chosen[i]? = some (s, t) ∧ 0 ≤ s ∧ s ≤ sect ∧ (sect : Int) ≤ t

/-- The chosen sectors are those of known banks that have an address in the range, and all of
their addresses are. -/
structure ExactChoice (banks : List FlashInfo) (first last : Nat) (chosen : List (Int × Int)) :
    Prop where
  chosen_iff : ∀ (i : Nat) (b : FlashInfo) (sect : Nat), banks[i]? = some b →
    (Chosen chosen i sect ↔ b.known = true ∧ sect < b.sectorCount ∧ b.Meets sect first last)
  inside : ∀ (i : Nat) (b : FlashInfo) (sect : Nat), banks[i]? = some b →
    Chosen chosen i sect → first ≤ b.start sect ∧ b.sectorStop sect ≤ last + 1

namespace Walk

variable {banks : List FlashInfo} {first last i sect : Nat} {b : FlashInfo}
  {chosen : List (Int × Int)} {x : Nat → Nat}

theorem chosen_iff_pick (h : Walk banks first last chosen x) (hb : banks[i]? = some b) :
    Chosen chosen i sect ↔ ∃ f l : Nat, Pick (x i) last b f l ∧ f ≤ sect ∧ sect ≤ l := by
  constructor
  · rintro ⟨s, t, hst, hpos, hlo, hhi⟩
    obtain ⟨f, l, rfl, rfl, hpick, -⟩ := h.pick_of_chosen hb hst hpos
    exact ⟨f, l, hpick, by omega, by omega⟩
  · rintro ⟨f, l, hpick, hlo, hhi⟩
    obtain ⟨m, n, hpick', -, hmn⟩ := h.pick_of_start hb hpick.known hpick.first_le
      (hpick.le.trans_lt hpick.lt) hpick.start_eq
    have hsect : sect < b.sectorCount := hhi.trans_lt hpick.lt
    have hmem := (hpick'.mem_iff hsect).mpr ((hpick.mem_iff hsect).mp ⟨hlo, hhi⟩)
    exact ⟨m, n, hmn, by omega, by omega, by omega⟩

theorem exactChoice_of (h : Walk banks first last chosen x) (hapart : KnownApart banks)
    (hlast : last < 2 ^ 32) (horder : InOrder banks first last) (hwrap : NoWrap banks last)
    (hsome : ∃ i b, ∃ f l : Nat, banks[i]? = some b ∧ Pick (x i) last b f l) :
    ExactChoice banks first last chosen := by
  constructor
  · intro i b sect hb
    rw [h.chosen_iff_pick hb]
    constructor
    · rintro ⟨f, l, hpick, hlo, hhi⟩
      have hsect : sect < b.sectorCount := hhi.trans_lt hpick.lt
      have hmeets := (hpick.mem_iff hsect).mp ⟨hlo, hhi⟩
      have hfirst := (h.first_le_of_pick hapart hlast hwrap hb hpick).1
      exact ⟨hpick.known, hsect, hmeets.1, hfirst.trans_lt hmeets.2⟩
    · rintro ⟨hknown, hsect, hmeets⟩
      have hbase : b.start 0 ≤ b.start sect := FlashInfo.start_le_start (Nat.zero_le _) hsect
      have hsector := FlashInfo.start_lt_sectorStop hsect
      have hend := FlashInfo.sectorStop_le_stop hsect
      obtain ⟨f, l, hpick, -⟩ := h.pick_of_inOrder hapart hlast horder hsome hb hknown
        (hbase.trans hmeets.1) (hmeets.2.trans_le hend)
      have hx : x i < b.sectorStop sect := by
        rcases (h.first_le_of_pick hapart hlast hwrap hb hpick).2 with hfirst | hstart
        · exact hfirst.trans_lt hmeets.2
        · omega
      exact ⟨f, l, hpick, (hpick.mem_iff hsect).mpr ⟨hmeets.1, hx⟩⟩
  · intro i b sect hb hchosen
    obtain ⟨f, l, hpick, hlo, hhi⟩ := (h.chosen_iff_pick hb).mp hchosen
    have hinside := hpick.inside (hhi.trans_lt hpick.lt) hlo hhi
    have hfirst := (h.first_le_of_pick hapart hlast hwrap hb hpick).1
    exact ⟨hfirst.trans hinside.1, hinside.2⟩

theorem inOrder_of (h : Walk banks first last chosen x) (hapart : KnownApart banks)
    (hlast : last < 2 ^ 32) (hexact : ExactChoice banks first last chosen) :
    InOrder banks first last := by
  intro j c hc hknown hlt hle
  have hsector := FlashInfo.start_lt_sectorStop c.count_pos
  have hj : j < banks.length := (List.getElem?_eq_some_iff.mp hc).1
  have hchosen := (hexact.chosen_iff j c 0 hc).mpr ⟨hknown, c.count_pos, hle, by omega⟩
  obtain ⟨f, l, hpick, -⟩ := (h.chosen_iff_pick hc).mp hchosen
  have hin := hpick.inBank.1
  rcases h.from_pick hj.le with hfirst | ⟨k, hk, b, m, n, hb, hpick', hnext⟩
  · omega
  · rcases start_of_pick hapart hlast hb hc (by omega) hpick' hnext hpick with
      ⟨hstop, -⟩ | ⟨-, -, hzero⟩
    · exact ⟨k, b, hk, hb, hpick'.known, hstop⟩
    · omega

theorem noWrap_of (h : Walk banks first last chosen x) (hapart : KnownApart banks)
    (hexact : ExactChoice banks first last chosen) (hle : first ≤ last) : NoWrap banks last := by
  intro i j b c hij hb hc hbk hck hstop htop hzero
  have hlastSector : b.sectorCount - 1 < b.sectorCount := by
    have := b.count_pos
    omega
  have hend : b.sectorStop (b.sectorCount - 1) = b.stop := by
    rw [FlashInfo.sectorStop, if_pos (by omega)]
  have hsector := FlashInfo.start_lt_sectorStop hlastSector
  have hchosen := (hexact.chosen_iff i b _ hb).mpr ⟨hbk, hlastSector, by omega, by omega⟩
  obtain ⟨f, l, hpick, hlo, hhi⟩ := (h.chosen_iff_pick hb).mp hchosen
  -- The choice of the bank at the end takes `addr_first` to 0, where the other one is.
  have hnext : x (i + 1) = 0 := by
    obtain ⟨m, n, hpick', hnext, -⟩ := h.pick_of_start hb hbk hpick.first_le
      (hpick.le.trans_lt hpick.lt) hpick.start_eq
    rw [hnext, hpick'.stop_eq, hstop, Nat.min_self, htop, Nat.mod_self]
  have hczero : c.InBank 0 := ⟨hzero.le, by have := c.start_lt_stop; omega⟩
  have hxj : x j = 0 := by
    rw [← hnext]
    exact h.stay hapart hc hck (by rw [hnext]; exact hczero) hij
  obtain ⟨m, n, hpick', -⟩ := h.pick_of_start hc hck (by omega) c.count_pos (hzero.trans hxj.symm)
  have hinside := hexact.inside j c m hc
    ((h.chosen_iff_pick hc).mpr ⟨m, n, hpick', le_rfl, hpick'.le⟩)
  have hfirst : first = 0 := by
    have := hpick'.start_eq
    omega
  -- So the range starts there, but the first choice has come before.
  have hi : i < banks.length := (List.getElem?_eq_some_iff.mp hb).1
  by_cases hxi : x i = first
  · have hin := hpick.inBank
    rw [hxi, hfirst] at hin
    have := eq_of_inBank hapart hb hc hbk hck hin hczero
    omega
  · obtain ⟨k, hk, d, m, n, hd, hpick'', hxk⟩ := h.first_pick hi.le hxi
    have hin := hpick''.inBank
    rw [hxk, hfirst] at hin
    have := eq_of_inBank hapart hd hc hpick''.known hck hin hczero
    omega

end Walk

/-! ## The number of sectors -/

section Count

variable {banks : List FlashInfo} {first last : Nat}

/-- The number of sectors from `s_first` to `s_last`. -/
def rangeCount (p : Int × Int) : Int := if 0 ≤ p.1 then p.2 - p.1 + 1 else 0

theorem foldl_count {r : SectRanges} (hr : r.count = (r.chosen.map rangeCount).sum)
    (h : (banks.foldl (fillStep last) r).error = none) :
    (banks.foldl (fillStep last) r).count =
      ((banks.foldl (fillStep last) r).chosen.map rangeCount).sum := by
  induction banks generalizing r with
  | nil => exact hr
  | cons b banks ih =>
    refine ih ?_ h
    obtain ⟨-, ⟨f, l, -, heq⟩ | ⟨-, heq⟩⟩ := fillStep_cases (foldl_error h)
    · rw [heq, List.map_append, List.sum_append, ← hr]
      simp [rangeCount]
    · rw [heq, List.map_append, List.sum_append, ← hr]
      simp [rangeCount]

theorem count_eq_sum (h : (flashFillSectRanges banks first last).error = none) :
    (flashFillSectRanges banks first last).count =
      ((flashFillSectRanges banks first last).chosen.map rangeCount).sum :=
  foldl_count rfl h

/-- The number of sectors of known banks with an address in the range. -/
def sectorsMet (banks : List FlashInfo) (first last : Nat) : Int :=
  (banks.map fun b =>
    (Nat.count (fun sect => b.known = true ∧ b.Meets sect first last) b.sectorCount : Int)).sum

theorem count_eq_of_mem_iff {p : Nat → Prop} [DecidablePred p] {n f l : Nat} (hl : l < n)
    (h : ∀ i < n, p i ↔ f ≤ i ∧ i ≤ l) : Nat.count p n = l + 1 - f := by
  have hset : (Finset.range n).filter p = Finset.Icc f l := by
    ext i
    rw [Finset.mem_filter, Finset.mem_range, Finset.mem_Icc]
    constructor
    · rintro ⟨hi, hp⟩
      exact (h i hi).mp hp
    · rintro hi
      exact ⟨by omega, (h i (by omega)).mpr hi⟩
  rw [Nat.count_eq_card_filter_range, hset, Nat.card_Icc]

/-- An exact choice has the right number. -/
theorem Walk.sum_eq {chosen : List (Int × Int)} {x : Nat → Nat}
    (h : Walk banks first last chosen x) (hexact : ExactChoice banks first last chosen) :
    (chosen.map rangeCount).sum = sectorsMet banks first last := by
  unfold sectorsMet
  congr 1
  apply List.ext_getElem?
  intro i
  rw [List.getElem?_map, List.getElem?_map]
  cases hb : banks[i]? with
  | none =>
    rw [List.getElem?_eq_none_iff] at hb
    rw [List.getElem?_eq_none_iff.mpr (by rw [h.length]; exact hb)]
    rfl
  | some b =>
    have hiff (sect : Nat) (hsect : sect < b.sectorCount) :
        b.known = true ∧ b.Meets sect first last ↔ Chosen chosen i sect := by
      rw [hexact.chosen_iff i b sect hb]
      exact ⟨fun hp => ⟨hp.1, hsect, hp.2⟩, fun hp => ⟨hp.1, hp.2.2⟩⟩
    rcases h.step i b hb with ⟨f, l, hpick, -, hfl⟩ | ⟨-, -, hnone⟩
    · rw [hfl, Option.map_some, Option.map_some,
        count_eq_of_mem_iff (f := f) hpick.lt]
      · have := hpick.le
        simp only [rangeCount, if_pos (Int.natCast_nonneg f)]
        congr 1
        omega
      · intro sect hsect
        rw [hiff sect hsect]
        constructor
        · rintro ⟨s, t, hst, -, hlo, hhi⟩
          rw [hfl] at hst
          cases hst
          exact ⟨by omega, by omega⟩
        · rintro ⟨hlo, hhi⟩
          exact ⟨f, l, hfl, by omega, by omega, by omega⟩
    · have hzero : Nat.count (fun sect => b.known = true ∧ b.Meets sect first last)
          b.sectorCount = 0 := by
        rw [Nat.count_eq_card_filter_range, Finset.card_eq_zero, Finset.filter_eq_empty_iff]
        intro sect hsect hp
        obtain ⟨s, t, hst, hpos, -⟩ := (hiff sect (Finset.mem_range.mp hsect)).mp hp
        rw [hnone] at hst
        cases hst
        omega
      rw [hnone, Option.map_some, Option.map_some, hzero]
      rfl

/-- A pair counts nothing, or it comes from a choice. -/
theorem Walk.rangeCount_cases {chosen : List (Int × Int)} {x : Nat → Nat}
    (h : Walk banks first last chosen x) {p : Int × Int} (hp : p ∈ chosen) :
    rangeCount p = 0 ∨ 0 < rangeCount p ∧
      ∃ i b, ∃ f l : Nat, banks[i]? = some b ∧ Pick (x i) last b f l := by
  obtain ⟨i, hi⟩ := List.mem_iff_getElem?.mp hp
  have hlt : i < banks.length := by
    rw [← h.length]
    exact (List.getElem?_eq_some_iff.mp hi).1
  have hb : banks[i]? = some banks[i] := List.getElem?_eq_getElem hlt
  obtain ⟨s, t⟩ := p
  by_cases hs : 0 ≤ s
  · obtain ⟨f, l, rfl, rfl, hpick, -⟩ := h.pick_of_chosen hb hi hs
    have hle := hpick.le
    refine Or.inr ⟨?_, i, _, f, l, hb, hpick⟩
    rw [rangeCount, if_pos hs]
    dsimp only
    omega
  · exact Or.inl (if_neg hs)

/-- A positive number comes from a choice. -/
theorem Walk.exists_pick {chosen : List (Int × Int)} {x : Nat → Nat}
    (h : Walk banks first last chosen x) (hpos : 0 < (chosen.map rangeCount).sum) :
    ∃ i b, ∃ f l : Nat, banks[i]? = some b ∧ Pick (x i) last b f l := by
  by_contra hnone
  have hzero : (chosen.map rangeCount).sum = 0 := by
    apply List.sum_eq_zero
    intro n hn
    obtain ⟨p, hp, rfl⟩ := List.mem_map.mp hn
    rcases h.rangeCount_cases hp with hzero | ⟨-, hpick⟩
    · exact hzero
    · exact absurd hpick hnone
  omega

theorem Walk.sum_nonneg {chosen : List (Int × Int)} {x : Nat → Nat}
    (h : Walk banks first last chosen x) : 0 ≤ (chosen.map rangeCount).sum := by
  apply List.sum_nonneg
  intro n hn
  obtain ⟨p, hp, rfl⟩ := List.mem_map.mp hn
  rcases h.rangeCount_cases hp with hzero | ⟨hpos, -⟩
  · exact hzero.ge
  · exact hpos.le

end Count

/-! ## The calls -/

section Erase

variable {banks : List FlashInfo} {answer : Nat → Int} {first last : Nat}

theorem mem_eraseBanks {l : List ((Int × Int) × Nat)} {call : EraseCall}
    (h : call ∈ (eraseBanks answer l).1) :
    0 ≤ call.sFirst ∧ ((call.sFirst, call.sLast), call.bank) ∈ l := by
  induction l with
  | nil => cases h
  | cons p l ih =>
    obtain ⟨⟨s, t⟩, k⟩ := p
    unfold eraseBanks at h
    split at h
    · rename_i hs
      split at h
      · rw [List.mem_singleton] at h
        subst h
        exact ⟨hs, List.mem_cons_self⟩
      · rcases List.mem_cons.mp h with rfl | hmem
        · exact ⟨hs, List.mem_cons_self⟩
        · exact ⟨(ih hmem).1, List.mem_cons_of_mem _ (ih hmem).2⟩
    · exact ⟨(ih h).1, List.mem_cons_of_mem _ (ih h).2⟩

/-- Without an error of the driver, every bank with a choice is erased. -/
theorem eraseBanks_complete {l : List ((Int × Int) × Nat)} (hrc : (eraseBanks answer l).2 = 0)
    {s t : Int} {k : Nat} (hs : 0 ≤ s) (hmem : ((s, t), k) ∈ l) :
    ⟨k, s, t⟩ ∈ (eraseBanks answer l).1 := by
  induction l with
  | nil => cases hmem
  | cons p l ih =>
    obtain ⟨⟨s', t'⟩, k'⟩ := p
    unfold eraseBanks at hrc ⊢
    rcases List.mem_cons.mp hmem with heq | hrest
    · cases heq
      rw [if_pos hs] at hrc ⊢
      split
      · exact List.mem_cons_self
      · exact List.mem_cons_self
    · by_cases hs' : 0 ≤ s'
      · rw [if_pos hs'] at hrc ⊢
        split at hrc
        · rename_i herr
          exact absurd hrc herr
        · rename_i hok
          rw [if_neg hok]
          exact List.mem_cons_of_mem _ (ih hrc hrest)
      · rw [if_neg hs'] at hrc ⊢
        exact ih hrc hrest

/-- What is erased lies in the range, and 0 is returned only if all flash of the range is. -/
structure EraseResult (banks : List FlashInfo) (first last : Nat) (r : List EraseCall × Int) :
    Prop where
  inside : ∀ call ∈ r.1, ∀ sect : Nat, call.sFirst ≤ sect → (sect : Int) ≤ call.sLast →
    ∃ b, banks[call.bank]? = some b ∧ sect < b.sectorCount ∧
      first ≤ b.start sect ∧ b.sectorStop sect ≤ last + 1
  complete : r.2 = 0 → ∀ (i : Nat) (b : FlashInfo) (sect : Nat), banks[i]? = some b →
    b.known = true → sect < b.sectorCount → b.Meets sect first last →
    ∃ call ∈ r.1, call.bank = i ∧ call.sFirst ≤ sect ∧ (sect : Int) ≤ call.sLast

theorem flashSectErase_result (hlen : (flashFillSectRanges banks first last).chosen.length =
      banks.length)
    (hexact : ExactChoice banks first last (flashFillSectRanges banks first last).chosen)
    (hok : (flashFillSectRanges banks first last).error = none)
    (hcount : (flashFillSectRanges banks first last).count ≠ 0) :
    EraseResult banks first last (flashSectErase banks answer first last) := by
  unfold flashSectErase
  dsimp only
  rw [if_pos ⟨hcount, hok⟩]
  constructor
  · intro call hcall sect hlo hhi
    obtain ⟨hs, hmem⟩ := mem_eraseBanks hcall
    have hentry := List.mem_zipIdx_iff_getElem?.mp hmem
    have hlt : call.bank < banks.length := by
      rw [← hlen]
      exact (List.getElem?_eq_some_iff.mp hentry).1
    have hb : banks[call.bank]? = some banks[call.bank] := List.getElem?_eq_getElem hlt
    have hchosen : Chosen (flashFillSectRanges banks first last).chosen call.bank sect :=
      ⟨_, _, hentry, hs, hlo, hhi⟩
    exact ⟨_, hb, ((hexact.chosen_iff _ _ sect hb).mp hchosen).2.1,
      hexact.inside _ _ sect hb hchosen⟩
  · intro hrc i b sect hb hknown hsect hmeets
    obtain ⟨s, t, hst, hs, hlo, hhi⟩ := (hexact.chosen_iff i b sect hb).mpr ⟨hknown, hsect, hmeets⟩
    exact ⟨⟨i, s, t⟩, eraseBanks_complete hrc hs (List.mem_zipIdx_iff_getElem?.mpr hst), rfl,
      hlo, hhi⟩

/-- Ranges without an error are right under the two conditions, and only then.  Where there is an
error or no sector, nothing is erased and 1 is returned. -/
theorem flashSectErase_exact_iff (hapart : KnownApart banks) (hle : first ≤ last)
    (hlast : last < 2 ^ 32) :
    ((flashFillSectRanges banks first last).error = none →
      0 < (flashFillSectRanges banks first last).count →
        (ExactChoice banks first last (flashFillSectRanges banks first last).chosen ∧
          (flashFillSectRanges banks first last).count = sectorsMet banks first last ∧
          (∀ answer, EraseResult banks first last (flashSectErase banks answer first last)) ↔
          InOrder banks first last ∧ NoWrap banks last)) ∧
    (¬ ((flashFillSectRanges banks first last).error = none ∧
        0 < (flashFillSectRanges banks first last).count) →
      ∀ answer, flashSectErase banks answer first last = ([], 1)) := by
  constructor
  · intro hok hcount
    have hwalk := flashFillSectRanges_walk hok
    have hsum := count_eq_sum hok
    constructor
    · rintro ⟨hexact, -, -⟩
      exact ⟨hwalk.inOrder_of hapart hlast hexact, hwalk.noWrap_of hapart hexact hle⟩
    · rintro ⟨horder, hwrap⟩
      have hexact := hwalk.exactChoice_of hapart hlast horder hwrap
        (hwalk.exists_pick (by omega))
      refine ⟨hexact, hsum.trans (hwalk.sum_eq hexact), ?_⟩
      intro answer
      exact flashSectErase_result hwalk.length hexact hok (by omega)
  · intro hrefused answer
    unfold flashSectErase
    dsimp only
    rw [if_neg]
    rintro ⟨hne, hok⟩
    have hnonneg := (flashFillSectRanges_walk hok).sum_nonneg
    rw [← count_eq_sum hok] at hnonneg
    exact hrefused ⟨hok, by omega⟩

/-- Two banks of two sectors, with a gap between them. -/
def gapBanks (gap : Nat) (h : gap ≤ 0x20000) : List FlashInfo :=
  [FlashInfo.uniform 0 0x10000 2 (fun _ => false) (by decide) (by decide) (by decide) (by decide),
    FlashInfo.uniform (0x20000 + gap) 0x10000 2 (fun _ => false) (by decide) (by decide) (by decide)
      (by omega)]

theorem knownApart_of_pairwise (h : BanksApart banks) : KnownApart banks := by
  intro i j b c hne hb hc _ _
  exact h.apart hne.symm hb hc

theorem flashSectErase_exact_noGap : KnownApart (gapBanks 0 (by decide)) ∧ 0x10000 ≤ 0x2FFFF ∧
    0x2FFFF < 2 ^ 32 ∧ flashFillSectRanges (gapBanks 0 (by decide)) 0x10000 0x2FFFF =
      ⟨0x30000, [(1, 1), (0, 0)], 2, none⟩ ∧
    ExactChoice (gapBanks 0 (by decide)) 0x10000 0x2FFFF
      (flashFillSectRanges (gapBanks 0 (by decide)) 0x10000 0x2FFFF).chosen ∧
    ∀ answer, EraseResult (gapBanks 0 (by decide)) 0x10000 0x2FFFF
      (flashSectErase (gapBanks 0 (by decide)) answer 0x10000 0x2FFFF) := by
  have hapart : KnownApart (gapBanks 0 (by decide)) :=
    knownApart_of_pairwise (List.pairwise_pair.mpr (Or.inl (by decide)))
  have hfill : flashFillSectRanges (gapBanks 0 (by decide)) 0x10000 0x2FFFF =
      ⟨0x30000, [(1, 1), (0, 0)], 2, none⟩ := by
    decide
  have hiff := (flashSectErase_exact_iff hapart (by decide : 0x10000 ≤ 0x2FFFF) (by decide)).1
    (by rw [hfill]) (by rw [hfill]; decide)
  have horder : InOrder (gapBanks 0 (by decide)) 0x10000 0x2FFFF := by
    intro j c hc _ hlt _
    rcases j with _ | _ | j
    · cases hc
      exact absurd hlt (by decide)
    · cases hc
      exact ⟨0, _, by decide, rfl, rfl, by decide⟩
    · cases hc
  have hwrap : NoWrap (gapBanks 0 (by decide)) 0x2FFFF := by
    intro i j b c _ _ _ _ _ _ htop
    exact absurd htop (by decide)
  obtain ⟨hexact, -, hresult⟩ := hiff.mpr ⟨horder, hwrap⟩
  exact ⟨hapart, by decide, by decide, hfill, hexact, hresult⟩

/-- The range ends in the middle of a sector of the second bank, which is passed over. -/
theorem flashSectErase_not_exact : BanksApart (gapBanks 0x20000 (by decide)) ∧
    flashFillSectRanges (gapBanks 0x20000 (by decide)) 0 0x47FFF =
      ⟨0x20000, [(0, 1), (-1, -1)], 2, none⟩ ∧
    flashSectErase (gapBanks 0x20000 (by decide)) (fun _ => 0) 0 0x47FFF = ([⟨0, 0, 1⟩], 0) ∧
    ¬ ExactChoice (gapBanks 0x20000 (by decide)) 0 0x47FFF
      (flashFillSectRanges (gapBanks 0x20000 (by decide)) 0 0x47FFF).chosen ∧
    ¬ EraseResult (gapBanks 0x20000 (by decide)) 0 0x47FFF
      (flashSectErase (gapBanks 0x20000 (by decide)) (fun _ => 0) 0 0x47FFF) := by
  have hfill : flashFillSectRanges (gapBanks 0x20000 (by decide)) 0 0x47FFF =
      ⟨0x20000, [(0, 1), (-1, -1)], 2, none⟩ := by
    decide
  have herase : flashSectErase (gapBanks 0x20000 (by decide)) (fun _ => 0) 0 0x47FFF =
      ([⟨0, 0, 1⟩], 0) := by
    decide
  refine ⟨List.pairwise_pair.mpr (Or.inl (by decide)), hfill, herase, ?_, ?_⟩
  · intro hexact
    obtain ⟨s, t, hst, hs, -⟩ := (hexact.chosen_iff 1 _ 0 rfl).mpr
      ⟨rfl, by decide, by decide, by decide⟩
    rw [hfill] at hst
    cases hst
    exact absurd hs (by decide)
  · intro hresult
    obtain ⟨call, hcall, hbank, -⟩ := hresult.complete (by rw [herase]) 1 _ 0 rfl rfl (by decide)
      ⟨by decide, by decide⟩
    rw [herase, List.mem_singleton] at hcall
    rw [hcall] at hbank
    cases hbank

end Erase

end UBoot.Common
