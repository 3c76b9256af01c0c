import UBoot.Lib.Blocks
import Mathlib.Data.List.Basic
import Mathlib.Order.Nat

/-!
# Writing to the embedded flash of the SmartFusion2

`cpu/arm_cortexm3/m2s/envm.c`.  A page is put together in the write buffer of the controller and
programmed as a whole.  The macros `max` and `min` convert both arguments to the type of the first,
so the difference that says where a page starts in the data is clamped at 0 as an `int` in one
place, and left as it is in another.

An `unsigned int` is a number below 2³², and a place in the source is its distance from `buf`, round
the address space.

* `envmWrite_stores_iff`: the data replaces its range, and nothing else is read, if and only if it
  starts with a page.
-/

namespace UBoot.Cpu.M2s

open UBoot.Lib

/-- `MSS_ENVM_PAGE_SIZE` -/
def pageSize : Nat := 128

/-- `MSS_ENVM_FLASH_SIZE` -/
def flashSize : Nat := 1024 * 256

/-! ## The macros of `common.h` -/

/-- An `unsigned int` as an `int`. -/
def toSigned (x : Nat) : Int := if x < 2 ^ 31 then x else (x : Int) - 2 ^ 32

/-- An `int` as an `unsigned int`. -/
def toUnsigned (x : Int) : Nat := (x % 2 ^ 32).toNat

/-- The difference of two `unsigned int`. -/
def sub (x y : Nat) : Nat := (x + 2 ^ 32 - y) % 2 ^ 32

/-- `max(X, Y)`, where X is an `int` and Y is not. -/
def maxSigned (x : Int) (y : Nat) : Int := if toSigned y < x then x else toSigned y

/-- `min(X, Y)`, where X is an `int` and Y is not. -/
def minSigned (x : Int) (y : Nat) : Int := if x < toSigned y then x else toSigned y

/-- `max(X, Y)`, where X is unsigned and Y is an `int`. -/
def maxUnsigned (x : Nat) (y : Int) : Nat := if toUnsigned y < x then x else toUnsigned y

/-! ## The write -/

/-- The flash, `wdbuff`, and the places of the source that have been read. -/
structure St where
  flash : Contents
  wdbuff : Contents
  reads : List Nat

/-- `envm_write_page_part`, where the data is at the place `pos` of the source.  The command
programs the page with the contents of the write buffer. -/
def envmWritePagePart (src : Contents) (page partBegin partEnd pos : Nat) (s : St) : St :=
  let wdbuff :=
    if partBegin ≠ 0 ∨ partEnd ≠ pageSize then
      storeAt s.wdbuff 0 (readAt s.flash (page * pageSize) pageSize)
    else s.wdbuff
  let places := (List.range (sub partEnd partBegin)).map fun j => (pos + j) % 2 ^ 32
  let wdbuff := storeAt wdbuff partBegin (places.map src)
  { flash := storeAt s.flash (page * pageSize) (readAt wdbuff 0 pageSize)
    wdbuff := wdbuff
    reads := s.reads ++ places }

/-- The call in a turn of the loop. -/
def writePage (src : Contents) (offset size : Nat) (s : St) (page : Nat) : St :=
  envmWritePagePart src page
    (toUnsigned (maxSigned 0 (sub offset (page * pageSize % 2 ^ 32))))
    (toUnsigned (minSigned 128 (sub ((offset + size) % 2 ^ 32) (page * pageSize % 2 ^ 32))))
    (maxUnsigned (sub (page * pageSize % 2 ^ 32) offset) 0) s

/-- `envm_write` -/
def envmWrite (src : Contents) (offset size : Nat) (s : St) : Nat × St :=
  let firstPage := offset / pageSize
  let lastPage := (offset + size + 2 ^ 32 - 1) % 2 ^ 32 / pageSize
  (size, (List.range' firstPage (lastPage + 1 - firstPage)).foldl (writePage src offset size) s)

/-! ## The parts of a page -/

section Parts

variable {src : Contents} {offset size page a : Nat} {s : St}

theorem toUnsigned_of_nat {x : Nat} (h : x < 2 ^ 32) : toUnsigned (x : Int) = x := by
  rw [toUnsigned]
  omega

theorem toSigned_sub {x y : Nat} (hx : x < 2 ^ 31) (hy : y < 2 ^ 31) :
    toSigned (sub x y) = (x : Int) - y := by
  rw [toSigned, sub]
  rcases Nat.lt_or_ge x y with hlt | hge
  · rw [Nat.mod_eq_of_lt (by omega), if_neg (by omega)]
    omega
  · rw [show x + 2 ^ 32 - y = (x - y) + 2 ^ 32 by omega, Nat.add_mod_right,
      Nat.mod_eq_of_lt (by omega), if_pos (by omega)]
    omega

/-- The first argument is signed: behind the start of the data there is nothing to skip. -/
theorem partBegin_eq (h : offset ≤ flashSize) (hpage : page * pageSize ≤ flashSize) :
    toUnsigned (maxSigned 0 (sub offset (page * pageSize % 2 ^ 32))) =
      offset - page * pageSize := by
  have hflash : flashSize = 262144 := rfl
  rw [Nat.mod_eq_of_lt (by omega), maxSigned, toSigned_sub (by omega) (by omega)]
  split
  · rw [Nat.sub_eq_zero_of_le (by omega)]
    rfl
  · rw [← Int.ofNat_sub (by omega)]
    exact toUnsigned_of_nat (by omega)

theorem partEnd_eq (h : offset + size ≤ flashSize) (hpage : page * pageSize ≤ offset + size) :
    toUnsigned (minSigned 128 (sub ((offset + size) % 2 ^ 32) (page * pageSize % 2 ^ 32))) =
      min pageSize (offset + size - page * pageSize) := by
  have hflash : flashSize = 262144 := rfl
  have hsize : pageSize = 128 := rfl
  rw [Nat.mod_eq_of_lt (by omega), Nat.mod_eq_of_lt (by omega), minSigned,
    toSigned_sub (by omega) (by omega)]
  split
  · rw [Nat.min_eq_left (by omega)]
    rfl
  · rw [Nat.min_eq_right (by omega), ← Int.ofNat_sub (by omega)]
    exact toUnsigned_of_nat (by omega)

/-- The first argument is unsigned: the difference is not clamped. -/
theorem maxUnsigned_zero (x : Nat) : maxUnsigned x 0 = x := by
  rw [maxUnsigned, show toUnsigned 0 = 0 from rfl]
  split
  · rfl
  · omega

theorem getD_map_range (f : Nat → Nat) {n i : Nat} (hi : i < n) :
    (((List.range n).map f).map src).getD i 0 = src (f i) := by
  rw [List.getD_eq_getElem?_getD, List.getElem?_map, List.getElem?_map, List.getElem?_range hi]
  rfl

/-- The page holds what is in the write buffer, which has the data in front of what is kept. -/
theorem envmWritePagePart_flash {partEnd pos : Nat} (hend : partEnd ≤ pageSize)
    (hpos : pos + partEnd < 2 ^ 32) :
    (envmWritePagePart src page 0 partEnd pos s).flash a =
      if InRange (page * pageSize) partEnd a then src (pos + (a - page * pageSize))
      else s.flash a := by
  have hsize : pageSize = 128 := rfl
  have hsub : sub partEnd 0 = partEnd := by
    rw [sub, Nat.sub_zero, Nat.add_mod_right, Nat.mod_eq_of_lt (by omega)]
  rw [envmWritePagePart]
  simp only [hsub]
  rw [storeAt, length_readAt]
  by_cases hpage : InRange (page * pageSize) pageSize a
  · obtain ⟨hlo, hhi⟩ := hpage
    rw [if_pos ⟨hlo, hhi⟩, List.getD_eq_getElem?_getD, getElem?_readAt (by omega), Option.getD_some,
      Nat.zero_add, storeAt, List.length_map, List.length_map, List.length_range]
    by_cases hin : a - page * pageSize < partEnd
    · rw [if_pos ⟨Nat.zero_le _, by omega⟩, if_pos ⟨hlo, by omega⟩, Nat.sub_zero,
        getD_map_range _ hin, Nat.mod_eq_of_lt (by omega)]
    · have hkept : ¬ InRange 0 partEnd (a - page * pageSize) := fun h => hin (by have := h.2; omega)
      have hout : ¬ InRange (page * pageSize) partEnd a := fun h => hin (by have := h.2; omega)
      rw [if_neg hkept, if_neg hout, if_pos (Or.inr (by omega)), storeAt, length_readAt,
        if_pos ⟨Nat.zero_le _, by omega⟩,
        Nat.sub_zero, List.getD_eq_getElem?_getD, getElem?_readAt (by omega), Option.getD_some,
        Nat.add_sub_cancel' hlo]
  · rw [if_neg hpage, if_neg]
    rintro ⟨hlo, hhi⟩
    exact hpage ⟨hlo, by omega⟩

/-- A page of data that starts with a page. -/
theorem writePage_aligned (src : Contents) (s : St) (hfit : offset + size ≤ flashSize)
    (hlo : offset ≤ page * pageSize)
    (hhi : page * pageSize < offset + size) :
    (∀ a, (writePage src offset size s page).flash a =
      if InRange (page * pageSize) (min pageSize (offset + size - page * pageSize)) a
      then src (a - offset) else s.flash a) ∧
    (writePage src offset size s page).reads = s.reads ++
      (List.range (min pageSize (offset + size - page * pageSize))).map
        (page * pageSize - offset + ·) := by
  have hflash : flashSize = 262144 := rfl
  have hsize : pageSize = 128 := rfl
  have hpos : sub (page * pageSize % 2 ^ 32) offset = page * pageSize - offset := by
    rw [Nat.mod_eq_of_lt (show page * pageSize < 2 ^ 32 by omega), sub,
      show page * pageSize + 2 ^ 32 - offset = (page * pageSize - offset) + 2 ^ 32 by omega,
      Nat.add_mod_right, Nat.mod_eq_of_lt (by omega)]
  rw [writePage, partBegin_eq (by omega) (by omega), partEnd_eq hfit (by omega), maxUnsigned_zero,
    hpos, Nat.sub_eq_zero_of_le hlo]
  generalize hm : min pageSize (offset + size - page * pageSize) = m
  have hle : m ≤ pageSize := hm ▸ Nat.min_le_left _ _
  constructor
  · intro a
    rw [envmWritePagePart_flash hle (by omega)]
    split
    · next hin =>
      have hstart := hin.1
      rw [show page * pageSize - offset + (a - page * pageSize) = a - offset by omega]
    · rfl
  · have hsub : sub m 0 = m := by
      rw [sub, Nat.sub_zero, Nat.add_mod_right, Nat.mod_eq_of_lt (by omega)]
    have hplaces : ∀ j ∈ List.range m,
        (page * pageSize - offset + j) % 2 ^ 32 = page * pageSize - offset + j := by
      intro j hj
      have hj := List.mem_range.mp hj
      exact Nat.mod_eq_of_lt (by omega)
    rw [envmWritePagePart, hsub]
    exact congrArg (s.reads ++ ·) (List.map_congr_left hplaces)

/-- The pages of data that starts with a page, up to some page. -/
theorem writePages_aligned (src : Contents) (s : St) {first n : Nat}
    (hfit : offset + size ≤ flashSize)
    (hfirst : offset = first * pageSize) (hn : n = 0 ∨ (first + n - 1) * pageSize < offset + size) :
    (∀ a, ((List.range' first n).foldl (writePage src offset size) s).flash a =
      if InRange offset (min size (n * pageSize)) a then src (a - offset) else s.flash a) ∧
    ∀ x ∈ ((List.range' first n).foldl (writePage src offset size) s).reads,
      x ∈ s.reads ∨ x < size := by
  have hsize : pageSize = 128 := rfl
  induction n with
  | zero =>
    refine ⟨fun a => ?_, fun x hx => Or.inl hx⟩
    rw [Nat.zero_mul, Nat.min_zero, if_neg]
    · rfl
    · rintro ⟨hlo, hhi⟩
      omega
  | succ n ih =>
    have hlast : (first + n) * pageSize < offset + size := by
      rcases hn with hzero | hlt
      · omega
      · exact hlt
    have hsplit : (first + n) * pageSize = offset + n * pageSize := by
      rw [hfirst, Nat.add_mul]
    obtain ⟨hflash, hreads⟩ := ih (by
      rcases Nat.eq_zero_or_pos n with hzero | hpos
      · exact Or.inl hzero
      · refine Or.inr ?_
        have hle : (first + n - 1) * pageSize ≤ (first + n) * pageSize :=
          Nat.mul_le_mul_right _ (by omega)
        omega)
    rw [List.range'_concat, Nat.one_mul, List.foldl_append, List.foldl_cons, List.foldl_nil]
    obtain ⟨hflash', hreads'⟩ := writePage_aligned src
      ((List.range' first n).foldl (writePage src offset size) s) hfit (by omega) hlast
    constructor
    · intro a
      rw [hflash' a, hflash a, Nat.add_one_mul]
      by_cases hin : InRange ((first + n) * pageSize)
          (min pageSize (offset + size - (first + n) * pageSize)) a
      · obtain ⟨hlo, hhi⟩ := hin
        rw [if_pos ⟨hlo, hhi⟩, if_pos ⟨by omega, by omega⟩]
      · rw [if_neg hin]
        by_cases hbefore : InRange offset (min size (n * pageSize)) a
        · obtain ⟨hlo, hhi⟩ := hbefore
          rw [if_pos ⟨hlo, hhi⟩, if_pos ⟨hlo, by omega⟩]
        · rw [if_neg hbefore, if_neg]
          rintro ⟨hlo, hhi⟩
          rcases Nat.lt_or_ge a (offset + n * pageSize) with hlt | hge
          · exact hbefore ⟨hlo, by omega⟩
          · exact hin ⟨by omega, by omega⟩
    · intro x hx
      rw [hreads'] at hx
      rcases List.mem_append.mp hx with hold | hnew
      · exact hreads x hold
      · obtain ⟨j, hj, rfl⟩ := List.mem_map.mp hnew
        have hj := List.mem_range.mp hj
        exact Or.inr (by omega)

end Parts

/-! ## The data as a whole -/

section Write

variable {src flash wdbuff : Contents} {offset size : Nat} {s : St}

/-- The data replaces its range, and only its bytes are read. -/
structure EnvmRight (src flash wdbuff : Contents) (offset size : Nat) : Prop where
  stored : ∀ i < size, (envmWrite src offset size ⟨flash, wdbuff, []⟩).2.flash (offset + i) = src i
  kept : ∀ a, ¬ InRange offset size a →
    (envmWrite src offset size ⟨flash, wdbuff, []⟩).2.flash a = flash a
  reads : ∀ x ∈ (envmWrite src offset size ⟨flash, wdbuff, []⟩).2.reads, x < size

theorem writePages_reads (pages : List Nat) {x : Nat} (hx : x ∈ s.reads) :
    x ∈ (pages.foldl (writePage src offset size) s).reads := by
  induction pages generalizing s with
  | nil => exact hx
  | cons page pages ih => exact ih (List.mem_append_left _ hx)

/-- In the first page, the data is looked for as far in front of its start as it starts behind that
of the page. -/
theorem writePage_first (hpos : 0 < size) (hfit : offset + size ≤ flashSize)
    (hunaligned : offset % pageSize ≠ 0) :
    2 ^ 32 - offset % pageSize ∈ (writePage src offset size s (offset / pageSize)).reads := by
  have hflash : flashSize = 262144 := rfl
  have hsize : pageSize = 128 := rfl
  have hmod := Nat.div_add_mod' offset pageSize
  have hlt := Nat.mod_lt offset (show 0 < pageSize by omega)
  have hle : offset / pageSize * pageSize ≤ offset := Nat.div_mul_le_self offset pageSize
  rw [writePage, partBegin_eq (by omega) (by omega), partEnd_eq hfit (by omega), maxUnsigned_zero,
    envmWritePagePart]
  refine List.mem_append_right _ (List.mem_map.mpr ⟨0, List.mem_range.mpr ?_, ?_⟩)
  · rw [sub]
    omega
  · rw [Nat.mod_eq_of_lt (show offset / pageSize * pageSize < 2 ^ 32 by omega), sub]
    omega

/-- A write inside the flash is right if and only if it starts with a page. -/
theorem envmWrite_stores_iff (src flash wdbuff : Contents) {offset size : Nat} (hpos : 0 < size)
    (hfit : offset + size ≤ flashSize) :
    EnvmRight src flash wdbuff offset size ↔ offset % pageSize = 0 := by
  have hflash : flashSize = 262144 := rfl
  have hsize : pageSize = 128 := rfl
  have hlast : (offset + size + 2 ^ 32 - 1) % 2 ^ 32 = offset + size - 1 := by
    rw [show offset + size + 2 ^ 32 - 1 = (offset + size - 1) + 2 ^ 32 by omega, Nat.add_mod_right,
      Nat.mod_eq_of_lt (by omega)]
  have hle : offset / pageSize ≤ (offset + size - 1) / pageSize :=
    Nat.div_le_div_right (by omega)
  constructor
  · intro h
    by_contra hunaligned
    obtain ⟨n, hn⟩ : ∃ n, (offset + size - 1) / pageSize + 1 - offset / pageSize = n + 1 :=
      ⟨(offset + size - 1) / pageSize - offset / pageSize, by omega⟩
    have hread : 2 ^ 32 - offset % pageSize ∈
        (envmWrite src offset size ⟨flash, wdbuff, []⟩).2.reads := by
      rw [envmWrite, hlast, hn, List.range'_succ, List.foldl_cons]
      exact writePages_reads _ (writePage_first hpos hfit hunaligned)
    have hbound := h.reads _ hread
    have hlt := Nat.mod_lt offset (show 0 < pageSize by omega)
    omega
  · intro haligned
    have hfirst : offset = offset / pageSize * pageSize := by
      have := Nat.div_add_mod' offset pageSize
      omega
    generalize hn : (offset + size - 1) / pageSize + 1 - offset / pageSize = n
    have hsum : (offset + size - 1) / pageSize + 1 = offset / pageSize + n := by omega
    have hpages : (offset / pageSize + n - 1) * pageSize < offset + size := by
      have := Nat.div_mul_le_self (offset + size - 1) pageSize
      rw [← hsum, Nat.add_sub_cancel]
      omega
    have hcover : size ≤ n * pageSize := by
      have hupper := Nat.lt_mul_of_div_lt (Nat.lt_succ_self ((offset + size - 1) / pageSize))
        (show 0 < pageSize by omega)
      rw [Nat.succ_eq_add_one, hsum, Nat.add_mul] at hupper
      omega
    obtain ⟨hwritten, hreads⟩ := writePages_aligned src ⟨flash, wdbuff, []⟩ hfit hfirst
      (Or.inr hpages)
    rw [Nat.min_eq_left hcover] at hwritten
    have heq : (envmWrite src offset size ⟨flash, wdbuff, []⟩).2 =
        (List.range' (offset / pageSize) n).foldl (writePage src offset size)
          ⟨flash, wdbuff, []⟩ := by
      rw [envmWrite, hlast, hn]
    refine ⟨?_, ?_, ?_⟩
    · intro i hi
      rw [heq, hwritten, if_pos ⟨Nat.le_add_right _ _, by omega⟩, Nat.add_sub_cancel_left]
    · intro a ha
      rw [heq, hwritten, if_neg ha]
    · intro x hx
      rw [heq] at hx
      rcases hreads x hx with hnone | hlt
      · cases hnone
      · exact hlt

theorem envmWrite_stores_twoPages :
    EnvmRight (fun x => UInt8.ofNat x) (fun _ => 0xFF) (fun _ => 0) 128 200 :=
  (envmWrite_stores_iff (fun x => UInt8.ofNat x) (fun _ => 0xFF) (fun _ => 0) (by decide)
    (by decide)).mpr (by decide)

/-- Four bytes at offset 2: the page gets the two bytes in front of the data, and the first two of
it. -/
theorem envmWrite_stores_unaligned :
    readAt (envmWrite (fun x => UInt8.ofNat x) 2 4 ⟨fun _ => 0xFF, fun _ => 0, []⟩).2.flash 0 8 =
      [0xFF, 0xFF, 0xFE, 0xFF, 0, 1, 0xFF, 0xFF] ∧
    ¬ EnvmRight (fun x => UInt8.ofNat x) (fun _ => 0xFF) (fun _ => 0) 2 4 := by
  have hread : readAt (envmWrite (fun x => UInt8.ofNat x) 2 4
      ⟨fun _ => 0xFF, fun _ => 0, []⟩).2.flash 0 8 =
        [0xFF, 0xFF, 0xFE, 0xFF, 0, 1, 0xFF, 0xFF] := by
    decide +kernel
  refine ⟨hread, fun h => ?_⟩
  have hstored := h.stored 0 (by decide)
  have hbyte := congrArg (fun b => b[2]?) hread
  rw [getElem?_readAt (by decide), Nat.zero_add] at hbyte
  rw [Nat.add_zero] at hstored
  rw [hstored] at hbyte
  exact absurd hbyte (by decide)

end Write

end UBoot.Cpu.M2s
