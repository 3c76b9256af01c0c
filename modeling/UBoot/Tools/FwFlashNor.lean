import UBoot.Tools.FwFlash

/-!
# Writing NOR flash with `fw_env`

On NOR `flash_write_buf` erases and writes the whole area at once, and its loop is meant to run
once.  But it counts one block for each round, and the old contents are read only as far as the
blocks of the image go.  So with an image in more than one block the second round is at the end of
the range, and with more than one block in the area what is behind the image comes from memory that
was not filled.

* `flashWriteBuf_nor`: the image is stored, and the rest of the area kept, exactly when the area is
  one block or there is nothing to write.
-/

namespace UBoot.Tools

open UBoot.Lib

/-- Every call succeeds. -/
structure MtdCalls.AllOk (m : MtdCalls) : Prop where
  readOk : ∀ a, m.readOk a = true
  eraseOk : ∀ a, m.eraseOk a = true
  seekOk : ∀ a, m.seekOk a = true
  writeOk : ∀ a, m.writeOk a = true
  mallocOk : m.mallocOk = true

/-- There are so many bytes of memory. -/
structure FwMemory.Has (mem : FwMemory) (n : Nat) : Prop where
  behind : n ≤ mem.behind.length
  heap : n ≤ mem.heap.length

/-- The write does not fail, the image is stored, and the rest of the erased area is as before. -/
def NorWritten (dev : EnvDev) (f : Flash) (buf : Bytes) (r : Except FlashError Written) : Prop :=
  ∃ w, r = .ok w ∧ readAt w.contents dev.devoff buf.length = buf ∧
    ∀ a, InRange (alignDown dev.devoff dev.eraseSize) (dev.envSectors * dev.eraseSize) a →
      ¬ InRange dev.devoff buf.length a → w.contents a = f.contents a

variable {dev : EnvDev} {m : MtdCalls} {mem : FwMemory} {f : Flash} {buf data : Bytes}
  {c : Contents} {E start seek total len : Nat}

/-! ## Reading -/

theorem flashBadBlock_nor (m : MtdCalls) (blockstart : Nat) :
    flashBadBlock m .norflash blockstart = 0 := if_neg (by decide)

/-- The loop runs once. -/
theorem flashReadBuf_nor (hok : m.AllOk) (count offset : Nat) (hsize : offset + count ≤ f.size) :
    flashReadBuf dev m f count offset .norflash = .ok (count, readAt f.contents offset count) := by
  have hstart : alignDown offset dev.eraseSize + (offset - alignDown offset dev.eraseSize) =
      offset := Nat.add_sub_of_le (Nat.sub_le _ _)
  rw [flashReadBuf, if_neg (by decide), readLoop]
  by_cases hpos : 0 < count
  · rw [if_pos hpos]
    simp only [flashBadBlock_nor]
    rw [hstart, if_neg (by decide), if_neg (Nat.lt_irrefl _), if_neg (by decide), hok.readOk,
      if_neg (by simp; omega), readLoop, if_neg (by omega), Nat.zero_add, List.nil_append]
  · obtain rfl : count = 0 := by omega
    rfl

/-- The image in the old contents. -/
theorem splice_eq (c : Contents) (start : Nat) (hfit : seek + buf.length ≤ total) :
    (readAt c start total).take seek ++ buf ++ (readAt c start total).drop (seek + buf.length) =
      readAt (storeAt c (start + seek) buf) start total := by
  obtain ⟨rest, rfl⟩ : ∃ rest, total = seek + buf.length + rest :=
    ⟨_, (Nat.add_sub_of_le hfit).symm⟩
  have hfront : readAt (storeAt c (start + seek) buf) start seek = readAt c start seek :=
    readAt_congr fun a ha => if_neg fun hin => Nat.not_lt.mpr hin.1 ha.2
  have hback : readAt (storeAt c (start + seek) buf) (start + (seek + buf.length)) rest =
      readAt c (start + (seek + buf.length)) rest :=
    readAt_congr fun a ha => if_neg fun hin => by
      have := hin.2
      have := ha.1
      omega
  rw [take_readAt, drop_readAt hfit, Nat.min_eq_left (by omega), Nat.add_sub_cancel_left,
    readAt_add, hback, readAt_add, hfront, readAt_storeAt]

/-- The data that is written: the blocks of the image as they are to be, and what comes from
memory. -/
theorem blockData_nor (dev : EnvDev) (mem : FwMemory) (hok : m.AllOk)
    (hfit : seek + buf.length ≤ total) (hsize : start + total ≤ f.size) :
    blockData dev m mem f buf .norflash start seek total =
      .ok (readAt (storeAt f.contents (start + seek) buf) start total ++
        if buf.length < total then mem.heap.drop total else mem.behind) := by
  rw [blockData, ← splice_eq f.contents start hfit]
  by_cases hlt : buf.length < total
  · rw [if_pos hlt, if_pos hlt, hok.mallocOk, if_neg (by decide),
      flashReadBuf_nor hok total start hsize]
    dsimp only
    have hlen := length_readAt f.contents start total
    rw [if_neg (not_not.mpr rfl), List.take_append_of_le_length (by omega),
      List.drop_append_of_le_length (by omega)]
    simp only [List.append_assoc]
  · have hseek : seek = 0 := by omega
    have hdrop : (readAt f.contents start total).drop (0 + buf.length) = [] :=
      List.drop_eq_nil_of_le (by rw [length_readAt]; omega)
    rw [if_neg hlt, if_neg hlt, hseek, hdrop, List.take_zero, List.nil_append, List.append_nil]

/-! ## Writing -/

/-- The first round erases and writes the whole area. -/
theorem writeLoop_nor_first (hok : m.AllOk) {top size fuel eraseLen : Nat}
    (htop : start + eraseLen = top) (hsize : top ≤ size) (htotal : 0 < total)
    (hdata : eraseLen ≤ data.length) :
    writeLoop m size .norflash E eraseLen top total data (fuel + 1) start ⟨0, c, []⟩ =
      writeLoop m size .norflash E eraseLen top total data fuel (start + E)
        ⟨E, storeAt c start (data.take eraseLen), [start]⟩ := by
  have hstore := programAt_eraseAt c start (data.take eraseLen)
  rw [List.length_take, Nat.min_eq_left hdata] at hstore
  rw [writeLoop, if_pos htotal]
  simp only [flashBadBlock_nor]
  rw [if_neg (by decide), if_neg (Nat.not_lt.mpr (Nat.le_of_eq htop)), if_neg (by decide),
    hok.eraseOk, hok.seekOk, hok.writeOk, if_neg (by decide), if_neg (by decide),
    if_neg (by simp; omega), List.drop_zero, hstore, Nat.zero_add, List.nil_append]

/-! ## The whole write -/

section Area

/-- The start of the first block. -/
def EnvDev.areaStart (dev : EnvDev) : Nat := dev.eraseSize * (dev.devoff / dev.eraseSize)

/-- The blocks that the image needs. -/
def EnvDev.blocks (dev : EnvDev) (count : Nat) : Nat :=
  (dev.devoff % dev.eraseSize + count + dev.eraseSize - 1) / dev.eraseSize

theorem EnvDev.areaStart_add (dev : EnvDev) :
    dev.areaStart + dev.devoff % dev.eraseSize = dev.devoff :=
  Nat.div_add_mod dev.devoff dev.eraseSize

theorem EnvDev.topOfRange_eq (dev : EnvDev) :
    dev.areaStart + dev.envSectors * dev.eraseSize = dev.topOfRange := by
  rw [topOfRange, alignDown_eq dev.eraseSize_pow, areaStart]

theorem EnvDev.le_blocks (dev : EnvDev) (count : Nat) :
    dev.devoff % dev.eraseSize + count ≤ dev.blocks count * dev.eraseSize := by
  have hE := dev.eraseSize_pos
  have hdm := Nat.div_add_mod (dev.devoff % dev.eraseSize + count + dev.eraseSize - 1) dev.eraseSize
  have hlt := Nat.mod_lt (dev.devoff % dev.eraseSize + count + dev.eraseSize - 1) hE
  rw [blocks, Nat.mul_comm]
  omega

theorem EnvDev.blocks_le (dev : EnvDev) {count : Nat}
    (hfit : dev.devoff % dev.eraseSize + count ≤ dev.envSectors * dev.eraseSize) :
    dev.blocks count ≤ dev.envSectors := by
  have hE := dev.eraseSize_pos
  refine Nat.le_of_lt_succ ((Nat.div_lt_iff_lt_mul hE).mpr ?_)
  rw [Nat.add_one_mul]
  omega

theorem EnvDev.blocks_eq_zero_iff (dev : EnvDev) (count : Nat) :
    dev.blocks count = 0 ↔ count = 0 ∧ dev.eraseSize ∣ dev.devoff := by
  have hE := dev.eraseSize_pos
  rw [blocks, Nat.div_eq_zero_iff, Nat.dvd_iff_mod_eq_zero]
  omega

/-- The bytes behind the blocks of the image. -/
def FwMemory.tail (mem : FwMemory) (count total : Nat) : Bytes :=
  if count < total then mem.heap.drop total else mem.behind

theorem flashWriteBuf_nor_eq (hok : m.AllOk) (hsize : dev.topOfRange ≤ f.size)
    (hfit : dev.devoff % dev.eraseSize + buf.length ≤ dev.envSectors * dev.eraseSize) :
    flashWriteBuf dev m mem f buf dev.devoff .norflash =
      writeLoop m f.size .norflash dev.eraseSize (dev.envSectors * dev.eraseSize) dev.topOfRange
        (dev.blocks buf.length * dev.eraseSize)
        (readAt (storeAt f.contents dev.devoff buf) dev.areaStart
          (dev.blocks buf.length * dev.eraseSize) ++
          mem.tail buf.length (dev.blocks buf.length * dev.eraseSize))
        (dev.topOfRange + 2) dev.areaStart ⟨0, f.contents, []⟩ := by
  have htop := dev.topOfRange_eq
  have hblocks := Nat.mul_le_mul_right dev.eraseSize (dev.blocks_le hfit)
  have hdata := blockData_nor dev mem hok (dev.le_blocks buf.length)
    (show dev.areaStart + dev.blocks buf.length * dev.eraseSize ≤ f.size by omega)
  rw [dev.areaStart_add] at hdata
  have htotal : alignDown (dev.devoff % dev.eraseSize + buf.length + dev.eraseSize - 1)
      dev.eraseSize = dev.blocks buf.length * dev.eraseSize := by
    rw [alignDown_eq dev.eraseSize_pow, Nat.mul_comm]
    rfl
  have hstart : alignDown dev.devoff dev.eraseSize = dev.areaStart := alignDown_eq dev.eraseSize_pow
  have hseek : dev.devoff - dev.areaStart = dev.devoff % dev.eraseSize := by
    have := dev.areaStart_add
    omega
  rw [flashWriteBuf]
  simp only [hstart, hseek, htotal, hdata]
  rw [if_neg (by decide), ← htop, Nat.add_sub_cancel_left]
  rfl

/-- Where nothing is to be written nothing is. -/
theorem norWritten_of_empty (hok : m.AllOk) (hsize : dev.topOfRange ≤ f.size)
    (hfit : dev.devoff % dev.eraseSize + buf.length ≤ dev.envSectors * dev.eraseSize)
    (hempty : dev.blocks buf.length = 0) :
    NorWritten dev f buf (flashWriteBuf dev m mem f buf dev.devoff .norflash) := by
  have hnil : buf = [] :=
    List.eq_nil_of_length_eq_zero ((dev.blocks_eq_zero_iff buf.length).mp hempty).1
  rw [flashWriteBuf_nor_eq hok hsize hfit, hempty, Nat.zero_mul, writeLoop,
    if_neg (Nat.lt_irrefl 0)]
  exact ⟨_, rfl, by rw [hnil]; rfl, fun a _ _ => rfl⟩

/-- To store a part of other contents, that differ in it only, is to have them. -/
theorem storeAt_readAt {c' : Contents} (h : ∀ a, ¬ InRange start len a → c' a = c a) :
    storeAt c start (readAt c' start len) = c' := by
  funext a
  rw [storeAt, length_readAt]
  by_cases hin : InRange start len a
  · have hlt : a - start < len := Nat.sub_lt_left_of_lt_add hin.1 hin.2
    rw [if_pos hin, List.getD_eq_getElem?_getD, getElem?_readAt hlt, Option.getD_some,
      Nat.add_sub_of_le hin.1]
  · rw [if_neg hin, h a hin]

/-- With one block the write is right. -/
theorem norWritten_of_one (hok : m.AllOk) (hsize : dev.topOfRange ≤ f.size)
    (hfit : dev.devoff % dev.eraseSize + buf.length ≤ dev.envSectors * dev.eraseSize)
    (hone : dev.envSectors = 1) :
    NorWritten dev f buf (flashWriteBuf dev m mem f buf dev.devoff .norflash) := by
  have hE := dev.eraseSize_pos
  have hseek := dev.areaStart_add
  have htop := dev.topOfRange_eq
  have hblocks := dev.blocks_le hfit
  rw [hone] at hblocks
  rcases Nat.le_one_iff_eq_zero_or_eq_one.mp hblocks with hempty | hblock
  · exact norWritten_of_empty hok hsize hfit hempty
  · rw [hone, Nat.one_mul] at htop
    have hlen := length_readAt (storeAt f.contents dev.devoff buf) dev.areaStart dev.eraseSize
    have hsame : storeAt f.contents dev.areaStart
        (readAt (storeAt f.contents dev.devoff buf) dev.areaStart dev.eraseSize) =
        storeAt f.contents dev.devoff buf := by
      refine storeAt_readAt fun a ha => if_neg fun hin => ha ?_
      rw [hone, Nat.one_mul] at hfit
      exact ⟨Nat.le_trans (by omega) hin.1, Nat.lt_of_lt_of_le hin.2 (by omega)⟩
    rw [flashWriteBuf_nor_eq hok hsize hfit, hone, hblock, Nat.one_mul,
      writeLoop_nor_first hok htop hsize hE (by rw [List.length_append, hlen]; omega),
      List.take_left' hlen, writeLoop, if_neg (Nat.lt_irrefl _), hsame]
    exact ⟨_, rfl, readAt_storeAt _ _ _, fun a _ ha => if_neg ha⟩

/-- Memory that holds one byte everywhere. -/
def FwMemory.filled (n : Nat) (x : UInt8) : FwMemory := ⟨List.replicate n x, List.replicate n x⟩

theorem FwMemory.exists_tail_filled (n : Nat) (x : UInt8) (count total : Nat) :
    ∃ k, n - total ≤ k ∧ (filled n x).tail count total = List.replicate k x := by
  rw [tail]
  split
  · exact ⟨n - total, Nat.le_refl _, List.drop_replicate⟩
  · exact ⟨n, Nat.sub_le n total, rfl⟩

/-- With more than one block the write fails, or what is behind the image is not kept. -/
theorem not_norWritten (hok : m.AllOk) (hsize : dev.topOfRange ≤ f.size)
    (hfit : dev.devoff % dev.eraseSize + buf.length ≤ dev.envSectors * dev.eraseSize)
    (hmore : 1 < dev.envSectors) (hblocks : 0 < dev.blocks buf.length) {x : UInt8}
    (hx : x ≠ f.contents (dev.areaStart + dev.eraseSize)) :
    ¬ NorWritten dev f buf (flashWriteBuf dev m
      (FwMemory.filled (dev.envSectors * dev.eraseSize) x) f buf dev.devoff .norflash) := by
  have hE := dev.eraseSize_pos
  have hseek := dev.areaStart_add
  have htop := dev.topOfRange_eq
  have hle := Nat.mul_le_mul_right dev.eraseSize (dev.blocks_le hfit)
  have htwo := Nat.mul_le_mul_right dev.eraseSize hmore
  have hpos := Nat.mul_pos hblocks hE
  have hneed := dev.le_blocks buf.length
  have hstart : alignDown dev.devoff dev.eraseSize = dev.areaStart := alignDown_eq dev.eraseSize_pow
  obtain ⟨k, hk, htail⟩ := FwMemory.exists_tail_filled (dev.envSectors * dev.eraseSize) x buf.length
    (dev.blocks buf.length * dev.eraseSize)
  have hlen := length_readAt (storeAt f.contents dev.devoff buf) dev.areaStart
    (dev.blocks buf.length * dev.eraseSize)
  rintro ⟨w, hw, -, hkept⟩
  rw [flashWriteBuf_nor_eq hok hsize hfit, htail, writeLoop_nor_first hok htop hsize hpos
    (by rw [List.length_append, hlen, List.length_replicate]; omega), writeLoop] at hw
  rcases Nat.lt_or_ge 1 (dev.blocks buf.length) with hmany | hone
  · -- the second round is at the end of the range
    have hround := Nat.mul_le_mul_right dev.eraseSize hmany
    rw [if_pos (by dsimp only; omega)] at hw
    simp only [flashBadBlock_nor] at hw
    rw [if_neg (by decide), if_pos (by omega)] at hw
    cases hw
  · -- the second block is filled from memory
    have hblock : dev.blocks buf.length = 1 := Nat.le_antisymm hone hblocks
    rw [hblock, Nat.one_mul] at hlen hneed hk
    rw [hblock, Nat.one_mul, if_neg (Nat.lt_irrefl _)] at hw
    cases hw
    have hold := hkept (dev.areaStart + dev.eraseSize) (by rw [hstart]; exact ⟨by omega, by omega⟩)
      (fun hin => by have := hin.2; omega)
    change storeAt _ _ _ _ = _ at hold
    rw [storeAt, if_pos, List.getD_eq_getElem?_getD, Nat.add_sub_cancel_left,
      List.getElem?_take_of_lt (by omega), List.getElem?_append_right (by omega), hlen,
      Nat.sub_self, List.getElem?_replicate, if_pos (by omega), Option.getD_some] at hold
    · exact hx hold
    · rw [List.length_take, List.length_append, hlen, List.length_replicate]
      exact ⟨by omega, by omega⟩

/-- **The image is stored and the rest of the area kept** exactly when the area is one block, or
there is nothing to write. -/
theorem flashWriteBuf_nor (hok : m.AllOk) (hsize : dev.topOfRange ≤ f.size)
    (hfit : dev.devoff % dev.eraseSize + buf.length ≤ dev.envSectors * dev.eraseSize) :
    (∀ mem : FwMemory, mem.Has (dev.envSectors * dev.eraseSize) →
      NorWritten dev f buf (flashWriteBuf dev m mem f buf dev.devoff .norflash)) ↔
    dev.envSectors = 1 ∨ buf = [] ∧ dev.eraseSize ∣ dev.devoff := by
  have hempty : dev.blocks buf.length = 0 ↔ buf = [] ∧ dev.eraseSize ∣ dev.devoff := by
    rw [dev.blocks_eq_zero_iff, List.length_eq_zero_iff]
  rw [← hempty]
  constructor
  · intro hwritten
    by_contra hcond
    rw [not_or] at hcond
    have hblocks := dev.blocks_le hfit
    have hx : f.contents (dev.areaStart + dev.eraseSize) + 1 ≠
        f.contents (dev.areaStart + dev.eraseSize) := by
      intro h
      simp at h
    refine not_norWritten hok hsize hfit (by omega) (by omega) hx (hwritten _ ⟨?_, ?_⟩)
    · exact Nat.le_of_eq List.length_replicate.symm
    · exact Nat.le_of_eq List.length_replicate.symm
  · rintro (hone | hzero) mem -
    · exact norWritten_of_one hok hsize hfit hone
    · exact norWritten_of_empty hok hsize hfit hzero

end Area

theorem smallCalls_allOk : smallCalls.AllOk :=
  ⟨fun _ => rfl, fun _ => rfl, fun _ => rfl, fun _ => rfl, rfl⟩

/-- A device with one block. -/
def oneBlock : EnvDev := ⟨2, 4, 1, four_eq_pow⟩

theorem flashWriteBuf_nor_oneBlock :
    NorWritten oneBlock smallFlash [70, 71]
      (flashWriteBuf oneBlock smallCalls (FwMemory.filled 4 0) smallFlash [70, 71] 2 .norflash) :=
  (flashWriteBuf_nor smallCalls_allOk (f := smallFlash) (by decide) (by decide)).mpr (Or.inl rfl)
    (FwMemory.filled 4 0) ⟨by decide, by decide⟩

/-- An image in two blocks is written, but the write fails. -/
theorem flashWriteBuf_nor_twoBlocks :
    flashWriteBuf smallDev smallCalls (FwMemory.filled 12 0) smallFlash [70, 71, 72] 2 .norflash =
        .error .endOfRange ∧
      ¬ NorWritten smallDev smallFlash [70, 71, 72] (flashWriteBuf smallDev smallCalls
        (FwMemory.filled 12 0) smallFlash [70, 71, 72] 2 .norflash) := by
  have hend : flashWriteBuf smallDev smallCalls (FwMemory.filled 12 0) smallFlash [70, 71, 72] 2
      .norflash = .error .endOfRange := rfl
  refine ⟨hend, ?_⟩
  rintro ⟨w, hw, -⟩
  rw [hend] at hw
  cases hw

end UBoot.Tools
