import UBoot.Lib.Blocks
import UBoot.Tools.FwEnvInit

/-!
# The block layer of `fw_env`

`flash_read_buf` and `flash_write_buf` of `tools/env/fw_env.c`.  On NAND both walk over
the erase blocks from the one that contains the offset, skip the bad ones and give up at
the end of `ENVSECTORS` blocks.  The writer erases and writes whole blocks, so where the
image does not fill them it first reads the old contents and puts the image into it.

The kernel's side is in `MtdCalls`: the bad block marks, and which calls fail.  `Walk` is
what the two loops have in common, the list of good blocks from a starting point; the
writer's blocks are a walk (`writeLoop_walk`), and along a walk the reader reads them
(`readLoop_walk`).
-/

namespace UBoot.Tools

open UBoot.Lib
open UBoot.LibGeneric
open UBoot.Common

/-! ## The model -/

/-- `struct envdev_s`, as far as it is used here. -/
structure EnvDev where
  /-- `DEVOFFSET` -/
  devoff : Nat
  /-- `DEVESIZE` -/
  eraseSize : Nat
  /-- `ENVSECTORS` -/
  envSectors : Nat
  eraseSize_pow : ∃ k, eraseSize = 2 ^ k

/-- The answers of the kernel, for the address of each call. -/
structure MtdCalls where
  /-- `MEMGETBADBLOCK`: negative when the call fails, positive for a bad block -/
  badBlock : Nat → Int
  readOk : Nat → Bool
  eraseOk : Nat → Bool
  seekOk : Nat → Bool
  writeOk : Nat → Bool
  mallocOk : Bool

/-- A device of `size` bytes. -/
structure Flash where
  size : Nat
  contents : Contents

inductive FlashError
  /-- "Cannot read bad block mark" -/
  | badBlockTest
  /-- "Too few good blocks within range" -/
  | tooFewGoodBlocks
  /-- "Read error" -/
  | read
  /-- "Cannot malloc" -/
  | malloc
  /-- `write_total != rc` -/
  | shortRead
  /-- "End of range reached, aborting" -/
  | endOfRange
  /-- "MTD erase error" -/
  | erase
  /-- "Seek error" -/
  | seek
  /-- "Write error" -/
  | write
  /-- the loop has used up its steps -/
  | steps
  deriving DecidableEq, Repr

/-- `x & ~(n - 1)` -/
def alignDown (x n : Nat) : Nat := x - (x &&& (n - 1))

/-- `flash_bad_block` -/
def flashBadBlock (m : MtdCalls) (type : MtdType) (blockstart : Nat) : Int :=
  if type = .nandflash then m.badBlock blockstart else 0

/-- The end of the last block that may be used. -/
def EnvDev.topOfRange (dev : EnvDev) : Nat :=
  alignDown dev.devoff dev.eraseSize + dev.envSectors * dev.eraseSize

/-- The loop of `flash_read_buf`.  `buf` holds the bytes read so far. -/
def readLoop (m : MtdCalls) (f : Flash) (type : MtdType) (blocklen topOfRange count : Nat) :
    Nat → Nat → Nat → Nat → Nat → Bytes → Except FlashError (Nat × Bytes)
  | 0, _, _, _, _, _ => .error .steps
  | fuel + 1, blockstart, blockSeek, processed, readlen, buf =>
    if processed < count then
      let rc := flashBadBlock m type blockstart
      if rc < 0 then .error .badBlockTest
      else if blockstart + blockSeek + readlen > topOfRange then .error .tooFewGoodBlocks
      else if rc ≠ 0 then
        readLoop m f type blocklen topOfRange count fuel (blockstart + blocklen) blockSeek
          processed readlen buf
      else if !m.readOk (blockstart + blockSeek) ∨ blockstart + blockSeek + readlen > f.size then
        .error .read
      else
        readLoop m f type blocklen topOfRange count fuel (blockstart + blocklen) 0
          (processed + readlen) (min blocklen (count - (processed + readlen)))
          (buf ++ readAt f.contents (blockstart + blockSeek) readlen)
    else .ok (processed, buf)

/-- `flash_read_buf(dev, fd, buf, count, offset, mtd_type)`: the return value and the
buffer. -/
def flashReadBuf (dev : EnvDev) (m : MtdCalls) (f : Flash) (count offset : Nat) (type : MtdType) :
    Except FlashError (Nat × Bytes) :=
  let blockstart := alignDown offset dev.eraseSize
  let blockSeek := offset - blockstart
  if type = .nandflash then
    let blocklen := dev.eraseSize
    let readlen := if count > blocklen - blockSeek then blocklen - blockSeek else count
    readLoop m f type blocklen dev.topOfRange count (dev.topOfRange + 2) blockstart blockSeek 0
      readlen []
  else
    readLoop m f type 0 (offset + count) count 2 blockstart blockSeek 0 count []

/-- What `flash_write_buf` returns and leaves.  The blocks that were erased are noted down
in order. -/
structure Written where
  processed : Nat
  contents : Contents
  erased : List Nat

/-- The loop of `flash_write_buf`. -/
def writeLoop (m : MtdCalls) (size : Nat) (type : MtdType)
    (blocklen erasesize topOfRange writeTotal : Nat) (data : Bytes) :
    Nat → Nat → Written → Except FlashError Written
  | 0, _, _ => .error .steps
  | fuel + 1, blockstart, w =>
    if w.processed < writeTotal then
      let rc := flashBadBlock m type blockstart
      if rc < 0 then .error .badBlockTest
      else if blockstart + erasesize > topOfRange then .error .endOfRange
      else if rc ≠ 0 then
        writeLoop m size type blocklen erasesize topOfRange writeTotal data fuel
          (blockstart + blocklen) w
      else if !m.eraseOk blockstart then .error .erase
      else if !m.seekOk blockstart then .error .seek
      else if !m.writeOk blockstart ∨ blockstart + erasesize > size then .error .write
      else
        let chunk := (data.drop w.processed).take erasesize
        writeLoop m size type blocklen erasesize topOfRange writeTotal data fuel
          (blockstart + blocklen)
          ⟨w.processed + blocklen,
            programAt (eraseAt w.contents blockstart erasesize) blockstart chunk,
            w.erased ++ [blockstart]⟩
    else .ok w

/-- The memory of the program behind the image, and the memory that `malloc` hands out. -/
structure FwMemory where
  behind : Bytes
  heap : Bytes

/-- The data that is written: the image, or where it does not fill the blocks, the old
contents with the image in it. -/
def blockData (dev : EnvDev) (m : MtdCalls) (mem : FwMemory) (f : Flash) (buf : Bytes)
    (type : MtdType) (eraseOffset blockSeek writeTotal : Nat) : Except FlashError Bytes :=
  if writeTotal > buf.length then
    if !m.mallocOk then .error .malloc
    else
      match flashReadBuf dev m f writeTotal eraseOffset type with
      | .error e => .error e
      | .ok (rc, old) =>
        if writeTotal ≠ rc then .error .shortRead
        else
          let data := old ++ mem.heap.drop writeTotal
          .ok (data.take blockSeek ++ buf ++ data.drop (blockSeek + buf.length))
  else .ok (buf ++ mem.behind)

/-- `flash_write_buf(dev, fd, buf, count, offset, mtd_type)`, for a buffer of `count`
bytes. -/
def flashWriteBuf (dev : EnvDev) (m : MtdCalls) (mem : FwMemory) (f : Flash) (buf : Bytes)
    (offset : Nat) (type : MtdType) : Except FlashError Written :=
  let blocklen := dev.eraseSize
  let topOfRange := dev.topOfRange
  let eraseOffset := alignDown offset blocklen
  let eraseLen := topOfRange - eraseOffset
  let blockSeek := offset - eraseOffset
  let writeTotal := alignDown (blockSeek + buf.length + blocklen - 1) blocklen
  match blockData dev m mem f buf type eraseOffset blockSeek writeTotal with
  | .error e => .error e
  | .ok data =>
    let erasesize := if type = .nandflash then blocklen else eraseLen
    writeLoop m f.size type blocklen erasesize topOfRange writeTotal data (topOfRange + 2)
      eraseOffset ⟨0, f.contents, []⟩

/-! ## Walks over the good blocks -/

/-- The good blocks `bs` from `b` on, with every block passed on the way below `top`. -/
inductive Walk (badBlock : Nat → Int) (E top : Nat) : Nat → List Nat → Prop
  | nil (b : Nat) : Walk badBlock E top b []
  | skip {b : Nat} {bs : List Nat} (hbad : 0 < badBlock b) (hle : b + E ≤ top)
      (rest : Walk badBlock E top (b + E) bs) : Walk badBlock E top b bs
  | use {b : Nat} {bs : List Nat} (hgood : badBlock b = 0) (hle : b + E ≤ top)
      (rest : Walk badBlock E top (b + E) bs) : Walk badBlock E top b (b :: bs)

namespace Walk

variable {badBlock : Nat → Int} {E top b : Nat} {bs bs' : List Nat}

theorem mem (h : Walk badBlock E top b bs) :
    ∀ x ∈ bs, b ≤ x ∧ x + E ≤ top ∧ badBlock x = 0 := by
  induction h with
  | nil b => simp
  | skip hbad hle rest ih =>
    intro x hx
    obtain ⟨h₁, h₂, h₃⟩ := ih x hx
    exact ⟨by omega, h₂, h₃⟩
  | use hgood hle rest ih =>
    intro x hx
    rcases List.mem_cons.mp hx with rfl | hx
    · exact ⟨le_refl _, hle, hgood⟩
    · obtain ⟨h₁, h₂, h₃⟩ := ih x hx
      exact ⟨by omega, h₂, h₃⟩

theorem apart (h : Walk badBlock E top b bs) : Apart E bs := by
  induction h with
  | nil b => exact List.Pairwise.nil
  | skip hbad hle rest ih => exact ih
  | use hgood hle rest ih => exact List.Pairwise.cons (fun x hx => (rest.mem x hx).1) ih

theorem dvd (h : Walk badBlock E top b bs) (hb : E ∣ b) : ∀ x ∈ bs, E ∣ x := by
  induction h with
  | nil b => simp
  | skip hbad hle rest ih => exact ih (Nat.dvd_add hb (Nat.dvd_refl E))
  | use hgood hle rest ih =>
    intro x hx
    rcases List.mem_cons.mp hx with rfl | hx
    · exact hb
    · exact ih (Nat.dvd_add hb (Nat.dvd_refl E)) x hx

/-- The marks decide which blocks are used. -/
theorem unique (h : Walk badBlock E top b bs) (h' : Walk badBlock E top b bs')
    (hlen : bs.length = bs'.length) : bs = bs' := by
  induction h generalizing bs' with
  | nil b => exact (List.eq_nil_of_length_eq_zero hlen.symm).symm
  | skip hbad hle rest ih =>
    cases h' with
    | nil => exact List.eq_nil_of_length_eq_zero hlen
    | skip _ _ rest' => exact ih rest' hlen
    | use hgood' => omega
  | use hgood hle rest ih =>
    cases h' with
    | nil => cases hlen
    | skip hbad' => omega
    | use _ _ rest' => rw [ih rest' (by simpa using hlen)]

end Walk

section Loops

variable {m : MtdCalls} {f : Flash} {E top size total count : Nat} {data : Bytes}

/-- One round of the writer. -/
theorem writeLoop_round {fuel b : Nat} {w r : Written} (hlt : w.processed < total)
    (h : writeLoop m size .nandflash E E top total data (fuel + 1) b w = .ok r) :
    b + E ≤ top ∧ (0 < m.badBlock b ∧
        writeLoop m size .nandflash E E top total data fuel (b + E) w = .ok r ∨
      m.badBlock b = 0 ∧ b + E ≤ size ∧
        writeLoop m size .nandflash E E top total data fuel (b + E)
          ⟨w.processed + E, programAt (eraseAt w.contents b E) b ((data.drop w.processed).take E),
            w.erased ++ [b]⟩ = .ok r) := by
  rw [writeLoop, if_pos hlt] at h
  simp only [flashBadBlock, if_true] at h
  split_ifs at h with h₁ h₂ h₃ h₄ h₅ h₆
  · exact ⟨by omega, .inl ⟨by omega, h⟩⟩
  · rw [not_or] at h₆
    exact ⟨by omega, .inr ⟨by omega, by omega, h⟩⟩

/-- The blocks that the writer erases are a walk, and it stores the data in them. -/
theorem writeLoop_walk (hE : 0 < E) (hdata : total ≤ data.length) :
    ∀ {fuel b k : Nat} {w r : Written},
      writeLoop m size .nandflash E E top total data fuel b w = .ok r →
      total = w.processed + k * E →
      ∃ bs, Walk m.badBlock E top b bs ∧ bs.length = k ∧ r.erased = w.erased ++ bs ∧
        r.contents = storeBlocks E w.contents bs (data.drop w.processed) ∧
        ∀ x ∈ bs, x + E ≤ size := by
  intro fuel
  induction fuel with
  | zero =>
    intro b k w r h _
    cases h
  | succ fuel ih =>
    intro b k w r h htotal
    by_cases hlt : w.processed < total
    · obtain ⟨k, rfl⟩ : ∃ j, k = j + 1 := by
        apply Nat.exists_eq_add_one_of_ne_zero
        rintro rfl
        omega
      rw [Nat.add_one_mul] at htotal
      obtain ⟨hle, ⟨hbad, h⟩ | ⟨hgood, hsize, h⟩⟩ := writeLoop_round hlt h
      · obtain ⟨bs, hwalk, hlen, herased, hcontents, hbs⟩ := ih h (k := k + 1)
          (by rw [Nat.add_one_mul, htotal])
        exact ⟨bs, .skip hbad hle hwalk, hlen, herased, hcontents, hbs⟩
      · obtain ⟨bs, hwalk, hlen, herased, hcontents, hbs⟩ := ih h (k := k) (by
          show total = w.processed + E + k * E
          omega)
        have hchunk : ((data.drop w.processed).take E).length = E := by
          rw [List.length_take, List.length_drop]
          omega
        have hstore := programAt_eraseAt w.contents b ((data.drop w.processed).take E)
        rw [hchunk] at hstore
        refine ⟨b :: bs, .use hgood hle hwalk, by simp [hlen], by simp [herased], ?_, ?_⟩
        · rw [hcontents, storeBlocks]
          show storeBlocks E (programAt _ b _) bs (data.drop (w.processed + E)) = _
          rw [hstore, List.drop_drop]
        · intro x hx
          rcases List.mem_cons.mp hx with rfl | hx
          · exact hsize
          · exact hbs x hx
    · rw [writeLoop, if_neg hlt] at h
      cases h
      have hk : k = 0 := by
        have hzero : k * E = 0 := by omega
        exact (Nat.mul_eq_zero.mp hzero).resolve_right (by omega)
      exact ⟨[], .nil b, by simp [hk], by simp, rfl, by simp⟩

/-- One round of the reader that does not fail. -/
theorem readLoop_round {fuel b seek processed readlen : Nat} {buf : Bytes} {r : Nat × Bytes}
    (hlt : processed < count)
    (h : readLoop m f .nandflash E top count (fuel + 1) b seek processed readlen buf = .ok r) :
    b + seek + readlen ≤ top ∧ (0 < m.badBlock b ∧
        readLoop m f .nandflash E top count fuel (b + E) seek processed readlen buf = .ok r ∨
      m.badBlock b = 0 ∧ readLoop m f .nandflash E top count fuel (b + E) 0 (processed + readlen)
        (min E (count - (processed + readlen))) (buf ++ readAt f.contents (b + seek) readlen) =
          .ok r) := by
  rw [readLoop, if_pos hlt] at h
  simp only [flashBadBlock, if_true] at h
  split_ifs at h with h₁ h₂ h₃ h₄
  · exact ⟨by omega, .inl ⟨by omega, h⟩⟩
  · exact ⟨by omega, .inr ⟨by omega, h⟩⟩

/-- A read of `k` whole blocks reads a walk. -/
theorem walk_of_readLoop (hE : 0 < E) : ∀ {fuel b k processed : Nat} {buf : Bytes}
    {r : Nat × Bytes}, count = processed + k * E →
    readLoop m f .nandflash E top count fuel b 0 processed (min E (count - processed)) buf = .ok r →
    ∃ bs, Walk m.badBlock E top b bs ∧ bs.length = k ∧ r.2 = buf ++ readBlocks E f.contents bs := by
  intro fuel
  induction fuel with
  | zero =>
    intro b k processed buf r _ h
    cases h
  | succ fuel ih =>
    intro b k processed buf r hcount h
    by_cases hlt : processed < count
    · obtain ⟨k, rfl⟩ : ∃ j, k = j + 1 := by
        apply Nat.exists_eq_add_one_of_ne_zero
        rintro rfl
        omega
      rw [Nat.add_one_mul] at hcount
      have hreadlen : min E (count - processed) = E := by omega
      obtain ⟨hle, ⟨hbad, h⟩ | ⟨hgood, h⟩⟩ := readLoop_round hlt h
      · rw [hreadlen] at hle
        obtain ⟨bs, hwalk, hlen, hbuf⟩ := ih (k := k + 1) (by rw [Nat.add_one_mul, hcount]) h
        exact ⟨bs, .skip hbad hle hwalk, hlen, hbuf⟩
      · rw [hreadlen] at hle h
        obtain ⟨bs, hwalk, hlen, hbuf⟩ := ih (k := k) (by omega) h
        exact ⟨b :: bs, .use hgood hle hwalk, by simp [hlen], by simp [hbuf]⟩
    · rw [readLoop, if_neg hlt] at h
      cases h
      have hk : k = 0 := by
        have hzero : k * E = 0 := by omega
        exact (Nat.mul_eq_zero.mp hzero).resolve_right (by omega)
      exact ⟨[], .nil b, by simp [hk], by simp [readBlocks]⟩

/-- Along a walk that is long enough the reader gets what is in its blocks, from `seek` in
the first one on. -/
theorem readLoop_walk (hE : 0 < E) (hread : ∀ a, m.readOk a = true) {bs : List Nat} {b : Nat}
    (hwalk : Walk m.badBlock E top b bs) :
    (∀ x ∈ bs, x + E ≤ f.size) → ∀ (fuel seek processed : Nat) (buf : Bytes), 0 < fuel →
      top < fuel + b → seek < E → processed ≤ count →
      seek + (count - processed) ≤ bs.length * E →
      readLoop m f .nandflash E top count fuel b seek processed
          (min (E - seek) (count - processed)) buf =
        .ok (count, buf ++ ((readBlocks E f.contents bs).drop seek).take (count - processed)) := by
  have hdone : ∀ {b fuel seek : Nat} {buf C : Bytes}, 0 < fuel →
      readLoop m f .nandflash E top count fuel b seek count (min (E - seek) (count - count)) buf =
        .ok (count, buf ++ C.take (count - count)) := by
    intro b fuel seek buf C hfuel
    obtain ⟨fuel, rfl⟩ : ∃ j, fuel = j + 1 := ⟨fuel - 1, by omega⟩
    rw [readLoop, if_neg (by omega)]
    simp
  induction hwalk with
  | nil b =>
    intro _ fuel seek processed buf hfuel _ _ hle hlen
    obtain rfl : processed = count := by
      simp only [List.length_nil] at hlen
      omega
    exact hdone hfuel
  | @skip b bs hbad hle rest ih =>
    intro hsize fuel seek processed buf hfuel htop hseek hcount hlen
    by_cases hlt : processed < count
    · obtain ⟨fuel, rfl⟩ : ∃ j, fuel = j + 1 := ⟨fuel - 1, by omega⟩
      have hround := ih hsize fuel seek processed buf (by omega) (by omega) hseek hcount hlen
      rw [readLoop, if_pos hlt]
      simp only [flashBadBlock, if_true]
      rw [if_neg (by omega), if_neg (by omega), if_pos (by omega)]
      exact hround
    · obtain rfl : processed = count := by omega
      exact hdone hfuel
  | @use b bs hgood hle rest ih =>
    intro hsize fuel seek processed buf hfuel htop hseek hcount hlen
    by_cases hlt : processed < count
    · obtain ⟨fuel, rfl⟩ : ∃ j, fuel = j + 1 := ⟨fuel - 1, by omega⟩
      have hb := hsize b (by simp)
      rw [List.length_cons, Nat.add_one_mul] at hlen
      generalize hn : min (E - seek) (count - processed) = n at *
      have hround := ih (fun x hx => hsize x (List.mem_cons_of_mem _ hx)) fuel 0 (processed + n)
        (buf ++ readAt f.contents (b + seek) n) (by omega) (by omega) hE (by omega) (by omega)
      rw [Nat.sub_zero, List.drop_zero] at hround
      rw [readLoop, if_pos hlt]
      simp only [flashBadBlock, if_true, hread]
      rw [if_neg (by omega), if_neg (by omega), if_neg (by omega), if_neg (by simp; omega), hround]
      -- the rest of this block, and then the blocks behind it
      have hpart : (readAt f.contents (b + seek) (E - seek)).take (count - processed) =
          readAt f.contents (b + seek) n := by
        rw [take_readAt, Nat.min_comm, hn]
      have hrest : count - processed - (E - seek) = count - (processed + n) := by omega
      rw [readBlocks_cons, List.drop_append_of_le_length (by simp; omega),
        drop_readAt (Nat.le_of_lt hseek), List.take_append, hpart, length_readAt, hrest,
        List.append_assoc]
    · obtain rfl : processed = count := by omega
      exact hdone hfuel

/-! Each round goes on to the next block and gives up at the end of the range, so the
loops end before their steps do. -/

end Loops

/-! ## The round trip -/

/-- `& ~(n - 1)` rounds down, for a power of two. -/
theorem alignDown_eq {x n : Nat} (hn : ∃ k, n = 2 ^ k) : alignDown x n = n * (x / n) := by
  obtain ⟨k, rfl⟩ := hn
  rw [alignDown, Nat.and_two_pow_sub_one_eq_mod]
  have := Nat.div_add_mod x (2 ^ k)
  omega

theorem EnvDev.eraseSize_pos (dev : EnvDev) : 0 < dev.eraseSize := by
  obtain ⟨k, hk⟩ := dev.eraseSize_pow
  rw [hk]
  exact Nat.two_pow_pos k

theorem sub_alignDown {x n : Nat} (hn : ∃ k, n = 2 ^ k) : x - alignDown x n = x % n := by
  rw [alignDown_eq hn]
  have := Nat.div_add_mod x n
  omega

variable {dev : EnvDev} {m : MtdCalls} {mem : FwMemory} {f : Flash} {buf data : Bytes}
  {start seek k : Nat}

theorem flashReadBuf_nand (count offset : Nat) :
    flashReadBuf dev m f count offset .nandflash =
      readLoop m f .nandflash dev.eraseSize dev.topOfRange count (dev.topOfRange + 2)
        (dev.eraseSize * (offset / dev.eraseSize)) (offset % dev.eraseSize) 0
        (min (dev.eraseSize - offset % dev.eraseSize) (count - 0)) [] := by
  have hreadlen : (if count > dev.eraseSize - offset % dev.eraseSize then
      dev.eraseSize - offset % dev.eraseSize else count) =
      min (dev.eraseSize - offset % dev.eraseSize) (count - 0) := by
    split_ifs <;> omega
  rw [flashReadBuf, if_pos rfl]
  simp only [sub_alignDown dev.eraseSize_pow, hreadlen]
  rw [alignDown_eq dev.eraseSize_pow]

/-- The data that goes to `k` blocks has the image in its place, and is otherwise what is
in the blocks. -/
theorem blockData_spec (hfit : seek + buf.length ≤ k * dev.eraseSize)
    (hstart : dev.eraseSize ∣ start)
    (h : blockData dev m mem f buf .nandflash start seek (k * dev.eraseSize) = .ok data) :
    ∃ new tail, data = new ++ tail ∧ new.length = k * dev.eraseSize ∧
      (new.drop seek).take buf.length = buf ∧
      ∀ bs, Walk m.badBlock dev.eraseSize dev.topOfRange start bs → bs.length = k →
        ∀ i, i < seek ∨ seek + buf.length ≤ i →
          new[i]? = (readBlocks dev.eraseSize f.contents bs)[i]? := by
  have hE := dev.eraseSize_pos
  rw [blockData] at h
  by_cases hmore : k * dev.eraseSize > buf.length
  · rw [if_pos hmore] at h
    split_ifs at h with hmalloc
    split at h
    · cases h
    · next rc old hread =>
      split_ifs at h with hrc
      cases h
      rw [flashReadBuf_nand, Nat.mod_eq_zero_of_dvd hstart, Nat.mul_div_cancel' hstart,
        Nat.sub_zero] at hread
      obtain ⟨bs₀, hwalk₀, hlen₀, hold⟩ := walk_of_readLoop hE (Nat.zero_add _).symm hread
      rw [List.nil_append] at hold
      have hlen : old.length = k * dev.eraseSize := by
        rw [show old = _ from hold, length_readBlocks, hlen₀]
      refine ⟨old.take seek ++ buf ++ old.drop (seek + buf.length),
        mem.heap.drop (k * dev.eraseSize), ?_, ?_, ?_, ?_⟩
      · rw [List.take_append_of_le_length (by omega), List.drop_append_of_le_length (by omega)]
        simp only [List.append_assoc]
      · simp only [List.length_append, List.length_take, List.length_drop]
        omega
      · have hseek : (old.take seek).length = seek := by
          rw [List.length_take]
          omega
        rw [List.append_assoc, List.drop_left' hseek, List.take_left]
      · intro bs hwalk hbs i hi
        rw [hwalk.unique hwalk₀ (hbs.trans hlen₀.symm), ← hold]
        have hseek : (old.take seek).length = seek := by
          rw [List.length_take]
          omega
        rcases hi with hi | hi
        · rw [List.append_assoc, List.getElem?_append_left (by omega), List.getElem?_take_of_lt hi]
        · rw [List.getElem?_append_right (by rw [List.length_append]; omega), List.length_append,
            hseek, List.getElem?_drop, Nat.add_sub_of_le hi]
  · rw [if_neg hmore] at h
    cases h
    refine ⟨buf, mem.behind, rfl, by omega, ?_, ?_⟩
    · obtain rfl : seek = 0 := by omega
      simp
    · intro bs _ hbs i hi
      rw [List.getElem?_eq_none (by omega), List.getElem?_eq_none]
      rw [length_readBlocks, hbs]
      omega

/-- The address of a byte of the image: its index, counted from the start of the first
block, lies between `seek` and the end of the image. -/
def ImageAddr (dev : EnvDev) (erased : List Nat) (count a : Nat) : Prop :=
  ∃ i b, dev.devoff % dev.eraseSize ≤ i ∧ i < dev.devoff % dev.eraseSize + count ∧
    erased[i / dev.eraseSize]? = some b ∧ a = b + i % dev.eraseSize

/-- **Round trip and frame.**  After a write that succeeded, a read returns the image;
every byte that is not one of the image is what it was; and the blocks that were erased
are good ones of the range. -/
theorem flashWriteBuf_nand (dev : EnvDev) (m : MtdCalls) (mem : FwMemory) (f : Flash)
    (buf : Bytes) (r : Written)
    (h : flashWriteBuf dev m mem f buf dev.devoff .nandflash = .ok r) :
    flashReadBuf dev { m with readOk := fun _ => true } ⟨f.size, r.contents⟩ buf.length
        dev.devoff .nandflash = .ok (buf.length, buf) ∧
      (∀ a, ¬ ImageAddr dev r.erased buf.length a → r.contents a = f.contents a) ∧
      ∀ b ∈ r.erased, m.badBlock b = 0 ∧ dev.eraseSize ∣ b ∧
        dev.devoff / dev.eraseSize * dev.eraseSize ≤ b ∧
        b + dev.eraseSize ≤
          dev.devoff / dev.eraseSize * dev.eraseSize + dev.envSectors * dev.eraseSize := by
  have hE := dev.eraseSize_pos
  have hseek : dev.devoff % dev.eraseSize < dev.eraseSize := Nat.mod_lt _ hE
  have hdvd : dev.eraseSize ∣ dev.eraseSize * (dev.devoff / dev.eraseSize) := Nat.dvd_mul_right _ _
  obtain ⟨k, hk⟩ : ∃ k, k = (dev.devoff % dev.eraseSize + buf.length + dev.eraseSize - 1) /
      dev.eraseSize := ⟨_, rfl⟩
  have hfit : dev.devoff % dev.eraseSize + buf.length ≤ k * dev.eraseSize := by
    have hdm := Nat.div_add_mod (dev.devoff % dev.eraseSize + buf.length + dev.eraseSize - 1)
      dev.eraseSize
    have hlt := Nat.mod_lt (dev.devoff % dev.eraseSize + buf.length + dev.eraseSize - 1) hE
    rw [← hk] at hdm
    rw [Nat.mul_comm]
    omega
  simp only [flashWriteBuf, sub_alignDown dev.eraseSize_pow] at h
  rw [alignDown_eq dev.eraseSize_pow, alignDown_eq dev.eraseSize_pow, ← hk,
    Nat.mul_comm dev.eraseSize k] at h
  split at h
  · cases h
  next data hdata =>
    obtain ⟨new, tail, rfl, hnew, himage, hold⟩ := blockData_spec hfit hdvd hdata
    obtain ⟨bs, hwalk, hlen, herased, hcontents, hsize⟩ := writeLoop_walk hE
      (by rw [List.length_append, hnew]; omega) h (Nat.zero_add _).symm
    obtain rfl : r.erased = bs := by simpa using herased
    have hread : readBlocks dev.eraseSize r.contents r.erased = new := by
      rw [hcontents, List.drop_zero, storeBlocks_append (by rw [hnew, hlen])]
      exact readBlocks_storeBlocks hwalk.apart (by rw [hnew, hlen])
    refine ⟨?_, ?_, ?_⟩
    · rw [flashReadBuf_nand]
      have hloop := readLoop_walk (m := { m with readOk := fun _ => true })
        (f := ⟨f.size, r.contents⟩) hE (fun _ => rfl) hwalk hsize (dev.topOfRange + 2)
        (dev.devoff % dev.eraseSize) 0 [] (Nat.zero_lt_succ _) (by omega) hseek (by omega)
        (by rw [hlen]; exact hfit)
      rw [hloop, hread, Nat.sub_zero, himage, List.nil_append]
    · intro a ha
      by_cases hin : ∃ b ∈ r.erased, InRange b dev.eraseSize a
      · obtain ⟨b, hb, hrange⟩ := hin
        obtain ⟨i, hblock, haddr, hbyte⟩ := exists_index_of_inRange hE hb hrange
        have hout : i < dev.devoff % dev.eraseSize ∨
            dev.devoff % dev.eraseSize + buf.length ≤ i := by
          by_contra hcon
          exact ha ⟨i, b, by omega, by omega, hblock, haddr⟩
        have hsame := hold r.erased hwalk hlen i hout
        rw [← hread, hbyte, hbyte] at hsame
        exact Option.some.inj hsame
      · rw [hcontents]
        apply storeBlocks_of_not_inRange
        intro b hb hrange
        exact hin ⟨b, hb, hrange⟩
    · intro b hb
      obtain ⟨h₁, h₂, h₃⟩ := hwalk.mem b hb
      rw [EnvDev.topOfRange, alignDown_eq dev.eraseSize_pow] at h₂
      rw [Nat.mul_comm (dev.devoff / dev.eraseSize)]
      exact ⟨h₃, hwalk.dvd hdvd b hb, h₁, h₂⟩

theorem four_eq_pow : ∃ k, 4 = 2 ^ k := ⟨2, rfl⟩

/-- Blocks of four bytes, of which the second is bad, and an image that starts in the
middle of the first. -/
def smallDev : EnvDev := ⟨2, 4, 3, four_eq_pow⟩

def smallCalls : MtdCalls :=
  ⟨fun a => if a = 4 then 1 else 0, fun _ => true, fun _ => true, fun _ => true, fun _ => true,
    true⟩

def smallFlash : Flash := ⟨16, fun a => UInt8.ofNat a⟩

/-- The image goes to the blocks at 0 and 8, whose other bytes are written back. -/
def smallWritten : Written :=
  ⟨8, storeAt (storeAt smallFlash.contents 0 [0, 1, 70, 71]) 8 [72, 9, 10, 11], [0, 8]⟩

theorem flashWriteBuf_nand_smallDev :
    flashWriteBuf smallDev smallCalls ⟨[], []⟩ smallFlash [70, 71, 72] 2 .nandflash =
        .ok smallWritten ∧
      flashReadBuf smallDev smallCalls ⟨16, smallWritten.contents⟩ 3 2 .nandflash =
        .ok (3, [70, 71, 72]) := by
  have hwrite : flashWriteBuf smallDev smallCalls ⟨[], []⟩ smallFlash [70, 71, 72] 2 .nandflash =
      .ok smallWritten := by
    have h₁ := programAt_eraseAt smallFlash.contents 0 [0, 1, 70, 71]
    have h₂ := programAt_eraseAt (storeAt smallFlash.contents 0 [0, 1, 70, 71]) 8 [72, 9, 10, 11]
    rw [smallWritten, ← h₂, ← h₁]
    rfl
  exact ⟨hwrite, (flashWriteBuf_nand smallDev smallCalls ⟨[], []⟩ smallFlash [70, 71, 72]
    smallWritten hwrite).1⟩

end UBoot.Tools
