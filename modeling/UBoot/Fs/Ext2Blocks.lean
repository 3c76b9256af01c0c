import UBoot.Fs.Ext2
import UBoot.Lib.Scatter

/-!
# The device and the tables of ext2

`ext2fs_devread` reads what is on the disk, except that it does not look at the result of a read of
the beginning of a sector (`ShortOk`).  A table in memory is `Coherent` when it holds what its
number says; a read that fails may break that, since the number stays.
-/

namespace UBoot.Fs.Ext2

open UBoot.Lib UBoot.LibGeneric

variable {vol : Volume} {env : Env} {time addr len off pos sector : Nat} {buf : Contents}

theorem storeAt_readAt_apply (c disk : Contents) (pos : Nat) {n k : Nat} (hk : k < n) (addr : Nat) :
    storeAt c addr (readAt disk pos n) (addr + k) = disk (pos + k) := by
  have hin : InRange addr (readAt disk pos n).length (addr + k) :=
    ⟨Nat.le_add_right addr k, by rw [length_readAt]; omega⟩
  rw [storeAt, if_pos hin, Nat.add_sub_cancel_left, List.getD_eq_getElem?_getD, getElem?_readAt hk,
    Option.getD_some]

theorem readAt_storeAt_readAt (c disk : Contents) {pos n off len : Nat} (h : off + len ≤ n) :
    readAt (storeAt c 0 (readAt disk pos n)) off len = readAt disk (pos + off) len := by
  apply List.ext_getElem?
  intro k
  by_cases hk : k < len
  · have happly := storeAt_readAt_apply c disk pos (show off + k < n by omega) 0
    rw [Nat.zero_add] at happly
    rw [getElem?_readAt hk, getElem?_readAt hk, happly, Nat.add_assoc]
  · rw [List.getElem?_eq_none (by simpa using hk), List.getElem?_eq_none (by simpa using hk)]

/-! ## The device -/

/-- What a read of `len` bytes at `pos` leaves: nothing is stored outside its range; if it fails, a
call of `block_read` has failed; and if it does not, and the read that is not looked at (`short`)
has not failed, the data is there. -/
structure Delivers (vol : Volume) (env : Env) (time pos len : Nat) (buf : Contents) (addr : Nat)
    (short : Prop) (r : Transfer) : Prop where
  le_time : time ≤ r.time
  frame : ∀ a, ¬ InRange addr len a → r.buf a = buf a
  failed : r.ok = false → ∃ t, time ≤ t ∧ t < r.time ∧ env.reads t ≠ .ok
  data : r.ok = true → short → r.buf = storeAt buf addr (readAt vol.disk pos len)

theorem blockRead_ok (h : env.reads time = .ok) (sector count : Nat) :
    blockRead vol env time sector count buf addr =
      (true, storeAt buf addr (readAt vol.disk (sector * 512) (count * 512))) := by
  rw [blockRead, h]

theorem blockRead_false (h : env.reads time ≠ .ok) (vol : Volume) (sector count : Nat)
    (buf : Contents) (addr : Nat) :
    ∃ got : Bytes, got.length ≤ count * 512 ∧
      blockRead vol env time sector count buf addr = (false, storeAt buf addr got) := by
  rw [blockRead]
  cases hread : env.reads time with
  | ok => exact absurd hread h
  | failed got => exact ⟨got.take (count * 512), by rw [List.length_take]; omega, rfl⟩

theorem frame_of_le {c : Contents} {addr n len : Nat} {data : Bytes} (hn : data.length ≤ n)
    (hlen : n ≤ len) (a : Nat) (ha : ¬ InRange addr len a) : storeAt c addr data a = c a := by
  refine storeAt_of_not_inRange fun hin => ha ⟨hin.1, ?_⟩
  have := hin.2
  omega

/-- The beginning of one sector. -/
theorem devreadAligned_short (hpos : 0 < len) (hlt : len < 512) :
    Delivers vol env time (sector * 512) len buf addr (env.reads time = .ok)
      (devreadAligned vol env time sector len buf addr) := by
  have hzero : len / 512 * 512 = 0 := by omega
  rw [devreadAligned, if_neg (Nat.ne_of_gt hpos)]
  simp only [hzero, if_true]
  refine ⟨Nat.le_succ time, frame_of_le (Nat.le_of_eq (length_readAt _ _ _)) (Nat.le_refl len),
    (fun h => nomatch h), fun _ hok => ?_⟩
  dsimp only
  rw [blockRead_ok hok]
  dsimp only
  rw [readAt_storeAt_readAt _ _ (by omega), Nat.add_zero]

/-- Some sectors, and the beginning of another one. -/
theorem devreadAligned_long (hle : 512 ≤ len) :
    Delivers vol env time (sector * 512) len buf addr True
      (devreadAligned vol env time sector len buf addr) := by
  have hne : len / 512 * 512 ≠ 0 := by omega
  have hdiv : len / 512 * 512 / 512 = len / 512 := Nat.mul_div_cancel _ (by decide)
  rw [devreadAligned, if_neg (by omega)]
  simp only [if_neg hne, hdiv]
  by_cases hok : env.reads time = .ok
  · rw [blockRead_ok hok]
    dsimp only
    have hlen := length_readAt vol.disk (sector * 512) (len / 512 * 512)
    by_cases hrest : len - len / 512 * 512 = 0
    · have hall : len / 512 * 512 = len := by omega
      rw [if_pos hrest, hall]
      exact ⟨Nat.le_succ time, frame_of_le (Nat.le_of_eq (length_readAt _ _ _)) (Nat.le_refl len),
        (fun h => nomatch h), fun _ _ => rfl⟩
    · rw [if_neg hrest]
      by_cases hok' : env.reads (time + 1) = .ok
      · rw [blockRead_ok hok']
        dsimp only
        rw [readAt_storeAt_readAt _ _ (by omega)]
        have hjoin := storeAt_append buf addr (readAt vol.disk (sector * 512) (len / 512 * 512))
          (readAt vol.disk ((sector + len / 512) * 512) (len - len / 512 * 512))
        have hpos : (sector + len / 512) * 512 = sector * 512 + len / 512 * 512 :=
          Nat.add_mul _ _ _
        have hsum : len / 512 * 512 + (len - len / 512 * 512) = len :=
          Nat.add_sub_of_le (Nat.div_mul_le_self len 512)
        rw [hlen, hpos, ← readAt_add, hsum] at hjoin
        rw [Nat.add_zero, hpos, ← hjoin]
        exact ⟨Nat.le_add_right time 2,
          frame_of_le (Nat.le_of_eq (length_readAt _ _ _)) (Nat.le_refl len),
          (fun h => nomatch h), fun _ _ => rfl⟩
      · obtain ⟨got, -, hread⟩ := blockRead_false hok' vol (sector + len / 512) 1 env.stack 0
        rw [hread]
        exact ⟨Nat.le_add_right time 2, frame_of_le (Nat.le_of_eq hlen) (by omega),
          fun _ => ⟨time + 1, Nat.le_succ time, Nat.lt_succ_self _, hok'⟩, fun h => nomatch h⟩
  · obtain ⟨got, hgot, hread⟩ := blockRead_false hok vol sector (len / 512) buf addr
    rw [hread]
    exact ⟨Nat.le_succ time, frame_of_le hgot (by omega),
      fun _ => ⟨time, Nat.le_refl time, Nat.lt_succ_self time, hok⟩, fun h => nomatch h⟩

/-- The result of the last read is looked at, or it has not failed.  It is not looked at when it is
for the beginning of a sector and there is no whole sector in front of it. -/
def ShortOk (env : Env) (time off len : Nat) : Prop :=
  if off % 512 = 0 then 0 < len → len < 512 → env.reads time = .ok
  else 512 - off % 512 < len → len < 512 - off % 512 + 512 → env.reads time = .ok →
    env.reads (time + 1) = .ok

theorem Delivers.mono {short short' : Prop} {r : Transfer}
    (h : Delivers vol env time pos len buf addr short r) (himp : short' → short) :
    Delivers vol env time pos len buf addr short' r :=
  ⟨h.le_time, h.frame, h.failed, fun hok hshort => h.data hok (himp hshort)⟩

theorem devreadAligned_delivers (sector len : Nat) :
    Delivers vol env time (sector * 512) len buf addr (0 < len → len < 512 → env.reads time = .ok)
      (devreadAligned vol env time sector len buf addr) := by
  rcases Nat.eq_zero_or_pos len with rfl | hpos
  · have hstore : storeAt buf addr (readAt vol.disk (sector * 512) 0) = buf := storeAt_nil buf addr
    rw [devreadAligned, if_pos rfl]
    exact ⟨Nat.le_refl time, fun _ _ => rfl, (fun h => nomatch h), fun _ _ => hstore.symm⟩
  · by_cases hlt : len < 512
    · exact (devreadAligned_short hpos hlt).mono fun h => h hpos hlt
    · exact (devreadAligned_long (Nat.not_lt.mp hlt)).mono fun _ => trivial

/-- A piece behind one that was read. -/
theorem Delivers.append {short : Prop} {n : Nat} {r : Transfer} (hn : n ≤ len)
    (h : Delivers vol env (time + 1) (pos + n) (len - n)
      (storeAt buf addr (readAt vol.disk pos n)) (addr + n) short r) :
    Delivers vol env time pos len buf addr short r := by
  refine ⟨Nat.le_of_succ_le h.le_time, ?_, ?_, ?_⟩
  · intro a ha
    have hback : ¬ InRange (addr + n) (len - n) a := fun hin => ha ⟨by
      have := hin.1
      omega, by
      have := hin.2
      omega⟩
    rw [h.frame a hback]
    exact frame_of_le (Nat.le_of_eq (length_readAt _ _ _)) hn a ha
  · intro hfail
    obtain ⟨t, hle, hlt, ht⟩ := h.failed hfail
    exact ⟨t, Nat.le_of_succ_le hle, hlt, ht⟩
  · intro hok hshort
    have hjoin := storeAt_append buf addr (readAt vol.disk pos n)
      (readAt vol.disk (pos + n) (len - n))
    rw [length_readAt, ← readAt_add, Nat.add_sub_of_le hn] at hjoin
    rw [h.data hok hshort, hjoin]

/-- **The device reads what is on the disk.** -/
theorem ext2fsDevread_delivers (hpos : 0 < off + len)
    (hpart : sector * 512 + (off + len) ≤ vol.partSize * 512) :
    Delivers vol env time (sector * 512 + off) len buf addr (ShortOk env time off len)
      (ext2fsDevread vol env time sector off len buf addr) := by
  have hin : ¬ ((sector : Int) < 0 ∨ vol.partSize ≤
      (sector : Int).toNat + (off + len - 1) / 512) := by
    rw [Int.toNat_natCast]
    omega
  have hstart : (sector + off / 512) * 512 + off % 512 = sector * 512 + off := by omega
  rw [ext2fsDevread, if_neg hin, Int.toNat_natCast, ShortOk, ← hstart]
  dsimp only
  by_cases haligned : off % 512 = 0
  · rw [if_pos haligned, if_pos haligned, haligned, Nat.add_zero]
    exact devreadAligned_delivers _ len
  · rw [if_neg haligned, if_neg haligned]
    by_cases hok : env.reads time = .ok
    · have hcopy : off % 512 + min (512 - off % 512) len ≤ 1 * 512 := by omega
      rw [blockRead_ok hok]
      dsimp only
      rw [readAt_storeAt_readAt _ _ hcopy]
      by_cases hmore : 512 - off % 512 < len
      · have hnext : (sector + off / 512) * 512 + off % 512 + (512 - off % 512) =
            (sector + off / 512 + 1) * 512 := by
          rw [Nat.add_assoc, Nat.add_sub_of_le (Nat.le_of_lt (Nat.mod_lt off (by decide))),
            Nat.add_one_mul]
        rw [Nat.min_eq_left (Nat.le_of_lt hmore)]
        refine Delivers.append (Nat.le_of_lt hmore) ?_
        rw [hnext]
        refine (devreadAligned_delivers (sector + off / 512 + 1) _).mono ?_
        intro hshort _ hlt
        exact hshort hmore (by omega) hok
      · rw [Nat.min_eq_right (Nat.not_lt.mp hmore), Nat.sub_self, devreadAligned, if_pos rfl]
        exact ⟨Nat.le_succ time, frame_of_le (Nat.le_of_eq (length_readAt _ _ _)) (Nat.le_refl len),
          (fun h => nomatch h), fun _ _ => rfl⟩
    · obtain ⟨got, -, hread⟩ := blockRead_false hok vol (sector + off / 512) 1 env.stack 0
      rw [hread]
      exact ⟨Nat.le_succ time, fun _ _ => rfl,
        fun _ => ⟨time, Nat.le_refl time, Nat.lt_succ_self time, hok⟩, fun h => nomatch h⟩

/-! ## Tables -/

theorem Volume.blksz_eq (vol : Volume) : vol.blksz = 2 ^ vol.log2Sectors * 512 := by
  have hpow : (2 : Nat) ^ (vol.log2BlockSize + 1) = 2 ^ vol.log2BlockSize * 2 := Nat.pow_succ 2 _
  rw [blksz, log2Sectors, hpow]
  omega

theorem Volume.blksz_pos (vol : Volume) : 0 < vol.blksz :=
  Nat.mul_pos (by decide) (Nat.two_pow_pos _)

/-- The first sector of the block is an `int`. -/
def Volume.Below (vol : Volume) (b : Nat) : Prop := b * 2 ^ vol.log2Sectors < 2 ^ 31

theorem toInt_of_lt {x : Nat} (h : x < 2 ^ 31) : toInt x = x := by
  have hulong : ulong x = x := ulong_of_lt (by omega)
  rw [toInt, hulong, if_pos h]

theorem Volume.Below.sectorOf_eq {b : Nat} (h : vol.Below b) :
    vol.sectorOf b = b * 2 ^ vol.log2Sectors := by
  have hlt : b * 2 ^ vol.log2Sectors < 2 ^ 31 := h
  exact ulong_of_lt (by omega)

theorem Volume.Below.lt {b : Nat} (h : vol.Below b) : b < 2 ^ 31 :=
  Nat.lt_of_le_of_lt (Nat.le_mul_of_pos_right b (Nat.two_pow_pos _)) h

/-- A block of the volume lies in the partition. -/
theorem Volume.mul_blksz_le {b : Nat} (hfits : vol.totalBlocks * 2 ^ vol.log2Sectors ≤ vol.partSize)
    (hb : b < vol.totalBlocks) :
    b * 2 ^ vol.log2Sectors * 512 + vol.blksz ≤ vol.partSize * 512 := by
  have hmul := Nat.mul_le_mul_right (2 ^ vol.log2Sectors) hb
  have hsum := Nat.mul_le_mul_right 512 (Nat.le_trans hmul hfits)
  rw [Nat.add_one_mul, Nat.add_mul] at hsum
  rw [vol.blksz_eq]
  exact hsum

/-- The table with a block read to it. -/
def Table.filled (vol : Volume) (table : Table) (b : Nat) : Table where
  size := table.size
  blkno := vol.sectorOf b
  block := storeAt table.block 0 (readAt vol.disk (b * vol.blksz) vol.blksz)

/-- A block is read by one call of `block_read`. -/
theorem ext2fsDevread_block (env : Env) (time : Nat) (buf : Contents) {b : Nat}
    (hfits : vol.totalBlocks * 2 ^ vol.log2Sectors ≤ vol.partSize) (hb : b < vol.totalBlocks)
    (hbelow : vol.Below b) :
    ext2fsDevread vol env time (toInt (vol.sectorOf b)) 0 vol.blksz buf 0 =
      match env.reads time with
      | .ok => ⟨true, storeAt buf 0 (readAt vol.disk (b * vol.blksz) vol.blksz), time + 1⟩
      | .failed got => ⟨false, storeAt buf 0 (got.take vol.blksz), time + 1⟩ := by
  have hpart := vol.mul_blksz_le hfits hb
  have hpos := vol.blksz_pos
  have hsize := vol.blksz_eq
  have hin : ¬ (((b * 2 ^ vol.log2Sectors : Nat) : Int) < 0 ∨ vol.partSize ≤
      ((b * 2 ^ vol.log2Sectors : Nat) : Int).toNat + (0 + vol.blksz - 1) / 512) := by
    rw [Int.toNat_natCast]
    omega
  have hdiv : vol.blksz / 512 = 2 ^ vol.log2Sectors := by
    rw [hsize, Nat.mul_div_cancel _ (by decide)]
  have hstart : b * 2 ^ vol.log2Sectors * 512 = b * vol.blksz := by rw [hsize, Nat.mul_assoc]
  rw [hbelow.sectorOf_eq, toInt_of_lt hbelow, ext2fsDevread, if_neg hin, Int.toNat_natCast]
  dsimp only
  rw [Nat.zero_div, Nat.zero_mod, Nat.add_zero, if_pos rfl, devreadAligned, if_neg (by omega), hdiv]
  dsimp only
  rw [← hsize, if_neg (by omega), hdiv, blockRead, hstart, ← hsize, Nat.sub_self]
  cases env.reads time <;> rfl

/-- A table is read, if its number is not there. -/
theorem fetchTable_eq (env : Env) (time : Nat) (table : Table) {b cached : Nat}
    (hfits : vol.totalBlocks * 2 ^ vol.log2Sectors ≤ vol.partSize) (hb : b < vol.totalBlocks)
    (hbelow : vol.Below b) (hne : vol.sectorOf b ≠ cached) :
    fetchTable vol env time table b cached =
      match env.reads time with
      | .ok => ⟨true, table.filled vol b, time + 1⟩
      | .failed got =>
        ⟨false, ⟨table.size, table.blkno, storeAt table.block 0 (got.take vol.blksz)⟩,
          time + 1⟩ := by
  rw [fetchTable, if_pos hne, ext2fsDevread_block env time table.block hfits hb hbelow]
  cases env.reads time <;> rfl

end UBoot.Fs.Ext2
