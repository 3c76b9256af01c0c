import UBoot.Fs.Ext2Map

/-!
# Reading a range of a file

Each round of the loop stores the piece of the range that lies in its block (`readStep_spec`), and
keeps the table that files share coherent.  It goes right under `RoundCond`, which says of the state
before the round that neither the mapping nor the store of a hole nor the device is at fault.

* `ext2fsReadFile_reads`: in a session whose rounds meet the condition every read is right.
-/

namespace UBoot.Fs.Ext2

open UBoot.Lib UBoot.LibGeneric

variable {vol : Volume} {env : Env} {r : Request} {st : State} {mem : Contents} {i : Nat} {l : Loop}

/-! ## The pieces of a range -/

/-- Where the piece in a block starts in the buffer. -/
def Request.place (vol : Volume) (r : Request) (i : Nat) : Nat := i * vol.blksz - r.pos

theorem Request.mem_fileblocks : i ∈ r.fileblocks vol ↔
    r.pos / vol.blksz ≤ i ∧ i < r.blockcnt vol := by
  rw [fileblocks, List.mem_range'_1]
  omega

/-- A piece starts in its block, and ends in it or with the range. -/
structure Piece (vol : Volume) (r : Request) (i : Nat) : Prop where
  start : r.pos + r.place vol i = i * vol.blksz + r.skipfirst vol i
  skip_lt : r.skipfirst vol i < vol.blksz
  stop : i * vol.blksz + r.skipfirst vol i + r.blockend vol i =
    min ((i + 1) * vol.blksz) (r.pos + r.len)
  next : r.place vol (i + 1) = r.place vol i + (vol.blksz - r.skipfirst vol i)
  last : i + 1 < r.blockcnt vol ∨ (r.len + r.pos) % vol.blksz = 0 →
    (i + 1) * vol.blksz ≤ r.pos + r.len

/-- Where the range ends, seen from a block of it. -/
theorem range_end (hi : i < r.blockcnt vol) :
    i * vol.blksz < r.len + r.pos ∧
      (i = r.blockcnt vol - 1 → r.len + r.pos ≤ (i + 1) * vol.blksz) ∧
      (i ≠ r.blockcnt vol - 1 → (i + 1) * vol.blksz < r.len + r.pos) := by
  have hpos := vol.blksz_pos
  have hle : i + 1 ≤ (r.len + r.pos + vol.blksz - 1) / vol.blksz := hi
  have hmul := (Nat.le_div_iff_mul_le hpos).mp hle
  rw [Nat.add_one_mul] at hmul
  refine ⟨by omega, fun hlast => ?_, fun hlast => ?_⟩
  · have hlt : (r.len + r.pos + vol.blksz - 1) / vol.blksz < i + 2 := by
      change r.blockcnt vol < i + 2
      omega
    have hmul' := (Nat.div_lt_iff_lt_mul hpos).mp hlt
    rw [Nat.add_mul] at hmul' ⊢
    omega
  · have hlt : i + 2 ≤ (r.len + r.pos + vol.blksz - 1) / vol.blksz := by
      change i + 2 ≤ r.blockcnt vol
      omega
    have hmul' := (Nat.le_div_iff_mul_le hpos).mp hlt
    rw [Nat.add_mul] at hmul' ⊢
    omega

/-- Where the range starts, seen from a block of it. -/
theorem range_start (hi : r.pos / vol.blksz ≤ i) :
    r.pos + r.place vol i = i * vol.blksz + r.skipfirst vol i ∧ r.skipfirst vol i < vol.blksz ∧
      (r.skipfirst vol i = 0 ∨ r.skipfirst vol i = r.pos - i * vol.blksz) := by
  have hpos := vol.blksz_pos
  have hdm := Nat.div_add_mod r.pos vol.blksz
  have hlt := Nat.mod_lt r.pos hpos
  rw [Nat.mul_comm] at hdm
  rw [Request.place, Request.skipfirst]
  by_cases heq : i = r.pos / vol.blksz
  · rw [if_pos heq, heq]
    refine ⟨?_, hlt, Or.inr ?_⟩
    · omega
    · omega
  · have hmul := Nat.mul_le_mul_right vol.blksz (show r.pos / vol.blksz + 1 ≤ i by omega)
    rw [Nat.add_one_mul] at hmul
    rw [if_neg heq]
    exact ⟨by omega, hpos, Or.inl rfl⟩

/-- What lies of a range in its last block. -/
theorem rest_eq {e B : Nat} (hlt : i * B < e) (hle : e ≤ i * B + B) :
    (if e % B = 0 then B else e % B) = e - i * B := by
  have hmod : e % B = (e - i * B) % B := by
    conv_lhs => rw [← Nat.sub_add_cancel (Nat.le_of_lt hlt), Nat.add_mul_mod_self_right]
  rcases Nat.lt_or_eq_of_le hle with hlt' | heq
  · rw [hmod, Nat.mod_eq_of_lt (by omega), if_neg (by omega)]
  · have hall : e - i * B = B := by omega
    rw [hmod, hall, Nat.mod_self, if_pos rfl]

theorem piece_of_mem (hi : i ∈ r.fileblocks vol) : Piece vol r i := by
  obtain ⟨hfirst, hlast⟩ := Request.mem_fileblocks.mp hi
  have hpos := vol.blksz_pos
  obtain ⟨hend, hlastEnd, hmoreEnd⟩ := range_end hlast
  obtain ⟨hstart, hskip, hskip'⟩ := range_start hfirst
  rw [Nat.add_one_mul] at hlastEnd hmoreEnd
  refine ⟨hstart, hskip, ?_, ?_, ?_⟩
  · rw [Request.blockend, Nat.add_one_mul]
    by_cases hi' : i = r.blockcnt vol - 1
    · have hle := hlastEnd hi'
      have hrest := rest_eq hend hle
      rw [if_pos hi', hrest]
      omega
    · have := hmoreEnd hi'
      rw [if_neg hi']
      omega
  · rw [Request.place, Nat.add_one_mul]
    have : r.place vol i = i * vol.blksz - r.pos := rfl
    omega
  · rw [Nat.add_one_mul]
    rintro (hmore | hfull)
    · have := hmoreEnd (by omega)
      omega
    · obtain ⟨q, hq⟩ := Nat.dvd_of_mod_eq_zero hfull
      rw [hq, Nat.mul_comm vol.blksz q] at hend
      have hmul := Nat.mul_le_mul_right vol.blksz (Nat.lt_of_mul_lt_mul_right hend)
      rw [Nat.succ_mul, Nat.mul_comm q, ← hq] at hmul
      omega

/-! ## One round -/

/-- What goes right where the data of a block is stored: a hole is not in a part of the last block,
the sector of the block is an `int`, and a read whose result is not looked at does not fail. -/
def DataCond (vol : Volume) (env : Env) (r : Request) (i time : Nat) : Prop :=
  if blockOf vol r.inode i = 0 then
    i + 1 < r.blockcnt vol ∨ (r.len + r.pos) % vol.blksz = 0
  else
    vol.Below (blockOf vol r.inode i) ∧ ShortOk env time (r.skipfirst vol i) (r.blockend vol i)

/-- What is wanted of the state before a round.  The block of an empty range is looked up too, so it
must be one that can be. -/
structure RoundCond (vol : Volume) (env : Env) (r : Request) (i : Nat) (st : State) : Prop where
  empty : r.len = 0 → i < indirectBlocks + vol.perblock * (vol.perblock + 1)
  map : MapCond vol env r.inode i st
  data : MapOk vol env r.inode i st → DataCond vol env r i (st.time + mapReads vol env r.inode i st)

theorem blockOf_lt {inode : Inode} (hwf : WellFormed vol inode) (hcond : MapCond vol env inode i st)
    (hok : MapOk vol env inode i st) : blockOf vol inode i < vol.totalBlocks := by
  rw [MapCond] at hcond
  rw [MapOk] at hok
  by_cases h12 : i < indirectBlocks
  · rw [blockOf, if_pos h12]
    exact hwf.direct i h12
  · rw [if_neg h12] at hcond hok
    by_cases hi : i < indirectBlocks + vol.perblock
    · rw [if_pos hi] at hcond
      rw [blockOf, if_neg h12, if_pos hi, Volume.lookup, if_neg hcond.1, Volume.lookup,
        Nat.pow_zero, Nat.div_one]
      exact hwf.indir_entry hcond.1 _ (by omega)
    · rw [if_neg hi] at hcond hok
      by_cases hi' : i < indirectBlocks + vol.perblock * (vol.perblock + 1)
      · rw [if_pos hi'] at hcond hok
        obtain ⟨hne, -, -, hentry⟩ := hcond
        obtain ⟨hdiv, hmod⟩ := double_index hi hi'
        obtain ⟨-, -, hsecond⟩ := hwf.double_entry hne _ hdiv
        have hne' := (hentry hok.1).1
        rw [blockOf_double hne hne' h12 hi hi']
        exact hsecond hne' _ hmod
      · rw [if_neg hi'] at hok
        exact hok.elim

/-- A byte of a block of the file. -/
theorem fileByte_eq (vol : Volume) (inode : Inode) {a d : Nat} (ha : a = i * vol.blksz + d)
    (hd : d < vol.blksz) : fileByte vol inode a =
      if blockOf vol inode i = 0 then 0 else vol.disk (blockOf vol inode i * vol.blksz + d) := by
  have hdiv : a / vol.blksz = i := by
    rw [ha, Nat.mul_comm, Nat.mul_add_div vol.blksz_pos, Nat.div_eq_of_lt hd, Nat.add_zero]
  have hmod : a % vol.blksz = d := by
    rw [ha, Nat.mul_comm, Nat.mul_add_mod, Nat.mod_eq_of_lt hd]
  rw [fileByte, hdiv, hmod]

/-- In front of a round: the pieces of the blocks in front are stored, and nothing else. -/
structure Reading (vol : Volume) (r : Request) (mem : Contents) (i : Nat) (l : Loop) : Prop where
  buf : l.buf = r.place vol i
  data : ∀ k, k < r.len → k < r.place vol i → l.mem k = fileByte vol r.inode (r.pos + k)
  frame : ∀ a, r.len ≤ a → l.mem a = mem a
  coherent : l.st.Coherent vol

/-- Behind a round: the pieces up to this block are stored; or a read has failed, or the block is
behind three tables. -/
structure Stepped (vol : Volume) (env : Env) (r : Request) (mem : Contents) (i time : Nat)
    (s : Round) : Prop where
  frame : ∀ a, r.len ≤ a → s.l.mem a = mem a
  coherent : s.l.st.Coherent vol
  le_time : time ≤ s.l.st.time
  goesOn : s.goesOn = true → Reading vol r mem (i + 1) s.l
  failed : s.goesOn = false → indirectBlocks + vol.perblock * (vol.perblock + 1) ≤ i ∨
    ∃ t, time ≤ t ∧ t < s.l.st.time ∧ env.reads t ≠ .ok

/-- The piece of a block in the buffer. -/
theorem Reading.store (h : Reading vol r mem i l) (hpiece : Piece vol r i) {data : Bytes}
    {st : State} (hst : st.Coherent vol) (hlen : r.place vol i + data.length ≤ r.len)
    (hnext : min r.len (r.place vol (i + 1)) ≤ r.place vol i + data.length)
    (hdata : ∀ k (hk : k < data.length),
      data[k] = fileByte vol r.inode (r.pos + r.place vol i + k)) :
    Reading vol r mem (i + 1)
      ⟨st, storeAt l.mem l.buf data, l.buf + (vol.blksz - r.skipfirst vol i)⟩ := by
  refine ⟨?_, ?_, ?_, hst⟩
  · rw [hpiece.next, h.buf]
  · intro k hk hplace
    change storeAt _ _ _ k = _
    rw [h.buf]
    by_cases hin : InRange (r.place vol i) data.length k
    · have hlt := hin.2
      have hge := hin.1
      rw [storeAt, if_pos hin, List.getD_eq_getElem?_getD, List.getElem?_eq_getElem (by omega),
        Option.getD_some, hdata, Nat.add_assoc, Nat.add_sub_of_le hge]
    · rw [storeAt_of_not_inRange hin]
      refine h.data k hk (Nat.not_le.mp fun hge => hin ⟨hge, ?_⟩)
      omega
  · intro a ha
    change storeAt _ _ _ a = _
    rw [h.buf, storeAt_of_not_inRange, h.frame a ha]
    intro hin
    have := hin.2
    omega

theorem Reading.hole (h : Reading vol r mem i l) (hpiece : Piece vol r i) {st : State}
    (hst : st.Coherent vol) (hzero : blockOf vol r.inode i = 0)
    (hcond : i + 1 < r.blockcnt vol ∨ (r.len + r.pos) % vol.blksz = 0) :
    Reading vol r mem (i + 1) ⟨st, storeAt l.mem l.buf
      (List.replicate (vol.blksz - r.skipfirst vol i) 0),
      l.buf + (vol.blksz - r.skipfirst vol i)⟩ := by
  have hstart := hpiece.start
  have hnext := hpiece.next
  have hfull := hpiece.last hcond
  have hplace : r.place vol (i + 1) = (i + 1) * vol.blksz - r.pos := rfl
  have hlen : (List.replicate (vol.blksz - r.skipfirst vol i) (0 : UInt8)).length =
      vol.blksz - r.skipfirst vol i := List.length_replicate
  refine h.store hpiece hst (by omega) (by omega) fun k hk => ?_
  rw [hlen] at hk
  rw [List.getElem_replicate, hstart, Nat.add_assoc,
    fileByte_eq vol r.inode rfl (show r.skipfirst vol i + k < vol.blksz by omega), if_pos hzero]

theorem Reading.block (h : Reading vol r mem i l) (hpiece : Piece vol r i) {st : State}
    (hst : st.Coherent vol) (hne : blockOf vol r.inode i ≠ 0) :
    Reading vol r mem (i + 1) ⟨st, storeAt l.mem l.buf
      (readAt vol.disk (blockOf vol r.inode i * vol.blksz + r.skipfirst vol i) (r.blockend vol i)),
      l.buf + (vol.blksz - r.skipfirst vol i)⟩ := by
  have hstart := hpiece.start
  have hnext := hpiece.next
  have hstop := hpiece.stop
  have hlen := length_readAt vol.disk (blockOf vol r.inode i * vol.blksz + r.skipfirst vol i)
    (r.blockend vol i)
  rw [Nat.add_one_mul] at hstop
  refine h.store hpiece hst (by omega) (by omega) fun k hk => ?_
  rw [hlen] at hk
  have hbyte : (readAt vol.disk (blockOf vol r.inode i * vol.blksz + r.skipfirst vol i)
      (r.blockend vol i))[k]? = some (vol.disk (blockOf vol r.inode i * vol.blksz +
        r.skipfirst vol i + k)) := getElem?_readAt hk
  have hfile := fileByte_eq vol r.inode (Nat.add_assoc (i * vol.blksz) (r.skipfirst vol i) k)
    (show r.skipfirst vol i + k < vol.blksz by omega)
  rw [List.getElem?_eq_getElem (by omega), Option.some_inj] at hbyte
  rw [hbyte, hstart, hfile, if_neg hne, Nat.add_assoc]

/-- The piece of a block on the disk. -/
theorem piece_delivers (env : Env) (time : Nat) (mem : Contents) {b : Nat}
    (hwf : WellFormed vol r.inode) (hi : i < r.blockcnt vol) (hpiece : Piece vol r i)
    (hb : b < vol.totalBlocks) :
    Delivers vol env time (b * vol.blksz + r.skipfirst vol i) (r.blockend vol i) mem
      (r.place vol i) (ShortOk env time (r.skipfirst vol i) (r.blockend vol i))
      (ext2fsDevread vol env time ((b * 2 ^ vol.log2Sectors : Nat) : Int) (r.skipfirst vol i)
        (r.blockend vol i) mem (r.place vol i)) := by
  have hstop := hpiece.stop
  have hend := (range_end hi).1
  have hpart := vol.mul_blksz_le hwf.fits hb
  have hbase : b * vol.blksz = b * 2 ^ vol.log2Sectors * 512 := by
    rw [vol.blksz_eq, Nat.mul_assoc]
  rw [Nat.add_one_mul] at hstop
  have hpos := vol.blksz_pos
  rw [hbase]
  exact ext2fsDevread_delivers (by omega) (by omega)

theorem toInt_zero : toInt 0 = 0 := toInt_of_lt (by decide)

theorem Volume.sectorOf_zero (vol : Volume) : vol.sectorOf 0 = 0 := by
  rw [sectorOf, Nat.zero_mul]
  exact ulong_of_lt (by decide)

/-- The sector of a block that is not a hole. -/
theorem Volume.Below.sector_eq {b : Nat} (h : vol.Below b) :
    toInt (vol.sectorOf (toInt b).toNat) = ((b * 2 ^ vol.log2Sectors : Nat) : Int) := by
  rw [toInt_of_lt h.lt, Int.toNat_natCast, h.sectorOf_eq, toInt_of_lt h]

/-- A round that finds a hole. -/
theorem stepped_hole (hpiece : Piece vol r i) (hread : Reading vol r mem i l) {st : State}
    (hst : st.Coherent vol) (htime : l.st.time ≤ st.time)
    (hmap : ext2fsReadBlock vol env r.inode i l.st = (toInt (blockOf vol r.inode i), st))
    (hzero : blockOf vol r.inode i = 0)
    (hcond : i + 1 < r.blockcnt vol ∨ (r.len + r.pos) % vol.blksz = 0) :
    Stepped vol env r mem i l.st.time (readStep vol env r i l) := by
  have hnext := hread.hole hpiece hst hzero hcond
  have hsector : toInt (vol.sectorOf (toInt 0).toNat) = 0 := by
    rw [toInt_zero, Int.toNat_zero, vol.sectorOf_zero, toInt_zero]
  rw [hzero] at hmap
  rw [readStep]
  simp only [hmap, hsector, if_neg (show ¬ toInt 0 < 0 by decide), ne_eq, not_true_eq_false,
    if_false]
  exact ⟨hnext.frame, hst, htime, fun _ => hnext, fun h => nomatch h⟩

/-- A round that finds a block. -/
theorem stepped_block (hwf : WellFormed vol r.inode) (hi : i < r.blockcnt vol)
    (hpiece : Piece vol r i) (hread : Reading vol r mem i l) {st : State} (hst : st.Coherent vol)
    (htime : l.st.time ≤ st.time)
    (hmap : ext2fsReadBlock vol env r.inode i l.st = (toInt (blockOf vol r.inode i), st))
    (hlt : blockOf vol r.inode i < vol.totalBlocks) (hne : blockOf vol r.inode i ≠ 0)
    (hbelow : vol.Below (blockOf vol r.inode i))
    (hshort : ShortOk env st.time (r.skipfirst vol i) (r.blockend vol i)) :
    Stepped vol env r mem i l.st.time (readStep vol env r i l) := by
  have hdev := piece_delivers env st.time l.mem hwf hi hpiece hlt
  have hnonneg : ¬ toInt (blockOf vol r.inode i) < 0 := by
    rw [toInt_of_lt hbelow.lt]
    exact Int.not_lt.mpr (Int.natCast_nonneg _)
  have hsector : ((blockOf vol r.inode i * 2 ^ vol.log2Sectors : Nat) : Int) ≠ 0 :=
    Int.natCast_ne_zero.mpr (Nat.mul_ne_zero hne (Nat.ne_of_gt (Nat.two_pow_pos _)))
  have hframe : ∀ a, r.len ≤ a → ¬ InRange (r.place vol i) (r.blockend vol i) a := by
    intro a ha hin
    have hstart := hpiece.start
    have hstop := hpiece.stop
    have := hin.2
    omega
  rw [readStep]
  simp only [hmap, if_neg hnonneg, hbelow.sector_eq, if_pos hsector, hread.buf]
  generalize hd : ext2fsDevread vol env st.time _ _ _ _ _ = d at hdev
  refine ⟨?_, hst, Nat.le_trans htime hdev.le_time, fun hok => ?_, fun hfail => ?_⟩
  · intro a ha
    exact (hdev.frame a (hframe a ha)).trans (hread.frame a ha)
  · have hst' : State.Coherent vol { st with time := d.time } := hst
    have hnext := hread.block hpiece hst' hne
    rw [hread.buf] at hnext
    change d.ok = true at hok
    rw [hdev.data hok hshort, if_pos hok]
    exact hnext
  · obtain ⟨t, hle, hlt', hbad⟩ := hdev.failed hfail
    exact Or.inr ⟨t, Nat.le_trans htime hle, hlt', hbad⟩

/-- **One round.** -/
theorem readStep_spec (hwf : WellFormed vol r.inode) (hi : i ∈ r.fileblocks vol)
    (hread : Reading vol r mem i l) (hcond : RoundCond vol env r i l.st) :
    Stepped vol env r mem i l.st.time (readStep vol env r i l) := by
  have hpiece := piece_of_mem hi
  have hmapped := ext2fsReadBlock_mapped hwf hread.coherent hcond.map
  rcases hmapped.result with ⟨hok, hvalue, htime⟩ | ⟨hfail, htime, hreason⟩
  · have hlt := blockOf_lt hwf hcond.map hok
    have hdata := hcond.data hok
    have hle : l.st.time ≤ (ext2fsReadBlock vol env r.inode i l.st).2.time := by
      rw [htime]
      exact Nat.le_add_right _ _
    rw [DataCond, ← htime] at hdata
    by_cases hzero : blockOf vol r.inode i = 0
    · rw [if_pos hzero] at hdata
      exact stepped_hole hpiece hread hmapped.coherent hle (Prod.ext hvalue rfl) hzero hdata
    · rw [if_neg hzero] at hdata
      exact stepped_block hwf (Request.mem_fileblocks.mp hi).2 hpiece hread hmapped.coherent hle
        (Prod.ext hvalue rfl) hlt hzero hdata.1 hdata.2
  · rw [readStep]
    simp only [hfail]
    exact ⟨hread.frame, hmapped.coherent, htime, (fun h => nomatch h), fun _ => hreason⟩

/-! ## The loop -/

/-- The blocks of the rounds that the loop makes, each with the state in front of it. -/
def visits (vol : Volume) (env : Env) (r : Request) : List Nat → Loop → List (Nat × State)
  | [], _ => []
  | i :: is, l =>
    let s := readStep vol env r i l
    (i, l.st) :: if s.goesOn then visits vol env r is s.l else []

theorem mem_of_mem_visits {is : List Nat} {v : Nat × State} (h : v ∈ visits vol env r is l) :
    v.1 ∈ is := by
  induction is generalizing l with
  | nil => exact absurd h List.not_mem_nil
  | cons i is ih =>
    rw [visits] at h
    rcases List.mem_cons.mp h with rfl | h
    · exact List.mem_cons_self
    · split at h
      · exact List.mem_cons_of_mem _ (ih h)
      · exact absurd h List.not_mem_nil

/-- Behind some rounds, as `Stepped` has it for one. -/
structure Looped (vol : Volume) (env : Env) (r : Request) (mem : Contents) (i n time : Nat)
    (s : Round) : Prop where
  frame : ∀ a, r.len ≤ a → s.l.mem a = mem a
  coherent : s.l.st.Coherent vol
  le_time : time ≤ s.l.st.time
  goesOn : s.goesOn = true → Reading vol r mem (i + n) s.l
  failed : s.goesOn = false →
    (∃ j ∈ List.range' i n, (r.len = 0 → j < indirectBlocks + vol.perblock * (vol.perblock + 1)) ∧
      indirectBlocks + vol.perblock * (vol.perblock + 1) ≤ j) ∨
      ∃ t, time ≤ t ∧ t < s.l.st.time ∧ env.reads t ≠ .ok

theorem readLoop_spec (hwf : WellFormed vol r.inode) {n : Nat}
    (hmem : ∀ j ∈ List.range' i n, j ∈ r.fileblocks vol) (hread : Reading vol r mem i l)
    (hcond : ∀ v ∈ visits vol env r (List.range' i n) l, RoundCond vol env r v.1 v.2) :
    Looped vol env r mem i n l.st.time (readLoop vol env r (List.range' i n) l) := by
  induction n generalizing i l with
  | zero => exact ⟨hread.frame, hread.coherent, Nat.le_refl _, fun _ => hread, fun h => nomatch h⟩
  | succ n ih =>
    have hhead : i ∈ List.range' i (n + 1) := by
      rw [List.range'_succ]
      exact List.mem_cons_self
    have htail : ∀ j ∈ List.range' (i + 1) n, j ∈ List.range' i (n + 1) := by
      intro j hj
      rw [List.range'_succ]
      exact List.mem_cons_of_mem i hj
    rw [List.range'_succ, visits] at hcond
    have hround := hcond (i, l.st) List.mem_cons_self
    have hstep := readStep_spec hwf (hmem i hhead) hread hround
    rw [List.range'_succ, readLoop]
    cases hgo : (readStep vol env r i l).goesOn with
    | false =>
      simp only [Bool.false_eq_true, if_false]
      refine ⟨hstep.frame, hstep.coherent, hstep.le_time,
        (fun h => absurd (hgo.symm.trans h) Bool.false_ne_true), fun _ => ?_⟩
      rcases hstep.failed hgo with hlimit | hbad
      · exact Or.inl ⟨i, hhead, hround.empty, hlimit⟩
      · exact Or.inr hbad
    | true =>
      simp only [hgo, if_true] at hcond ⊢
      have hrest := ih (fun j hj => hmem j (htail j hj)) (hstep.goesOn hgo)
        fun v hv => hcond v (List.mem_cons_of_mem _ hv)
      refine ⟨hrest.frame, hrest.coherent, Nat.le_trans hstep.le_time hrest.le_time, ?_, ?_⟩
      · intro hok
        have hend := hrest.goesOn hok
        rwa [Nat.add_assoc, Nat.add_comm 1 n] at hend
      · intro hfail
        rcases hrest.failed hfail with ⟨j, hj, hlimit⟩ | ⟨t, hle, hlt, hbad⟩
        · exact Or.inl ⟨j, htail j hj, hlimit⟩
        · exact Or.inr ⟨t, Nat.le_trans hstep.le_time hle, hlt, hbad⟩

/-! ## The function -/

/-- The rounds that `ext2fs_read_file` makes. -/
def Request.visits (vol : Volume) (env : Env) (r : Request) (st : State) (mem : Contents) :
    List (Nat × State) :=
  Ext2.visits vol env r.clamp (r.clamp.fileblocks vol) ⟨st, mem, 0⟩

/-- Each round of a read is right. -/
def ReadCond (vol : Volume) (env : Env) (r : Request) (st : State) (mem : Contents) : Prop :=
  ∀ v ∈ r.visits vol env st mem, RoundCond vol env r.clamp v.1 v.2

/-- The states between the calls on a volume that is mounted. -/
inductive Session (vol : Volume) (env : Env) : State → Prop
  | mount (time : Nat) : Session vol env ⟨none, none, time⟩
  | read {st : State} (r : Request) (mem : Contents) (hst : Session vol env st)
      (hwf : WellFormed vol r.inode) (hcond : ReadCond vol env r st mem) :
      Session vol env (ext2fsReadFile vol env r st mem).2.1
  | close {st : State} (hst : Session vol env st) : Session vol env (ext2fsClose st)

/-- No byte of the range is in a block behind three tables. -/
def NoTripple (vol : Volume) (r : Request) : Prop :=
  ∀ a, r.pos ≤ a → a < r.pos + r.len →
    a / vol.blksz < indirectBlocks + vol.perblock * (vol.perblock + 1)

/-- What is wanted of `ext2fs_read_file`: it fails, or it gives the bytes of the file; it writes
them only; and it does not fail unless a read does. -/
structure ReadsRight (vol : Volume) (env : Env) (r : Request) (st : State) (mem : Contents)
    (out : Int × State × Contents) : Prop where
  result : out.1 < 0 ∨
    out.1 = r.len ∧ readAt out.2.2 0 r.len = (List.range' r.pos r.len).map (fileByte vol r.inode)
  frame : ∀ a, r.len ≤ a → out.2.2 a = mem a
  total : NoTripple vol r → (∀ t, st.time ≤ t → t < out.2.1.time → env.reads t = .ok) →
    out.1 = r.len

theorem Request.place_first (vol : Volume) (r : Request) : r.place vol (r.pos / vol.blksz) = 0 :=
  Nat.sub_eq_zero_of_le (Nat.div_mul_le_self _ _)

/-- The blocks of a range reach its end. -/
theorem Request.le_place_last (vol : Volume) (r : Request) :
    r.pos / vol.blksz ≤ r.blockcnt vol ∧ r.len ≤ r.place vol (r.blockcnt vol) := by
  have hpos := vol.blksz_pos
  have hend : r.len + r.pos ≤ r.blockcnt vol * vol.blksz := by
    rcases Nat.lt_or_ge (r.blockcnt vol * vol.blksz) (r.len + r.pos) with hlt | hge
    · have hmul : (r.blockcnt vol + 1) * vol.blksz ≤ r.len + r.pos + vol.blksz - 1 := by
        rw [Nat.add_one_mul]
        omega
      have hle : r.blockcnt vol + 1 ≤ r.blockcnt vol := (Nat.le_div_iff_mul_le hpos).mpr hmul
      omega
    · exact hge
  refine ⟨Nat.div_le_of_le_mul ?_, ?_⟩
  · rw [Nat.mul_comm]
    omega
  · rw [Request.place]
    omega

/-- The rounds of a read, for a session in which the table is coherent. -/
theorem readRounds_spec (hst : st.Coherent vol) (hwf : WellFormed vol r.inode)
    (hcond : ∀ v ∈ visits vol env r (r.fileblocks vol) ⟨st, mem, 0⟩, RoundCond vol env r v.1 v.2) :
    Looped vol env r mem (r.pos / vol.blksz) (r.blockcnt vol - r.pos / vol.blksz) st.time
      (readLoop vol env r (r.fileblocks vol) ⟨st, mem, 0⟩) := by
  refine readLoop_spec hwf (fun j hj => hj) ⟨(r.place_first vol).symm, ?_, fun _ _ => rfl, hst⟩
    hcond
  intro k _ hk
  rw [r.place_first vol] at hk
  exact absurd hk (Nat.not_lt_zero k)

theorem Session.coherent (h : Session vol env st) : st.Coherent vol := by
  induction h with
  | mount time => exact fun _ h => nomatch h
  | read r mem _ hwf hcond ih =>
    have hwf' : WellFormed vol r.clamp.inode := hwf
    exact (readRounds_spec ih hwf' hcond).coherent
  | close _ _ => exact fun _ h => nomatch h

theorem Request.clamp_eq (r : Request) (h : r.pos + r.len ≤ r.inode.size) : r.clamp = r := by
  obtain ⟨inode, pos, len, _⟩ := r
  have hmin : min len inode.size = len := Nat.min_eq_left (by simp only at h; omega)
  simp only [clamp, hmin]

/-- **The read of a range.**  In a session whose rounds all go right, it is right. -/
theorem ext2fsReadFile_reads (hst : Session vol env st) (hwf : WellFormed vol r.inode)
    (hsize : r.pos + r.len ≤ r.inode.size) (hcond : ReadCond vol env r st mem) :
    ReadsRight vol env r st mem (ext2fsReadFile vol env r st mem) := by
  rw [ReadCond, Request.visits, r.clamp_eq hsize] at hcond
  have hrounds := readRounds_spec hst.coherent hwf hcond
  obtain ⟨hfirst, hlast⟩ := r.le_place_last vol
  rw [ext2fsReadFile, r.clamp_eq hsize]
  refine ⟨?_, hrounds.frame, ?_⟩
  · cases hgo : (readLoop vol env r (r.fileblocks vol) ⟨st, mem, 0⟩).goesOn with
    | false => exact Or.inl (by decide : (-1 : Int) < 0)
    | true =>
      have hdone := hrounds.goesOn hgo
      rw [Nat.add_sub_of_le hfirst] at hdone
      refine Or.inr ⟨rfl, List.ext_getElem (by simp [length_readAt]) fun k hk _ => ?_⟩
      rw [length_readAt] at hk
      have hbyte := hdone.data k hk (Nat.lt_of_lt_of_le hk hlast)
      simpa [readAt] using hbyte
  · intro htripple hreads
    refine if_pos (Bool.of_not_eq_false fun hgo => ?_)
    rcases hrounds.failed hgo with ⟨j, hj, hempty, hlimit⟩ | ⟨t, hle, hlt, hbad⟩
    · have hlen : r.len ≠ 0 := fun hzero => Nat.not_lt.mpr hlimit (hempty hzero)
      have hj' := Request.mem_fileblocks.mp hj
      have hend := (range_end hj'.2).1
      have hneed := htripple (max r.pos (j * vol.blksz)) (Nat.le_max_left _ _) (by omega)
      have hdiv : j ≤ max r.pos (j * vol.blksz) / vol.blksz :=
        (Nat.le_div_iff_mul_le vol.blksz_pos).mpr (Nat.le_max_right _ _)
      omega
    · exact hbad (hreads t hle hlt)

/-- A round on a device that does not fail, for a block that is not behind two tables. -/
theorem roundCond_of_ok (hreads : ∀ t, env.reads t = .ok)
    (hi : i < indirectBlocks + vol.perblock)
    (htable : indirectBlocks ≤ i → r.inode.indirBlock ≠ 0 ∧ vol.Below r.inode.indirBlock)
    (hhole : blockOf vol r.inode i = 0 → i + 1 < r.blockcnt vol ∨ (r.len + r.pos) % vol.blksz = 0)
    (hbelow : vol.Below (blockOf vol r.inode i)) : RoundCond vol env r i st := by
  refine ⟨fun _ => ?_, ?_, fun _ => ?_⟩
  · have hmul := Nat.le_mul_of_pos_right vol.perblock (Nat.add_one_pos vol.perblock)
    omega
  · rw [MapCond]
    split
    · trivial
    · obtain ⟨hne, hindir⟩ := htable (by omega)
      exact ⟨hne, hindir, fun _ => hreads _⟩
  · rw [DataCond]
    split
    · exact hhole ‹_›
    · refine ⟨hbelow, ?_⟩
      rw [ShortOk]
      split
      · exact fun _ _ => hreads _
      · exact fun _ _ _ => hreads _

/-- A volume of four blocks.  Block 2 is a table with the blocks 1 and 3 in it and a hole between
them. -/
def tableVolume : Volume := ⟨0, 4, 8, fun a =>
  if a = 2048 then 1 else if a = 2056 then 3 else if 2048 ≤ a ∧ a < 3072 then 0
  else UInt8.ofNat a⟩

/-- Block 1 is the only one in front of those of the table. -/
def tableFile : Inode where
  size := 15 * 1024
  dirBlocks k := if k = 11 then 1 else 0
  indirBlock := 2
  doubleIndirBlock := 0
  trippleIndirBlock := 0

theorem wellFormed_table : WellFormed tableVolume tableFile where
  log2_le := show 0 ≤ 2 by decide
  fits := show 4 * 2 ^ (0 + 1) ≤ 8 by decide
  direct := by decide
  indir := show 2 < 4 by decide
  indir_entry _ := by decide +kernel
  double := show 0 < 4 by decide
  double_entry h := absurd rfl h

def noFailure : Env := ⟨fun _ => .ok, fun _ => 0, fun _ => 0⟩

/-- From the last block in front of the table to the last one in it. -/
def tableRequest : Request := ⟨tableFile, 11 * 1024 + 1000, 24 + 1024 + 1024 + 100, by decide⟩

theorem readCond_table :
    ReadCond tableVolume noFailure tableRequest ⟨none, none, 0⟩ (fun _ => 0) := by
  intro v hv
  have hblocks : tableRequest.clamp.fileblocks tableVolume = [11, 12, 13, 14] := by decide
  have hi := mem_of_mem_visits hv
  rw [hblocks] at hi
  have hround : ∀ i ∈ [11, 12, 13, 14], i < indirectBlocks + tableVolume.perblock ∧
    (blockOf tableVolume tableFile i = 0 → i + 1 < tableRequest.clamp.blockcnt tableVolume) ∧
    tableVolume.Below (blockOf tableVolume tableFile i) := by
    unfold Volume.Below
    decide
  obtain ⟨hlt, hhole, hbelow⟩ := hround v.1 hi
  exact roundCond_of_ok (fun _ => rfl) hlt (fun _ => ⟨by decide, by unfold Volume.Below; decide⟩)
    (fun h => .inl (hhole h)) hbelow

/-- Four blocks are read, two of them through the table, and the hole between them is filled. -/
theorem ext2fsReadFile_reads_table :
    (ext2fsReadFile tableVolume noFailure tableRequest ⟨none, none, 0⟩ (fun _ => 0)).1 = 2172 ∧
      ReadsRight tableVolume noFailure tableRequest ⟨none, none, 0⟩ (fun _ => 0)
        (ext2fsReadFile tableVolume noFailure tableRequest ⟨none, none, 0⟩ (fun _ => 0)) := by
  have hright := ext2fsReadFile_reads (Session.mount 0) wellFormed_table (by decide) readCond_table
  refine ⟨hright.total (fun a _ ha => ?_) fun _ _ _ => rfl, hright⟩
  have hend : a < 11 * 1024 + 1000 + (24 + 1024 + 1024 + 100) := ha
  show a / 1024 < 12 + 256 * (256 + 1)
  omega

/-- A file whose only block is the first one of a small volume. -/
def oneBlock (b : Nat) : Inode where
  size := 1024
  dirBlocks k := if k = 0 then b else 0
  indirBlock := 0
  doubleIndirBlock := 0
  trippleIndirBlock := 0

theorem wellFormed_oneBlock {b : Nat} (disk : Contents) (hb : b < 2) :
    WellFormed ⟨0, 2, 4, disk⟩ (oneBlock b) where
  log2_le := show 0 ≤ 2 by decide
  fits := show 2 * 2 ^ (0 + 1) ≤ 4 by decide
  direct k _ := by
    change (if k = 0 then b else 0) < 2
    split <;> omega
  indir := show 0 < 2 by decide
  indir_entry h := absurd rfl h
  double := show 0 < 2 by decide
  double_entry h := absurd rfl h

/-- A hole of which one byte is wanted: the byte behind it is written too. -/
theorem ext2fsReadFile_reads_partOfHole :
    ¬ ∀ (vol : Volume) (env : Env) (r : Request) (st : State) (mem : Contents),
      Session vol env st → WellFormed vol r.inode → r.pos + r.len ≤ r.inode.size →
        ReadsRight vol env r st mem (ext2fsReadFile vol env r st mem) := by
  intro h
  have hright := h ⟨0, 2, 4, fun _ => 0⟩ ⟨fun _ => .ok, fun _ => 0, fun _ => 0⟩
    ⟨oneBlock 0, 0, 1, by decide⟩ ⟨none, none, 0⟩ (fun _ => 1) (Session.mount 0)
    (wellFormed_oneBlock _ (by decide)) (by decide)
  have hframe := hright.frame 1 (Nat.le_refl 1)
  revert hframe
  decide +kernel

end UBoot.Fs.Ext2
