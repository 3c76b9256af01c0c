import UBoot.Fs.Ext2Blocks

/-!
# The blocks of a file

`blockOf` says which block of the volume a block of a file is: a number in the inode, or one found
through one, two or three tables; and a table that is not there has no blocks behind it.
`ext2fs_read_block` finds it (`ext2fsReadBlock_mapped`) as long as the tables are there, and the
reads that it takes for a hole or that break a table do not fail (`MapCond`).
-/

namespace UBoot.Fs.Ext2

open UBoot.Lib UBoot.LibGeneric

variable {vol : Volume} {env : Env} {inode : Inode} {st : State} {i : Nat}

/-! ## What the disk says -/

/-- An entry of the table in a block. -/
def Volume.entry (vol : Volume) (b k : Nat) : Nat :=
  load32 (fun a => vol.disk (b * vol.blksz + a)) (4 * k)

/-- The block with an index behind some levels of tables. -/
def Volume.lookup (vol : Volume) : Nat → Nat → Nat → Nat
  | 0, b, _ => b
  | level + 1, b, k =>
    if b = 0 then 0
    else vol.lookup level (vol.entry b (k / vol.perblock ^ level)) (k % vol.perblock ^ level)

/-- The block of the volume for a block of the file; 0 for a hole. -/
def blockOf (vol : Volume) (inode : Inode) (i : Nat) : Nat :=
  let p := vol.perblock
  if i < indirectBlocks then inode.dirBlocks i
  else if i < indirectBlocks + p then vol.lookup 1 inode.indirBlock (i - indirectBlocks)
  else if i < indirectBlocks + p * (p + 1) then
    vol.lookup 2 inode.doubleIndirBlock (i - (indirectBlocks + p))
  else vol.lookup 3 inode.trippleIndirBlock (i - (indirectBlocks + p * (p + 1)))

/-- A byte of the file. -/
def fileByte (vol : Volume) (inode : Inode) (a : Nat) : UInt8 :=
  let b := blockOf vol inode (a / vol.blksz)
  if b = 0 then 0 else vol.disk (b * vol.blksz + a % vol.blksz)

/-- The volume lies in its partition, the numbers of a file are those of its blocks, and the table
of tables is none of them. -/
structure WellFormed (vol : Volume) (inode : Inode) : Prop where
  log2_le : vol.log2BlockSize ≤ 2
  fits : vol.totalBlocks * 2 ^ vol.log2Sectors ≤ vol.partSize
  direct : ∀ k < indirectBlocks, inode.dirBlocks k < vol.totalBlocks
  indir : inode.indirBlock < vol.totalBlocks
  indir_entry : inode.indirBlock ≠ 0 → ∀ k < vol.perblock,
    vol.entry inode.indirBlock k < vol.totalBlocks
  double : inode.doubleIndirBlock < vol.totalBlocks
  double_entry : inode.doubleIndirBlock ≠ 0 → ∀ k < vol.perblock,
    vol.entry inode.doubleIndirBlock k < vol.totalBlocks ∧
      vol.entry inode.doubleIndirBlock k ≠ inode.doubleIndirBlock ∧
      (vol.entry inode.doubleIndirBlock k ≠ 0 → ∀ j < vol.perblock,
        vol.entry (vol.entry inode.doubleIndirBlock k) j < vol.totalBlocks)

/-! ## Tables in memory -/

/-- The table holds a block. -/
def Table.Holds (vol : Volume) (table : Table) (b : Nat) : Prop :=
  ∀ a < vol.blksz, table.block a = vol.disk (b * vol.blksz + a)

/-- The table holds what its number says. -/
def Table.Coherent (vol : Volume) (table : Table) : Prop :=
  ∀ b, vol.Below b → table.blkno = vol.sectorOf b → table.Holds vol b

/-- The first table, once it is there. -/
def State.table1 (vol : Volume) (env : Env) (st : State) : Table := allocTable vol env st.indir1

/-- The table that files share holds what its number says. -/
def State.Coherent (vol : Volume) (st : State) : Prop :=
  ∀ table, st.indir1 = some table → table.Coherent vol

/-- The number of a new table is that of no block. -/
theorem coherent_of_new {table : Table} (h : table.blkno = 2 ^ 32 - 1) : table.Coherent vol := by
  intro b hbelow hblkno
  have hlt : b * 2 ^ vol.log2Sectors < 2 ^ 31 := hbelow
  rw [hbelow.sectorOf_eq, h] at hblkno
  omega

theorem State.Coherent.table1 (h : st.Coherent vol) (env : Env) :
    (st.table1 vol env).Coherent vol := by
  rw [State.table1]
  cases htable : st.indir1 with
  | none => exact coherent_of_new rfl
  | some table =>
    rw [allocTable]
    split
    · exact coherent_of_new rfl
    · exact h table htable

theorem Table.Holds.entry_eq {table : Table} {b k : Nat} (hlog : vol.log2BlockSize ≤ 2)
    (h : table.Holds vol b) (hk : k < vol.perblock) : table.entry k = vol.entry b k := by
  have hsize : vol.blksz ≤ 2 ^ 10 * 2 ^ 2 :=
    Nat.mul_le_mul_left _ (Nat.pow_le_pow_right (by decide) hlog)
  have hk' : 4 * k + 4 ≤ vol.blksz := by
    rw [Volume.perblock] at hk
    omega
  rw [Table.entry, Volume.entry]
  exact load32_congr (Nat.le_trans hk' (Nat.le_trans hsize (by decide)))
    fun a _ ha => h a (Nat.lt_of_lt_of_le ha hk')

theorem Table.filled_block (vol : Volume) (table : Table) (b : Nat) : (table.filled vol b).block =
    storeAt table.block 0 (readAt vol.disk (b * vol.blksz) vol.blksz) := rfl

theorem holds_filled (vol : Volume) (table : Table) (b : Nat) :
    (table.filled vol b).Holds vol b := by
  intro a ha
  have happly := storeAt_readAt_apply table.block vol.disk (b * vol.blksz) ha 0
  rw [Nat.zero_add] at happly
  rw [Table.filled_block, happly]

/-- A number below is that of one block. -/
theorem Volume.Below.eq_of_sectorOf_eq {b b' : Nat} (h : vol.Below b) (h' : vol.Below b')
    (heq : vol.sectorOf b = vol.sectorOf b') : b = b' := by
  rw [h.sectorOf_eq, h'.sectorOf_eq] at heq
  exact Nat.eq_of_mul_eq_mul_right (Nat.two_pow_pos _) heq

theorem Table.Holds.coherent {table : Table} {b : Nat} (h : table.Holds vol b)
    (hbelow : vol.Below b) (hblkno : table.blkno = vol.sectorOf b) : table.Coherent vol := by
  intro b' hbelow' hblkno'
  rwa [← hbelow.eq_of_sectorOf_eq hbelow' (hblkno.symm.trans hblkno')]

/-! ## The mapping -/

/-- The first table is that of the block. -/
def Cached (vol : Volume) (env : Env) (st : State) (b : Nat) : Prop :=
  vol.sectorOf b = (st.table1 vol env).blkno

instance (vol : Volume) (env : Env) (st : State) (b : Nat) : Decidable (Cached vol env st b) :=
  inferInstanceAs (Decidable (_ = _))

/-- The table is there after its read. -/
def Fetched (vol : Volume) (env : Env) (st : State) (b : Nat) : Prop :=
  ¬ Cached vol env st b → env.reads st.time = .ok

/-- The calls of `block_read` for the first table. -/
def fetchReads (vol : Volume) (env : Env) (st : State) (b : Nat) : Nat :=
  if Cached vol env st b then 0 else 1

/-- The entry for a block of the file in the table of tables. -/
def doubleEntry (vol : Volume) (inode : Inode) (i : Nat) : Nat :=
  vol.entry inode.doubleIndirBlock ((i - (indirectBlocks + vol.perblock)) / vol.perblock)

/-- A failed read leaves the first table alone, or there is nothing in it. -/
def FailsClean (vol : Volume) (env : Env) (st : State) : Prop :=
  ∀ got, env.reads st.time = .failed got → got = [] ∨ (st.table1 vol env).blkno = 2 ^ 32 - 1

/-- What goes right where a block is looked up: no table stands for a hole, its sector is an `int`,
and neither the read of the only table fails nor one that fails breaks the table that is there. -/
def MapCond (vol : Volume) (env : Env) (inode : Inode) (i : Nat) (st : State) : Prop :=
  if i < indirectBlocks then True
  else if i < indirectBlocks + vol.perblock then
    inode.indirBlock ≠ 0 ∧ vol.Below inode.indirBlock ∧ Fetched vol env st inode.indirBlock
  else if i < indirectBlocks + vol.perblock * (vol.perblock + 1) then
    inode.doubleIndirBlock ≠ 0 ∧ vol.Below inode.doubleIndirBlock ∧
      (¬ Cached vol env st inode.doubleIndirBlock → FailsClean vol env st) ∧
      (Fetched vol env st inode.doubleIndirBlock →
        doubleEntry vol inode i ≠ 0 ∧ vol.Below (doubleEntry vol inode i))
  else True

/-- The reads of the tables do not fail. -/
def MapOk (vol : Volume) (env : Env) (inode : Inode) (i : Nat) (st : State) : Prop :=
  if i < indirectBlocks then True
  else if i < indirectBlocks + vol.perblock then Fetched vol env st inode.indirBlock
  else if i < indirectBlocks + vol.perblock * (vol.perblock + 1) then
    Fetched vol env st inode.doubleIndirBlock ∧
      env.reads (st.time + fetchReads vol env st inode.doubleIndirBlock) = .ok
  else False

/-- The calls of `block_read` for the tables, if they do not fail. -/
def mapReads (vol : Volume) (env : Env) (inode : Inode) (i : Nat) (st : State) : Nat :=
  if i < indirectBlocks then 0
  else if i < indirectBlocks + vol.perblock then fetchReads vol env st inode.indirBlock
  else if i < indirectBlocks + vol.perblock * (vol.perblock + 1) then
    fetchReads vol env st inode.doubleIndirBlock + 1
  else 0

/-- The first table behind its read. -/
theorem fetchTable_first (env : Env) {b : Nat} (hwf : WellFormed vol inode)
    (hb : b < vol.totalBlocks) (hbelow : vol.Below b) (hcoh : st.Coherent vol) :
    ∃ ok table,
      fetchTable vol env st.time (st.table1 vol env) b (st.table1 vol env).blkno =
        ⟨ok, table, st.time + fetchReads vol env st b⟩ ∧
      (ok = true ∧ Fetched vol env st b ∧ table.Holds vol b ∧ table.blkno = vol.sectorOf b ∨
        ok = false ∧ ¬ Cached vol env st b ∧ env.reads st.time ≠ .ok ∧
          (FailsClean vol env st → table.Coherent vol)) := by
  have htable := hcoh.table1 env
  by_cases hcached : Cached vol env st b
  · have hfetch : fetchTable vol env st.time (st.table1 vol env) b (st.table1 vol env).blkno =
        ⟨true, st.table1 vol env, st.time⟩ := if_neg (not_not.mpr hcached)
    refine ⟨true, st.table1 vol env, ?_, Or.inl ⟨rfl, fun h => absurd hcached h, ?_, hcached.symm⟩⟩
    · rw [hfetch, fetchReads, if_pos hcached, Nat.add_zero]
    · exact htable b hbelow hcached.symm
  · have hfetch := fetchTable_eq env st.time (st.table1 vol env) hwf.fits hb hbelow hcached
    rw [hfetch, fetchReads, if_neg hcached]
    cases hread : env.reads st.time with
    | ok =>
      exact ⟨true, (st.table1 vol env).filled vol b, rfl,
        Or.inl ⟨rfl, fun _ => hread, holds_filled vol _ b, rfl⟩⟩
    | failed got =>
      refine ⟨false, _, rfl, Or.inr ⟨rfl, hcached, Outcome.noConfusion, fun hclean => ?_⟩⟩
      rcases hclean got hread with rfl | hnew
      · rw [List.take_nil, storeAt_nil]
        exact htable
      · exact coherent_of_new hnew

/-- What the mapping of a block gives: the block, after its reads; or −1, because a read has failed
or the block is behind three tables. -/
structure Mapped (vol : Volume) (env : Env) (inode : Inode) (i : Nat) (st : State)
    (r : Int × State) : Prop where
  coherent : r.2.Coherent vol
  result : MapOk vol env inode i st ∧ r.1 = toInt (blockOf vol inode i) ∧
      r.2.time = st.time + mapReads vol env inode i st ∨
    r.1 = -1 ∧ st.time ≤ r.2.time ∧
      (indirectBlocks + vol.perblock * (vol.perblock + 1) ≤ i ∨
        ∃ t, st.time ≤ t ∧ t < r.2.time ∧ env.reads t ≠ .ok)

theorem coherent_some {table : Table} {indir2 : Option Table} {time : Nat}
    (h : table.Coherent vol) : (State.mk (some table) indir2 time).Coherent vol := by
  intro table' htable'
  cases htable'
  exact h

theorem allocTable_indir1 (vol : Volume) (env : Env) (st : State) :
    allocTable vol env st.indir1 = st.table1 vol env := rfl

theorem mapped_direct (hcoh : st.Coherent vol) (hi : i < indirectBlocks) :
    Mapped vol env inode i st (ext2fsReadBlock vol env inode i st) := by
  have hread : ext2fsReadBlock vol env inode i st = (toInt (inode.dirBlocks i), st) := if_pos hi
  rw [hread]
  refine ⟨hcoh, Or.inl ⟨?_, ?_, ?_⟩⟩
  · rw [MapOk, if_pos hi]
    trivial
  · rw [blockOf, if_pos hi]
  · rw [mapReads, if_pos hi]
    rfl

theorem mapped_single (hwf : WellFormed vol inode) (hcoh : st.Coherent vol)
    (h12 : ¬ i < indirectBlocks) (hi : i < indirectBlocks + vol.perblock)
    (hcond : MapCond vol env inode i st) :
    Mapped vol env inode i st (ext2fsReadBlock vol env inode i st) := by
  rw [MapCond, if_neg h12, if_pos hi] at hcond
  obtain ⟨hne, hbelow, hfetched⟩ := hcond
  have hread : ext2fsReadBlock vol env inode i st = _ := (if_neg h12).trans (if_pos hi)
  obtain ⟨ok, table, hfetch, hcases⟩ := fetchTable_first env hwf hwf.indir hbelow hcoh
  rcases hcases with ⟨rfl, -, hholds, hblkno⟩ | ⟨-, hcached, hfail, -⟩
  · rw [hread]
    simp only [allocTable_indir1, hfetch, if_true]
    refine ⟨coherent_some (hholds.coherent hbelow hblkno), Or.inl ⟨?_, ?_, ?_⟩⟩
    · rw [MapOk, if_neg h12, if_pos hi]
      exact hfetched
    · have hentry := hholds.entry_eq hwf.log2_le (show i - indirectBlocks < vol.perblock by omega)
      rw [blockOf, if_neg h12, if_pos hi, Volume.lookup, if_neg hne, Volume.lookup, Nat.pow_zero,
        Nat.div_one, ← hentry]
    · rw [mapReads, if_neg h12, if_pos hi]
  · exact absurd (hfetched hcached) hfail

/-- The places of a block in the two tables. -/
theorem double_index (hi : ¬ i < indirectBlocks + vol.perblock)
    (hi' : i < indirectBlocks + vol.perblock * (vol.perblock + 1)) :
    (i - (indirectBlocks + vol.perblock)) / vol.perblock < vol.perblock ∧
      (i - (indirectBlocks + vol.perblock)) % vol.perblock < vol.perblock := by
  rw [Nat.mul_add_one] at hi'
  have hpos : 0 < vol.perblock := by
    rcases Nat.eq_zero_or_pos vol.perblock with hzero | hpos
    · rw [hzero] at hi hi'
      omega
    · exact hpos
  exact ⟨(Nat.div_lt_iff_lt_mul hpos).mpr (by omega), Nat.mod_lt _ hpos⟩

theorem blockOf_double (hne : inode.doubleIndirBlock ≠ 0) (hentry : doubleEntry vol inode i ≠ 0)
    (h12 : ¬ i < indirectBlocks) (hi : ¬ i < indirectBlocks + vol.perblock)
    (hi' : i < indirectBlocks + vol.perblock * (vol.perblock + 1)) :
    blockOf vol inode i = vol.entry (doubleEntry vol inode i)
      ((i - (indirectBlocks + vol.perblock)) % vol.perblock) := by
  rw [blockOf, if_neg h12, if_neg hi, if_pos hi', Volume.lookup, if_neg hne, Nat.pow_one,
    ← doubleEntry, Volume.lookup, if_neg hentry, Volume.lookup, Nat.pow_zero, Nat.div_one]

/-- The second table is always read. -/
theorem fetchTable_second (env : Env) {b cached : Nat} (hwf : WellFormed vol inode)
    (hb : b < vol.totalBlocks) (hbelow : vol.Below b) (hother : vol.sectorOf b ≠ cached)
    (table : Table) (time : Nat) :
    ∃ ok table₂, fetchTable vol env time table b cached = ⟨ok, table₂, time + 1⟩ ∧
      (ok = true ∧ env.reads time = .ok ∧ table₂.Holds vol b ∨
        ok = false ∧ env.reads time ≠ .ok) := by
  rw [fetchTable_eq env time table hwf.fits hb hbelow hother]
  cases hread : env.reads time with
  | ok => exact ⟨true, _, rfl, Or.inl ⟨rfl, rfl, holds_filled vol table b⟩⟩
  | failed got => exact ⟨false, _, rfl, Or.inr ⟨rfl, Outcome.noConfusion⟩⟩

theorem mapped_double (hwf : WellFormed vol inode) (hcoh : st.Coherent vol)
    (h12 : ¬ i < indirectBlocks) (hi : ¬ i < indirectBlocks + vol.perblock)
    (hi' : i < indirectBlocks + vol.perblock * (vol.perblock + 1))
    (hcond : MapCond vol env inode i st) :
    Mapped vol env inode i st (ext2fsReadBlock vol env inode i st) := by
  rw [MapCond, if_neg h12, if_neg hi, if_pos hi'] at hcond
  obtain ⟨hne, hbelow, hclean, hentry⟩ := hcond
  obtain ⟨hdiv, hmod⟩ := double_index hi hi'
  obtain ⟨hlt, hself, -⟩ := hwf.double_entry hne _ hdiv
  rw [← doubleEntry] at hlt hself
  have hread : ext2fsReadBlock vol env inode i st = _ :=
    (if_neg h12).trans ((if_neg hi).trans (if_pos hi'))
  obtain ⟨ok, table, hfetch, hcases⟩ := fetchTable_first env hwf hwf.double hbelow hcoh
  rw [hread]
  simp only [allocTable_indir1, hfetch]
  rcases hcases with ⟨rfl, hfetched, hholds, hblkno⟩ | ⟨rfl, hcached, hfail, hkeep⟩
  · have hcoherent := hholds.coherent hbelow hblkno
    obtain ⟨hne', hbelow'⟩ := hentry hfetched
    have hvalue := hholds.entry_eq hwf.log2_le hdiv
    rw [← doubleEntry] at hvalue
    have hother : vol.sectorOf (doubleEntry vol inode i) ≠ table.blkno := by
      rw [hblkno]
      exact fun heq => hself (hbelow'.eq_of_sectorOf_eq hbelow heq)
    obtain ⟨ok, table₂, hfetch₂, hcases₂⟩ := fetchTable_second env hwf hlt hbelow' hother
      (allocTable vol env st.indir2) (st.time + fetchReads vol env st inode.doubleIndirBlock)
    simp only [hvalue, hfetch₂, if_true]
    rcases hcases₂ with ⟨rfl, hread₂, hholds₂⟩ | ⟨rfl, hfail₂⟩
    · rw [if_pos rfl, hholds₂.entry_eq hwf.log2_le hmod, ← blockOf_double hne hne' h12 hi hi']
      refine ⟨coherent_some hcoherent, Or.inl ⟨?_, rfl, ?_⟩⟩
      · rw [MapOk, if_neg h12, if_neg hi, if_pos hi']
        exact ⟨hfetched, hread₂⟩
      · rw [mapReads, if_neg h12, if_neg hi, if_pos hi', ← Nat.add_assoc]
    · rw [if_neg Bool.false_ne_true]
      exact ⟨coherent_some hcoherent, Or.inr ⟨rfl, Nat.le_succ_of_le (Nat.le_add_right _ _),
        Or.inr ⟨_, Nat.le_add_right _ _, Nat.lt_succ_self _, hfail₂⟩⟩⟩
  · rw [if_neg Bool.false_ne_true]
    refine ⟨coherent_some (hkeep (hclean hcached)), Or.inr ⟨rfl, Nat.le_add_right _ _, Or.inr ?_⟩⟩
    rw [fetchReads, if_neg hcached]
    exact ⟨st.time, Nat.le_refl _, Nat.lt_succ_self _, hfail⟩

theorem mapped_tripple (hcoh : st.Coherent vol)
    (hi : ¬ i < indirectBlocks + vol.perblock * (vol.perblock + 1)) :
    Mapped vol env inode i st (ext2fsReadBlock vol env inode i st) := by
  have hle : vol.perblock ≤ vol.perblock * (vol.perblock + 1) :=
    Nat.le_mul_of_pos_right _ (Nat.succ_pos _)
  have hread : ext2fsReadBlock vol env inode i st = (-1, st) :=
    (if_neg (by omega)).trans ((if_neg (by omega)).trans (if_neg hi))
  rw [hread]
  exact ⟨hcoh, Or.inr ⟨rfl, Nat.le_refl _, Or.inl (Nat.not_lt.mp hi)⟩⟩

/-- **The mapping** finds the block of a file, or it fails for a reason. -/
theorem ext2fsReadBlock_mapped (hwf : WellFormed vol inode) (hcoh : st.Coherent vol)
    (hcond : MapCond vol env inode i st) :
    Mapped vol env inode i st (ext2fsReadBlock vol env inode i st) := by
  by_cases h12 : i < indirectBlocks
  · exact mapped_direct hcoh h12
  · by_cases hi : i < indirectBlocks + vol.perblock
    · exact mapped_single hwf hcoh h12 hi hcond
    · by_cases hi' : i < indirectBlocks + vol.perblock * (vol.perblock + 1)
      · exact mapped_double hwf hcoh h12 hi hi' hcond
      · exact mapped_tripple hcoh hi'

end UBoot.Fs.Ext2
