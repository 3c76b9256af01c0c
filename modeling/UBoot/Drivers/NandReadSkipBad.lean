import UBoot.Drivers.NandSkipBad

/-!
# Reading from NAND flash past bad blocks

`nand_read_skip_bad` of `drivers/mtd/nand/nand_util.c`.  It picks the same bytes as
`nand_write_skip_bad` (`target`), by the same first loop and with the same way around the second
one, so that what has been written is what is read.  Where the first loop has stopped at the end of
the device, these are not the good bytes from the offset on (`readsGood_iff`).
-/

namespace UBoot.Drivers

open UBoot.Lib

/-! ## The code -/

/-- `-EUCLEAN`: bit flips that have been corrected. -/
def euclean : Int := -117

/-- What a call leaves behind: the return value, `*length` and the bytes in the buffer. -/
structure ReadResult where
  rval : Int
  length : Nat
  buffer : Bytes

section Code

variable (n : NandInfo) (corrected : Nat → Nat → Bool) (flash : Contents)

/-- `nand_read`, for a device that reads whatever lies inside of it. -/
def nandRead (offset len : Nat) : Int × Bytes :=
  if n.size < offset + len then (einval, [])
  else (if corrected offset len then euclean else 0, readAt flash offset len)

/-- The loop of `nand_read_skip_bad`, with the bytes in front of `p_buffer`; `none` if it has not
come to an end within the rounds. -/
def readLoop (length : Nat) : Nat → Nat → Nat → Bytes → Option ReadResult
  | 0, _, _, _ => none
  | rounds + 1, offset, leftToRead, buffer =>
    if leftToRead = 0 then some ⟨0, length, buffer⟩
    else
      let blockOffset := offset % n.erasesize
      if nandBlockIsbad n (blockStart n offset) ≠ 0 then
        readLoop length rounds (offset + (n.erasesize - blockOffset)) leftToRead buffer
      else
        let readLength :=
          if leftToRead < n.erasesize - blockOffset then leftToRead
          else n.erasesize - blockOffset
        let (rval, data) := nandRead n corrected flash offset readLength
        if rval ≠ 0 ∧ rval ≠ euclean then some ⟨rval, length - leftToRead, buffer⟩
        else
          readLoop length rounds (offset + readLength) (leftToRead - readLength) (buffer ++ data)

/-- `nand_read_skip_bad` -/
def nandReadSkipBad (rounds offset length : Nat) : Option ReadResult :=
  let lenInclBad := getLenInclBad n offset length
  if n.size < offset + lenInclBad then some ⟨einval, length, []⟩
  else if lenInclBad = length then
    let (rval, data) := nandRead n corrected flash offset length
    if rval = 0 ∨ rval = euclean then some ⟨0, length, data⟩ else some ⟨rval, length, []⟩
  else readLoop n corrected flash length rounds offset length []

end Code

/-! ## The loop -/

section ReadLoop

variable {n : NandInfo} {corrected : Nat → Nat → Bool} {flash : Contents} {length o left : Nat}
  {buffer : Bytes} {r : ReadResult}

theorem nandRead_inside {len : Nat} (h : o + len ≤ n.size) :
    ∃ rval, nandRead n corrected flash o len = (rval, readAt flash o len) ∧
      (rval = 0 ∨ rval = euclean) := by
  refine ⟨_, if_neg (Nat.not_lt_of_le h), ?_⟩
  cases corrected o len
  · exact .inl rfl
  · exact .inr rfl

theorem readLoop_zero (rounds : Nat) :
    readLoop n corrected flash length (rounds + 1) o 0 buffer = some ⟨0, length, buffer⟩ := by
  rw [readLoop, if_pos rfl]

theorem readLoop_skip (hleft : 0 < left) (hseen : ¬ seenGood n o) (rounds : Nat) :
    readLoop n corrected flash length (rounds + 1) o left buffer =
      readLoop n corrected flash length rounds (blockEnd n o) left buffer := by
  rw [readLoop, if_neg (by omega)]
  exact if_pos fun h => hseen (seenGood_iff.mpr h)

/-- A block that looks good, inside of the device. -/
theorem readLoop_read (hleft : 0 < left) (hseen : seenGood n o) (hlt : o < n.size) (rounds : Nat) :
    readLoop n corrected flash length (rounds + 1) o left buffer =
      readLoop n corrected flash length rounds (o + min left (n.erasesize - o % n.erasesize))
        (left - min left (n.erasesize - o % n.erasesize))
        (buffer ++ readAt flash o (min left (n.erasesize - o % n.erasesize))) := by
  have hend := blockEnd_le n.dvd_size hlt
  have hmin : (if left < n.erasesize - o % n.erasesize then left
      else n.erasesize - o % n.erasesize) = min left (n.erasesize - o % n.erasesize) := by
    split <;> omega
  have hin : o + min left (n.erasesize - o % n.erasesize) ≤ n.size := by
    rw [blockEnd] at hend
    omega
  obtain ⟨rval, hread, hok⟩ := @nandRead_inside n corrected flash _ _ hin
  have hno : ¬ (rval ≠ 0 ∧ rval ≠ euclean) := fun h => hok.elim h.1 h.2
  rw [readLoop, if_neg (by omega)]
  simp only [hmin, ne_eq, seenGood_iff.mp hseen, not_true_eq_false, if_false, hread]
  exact if_neg hno

/-- A block that looks good, behind the device. -/
theorem readLoop_outside (hleft : 0 < left) (hseen : seenGood n o) (hle : n.size ≤ o)
    (rounds : Nat) : readLoop n corrected flash length (rounds + 1) o left buffer =
      some ⟨einval, length - left, buffer⟩ := by
  have hmod := Nat.mod_lt o n.erasesize_pos
  have hout : n.size < o + (if left < n.erasesize - o % n.erasesize then left
      else n.erasesize - o % n.erasesize) := by
    split <;> omega
  rw [readLoop, if_neg (by omega)]
  simp only [ne_eq, seenGood_iff.mp hseen, not_true_eq_false, if_false, nandRead, if_pos hout]
  exact if_pos (by decide)

/-- One read takes the first of the bytes that are left. -/
theorem take_bytesFrom (flash : Contents) (hseen : seenGood n o) (hlt : o < n.size) (left : Nat) :
    (left ≤ (bytesFrom n (seenGood n) o).length ↔
      left - min left (n.erasesize - o % n.erasesize) ≤
        (bytesFrom n (seenGood n) (o + min left (n.erasesize - o % n.erasesize))).length) ∧
    ((bytesFrom n (seenGood n) o).take left).map flash =
      readAt flash o (min left (n.erasesize - o % n.erasesize)) ++
        ((bytesFrom n (seenGood n) (o + min left (n.erasesize - o % n.erasesize))).take
          (left - min left (n.erasesize - o % n.erasesize))).map flash := by
  rw [bytesFrom_eq hlt, if_pos hseen, List.length_append, List.length_range']
  rcases Nat.lt_or_ge left (n.erasesize - o % n.erasesize) with hshort | hlong
  · -- the read ends in this block
    rw [Nat.min_eq_left hshort.le, Nat.sub_self, List.take_zero, List.map_nil, List.append_nil,
      List.take_append_of_le_length (by rw [List.length_range']; exact hshort.le),
      List.take_range'_of_length_ge hshort.le]
    exact ⟨iff_of_true (by omega) (Nat.zero_le _), rfl⟩
  · have hend : o + (n.erasesize - o % n.erasesize) = blockEnd n o := rfl
    rw [Nat.min_eq_right hlong, hend, List.take_append, List.length_range',
      List.take_of_length_le (by rw [List.length_range']; exact hlong), List.map_append]
    exact ⟨by omega, rfl⟩

theorem bytesFrom_skip (hseen : ¬ seenGood n o) (hlt : o < n.size) :
    bytesFrom n (seenGood n) o = bytesFrom n (seenGood n) (blockEnd n o) := by
  rw [bytesFrom_eq hlt, if_neg hseen, List.nil_append]

theorem bytesFrom_behind (p : Nat → Bool) (hle : n.size ≤ o) : bytesFrom n p o = [] := by
  rw [bytesFrom, bytesIn, Nat.sub_eq_zero_of_le hle]
  rfl

/-- What the loop reads if it returns 0. -/
theorem readLoop_eq_zero {rounds : Nat}
    (h : readLoop n corrected flash length rounds o left buffer = some r) (hzero : r.rval = 0) :
    left ≤ (bytesFrom n (seenGood n) o).length ∧
      r.buffer = buffer ++ ((bytesFrom n (seenGood n) o).take left).map flash := by
  induction rounds generalizing o left buffer with
  | zero => cases h
  | succ rounds ih =>
    rcases Nat.eq_zero_or_pos left with rfl | hleft
    · rw [readLoop_zero] at h
      cases h
      exact ⟨Nat.zero_le _, (List.append_nil buffer).symm⟩
    · by_cases hseen : seenGood n o
      · rcases Nat.lt_or_ge o n.size with hlt | hge
        · rw [readLoop_read hleft hseen hlt] at h
          obtain ⟨hroom, hbuffer⟩ := ih h
          obtain ⟨hiff, htake⟩ := take_bytesFrom flash hseen hlt left
          refine ⟨hiff.mpr hroom, ?_⟩
          rw [hbuffer, htake, List.append_assoc]
        · rw [readLoop_outside hleft hseen hge] at h
          cases h
          exact absurd hzero einval_ne_zero
      · rw [readLoop_skip hleft hseen] at h
        obtain ⟨hroom, hbuffer⟩ := ih h
        rcases Nat.lt_or_ge o n.size with hlt | hge
        · rw [bytesFrom_skip hseen hlt]
          exact ⟨hroom, hbuffer⟩
        · have hnext := lt_blockEnd n o
          rw [bytesFrom_behind _ (by omega), List.length_nil] at hroom
          omega

/-- There is room for what is left. -/
theorem readLoop_fits (hle : o ≤ n.size) (hroom : left ≤ (bytesFrom n (seenGood n) o).length) :
    ∃ rounds, readLoop n corrected flash length rounds o left buffer =
      some ⟨0, length, buffer ++ ((bytesFrom n (seenGood n) o).take left).map flash⟩ := by
  induction hd : n.size - o using Nat.strongRecOn generalizing o left buffer with
  | ind d ih =>
    rcases Nat.eq_zero_or_pos left with rfl | hleft
    · refine ⟨1, ?_⟩
      rw [readLoop_zero, List.take_zero, List.map_nil, List.append_nil]
    · have hlt : o < n.size := by
        refine Nat.lt_of_not_le fun hge => ?_
        rw [bytesFrom_behind _ hge, List.length_nil] at hroom
        omega
      have hnext := lt_blockEnd n o
      have hend := blockEnd_le n.dvd_size hlt
      by_cases hseen : seenGood n o
      · have hmod := Nat.mod_lt o n.erasesize_pos
        obtain ⟨hiff, htake⟩ := take_bytesFrom flash hseen hlt left
        have hin : o + min left (n.erasesize - o % n.erasesize) ≤ n.size := by
          rw [blockEnd] at hend
          omega
        obtain ⟨rounds, hrounds⟩ := @ih _ (by omega) _ _
          (buffer ++ readAt flash o (min left (n.erasesize - o % n.erasesize))) hin
          (hiff.mp hroom) rfl
        refine ⟨rounds + 1, ?_⟩
        rw [readLoop_read hleft hseen hlt, hrounds, htake, List.append_assoc]
      · rw [bytesFrom_skip hseen hlt] at hroom ⊢
        obtain ⟨rounds, hrounds⟩ := ih _ (by omega) hend hroom rfl
        refine ⟨rounds + 1, ?_⟩
        rw [readLoop_skip hleft hseen]
        exact hrounds

end ReadLoop

/-! ## What is read -/

/-- The call comes back with a result. -/
def ReadReturns (n : NandInfo) (corrected : Nat → Nat → Bool) (flash : Contents)
    (offset length : Nat) (r : ReadResult) : Prop :=
  ∃ rounds, nandReadSkipBad n corrected flash rounds offset length = some r

section Reads

variable {n : NandInfo} {corrected : Nat → Nat → Bool} {flash : Contents} {offset length : Nat}
  {r : ReadResult}

/-- Behind the device nothing is read, but for no bytes at its end. -/
theorem getLenInclBad_behind (hoff : n.size ≤ offset) (hlen : 0 < length) :
    n.size < offset + getLenInclBad n offset length := by
  have hmod := Nat.mod_lt offset n.erasesize_pos
  have hsize := n.erasesize_lt
  rw [getLenInclBad, lenInclLoop, if_pos hlen]
  dsimp only
  rw [if_pos (by omega)]
  omega

theorem getLenInclBad_zero : getLenInclBad n offset 0 = 0 := by
  rw [getLenInclBad, lenInclLoop, if_neg (Nat.lt_irrefl 0)]

theorem readAt_eq_map (flash : Contents) (o len : Nat) :
    readAt flash o len = (List.range' o len).map flash := rfl

/-- A call that returns 0 has read the bytes that it picks, and these are as many as asked for. -/
theorem ReadReturns.eq_target (hr : ReadReturns n corrected flash offset length r)
    (hzero : r.rval = 0) :
    (target n offset length).length = length ∧ r.buffer = (target n offset length).map flash := by
  obtain ⟨rounds, hr⟩ := hr
  rw [nandReadSkipBad] at hr
  dsimp only at hr
  by_cases hout : n.size < offset + getLenInclBad n offset length
  · rw [if_pos hout] at hr
    cases hr
    exact absurd hzero einval_ne_zero
  rw [if_neg hout] at hr
  rcases Nat.eq_zero_or_pos length with rfl | hpos
  · have hnil : target n offset 0 = [] :=
      List.eq_nil_of_length_eq_zero (Nat.le_zero.mp (length_target_le n offset 0))
    rw [getLenInclBad_zero] at hout hr
    obtain ⟨rval, hread, hok⟩ := @nandRead_inside n corrected flash offset 0 (by omega)
    rw [if_pos rfl, hread] at hr
    dsimp only at hr
    rw [if_pos hok] at hr
    cases hr
    rw [hnil]
    exact ⟨rfl, rfl⟩
  · have hoff : offset < n.size := by
      by_contra hge
      exact hout (getLenInclBad_behind (Nat.le_of_not_lt hge) hpos)
    obtain ⟨m, hm, hscan⟩ := exists_scanEnd hoff hpos
    by_cases heq : getLenInclBad n offset length = length
    · have hdirect : Direct n offset length := ⟨m, hm, hscan.symm.trans heq⟩
      obtain ⟨rval, hread, hok⟩ := @nandRead_inside n corrected flash _ _ hdirect.le
      rw [if_pos heq, hread] at hr
      dsimp only at hr
      rw [if_pos hok] at hr
      cases hr
      rw [target, if_pos hdirect]
      exact ⟨List.length_range', rfl⟩
    · have hdirect : ¬ Direct n offset length := by
        rintro ⟨m', hm', hlen⟩
        rw [hm.unique hm'] at hscan
        exact heq (hscan.trans hlen)
      rw [if_neg heq] at hr
      obtain ⟨hroom, hbuffer⟩ := readLoop_eq_zero hr hzero
      rw [target, if_neg hdirect, List.length_take]
      exact ⟨Nat.min_eq_left hroom, hbuffer⟩

/-- A call that picks enough bytes returns 0. -/
theorem readReturns_of_target (corrected : Nat → Nat → Bool) (flash : Contents) (hpos : 0 < length)
    (hlen : (target n offset length).length = length) :
    ReadReturns n corrected flash offset length
      ⟨0, length, (target n offset length).map flash⟩ := by
  have hoff : offset < n.size := by
    by_contra hge
    have hnone : ¬ Direct n offset length := by
      rintro ⟨m, hm, -⟩
      have hlt := hm.lt
      have hle := hm.le
      omega
    rw [target, if_neg hnone, bytesFrom_behind _ (Nat.le_of_not_lt hge), List.take_nil] at hlen
    exact absurd hlen hpos.ne
  obtain ⟨m, hm, hscan⟩ := exists_scanEnd hoff hpos
  have hin : ¬ n.size < offset + getLenInclBad n offset length := by
    have hmod := Nat.mod_le (m - offset) (2 ^ 32)
    have hlt := hm.lt
    have hle := hm.le
    omega
  by_cases hdirect : Direct n offset length
  · obtain ⟨m', hm', hlen'⟩ := id hdirect
    have heq : getLenInclBad n offset length = length := by
      rw [hscan, hm.unique hm', hlen']
    obtain ⟨rval, hread, hok⟩ := @nandRead_inside n corrected flash _ _ hdirect.le
    refine ⟨0, ?_⟩
    rw [nandReadSkipBad]
    dsimp only
    rw [if_neg hin, if_pos heq, hread]
    dsimp only
    rw [if_pos hok, target, if_pos hdirect, readAt_eq_map]
  · have hne : getLenInclBad n offset length ≠ length := fun heq =>
      hdirect ⟨m, hm, hscan.symm.trans heq⟩
    rw [target, if_neg hdirect, List.length_take] at hlen
    obtain ⟨rounds, hrounds⟩ := @readLoop_fits n corrected flash length offset length []
      hoff.le (by omega)
    refine ⟨rounds, ?_⟩
    rw [nandReadSkipBad]
    dsimp only
    rw [if_neg hin, if_neg hne, target, if_neg hdirect]
    exact hrounds

/-! ## What has been written -/

/-- An image of some bytes that has been written was one to ask for. -/
theorem request_of_returns {buffer : Bytes} {w : WriteResult} (hpos : 0 < length)
    (hlength : length < 2 ^ 32) (hw : Returns n offset length buffer flash w) (hzero : w.rval = 0) :
    Request n offset length := by
  obtain ⟨rounds, hw⟩ := hw
  rw [nandWriteSkipBad] at hw
  by_cases hmod : offset % n.writesize ≠ 0 ∨ length % n.writesize ≠ 0
  · rw [if_pos hmod] at hw
    cases hw
    exact absurd hzero einval_ne_zero
  · rw [if_neg hmod] at hw
    dsimp only at hw
    by_cases hout : n.size < offset + getLenInclBad n offset length
    · rw [if_pos hout] at hw
      cases hw
      exact absurd hzero einval_ne_zero
    · rw [not_or, not_not, not_not] at hmod
      refine ⟨hmod.1, hmod.2, ?_, hpos, hlength⟩
      by_contra hge
      exact hout (getLenInclBad_behind (Nat.le_of_not_lt hge) hpos)

/-- What has been written is what is read. -/
theorem read_written {buffer : Bytes} {w : WriteResult} (hlength : length < 2 ^ 32)
    (hbuf : buffer.length = length) (hw : Returns n offset length buffer flash w)
    (hzero : w.rval = 0) (hr : ReadReturns n corrected w.flash offset length r)
    (hread : r.rval = 0) : r.buffer = buffer := by
  obtain ⟨hlen, hbuffer⟩ := hr.eq_target hread
  rcases Nat.eq_zero_or_pos length with rfl | hpos
  · rw [hbuffer, List.eq_nil_of_length_eq_zero hlen, List.eq_nil_of_length_eq_zero hbuf]
    rfl
  · have hrequest := request_of_returns hpos hlength hw hzero
    obtain rfl := hw.unique hrequest (returns_of_length_target flash hrequest hbuf hlen)
    rw [hbuffer]
    exact map_scatter (nodup_target n offset length) (hlen.trans hbuf.symm)

/-! ## The good bytes -/

/-- A call that returns 0 has read the first good bytes from the offset on, and there were enough of
them; and what has been written there is what it has read. -/
structure ReadsGood (n : NandInfo) (corrected : Nat → Nat → Bool) (offset length : Nat) :
    Prop where
  data : ∀ {flash r}, ReadReturns n corrected flash offset length r → r.rval = 0 →
    r.buffer = ((bytesFrom n (good n) offset).take length).map flash
  room : ∀ {flash r}, ReadReturns n corrected flash offset length r → r.rval = 0 →
    length ≤ (bytesFrom n (good n) offset).length
  back : ∀ {buffer flash w r}, buffer.length = length → Returns n offset length buffer flash w →
    w.rval = 0 → ReadReturns n corrected w.flash offset length r → r.rval = 0 → r.buffer = buffer

/-- Addresses that read the same on every device are the same. -/
theorem eq_of_map_eq {l l' : List Nat} (h : ∀ flash : Contents, l.map flash = l'.map flash) :
    l = l' := by
  have hlen : l.length = l'.length := by
    have := congrArg List.length (h fun _ => 0)
    rwa [List.length_map, List.length_map] at this
  refine List.ext_getElem hlen fun i hi hi' => ?_
  have hone := congrArg (fun bytes => bytes[i]?) (h fun a => if a = l[i] then 1 else 0)
  simp only [List.getElem?_map, List.getElem?_eq_getElem hi, List.getElem?_eq_getElem hi',
    Option.map_some, if_true, Option.some.injEq] at hone
  by_contra hne
  rw [if_neg fun h => hne h.symm] at hone
  exact absurd hone (by decide)

theorem readsGood_iff_target (corrected : Nat → Nat → Bool) (hlength : length < 2 ^ 32) :
    ReadsGood n corrected offset length ↔
      (target n offset length).length < length ∨
      (length ≤ (bytesFrom n (good n) offset).length ∧
        target n offset length = (bytesFrom n (good n) offset).take length) := by
  constructor
  · intro hreads
    rcases Nat.lt_or_eq_of_le (length_target_le n offset length) with hlt | heq
    · exact .inl hlt
    · right
      rcases Nat.eq_zero_or_pos length with rfl | hpos
      · exact ⟨Nat.zero_le _, List.eq_nil_of_length_eq_zero heq⟩
      · have hret := fun flash => readReturns_of_target corrected flash hpos heq
        exact ⟨hreads.room (hret fun _ => 0) rfl,
          eq_of_map_eq fun flash => hreads.data (hret flash) rfl⟩
  · intro hcond
    have hsame : ∀ {flash r}, ReadReturns n corrected flash offset length r → r.rval = 0 →
        length ≤ (bytesFrom n (good n) offset).length ∧
          r.buffer = ((bytesFrom n (good n) offset).take length).map flash := by
      intro flash r hr hzero
      obtain ⟨hlen, hbuffer⟩ := hr.eq_target hzero
      rcases hcond with hfew | ⟨hroom, htarget⟩
      · omega
      · exact ⟨hroom, by rw [hbuffer, htarget]⟩
    exact ⟨fun hr hzero => (hsame hr hzero).2, fun hr hzero => (hsame hr hzero).1,
      fun hbuf hw hzero hr hread => read_written hlength hbuf hw hzero hr hread⟩

theorem readsGood_iff_of_size_le (corrected : Nat → Nat → Bool) (hlength : length < 2 ^ 32)
    (hsize : n.size ≤ 2 ^ 32) :
    ReadsGood n corrected offset length ↔
      length ≤ (bytesFrom n (good n) offset).length ∨ n.size - offset ≠ length := by
  have hseen : bytesFrom n (seenGood n) offset = bytesFrom n (good n) offset :=
    bytesIn_seenGood hsize offset le_rfl
  rw [readsGood_iff_target corrected hlength]
  rcases Nat.lt_or_ge (bytesFrom n (good n) offset).length length with hfew | hroom
  · rw [or_iff_left (fun h => absurd h.1 (Nat.not_le_of_lt hfew)),
      or_iff_right (Nat.not_le_of_lt hfew)]
    rcases Nat.lt_or_ge offset n.size with hoff | hbehind
    · rw [ne_eq, ← direct_iff hoff (by omega) hlength hsize hfew, target]
      by_cases hdirect : Direct n offset length
      · rw [if_pos hdirect, List.length_range']
        exact iff_of_false (Nat.lt_irrefl _) (not_not_intro hdirect)
      · rw [if_neg hdirect, hseen, List.length_take]
        exact iff_of_true (by omega) hdirect
    · have hnone : ¬ Direct n offset length := fun hdirect => by
        have hle := hdirect.le
        omega
      rw [target, if_neg hnone, hseen, List.length_take]
      exact iff_of_true (by omega) (by omega)
  · refine iff_of_true (.inr ⟨hroom, ?_⟩) (.inl hroom)
    rw [target, hseen]
    by_cases hdirect : Direct n offset length
    · rw [if_pos hdirect]
      rcases Nat.eq_zero_or_pos length with rfl | hpos
      · rfl
      · exact (hdirect.take_eq hpos hsize hroom).symm
    · rw [if_neg hdirect]

end Reads

/-- What is read are the good bytes exactly if the call does not pick enough bytes to return 0, or
if it picks the first good ones; up to `2 ^ 32` bytes of device it is enough that there are so many
of them, or that the rest of the device is not exactly as long. -/
theorem readsGood_iff (n : NandInfo) (corrected : Nat → Nat → Bool) (offset : Nat) {length : Nat}
    (hlength : length < 2 ^ 32) :
    (ReadsGood n corrected offset length ↔
      (target n offset length).length < length ∨
      (length ≤ (bytesFrom n (good n) offset).length ∧
        target n offset length = (bytesFrom n (good n) offset).take length)) ∧
    (n.size ≤ 2 ^ 32 → (ReadsGood n corrected offset length ↔
      length ≤ (bytesFrom n (good n) offset).length ∨ n.size - offset ≠ length)) :=
  ⟨readsGood_iff_target corrected hlength, readsGood_iff_of_size_le corrected hlength⟩

/-- Four bytes in front of the bad block, of which the first is left out, and three behind it. -/
theorem readsGood_badBetween : ReadsGood badBetween (fun _ _ => true) 1 6 ∧
    (bytesFrom badBetween (good badBetween) 1).take 6 = [1, 2, 3, 8, 9, 10] :=
  ⟨((readsGood_iff badBetween _ 1 (by decide)).2 (by decide)).mpr (.inl (by decide)), by decide⟩

/-- The rest of the device is as long as the image, and the bad block in it is read. -/
theorem not_readsGood_twoBlocks : ¬ ReadsGood twoBlocks (fun _ _ => false) 0 8 := by
  intro h
  have hscan : getLenInclBad twoBlocks 0 8 = 8 := by decide
  have hreturns : ReadReturns twoBlocks (fun _ _ => false) (fun _ => 0) 0 8
      ⟨0, 8, List.replicate 8 0⟩ := by
    refine ⟨0, ?_⟩
    rw [nandReadSkipBad, hscan]
    rfl
  exact absurd (h.room hreturns rfl) (by decide)

end UBoot.Drivers
