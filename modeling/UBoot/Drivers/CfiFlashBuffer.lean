import UBoot.Drivers.CfiFlashWrite

/-!
# Buffered writes

The loop of `flash_write_cfibuffer` that checks the flash goes on while a word does not fit and ends
at the first that does, so a block is refused if no word of it fits (`flashWriteCfibuffer_refused`),
and not if some word does not.  A block that is taken is programmed as a whole.

`write_buff` hands the whole words of the range over in blocks (`blocks`); the words that are partly
outside it are written as without buffers.
-/

namespace UBoot.Drivers.Cfi

open UBoot.Lib

section Block

variable (info : FlashInfo) (flash src : Contents) (dest pos : Nat)

/-- No bit of this word has to be set. -/
def WordFits : Prop := ∀ i < info.width, flash (dest + i) &&& src (pos + i) = src (pos + i)

instance : Decidable (WordFits info flash src dest pos) :=
  inferInstanceAs (Decidable (∀ i < info.width, _))

/-- The word of a block with this number fits. -/
def BlockFits (j : Nat) : Prop :=
  WordFits info flash src (dest + j * info.width) (pos + j * info.width)

instance (j : Nat) : Decidable (BlockFits info flash src dest pos j) :=
  inferInstanceAs (Decidable (WordFits ..))

variable {e : Endian} {info flash src dest pos} {n : Nat} {s : CfiState}

theorem wordFits_iff : WordFits info flash src dest pos ↔
    flashRead e info flash dest &&& flashRead e info src pos = flashRead e info src pos := by
  have hlt : flashRead e info src pos < 2 ^ (8 * info.width) := by
    have hlt := wordOf_lt e (readAt src pos info.width)
    rwa [length_readAt] at hlt
  have hbytes := bytesOf_wordOf e (readAt src pos info.width)
  rw [length_readAt] at hbytes
  have hshift : readAt src pos info.width =
      readAt (fun a => src (pos + (a - dest))) dest info.width := by
    apply List.ext_getElem?
    intro i
    by_cases hi : i < info.width
    · rw [getElem?_readAt hi, getElem?_readAt hi, Nat.add_sub_cancel_left]
    · rw [List.getElem?_eq_none (by simpa using hi), List.getElem?_eq_none (by simpa using hi)]
  rw [flag_iff hlt (hbytes.trans hshift)]
  constructor
  · intro h a ha
    obtain ⟨i, rfl⟩ := Nat.exists_eq_add_of_le ha.1
    dsimp only
    rw [Nat.add_sub_cancel_left]
    exact h i (Nat.lt_of_add_lt_add_left ha.2)
  · intro h i hi
    have hand := h (dest + i) ⟨Nat.le_add_right _ _, Nat.add_lt_add_left hi _⟩
    dsimp only at hand
    rwa [Nat.add_sub_cancel_left] at hand

theorem blockFits_zero : BlockFits info flash src dest pos 0 ↔ WordFits info flash src dest pos := by
  rw [BlockFits, Nat.zero_mul, Nat.add_zero, Nat.add_zero]

theorem blockFits_succ (j : Nat) : BlockFits info flash src dest pos (j + 1) ↔
    BlockFits info flash src (dest + info.width) (pos + info.width) j := by
  rw [BlockFits, BlockFits, Nat.succ_mul, Nat.add_comm (j * info.width), Nat.add_assoc,
    Nat.add_assoc]

/-- The check ends with the first word that fits. -/
theorem bufferFlag_iff :
    bufferFlag e info flash src n dest pos = true ↔ ∃ j < n, BlockFits info flash src dest pos j := by
  induction n generalizing dest pos with
  | zero =>
    refine iff_of_false Bool.false_ne_true ?_
    rintro ⟨j, hj, -⟩
    exact Nat.not_lt_zero j hj
  | succ n ih =>
    unfold bufferFlag
    by_cases hfirst : WordFits info flash src dest pos
    · rw [if_pos (wordFits_iff.mp hfirst)]
      exact iff_of_true rfl ⟨0, Nat.succ_pos n, blockFits_zero.mpr hfirst⟩
    rw [if_neg (mt wordFits_iff.mpr hfirst), ih]
    constructor
    · rintro ⟨j, hj, hfits⟩
      exact ⟨j + 1, Nat.succ_lt_succ hj, (blockFits_succ j).mpr hfits⟩
    · rintro ⟨j, hj, hfits⟩
      cases j with
      | zero => exact absurd (blockFits_zero.mp hfits) hfirst
      | succ j => exact ⟨j, Nat.lt_of_succ_lt_succ hj, (blockFits_succ j).mp hfits⟩

/-- The words of a buffer are programmed one behind the other. -/
theorem bufferData_flash :
    (bufferData e info src n dest pos s).flash =
      programAt s.flash dest (readAt src pos (n * info.width)) := by
  induction n generalizing dest pos s with
  | zero =>
    rw [Nat.zero_mul]
    funext a
    refine (programAt_of_not_inRange ?_).symm
    rintro ⟨hle, hlt⟩
    rw [length_readAt] at hlt
    omega
  | succ n ih =>
    have hbytes := bytesOf_wordOf e (readAt src pos info.width)
    rw [length_readAt] at hbytes
    rw [bufferData, ih, flashWrite_flash, flashRead, hbytes, Nat.succ_mul,
      Nat.add_comm (n * info.width), readAt_add, programAt_append, length_readAt]

theorem shift_eq (len : Nat) : len >>> info.portwidth.shift = len / info.width :=
  Nat.shiftRight_eq_div_pow _ _

variable {len : Nat}

/-- A block of which no word fits is refused. -/
theorem flashWriteCfibuffer_refused
    (h : ¬ ∃ j < len / info.width, BlockFits info s.flash src dest pos j) :
    flashWriteCfibuffer e info dest src pos len s = (errNotErased, s) := by
  unfold flashWriteCfibuffer
  rw [shift_eq]
  exact if_pos (Bool.eq_false_iff.mpr (mt bufferFlag_iff.mp h))

/-- Any other is programmed, if the chip has a buffer. -/
theorem flashWriteCfibuffer_taken
    (h : ∃ j < len / info.width, BlockFits info s.flash src dest pos j)
    (hvendor : info.vendor ≠ .amdLegacy) :
    (flashWriteCfibuffer e info dest src pos len s).1 = errOk ∧
      (flashWriteCfibuffer e info dest src pos len s).2.flash =
        programAt s.flash dest (readAt src pos (len / info.width * info.width)) := by
  unfold flashWriteCfibuffer
  rw [shift_eq]
  dsimp only
  rw [if_neg (Bool.not_eq_false _ ▸ bufferFlag_iff.mpr h)]
  split
  · refine ⟨fullStatusCheck_fst _ _, ?_⟩
    rw [fullStatusCheck_flash, writeCmd_flash, bufferData_flash]
    rfl
  · refine ⟨fullStatusCheck_fst _ _, ?_⟩
    rw [fullStatusCheck_flash, writeCmd_flash, bufferData_flash]
    rfl
  · refine ⟨fullStatusCheck_fst _ _, ?_⟩
    rw [fullStatusCheck_flash, writeCmd_flash, bufferData_flash]
    rfl
  · refine ⟨fullStatusCheck_fst _ _, ?_⟩
    rw [fullStatusCheck_flash, writeCmd_flash, bufferData_flash]
    rfl
  · refine ⟨fullStatusCheck_fst _ _, ?_⟩
    rw [fullStatusCheck_flash, writeCmd_flash, bufferData_flash]
    rfl
  · next hlegacy => exact absurd hlegacy hvendor

theorem flashWriteCfibuffer_legacy
    (h : ∃ j < len / info.width, BlockFits info s.flash src dest pos j)
    (hvendor : info.vendor = .amdLegacy) :
    (flashWriteCfibuffer e info dest src pos len s).1 = errInval := by
  unfold flashWriteCfibuffer
  rw [shift_eq]
  dsimp only
  rw [if_neg (Bool.not_eq_false _ ▸ bufferFlag_iff.mpr h), hvendor]

/-- The block is refused without a command exactly when some word of it does not fit. -/
def BlockRight (e : Endian) (info : FlashInfo) (dest : Nat) (src : Contents) (pos len : Nat)
    (s : CfiState) : Prop :=
  ((flashWriteCfibuffer e info dest src pos len s).1 = errNotErased ∧
      (flashWriteCfibuffer e info dest src pos len s).2.bus = s.bus) ↔
    ∃ j < len / info.width, ¬ BlockFits info s.flash src dest pos j

theorem refused_iff :
    ((flashWriteCfibuffer e info dest src pos len s).1 = errNotErased ∧
      (flashWriteCfibuffer e info dest src pos len s).2.bus = s.bus) ↔
    ¬ ∃ j < len / info.width, BlockFits info s.flash src dest pos j := by
  constructor
  · rintro ⟨hrc, -⟩ hany
    by_cases hvendor : info.vendor = .amdLegacy
    · rw [flashWriteCfibuffer_legacy hany hvendor] at hrc
      exact absurd hrc (by decide)
    · rw [(flashWriteCfibuffer_taken hany hvendor).1] at hrc
      exact absurd hrc (by decide)
  · intro h
    rw [flashWriteCfibuffer_refused h]
    exact ⟨rfl, rfl⟩

/-- A block is treated right if its words are alike. -/
theorem blockRight_iff (hlen : info.width ∣ len) (hpos : 0 < len) :
    BlockRight e info dest src pos len s ↔
      (∀ j < len / info.width, BlockFits info s.flash src dest pos j) ∨
      (∀ j < len / info.width, ¬ BlockFits info s.flash src dest pos j) := by
  have hcount : 0 < len / info.width := Nat.div_pos (Nat.le_of_dvd hpos hlen) width_pos
  unfold BlockRight
  rw [refused_iff]
  constructor
  · intro h
    by_cases hany : ∃ j < len / info.width, BlockFits info s.flash src dest pos j
    · refine .inl fun j hj => ?_
      by_contra hfits
      exact h.mpr ⟨j, hj, hfits⟩ hany
    · exact .inr fun j hj hfits => hany ⟨j, hj, hfits⟩
  · rintro (hall | hnone)
    · refine iff_of_false (not_not.mpr ⟨0, hcount, hall 0 hcount⟩) ?_
      rintro ⟨j, hj, hfits⟩
      exact hfits (hall j hj)
    · refine iff_of_true ?_ ⟨0, hcount, hnone 0 hcount⟩
      rintro ⟨j, hj, hfits⟩
      exact hnone j hj hfits

end Block

/-! ## `write_buff` -/

/-- The blocks that are handed over while they are taken: the address and the number of words. -/
def blocks (info : FlashInfo) : Nat → Nat → Nat → List (Nat × Nat)
  | 0, _, _ => []
  | fuel + 1, wp, cnt =>
    if info.width ≤ cnt then
      let n := min (bufferedSize info - wp % bufferedSize info) cnt / info.width
      (wp, n) :: blocks info fuel (wp + n * info.width) (cnt - n * info.width)
    else []

/-- The blocks of a write. -/
def FlashInfo.blocksOf (info : FlashInfo) (addr cnt : Nat) : List (Nat × Nat) :=
  blocks info cnt (info.wordAddr addr (info.headWords addr))
    (addr + cnt - info.wordAddr addr (info.headWords addr))

/-- The word lies partly outside the range. -/
def Partly (info : FlashInfo) (addr cnt k : Nat) : Prop :=
  info.wordAddr addr k < addr ∨ addr + cnt < info.wordAddr addr (k + 1)

section Loop

variable (info : FlashInfo) (src : Contents) (addr cnt : Nat) (s₀ : CfiState)

/-- A block with a word that fits, for a chip with a buffer. -/
def Taken (b : Nat × Nat) : Prop :=
  info.vendor ≠ .amdLegacy ∧ ∃ j < b.2, BlockFits info s₀.flash src b.1 (b.1 - addr) j

/-- The cursor is at this word; the flash from it on is as before, and in front of it the target
if all words there fit. -/
structure Ahead (k : Nat) (c : Cursor) : Prop where
  wp_eq : c.wp = info.wordAddr addr k
  addr_le : addr ≤ c.wp
  pos_eq : c.pos + c.cnt = cnt
  cnt_eq : c.cnt = addr + cnt - c.wp
  flash : ∀ a, c.wp ≤ a → c.s.flash a = s₀.flash a
  clean : (∀ j < k, ¬ Offends info src s₀.flash addr cnt j) →
    ∀ a < c.wp, c.s.flash a = target src s₀.flash addr cnt a
  bound : c.wp ≤ addr + cnt ∨ k = info.headWords addr

variable {info src addr cnt s₀} {e : Endian} {junk : UInt32} {k n j fuel : Nat} {c : Cursor}

theorem Reached.ahead (h : Reached info src addr cnt s₀ (info.headWords addr) c) :
    Ahead info src addr cnt s₀ (info.headWords addr) c where
  wp_eq := h.wp
  addr_le := h.addr_le
  pos_eq := h.pos
  cnt_eq := h.cnt
  flash := fun a ha => by
    rw [h.flash]
    exact upTo_of_le (h.wp ▸ ha)
  clean := fun _ a ha => by
    rw [h.flash, ← h.wp]
    exact if_pos ha
  bound := .inr rfl

theorem wordAddr_add : info.wordAddr addr (k + j) = info.wordAddr addr k + j * info.width := by
  rw [FlashInfo.wordAddr, FlashInfo.wordAddr, Nat.add_mul, Nat.add_assoc]

theorem blockFits_congr {flash flash' : Contents} {dest pos : Nat}
    (h : ∀ a, dest ≤ a → flash a = flash' a) :
    BlockFits info flash src dest pos j ↔ BlockFits info flash' src dest pos j :=
  forall₂_congr fun i _ => by rw [h _ (by omega)]

/-- Behind a block that is taken. -/
theorem Ahead.block (h : Ahead info src addr cnt s₀ k c) (hle : n * info.width ≤ c.cnt)
    {s' : CfiState}
    (hs' : s'.flash = programAt c.s.flash c.wp (readAt src c.pos (n * info.width))) :
    Ahead info src addr cnt s₀ (k + n)
      ⟨c.wp + n * info.width, c.pos + n * info.width, c.cnt - n * info.width, s'⟩ := by
  obtain ⟨hwp, haddr, hpos, hcnt, hflash, hclean, hbound⟩ := h
  refine ⟨?_, ?_, ?_, ?_, ?_, ?_, ?_⟩
  · rw [wordAddr_add, hwp]
  · exact Nat.le_add_right_of_le haddr
  · dsimp only
    omega
  · dsimp only
    omega
  · intro a ha
    dsimp only at ha ⊢
    rw [hs', programAt_of_not_inRange, hflash a (by omega)]
    rintro ⟨-, hlt⟩
    rw [length_readAt] at hlt
    omega
  · intro hfits a ha
    dsimp only at ha ⊢
    rw [hs']
    by_cases hlt : a < c.wp
    · rw [programAt_of_not_inRange, hclean (fun j hj => hfits j (by omega)) a hlt]
      rintro ⟨hle', -⟩
      omega
    -- the word of the block that the address lies in
    have hw : 0 < info.width := width_pos
    have hdiv := Nat.div_add_mod (a - c.wp) info.width
    have hmod := Nat.mod_lt (a - c.wp) hw
    have hj : (a - c.wp) / info.width < n := Nat.div_lt_of_lt_mul (by rw [Nat.mul_comm]; omega)
    have hoff := hfits (k + (a - c.wp) / info.width) (by omega)
    rw [offends_iff, not_not, wordAddr_add, ← hwp] at hoff
    rw [Nat.mul_comm] at hdiv
    have hand := hoff a ⟨by omega, by omega⟩
    have hsrc : readAt src c.pos (n * info.width) =
        readAt (target src s₀.flash addr cnt) c.wp (n * info.width) := by
      rw [← readAt_target s₀.flash addr (show c.pos + n * info.width ≤ cnt by omega)]
      congr 1
      have hzero : n * info.width ≠ 0 := by omega
      omega
    have hin : InRange c.wp (n * info.width) a := ⟨by omega, by omega⟩
    rw [hsrc, programAt_readAt]
    dsimp only
    rw [if_pos hin, hflash a (by omega), hand]
  · by_cases hn : n = 0
    · rw [hn, Nat.zero_mul, Nat.add_zero, Nat.add_zero]
      exact hbound
    · have hmul : 0 < n * info.width := Nat.mul_pos (Nat.pos_of_ne_zero hn) width_pos
      left
      dsimp only
      omega

theorem bufferLoop_succ (hbuffer : info.bufferSize ≠ 1) (hle : info.width ≤ c.cnt) {i rc : Nat}
    {s' : CfiState} (hi : min (bufferedSize info - c.wp % bufferedSize info) c.cnt = i)
    (hs' : flashWriteCfibuffer e info c.wp src c.pos i c.s = (rc, s')) :
    writeBufferLoop e info junk src (fuel + 1) c =
      if bufferedSize info = 0 then none
      else if rc ≠ errOk then some (.error ⟨rc, c.pos + i, s'⟩)
      else
        writeBufferLoop e info junk src fuel
          ⟨c.wp + i / info.width * info.width, c.pos + i / info.width * info.width,
            c.cnt - i / info.width * info.width, s'⟩ := by
  have hround : i - i % info.width = i / info.width * info.width := by
    have hdiv := Nat.div_add_mod i info.width
    rw [Nat.mul_comm] at hdiv
    omega
  rw [writeBufferLoop, if_pos hle, if_neg hbuffer]
  dsimp only
  rw [hi, hs', hround]

variable (e junk) in
/-- The loop goes on to the end if every block is taken. -/
theorem bufferLoop_spec (hbuffer : info.bufferSize ≠ 1) (h : Ahead info src addr cnt s₀ k c)
    (hfuel : c.cnt ≤ fuel) :
    (∃ k c', writeBufferLoop e info junk src fuel c = some (.ok c') ∧ c'.cnt < info.width ∧
      Ahead info src addr cnt s₀ k c' ∧ ∀ b ∈ blocks info fuel c.wp c.cnt, Taken info src addr s₀ b) ∨
    ((∀ r, writeBufferLoop e info junk src fuel c = some r → ∃ q, r = .error q ∧ q.rc ≠ 0) ∧
      ¬ ∀ b ∈ blocks info fuel c.wp c.cnt, Taken info src addr s₀ b) := by
  have hw : 0 < info.width := width_pos
  induction fuel generalizing k c with
  | zero => exact .inl ⟨k, c, rfl, by omega, h, fun b hb => absurd hb (List.not_mem_nil)⟩
  | succ fuel ih =>
    by_cases hle : info.width ≤ c.cnt
    swap
    · unfold writeBufferLoop blocks
      rw [if_neg hle, if_neg hle]
      exact .inl ⟨k, c, rfl, by omega, h, fun b hb => absurd hb (List.not_mem_nil)⟩
    rw [blocks, if_pos hle, List.forall_mem_cons]
    generalize hi : min (bufferedSize info - c.wp % bufferedSize info) c.cnt = i
    have hmul : i / info.width * info.width ≤ c.cnt := by
      have hdiv := Nat.div_mul_le_self i info.width
      omega
    have hpos : c.pos = c.wp - addr := by
      have := h.addr_le
      have := h.pos_eq
      have := h.cnt_eq
      omega
    have htaken : Taken info src addr s₀ (c.wp, i / info.width) ↔
        info.vendor ≠ .amdLegacy ∧
          ∃ j < i / info.width, BlockFits info c.s.flash src c.wp c.pos j := by
      unfold Taken
      rw [hpos]
      refine and_congr_right fun _ => exists_congr fun j => and_congr_right fun _ => ?_
      exact blockFits_congr fun a ha => (h.flash a ha).symm
    by_cases hany : ∃ j < i / info.width, BlockFits info c.s.flash src c.wp c.pos j
    swap
    · rw [bufferLoop_succ hbuffer hle hi (flashWriteCfibuffer_refused hany)]
      refine .inr ⟨fun r hr => ?_, fun hall => hany (htaken.mp hall.1).2⟩
      by_cases hzero : bufferedSize info = 0
      · rw [if_pos hzero] at hr
        exact absurd hr (Option.some_ne_none r).symm
      · rw [if_neg hzero, if_pos (by decide)] at hr
        exact ⟨_, (Option.some.inj hr).symm, Nat.succ_ne_zero 1⟩
    -- a size of 0 gives no word
    have hzero : bufferedSize info ≠ 0 := by
      obtain ⟨j, hj, -⟩ := hany
      rintro hzero
      rw [show i = 0 by omega, Nat.zero_div] at hj
      exact Nat.not_lt_zero j hj
    by_cases hvendor : info.vendor = .amdLegacy
    · have hrc := flashWriteCfibuffer_legacy (e := e) hany hvendor
      rw [bufferLoop_succ hbuffer hle hi (Prod.ext hrc rfl), if_neg hzero, if_pos (by decide)]
      refine .inr ⟨fun r hr => ?_, fun hall => hall.1.1 hvendor⟩
      exact ⟨_, (Option.some.inj hr).symm, Nat.succ_ne_zero 7⟩
    obtain ⟨hrc, hflash⟩ := flashWriteCfibuffer_taken (e := e) hany hvendor
    rw [bufferLoop_succ hbuffer hle hi (Prod.ext hrc rfl), if_neg hzero,
      if_neg (not_not.mpr (show 0 = errOk from rfl))]
    have hcount : 0 < i / info.width := by
      obtain ⟨j, hj, -⟩ := hany
      exact Nat.zero_lt_of_lt hj
    have hless : info.width ≤ i / info.width * info.width := Nat.le_mul_of_pos_left _ hcount
    rcases ih (h.block hmul hflash) (by dsimp only; omega) with
      ⟨k', c', hc', hlt, hahead, hrest⟩ | ⟨hend, hrest⟩
    · exact .inl ⟨k', c', hc', hlt, hahead, htaken.mpr ⟨hvendor, hany⟩, hrest⟩
    · exact .inr ⟨hend, fun hall => hrest hall.2⟩

variable (e junk) in
/-- The tail returns 0 if its word fits, and has then made the target of what is as it should be. -/
theorem Ahead.tail (h : Ahead info src addr cnt s₀ k c) (hlt : c.cnt < info.width) :
    ((writeTail e info junk src c).rc = 0 ↔ c.cnt = 0 ∨ ¬ Offends info src s₀.flash addr cnt k) ∧
    ((∀ j, ¬ Offends info src s₀.flash addr cnt j) →
      (writeTail e info junk src c).s.flash = target src s₀.flash addr cnt) := by
  obtain ⟨hwp, haddr, hpos, hcnt, hflash, hclean, -⟩ := h
  have houtside : ∀ a, c.wp + c.cnt ≤ a → target src s₀.flash addr cnt a = s₀.flash a := by
    intro a ha
    apply target_of_not_inRange
    rintro ⟨-, hin⟩
    omega
  unfold writeTail
  by_cases hzero : c.cnt = 0
  · rw [if_pos hzero]
    refine ⟨iff_of_true rfl (.inl hzero), fun hfits => funext fun a => ?_⟩
    dsimp only
    by_cases ha : a < c.wp
    · exact hclean (fun j _ => hfits j) a ha
    · rw [hflash a (by omega), houtside a (by omega)]
  rw [if_neg hzero]
  have hold : readAt c.s.flash (c.wp + c.cnt) (info.width - c.cnt) =
      readAt (target src s₀.flash addr cnt) (c.wp + c.cnt) (info.width - c.cnt) := by
    apply readAt_congr
    intro a ha
    rw [hflash a (Nat.le_of_add_right_le ha.1), houtside a ha.1]
  have hsrc : readAt src c.pos c.cnt = readAt (target src s₀.flash addr cnt) c.wp c.cnt := by
    rw [← readAt_target s₀.flash addr (show c.pos + c.cnt ≤ cnt by omega),
      show addr + c.pos = c.wp by omega]
  dsimp only
  rw [hold, ← List.foldl_append, hsrc, ← readAt_add, Nat.add_sub_of_le (by omega)]
  obtain ⟨hwlt, hbytes⟩ := assembled e info junk
    (length_readAt (target src s₀.flash addr cnt) c.wp info.width)
  have hfits : Fits c.s.flash (target src s₀.flash addr cnt) c.wp info.width ↔
      ¬ Offends info src s₀.flash addr cnt k := by
    rw [offends_iff, not_not, ← hwp]
    exact fits_congr fun a ha => hflash a ha.1
  by_cases hoff : Offends info src s₀.flash addr cnt k
  · rw [flashWriteCfiword_not_fits hwlt hbytes (fun h => hfits.mp h hoff)]
    refine ⟨iff_of_false (Nat.succ_ne_zero 1) ?_, fun hall => absurd hoff (hall k)⟩
    rintro (h | h)
    · exact hzero h
    · exact h hoff
  · obtain ⟨hrc, hs', -⟩ := flashWriteCfiword_fits hwlt hbytes (hfits.mpr hoff)
    refine ⟨iff_of_true hrc (.inr hoff), fun hall => ?_⟩
    rw [hs', programAt_readAt]
    funext a
    by_cases ha : InRange c.wp info.width a
    · rw [if_pos ha, hfits.mpr hoff a ha]
    rw [if_neg ha]
    by_cases hlo : a < c.wp
    · exact hclean (fun j _ => hall j) a hlo
    · have hhi : c.wp + info.width ≤ a := by
        unfold InRange at ha
        omega
      rw [hflash a (by omega), houtside a (by omega)]

/-- The words that are partly outside are those of the head and of the tail. -/
theorem Ahead.edges_iff (h : Ahead info src addr cnt s₀ k c) (hlt : c.cnt < info.width) :
    ((info.headWords addr = 1 → ¬ Offends info src s₀.flash addr cnt 0) ∧
      (c.cnt = 0 ∨ ¬ Offends info src s₀.flash addr cnt k)) ↔
    ∀ k, Partly info addr cnt k → ¬ Offends info src s₀.flash addr cnt k := by
  obtain ⟨hwp, haddr, -, hcnt, -, -, hbound⟩ := h
  have hzero : info.wordAddr addr 0 ≤ addr := wordAddr_zero_le
  have hone : addr < info.wordAddr addr 1 := lt_wordAddr_one
  have hmono : ∀ {i j}, i ≤ j → info.wordAddr addr i ≤ info.wordAddr addr j := by
    intro i j hij
    exact Nat.add_le_add_left (Nat.mul_le_mul_right _ hij) _
  constructor
  · rintro ⟨hhead, htail⟩ m hpartly hoff
    rcases hpartly with hlo | hhi
    · rcases Nat.eq_zero_or_pos m with rfl | hm
      · exact hhead (if_neg (Nat.ne_of_lt hlo)) hoff
      · have hle : info.wordAddr addr 1 ≤ info.wordAddr addr m := hmono hm
        omega
    rcases Nat.lt_trichotomy m k with hm | rfl | hm
    · have hle : info.wordAddr addr (m + 1) ≤ info.wordAddr addr k := hmono hm
      have hk : k = info.headWords addr := hbound.resolve_left (by omega)
      have hheadWords : info.headWords addr = 1 := by
        unfold FlashInfo.headWords at hk ⊢
        split at hk
        · omega
        · next hne => exact if_neg hne
      obtain rfl : m = 0 := by omega
      exact hhead hheadWords hoff
    · rcases htail with hnone | htail
      · exact not_offends_of_le (by omega) (Nat.le_refl m) hoff
      · exact htail hoff
    · have hnext : info.wordAddr addr (k + 1) = info.wordAddr addr k + info.width := wordAddr_succ
      exact not_offends_of_le (k := k + 1) (by omega) hm hoff
  · intro hedges
    refine ⟨fun hhead => hedges 0 (.inl ?_), ?_⟩
    · unfold FlashInfo.headWords at hhead
      split at hhead
      · omega
      · omega
    · by_cases hnone : c.cnt = 0
      · exact .inl hnone
      · refine .inr (hedges k (.inr ?_))
        rw [wordAddr_succ]
        omega

omit info in
/-- A loop that ends the write leaves its result. -/
theorem rc_of_ended {loop : Option (Except WriteEnd Cursor)} {f : Except WriteEnd Cursor → WriteEnd}
    {r : WriteEnd} (hend : ∀ q, loop = some q → ∃ r, q = .error r ∧ r.rc ≠ 0)
    (hf : ∀ r, f (.error r) = r) (hr : loop.map f = some r) : r.rc ≠ 0 := by
  obtain ⟨q, hq, rfl⟩ := Option.map_eq_some_iff.mp hr
  obtain ⟨r, rfl, hne⟩ := hend q hq
  rw [hf]
  exact hne

variable (src addr cnt s₀ e junk) in
/-- What a buffered write comes to. -/
theorem buffered_spec (hbuffer : info.bufferSize ≠ 1) :
    ((∃ r, writeBuffBuffered e info junk src addr cnt s₀ = some r ∧ r.rc = 0) ↔
      (∀ k, Partly info addr cnt k → ¬ Offends info src s₀.flash addr cnt k) ∧
        ∀ b ∈ info.blocksOf addr cnt, Taken info src addr s₀ b) ∧
    ((∀ j, ¬ Offends info src s₀.flash addr cnt j) →
      ∀ r, writeBuffBuffered e info junk src addr cnt s₀ = some r → r.rc = 0 →
        r.s.flash = target src s₀.flash addr cnt) := by
  unfold writeBuffBuffered
  rcases writeHead_spec e info junk src addr cnt s₀ with
    ⟨c, hc, hreached⟩ | ⟨r, hr, hstopped, hhead⟩
  swap
  · have hne : r.rc ≠ 0 := by
      rw [hstopped.rc]
      decide
    rw [hr]
    refine ⟨iff_of_false ?_ ?_, fun hall => absurd hstopped.offends (hall 0)⟩
    · rintro ⟨q, hq, hzero⟩
      obtain rfl := Option.some.inj hq
      exact hne hzero
    · rintro ⟨hedges, -⟩
      refine hedges 0 (.inl ?_) hstopped.offends
      have hle : info.wordAddr addr 0 ≤ addr := wordAddr_zero_le
      unfold FlashInfo.headWords at hhead
      split at hhead
      · omega
      · omega
  have hblocks : info.blocksOf addr cnt = blocks info cnt c.wp c.cnt := by
    rw [FlashInfo.blocksOf, hreached.cnt, hreached.wp]
  have hheadFits : info.headWords addr = 1 → ¬ Offends info src s₀.flash addr cnt 0 :=
    fun hhead => hreached.fits 0 (by omega)
  have hfuel : c.cnt ≤ cnt := by
    have := hreached.pos
    omega
  rw [hc, hblocks]
  dsimp only
  rcases bufferLoop_spec e junk hbuffer hreached.ahead hfuel with
    ⟨k, c', hc', hlt, hahead, htaken⟩ | ⟨hend, htaken⟩
  · obtain ⟨hrc, hflash⟩ := hahead.tail e junk hlt
    rw [hc', ← hahead.edges_iff hlt]
    refine ⟨⟨?_, ?_⟩, ?_⟩
    · rintro ⟨r, hr, hzero⟩
      obtain rfl := Option.some.inj hr
      exact ⟨⟨hheadFits, hrc.mp hzero⟩, htaken⟩
    · rintro ⟨⟨-, htail⟩, -⟩
      exact ⟨_, rfl, hrc.mpr htail⟩
    · rintro hall r hr -
      obtain rfl := Option.some.inj hr
      exact hflash hall
  · refine ⟨iff_of_false ?_ fun h => htaken h.2, fun _ r hr hzero => ?_⟩
    · rintro ⟨r, hr, hzero⟩
      exact rc_of_ended hend (fun _ => rfl) hr hzero
    · exact absurd hzero (rc_of_ended hend (fun _ => rfl) hr)

/-- A chip with a buffer of one byte gets every word by itself. -/
theorem bufferLoop_one (hbuffer : info.bufferSize = 1) :
    writeBufferLoop e info junk src fuel c = some (writeLoop e info junk src fuel c) := by
  induction fuel generalizing c with
  | zero => rfl
  | succ fuel ih =>
    rw [writeBufferLoop, writeLoop]
    by_cases hle : info.width ≤ c.cnt
    · rw [if_pos hle, if_pos hle, if_pos hbuffer]
      cases writeAligned e info junk src c with
      | error r => rfl
      | ok c' => exact ih
    · rw [if_neg hle, if_neg hle]

theorem buffered_one (hbuffer : info.bufferSize = 1) :
    writeBuffBuffered e info junk src addr cnt s₀ = some (writeBuff e info junk src addr cnt s₀) := by
  unfold writeBuffBuffered writeBuff
  cases writeHead e info junk src addr cnt s₀ with
  | error r => rfl
  | ok c =>
    dsimp only [Except.bind]
    rw [bufferLoop_one hbuffer, Option.map_some]

end Loop

/-- The buffered variant returns 0 when the other does, and then leaves the same. -/
def SameWrite (e : Endian) (info : FlashInfo) (junk : UInt32) (src : Contents) (addr cnt : Nat)
    (s : CfiState) : Prop :=
  ((∃ r, writeBuffBuffered e info junk src addr cnt s = some r ∧ r.rc = 0) ↔
      (writeBuff e info junk src addr cnt s).rc = 0) ∧
    ∀ r, writeBuffBuffered e info junk src addr cnt s = some r → r.rc = 0 →
      (writeBuff e info junk src addr cnt s).rc = 0 →
        r.s.flash = (writeBuff e info junk src addr cnt s).s.flash

/-- What the check of whole blocks has to come to: a range that fits is taken block by block, and
one that does not is refused for a word at its edges or for a block. -/
structure BlocksDecide (info : FlashInfo) (src : Contents) (addr cnt : Nat) (s : CfiState) :
    Prop where
  usable : (∀ i < cnt, s.flash (addr + i) &&& src i = src i) →
    ∀ b ∈ info.blocksOf addr cnt, info.vendor ≠ .amdLegacy ∧ 0 < b.2
  refused : ¬ (∀ i < cnt, s.flash (addr + i) &&& src i = src i) →
    (∃ k, Partly info addr cnt k ∧ Offends info src s.flash addr cnt k) ∨
      ∃ b ∈ info.blocksOf addr cnt, info.vendor = .amdLegacy ∨
        ∀ j < b.2, ¬ BlockFits info s.flash src b.1 (b.1 - addr) j

section Same

variable {e : Endian} {info : FlashInfo} {src : Contents} {junk : UInt32} {addr cnt fuel k : Nat}
  {s : CfiState}

/-- Of a block of whole words that fit every word fits. -/
theorem blocks_fits (hall : ∀ i < cnt, s.flash (addr + i) &&& src i = src i) :
    ∀ {fuel k left}, addr ≤ info.wordAddr addr k → left = addr + cnt - info.wordAddr addr k →
      ∀ b ∈ blocks info fuel (info.wordAddr addr k) left, ∀ j < b.2,
        BlockFits info s.flash src b.1 (b.1 - addr) j := by
  intro fuel
  induction fuel with
  | zero => exact fun _ _ b hb => absurd hb List.not_mem_nil
  | succ fuel ih =>
    intro k left haddr hleft b hb j hj
    rw [blocks] at hb
    by_cases hle : info.width ≤ left
    swap
    · rw [if_neg hle] at hb
      exact absurd hb List.not_mem_nil
    rw [if_pos hle] at hb
    dsimp only at hb
    generalize hn : min (bufferedSize info - info.wordAddr addr k % bufferedSize info) left /
      info.width = n at hb
    have hmul : n * info.width ≤ left := by
      rw [← hn]
      exact Nat.le_trans (Nat.div_mul_le_self _ _) (Nat.min_le_right _ _)
    rcases List.mem_cons.mp hb with rfl | hb
    · have hbound : (j + 1) * info.width ≤ n * info.width := Nat.mul_le_mul_right _ hj
      rw [Nat.succ_mul] at hbound
      have hw : 0 < info.width := width_pos
      intro i hi
      dsimp only
      have hfit := hall (info.wordAddr addr k - addr + j * info.width + i) (by omega)
      rwa [show addr + (info.wordAddr addr k - addr + j * info.width + i) =
        info.wordAddr addr k + j * info.width + i by omega] at hfit
    · rw [← wordAddr_add] at hb
      refine ih ?_ ?_ b hb j hj
      · rw [wordAddr_add]
        omega
      · rw [wordAddr_add]
        omega

theorem addr_le_headWords : addr ≤ info.wordAddr addr (info.headWords addr) := by
  unfold FlashInfo.headWords
  split
  · next h => exact Nat.le_of_eq h.symm
  · exact Nat.le_of_lt lt_wordAddr_one

theorem taken_of_fits (hall : ∀ i < cnt, s.flash (addr + i) &&& src i = src i) :
    (∀ b ∈ info.blocksOf addr cnt, Taken info src addr s b) ↔
      ∀ b ∈ info.blocksOf addr cnt, info.vendor ≠ .amdLegacy ∧ 0 < b.2 := by
  refine forall₂_congr fun b hb => and_congr_right fun _ => ?_
  constructor
  · rintro ⟨j, hj, -⟩
    exact Nat.zero_lt_of_lt hj
  · intro hpos
    exact ⟨0, hpos, blocks_fits hall addr_le_headWords rfl b hb 0 hpos⟩

/-- The variants agree if the buffer is not used or the blocks decide as the words do. -/
theorem sameWrite_iff :
    SameWrite e info junk src addr cnt s ↔
      info.bufferSize = 1 ∨ BlocksDecide info src addr cnt s := by
  have hrc := (writeBuff_right e info junk src addr cnt s).1
  by_cases hbuffer : info.bufferSize = 1
  · refine iff_of_true ?_ (.inl hbuffer)
    unfold SameWrite
    rw [buffered_one hbuffer]
    constructor
    · constructor
      · rintro ⟨r, hr, hzero⟩
        obtain rfl := Option.some.inj hr
        exact hzero
      · exact fun hzero => ⟨_, rfl, hzero⟩
    · rintro r hr - -
      obtain rfl := Option.some.inj hr
      rfl
  obtain ⟨hiff, hflash⟩ := buffered_spec src addr cnt s e junk hbuffer
  have hoff := exists_offends_iff info src addr cnt s
  have hnot : ¬ (∀ b ∈ info.blocksOf addr cnt, Taken info src addr s b) ↔
      ∃ b ∈ info.blocksOf addr cnt, info.vendor = .amdLegacy ∨
        ∀ j < b.2, ¬ BlockFits info s.flash src b.1 (b.1 - addr) j := by
    unfold Taken
    push Not
    refine exists_congr fun b => and_congr_right fun _ => ?_
    rw [← or_iff_not_imp_left]
  rw [or_iff_right hbuffer]
  constructor
  · rintro ⟨hsame, -⟩
    rw [hiff, hrc] at hsame
    refine ⟨fun hall => (taken_of_fits hall).mp (hsame.mpr hall).2, fun hfail => ?_⟩
    rw [← hnot]
    by_contra hgood
    push Not at hgood
    exact hfail (hsame.mp hgood)
  · rintro ⟨husable, hrefused⟩
    have hfits : (∀ i < cnt, s.flash (addr + i) &&& src i = src i) →
        ∀ j, ¬ Offends info src s.flash addr cnt j :=
      fun hall j hj => hoff.mp ⟨j, hj⟩ hall
    constructor
    · rw [hiff, hrc]
      constructor
      · rintro ⟨hedges, htaken⟩
        by_contra hfail
        rcases hrefused hfail with ⟨k, hpartly, hbad⟩ | hblock
        · exact hedges k hpartly hbad
        · exact hnot.mpr hblock htaken
      · intro hall
        exact ⟨fun k _ => hfits hall k, (taken_of_fits hall).mpr (husable hall)⟩
    · intro r hr hzero hplain
      rw [hflash (hfits (hrc.mp hplain)) r hr hzero,
        ((writeBuff_right e info junk src addr cnt s).2.1 hplain).2]
      rfl

end Same

/-- **Exactly when buffered writes are right**: a block is treated right if its words are alike,
that is all of them fit or none, and `write_buff` does what it does without buffers if its blocks
are not used or decide as the words do. -/
theorem bufferedWrite_right_iff (e : Endian) (info : FlashInfo) (junk : UInt32) (src : Contents)
    (s : CfiState) :
    (∀ dest pos len, info.width ∣ len → 0 < len →
      (BlockRight e info dest src pos len s ↔
        (∀ j < len / info.width, BlockFits info s.flash src dest pos j) ∨
        (∀ j < len / info.width, ¬ BlockFits info s.flash src dest pos j))) ∧
    ∀ addr cnt, SameWrite e info junk src addr cnt s ↔
      info.bufferSize = 1 ∨ BlocksDecide info src addr cnt s :=
  ⟨fun _ _ _ hlen hpos => blockRight_iff hlen hpos, fun _ _ => sameWrite_iff⟩

/-- Two bytes of which only the first can be programmed. -/
def halfErased : CfiState := ⟨fun a => if a = 0 then 0xFF else 0, 0, []⟩

/-- Over a blank bank a block is treated right. -/
theorem bufferedWrite_right_blank :
    BlockRight .little narrowBank 0 (fun _ => 0x5A) 0 2 ⟨fun _ => 0xFF, 0, []⟩ :=
  ((bufferedWrite_right_iff .little narrowBank 0 (fun _ => 0x5A) ⟨fun _ => 0xFF, 0, []⟩).1
    0 0 2 (by decide) (by decide)).mpr (.inl (by decide))

/-- A block with one word that fits and one that does not is taken, and `write_buff` returns 0. -/
theorem not_bufferedWrite_right :
    ¬ BlockRight .little narrowBank 0 (fun _ => 0x5A) 0 2 halfErased ∧
      ¬ SameWrite .little narrowBank 0 (fun _ => 0x5A) 0 2 halfErased := by
  constructor
  · intro h
    have hrc := (h.mpr ⟨1, by decide, by decide⟩).1
    have hok : (flashWriteCfibuffer .little narrowBank 0 (fun _ => 0x5A) 0 2 halfErased).1 = errOk := by
      decide
    exact absurd (hok.symm.trans hrc) (by decide)
  · intro h
    have hbuffered : ∃ r, writeBuffBuffered .little narrowBank 0 (fun _ => 0x5A) 0 2 halfErased =
        some r ∧ r.rc = 0 := ⟨_, rfl, rfl⟩
    have hrc : (writeBuff .little narrowBank 0 (fun _ => 0x5A) 0 2 halfErased).rc = errNotErased := by
      decide
    exact absurd (hrc.symm.trans (h.1.mp hbuffered)) (by decide)

end UBoot.Drivers.Cfi
