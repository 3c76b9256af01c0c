import UBoot.Drivers.CfiFlash
import UBoot.Lib.Programming

/-!
# What `write_buff` writes

The flash is to hold the source in the range and what it holds already elsewhere (`target`).
Wherever the head, the aligned part and the tail take the bytes of a word from, the word has the
bytes of the target in memory; it is programmed if it fits, and otherwise the write ends there
(`writeWord_spec`).  So the words that are reached hold the target and the others are as before
(`Reached`), and the write goes on to the end or stops at the first word that offends
(`writeBuff_spec`).
-/

namespace UBoot.Drivers.Cfi

open UBoot.Lib

/-- What the flash is to hold. -/
def target (src flash : Contents) (addr cnt : Nat) : Contents :=
  storeAt flash addr (readAt src 0 cnt)

/-- The address of the word with this number, from the one that `addr` lies in. -/
def FlashInfo.wordAddr (info : FlashInfo) (addr k : Nat) : Nat :=
  addr / info.width * info.width + k * info.width

/-- How many words the head writes. -/
def FlashInfo.headWords (info : FlashInfo) (addr : Nat) : Nat :=
  if info.wordAddr addr 0 = addr then 0 else 1

/-- Some bit of the source would have to be set in this word. -/
def Offends (info : FlashInfo) (src flash : Contents) (addr cnt k : Nat) : Prop :=
  ∃ i < cnt, InRange (info.wordAddr addr k) info.width (addr + i) ∧
    flash (addr + i) &&& src i ≠ src i

/-- The addresses of the data cycles. -/
def dataAddrs (bus : List BusWrite) : List Nat :=
  bus.filterMap fun
    | .data addr _ => some addr
    | .cmd .. => none

section Words

variable {e : Endian} {info : FlashInfo} {src flash : Contents} {junk : UInt32}
  {addr cnt dest cword k : Nat} {data : Bytes} {s : CfiState}

theorem PortWidth.bytes_pos (p : PortWidth) : 0 < p.bytes := Nat.two_pow_pos _

theorem width_pos : 0 < info.width := info.portwidth.bytes_pos

theorem wordAddr_succ : info.wordAddr addr (k + 1) = info.wordAddr addr k + info.width := by
  rw [FlashInfo.wordAddr, FlashInfo.wordAddr, Nat.succ_mul, Nat.add_assoc]

theorem wordAddr_zero_le : info.wordAddr addr 0 ≤ addr := by
  rw [FlashInfo.wordAddr, Nat.zero_mul, Nat.add_zero]
  exact Nat.div_mul_le_self _ _

theorem lt_wordAddr_one : addr < info.wordAddr addr 1 := by
  rw [FlashInfo.wordAddr, Nat.one_mul]
  exact Nat.lt_div_mul_add width_pos

/-! ## The target -/

theorem target_apply (a : Nat) :
    target src flash addr cnt a = if InRange addr cnt a then src (a - addr) else flash a := by
  rw [target, storeAt, length_readAt]
  by_cases h : InRange addr cnt a
  · obtain ⟨hle, hlt⟩ := h
    have hsrc : (readAt src 0 cnt)[a - addr]? = some (src (0 + (a - addr))) :=
      getElem?_readAt (by omega)
    rw [if_pos ⟨hle, hlt⟩, if_pos ⟨hle, hlt⟩, List.getD_eq_getElem?_getD, hsrc, Nat.zero_add,
      Option.getD_some]
  · rw [if_neg h, if_neg h]

theorem target_add {i : Nat} (h : i < cnt) : target src flash addr cnt (addr + i) = src i := by
  rw [target_apply, if_pos ⟨Nat.le_add_right _ _, by omega⟩, Nat.add_sub_cancel_left]

theorem target_of_not_inRange {a : Nat} (h : ¬ InRange addr cnt a) :
    target src flash addr cnt a = flash a := by
  rw [target_apply, if_neg h]

variable (flash addr) in
/-- The source bytes of the target. -/
theorem readAt_target {pos len : Nat} (h : pos + len ≤ cnt) :
    readAt (target src flash addr cnt) (addr + pos) len = readAt src pos len := by
  apply List.ext_getElem?
  intro i
  by_cases hi : i < len
  · rw [getElem?_readAt hi, getElem?_readAt hi, Nat.add_assoc, target_add (by omega)]
  · rw [List.getElem?_eq_none (by simpa using hi), List.getElem?_eq_none (by simpa using hi)]

theorem readAt_target_apart {pos len : Nat} (h : pos + len ≤ addr ∨ addr + cnt ≤ pos) :
    readAt (target src flash addr cnt) pos len = readAt flash pos len := by
  apply readAt_congr
  rintro a ⟨hle, hlt⟩
  apply target_of_not_inRange
  rintro ⟨hle', hlt'⟩
  omega

theorem offends_iff : Offends info src flash addr cnt k ↔
    ¬ Fits flash (target src flash addr cnt) (info.wordAddr addr k) info.width := by
  constructor
  · rintro ⟨i, hi, hin, hne⟩ hfits
    have hand := hfits _ hin
    rw [target_add hi] at hand
    exact hne hand
  · intro hfits
    obtain ⟨a, hne⟩ := not_forall.mp hfits
    obtain ⟨hin, hne⟩ := Classical.not_imp.mp hne
    by_cases ha : InRange addr cnt a
    · obtain ⟨i, rfl⟩ := Nat.exists_eq_add_of_le ha.1
      have hi : i < cnt := Nat.lt_of_add_lt_add_left ha.2
      rw [target_add hi] at hne
      exact ⟨i, hi, hin, hne⟩
    · rw [target_of_not_inRange ha, UInt8.and_self] at hne
      exact absurd rfl hne

/-! ## Words -/

theorem flashAddByte_eq {v : Nat} (hv : v < 2 ^ (8 * info.width)) (c : UInt8) :
    flashAddByte e info v c = shiftIn e info.width v c := by
  unfold flashAddByte
  split
  · next hport =>
    have hwidth : info.width = 1 := by rw [FlashInfo.width, hport]; rfl
    rw [hwidth] at hv ⊢
    have hc := c.toNat_lt
    cases e with
    | little =>
      have hzero : v / 256 = 0 := Nat.div_eq_of_lt hv
      rw [shiftIn, shiftRight_or Nat.one_pos hv, hzero, Nat.zero_add]
      exact (Nat.mul_one _).symm
    | big =>
      rw [shiftIn, shiftLeft_or]
      omega
  · rfl

theorem startWord_lt : startWord e info junk < 2 ^ (8 * info.width) := by
  have hjunk := junk.toNat_lt
  unfold startWord
  split
  · next hport =>
    have hwidth : info.width = 8 := by rw [FlashInfo.width, hport]; rfl
    rw [hwidth]
    omega
  · next hport =>
    have hwidth : info.width = 8 := by rw [FlashInfo.width, hport]; rfl
    rw [hwidth]
    omega
  · exact Nat.two_pow_pos _

theorem foldl_flashAddByte {v : Nat} {bs : Bytes} (hv : v < 2 ^ (8 * info.width)) :
    bs.foldl (flashAddByte e info) v = bs.foldl (shiftIn e info.width) v := by
  induction bs generalizing v with
  | nil => rfl
  | cons c bs ih =>
    rw [List.foldl_cons, List.foldl_cons, flashAddByte_eq hv, ih (shiftIn_lt width_pos hv)]

variable (e info junk) in
/-- A word of bytes that are added one after the other has them in memory. -/
theorem assembled {bs : Bytes} (hbs : bs.length = info.width) :
    bs.foldl (flashAddByte e info) (startWord e info junk) < 2 ^ (8 * info.width) ∧
      bytesOf e info.width (bs.foldl (flashAddByte e info) (startWord e info junk)) = bs := by
  obtain ⟨hlt, hbytes⟩ := bytesOf_foldl_shiftIn (e := e) width_pos
    (startWord_lt : startWord e info junk < _) (Nat.le_of_eq hbs)
  rw [foldl_flashAddByte startWord_lt]
  refine ⟨hlt, ?_⟩
  rw [hbytes, hbs, List.drop_of_length_le (by rw [length_bytesOf]), List.nil_append]

/-! ## The bus -/

@[simp] theorem writeCmd_flash (sect offset cmd : Nat) (s : CfiState) :
    (s.writeCmd sect offset cmd).flash = s.flash := rfl

@[simp] theorem dataAddrs_writeCmd (sect offset cmd : Nat) (s : CfiState) :
    dataAddrs (s.writeCmd sect offset cmd).bus = dataAddrs s.bus := by
  rw [CfiState.writeCmd, dataAddrs, List.filterMap_append, ← dataAddrs]
  exact List.append_nil _

@[simp] theorem flashUnlockSeq_flash (sect : Nat) (s : CfiState) :
    (flashUnlockSeq info sect s).flash = s.flash := rfl

@[simp] theorem dataAddrs_flashUnlockSeq (sect : Nat) (s : CfiState) :
    dataAddrs (flashUnlockSeq info sect s).bus = dataAddrs s.bus := by
  rw [flashUnlockSeq, dataAddrs_writeCmd, dataAddrs_writeCmd]

@[simp] theorem flashWrite_flash (word a : Nat) (s : CfiState) :
    (flashWrite e info word a s).flash = programAt s.flash a (bytesOf e info.width word) := rfl

@[simp] theorem dataAddrs_flashWrite (word a : Nat) (s : CfiState) :
    dataAddrs (flashWrite e info word a s).bus = dataAddrs s.bus ++ [a] := by
  rw [flashWrite, dataAddrs, List.filterMap_append, ← dataAddrs]
  rfl

@[simp] theorem findSector_flash (a : Nat) (s : CfiState) :
    (s.findSector info a).2.flash = s.flash := rfl

@[simp] theorem findSector_bus (a : Nat) (s : CfiState) :
    (s.findSector info a).2.bus = s.bus := rfl

@[simp] theorem fullStatusCheck_fst (sect : Nat) (s : CfiState) :
    (flashFullStatusCheck info sect s).1 = errOk := by
  unfold flashFullStatusCheck
  split <;> rfl

@[simp] theorem fullStatusCheck_flash (sect : Nat) (s : CfiState) :
    (flashFullStatusCheck info sect s).2.flash = s.flash := by
  unfold flashFullStatusCheck
  split <;> rfl

@[simp] theorem dataAddrs_fullStatusCheck (sect : Nat) (s : CfiState) :
    dataAddrs (flashFullStatusCheck info sect s).2.bus = dataAddrs s.bus := by
  unfold flashFullStatusCheck
  split
  · exact dataAddrs_writeCmd _ _ _ _
  · exact dataAddrs_writeCmd _ _ _ _
  · exact dataAddrs_writeCmd _ _ _ _
  · rfl

theorem flag_iff {t : Contents} (hlt : cword < 2 ^ (8 * info.width))
    (hword : bytesOf e info.width cword = readAt t dest info.width) :
    flashRead e info flash dest &&& cword = cword ↔ Fits flash t dest info.width := by
  have hread := bytesOf_wordOf e (readAt flash dest info.width)
  rw [length_readAt] at hread
  rw [and_eq_iff (e := e) hlt, flashRead, hread, hword, fits_iff]

/-- A word that fits is programmed in one data cycle. -/
theorem flashWriteCfiword_fits {t : Contents} (hlt : cword < 2 ^ (8 * info.width))
    (hword : bytesOf e info.width cword = readAt t dest info.width)
    (hfits : Fits s.flash t dest info.width) :
    (flashWriteCfiword e info dest cword s).1 = 0 ∧
      (flashWriteCfiword e info dest cword s).2.flash =
        programAt s.flash dest (readAt t dest info.width) ∧
      dataAddrs (flashWriteCfiword e info dest cword s).2.bus = dataAddrs s.bus ++ [dest] := by
  unfold flashWriteCfiword
  rw [if_neg (not_not.mpr ((flag_iff hlt hword).mpr hfits)), ← hword]
  split
  all_goals
    dsimp only
    refine ⟨fullStatusCheck_fst _ _, ?_, ?_⟩
    · simp
    · simp

/-- Nothing is done to any other. -/
theorem flashWriteCfiword_not_fits {t : Contents} (hlt : cword < 2 ^ (8 * info.width))
    (hword : bytesOf e info.width cword = readAt t dest info.width)
    (hfits : ¬ Fits s.flash t dest info.width) :
    flashWriteCfiword e info dest cword s = (errNotErased, s) := by
  unfold flashWriteCfiword
  rw [if_pos fun h => hfits ((flag_iff hlt hword).mp h)]

end Words

/-! ## From word to word -/

section Write

variable (e : Endian) (info : FlashInfo) (junk : UInt32) (src : Contents) (addr cnt : Nat)
  (s₀ : CfiState)

/-- The words in front of the one with this number are programmed, and no other is touched. -/
structure Programmed (k : Nat) (s : CfiState) : Prop where
  flash : s.flash = upTo (target src s₀.flash addr cnt) s₀.flash (info.wordAddr addr k)
  bus : dataAddrs s.bus = dataAddrs s₀.bus ++ List.range' (info.wordAddr addr 0) k info.width
  fits : ∀ j < k, ¬ Offends info src s₀.flash addr cnt j

/-- The cursor is at this word. -/
structure Reached (k : Nat) (c : Cursor) : Prop extends Programmed info src addr cnt s₀ k c.s where
  wp : c.wp = info.wordAddr addr k
  addr_le : addr ≤ c.wp
  pos : c.pos + c.cnt = cnt
  cnt : c.cnt = addr + cnt - c.wp

/-- The write has stopped at this word. -/
structure Stopped (k : Nat) (r : WriteEnd) : Prop extends Programmed info src addr cnt s₀ k r.s where
  rc : r.rc = errNotErased
  read : r.read = min cnt (info.wordAddr addr (k + 1) - addr)
  offends : Offends info src s₀.flash addr cnt k

/-- It has come to the end. -/
structure Done (r : WriteEnd) : Prop where
  rc : r.rc = 0
  read : r.read = cnt
  flash : r.s.flash = target src s₀.flash addr cnt
  fits : ∀ j, ¬ Offends info src s₀.flash addr cnt j

variable {e info junk src addr cnt s₀} {k cword read fuel : Nat} {s : CfiState} {c : Cursor}

theorem programmed_zero : Programmed info src addr cnt s₀ 0 s₀ where
  flash := by
    refine (upTo_eq_self fun a ha => ?_).symm
    have hle : info.wordAddr addr 0 ≤ addr := wordAddr_zero_le
    refine (target_of_not_inRange ?_).symm
    rintro ⟨hin, -⟩
    omega
  bus := (List.append_nil _).symm
  fits := fun j hj => absurd hj (Nat.not_lt_zero j)

/-- No word behind the range offends. -/
theorem not_offends_of_le (h : addr + cnt ≤ info.wordAddr addr k) {j : Nat} (hj : k ≤ j) :
    ¬ Offends info src s₀.flash addr cnt j := by
  rintro ⟨i, hi, ⟨hle, -⟩, -⟩
  have hmul : k * info.width ≤ j * info.width := Nat.mul_le_mul_right _ hj
  unfold FlashInfo.wordAddr at h hle
  omega

theorem writeWord_spec (h : Programmed info src addr cnt s₀ k s)
    (hlt : cword < 2 ^ (8 * info.width))
    (hword : bytesOf e info.width cword =
      readAt (target src s₀.flash addr cnt) (info.wordAddr addr k) info.width) :
    (∃ s', flashWriteCfiword e info (info.wordAddr addr k) cword s = (0, s') ∧
      Programmed info src addr cnt s₀ (k + 1) s') ∨
    (flashWriteCfiword e info (info.wordAddr addr k) cword s = (errNotErased, s) ∧
      Offends info src s₀.flash addr cnt k) := by
  have hfits : Fits s.flash (target src s₀.flash addr cnt) (info.wordAddr addr k) info.width ↔
      ¬ Offends info src s₀.flash addr cnt k := by
    rw [h.flash, fits_upTo, offends_iff, not_not]
  by_cases hoff : Offends info src s₀.flash addr cnt k
  · refine .inr ⟨flashWriteCfiword_not_fits hlt hword ?_, hoff⟩
    rwa [hfits, not_not]
  · obtain ⟨hrc, hflash, hbus⟩ := flashWriteCfiword_fits hlt hword (hfits.mpr hoff)
    refine .inl ⟨_, Prod.ext hrc rfl, ?_, ?_, ?_⟩
    · rw [hflash, h.flash, programAt_upTo, wordAddr_succ]
      rwa [offends_iff, not_not] at hoff
    · rw [hbus, h.bus, List.range'_concat, List.append_assoc]
      rw [Nat.mul_comm, show info.wordAddr addr 0 + k * info.width = info.wordAddr addr k from ?_]
      rw [FlashInfo.wordAddr, FlashInfo.wordAddr, Nat.zero_mul, Nat.add_zero]
    · intro j hj
      rcases Nat.lt_succ_iff_lt_or_eq.mp hj with hj | rfl
      · exact h.fits j hj
      · exact hoff

/-- A word of the head or of the aligned part. -/
theorem writeWord_map (h : Programmed info src addr cnt s₀ k s)
    (hlt : cword < 2 ^ (8 * info.width))
    (hword : bytesOf e info.width cword =
      readAt (target src s₀.flash addr cnt) (info.wordAddr addr k) info.width)
    (hread : read = min cnt (info.wordAddr addr (k + 1) - addr))
    (haddr : addr ≤ info.wordAddr addr (k + 1)) {wp pos cnt' : Nat}
    (hwp : wp = info.wordAddr addr (k + 1)) (hpos : pos = read) (hcnt : cnt' = cnt - read) :
    (∃ c, (writeWord e info (info.wordAddr addr k) read cword s).map
        (fun s => (⟨wp, pos, cnt', s⟩ : Cursor)) = .ok c ∧ Reached info src addr cnt s₀ (k + 1) c) ∨
    (∃ r, (writeWord e info (info.wordAddr addr k) read cword s).map
        (fun s => (⟨wp, pos, cnt', s⟩ : Cursor)) = .error r ∧ Stopped info src addr cnt s₀ k r) := by
  unfold writeWord
  rcases writeWord_spec h hlt hword with ⟨s', hs', hprog⟩ | ⟨hs', hoff⟩
  · rw [hs']
    refine .inl ⟨_, rfl, hprog, hwp, ?_, ?_, ?_⟩
    · exact hwp ▸ haddr
    · dsimp only
      omega
    · dsimp only
      omega
  · rw [hs']
    exact .inr ⟨_, rfl, h, rfl, hread, hoff⟩

theorem wordAddr_zero : info.wordAddr addr 0 = addr / info.width * info.width := by
  rw [FlashInfo.wordAddr, Nat.zero_mul, Nat.add_zero]

variable (info src s₀) in
/-- A word of old bytes, source bytes and old bytes is one of the target. -/
theorem readAt_target_head {wp aln n : Nat} (haddr : addr = wp + aln) (haln : aln ≤ info.width)
    (hn : n = min (info.width - aln) cnt) :
    readAt s₀.flash wp aln ++ readAt src 0 n ++
        readAt s₀.flash (wp + (aln + n)) (info.width - (aln + n)) =
      readAt (target src s₀.flash addr cnt) wp info.width := by
  have hsplit : info.width = aln + n + (info.width - (aln + n)) := by omega
  conv_rhs => rw [hsplit, readAt_add, readAt_add]
  rw [readAt_target_apart (by omega), ← haddr]
  have hsrc : readAt (target src s₀.flash addr cnt) (addr + 0) n = readAt src 0 n :=
    readAt_target s₀.flash addr (by omega)
  rw [Nat.add_zero] at hsrc
  rw [hsrc]
  by_cases hlt : aln + n < info.width
  · rw [readAt_target_apart (by omega)]
  · rw [show info.width - (aln + n) = 0 by omega]
    rfl

variable (e info junk src addr cnt s₀) in
theorem writeHead_spec :
    (∃ c, writeHead e info junk src addr cnt s₀ = .ok c ∧
      Reached info src addr cnt s₀ (info.headWords addr) c) ∨
    (∃ r, writeHead e info junk src addr cnt s₀ = .error r ∧ Stopped info src addr cnt s₀ 0 r ∧
      info.headWords addr = 1) := by
  have hprog : Programmed info src addr cnt s₀ 0 s₀ := programmed_zero
  have hle : info.wordAddr addr 0 ≤ addr := wordAddr_zero_le
  have hlt : addr < info.wordAddr addr 1 := lt_wordAddr_one
  rw [wordAddr_succ] at hlt
  unfold writeHead FlashInfo.headWords
  rw [← wordAddr_zero]
  dsimp only
  generalize hwp : info.wordAddr addr 0 = wp at hle hlt ⊢
  by_cases haln : wp = addr
  · rw [if_neg (by omega), if_pos haln]
    refine .inl ⟨_, rfl, hprog, hwp.symm, ?_, Nat.zero_add _, ?_⟩
    · dsimp only
      omega
    · dsimp only
      omega
  rw [if_pos (by omega), if_neg haln]
  generalize hn : min (info.width - (addr - wp)) cnt = n
  -- the third loop runs to the end of the word, also where it does not run
  have hi : (if cnt - n = 0 then info.width else addr - wp + n) = info.width := by
    split
    · rfl
    · omega
  have hword := readAt_target_head info src s₀
    (show addr = wp + (addr - wp) by omega) (by omega) hn.symm
  rw [hi, ← List.foldl_append, ← List.foldl_append, ← List.append_assoc, hword]
  obtain ⟨hwlt, hbytes⟩ := assembled e info junk
    (length_readAt (target src s₀.flash addr cnt) wp info.width)
  subst hwp
  rcases writeWord_map hprog hwlt hbytes
      (show n = min cnt (info.wordAddr addr 1 - addr) by rw [wordAddr_succ]; omega)
      (by rw [wordAddr_succ]; omega) wordAddr_succ.symm (rfl : n = n) (rfl : cnt - n = _) with
    ⟨c, hc, hreached⟩ | ⟨r, hr, hstopped⟩
  · exact .inl ⟨c, hc, hreached⟩
  · exact .inr ⟨r, hr, hstopped, rfl⟩

variable (e junk) in
theorem writeAligned_spec (h : Reached info src addr cnt s₀ k c) (hle : info.width ≤ c.cnt) :
    (∃ c', writeAligned e info junk src c = .ok c' ∧ c'.cnt = c.cnt - info.width ∧
      Reached info src addr cnt s₀ (k + 1) c') ∨
    (∃ r, writeAligned e info junk src c = .error r ∧ Stopped info src addr cnt s₀ k r) := by
  obtain ⟨hprog, hwp, haddr, hpos, hcnt⟩ := h
  have hw : 0 < info.width := width_pos
  have hsrc : readAt src c.pos info.width =
      readAt (target src s₀.flash addr cnt) (info.wordAddr addr k) info.width := by
    rw [← readAt_target s₀.flash addr (show c.pos + info.width ≤ cnt by omega), ← hwp,
      show addr + c.pos = c.wp by omega]
  obtain ⟨hwlt, hbytes⟩ := assembled e info junk
    (length_readAt (target src s₀.flash addr cnt) (info.wordAddr addr k) info.width)
  unfold writeAligned
  rw [hsrc, hwp]
  rcases writeWord_map hprog hwlt hbytes
      (show c.pos + info.width = min cnt (info.wordAddr addr (k + 1) - addr) by
        rw [wordAddr_succ]; omega)
      (by rw [wordAddr_succ]; omega) wordAddr_succ.symm rfl
      (show c.cnt - info.width = cnt - (c.pos + info.width) by omega) with
    ⟨c', hc, hreached⟩ | ⟨r, hr, hstopped⟩
  · refine .inl ⟨c', hc, ?_, hreached⟩
    have hcnt' := hreached.cnt
    rw [hreached.wp, wordAddr_succ] at hcnt'
    omega
  · exact .inr ⟨r, hr, hstopped⟩

variable (e junk) in
theorem writeLoop_spec (h : Reached info src addr cnt s₀ k c) (hfuel : c.cnt ≤ fuel) :
    (∃ k c', writeLoop e info junk src fuel c = .ok c' ∧ c'.cnt < info.width ∧
      Reached info src addr cnt s₀ k c') ∨
    (∃ k r, writeLoop e info junk src fuel c = .error r ∧ Stopped info src addr cnt s₀ k r) := by
  have hw : 0 < info.width := width_pos
  induction fuel generalizing k c with
  | zero => exact .inl ⟨k, c, rfl, by omega, h⟩
  | succ fuel ih =>
    unfold writeLoop
    by_cases hle : info.width ≤ c.cnt
    swap
    · rw [if_neg hle]
      exact .inl ⟨k, c, rfl, by omega, h⟩
    rw [if_pos hle]
    rcases writeAligned_spec e junk h hle with
      ⟨c', hc, hcnt, hreached⟩ | ⟨r, hr, hstopped⟩
    · rw [hc]
      exact ih hreached (by omega)
    · rw [hr]
      exact .inr ⟨k, r, rfl, hstopped⟩

theorem Reached.fits_target (h : Reached info src addr cnt s₀ k c) (hcnt : c.cnt = 0) :
    Done info src addr cnt s₀ ⟨0, c.pos, c.s⟩ := by
  obtain ⟨hprog, hwp, haddr, hpos, hleft⟩ := h
  have hend : addr + cnt ≤ info.wordAddr addr k := by omega
  refine ⟨rfl, ?_, ?_, ?_⟩
  · dsimp only
    omega
  · refine hprog.flash.trans (upTo_eq_target fun a ha => ?_)
    refine (target_of_not_inRange ?_).symm
    rintro ⟨-, hin⟩
    omega
  · intro j
    by_cases hj : j < k
    · exact hprog.fits j hj
    · exact not_offends_of_le hend (Nat.le_of_not_lt hj)

variable (e junk) in
theorem writeTail_spec (h : Reached info src addr cnt s₀ k c) (hlt : c.cnt < info.width) :
    Done info src addr cnt s₀ (writeTail e info junk src c) ∨
    Stopped info src addr cnt s₀ k (writeTail e info junk src c) := by
  unfold writeTail
  by_cases hzero : c.cnt = 0
  · rw [if_pos hzero]
    exact .inl (h.fits_target hzero)
  rw [if_neg hzero]
  obtain ⟨hprog, hwp, haddr, hpos, hcnt⟩ := h
  have hold : readAt c.s.flash (c.wp + c.cnt) (info.width - c.cnt) =
      readAt (target src s₀.flash addr cnt) (c.wp + c.cnt) (info.width - c.cnt) := by
    rw [hprog.flash, readAt_upTo (by omega), readAt_target_apart (by omega)]
  have hsrc : readAt src c.pos c.cnt = readAt (target src s₀.flash addr cnt) c.wp c.cnt := by
    rw [← readAt_target s₀.flash addr (show c.pos + c.cnt ≤ cnt by omega),
      show addr + c.pos = c.wp by omega]
  dsimp only
  rw [hold, ← List.foldl_append, hsrc, ← readAt_add, Nat.add_sub_of_le (by omega), hwp]
  obtain ⟨hwlt, hbytes⟩ := assembled e info junk
    (length_readAt (target src s₀.flash addr cnt) (info.wordAddr addr k) info.width)
  rcases writeWord_spec hprog hwlt hbytes with ⟨s', hs', hprog'⟩ | ⟨hs', hoff⟩
  · have hreached : Reached info src addr cnt s₀ (k + 1) ⟨c.wp + info.width, cnt, 0, s'⟩ := by
      refine ⟨hprog', ?_, ?_, rfl, ?_⟩
      · rw [wordAddr_succ, hwp]
      · dsimp only
        omega
      · dsimp only
        omega
    rw [hs', show c.pos + c.cnt = cnt by omega]
    exact .inl (hreached.fits_target rfl)
  · rw [hs']
    refine .inr ⟨hprog, rfl, ?_, hoff⟩
    rw [wordAddr_succ]
    dsimp only
    omega

/-- The write goes on to the end or stops at the first word that offends. -/
theorem writeBuff_spec (e : Endian) (info : FlashInfo) (junk : UInt32) (src : Contents)
    (addr cnt : Nat) (s₀ : CfiState) :
    Done info src addr cnt s₀ (writeBuff e info junk src addr cnt s₀) ∨
    ∃ k, Stopped info src addr cnt s₀ k (writeBuff e info junk src addr cnt s₀) := by
  unfold writeBuff
  rcases writeHead_spec e info junk src addr cnt s₀ with
    ⟨c, hc, hreached⟩ | ⟨r, hr, hstopped, -⟩
  swap
  · rw [hr]
    exact .inr ⟨0, hstopped⟩
  have hfuel : c.cnt ≤ cnt := by
    have := hreached.pos
    omega
  rw [hc]
  rcases writeLoop_spec e junk hreached hfuel with
    ⟨k', c', hc', hlt, hreached'⟩ | ⟨k', r, hr, hstopped⟩
  · dsimp only [Except.bind]
    rw [hc']
    rcases writeTail_spec e junk hreached' hlt with hdone | hstopped
    · exact .inl hdone
    · exact .inr ⟨k', hstopped⟩
  · dsimp only [Except.bind]
    rw [hr]
    exact .inr ⟨k', hstopped⟩

variable (info src addr cnt s₀) in
theorem exists_offends_iff : (∃ k, Offends info src s₀.flash addr cnt k) ↔
    ¬ ∀ i < cnt, s₀.flash (addr + i) &&& src i = src i := by
  constructor
  · rintro ⟨k, i, hi, -, hne⟩ hall
    exact hne (hall i hi)
  · intro h
    obtain ⟨i, hne⟩ := not_forall.mp h
    obtain ⟨hi, hne⟩ := Classical.not_imp.mp hne
    have hw : 0 < info.width := width_pos
    have hdiv := Nat.div_add_mod (addr + i - addr / info.width * info.width) info.width
    have hmod := Nat.mod_lt (addr + i - addr / info.width * info.width) hw
    have hle := Nat.div_mul_le_self addr info.width
    refine ⟨(addr + i - addr / info.width * info.width) / info.width, i, hi, ?_, hne⟩
    rw [Nat.mul_comm] at hdiv
    constructor
    · rw [FlashInfo.wordAddr]
      omega
    · rw [FlashInfo.wordAddr]
      omega

end Write

/-- **What a write returns, reads and leaves**: it returns 0 if every byte can be programmed, and
then it has read the source and the range holds it; otherwise it stops at the first word that
offends, has read the source to the end of this word, and has programmed the words in front. -/
theorem writeBuff_right (e : Endian) (info : FlashInfo) (junk : UInt32) (src : Contents)
    (addr cnt : Nat) (s : CfiState) :
    ((writeBuff e info junk src addr cnt s).rc = 0 ↔
      ∀ i < cnt, s.flash (addr + i) &&& src i = src i) ∧
    ((writeBuff e info junk src addr cnt s).rc = 0 →
      (writeBuff e info junk src addr cnt s).read = cnt ∧
      (writeBuff e info junk src addr cnt s).s.flash = storeAt s.flash addr (readAt src 0 cnt)) ∧
    ((writeBuff e info junk src addr cnt s).rc ≠ 0 →
      (writeBuff e info junk src addr cnt s).rc = errNotErased ∧
      ∃ k, Offends info src s.flash addr cnt k ∧ (∀ j < k, ¬ Offends info src s.flash addr cnt j) ∧
        (writeBuff e info junk src addr cnt s).read =
          min cnt (info.wordAddr addr (k + 1) - addr) ∧
        (writeBuff e info junk src addr cnt s).s.flash =
          upTo (target src s.flash addr cnt) s.flash (info.wordAddr addr k) ∧
        dataAddrs (writeBuff e info junk src addr cnt s).s.bus =
          dataAddrs s.bus ++ List.range' (info.wordAddr addr 0) k info.width) := by
  have hall := exists_offends_iff info src addr cnt s
  rcases writeBuff_spec e info junk src addr cnt s with
    ⟨hrc, hread, hflash, hfits⟩ | ⟨k, ⟨hflash, hbus, hbefore⟩, hrc, hread, hoff⟩
  · refine ⟨iff_of_true hrc ?_, fun _ => ⟨hread, hflash⟩, fun h => absurd hrc h⟩
    by_contra hne
    obtain ⟨k, hoff⟩ := hall.mpr hne
    exact hfits k hoff
  · have hne : (writeBuff e info junk src addr cnt s).rc ≠ 0 := by
      rw [hrc]
      decide
    refine ⟨iff_of_false hne (hall.mp ⟨k, hoff⟩), fun h => absurd h hne, fun _ => ⟨hrc, ?_⟩⟩
    exact ⟨k, hoff, hbefore, hread, hflash, hbus⟩

/-- A bank of one sector, eight bits wide. -/
def narrowBank : FlashInfo where
  sectorCount := 1
  start := fun _ => 0
  portwidth := .flashCfi8bit
  chipwidth := 1
  bufferSize := 32
  vendor := .intelStandard
  cmdReset := 0xFF
  addrUnlock1 := 0
  addrUnlock2 := 0
  spansionS29wsN := false
  sectorCount_pos := Nat.one_pos

/-- Two bytes over programmed flash: the second is not read. -/
theorem not_writeBuff_reads_all :
    ¬ ∀ (e : Endian) (info : FlashInfo) (junk : UInt32) (src : Contents) (addr cnt : Nat)
      (s : CfiState), (writeBuff e info junk src addr cnt s).read = cnt := by
  intro h
  have hread := h .little narrowBank 0 (fun _ => 0xFF) 0 2 ⟨fun _ => 0, 0, []⟩
  have hone : (writeBuff .little narrowBank 0 (fun _ => 0xFF) 0 2 ⟨fun _ => 0, 0, []⟩).read = 1 := by
    decide
  rw [hone] at hread
  exact absurd hread (by decide)

end UBoot.Drivers.Cfi
