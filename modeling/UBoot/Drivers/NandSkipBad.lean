import UBoot.Drivers.NandUtil
import UBoot.Lib.Scatter
import Mathlib.Data.List.Sort

/-!
# What is written past bad blocks

Of a device with a bad block the good bytes from an offset on are a list of addresses (`bytesFrom`),
and so are the bytes that look good to the code, which asks for the block at the offset modulo
`2 ^ 32` (`seenGood`).

* `exists_scanEnd`: where the first loop ends.
* `target` are the bytes that are written, and `returns_of_target` and its two companions say what
  comes back.
* `nandWriteSkipBad_fills`: exactly when the image lies in the good bytes afterwards.
-/

namespace UBoot.Drivers

open UBoot.Lib

variable {n : NandInfo}

/-! ## Blocks -/

theorem NandInfo.erasesize_pos (n : NandInfo) : 0 < n.erasesize := by
  obtain ⟨e, he⟩ := n.erasesize_eq
  rw [he]
  exact Nat.two_pow_pos e

theorem NandInfo.dvd_two_pow (n : NandInfo) : n.erasesize ∣ 2 ^ 32 := by
  obtain ⟨e, he⟩ := n.erasesize_eq
  have hlt := n.erasesize_lt
  rw [he] at hlt ⊢
  exact Nat.pow_dvd_pow 2 (Nat.pow_lt_pow_iff_right (by omega) |>.mp hlt).le

/-- The end of the block at an offset. -/
def blockEnd (n : NandInfo) (o : Nat) : Nat := o + (n.erasesize - o % n.erasesize)

theorem lt_blockEnd (n : NandInfo) (o : Nat) : o < blockEnd n o := by
  have := Nat.mod_lt o n.erasesize_pos
  rw [blockEnd]
  omega

theorem blockEnd_eq (n : NandInfo) (o : Nat) :
    blockEnd n o = (o / n.erasesize + 1) * n.erasesize := by
  have hmod := Nat.mod_lt o n.erasesize_pos
  have hdiv := Nat.div_add_mod' o n.erasesize
  rw [blockEnd, Nat.add_one_mul]
  omega

theorem dvd_blockEnd (n : NandInfo) (o : Nat) : n.erasesize ∣ blockEnd n o := by
  rw [blockEnd_eq]
  exact Nat.dvd_mul_left _ _

theorem blockEnd_le {o m : Nat} (hdvd : n.erasesize ∣ m) (hlt : o < m) : blockEnd n o ≤ m := by
  obtain ⟨k, rfl⟩ := hdvd
  rw [blockEnd_eq, Nat.mul_comm n.erasesize]
  exact Nat.mul_le_mul_right _ (Nat.div_lt_of_lt_mul hlt)

/-- All bytes of a block are alike. -/
def OnBlocks (n : NandInfo) (p : Nat → Bool) : Prop :=
  ∀ a b, a / n.erasesize = b / n.erasesize → p a = p b

theorem OnBlocks.eq_of_lt {p : Nat → Bool} (h : OnBlocks n p) {o a : Nat} (hle : o ≤ a)
    (hlt : a < blockEnd n o) : p a = p o := by
  apply h
  rw [blockEnd_eq] at hlt
  have := Nat.div_lt_of_lt_mul (by rwa [Nat.mul_comm] at hlt)
  have := Nat.div_le_div_right (c := n.erasesize) hle
  omega

/-- The bytes with a property between two offsets, and those up to the end of the device. -/
def bytesIn (p : Nat → Bool) (o m : Nat) : List Nat := (List.range' o (m - o)).filter p

def bytesFrom (n : NandInfo) (p : Nat → Bool) (o : Nat) : List Nat := bytesIn p o n.size

theorem bytesIn_self (p : Nat → Bool) (o : Nat) : bytesIn p o o = [] := by
  rw [bytesIn, Nat.sub_self]
  rfl

theorem bytesIn_append (p : Nat → Bool) {o m e : Nat} (hom : o ≤ m) (hme : m ≤ e) :
    bytesIn p o e = bytesIn p o m ++ bytesIn p m e := by
  have hrange : List.range' o (e - o) = List.range' o (m - o) ++ List.range' m (e - m) := by
    have happ := List.range'_append_1 (s := o) (m := m - o) (n := e - m)
    rw [Nat.add_sub_of_le hom] at happ
    rw [happ, show m - o + (e - m) = e - o by omega]
  rw [bytesIn, bytesIn, bytesIn, hrange, List.filter_append]

theorem pairwise_bytesIn (p : Nat → Bool) (o m : Nat) : (bytesIn p o m).Pairwise (· < ·) :=
  List.Pairwise.filter _ List.pairwise_lt_range'

theorem length_bytesIn_le (p : Nat → Bool) (o m : Nat) : (bytesIn p o m).length ≤ m - o := by
  have := List.length_filter_le p (List.range' o (m - o))
  rwa [List.length_range'] at this

/-- The bytes of one block. -/
theorem bytesIn_blockEnd {p : Nat → Bool} (hp : OnBlocks n p) (o : Nat) :
    bytesIn p o (blockEnd n o) =
      if p o then List.range' o (n.erasesize - o % n.erasesize) else [] := by
  have hlen : blockEnd n o - o = n.erasesize - o % n.erasesize := by
    rw [blockEnd]
    omega
  have hmem : ∀ a ∈ List.range' o (n.erasesize - o % n.erasesize), p a = p o := by
    intro a ha
    rw [List.mem_range'_1] at ha
    exact hp.eq_of_lt ha.1 ha.2
  rw [bytesIn, hlen]
  split
  case isTrue h => exact List.filter_eq_self.mpr fun a ha => (hmem a ha).trans h
  case isFalse h => exact List.filter_eq_nil_iff.mpr fun a ha hpa => h ((hmem a ha).symm.trans hpa)

/-- The block at an offset is not marked bad. -/
def good (n : NandInfo) (a : Nat) : Bool := !n.checkbad (a / n.erasesize * n.erasesize)

/-- The block that the code asks for is not reported as bad. -/
def seenGood (n : NandInfo) (a : Nat) : Bool := decide (nandBlockIsbad n (blockStart n a) = 0)

theorem seenGood_iff {a : Nat} : seenGood n a ↔ nandBlockIsbad n (blockStart n a) = 0 :=
  decide_eq_true_iff

theorem onBlocks_seenGood (n : NandInfo) : OnBlocks n (seenGood n) := by
  intro a b h
  obtain ⟨k, hk⟩ := n.dvd_two_pow
  rw [seenGood, seenGood, blockStart, blockStart, hk, Nat.mod_mul_right_div_self,
    Nat.mod_mul_right_div_self, h]

/-! ## The first loop -/

/-- The first block end at which a counter of 32 bits for the bytes that look good is not below the
length, or the end of the device. -/
structure ScanEnd (n : NandInfo) (offset length m : Nat) : Prop where
  dvd : n.erasesize ∣ m
  lt : offset < m
  le : m ≤ n.size
  done : m = n.size ∨ length ≤ (bytesIn (seenGood n) offset m).length % 2 ^ 32
  first : ∀ b, n.erasesize ∣ b → offset < b → b < m →
    (bytesIn (seenGood n) offset b).length % 2 ^ 32 < length

theorem ScanEnd.unique {offset length m m' : Nat} (h : ScanEnd n offset length m)
    (h' : ScanEnd n offset length m') : m = m' := by
  rcases Nat.lt_trichotomy m m' with hlt | heq | hlt
  · have hfirst := h'.first m h.dvd h.lt hlt
    have hle := h'.le
    rcases h.done with hdone | hdone <;> omega
  · exact heq
  · have hfirst := h.first m' h'.dvd h'.lt hlt
    have hle := h.le
    rcases h'.done with hdone | hdone <;> omega

/-- One more block is counted. -/
theorem length_bytesIn_blockEnd {offset o : Nat} (hle : offset ≤ o) :
    (bytesIn (seenGood n) offset (blockEnd n o)).length % 2 ^ 32 =
      if nandBlockIsbad n (blockStart n o) = 0 then
        ((bytesIn (seenGood n) offset o).length % 2 ^ 32 + (n.erasesize - o % n.erasesize)) % 2 ^ 32
      else (bytesIn (seenGood n) offset o).length % 2 ^ 32 := by
  rw [bytesIn_append _ hle (lt_blockEnd n o).le, bytesIn_blockEnd (onBlocks_seenGood n),
    List.length_append]
  by_cases hseen : nandBlockIsbad n (blockStart n o) = 0
  · rw [if_pos hseen, if_pos (seenGood_iff.mpr hseen), List.length_range', Nat.mod_add_mod]
  · rw [if_neg hseen, if_neg fun h => hseen (seenGood_iff.mp h), List.length_nil, Nat.add_zero]

theorem lenInclLoop_eq {offset : Nat} (length : Nat) :
    ∀ (rounds o : Nat), offset ≤ o → o < n.size → n.size - o ≤ rounds →
      (∀ b, n.erasesize ∣ b → offset < b → b ≤ o →
        (bytesIn (seenGood n) offset b).length % 2 ^ 32 < length) →
      (bytesIn (seenGood n) offset o).length % 2 ^ 32 < length →
      ∃ m, ScanEnd n offset length m ∧
        lenInclLoop n length rounds o ((bytesIn (seenGood n) offset o).length % 2 ^ 32)
          ((o - offset) % 2 ^ 32) = (m - offset) % 2 ^ 32 := by
  intro rounds
  induction rounds with
  | zero =>
    intro o _ hlt hrounds
    omega
  | succ rounds ih =>
    intro o hle hlt hrounds hfirst hcount
    have hnext := lt_blockEnd n o
    have hend : blockEnd n o ≤ n.size := blockEnd_le n.dvd_size hlt
    have hincl : ((o - offset) % 2 ^ 32 + (n.erasesize - o % n.erasesize)) % 2 ^ 32 =
        (blockEnd n o - offset) % 2 ^ 32 := by
      rw [Nat.mod_add_mod, blockEnd]
      congr 1
      omega
    -- no block ends between this offset and the end of its block
    have hbefore : ∀ b, n.erasesize ∣ b → offset < b → b < blockEnd n o →
        (bytesIn (seenGood n) offset b).length % 2 ^ 32 < length := by
      intro b hdvd hb hbend
      refine hfirst b hdvd hb ?_
      by_contra hnot
      have := blockEnd_le hdvd (Nat.not_le.mp hnot)
      omega
    rw [lenInclLoop, if_pos hcount]
    simp only [← length_bytesIn_blockEnd hle, hincl]
    rw [show o + (n.erasesize - o % n.erasesize) = blockEnd n o from rfl]
    by_cases hsize : n.size ≤ blockEnd n o
    · rw [if_pos hsize]
      exact ⟨blockEnd n o, ⟨dvd_blockEnd n o, by omega, hend, Or.inl (by omega), hbefore⟩, rfl⟩
    · rw [if_neg hsize]
      by_cases hdone : length ≤ (bytesIn (seenGood n) offset (blockEnd n o)).length % 2 ^ 32
      · refine ⟨blockEnd n o, ⟨dvd_blockEnd n o, by omega, hend, Or.inr hdone, hbefore⟩, ?_⟩
        obtain ⟨r, rfl⟩ : ∃ r, rounds = r + 1 := ⟨rounds - 1, by omega⟩
        rw [lenInclLoop, if_neg (by omega)]
      · refine ih (blockEnd n o) (by omega) (by omega) (by omega) ?_ (by omega)
        intro b hdvd hb hbend
        rcases Nat.lt_or_eq_of_le hbend with hlt' | rfl
        · exact hbefore b hdvd hb hlt'
        · omega

theorem exists_scanEnd {offset length : Nat} (hoff : offset < n.size) (hlen : 0 < length) :
    ∃ m, ScanEnd n offset length m ∧ getLenInclBad n offset length = (m - offset) % 2 ^ 32 := by
  have h := lenInclLoop_eq (n := n) length (n.size - offset + 1) offset le_rfl hoff (Nat.le_succ _)
    (fun b _ hlt hle => by omega) (by rw [bytesIn_self]; exact hlen)
  rw [bytesIn_self, Nat.sub_self] at h
  exact h

/-! ## The second loop -/

section WriteLoop

variable {length o left : Nat} {buf : Bytes} {flash : Contents}

theorem writeLoop_zero (n : NandInfo) (length rounds o : Nat) (buf : Bytes) (flash : Contents) :
    writeLoop n length (rounds + 1) o 0 buf flash = some ⟨0, length, flash⟩ := by
  rw [writeLoop, if_pos rfl]

theorem writeLoop_skip (hleft : 0 < left) (hseen : ¬ seenGood n o) (rounds : Nat) :
    writeLoop n length (rounds + 1) o left buf flash =
      writeLoop n length rounds (blockEnd n o) left buf flash := by
  rw [writeLoop, if_neg (by omega)]
  exact if_pos fun h => hseen (seenGood_iff.mpr h)

/-- A good block inside of the device. -/
theorem writeLoop_write (hleft : 0 < left) (hseen : seenGood n o) (hlt : o < n.size)
    (rounds : Nat) : writeLoop n length (rounds + 1) o left buf flash =
      writeLoop n length rounds (o + min left (n.erasesize - o % n.erasesize))
        (left - min left (n.erasesize - o % n.erasesize))
        (buf.drop (min left (n.erasesize - o % n.erasesize)))
        (storeAt flash o (buf.take (min left (n.erasesize - o % n.erasesize)))) := by
  have hend := blockEnd_le n.dvd_size hlt
  have hmin : (if left < n.erasesize - o % n.erasesize then left
      else n.erasesize - o % n.erasesize) = min left (n.erasesize - o % n.erasesize) := by
    split <;> omega
  have hin : o + min left (n.erasesize - o % n.erasesize) ≤ n.size := by
    rw [blockEnd] at hend
    omega
  rw [writeLoop, if_neg (by omega)]
  simp only [hmin, ne_eq, seenGood_iff.mp hseen, not_true_eq_false, if_false,
    nandWrite_inside hin]

/-- A good block outside of the device. -/
theorem writeLoop_outside (hleft : 0 < left) (hseen : seenGood n o) (hle : n.size ≤ o)
    (rounds : Nat) : writeLoop n length (rounds + 1) o left buf flash =
      some ⟨einval, length - left, flash⟩ := by
  have hmod := Nat.mod_lt o n.erasesize_pos
  have hout : n.size < o + (if left < n.erasesize - o % n.erasesize then left
      else n.erasesize - o % n.erasesize) := by
    split <;> omega
  rw [writeLoop, if_neg (by omega)]
  simp only [ne_eq, seenGood_iff.mp hseen, not_true_eq_false, if_false, nandWrite_outside hout]
  exact if_pos (by decide)

theorem writeLoop_mono {rounds : Nat} {r : WriteResult}
    (h : writeLoop n length rounds o left buf flash = some r) (more : Nat) :
    writeLoop n length (rounds + more) o left buf flash = some r := by
  induction rounds generalizing o left buf flash with
  | zero => cases h
  | succ rounds ih =>
    rw [Nat.succ_add_eq_add_succ, Nat.add_succ]
    rcases Nat.eq_zero_or_pos left with rfl | hleft
    · rw [writeLoop_zero] at h ⊢
      exact h
    · by_cases hseen : seenGood n o
      · rcases Nat.lt_or_ge o n.size with hlt | hge
        · rw [writeLoop_write hleft hseen hlt] at h ⊢
          exact ih h
        · rw [writeLoop_outside hleft hseen hge] at h ⊢
          exact h
      · rw [writeLoop_skip hleft hseen] at h ⊢
        exact ih h

/-- The bytes of a block that looks good, and those behind it. -/
theorem bytesFrom_eq (hlt : o < n.size) :
    bytesFrom n (seenGood n) o =
      (if seenGood n o then List.range' o (n.erasesize - o % n.erasesize) else []) ++
        bytesFrom n (seenGood n) (blockEnd n o) := by
  rw [bytesFrom, bytesIn_append _ (lt_blockEnd n o).le (blockEnd_le n.dvd_size hlt),
    bytesIn_blockEnd (onBlocks_seenGood n)]
  rfl

/-- There is room for what is left. -/
theorem writeLoop_fits (length : Nat) (flash : Contents) (hle : o ≤ n.size)
    (hbuf : buf.length = left) (hroom : left ≤ (bytesFrom n (seenGood n) o).length) :
    ∃ rounds, writeLoop n length rounds o left buf flash =
      some ⟨0, length, scatter flash (bytesFrom n (seenGood n) o) buf⟩ := by
  induction hd : n.size - o using Nat.strongRecOn generalizing o left buf flash with
  | ind d ih =>
    rcases Nat.eq_zero_or_pos left with rfl | hleft
    · rw [List.eq_nil_of_length_eq_zero hbuf, scatter_nil_data]
      exact ⟨1, writeLoop_zero n length 0 o [] flash⟩
    · have hlt : o < n.size := by
        refine Nat.lt_of_le_of_ne hle ?_
        rintro rfl
        rw [bytesFrom, bytesIn_self, List.length_nil] at hroom
        omega
      have hnext := lt_blockEnd n o
      have hend := blockEnd_le n.dvd_size hlt
      by_cases hseen : seenGood n o
      · have hmod := Nat.mod_lt o n.erasesize_pos
        rw [bytesFrom_eq hlt, if_pos hseen] at hroom ⊢
        rw [List.length_append, List.length_range'] at hroom
        rw [scatter_append, List.length_range']
        rcases Nat.lt_or_ge left (n.erasesize - o % n.erasesize) with hshort | hlong
        · -- the data ends in this block
          have hstore : scatter flash (List.range' o (n.erasesize - o % n.erasesize)) buf =
              storeAt flash o buf := by
            rw [← scatter_take, List.take_range'_of_length_ge (by omega), scatter_range']
          refine ⟨1 + 1, ?_⟩
          rw [writeLoop_write hleft hseen hlt, Nat.min_eq_left hshort.le, Nat.sub_self,
            writeLoop_zero, List.take_of_length_le (by omega), List.take_of_length_le (by omega),
            List.drop_eq_nil_of_le (by omega), scatter_nil_data, hstore]
        · obtain ⟨rounds, hrounds⟩ := @ih (n.size - blockEnd n o) (by omega) (blockEnd n o)
            (left - (n.erasesize - o % n.erasesize)) (buf.drop (n.erasesize - o % n.erasesize))
            (storeAt flash o (buf.take (n.erasesize - o % n.erasesize))) hend
            (by rw [List.length_drop, hbuf]) (by omega) rfl
          refine ⟨rounds + 1, ?_⟩
          have hstore := scatter_range' flash o (buf.take (n.erasesize - o % n.erasesize))
          rw [List.length_take, hbuf, Nat.min_eq_left hlong] at hstore
          rw [writeLoop_write hleft hseen hlt, Nat.min_eq_right hlong, hstore]
          exact hrounds
      · rw [bytesFrom_eq hlt, if_neg hseen, List.nil_append] at hroom ⊢
        obtain ⟨rounds, hrounds⟩ := @ih (n.size - blockEnd n o) (by omega) (blockEnd n o) left buf
          flash hend hbuf hroom rfl
        refine ⟨rounds + 1, ?_⟩
        rw [writeLoop_skip hleft hseen]
        exact hrounds

/-- There is not enough room: all of it is filled, and the loop goes on behind the device. -/
theorem writeLoop_full (length : Nat) (flash : Contents) (hle : o ≤ n.size)
    (hbuf : buf.length = left) (hroom : (bytesFrom n (seenGood n) o).length < left) :
    ∃ k, ∀ rounds, writeLoop n length (rounds + k) o left buf flash =
      writeLoop n length rounds n.size (left - (bytesFrom n (seenGood n) o).length)
        (buf.drop (bytesFrom n (seenGood n) o).length)
        (scatter flash (bytesFrom n (seenGood n) o) buf) := by
  induction hd : n.size - o using Nat.strongRecOn generalizing o left buf flash with
  | ind d ih =>
    have hleft : 0 < left := by omega
    rcases Nat.lt_or_eq_of_le hle with hlt | rfl
    · have hnext := lt_blockEnd n o
      have hend := blockEnd_le n.dvd_size hlt
      by_cases hseen : seenGood n o
      · rw [bytesFrom_eq hlt, if_pos hseen] at hroom ⊢
        rw [List.length_append, List.length_range'] at hroom ⊢
        obtain ⟨k, hk⟩ := @ih (n.size - blockEnd n o) (by omega) (blockEnd n o)
          (left - (n.erasesize - o % n.erasesize)) (buf.drop (n.erasesize - o % n.erasesize))
          (storeAt flash o (buf.take (n.erasesize - o % n.erasesize))) hend
          (by rw [List.length_drop, hbuf]) (by omega) rfl
        have hstore := scatter_range' flash o (buf.take (n.erasesize - o % n.erasesize))
        rw [List.length_take, hbuf, Nat.min_eq_left (by omega)] at hstore
        refine ⟨k + 1, fun rounds => ?_⟩
        rw [← Nat.add_assoc, writeLoop_write hleft hseen hlt, Nat.min_eq_right (by omega),
          scatter_append, List.length_range', hstore, ← List.drop_drop, ← Nat.sub_sub]
        exact hk rounds
      · rw [bytesFrom_eq hlt, if_neg hseen, List.nil_append] at hroom ⊢
        obtain ⟨k, hk⟩ := @ih (n.size - blockEnd n o) (by omega) (blockEnd n o) left buf flash hend
          hbuf hroom rfl
        refine ⟨k + 1, fun rounds => ?_⟩
        rw [← Nat.add_assoc, writeLoop_skip hleft hseen]
        exact hk rounds
    · refine ⟨0, fun rounds => ?_⟩
      rw [bytesFrom, bytesIn_self, scatter_nil]
      rfl

/-- Behind the device the loop ends at the first block that looks good. -/
theorem writeLoop_behind (length : Nat) (buf : Bytes) (flash : Contents) {a : Nat}
    (hleft : 0 < left) (hsize : n.size ≤ o) (hle : o ≤ a)
    (hseen : seenGood n a) :
    ∃ rounds, writeLoop n length rounds o left buf flash =
      some ⟨einval, length - left, flash⟩ := by
  induction hd : a - o using Nat.strongRecOn generalizing o with
  | ind d ih =>
    by_cases ho : seenGood n o
    · exact ⟨1, writeLoop_outside hleft ho hsize 0⟩
    · have hnext := lt_blockEnd n o
      have hend : blockEnd n o ≤ a := by
        by_contra hnot
        rw [(onBlocks_seenGood n).eq_of_lt hle (by omega)] at hseen
        exact ho hseen
      obtain ⟨rounds, hrounds⟩ := @ih (a - blockEnd n o) (by omega) (blockEnd n o)
        (by omega) hend rfl
      refine ⟨rounds + 1, ?_⟩
      rw [writeLoop_skip hleft ho]
      exact hrounds

/-- Where every block behind looks bad, the loop does not end. -/
theorem writeLoop_forever (length : Nat) (buf : Bytes) (flash : Contents) (hleft : 0 < left)
    (hbad : ∀ a, o ≤ a → ¬ seenGood n a) (rounds : Nat) :
    writeLoop n length rounds o left buf flash = none := by
  induction rounds generalizing o with
  | zero => rfl
  | succ rounds ih =>
    rw [writeLoop_skip hleft (hbad o le_rfl)]
    exact ih fun a ha => hbad a ((lt_blockEnd n o).le.trans ha)

end WriteLoop

/-! ## What is written -/

/-- The scan finds the length of the image itself. -/
def Direct (n : NandInfo) (offset length : Nat) : Prop :=
  ∃ m, ScanEnd n offset length m ∧ (m - offset) % 2 ^ 32 = length

open Classical in
/-- The bytes that are written. -/
noncomputable def target (n : NandInfo) (offset length : Nat) : List Nat :=
  if Direct n offset length then List.range' offset length
  else (bytesFrom n (seenGood n) offset).take length

/-- Some block behind the device looks good. -/
def GoodBehind (n : NandInfo) : Prop := ∃ a, n.size ≤ a ∧ seenGood n a

structure Request (n : NandInfo) (offset length : Nat) : Prop where
  offset_mod : offset % n.writesize = 0
  length_mod : length % n.writesize = 0
  offset_lt : offset < n.size
  length_pos : 0 < length
  length_lt : length < 2 ^ 32

/-- The call comes back with a result. -/
def Returns (n : NandInfo) (offset length : Nat) (buffer : Bytes) (flash : Contents)
    (r : WriteResult) : Prop :=
  ∃ rounds, nandWriteSkipBad n rounds offset length buffer flash = some r

variable {offset length : Nat} {buffer : Bytes} {flash : Contents} {r r' : WriteResult}

theorem Direct.le (h : Direct n offset length) : offset + length ≤ n.size := by
  obtain ⟨m, hm, hlen⟩ := h
  have hle := hm.le
  have hlt := hm.lt
  have := Nat.mod_le (m - offset) (2 ^ 32)
  omega

theorem nandWriteSkipBad_direct (h : Request n offset length) (hdirect : Direct n offset length)
    (rounds : Nat) : nandWriteSkipBad n rounds offset length buffer flash =
      some ⟨0, length, storeAt flash offset (buffer.take length)⟩ := by
  obtain ⟨m, hm, hscan⟩ := exists_scanEnd h.offset_lt h.length_pos
  obtain ⟨m', hm', hlen⟩ := id hdirect
  have hle := hdirect.le
  rw [hm.unique hm', hlen] at hscan
  rw [nandWriteSkipBad, if_neg (by simp [h.offset_mod, h.length_mod])]
  simp only [hscan, if_neg (Nat.not_lt.mpr hle), if_true, nandWrite_inside hle]

theorem nandWriteSkipBad_loop (h : Request n offset length) (hdirect : ¬ Direct n offset length)
    (rounds : Nat) : nandWriteSkipBad n rounds offset length buffer flash =
      writeLoop n length rounds offset length buffer flash := by
  obtain ⟨m, hm, hscan⟩ := exists_scanEnd h.offset_lt h.length_pos
  have hne : getLenInclBad n offset length ≠ length := fun heq => hdirect ⟨m, hm, hscan ▸ heq⟩
  have hle : offset + getLenInclBad n offset length ≤ n.size := by
    have := Nat.mod_le (m - offset) (2 ^ 32)
    have := hm.lt
    have := hm.le
    omega
  rw [nandWriteSkipBad, if_neg (by simp [h.offset_mod, h.length_mod])]
  simp only [if_neg (Nat.not_lt.mpr hle), if_neg hne]

theorem Returns.unique (h : Request n offset length) (hr : Returns n offset length buffer flash r)
    (hr' : Returns n offset length buffer flash r') : r = r' := by
  obtain ⟨rounds, hr⟩ := hr
  obtain ⟨rounds', hr'⟩ := hr'
  by_cases hdirect : Direct n offset length
  · rw [nandWriteSkipBad_direct h hdirect] at hr hr'
    exact Option.some.inj (hr.symm.trans hr')
  · rw [nandWriteSkipBad_loop h hdirect] at hr hr'
    have h₁ := writeLoop_mono hr rounds'
    have h₂ := writeLoop_mono hr' rounds
    rw [Nat.add_comm, h₂] at h₁
    exact (Option.some.inj h₁).symm

theorem length_target_le (n : NandInfo) (offset length : Nat) :
    (target n offset length).length ≤ length := by
  rw [target]
  split
  · rw [List.length_range']
  · exact List.length_take_le _ _

/-- The bytes that are written are as many as the image has. -/
theorem returns_of_length_target (flash : Contents) (h : Request n offset length)
    (hbuf : buffer.length = length) (hlen : (target n offset length).length = length) :
    Returns n offset length buffer flash
      ⟨0, length, scatter flash (target n offset length) buffer⟩ := by
  by_cases hdirect : Direct n offset length
  · refine ⟨0, ?_⟩
    rw [nandWriteSkipBad_direct h hdirect, target, if_pos hdirect, ← hbuf, scatter_range',
      List.take_length]
  · rw [target, if_neg hdirect, List.length_take] at hlen
    obtain ⟨rounds, hrounds⟩ := writeLoop_fits (n := n) length flash h.offset_lt.le hbuf (by omega)
    refine ⟨rounds, ?_⟩
    rw [nandWriteSkipBad_loop h hdirect, target, if_neg hdirect, ← hbuf, scatter_take, hbuf]
    exact hrounds

/-- They are fewer: the loop fills the device and goes on behind it. -/
theorem exists_writeLoop_behind (flash : Contents) (h : Request n offset length)
    (hbuf : buffer.length = length) (hlen : (target n offset length).length < length) :
    ∃ k left, 0 < left ∧ ∀ rounds, nandWriteSkipBad n (rounds + k) offset length buffer flash =
      writeLoop n length rounds n.size left (buffer.drop (target n offset length).length)
        (scatter flash (target n offset length) buffer) := by
  have hdirect : ¬ Direct n offset length := by
    intro hdirect
    rw [target, if_pos hdirect, List.length_range'] at hlen
    omega
  rw [target, if_neg hdirect] at hlen ⊢
  rw [List.length_take] at hlen
  have hall : (bytesFrom n (seenGood n) offset).length ≤ length := by omega
  rw [List.take_of_length_le hall]
  obtain ⟨k, hk⟩ := writeLoop_full (n := n) length flash h.offset_lt.le hbuf
    (by omega)
  refine ⟨k, length - (bytesFrom n (seenGood n) offset).length, by omega, fun rounds => ?_⟩
  rw [nandWriteSkipBad_loop h hdirect]
  exact hk rounds

theorem returns_of_goodBehind (flash : Contents) (h : Request n offset length)
    (hbuf : buffer.length = length) (hlen : (target n offset length).length < length)
    (hbehind : GoodBehind n) :
    ∃ left, Returns n offset length buffer flash
      ⟨einval, left, scatter flash (target n offset length) buffer⟩ := by
  obtain ⟨k, left, hleft, hk⟩ := exists_writeLoop_behind flash h hbuf hlen
  obtain ⟨a, ha, hseen⟩ := hbehind
  obtain ⟨rounds, hrounds⟩ := writeLoop_behind length
    (buffer.drop (target n offset length).length)
    (scatter flash (target n offset length) buffer) hleft le_rfl ha hseen
  exact ⟨length - left, rounds + k, (hk rounds).trans hrounds⟩

theorem not_returns (h : Request n offset length) (hbuf : buffer.length = length)
    (hlen : (target n offset length).length < length) (hbehind : ¬ GoodBehind n) :
    ¬ Returns n offset length buffer flash r := by
  rintro ⟨rounds, hrounds⟩
  obtain ⟨k, left, hleft, hk⟩ := exists_writeLoop_behind flash h hbuf hlen
  have hforever := writeLoop_forever (o := n.size) length
    (buffer.drop (target n offset length).length)
    (scatter flash (target n offset length) buffer) hleft
    (fun a ha hseen => hbehind ⟨a, ha, hseen⟩) rounds
  have hdirect : ¬ Direct n offset length := by
    intro hdirect
    rw [target, if_pos hdirect, List.length_range'] at hlen
    omega
  have hmono := writeLoop_mono ((nandWriteSkipBad_loop h hdirect rounds).symm.trans hrounds) k
  rw [← nandWriteSkipBad_loop h hdirect, hk, hforever] at hmono
  cases hmono

/-! ## The image in the good bytes -/

/-- The call comes back, with 0 exactly if there are enough good bytes; then the image lies in them
and nothing else has changed, and otherwise nothing has changed at all. -/
def WritesGood (n : NandInfo) (offset length : Nat) : Prop :=
  ∀ buffer flash, buffer.length = length → ∃ r, Returns n offset length buffer flash r ∧
    (r.rval = 0 ↔ length ≤ (bytesFrom n (good n) offset).length) ∧
    (r.rval = 0 → ((bytesFrom n (good n) offset).take length).map r.flash = buffer ∧
      ∀ a ∉ (bytesFrom n (good n) offset).take length, r.flash a = flash a) ∧
    (r.rval ≠ 0 → r.flash = flash)

theorem pairwise_target (n : NandInfo) (offset length : Nat) :
    (target n offset length).Pairwise (· < ·) := by
  rw [target]
  split
  · exact List.pairwise_lt_range'
  · exact (pairwise_bytesIn _ _ _).sublist (List.take_sublist _ _)

theorem nodup_target (n : NandInfo) (offset length : Nat) : (target n offset length).Nodup :=
  (pairwise_target n offset length).imp fun h => Nat.ne_of_lt h

/-- Zeros over ones show which bytes are written. -/
theorem eq_zero_iff_mem_target (n : NandInfo) (offset length : Nat) {a : Nat} :
    scatter (fun _ => 1) (target n offset length) (List.replicate length 0) a = 0 ↔
      a ∈ target n offset length := by
  have hle := length_target_le n offset length
  have htake := scatter_take_data (fun _ => 1) (target n offset length) (List.replicate length 0)
  rw [List.take_replicate, Nat.min_eq_left hle] at htake
  rw [← htake]
  exact scatter_replicate_eq_iff (by decide)

theorem writesGood_iff_target (h : Request n offset length) :
    WritesGood n offset length ↔
      (length ≤ (bytesFrom n (good n) offset).length ∧
        target n offset length = (bytesFrom n (good n) offset).take length) ∨
      ((bytesFrom n (good n) offset).length < length ∧ target n offset length = [] ∧
        GoodBehind n) := by
  have hpos := h.length_pos
  constructor
  · intro hwrites
    obtain ⟨r, hr, hzero, hok, herr⟩ := hwrites (List.replicate length 0) (fun _ => 1)
      List.length_replicate
    rcases Nat.lt_or_eq_of_le (length_target_le n offset length) with hlt | heq
    · right
      by_cases hbehind : GoodBehind n
      · obtain ⟨left, hret⟩ := returns_of_goodBehind (fun _ => 1) h
          (List.length_replicate (a := (0 : UInt8))) hlt hbehind
        obtain rfl := hr.unique h hret
        have hsame := herr einval_ne_zero
        refine ⟨by have := mt hzero.mpr einval_ne_zero; omega, ?_, hbehind⟩
        refine List.eq_nil_iff_forall_not_mem.mpr fun a ha => ?_
        have hone := congrFun hsame a
        have hzero' := (eq_zero_iff_mem_target n offset length).mpr ha
        exact absurd (hzero'.symm.trans hone) (by decide)
      · exact absurd hr (not_returns h List.length_replicate hlt hbehind)
    · left
      have hret := returns_of_length_target (fun _ => 1) h
        (List.length_replicate (a := (0 : UInt8))) heq
      obtain rfl := hr.unique h hret
      have hroom := hzero.mp rfl
      obtain ⟨hmap, hframe⟩ := hok rfl
      refine ⟨hroom, ?_⟩
      refine (pairwise_target n offset length).eq_of_mem_iff
        ((pairwise_bytesIn _ _ _).sublist (List.take_sublist _ _)) fun a => ?_
      rw [← eq_zero_iff_mem_target]
      constructor
      · intro ha
        by_contra hnot
        exact absurd (ha.symm.trans (hframe a hnot)) (by decide)
      · intro ha
        exact List.eq_of_mem_replicate (hmap ▸ List.mem_map_of_mem ha)
  · rintro (⟨hroom, htarget⟩ | ⟨hfew, htarget, hbehind⟩) buffer flash hbuf
    · have hlen : (target n offset length).length = length := by
        rw [htarget, List.length_take, Nat.min_eq_left hroom]
      refine ⟨_, returns_of_length_target flash h hbuf hlen, ⟨fun _ => hroom, fun _ => rfl⟩,
        fun _ => ?_, fun hne => absurd rfl hne⟩
      rw [← htarget]
      exact ⟨map_scatter (nodup_target n offset length) (hlen.trans hbuf.symm),
        fun a ha => scatter_of_notMem ha⟩
    · obtain ⟨left, hret⟩ := returns_of_goodBehind flash h hbuf
        (by rw [htarget]; exact hpos) hbehind
      refine ⟨_, hret, ⟨fun hz => absurd hz einval_ne_zero, fun hle => by omega⟩,
        fun hz => absurd hz einval_ne_zero, fun _ => ?_⟩
      rw [htarget, scatter_nil]

/-! ### Devices of at most `2 ^ 32` bytes -/

theorem seenGood_eq_good (hsize : n.size ≤ 2 ^ 32) {a : Nat} (ha : a < n.size) :
    seenGood n a = good n a := by
  have hblock : blockStart n a = a / n.erasesize * n.erasesize := by
    rw [blockStart, Nat.mod_eq_of_lt (by omega)]
  have hle : ¬ n.size < blockStart n a := by
    have := Nat.div_mul_le_self a n.erasesize
    omega
  rw [seenGood, good, nandBlockIsbad, if_neg hle, hblock]
  cases n.checkbad (a / n.erasesize * n.erasesize) <;> rfl

theorem bytesIn_seenGood (hsize : n.size ≤ 2 ^ 32) (o : Nat) {m : Nat} (hm : m ≤ n.size) :
    bytesIn (seenGood n) o m = bytesIn (good n) o m := by
  refine List.filter_congr fun a ha => seenGood_eq_good hsize ?_
  rw [List.mem_range'_1] at ha
  omega

theorem length_bytesIn_le_bytesFrom (p : Nat → Bool) {o m : Nat} (hom : o ≤ m) (hm : m ≤ n.size) :
    (bytesIn p o m).length ≤ (bytesFrom n p o).length := by
  rw [bytesFrom, bytesIn_append p hom hm, List.length_append]
  omega

/-- The distance between two offsets of the device is seen as it is. -/
theorem sub_eq_of_mod_eq (hpos : 0 < length) (hsize : n.size ≤ 2 ^ 32) {m : Nat}
    (hm : m ≤ n.size) (hlen : (m - offset) % 2 ^ 32 = length) : m - offset = length := by
  rcases Nat.lt_or_ge (m - offset) (2 ^ 32) with hlt | hge
  · rwa [Nat.mod_eq_of_lt hlt] at hlen
  · rw [show m - offset = 2 ^ 32 by omega, Nat.mod_self] at hlen
    omega

/-- An image that is written at once, with room for it in the good bytes, finds no bad block. -/
theorem Direct.take_eq (hpos : 0 < length) (hsize : n.size ≤ 2 ^ 32)
    (hdirect : Direct n offset length) (hroom : length ≤ (bytesFrom n (good n) offset).length) :
    (bytesFrom n (good n) offset).take length = List.range' offset length := by
  obtain ⟨m, hm, hlen⟩ := hdirect
  have hm_eq := sub_eq_of_mod_eq hpos hsize hm.le hlen
  have hcount : length ≤ (bytesIn (good n) offset m).length := by
    rcases hm.done with hend | hdone
    · rw [hend]
      exact hroom
    · rw [bytesIn_seenGood hsize offset hm.le] at hdone
      exact hdone.trans (Nat.mod_le _ _)
  have hfull : bytesIn (good n) offset m = List.range' offset (m - offset) := by
    refine List.filter_eq_self.mpr (List.length_filter_eq_length_iff.mp ?_)
    rw [List.length_range']
    exact Nat.le_antisymm (length_bytesIn_le (good n) offset m) (hm_eq.le.trans hcount)
  rw [bytesFrom, bytesIn_append (good n) hm.lt.le hm.le, hfull, hm_eq,
    List.take_left' (List.length_range')]

/-- Without enough room the scan goes to the end of the device. -/
theorem direct_iff (hoff : offset < n.size) (hpos : 0 < length) (hlength : length < 2 ^ 32)
    (hsize : n.size ≤ 2 ^ 32) (hfew : (bytesFrom n (good n) offset).length < length) :
    Direct n offset length ↔ n.size - offset = length := by
  have hend : ∀ {m}, ScanEnd n offset length m → m = n.size := by
    intro m hm
    rcases hm.done with hdone | hdone
    · exact hdone
    · have hle := length_bytesIn_le_bytesFrom (good n) hm.lt.le hm.le
      rw [bytesIn_seenGood hsize offset hm.le] at hdone
      have := Nat.mod_le (bytesIn (good n) offset m).length (2 ^ 32)
      omega
  constructor
  · rintro ⟨m, hm, hlen⟩
    obtain rfl := hend hm
    exact sub_eq_of_mod_eq hpos hsize hm.le hlen
  · intro heq
    obtain ⟨m, hm, -⟩ := exists_scanEnd hoff hpos
    obtain rfl := hend hm
    exact ⟨n.size, hm, by rw [heq, Nat.mod_eq_of_lt hlength]⟩

theorem writesGood_iff_of_size_le (h : Request n offset length) (hsize : n.size ≤ 2 ^ 32) :
    WritesGood n offset length ↔
      length ≤ (bytesFrom n (good n) offset).length ∨
      (bytesFrom n (good n) offset = [] ∧ n.size - offset ≠ length ∧ GoodBehind n) := by
  have hpos := h.length_pos
  have hseen : bytesFrom n (seenGood n) offset = bytesFrom n (good n) offset :=
    bytesIn_seenGood hsize offset le_rfl
  rw [writesGood_iff_target h]
  rcases Nat.lt_or_ge (bytesFrom n (good n) offset).length length with hfew | hroom
  · have htarget : target n offset length = [] ↔
        bytesFrom n (good n) offset = [] ∧ n.size - offset ≠ length := by
      rw [target, hseen, ne_eq,
        ← direct_iff h.offset_lt hpos h.length_lt hsize hfew]
      by_cases hdirect : Direct n offset length
      · rw [if_pos hdirect]
        refine ⟨fun hnil => ?_, fun hnil => absurd hdirect hnil.2⟩
        have hlen := congrArg List.length hnil
        rw [List.length_range', List.length_nil] at hlen
        omega
      · rw [if_neg hdirect, List.take_of_length_le hfew.le]
        exact ⟨fun hnil => ⟨hnil, hdirect⟩, fun hnil => hnil.1⟩
    constructor
    · rintro (⟨hle, -⟩ | ⟨-, hnil, hbehind⟩)
      · omega
      · exact Or.inr ⟨(htarget.mp hnil).1, (htarget.mp hnil).2, hbehind⟩
    · rintro (hle | ⟨hnil, hne, hbehind⟩)
      · omega
      · exact Or.inr ⟨hfew, htarget.mpr ⟨hnil, hne⟩, hbehind⟩
  · refine ⟨fun _ => Or.inl hroom, fun _ => Or.inl ⟨hroom, ?_⟩⟩
    rw [target, hseen]
    split
    case isTrue hdirect => exact (hdirect.take_eq hpos hsize hroom).symm
    case isFalse => rfl

/-- For a device of any size it depends on the bytes that are written; up to `2 ^ 32` bytes it is
enough that there is room, and without any good byte the error must come from behind the device. -/
theorem nandWriteSkipBad_fills (h : Request n offset length) :
    (WritesGood n offset length ↔
      (length ≤ (bytesFrom n (good n) offset).length ∧
        target n offset length = (bytesFrom n (good n) offset).take length) ∨
      ((bytesFrom n (good n) offset).length < length ∧ target n offset length = [] ∧
        GoodBehind n)) ∧
    (n.size ≤ 2 ^ 32 → (WritesGood n offset length ↔
      length ≤ (bytesFrom n (good n) offset).length ∨
      (bytesFrom n (good n) offset = [] ∧ n.size - offset ≠ length ∧ GoodBehind n))) :=
  ⟨writesGood_iff_target h, writesGood_iff_of_size_le h⟩

/-- Two blocks of two pages, the second one marked bad. -/
def twoBlocks : NandInfo where
  size := 8
  writesize := 2
  erasesize := 4
  checkbad a := a == 4
  writesize_eq := ⟨1, rfl⟩
  erasesize_eq := ⟨2, rfl⟩
  erasesize_lt := by decide
  writesize_le := by decide
  dvd_size := by decide

/-- Three blocks of two pages, the one in the middle marked bad. -/
def badBetween : NandInfo where
  size := 12
  writesize := 2
  erasesize := 4
  checkbad a := a == 4
  writesize_eq := ⟨1, rfl⟩
  erasesize_eq := ⟨2, rfl⟩
  erasesize_lt := by decide
  writesize_le := by decide
  dvd_size := by decide

/-- The image goes to the blocks on both sides of the bad one. -/
theorem nandWriteSkipBad_fills_badBetween : WritesGood badBetween 0 8 ∧
    bytesFrom badBetween (good badBetween) 0 = [0, 1, 2, 3, 8, 9, 10, 11] :=
  ⟨((nandWriteSkipBad_fills (n := badBetween) ⟨rfl, rfl, by decide, by decide, by decide⟩).2
    (by decide)).mpr (Or.inl (by decide)), by decide⟩

/-- The rest of the device is as long as the image, and the bad block in it is written. -/
theorem nandWriteSkipBad_overwrites_bad : ¬ WritesGood twoBlocks 0 8 := by
  intro h
  obtain ⟨r, ⟨rounds, hr⟩, hzero, -⟩ := h (List.replicate 8 0) (fun _ => 1) rfl
  have hscan : getLenInclBad twoBlocks 0 8 = 8 := by decide
  rw [nandWriteSkipBad, if_neg (by decide)] at hr
  simp only [hscan, if_true] at hr
  rw [if_neg (by decide), nandWrite_inside (by decide)] at hr
  cases hr
  exact absurd (hzero.mp rfl) (by decide)

end UBoot.Drivers
