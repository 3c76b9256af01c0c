import UBoot.LibGeneric.Memmove

/-!
# Moving an image in chunks

`memmove_wd` of `common/image.c`.  With a watchdog the move is made chunk by chunk, from the low
addresses to the high ones.  A chunk that is moved upwards by less than the whole length lands on
bytes that later chunks still have to move.  So what the target `i` gets is what the target `j` got,
wherever `j` lies on the source of `i` and in an earlier chunk (`memmoveWd_get`), and that is
`memmove` exactly where these bytes are the same (`memmoveWd_eq_iff`).

The ranges do not wrap, so the addresses are natural numbers.
-/

namespace UBoot.Common

open UBoot.Lib

/-- `memmove_wd` with a watchdog.  Without a `chunksz` it would go on for ever. -/
def memmoveWd (m : Contents) (dst src len : Nat) {chunksz : Nat} (h : 0 < chunksz) : Contents :=
  if len > 0 then
    let tail := if len > chunksz then chunksz else len
    memmoveWd (LibGeneric.memmove m dst src tail) (dst + tail) (src + tail) (len - tail) h
  else m
termination_by len
decreasing_by
  split_ifs <;> omega

/-- No byte of the source that an earlier chunk has overwritten was a different one. -/
def Kept (m : Contents) (dst src len chunksz : Nat) : Prop :=
  ∀ i j, i < len → dst + j = src + i → j / chunksz < i / chunksz → m (src + i) = m (src + j)

section Chunks

variable {m : Contents} {dst src len chunksz : Nat} {h : 0 < chunksz}

theorem memmoveWd_zero : memmoveWd m dst src 0 h = m := by
  rw [memmoveWd, if_neg (Nat.lt_irrefl 0)]

/-- One chunk is left. -/
theorem memmoveWd_last (hle : len ≤ chunksz) :
    memmoveWd m dst src len h = LibGeneric.memmove m dst src len := by
  rcases Nat.eq_zero_or_pos len with rfl | hpos
  · rw [memmoveWd_zero]
    funext a
    rw [LibGeneric.memmove_out (LibGeneric.not_inRange_zero dst a)]
  · rw [memmoveWd, if_pos hpos]
    simp only [if_neg (Nat.not_lt_of_le hle), Nat.sub_self, memmoveWd_zero]

theorem memmoveWd_more (hlt : chunksz < len) :
    memmoveWd m dst src len h =
      memmoveWd (LibGeneric.memmove m dst src chunksz) (dst + chunksz) (src + chunksz)
        (len - chunksz) h := by
  rw [memmoveWd, if_pos (Nat.zero_lt_of_lt hlt)]
  simp only [if_pos hlt]

/-- Nothing else is changed. -/
theorem memmoveWd_out {a : Nat} (hout : ¬ InRange dst len a) :
    memmoveWd m dst src len h a = m a := by
  induction len using Nat.strong_induction_on generalizing m dst src with
  | _ len ih =>
    rcases Nat.lt_or_ge chunksz len with hlt | hge
    · rw [memmoveWd_more hlt, ih (len - chunksz) (by omega), LibGeneric.memmove_out]
      · rintro ⟨hlow, hhigh⟩
        exact hout ⟨hlow, by omega⟩
      · rintro ⟨hlow, hhigh⟩
        exact hout ⟨by omega, by omega⟩
    · rw [memmoveWd_last hge, LibGeneric.memmove_out hout]

/-- The first chunk is moved as it is. -/
theorem memmoveWd_first {i : Nat} (hi : i < len) (hfirst : i < chunksz) :
    memmoveWd m dst src len h (dst + i) = m (src + i) := by
  rcases Nat.lt_or_ge chunksz len with hlt | hge
  · rw [memmoveWd_more hlt, memmoveWd_out, LibGeneric.memmove_in hfirst]
    rintro ⟨hlow, -⟩
    omega
  · rw [memmoveWd_last hge, LibGeneric.memmove_in hi]

/-- The byte at a target: that of an earlier chunk if it has been put on the source. -/
theorem memmoveWd_get {i : Nat} (hi : i < len) :
    (∀ j, dst + j = src + i → j / chunksz < i / chunksz →
      memmoveWd m dst src len h (dst + i) = memmoveWd m dst src len h (dst + j)) ∧
    ((∀ j, dst + j = src + i → ¬ j / chunksz < i / chunksz) →
      memmoveWd m dst src len h (dst + i) = m (src + i)) := by
  induction len using Nat.strong_induction_on generalizing m dst src i with
  | _ len ih =>
    rcases Nat.lt_or_ge i chunksz with hfirst | hlater
    · refine ⟨?_, fun _ => memmoveWd_first hi hfirst⟩
      intro j _ hlt
      rw [Nat.div_eq_of_lt hfirst] at hlt
      exact absurd hlt (Nat.not_lt_zero _)
    · obtain ⟨i, rfl⟩ : ∃ k, i = chunksz + k := ⟨i - chunksz, by omega⟩
      obtain ⟨hsame, hnone⟩ := @ih (len - chunksz) (by omega)
        (LibGeneric.memmove m dst src chunksz) (dst + chunksz) (src + chunksz) i (by omega)
      have hdiv : ∀ k, (chunksz + k) / chunksz = k / chunksz + 1 := by
        intro k
        rw [Nat.add_div_left k h]
      rw [memmoveWd_more (by omega), ← Nat.add_assoc, ← Nat.add_assoc, hdiv]
      constructor
      · intro j hj hlt
        rcases Nat.lt_or_ge j chunksz with hjfirst | hjlater
        · -- the first chunk has been put on the source
          rw [hnone ?_, hj.symm]
          · rw [memmoveWd_out]
            rintro ⟨hlow, -⟩
            omega
          · intro k hk
            omega
        · obtain ⟨j, rfl⟩ : ∃ k, j = chunksz + k := ⟨j - chunksz, by omega⟩
          rw [hdiv] at hlt
          rw [← Nat.add_assoc]
          exact hsame j (by omega) (by omega)
      · intro hfar
        rw [hnone ?_, LibGeneric.memmove_out]
        · rintro ⟨hlow, hhigh⟩
          have hj := hfar (src + chunksz + i - dst) (by omega)
          rw [Nat.div_eq_of_lt (by omega)] at hj
          exact hj (Nat.succ_pos _)
        · intro k hk hlt
          have hj := hfar (chunksz + k) (by omega)
          rw [hdiv] at hj
          exact hj (by omega)

/-- Where the target is not upwards from the source, or behind all of it, or where one chunk is all
there is, nothing has been overwritten. -/
theorem kept_of_apart (hapart : dst ≤ src ∨ src + len ≤ dst ∨ len ≤ chunksz) :
    Kept m dst src len chunksz := by
  intro i j hi hj hlt
  rcases hapart with hdown | hbehind | hone
  · exact absurd hlt (Nat.not_lt_of_le (Nat.div_le_div_right (by omega)))
  · omega
  · have hzero : i / chunksz = 0 := Nat.div_eq_of_lt (by omega)
    rw [hzero] at hlt
    exact absurd hlt (Nat.not_lt_zero _)

/-- A byte of an earlier chunk is an earlier byte. -/
theorem lt_of_chunk_lt {i j : Nat} (hlt : j / chunksz < i / chunksz) : j < i := by
  by_contra hge
  exact absurd hlt (Nat.not_lt_of_le (Nat.div_le_div_right (Nat.le_of_not_lt hge)))

end Chunks

/-- In chunks the move is `memmove` exactly where no byte of the source has been overwritten with
a different one. -/
theorem memmoveWd_eq_iff (m : Contents) (dst src len : Nat) {chunksz : Nat} (h : 0 < chunksz) :
    memmoveWd m dst src len h = LibGeneric.memmove m dst src len ↔
      Kept m dst src len chunksz := by
  have hbytes : memmoveWd m dst src len h = LibGeneric.memmove m dst src len ↔
      ∀ i < len, memmoveWd m dst src len h (dst + i) = m (src + i) := by
    constructor
    · intro heq i hi
      rw [heq, LibGeneric.memmove_in hi]
    · intro hall
      funext a
      by_cases hin : InRange dst len a
      · obtain ⟨i, rfl⟩ : ∃ i, a = dst + i := ⟨a - dst, (Nat.add_sub_of_le hin.1).symm⟩
        have hi : i < len := Nat.lt_of_add_lt_add_left hin.2
        rw [hall i hi, LibGeneric.memmove_in hi]
      · rw [memmoveWd_out hin, LibGeneric.memmove_out hin]
  rw [hbytes]
  constructor
  · intro hall i j hi hj hlt
    have hji := lt_of_chunk_lt hlt
    rw [← hall i hi, (memmoveWd_get hi).1 j hj hlt, hall j (hji.trans hi)]
  · intro hkept i
    induction i using Nat.strong_induction_on with
    | _ i ih =>
      intro hi
      by_cases hover : ∃ j, dst + j = src + i ∧ j / chunksz < i / chunksz
      · obtain ⟨j, hj, hlt⟩ := hover
        have hji := lt_of_chunk_lt hlt
        rw [(memmoveWd_get hi).1 j hj hlt, ih j hji (hji.trans hi), hkept i j hi hj hlt]
      · exact (memmoveWd_get hi).2 fun j hj hlt => hover ⟨j, hj, hlt⟩

/-- A move downwards is one of any length in chunks of any size. -/
theorem memmoveWd_downwards :
    memmoveWd (fun a => if a = 4 then 1 else 0) 1 2 6 (by decide : 0 < 2) =
      LibGeneric.memmove (fun a => if a = 4 then 1 else 0) 1 2 6 :=
  (memmoveWd_eq_iff _ 1 2 6 _).mpr (kept_of_apart (.inl (by decide)))

/-- `CHUNKSZ` -/
def imageChunksz : Nat := 64 * 1024

theorem imageChunksz_pos : 0 < imageChunksz := by decide

/-- Up by one byte: the last byte of the first chunk is in the place of the first byte of the
second one before that is moved. -/
theorem memmoveWd_upwards :
    ∃ m : Contents, memmoveWd m 0x20000001 0x20000000 (imageChunksz + 1) imageChunksz_pos ≠
      LibGeneric.memmove m 0x20000001 0x20000000 (imageChunksz + 1) := by
  refine ⟨fun a => if a = 0x20000000 + imageChunksz then 1 else 0, ?_⟩
  intro heq
  have hmove := congrFun heq (0x20000001 + imageChunksz)
  have hover := (@memmoveWd_get (fun a => if a = 0x20000000 + imageChunksz then 1 else 0)
    0x20000001 0x20000000 _ _ imageChunksz_pos _ (Nat.lt_succ_self imageChunksz)).1
    (imageChunksz - 1) (by decide) (by decide)
  rw [hover, memmoveWd_first (by decide) (by decide), LibGeneric.memmove_in (Nat.lt_succ_self _)]
    at hmove
  exact absurd hmove (by decide)

end UBoot.Common
