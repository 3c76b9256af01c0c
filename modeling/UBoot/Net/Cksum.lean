import UBoot.Lib.OnesComplement
import UBoot.Net.Arp

/-!
# The Internet checksum

`NetCksum` folds its sum two times, and for up to 65535 words that is enough: what it returns is
the one's complement sum of the words (`netCksum_eq`).  `NetCksumOk` takes both ways to write zero
(`netCksumOk_iff`), and a text with its checksum stored in it adds up to the second one
(`stored_modEq`), so that the header of `NetSetIP` is one that `NetReceive` takes.
-/

namespace UBoot.Net

open UBoot.Lib

section Sums

variable {p : Contents} {i n k : Nat} {a b : UInt8}

/-- The words that `NetCksum` adds. -/
def cksumWords (p : Contents) : Nat → Nat → List Nat
  | _, 0 => []
  | i, n + 1 => ((p i).toNat + (p (i + 1)).toNat * 256) :: cksumWords p (i + 2) n

theorem sum_cksumWords (p : Contents) (n : Nat) :
    ∀ i, (cksumWords p i n).sum = sumWords p i n := by
  induction n with
  | zero => intro i; rfl
  | succ n ih => intro i; rw [cksumWords, List.sum_cons, sumWords, ih]

theorem cksumWords_le (p : Contents) (n : Nat) : ∀ i, ∀ y ∈ cksumWords p i n, y ≤ 65535 := by
  induction n with
  | zero => intro i y hy; simp [cksumWords] at hy
  | succ n ih =>
    intro i y hy
    rcases List.mem_cons.mp hy with rfl | hy
    · have hlo := (p i).toNat_lt
      have hhi := (p (i + 1)).toNat_lt
      omega
    · exact ih _ y hy

theorem sumWords_le (p : Contents) (n : Nat) : ∀ i, sumWords p i n ≤ 65535 * n := by
  induction n with
  | zero => intro i; exact Nat.le_refl 0
  | succ n ih =>
    intro i
    have hlo := (p i).toNat_lt
    have hhi := (p (i + 1)).toNat_lt
    have hrest := ih (i + 2)
    rw [sumWords]
    omega

/-! ## Two folds -/

theorem foldOnce_modEq (x : Nat) : foldOnce x ≡ x [MOD 65535] := by
  simp only [foldOnce, Nat.ModEq]
  omega

theorem foldOnce_eq_zero_iff (x : Nat) : foldOnce x = 0 ↔ x = 0 := by
  rw [foldOnce]
  omega

theorem foldTwice_le {x : Nat} (hx : x ≤ 65535 * 65535) : foldOnce (foldOnce x) ≤ 65535 := by
  have hfirst : foldOnce x ≤ 131069 := by
    rw [foldOnce]
    omega
  rw [foldOnce]
  omega

/-- **`NetCksum` is the one's complement sum of the words.** -/
theorem netCksum_eq (p : Contents) (i : Nat) (hn : n ≤ 65535) :
    netCksum p i n = onesSum 65535 (cksumWords p i n) := by
  have hle := sumWords_le p n i
  have hlt : sumWords p i n < 2 ^ 32 := by omega
  have hfold := foldTwice_le (x := sumWords p i n) (by omega)
  rw [netCksum, Nat.mod_eq_of_lt hlt, Nat.mod_eq_of_lt (by omega)]
  refine eq_onesSum (cksumWords_le p n i) hfold ?_ ?_
  · rw [sum_cksumWords]
    exact (foldOnce_modEq _).trans (foldOnce_modEq _)
  · rw [sum_cksumWords, foldOnce_eq_zero_iff, foldOnce_eq_zero_iff]

theorem netCksum_modEq (p : Contents) (i : Nat) (hn : n ≤ 65535) :
    netCksum p i n ≡ sumWords p i n [MOD 65535] := by
  rw [netCksum_eq p i hn, ← sum_cksumWords]
  exact onesSum_modEq _ _

theorem netCksum_le (p : Contents) (i n : Nat) : netCksum p i n ≤ 65535 := by
  rw [netCksum]
  omega

/-! ## The check -/

/-- The mask leaves out the lowest bit and the carry. -/
theorem maskCarry_eq_zero_iff {x : Nat} (hx : x ≤ 65535) :
    (x + 1) &&& 0xfffe = 0 ↔ x = 0 ∨ x = 65535 := by
  have hhalf : ((x + 1) &&& 0xfffe) / 2 = (x + 1) / 2 % 32768 := by
    rw [Nat.and_div_two]
    exact Nat.and_two_pow_sub_one_eq_mod ((x + 1) / 2) 15
  have hodd : ((x + 1) &&& 0xfffe) % 2 = 0 := by
    have hbit := Nat.and_mod_two_eq_one (a := x + 1) (b := 0xfffe)
    omega
  omega

theorem netCksumOk_iff_modEq (p : Contents) (i : Nat) (hn : n ≤ 65535) :
    netCksumOk p i n ↔ sumWords p i n ≡ 0 [MOD 65535] := by
  have hle := netCksum_le p i n
  have hmod := netCksum_modEq p i hn
  rw [netCksumOk, beq_iff_eq, maskCarry_eq_zero_iff hle]
  simp only [Nat.ModEq] at hmod ⊢
  omega

/-! ## A checksum in its place -/

theorem toNat_storedCksum (p : Contents) (i n : Nat) :
    (UInt8.ofNat (0xffff - netCksum p i n)).toNat +
      (UInt8.ofNat ((0xffff - netCksum p i n) / 256)).toNat * 256 = 0xffff - netCksum p i n := by
  have hle := netCksum_le p i n
  rw [UInt8.toNat_ofNat', UInt8.toNat_ofNat']
  omega

/-- **The range adds up to zero** once its checksum is stored over a word that was zero. -/
theorem stored_modEq (hn : n ≤ 65535) (hk : k < n) (hlo : p (i + 2 * k) = 0)
    (hhi : p (i + 2 * k + 1) = 0) :
    sumWords (storeAt p (i + 2 * k) (storedCksum p i n)) i n ≡ 0 [MOD 65535] := by
  have hword : sumWords p (i + 2 * k) 1 = 0 := by simp [sumWords, hlo, hhi]
  have hle := netCksum_le p i n
  have hmod := netCksum_modEq p i hn
  have hsum := sumWords_storeAt (p := p) (i := i)
    (a := UInt8.ofNat (0xffff - netCksum p i n))
    (b := UInt8.ofNat ((0xffff - netCksum p i n) / 256)) hk
  rw [toNat_storedCksum, hword] at hsum
  simp only [Nat.ModEq] at hmod ⊢
  rw [storedCksum]
  omega

/-- It is the second zero that it adds up to. -/
theorem stored_pos (hk : k < n) (hlo : p (i + 2 * k) = 0)
    (hhi : p (i + 2 * k + 1) = 0) :
    0 < sumWords (storeAt p (i + 2 * k) (storedCksum p i n)) i n := by
  have hword : sumWords p (i + 2 * k) 1 = 0 := by simp [sumWords, hlo, hhi]
  have hzero : sumWords p i n = 0 → netCksum p i n = 0 := by
    intro h
    rw [netCksum, h]
    rfl
  have hsum := sumWords_storeAt (p := p) (i := i)
    (a := UInt8.ofNat (0xffff - netCksum p i n))
    (b := UInt8.ofNat ((0xffff - netCksum p i n) / 256)) hk
  rw [toNat_storedCksum, hword] at hsum
  rw [storedCksum]
  omega

/-! ## The bytes of a range -/

theorem readAt_two_add (p : Contents) (i n : Nat) :
    readAt p i (n + 2) = p i :: p (i + 1) :: readAt p (i + 2) n := by
  rw [readAt, List.range'_succ, List.range'_succ]
  rfl

theorem sum_wordsLE_even (p : Contents) (n : Nat) :
    ∀ i, (wordsLE (readAt p i (2 * n))).sum = sumWords p i n := by
  induction n with
  | zero => intro i; rfl
  | succ n ih =>
    intro i
    rw [Nat.mul_add, readAt_two_add, wordsLE, List.sum_cons, ih, sumWords]

/-- The last byte of an odd number is in no word of `NetCksum`. -/
theorem sum_wordsLE_odd (p : Contents) (n : Nat) :
    ∀ i, (wordsLE (readAt p i (2 * n + 1))).sum = sumWords p i n + (p (i + 2 * n)).toNat := by
  induction n with
  | zero => intro i; simp [readAt, wordsLE, sumWords]
  | succ n ih =>
    intro i
    have hlen : 2 * (n + 1) + 1 = 2 * n + 1 + 2 := by omega
    have hlast : i + 2 + 2 * n = i + 2 * (n + 1) := by omega
    rw [hlen, readAt_two_add, wordsLE, List.sum_cons, ih, sumWords, hlast]
    omega

/-- A range of whole words with its checksum in it. -/
theorem checksummed_stored (hn : n ≤ 65535) (hk : k < n) (hlo : p (i + 2 * k) = 0)
    (hhi : p (i + 2 * k + 1) = 0) :
    Checksummed (readAt (storeAt p (i + 2 * k) (storedCksum p i n)) i (2 * n)) := by
  have hpos := stored_pos hk hlo hhi
  rw [← sum_wordsLE_even] at hpos
  rw [checksummed_iff hpos, sum_wordsLE_even]
  exact stored_modEq hn hk hlo hhi

/-- With a byte behind the words, only a zero is covered. -/
theorem checksummed_stored_odd (hn : n ≤ 65535) (hk : k < n) (hlo : p (i + 2 * k) = 0)
    (hhi : p (i + 2 * k + 1) = 0) :
    Checksummed (readAt (storeAt p (i + 2 * k) (storedCksum p i n)) i (2 * n + 1)) ↔
      p (i + 2 * n) = 0 := by
  have hlast : storeAt p (i + 2 * k) (storedCksum p i n) (i + 2 * n) = p (i + 2 * n) := by
    refine storeAt_out ?_
    rw [length_storedCksum]
    rintro ⟨-, h⟩
    omega
  have hmod := stored_modEq hn hk hlo hhi
  have hpos : 0 < (wordsLE
      (readAt (storeAt p (i + 2 * k) (storedCksum p i n)) i (2 * n + 1))).sum := by
    have hpos := stored_pos hk hlo hhi
    rw [sum_wordsLE_odd]
    omega
  have hbyte := (p (i + 2 * n)).toNat_lt
  rw [checksummed_iff hpos, sum_wordsLE_odd, hlast, ← UInt8.toNat_inj, UInt8.toNat_zero]
  simp only [Nat.ModEq] at hmod ⊢
  omega

end Sums

/-- `NetSetIP` writes the header with no checksum in it, and then the checksum. -/
theorem netSetIP_fields (vars : NetVars) (ipid : UInt32) (p : Contents) (i : Nat) (dest : IPaddr)
    (dport sport len : Nat) :
    ∃ c data, data.length = 28 ∧ data.getD 10 0 = 0 ∧ data.getD 11 0 = 0 ∧
      netSetIP vars ipid p i dest dport sport len =
        storeAt (storeAt c i data) (i + 2 * 5) (storedCksum (storeAt c i data) i 10) :=
  ⟨_, _, rfl, rfl, rfl, rfl⟩

/-- The header of a datagram adds up to zero. -/
theorem netSetIP_modEq (vars : NetVars) (ipid : UInt32) (p : Contents) (i : Nat) (dest : IPaddr)
    (dport sport len : Nat) :
    sumWords (netSetIP vars ipid p i dest dport sport len) i 10 ≡ 0 [MOD 65535] := by
  obtain ⟨c, data, hlen, hlo, hhi, heq⟩ := netSetIP_fields vars ipid p i dest dport sport len
  have hzero (k : Nat) (hk : k < 28) (hbyte : data.getD k 0 = 0) :
      storeAt c i data (i + k) = 0 := by
    rw [storeAt_in ⟨by omega, by omega⟩, Nat.add_sub_cancel_left, hbyte]
  rw [heq]
  exact stored_modEq (by decide) (by decide) (hzero 10 (by decide) hlo)
    (hzero 11 (by decide) hhi)

/-- **The sum, the check and the generator agree.** -/
theorem internetChecksum_right (p : Contents) (i n : Nat) (vars : NetVars) (ipid : UInt32)
    (q : Contents) (j : Nat) (dest : IPaddr) (dport sport len : Nat) (hn : n ≤ 65535) :
    netCksum p i n = onesSum 65535 (cksumWords p i n) ∧
      (netCksumOk p i n ↔ onesSum 65535 (cksumWords p i n) ≡ 0 [MOD 65535]) ∧
      netCksumOk (netSetIP vars ipid q j dest dport sport len) j 10 := by
  refine ⟨netCksum_eq p i hn, ?_, ?_⟩
  · have hsum := onesSum_modEq 65535 (cksumWords p i n)
    rw [sum_cksumWords] at hsum
    rw [netCksumOk_iff_modEq p i hn]
    exact ⟨hsum.trans, hsum.symm.trans⟩
  · rw [netCksumOk_iff_modEq _ j (by decide)]
    exact netSetIP_modEq vars ipid q j dest dport sport len

/-- Three words of ones add up to the second zero. -/
theorem internetChecksum_ones :
    netCksum (fun _ => 0xff) 0 3 = 65535 ∧
      onesSum 65535 (cksumWords (fun _ => 0xff) 0 3) = 65535 ∧
      netCksumOk (fun _ => 0xff) 0 3 ∧
      netCksumOk (netSetIP someHost 7 (fun _ => 0) 14 0xc0a80001 69 1024 0) 14 10 := by
  obtain ⟨hsum, hok, hheader⟩ := internetChecksum_right (fun _ => 0xff) 0 3 someHost 7
    (fun _ => 0) 14 0xc0a80001 69 1024 0 (by decide)
  have hones : onesSum 65535 (cksumWords (fun _ => 0xff) 0 3) = 65535 := by decide
  rw [hones] at hsum hok
  exact ⟨hsum, hones, hok.mpr (by simp [Nat.ModEq]), hheader⟩

end UBoot.Net
