import UBoot.Lib.Blocks

/-!
# Packets in memory

The headers of `include/net.h` are read and written in place, at an index into the buffer
that holds the packet.  `word` is a field of 16 bits in network order, as `ntohs` gives it,
and an `IPaddr_t` is the number that its four bytes are in network order.

`NetCksum` adds the words as the processor reads them, which is a little endian one.
-/

namespace UBoot.Net

open UBoot.Lib

abbrev IPaddr := UInt32

/-- `ntohs` of the field at `i`. -/
def word (p : Contents) (i : Nat) : Nat := (p i).toNat * 256 + (p (i + 1)).toNat

theorem word_lt (p : Contents) (i : Nat) : word p i < 65536 := by
  have h := (p i).toNat_lt
  have h' := (p (i + 1)).toNat_lt
  rw [word]
  omega

/-- `htons` -/
def htons (n : Nat) : Bytes := [UInt8.ofNat (n / 256), UInt8.ofNat n]

/-- `NetReadIP` -/
def netReadIP (p : Contents) (i : Nat) : IPaddr :=
  UInt32.ofNat (word p i * 65536 + word p (i + 2))

/-- What `NetCopyIP` and `NetWriteIP` write. -/
def ipBytes (ip : IPaddr) : Bytes := htons (ip.toNat / 65536) ++ htons ip.toNat

/-! ## The Internet checksum -/

/-- The sum of the `n` words from `i` on, as the processor reads them. -/
def sumWords (p : Contents) : Nat → Nat → Nat
  | _, 0 => 0
  | i, n + 1 => (p i).toNat + (p (i + 1)).toNat * 256 + sumWords p (i + 2) n

def foldOnce (xsum : Nat) : Nat := xsum % 65536 + xsum / 65536

/-- `NetCksum` for a 32 bit `ulong` -/
def netCksum (p : Contents) (i n : Nat) : Nat :=
  foldOnce (foldOnce (sumWords p i n % 2 ^ 32)) % 65536

/-- `NetCksumOk` -/
def netCksumOk (p : Contents) (i n : Nat) : Bool := (netCksum p i n + 1) &&& 0xfffe == 0

/-- `~NetCksum(..)`, as it is stored in a header. -/
def storedCksum (p : Contents) (i n : Nat) : Bytes :=
  let xsum := 0xffff - netCksum p i n
  [UInt8.ofNat xsum, UInt8.ofNat (xsum / 256)]

/-- `while ((xsum >> 16) != 0)` -/
def foldXsum (xsum : Nat) : Nat :=
  if xsum / 65536 ≠ 0 then foldXsum (xsum % 65536 + xsum / 65536) else xsum
termination_by xsum
decreasing_by omega

/-- The words of a UDP packet of `n` bytes, a last odd byte in the upper half of its word. -/
def sumUdp (p : Contents) : Nat → Nat → Nat
  | _, 0 => 0
  | i, 1 => (p i).toNat * 256
  | i, n + 2 => word p i + sumUdp p (i + 2) n

/-! ## Fields that are written -/

section Fields

variable {p q c : Contents} {data : Bytes} {i j k n pos : Nat} {a b : UInt8}

theorem storeAt_in (h : InRange pos data.length k) : storeAt c pos data k = data.getD (k - pos) 0 :=
  if_pos h

theorem storeAt_out (h : ¬ InRange pos data.length k) : storeAt c pos data k = c k := if_neg h

theorem ipBytes_netReadIP : ipBytes (netReadIP p i) = readAt p i 4 := by
  have hlt := word_lt p i
  have hlt' := word_lt p (i + 2)
  have hnat : (netReadIP p i).toNat = word p i * 65536 + word p (i + 2) := by
    rw [netReadIP, UInt32.toNat_ofNat', Nat.mod_eq_of_lt (by omega)]
  have hbyte : ∀ {n : Nat} {b : UInt8}, n % 256 = b.toNat → UInt8.ofNat n = b := by
    intro n b h
    rw [← UInt8.toNat_inj, UInt8.toNat_ofNat', h]
  have h0 := (p i).toNat_lt
  have h1 := (p (i + 1)).toNat_lt
  have h2 := (p (i + 2)).toNat_lt
  have h3 := (p (i + 2 + 1)).toNat_lt
  rw [ipBytes, hnat, htons, htons, word, word]
  have hread : readAt p i 4 = [p i, p (i + 1), p (i + 2), p (i + 2 + 1)] := rfl
  rw [hread, hbyte (by omega : _ % 256 = (p i).toNat),
    hbyte (by omega : _ % 256 = (p (i + 1)).toNat), hbyte (by omega : _ % 256 = (p (i + 2)).toNat),
    hbyte (by omega : _ % 256 = (p (i + 2 + 1)).toNat)]
  rfl

theorem sumWords_congr (h : ∀ k < 2 * n, p (i + k) = q (j + k)) :
    sumWords p i n = sumWords q j n := by
  induction n generalizing i j with
  | zero => rfl
  | succ n ih =>
    have hrest : sumWords p (i + 2) n = sumWords q (j + 2) n := by
      refine ih fun k hk => ?_
      rw [Nat.add_assoc, Nat.add_assoc]
      exact h (2 + k) (by omega)
    rw [sumWords, sumWords, hrest, h 1 (by omega)]
    have hfirst := h 0 (by omega)
    rw [Nat.add_zero, Nat.add_zero] at hfirst
    rw [hfirst]

theorem length_storedCksum : (storedCksum p i n).length = 2 := rfl

theorem sumWords_add (p : Contents) (m n : Nat) :
    ∀ i, sumWords p i (m + n) = sumWords p i m + sumWords p (i + 2 * m) n := by
  induction m with
  | zero => intro i; simp [sumWords]
  | succ m ih =>
    intro i
    have hat : i + 2 + 2 * m = i + 2 * (m + 1) := by omega
    rw [Nat.add_right_comm, sumWords, sumWords, ih, hat]
    omega

/-- One word of the range is overwritten. -/
theorem sumWords_storeAt (hk : k < n) :
    sumWords (storeAt p (i + 2 * k) [a, b]) i n + sumWords p (i + 2 * k) 1 =
      sumWords p i n + (a.toNat + b.toNat * 256) := by
  obtain ⟨m, rfl⟩ : ∃ m, n = k + (1 + m) := ⟨n - k - 1, by omega⟩
  have hfront : sumWords (storeAt p (i + 2 * k) [a, b]) i k = sumWords p i k := by
    refine sumWords_congr fun l hl => storeAt_out ?_
    rintro ⟨h, -⟩
    omega
  have hbehind : sumWords (storeAt p (i + 2 * k) [a, b]) (i + 2 * k + 2 * 1) m =
      sumWords p (i + 2 * k + 2 * 1) m := by
    refine sumWords_congr fun l hl => storeAt_out ?_
    rintro ⟨-, h⟩
    simp only [List.length_cons, List.length_nil] at h
    omega
  have hword : sumWords (storeAt p (i + 2 * k) [a, b]) (i + 2 * k) 1 =
      a.toNat + b.toNat * 256 := by
    have hlo : storeAt p (i + 2 * k) [a, b] (i + 2 * k) = a := by
      rw [storeAt_in ⟨Nat.le_refl _, by simp⟩, Nat.sub_self]
      rfl
    have hhi : storeAt p (i + 2 * k) [a, b] (i + 2 * k + 1) = b := by
      rw [storeAt_in ⟨by omega, by simp⟩, Nat.add_sub_cancel_left]
      rfl
    rw [sumWords, hlo, hhi, sumWords, Nat.add_zero]
  rw [sumWords_add, sumWords_add, sumWords_add p k, sumWords_add p 1, hfront, hbehind, hword]
  omega

end Fields

end UBoot.Net
