import UBoot.Lib.Memory

/-!
# Words in either byte order

A machine word of `w` bytes and its bytes in memory.  `shiftIn` is the word behind one more byte
that is shifted in at the end of the word; in memory every byte moves one address down, whatever the
order (`bytesOf_shiftIn`), so a word that is shifted in byte by byte has these bytes in memory.
-/

namespace UBoot.Lib

inductive Endian
  | little
  | big
  deriving DecidableEq, Repr

/-- The bytes of a word, the low one first. -/
def leBytes : Nat → Nat → Bytes
  | 0, _ => []
  | w + 1, v => UInt8.ofNat v :: leBytes w (v / 256)

/-- The word with these bytes, the low one first. -/
def leWord : Bytes → Nat
  | [] => 0
  | b :: bs => b.toNat + 256 * leWord bs

/-- The bytes of a word in memory. -/
def bytesOf (e : Endian) (w v : Nat) : Bytes :=
  match e with
  | .little => leBytes w v
  | .big => (leBytes w v).reverse

/-- The word in these bytes of memory. -/
def wordOf (e : Endian) (bs : Bytes) : Nat :=
  match e with
  | .little => leWord bs
  | .big => leWord bs.reverse

/-- A byte shifted into a word of `w` bytes. -/
def shiftIn (e : Endian) (w v : Nat) (c : UInt8) : Nat :=
  match e with
  | .little => v >>> 8 ||| c.toNat <<< (8 * (w - 1))
  | .big => (v <<< 8 ||| c.toNat) % 2 ^ (8 * w)

section ByteOrder

variable {e : Endian} {w u v : Nat} {c : UInt8} {bs : Bytes}

theorem pow_eight_succ (w : Nat) : 2 ^ (8 * (w + 1)) = 256 * 2 ^ (8 * w) := by
  rw [Nat.mul_succ, Nat.pow_add, Nat.mul_comm]

/-! ## The low byte first -/

@[simp] theorem length_leBytes (w v : Nat) : (leBytes w v).length = w := by
  induction w generalizing v with
  | zero => rfl
  | succ w ih => rw [leBytes, List.length_cons, ih]

theorem leWord_lt (bs : Bytes) : leWord bs < 2 ^ (8 * bs.length) := by
  induction bs with
  | nil => exact Nat.one_pos
  | cons b bs ih =>
    have hb := b.toNat_lt
    rw [leWord, List.length_cons, pow_eight_succ]
    omega

theorem leBytes_leWord (bs : Bytes) : leBytes bs.length (leWord bs) = bs := by
  induction bs with
  | nil => rfl
  | cons b bs ih =>
    have hb := b.toNat_lt
    have hdiv : (b.toNat + 256 * leWord bs) / 256 = leWord bs := by omega
    have hlow : UInt8.ofNat (b.toNat + 256 * leWord bs) = b := by
      rw [← UInt8.toNat_inj, UInt8.toNat_ofNat']
      omega
    rw [List.length_cons, leBytes, leWord, hdiv, ih, hlow]

theorem leWord_leBytes (hv : v < 2 ^ (8 * w)) : leWord (leBytes w v) = v := by
  induction w generalizing v with
  | zero =>
    rw [Nat.mul_zero, Nat.pow_zero] at hv
    exact (Nat.lt_one_iff.mp hv).symm
  | succ w ih =>
    rw [pow_eight_succ] at hv
    have hrest : v / 256 < 2 ^ (8 * w) := Nat.div_lt_of_lt_mul hv
    rw [leBytes, leWord, ih hrest, UInt8.toNat_ofNat']
    omega

theorem leBytes_and (w u v : Nat) :
    leBytes w (u &&& v) = (leBytes w u).zipWith (· &&& ·) (leBytes w v) := by
  induction w generalizing u v with
  | zero => rfl
  | succ w ih =>
    have hdiv : (u &&& v) / 256 = u / 256 &&& v / 256 := by
      have hshift := Nat.shiftRight_and_distrib (a := u) (b := v) (i := 8)
      simp only [Nat.shiftRight_eq_div_pow] at hshift
      exact hshift
    have hlow : UInt8.ofNat (u &&& v) = UInt8.ofNat u &&& UInt8.ofNat v := by
      rw [← UInt8.toNat_inj, UInt8.toNat_and, UInt8.toNat_ofNat', UInt8.toNat_ofNat',
        UInt8.toNat_ofNat']
      exact Nat.and_mod_two_pow (n := 8)
    rw [leBytes, leBytes, leBytes, hdiv, ih, hlow, List.zipWith_cons_cons]

/-- A byte behind the high one. -/
theorem leBytes_append (hu : u < 2 ^ (8 * w)) :
    leBytes (w + 1) (u + c.toNat * 2 ^ (8 * w)) = leBytes w u ++ [c] := by
  induction w generalizing u with
  | zero =>
    rw [Nat.mul_zero, Nat.pow_zero] at hu ⊢
    obtain rfl := Nat.lt_one_iff.mp hu
    rw [Nat.mul_one, leBytes, leBytes, leBytes, Nat.zero_add c.toNat, UInt8.ofNat_toNat,
      List.nil_append]
  | succ w ih =>
    rw [pow_eight_succ] at hu ⊢
    have hmul : c.toNat * (256 * 2 ^ (8 * w)) = 256 * (c.toNat * 2 ^ (8 * w)) :=
      Nat.mul_left_comm _ _ _
    have hdiv : (u + c.toNat * (256 * 2 ^ (8 * w))) / 256 = u / 256 + c.toNat * 2 ^ (8 * w) := by
      rw [hmul]
      omega
    have hlow : UInt8.ofNat (u + c.toNat * (256 * 2 ^ (8 * w))) = UInt8.ofNat u := by
      rw [← UInt8.toNat_inj, UInt8.toNat_ofNat', UInt8.toNat_ofNat', hmul]
      omega
    rw [leBytes, hdiv, ih (Nat.div_lt_of_lt_mul hu), hlow]
    rfl

theorem leBytes_mod (w v : Nat) : leBytes w (v % 2 ^ (8 * w)) = leBytes w v := by
  induction w generalizing v with
  | zero => rfl
  | succ w ih =>
    have hdiv : v % 2 ^ (8 * (w + 1)) / 256 = v / 256 % 2 ^ (8 * w) := by
      rw [pow_eight_succ, Nat.mod_mul_right_div_self]
    have hlow : UInt8.ofNat (v % 2 ^ (8 * (w + 1))) = UInt8.ofNat v := by
      rw [← UInt8.toNat_inj, UInt8.toNat_ofNat', UInt8.toNat_ofNat', pow_eight_succ]
      exact Nat.mod_mul_right_mod _ _ _
    rw [leBytes, leBytes, hdiv, ih, hlow]

theorem leBytes_dropLast (w v : Nat) : (leBytes (w + 1) v).dropLast = leBytes w v := by
  induction w generalizing v with
  | zero => rfl
  | succ w ih =>
    rw [leBytes, leBytes, List.dropLast_cons_of_ne_nil (List.cons_ne_nil _ _), ← leBytes, ih,
      ← leBytes]

/-! ## Either order -/

@[simp] theorem length_bytesOf (e : Endian) (w v : Nat) : (bytesOf e w v).length = w := by
  cases e with
  | little => exact length_leBytes w v
  | big => exact List.length_reverse.trans (length_leBytes w v)

theorem wordOf_lt (e : Endian) (bs : Bytes) : wordOf e bs < 2 ^ (8 * bs.length) := by
  cases e with
  | little => exact leWord_lt bs
  | big =>
    have hlt := leWord_lt bs.reverse
    rwa [List.length_reverse] at hlt

theorem bytesOf_wordOf (e : Endian) (bs : Bytes) : bytesOf e bs.length (wordOf e bs) = bs := by
  cases e with
  | little => exact leBytes_leWord bs
  | big =>
    have hbytes := leBytes_leWord bs.reverse
    rw [List.length_reverse] at hbytes
    rw [bytesOf, wordOf, hbytes, List.reverse_reverse]

theorem wordOf_bytesOf (hv : v < 2 ^ (8 * w)) : wordOf e (bytesOf e w v) = v := by
  cases e with
  | little => exact leWord_leBytes hv
  | big => rw [bytesOf, wordOf, List.reverse_reverse, leWord_leBytes hv]

theorem bytesOf_and (e : Endian) (w u v : Nat) :
    bytesOf e w (u &&& v) = (bytesOf e w u).zipWith (· &&& ·) (bytesOf e w v) := by
  cases e with
  | little => exact leBytes_and w u v
  | big =>
    rw [bytesOf, bytesOf, bytesOf, leBytes_and,
      List.reverse_zipWith (by rw [length_leBytes, length_leBytes])]

/-- The bits of one word are among those of the other if that holds of their bytes. -/
theorem and_eq_iff (hv : v < 2 ^ (8 * w)) :
    u &&& v = v ↔ (bytesOf e w u).zipWith (· &&& ·) (bytesOf e w v) = bytesOf e w v := by
  rw [← bytesOf_and]
  constructor
  · intro h
    rw [h]
  · intro h
    have hand : u &&& v < 2 ^ (8 * w) := Nat.lt_of_le_of_lt Nat.and_le_right hv
    rw [← wordOf_bytesOf (e := e) hand, h, wordOf_bytesOf hv]

/-! ## Shifting in -/

theorem shiftRight_or (hw : 0 < w) (hv : v < 2 ^ (8 * w)) :
    v >>> 8 ||| c.toNat <<< (8 * (w - 1)) = v / 256 + c.toNat * 2 ^ (8 * (w - 1)) := by
  obtain ⟨w, rfl⟩ : ∃ k, w = k + 1 := ⟨w - 1, by omega⟩
  rw [pow_eight_succ] at hv
  have hlt : v / 256 < 2 ^ (8 * w) := Nat.div_lt_of_lt_mul hv
  have hor := Nat.two_pow_add_eq_or_of_lt hlt c.toNat
  rw [Nat.shiftRight_eq_div_pow, Nat.shiftLeft_eq, Nat.add_sub_cancel, Nat.or_comm,
    Nat.mul_comm c.toNat, ← hor, Nat.add_comm]

theorem shiftLeft_or (v : Nat) (c : UInt8) : v <<< 8 ||| c.toNat = 256 * v + c.toNat := by
  have hor := Nat.two_pow_add_eq_or_of_lt (i := 8) c.toNat_lt v
  rw [Nat.shiftLeft_eq, Nat.mul_comm v, ← hor]

theorem shiftIn_lt (hw : 0 < w) (hv : v < 2 ^ (8 * w)) : shiftIn e w v c < 2 ^ (8 * w) := by
  cases e with
  | little =>
    rw [shiftIn, shiftRight_or hw hv]
    obtain ⟨w, rfl⟩ : ∃ k, w = k + 1 := ⟨w - 1, by omega⟩
    rw [pow_eight_succ] at hv ⊢
    have hlt : v / 256 < 2 ^ (8 * w) := Nat.div_lt_of_lt_mul hv
    have hc : c.toNat * 2 ^ (8 * w) ≤ 255 * 2 ^ (8 * w) :=
      Nat.mul_le_mul_right _ (Nat.le_of_lt_succ c.toNat_lt)
    rw [Nat.add_sub_cancel]
    omega
  | big => exact Nat.mod_lt _ (Nat.two_pow_pos _)

/-- In memory every byte moves down, and the new one comes last. -/
theorem bytesOf_shiftIn (hw : 0 < w) (hv : v < 2 ^ (8 * w)) :
    bytesOf e w (shiftIn e w v c) = (bytesOf e w v).tail ++ [c] := by
  obtain ⟨w, rfl⟩ : ∃ k, w = k + 1 := ⟨w - 1, by omega⟩
  cases e with
  | little =>
    have hlt : v / 256 < 2 ^ (8 * w) := by
      rw [pow_eight_succ] at hv
      exact Nat.div_lt_of_lt_mul hv
    rw [bytesOf, shiftIn, shiftRight_or hw hv, Nat.add_sub_cancel, leBytes_append hlt]
    rfl
  | big =>
    have hc := c.toNat_lt
    have hdiv : (256 * v + c.toNat) / 256 = v := by omega
    have hlow : UInt8.ofNat (256 * v + c.toNat) = c := by
      rw [← UInt8.toNat_inj, UInt8.toNat_ofNat']
      omega
    rw [bytesOf, shiftIn, leBytes_mod, shiftLeft_or, leBytes, hdiv, hlow, List.reverse_cons,
      bytesOf, List.tail_reverse, leBytes_dropLast]

/-- Bytes shifted in one after the other. -/
theorem bytesOf_foldl_shiftIn (hw : 0 < w) (hv : v < 2 ^ (8 * w)) (hbs : bs.length ≤ w) :
    bs.foldl (shiftIn e w) v < 2 ^ (8 * w) ∧
      bytesOf e w (bs.foldl (shiftIn e w) v) = (bytesOf e w v).drop bs.length ++ bs := by
  induction bs generalizing v with
  | nil => exact ⟨hv, (List.append_nil _).symm⟩
  | cons c bs ih =>
    rw [List.length_cons] at hbs
    obtain ⟨hlt, hbytes⟩ := ih (shiftIn_lt (c := c) hw hv) (by omega)
    refine ⟨hlt, ?_⟩
    rw [List.foldl_cons, hbytes, bytesOf_shiftIn hw hv, List.length_cons,
      List.drop_append_of_le_length (by rw [List.length_tail, length_bytesOf]; omega),
      List.drop_tail, List.append_assoc, List.singleton_append]

end ByteOrder

end UBoot.Lib
