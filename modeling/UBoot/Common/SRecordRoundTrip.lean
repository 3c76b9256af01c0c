import UBoot.Common.SRecord

/-!
# What `saves` writes is what `loads` reads

`srecord_roundTrip`: the characters of `save_serial`, fed to `load_serial`, store the same bytes at
the same addresses.  In between stands the record for some data at an address (`recordLine`): the
writer builds it from what it has collected, and the reader decodes it.
-/

namespace UBoot.Common.SRecord

open UBoot.Lib UBoot.LibGeneric

/-- Two digits for each byte. -/
def hexPairs (bs : Bytes) : Bytes := bs.flatMap fun b => [hex (b.toNat / 16), hex (b.toNat % 16)]

/-- The last bytes of a number, the highest one first. -/
def bytesOf : Nat → Nat → Bytes
  | 0, _ => []
  | k + 1, n => bytesOf k (n / 256) ++ [UInt8.ofNat (n % 256)]

/-- The last hexadecimal digits of a number. -/
def lastDigits : Nat → Nat → Bytes
  | 0, _ => []
  | w + 1, n => lastDigits w (n / 16) ++ [hex (n % 16)]

/-- The bytes of a data record in front of its checksum. -/
def recordBytes (address : Nat) (data : Bytes) : Bytes :=
  UInt8.ofNat (4 + data.length + 1) :: (bytesOf 4 address ++ data)

/-- The text of a data record. -/
def recordText (address : Nat) (data : Bytes) : Bytes :=
  str "S3" ++ hexPairs (recordBytes address data ++
    [~~~((recordBytes address data).foldl (· + ·) 0)])

/-- The characters arrive, and nobody interrupts. -/
def feed (cs : Bytes) : List (UInt8 × Bool) := cs.map (·, false)

section Digits

variable {w k n : Nat} {b : UInt8} {bs rest : Bytes}

theorem hex1Bin_hex : ∀ d < 16, hex1Bin (hex d) = some d := by decide

theorem hex2Bin_pair : hex2Bin (hex (b.toNat / 16) :: hex (b.toNat % 16) :: rest) = some b := by
  have hlt := b.toNat_lt
  have hhigh := hex1Bin_hex (b.toNat / 16) (by omega)
  have hlow := hex1Bin_hex (b.toNat % 16) (by omega)
  have hsum : b.toNat / 16 * 16 + b.toNat % 16 = b.toNat := by omega
  unfold hex2Bin
  simp only [charAt, List.tail_cons, hhigh, hlow, Option.bind_eq_bind, Option.bind_some, hsum,
    UInt8.ofNat_toNat, Option.pure_def]

/-- The pairs of digits are read as the bytes that they were written for. -/
theorem readPairs_hexPairs : readPairs bs.length (hexPairs bs ++ rest) = .ok (bs, rest) := by
  induction bs with
  | nil => rfl
  | cons b bs ih =>
    have htext : hexPairs (b :: bs) ++ rest =
        hex (b.toNat / 16) :: hex (b.toNat % 16) :: (hexPairs bs ++ rest) := rfl
    rw [htext, List.length_cons, readPairs, hex2Bin_pair]
    simp only [List.drop_succ_cons, List.drop_zero, ih]
    rfl

theorem hexPairs_append {cs : Bytes} : hexPairs (bs ++ cs) = hexPairs bs ++ hexPairs cs :=
  List.flatMap_append

theorem hexPairs_cons : hexPairs (b :: bs) = hexPairs [b] ++ hexPairs bs := rfl

theorem length_hexPairs : (hexPairs bs).length = 2 * bs.length := by
  induction bs with
  | nil => rfl
  | cons b bs ih =>
    show (hexPairs bs).length + 2 = 2 * (bs.length + 1)
    omega

theorem length_bytesOf : (bytesOf k n).length = k := by
  induction k generalizing n with
  | zero => rfl
  | succ k ih => rw [bytesOf, List.length_append, ih, List.length_singleton]

theorem upper_digit : ∀ d < 16, toupper (UInt8.ofNat (Nat.digitChar d).toNat) = hex d := by decide

theorem formatHex_of_lt (hn : n < 16) : formatHex w n = List.replicate (w - 1) 48 ++ [hex n] := by
  unfold formatHex
  rw [Nat.toDigits_of_lt_base hn, List.map_singleton, upper_digit n hn]
  rfl

theorem formatHex_of_le (hn : 16 ≤ n) :
    formatHex (w + 1) n = formatHex w (n / 16) ++ [hex (n % 16)] := by
  unfold formatHex
  dsimp only
  rw [Nat.toDigits_of_base_le (by decide) hn, List.map_append, List.map_singleton,
    upper_digit _ (Nat.mod_lt _ (by decide)), List.length_append, List.length_singleton,
    Nat.add_sub_add_right, List.append_assoc]

/-- A number that fits is printed with all digits of the width. -/
theorem formatHex_eq (hw : 0 < w) (hn : n < 16 ^ w) : formatHex w n = lastDigits w n := by
  induction w generalizing n with
  | zero => exact absurd hw (lt_irrefl 0)
  | succ w ih =>
    rcases Nat.lt_or_ge n 16 with hlt | hge
    · have hzeros : ∀ v, lastDigits v 0 = List.replicate v 48 := by
        intro v
        induction v with
        | zero => rfl
        | succ v ihv =>
          rw [lastDigits, Nat.zero_div, ihv, List.replicate_succ']
          rfl
      rw [formatHex_of_lt hlt, lastDigits, Nat.div_eq_of_lt hlt, Nat.mod_eq_of_lt hlt, hzeros]
      rfl
    · have hw : 0 < w := by
        rcases Nat.eq_zero_or_pos w with rfl | hpos
        · omega
        · exact hpos
      have hdiv : n / 16 < 16 ^ w := by
        rw [Nat.pow_succ] at hn
        exact Nat.div_lt_of_lt_mul (by omega)
      rw [formatHex_of_le hge, ih hw hdiv, lastDigits]

theorem lastDigits_two_mul : lastDigits (2 * k) n = hexPairs (bytesOf k n) := by
  induction k generalizing n with
  | zero => rfl
  | succ k ih =>
    have hlow : (UInt8.ofNat (n % 256)).toNat = n % 256 := by
      rw [UInt8.toNat_ofNat', Nat.mod_mod]
    have hpair : hexPairs [UInt8.ofNat (n % 256)] = [hex (n / 16 % 16), hex (n % 16)] := by
      show [hex ((UInt8.ofNat (n % 256)).toNat / 16), hex ((UInt8.ofNat (n % 256)).toNat % 16)] = _
      have hhigh : n % 256 / 16 = n / 16 % 16 := by omega
      have hmod : n % 256 % 16 = n % 16 := by omega
      rw [hlow, hhigh, hmod]
    rw [bytesOf, hexPairs_append, ← ih, hpair]
    show lastDigits (2 * k) (n / 16 / 16) ++ [hex (n / 16 % 16)] ++ [hex (n % 16)] = _
    rw [Nat.div_div_eq_div_mul, List.append_assoc]
    rfl

/-- A number of four bytes is read as it was written. -/
theorem addrOf_bytesOf (hn : n < 2 ^ 32) : addrOf (bytesOf 4 n) = n := by
  have hbyte : ∀ m : Nat, (UInt8.ofNat (m % 256)).toNat = m % 256 := by
    intro m
    rw [UInt8.toNat_ofNat', Nat.mod_mod]
  simp only [addrOf, bytesOf, List.nil_append, List.cons_append, List.foldl_cons, List.foldl_nil,
    hbyte]
  omega

/-! ## Checksums -/

theorem foldl_add (x : UInt8) :
    bs.foldl (· + ·) x = x + UInt8.ofNat (bs.map UInt8.toNat).sum := by
  induction bs generalizing x with
  | nil => exact (UInt8.add_zero x).symm
  | cons b bs ih =>
    rw [List.foldl_cons, ih, List.map_cons, List.sum_cons, UInt8.ofNat_add, UInt8.ofNat_toNat,
      UInt8.add_assoc]

/-- `~checksum & 0xff` -/
theorem not_ofNat : ~~~ UInt8.ofNat n = UInt8.ofNat (255 - n % 256) := by
  apply UInt8.toNat_inj.mp
  rw [UInt8.toNat_not, UInt8.toNat_ofNat', UInt8.toNat_ofNat']
  show 256 - 1 - n % 256 = (255 - n % 256) % 256
  omega

theorem sum_bytesOf : ((bytesOf 4 n).map UInt8.toNat).sum =
    n % 256 + n / 256 % 256 + n / 65536 % 256 + n / 16777216 % 256 := by
  have hbyte : ∀ m : Nat, (UInt8.ofNat (m % 256)).toNat = m % 256 := by
    intro m
    rw [UInt8.toNat_ofNat', Nat.mod_mod]
  simp only [bytesOf, List.nil_append, List.cons_append, List.map_cons, List.map_nil,
    List.sum_cons, List.sum_nil, hbyte]
  omega

end Digits

section Record

variable {address n : Nat} {data rest : Bytes} {s : Saver}

/-! ## A record -/

theorem checksum_recordBytes (hlen : data.length ≤ 16) :
    ~~~((recordBytes address data).foldl (· + ·) 0) = UInt8.ofNat (255 -
      ((data.map UInt8.toNat).sum +
        ((4 + data.length + 1) % 256 + (4 + data.length + 1) / 256 % 256) +
        (address % 256 + address / 256 % 256 + address / 65536 % 256 +
          address / 16777216 % 256)) % 256) := by
  have hlow : (UInt8.ofNat (4 + data.length + 1)).toNat = 4 + data.length + 1 := by
    rw [UInt8.toNat_ofNat', Nat.mod_eq_of_lt (by omega)]
  rw [foldl_add, UInt8.zero_add, not_ofNat]
  unfold recordBytes
  rw [List.map_cons, List.map_append, List.sum_cons, List.sum_append, sum_bytesOf, hlow]
  congr 3
  omega

/-- The text, field by field. -/
theorem recordText_eq : recordText address data = str "S3" ++
    (hexPairs [UInt8.ofNat (4 + data.length + 1)] ++ (hexPairs (bytesOf 4 address) ++
      (hexPairs data ++ hexPairs [~~~((recordBytes address data).foldl (· + ·) 0)]))) := by
  unfold recordText
  rw [hexPairs_append]
  nth_rewrite 1 [recordBytes]
  rw [hexPairs_cons, hexPairs_append, List.append_assoc, List.append_assoc]

/-- What is collected for a record. -/
structure Collected (s : Saver) (address : Nat) (data : Bytes) : Prop where
  address : s.address = address
  reclen : s.reclen = data.length
  checksum : s.checksum = (data.map UInt8.toNat).sum
  data : s.data.take (2 * s.reclen) = hexPairs data

/-- The writer builds the record. -/
theorem buildRecord_eq (h : Collected s address data) (hdata : s.data.length = 2 * s.reclen)
    (haddress : address < 2 ^ 32) (hlen : data.length ≤ 16) :
    buildRecord s = recordText address data ++ [10] := by
  obtain ⟨haddr, hreclen, hsum, htext⟩ := h
  rw [List.take_of_length_le hdata.le] at htext
  have hone : ∀ n < 256, formatHex 2 n = hexPairs [UInt8.ofNat n] := by
    intro n hn
    rw [formatHex_eq (by decide) hn]
    exact (lastDigits_two_mul (k := 1)).trans (by rw [bytesOf, Nat.mod_eq_of_lt hn]; rfl)
  have hfour : formatHex 8 address = hexPairs (bytesOf 4 address) := by
    rw [formatHex_eq (by decide) haddress]
    exact lastDigits_two_mul (k := 4)
  unfold buildRecord
  dsimp only
  rw [haddr, hreclen, hsum, htext, hfour, hone _ (by omega), hone _ (by omega), recordText_eq,
    checksum_recordBytes hlen]
  simp only [List.append_assoc]

/-- The reader decodes it. -/
theorem srecDecode_recordText (haddress : address < 2 ^ 32) (hlen : data.length ≤ 16) :
    srecDecode (recordText address data) = .ok (some ⟨.data4, data.length, address, data⟩) := by
  have hcount : (UInt8.ofNat (4 + data.length + 1)).toNat = 4 + data.length + 1 := by
    rw [UInt8.toNat_ofNat', Nat.mod_eq_of_lt (by omega)]
  have htype : recordType 51 (charAt [UInt8.ofNat (4 + data.length + 1)]).toNat =
      .ok (.data4, data.length, 4) := by
    have hsub : ((4 + data.length + 1 : Nat) : Int) - 5 = data.length := by omega
    rw [charAt, hcount]
    show Except.ok (SrecType.data4, ((4 + data.length + 1 : Nat) : Int) - 5, 4) = _
    rw [hsub]
  have hone : ∀ (b : UInt8) rest, readPairs 1 (hexPairs [b] ++ rest) = .ok ([b], rest) :=
    fun b _ => @readPairs_hexPairs [b] _
  have hfour : ∀ rest, readPairs 4 (hexPairs (bytesOf 4 address) ++ rest) =
      .ok (bytesOf 4 address, rest) := by
    intro rest
    have hpairs : readPairs (bytesOf 4 address).length (hexPairs (bytesOf 4 address) ++ rest) =
      .ok (bytesOf 4 address, rest) := readPairs_hexPairs
    rwa [length_bytesOf] at hpairs
  have hdata : ∀ rest, readPairs (data.length : Int).toNat (hexPairs data ++ rest) =
      .ok (data, rest) := fun rest => readPairs_hexPairs
  have hcheck := hone (~~~((recordBytes address data).foldl (· + ·) 0)) []
  rw [List.append_nil] at hcheck
  have hskip : ∀ text : Bytes, ((str "S3" ++ text).dropWhile (· ≠ 83)).tail = 51 :: text :=
    fun _ => rfl
  rw [recordText_eq]
  unfold srecDecode
  rw [hskip]
  simp only [hone, htype, hfour, hdata, hcheck, bind, Except.bind]
  have hsum : charAt [~~~((recordBytes address data).foldl (· + ·) 0)] =
      ~~~(([UInt8.ofNat (4 + data.length + 1)] ++ bytesOf 4 address ++ data).foldl (· + ·) 0) := by
    rw [List.append_assoc]
    rfl
  rw [if_neg (not_not_intro hsum), addrOf_bytesOf haddress]

end Record

/-- `record[]` of `save_serial` -/
def saveBufferSize : Nat := 2 * srecBytesPerRecord + 16

/-- The bytes so far have been stored. -/
def stored (src dst : Contents) (base k : Nat) : Loader where
  mem := storeAt dst base (readAt src base k)
  startAddr := if k = 0 then allOnes else base
  endAddr := if k = 0 then 0 else base + k - 1

section Lines

variable {cfg : LoadConfig} {src dst : Contents} {base address k m n fuel : Nat}
  {data text rest : Bytes} {l : Loader} {s : Saver}

/-! ## Lines -/

/-- A character that stands inside a line. -/
def Inside (c : UInt8) : Prop := c ≠ 13 ∧ c ≠ 10 ∧ c ≠ 0 ∧ c ≠ 3

instance (c : UInt8) : Decidable (Inside c) := inferInstanceAs (Decidable (_ ∧ _ ∧ _ ∧ _))

theorem inside_of_all (h : text.all (fun c => decide (Inside c)) = true) : ∀ c ∈ text, Inside c :=
  fun c hc => of_decide_eq_true (List.all_eq_true.mp h c hc)

theorem inside_hex : ∀ d < 16, Inside (hex d) := by decide

theorem inside_hexPairs : ∀ c ∈ hexPairs data, Inside c := by
  intro c hc
  obtain ⟨b, -, hc⟩ := List.mem_flatMap.mp hc
  have hlt := b.toNat_lt
  rcases List.mem_cons.mp hc with rfl | hc
  · exact inside_hex _ (by omega)
  · rw [List.mem_singleton.mp hc]
    exact inside_hex _ (Nat.mod_lt _ (by decide))

theorem inside_recordText : ∀ c ∈ recordText address data, Inside c := by
  intro c hc
  rcases List.mem_append.mp hc with hc | hc
  · have hboth : c = 83 ∨ c = 51 := by
      rcases List.mem_cons.mp hc with h | hc
      · exact Or.inl h
      · exact Or.inr (List.mem_singleton.mp hc)
    rcases hboth with rfl | rfl
    · decide
    · decide
  · exact inside_hexPairs c hc

theorem length_recordText : (recordText address data).length = 14 + 2 * data.length := by
  have hlength : (recordText address data).length = 2 + (hexPairs (recordBytes address data ++
      [~~~((recordBytes address data).foldl (· + ·) 0)])).length := by
    rw [recordText, List.length_append]
    rfl
  rw [hlength, length_hexPairs, List.length_append, recordBytes, List.length_cons,
    List.length_append, length_bytesOf, List.length_singleton]
  omega

theorem readRecordLoop_line {room : Nat} {buf : Bytes} (htext : ∀ c ∈ text, Inside c)
    (hroom : text.length < room) :
    readRecordLoop room buf (feed (text ++ 10 :: rest)) = .line (buf ++ text) (feed rest) := by
  induction text generalizing room buf with
  | nil =>
    obtain ⟨room, rfl⟩ := Nat.exists_eq_succ_of_ne_zero (Nat.pos_iff_ne_zero.mp hroom)
    rw [List.append_nil]
    exact if_pos (Or.inr rfl)
  | cons c text ih =>
    obtain ⟨room, rfl⟩ := Nat.exists_eq_succ_of_ne_zero (Nat.ne_zero_of_lt hroom)
    obtain ⟨hcr, hlf, hnul, hetx⟩ := htext c (List.mem_cons_self ..)
    have hfeed : feed (c :: text ++ 10 :: rest) = (c, false) :: feed (text ++ 10 :: rest) := rfl
    rw [hfeed, readRecordLoop, if_neg (not_or_intro hcr hlf), if_neg (not_or_intro hnul hetx),
      if_neg Bool.false_ne_true, ih (fun c hc => htext c (List.mem_cons_of_mem _ hc))
        (Nat.lt_of_succ_lt_succ hroom), List.append_assoc]
    rfl

/-- A line that fits the buffer is read. -/
theorem readRecord_line (htext : ∀ c ∈ text, Inside c) (hroom : text.length < srecMaxRecLen) :
    readRecord (feed (text ++ 10 :: rest)) (srecMaxRecLen + 1) = .line text (feed rest) := by
  unfold readRecord
  rw [Nat.add_sub_cancel, readRecordLoop_line htext hroom, List.nil_append]

/-! ## Loading -/

/-- A copy of a range. -/
theorem storeAt_readAt_apply {a : Nat} :
    storeAt dst base (readAt src base k) a = if InRange base k a then src a else dst a := by
  unfold storeAt
  rw [length_readAt]
  split
  · rename_i hin
    obtain ⟨hle, hlt⟩ := hin
    have hoff : base + (a - base) = a := by omega
    rw [List.getD_eq_getElem?_getD, getElem?_readAt (by omega), Option.getD_some, hoff]
  · rfl

/-- Two copies one behind the other. -/
theorem storeAt_readAt_add : storeAt (storeAt dst base (readAt src base k)) (base + k)
    (readAt src (base + k) m) = storeAt dst base (readAt src base (k + m)) := by
  funext a
  rw [storeAt_readAt_apply, storeAt_readAt_apply, storeAt_readAt_apply]
  by_cases hsecond : InRange (base + k) m a
  · have hboth : InRange base (k + m) a := by
      unfold InRange at hsecond ⊢
      omega
    rw [if_pos hsecond, if_pos hboth]
  · have hfirst : InRange base k a ↔ InRange base (k + m) a := by
      unfold InRange at hsecond ⊢
      omega
    rw [if_neg hsecond]
    exact if_congr hfirst rfl rfl

/-- A data record behind the bytes so far. -/
theorem storeRecord_stored (hflash : addr2info cfg.banks (base + k) = none) (hm : 0 < m)
    (hend : base + k + m ≤ 2 ^ 32) :
    storeRecord cfg 0 (stored src dst base k)
      ⟨.data4, (readAt src (base + k) m).length, base + k, readAt src (base + k) m⟩ =
        some (0, stored src dst base (k + m)) := by
  have hcount : ¬ ((m : Nat) : Int) < 0 := Int.not_lt.mpr (Int.natCast_nonneg m)
  have haddr : (base + k + 0) % 2 ^ 32 = base + k := Nat.mod_eq_of_lt (by omega)
  have hlast : (base + k + m + 2 ^ 32 - 1) % 2 ^ 32 = base + k + m - 1 := by omega
  have hstart : (if base + k < if k = 0 then allOnes else base then base + k
      else if k = 0 then allOnes else base) = if k + m = 0 then allOnes else base := by
    rw [if_neg (Nat.ne_of_gt (Nat.add_pos_right k hm))]
    rcases Nat.eq_zero_or_pos k with rfl | hk
    · rw [if_pos rfl]
      unfold allOnes
      split
      · rfl
      · omega
    · rw [if_neg (Nat.ne_of_gt hk), if_neg (by omega)]
  have hend' : (if (if k = 0 then 0 else base + k - 1) < base + k + m - 1 then base + k + m - 1
      else if k = 0 then 0 else base + k - 1) = if k + m = 0 then 0 else base + (k + m) - 1 := by
    rw [if_neg (Nat.ne_of_gt (Nat.add_pos_right k hm))]
    rcases Nat.eq_zero_or_pos k with rfl | hk
    · rw [if_pos rfl]
      split
      · omega
      · omega
    · rw [if_neg (Nat.ne_of_gt hk), if_pos (by omega), Nat.add_assoc]
  unfold storeRecord
  rw [length_readAt, if_neg hcount]
  dsimp only
  rw [haddr, hflash]
  simp only [Option.isSome_none, Bool.false_eq_true, if_false, Int.toNat_natCast]
  rw [hlast]
  unfold stored
  rw [storeAt_readAt_add]
  dsimp only
  rw [hstart, hend']

/-- The line of a data record is loaded. -/
theorem loadLoop_record (hflash : addr2info cfg.banks (base + k) = none) (hm : 0 < m)
    (hmax : m ≤ 16) (hend : base + k + m ≤ 2 ^ 32) :
    loadLoop cfg 0 (fuel + 1) (stored src dst base k)
      (feed (recordText (base + k) (readAt src (base + k) m) ++ 10 :: rest)) =
        loadLoop cfg 0 fuel (stored src dst base (k + m)) (feed rest) := by
  have hfits : (recordText (base + k) (readAt src (base + k) m)).length < srecMaxRecLen := by
    rw [length_recordText, length_readAt]
    unfold srecMaxRecLen
    omega
  rw [loadLoop, readRecord_line inside_recordText hfits]
  dsimp only
  rw [srecDecode_recordText (by omega) (by rw [length_readAt]; exact hmax)]
  dsimp only
  rw [if_pos (Or.inr (Or.inr rfl)), storeRecord_stored hflash hm hend]
  rfl

/-- The first line is passed over. -/
theorem loadLoop_start : loadLoop cfg 0 (fuel + 1) l (feed (srec3Start ++ rest)) =
    loadLoop cfg 0 fuel l (feed rest) := by
  have htext : srec3Start ++ rest = str "S0030000FC" ++ 10 :: rest := rfl
  rw [htext, loadLoop, readRecord_line (inside_of_all (by decide)) (by decide)]
  rfl

/-- At the last line, the size is what lies between the first address and the last one. -/
theorem loadLoop_end : loadLoop cfg 0 (fuel + 1) l (feed srec3End) =
    some ⟨0, l.mem, some (formatHex 0 ((l.endAddr + 2 ^ 32 - l.startAddr + 1) % 2 ^ 32))⟩ := by
  have htext : srec3End = str "S70500000000FA" ++ 10 :: [] := rfl
  rw [htext, loadLoop, readRecord_line (inside_of_all (by decide)) (by decide)]
  rfl

/-! ## Saving -/

/-- The bytes behind an address have been collected. -/
structure Collecting (src : Contents) (address m : Nat) (s : Saver) : Prop where
  place : s.address = address % 2 ^ 32
  reclen : s.reclen = m
  checksum : s.checksum = ((readAt src address m).map UInt8.toNat).sum
  data : s.data.take (2 * m) = hexPairs (readAt src address m)

theorem Collecting.collect (h : Collecting src address m s) (hlt : address + m < 2 ^ 32) :
    Collecting src address (m + 1) (collect src s) := by
  obtain ⟨haddr, hreclen, hsum, hdata⟩ := h
  have hplace : (s.address + s.reclen) % 2 ^ 32 = address + m := by
    rw [haddr, hreclen]
    omega
  have hlast : readAt src address (m + 1) = readAt src address m ++ [src (address + m)] :=
    readAt_add src address m 1
  have hbyte := (src (address + m)).toNat_lt
  have hhigh : (src (address + m)).toNat / 16 % 16 = (src (address + m)).toNat / 16 := by omega
  unfold SRecord.collect
  dsimp only
  rw [hplace, hreclen, hdata, hhigh]
  refine ⟨haddr, rfl, ?_, ?_⟩
  · dsimp only
    rw [hsum, hlast, List.map_append, List.sum_append]
    exact congrArg (_ + ·) (Nat.add_zero _).symm
  · dsimp only
    rw [hlast, hexPairs_append]
    refine List.take_of_length_le ?_
    rw [List.length_append, length_hexPairs, length_readAt]
    exact le_rfl

theorem length_collect (h : Collecting src address m s) :
    (SRecord.collect src s).data.length = 2 * (SRecord.collect src s).reclen := by
  have htake := congrArg List.length h.data
  rw [length_hexPairs, length_readAt] at htake
  unfold SRecord.collect
  dsimp only
  rw [h.reclen, List.length_append, htake]
  rfl

/-- A record is built for what has been collected. -/
theorem Collecting.buildRecord (h : Collecting src address m s)
    (hdata : s.data.length = 2 * s.reclen) (hlt : address < 2 ^ 32) (hmax : m ≤ 16) :
    buildRecord s = recordText address (readAt src address m) ++ [10] := by
  have hlen : (readAt src address m).length = m := length_readAt ..
  refine buildRecord_eq ⟨?_, h.reclen.trans hlen.symm, h.checksum, ?_⟩ hdata hlt (by omega)
  · rw [h.place, Nat.mod_eq_of_lt hlt]
  · rw [h.reclen]
    exact h.data

/-- Behind a record, nothing has been collected. -/
theorem Collecting.nextRecord (h : Collecting src address m s) :
    Collecting src (address + m) 0 (nextRecord s) := by
  refine ⟨?_, rfl, rfl, rfl⟩
  show (s.address + s.reclen) % 2 ^ 32 = _
  rw [h.place, h.reclen, Nat.mod_add_mod]

/-- Loading the records of `save_serial` goes on where the bytes so far end. -/
theorem loadLoop_saveLoop (h : Collecting src (base + k) m s) (hm : n = 0 → m = 0)
    (hmax : m < 16) (hend : base + k + m + n ≤ 2 ^ 32)
    (hflash : ∀ a, InRange base (k + m + n) a → addr2info cfg.banks a = none) :
    loadLoop cfg 0 ((saveLoop src n s).length + fuel) (stored src dst base k)
      (feed ((saveLoop src n s).flatten ++ rest)) =
        loadLoop cfg 0 fuel (stored src dst base (k + m + n)) (feed rest) := by
  induction n generalizing k m s with
  | zero =>
    rw [hm rfl, saveLoop, List.length_nil, Nat.zero_add]
    rfl
  | succ n ih =>
    have hcollect := h.collect (by omega)
    have hlength := length_collect h
    rw [saveLoop]
    split
    · have hnext := hcollect.nextRecord
      have hrest : base + k + (m + 1) = base + (k + (m + 1)) := Nat.add_assoc ..
      rw [hrest] at hnext
      rw [hcollect.buildRecord hlength (by omega) (by omega), List.length_cons,
        List.flatten_cons, Nat.succ_add_eq_add_succ, Nat.add_succ, List.append_assoc,
        List.append_assoc, List.singleton_append]
      rw [loadLoop_record (hflash _ ⟨by omega, by omega⟩) (by omega) (by omega) (by omega)]
      rw [ih hnext (fun _ => rfl) (by omega) (by omega)
        (fun a ha => hflash a ⟨ha.1, by have := ha.2; omega⟩)]
      congr 2
      omega
    · rename_i hno
      have hnot := not_or.mp hno
      have hreclen := hcollect.reclen
      have hsixteen : m + 1 ≠ 16 := fun heq => hnot.1 (hreclen.trans heq)
      rw [ih hcollect (fun hn => absurd hn hnot.2) (by omega) (by omega)
        (fun a ha => hflash a ⟨ha.1, by have := ha.2; omega⟩)]
      congr 2
      omega

/-- Every record that is built is one for sixteen bytes at most. -/
theorem saveLoop_records (h : Collecting src address m s) (hmax : m < 16)
    (hend : address + m + n ≤ 2 ^ 32) {record : Bytes} (hmem : record ∈ saveLoop src n s) :
    ∃ a data, data.length ≤ 16 ∧ record = recordText a data ++ [10] := by
  induction n generalizing address m s with
  | zero => cases hmem
  | succ n ih =>
    have hcollect := h.collect (by omega)
    rw [saveLoop] at hmem
    split at hmem
    · rcases List.mem_cons.mp hmem with rfl | hmem
      · refine ⟨address, readAt src address (m + 1), by rw [length_readAt]; omega, ?_⟩
        exact hcollect.buildRecord (length_collect h) (by omega) (by omega)
      · exact ih hcollect.nextRecord (by omega) (by omega) hmem
    · rename_i hno
      have hsixteen : m + 1 ≠ 16 := fun heq => (not_or.mp hno).1 (hcollect.reclen.trans heq)
      exact ih hcollect (by omega) (by omega) hmem

/-- Without an interruption, all records are written. -/
theorem writeRecords_flatten {ctrlc : Nat → Bool} {records : List Bytes}
    (h : (writeRecords ctrlc n records).2 = 0) :
    (writeRecords ctrlc n records).1 = records.flatten := by
  induction records generalizing n with
  | nil => rfl
  | cons record records ih =>
    rw [writeRecords] at h ⊢
    split at h
    · cases h
    · rename_i hctrlc
      rw [if_neg hctrlc]
      exact congrArg (record ++ ·) (ih h)

theorem collecting_start (haddress : address < 2 ^ 32) :
    Collecting src address 0 ⟨address, 0, 0, []⟩ :=
  ⟨(Nat.mod_eq_of_lt haddress).symm, rfl, rfl, rfl⟩

theorem length_le_flatten {records : List Bytes} (h : ∀ record ∈ records, 0 < record.length) :
    records.length ≤ records.flatten.length := by
  induction records with
  | nil => exact Nat.zero_le _
  | cons record records ih =>
    have hfirst := h record (List.mem_cons_self ..)
    have hrest := ih fun r hr => h r (List.mem_cons_of_mem _ hr)
    rw [List.length_cons, List.flatten_cons, List.length_append]
    omega

/-- In front of the first record, nothing has been stored. -/
theorem stored_zero : stored src dst base 0 = ⟨dst, allOnes, 0⟩ := by
  have hmem : storeAt dst base (readAt src base 0) = dst := by
    funext a
    rw [storeAt_readAt_apply]
    exact if_neg fun h => absurd h.2 (Nat.not_lt.mpr h.1)
  unfold stored
  rw [hmem]
  rfl

/-- What `save_serial` writes is loaded to the same addresses, and nothing else is changed; its
records fit the buffers of the writer and of the reader. -/
theorem srecord_roundTrip {ctrlc : Nat → Bool} {count : Nat} (hcount : 0 < count)
    (hulong : count < 2 ^ 32) (hend : address + count ≤ 2 ^ 32)
    (hflash : ∀ a, InRange address count a → addr2info cfg.banks a = none)
    (hsaved : (saveSerial src ctrlc address count).2 = 0) :
    (∃ loaded, loadSerial cfg 0 dst (feed (saveSerial src ctrlc address count).1) = some loaded ∧
      loaded.addr = 0 ∧ loaded.filesize = some (formatHex 0 count) ∧
      ∀ a, loaded.mem a = if InRange address count a then src a else dst a) ∧
    ∀ record ∈ saveRecords src address count,
      record.length + 1 ≤ saveBufferSize ∧ record.length ≤ srecMaxRecLen := by
  have hstart : Collecting src address 0 ⟨address, 0, 0, []⟩ := collecting_start (by omega)
  have hlength : ∀ record ∈ saveLoop src count ⟨address, 0, 0, []⟩,
      0 < record.length ∧ record.length ≤ 47 := by
    intro record hrecord
    obtain ⟨a, data, hdata, rfl⟩ := saveLoop_records hstart (by decide) hend hrecord
    rw [List.length_append, length_recordText, List.length_singleton]
    omega
  constructor
  · have hsaveRecords := writeRecords_flatten hsaved
    have hinput : (saveSerial src ctrlc address count).1 = srec3Start ++
        ((saveLoop src count ⟨address, 0, 0, []⟩).flatten ++ srec3End) := by
      refine hsaveRecords.trans ?_
      rw [saveRecords, List.flatten_cons, List.flatten_append, List.flatten_singleton]
    have hlines := length_le_flatten fun r hr => (hlength r hr).1
    have hfuel : ∃ fuel, (feed (saveSerial src ctrlc address count).1).length + 1 =
        (saveLoop src count ⟨address, 0, 0, []⟩).length + (fuel + 1) + 1 := by
      refine ⟨(feed (saveSerial src ctrlc address count).1).length - 1 -
        (saveLoop src count ⟨address, 0, 0, []⟩).length, ?_⟩
      have hlong : (feed (saveSerial src ctrlc address count).1).length =
          11 + ((saveLoop src count ⟨address, 0, 0, []⟩).flatten.length + 15) := by
        rw [feed, List.length_map, hinput, List.length_append, List.length_append]
        rfl
      omega
    obtain ⟨fuel, hfuel⟩ := hfuel
    have hload : loadSerial cfg 0 dst (feed (saveSerial src ctrlc address count).1) = some
        ⟨0, storeAt dst address (readAt src address count), some (formatHex 0 count)⟩ := by
      have hzero : ⟨dst, allOnes, 0⟩ = stored src dst address 0 := stored_zero.symm
      have hsize : ((stored src dst address (0 + 0 + count)).endAddr + 2 ^ 32 -
          (stored src dst address (0 + 0 + count)).startAddr + 1) % 2 ^ 32 = count := by
        unfold stored
        dsimp only
        rw [if_neg (by omega), if_neg (by omega)]
        omega
      rw [loadSerial, hfuel, hinput, hzero, loadLoop_start,
        loadLoop_saveLoop hstart (fun _ => rfl) (by decide) (by omega)
          (fun a ha => hflash a ⟨ha.1, by have := ha.2; omega⟩), loadLoop_end, hsize]
      rw [Nat.zero_add]
      rfl
    exact ⟨_, hload, rfl, rfl, fun a => storeAt_readAt_apply⟩
  · have hbuffers : ∀ record : Bytes, record.length ≤ 47 →
        record.length + 1 ≤ saveBufferSize ∧ record.length ≤ srecMaxRecLen := by
      intro record h
      unfold saveBufferSize srecBytesPerRecord srecMaxRecLen
      omega
    intro record hrecord
    rcases List.mem_cons.mp hrecord with rfl | hrecord
    · exact hbuffers _ (by decide)
    rcases List.mem_append.mp hrecord with hrecord | hrecord
    · exact hbuffers _ (hlength record hrecord).2
    · rw [List.mem_singleton.mp hrecord]
      exact hbuffers _ (by decide)

/-- The last 33 bytes of the memory, in two full records and one with a single byte. -/
theorem srecord_roundTrip_top :
    (saveRecords (fun a => UInt8.ofNat a) 0xFFFFFFDF 33).map List.length = [11, 47, 47, 17, 15] ∧
    ∃ loaded, loadSerial ⟨[], fun m _ _ => (0, m)⟩ 0 (fun _ => 0)
        (feed (saveSerial (fun a => UInt8.ofNat a) (fun _ => false) 0xFFFFFFDF 33).1) =
          some loaded ∧ loaded.addr = 0 ∧
      ∀ a, loaded.mem a = if InRange 0xFFFFFFDF 33 a then UInt8.ofNat a else 0 := by
  refine ⟨by decide, ?_⟩
  obtain ⟨⟨loaded, hload, haddr, -, hmem⟩, -⟩ :=
    @srecord_roundTrip ⟨[], fun m _ _ => (0, m)⟩ (fun a => UInt8.ofNat a) (fun _ => 0) 0xFFFFFFDF
      (fun _ => false) 33 (by decide) (by decide) (by decide) (fun _ _ => rfl) (by decide)
  exact ⟨loaded, hload, haddr, hmem⟩

end Lines

end UBoot.Common.SRecord
