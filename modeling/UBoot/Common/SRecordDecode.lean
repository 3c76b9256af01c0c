import UBoot.Common.SRecordRoundTrip

/-!
# What `srec_decode` accepts

On a line in memory the characters are read one by one up to the terminator, and the bytes of the
data go to a buffer (`srecDecodeAt`); it reads nothing behind the line and writes nothing behind the
buffer, and what it returns is `srecDecode` of the text (`srecDecodeAt_eq`).

A data record is a type digit, a length and so many bytes, the last of them a checksum
(`IsDataRecord`).  The length is not compared with the bytes that every record of the type has, and
a line that is too short for its type is taken if its checksum is right (`IsShortRecord`); on all
other lines `srec_decode` accepts exactly the data records (`srecDecode_right_iff`).
-/

namespace UBoot.Common.SRecord

open UBoot.Lib UBoot.LibGeneric

/-! ## The line in memory -/

/-- The caller's `binbuf`: `SREC_MAXBINLEN` -/
def srecMaxBinLen : Nat := 255

/-- A step that can fail, and what follows it. -/
def andThen {α β : Type} (x : Exec (Except SrecError α)) (f : α → Exec (Except SrecError β)) :
    Exec (Except SrecError β) := do
  match ← x with
  | .error e => return .error e
  | .ok a => f a

/-- `hex2_bin` -/
def hex2BinAt (m : Bytes) (i : Nat) : Exec (Option UInt8) := do
  match hex1Bin (← load m i) with
  | none => return none
  | some a =>
    match hex1Bin (← load m (i + 1)) with
    | none => return none
    | some b => return some (UInt8.ofNat (a * 16 + b))

/-- "skip anything before 'S', and the 'S' itself" -/
def skipToS (m : Bytes) : Nat → Nat → Exec Nat
  | 0, _ => .error .steps
  | fuel + 1, i => do
    let c ← load m i
    if c = 0 then return i
    else if c = 83 then return i + 1
    else skipToS m fuel (i + 1)

/-- One byte of the record. -/
def pairAt (m : Bytes) (i : Nat) : Exec (Except SrecError UInt8) := do
  match ← hex2BinAt m i with
  | none => return .error .noSrec
  | some v => return .ok v

/-- Bytes of the record, and the index behind them. -/
def readPairsAt (m : Bytes) : Nat → Nat → Exec (Except SrecError (Bytes × Nat))
  | 0, i => return .ok ([], i)
  | n + 1, i => andThen (pairAt m i) fun v =>
    andThen (readPairsAt m n (i + 2)) fun x => return .ok (v :: x.1, x.2)

/-- "convert data": the bytes, the buffer from `k` on filled with them, and the index behind. -/
def convertAt (m : Bytes) : Nat → Nat → Bytes → Nat →
    Exec (Except SrecError (Bytes × Bytes × Nat))
  | 0, i, data, _ => return .ok ([], data, i)
  | n + 1, i, data, k => andThen (pairAt m i) fun v => do
    let data ← store data k v
    andThen (convertAt m n (i + 2) data (k + 1)) fun x => return .ok (v :: x.1, x.2)

/-- The record behind its type `v`. -/
def recordAt (m data : Bytes) (v : UInt8) (i : Nat) :
    Exec (Except SrecError (Option (SRec × Bytes))) :=
  andThen (readPairsAt m 1 i) fun counts =>
  andThen (return recordType v (charAt counts.1).toNat) fun kind =>
  andThen (readPairsAt m kind.2.2 counts.2) fun addr =>
  andThen (convertAt m kind.2.1.toNat addr.2 data 0) fun bytes =>
  andThen (readPairsAt m 1 bytes.2.2) fun check =>
    if charAt check.1 ≠ ~~~((counts.1 ++ addr.1 ++ bytes.1).foldl (· + ·) 0) then
      return .error .badChks
    else return .ok (some (⟨kind.1, kind.2.1, addrOf addr.1, bytes.1⟩, bytes.2.1))

/-- `srec_decode` of the line at the start of `m`, with its buffer behind it. -/
def srecDecodeAt (m data : Bytes) : Exec (Except SrecError (Option (SRec × Bytes))) := do
  let i ← skipToS m (m.length + 1) 0
  let v ← load m i
  if v = 0 then return .ok none else recordAt m data v (i + 1)

/-! ## Texts of pairs -/

/-- Two digits of either case for each byte. -/
inductive HexCoded : Bytes → Bytes → Prop
  | nil : HexCoded [] []
  | cons {a b : UInt8} {x y : Nat} {text bytes : Bytes} (high : hex1Bin a = some x)
      (low : hex1Bin b = some y) (rest : HexCoded text bytes) :
      HexCoded (a :: b :: text) (UInt8.ofNat (x * 16 + y) :: bytes)

section Pairs

variable {s t u text rest vs ws P data : Bytes} {n i k : Nat} {v : UInt8}

theorem HexCoded.length (h : HexCoded text vs) : text.length = 2 * vs.length := by
  induction h with
  | nil => rfl
  | cons _ _ _ ih =>
    simp only [List.length_cons, ih]
    omega

theorem HexCoded.append (h : HexCoded t vs) (h' : HexCoded u ws) :
    HexCoded (t ++ u) (vs ++ ws) := by
  induction h with
  | nil => exact h'
  | cons high low _ ih => exact .cons high low ih

/-- A text is cut where its bytes are. -/
theorem HexCoded.split : ∀ {text : Bytes}, HexCoded text (vs ++ ws) →
    ∃ t u, text = t ++ u ∧ HexCoded t vs ∧ HexCoded u ws := by
  induction vs with
  | nil => intro text h; exact ⟨[], text, rfl, .nil, h⟩
  | cons v vs ih =>
    intro text h
    cases h with
    | cons high low hrest =>
      obtain ⟨t, u, rfl, ht, hu⟩ := ih hrest
      exact ⟨_, u, rfl, .cons high low ht, hu⟩

theorem hex2Bin_eq_some_iff : hex2Bin s = some v ↔
    ∃ a b x y t, s = a :: b :: t ∧ hex1Bin a = some x ∧ hex1Bin b = some y ∧
      v = UInt8.ofNat (x * 16 + y) := by
  have hnul : hex1Bin 0 = none := by decide
  constructor
  · intro h
    rw [hex2Bin] at h
    obtain ⟨x, hx, hrest⟩ := Option.bind_eq_some_iff.mp h
    obtain ⟨y, hy, hv⟩ := Option.bind_eq_some_iff.mp hrest
    cases s with
    | nil =>
      rw [charAt, hnul] at hx
      cases hx
    | cons a s =>
      cases s with
      | nil =>
        rw [List.tail_cons, charAt, hnul] at hy
        cases hy
      | cons b t => exact ⟨a, b, x, y, t, rfl, hx, hy, (Option.some.inj hv).symm⟩
  · rintro ⟨a, b, x, y, t, rfl, hx, hy, rfl⟩
    simp only [hex2Bin, charAt, List.tail_cons, hx, hy, Option.bind_eq_bind, Option.bind_some]
    rfl

theorem readPairs_eq_ok_iff : ∀ {s : Bytes}, readPairs n s = .ok (vs, rest) ↔
    ∃ t, s = t ++ rest ∧ HexCoded t vs ∧ vs.length = n := by
  induction n generalizing vs with
  | zero =>
    intro s
    rw [readPairs]
    constructor
    · intro h
      cases h
      exact ⟨[], rfl, .nil, rfl⟩
    · rintro ⟨t, rfl, ht, hlen⟩
      rw [List.length_eq_zero_iff] at hlen
      subst hlen
      cases ht
      rfl
  | succ n ih =>
    intro s
    rw [readPairs]
    constructor
    · intro h
      cases hv : hex2Bin s with
      | none =>
        rw [hv] at h
        cases h
      | some v =>
        rw [hv] at h
        obtain ⟨⟨vs', rest'⟩, hrest, h⟩ := bind_eq_ok.mp h
        cases h
        obtain ⟨a, b, x, y, t, rfl, hx, hy, rfl⟩ := hex2Bin_eq_some_iff.mp hv
        obtain ⟨t', ht', hcoded, hlen⟩ := ih.mp hrest
        rw [List.drop_succ_cons, List.drop_succ_cons, List.drop_zero] at ht'
        subst ht'
        exact ⟨a :: b :: t', rfl, .cons hx hy hcoded, by rw [List.length_cons, hlen]⟩
    · rintro ⟨t, rfl, ht, hlen⟩
      cases ht with
      | nil => cases hlen
      | cons hx hy hcoded =>
        rename_i a b x y text bytes
        have hv : hex2Bin (a :: b :: text ++ rest) = some (UInt8.ofNat (x * 16 + y)) :=
          hex2Bin_eq_some_iff.mpr ⟨a, b, x, y, text ++ rest, rfl, hx, hy, rfl⟩
        have hrest : readPairs n (text ++ rest) = .ok (bytes, rest) :=
          ih.mpr ⟨text, rfl, hcoded, Nat.succ.inj hlen⟩
        rw [hv]
        simp only [List.cons_append, List.drop_succ_cons, List.drop_zero, hrest]
        rfl

/-! ## The same in memory -/

@[simp] theorem andThen_ok {α β : Type} (a : α) (f : α → Exec (Except SrecError β)) :
    andThen (.ok (.ok a)) f = f a := rfl

@[simp] theorem andThen_error {α β : Type} (e : SrecError) (f : α → Exec (Except SrecError β)) :
    andThen (.ok (.error e) : Exec (Except SrecError α)) f = .ok (.error e) := rfl

/-- The terminator is no digit, so nothing behind it is read. -/
theorem hex2BinAt_eq (hi : i = P.length) : hex2BinAt (P ++ (s ++ [0])) i = .ok (hex2Bin s) := by
  have hnul : hex1Bin 0 = none := by decide
  cases s with
  | nil =>
    rw [hex2BinAt, List.nil_append, load_cut hi, ok_bind, hnul, hex2Bin, charAt, hnul]
    rfl
  | cons a s =>
    rw [hex2BinAt, List.cons_append, load_cut hi, ok_bind, hex2Bin, charAt]
    cases hex1Bin a with
    | none => rfl
    | some x =>
      have hcut : P ++ a :: (s ++ [0]) = P ++ [a] ++ (s ++ [0]) := by simp
      have hi' : i + 1 = (P ++ [a]).length := by rw [List.length_append, hi]; rfl
      rw [hcut]
      cases s with
      | nil =>
        simp only [List.nil_append, load_cut hi', ok_bind, hnul, List.tail_cons, charAt,
          Option.bind_eq_bind, Option.bind_some, Option.bind_none]
        rfl
      | cons b s =>
        simp only [List.cons_append, load_cut hi', ok_bind, List.tail_cons, charAt,
          Option.bind_eq_bind, Option.bind_some]
        cases hex1Bin b with
        | none => rfl
        | some y => rfl

theorem pairAt_none (hi : i = P.length) (hv : hex2Bin s = none) :
    pairAt (P ++ (s ++ [0])) i = .ok (.error .noSrec) := by
  rw [pairAt, hex2BinAt_eq hi, hv]
  rfl

theorem pairAt_some (hi : i = P.length) (hv : hex2Bin s = some v) :
    pairAt (P ++ (s ++ [0])) i = .ok (.ok v) := by
  rw [pairAt, hex2BinAt_eq hi, hv]
  rfl

theorem readPairsAt_eq : ∀ {P s : Bytes} {i : Nat}, i = P.length →
    readPairsAt (P ++ (s ++ [0])) n i =
      .ok ((readPairs n s).map fun x => (x.1, i + 2 * n)) := by
  induction n with
  | zero => intro P s i _; rfl
  | succ n ih =>
    intro P s i hi
    rw [readPairsAt, readPairs]
    cases hv : hex2Bin s with
    | none =>
      rw [pairAt_none hi hv]
      rfl
    | some v =>
      obtain ⟨a, b, x, y, t, rfl, -, -, -⟩ := hex2Bin_eq_some_iff.mp hv
      have hcut : P ++ (a :: b :: t ++ [0]) = P ++ [a, b] ++ (t ++ [0]) := by simp
      have hi' : i + 2 = (P ++ [a, b]).length := by rw [List.length_append, hi]; rfl
      rw [pairAt_some hi hv, andThen_ok, hcut, ih hi']
      simp only [List.drop_succ_cons, List.drop_zero]
      cases readPairs n t with
      | error e => rfl
      | ok x =>
        have hat : i + 2 + 2 * n = i + 2 * (n + 1) := by omega
        simp only [Except.map, andThen_ok, hat]
        rfl

/-- The bytes go to the buffer, one behind the other. -/
theorem convertAt_eq : ∀ {P s A B : Bytes} {i k : Nat}, i = P.length → k = A.length →
    n ≤ B.length → convertAt (P ++ (s ++ [0])) n i (A ++ B) k =
      .ok ((readPairs n s).map fun x => (x.1, A ++ (x.1 ++ B.drop n), i + 2 * n)) := by
  induction n with
  | zero => intro P s A B i k _ _ _; rfl
  | succ n ih =>
    intro P s A B i k hi hk hroom
    obtain ⟨c, B, rfl⟩ : ∃ c B', B = c :: B' := by
      cases B with
      | nil => simp at hroom
      | cons c B => exact ⟨c, B, rfl⟩
    rw [convertAt, readPairs]
    cases hv : hex2Bin s with
    | none =>
      rw [pairAt_none hi hv]
      rfl
    | some v =>
      obtain ⟨a, b, x, y, t, rfl, -, -, -⟩ := hex2Bin_eq_some_iff.mp hv
      have hcut : P ++ (a :: b :: t ++ [0]) = P ++ [a, b] ++ (t ++ [0]) := by simp
      have hi' : i + 2 = (P ++ [a, b]).length := by rw [List.length_append, hi]; rfl
      have hA : A ++ v :: B = A ++ [v] ++ B := by simp
      have hk' : k + 1 = (A ++ [v]).length := by rw [List.length_append, hk]; rfl
      rw [pairAt_some hi hv, andThen_ok, store_cut hk, ok_bind, hcut, hA,
        ih hi' hk' (by simpa using hroom)]
      simp only [List.drop_succ_cons, List.drop_zero]
      cases readPairs n t with
      | error e => rfl
      | ok x =>
        have hat : i + 2 + 2 * n = i + 2 * (n + 1) := by omega
        simp only [Except.map, andThen_ok, hat, List.append_assoc, List.singleton_append]
        rfl

end Pairs

section Memory

variable {line s P Q data : Bytes} {i n : Nat} {v : UInt8}

/-- The text behind the first `S`. -/
def behindS (line : Bytes) : Bytes := (line.dropWhile (· ≠ 83)).tail

theorem skipToS_eq : ∀ {P s : Bytes} {i : Nat}, i = P.length → s.length < n → 0 ∉ s →
    ∃ Q, P ++ (s ++ [0]) = Q ++ (behindS s ++ [0]) ∧
      skipToS (P ++ (s ++ [0])) n i = .ok Q.length := by
  induction n with
  | zero => intro P s i _ h; cases h
  | succ n ih =>
    intro P s i hi hfuel hnul
    rw [skipToS]
    cases s with
    | nil =>
      refine ⟨P, rfl, ?_⟩
      rw [List.nil_append, load_cut hi, ok_bind, if_pos rfl, hi]
      rfl
    | cons c s =>
      obtain ⟨hc, hs⟩ : ¬0 = c ∧ 0 ∉ s := by simpa using hnul
      have hcut : P ++ (c :: s ++ [0]) = P ++ [c] ++ (s ++ [0]) := by simp
      have hi' : i + 1 = (P ++ [c]).length := by rw [List.length_append, hi]; rfl
      rw [List.cons_append, load_cut hi, ok_bind, if_neg (Ne.symm hc), ← List.cons_append, hcut]
      by_cases hS : c = 83
      · refine ⟨P ++ [c], ?_, ?_⟩
        · rw [behindS, hS]
          rfl
        · rw [if_pos hS, hi']
          rfl
      · have hbehind : behindS (c :: s) = behindS s := by
          rw [behindS, List.dropWhile_cons_of_pos (by simpa using hS)]
          rfl
        rw [if_neg hS, hbehind]
        exact ih hi' (Nat.lt_of_succ_lt_succ hfuel) hs

/-- Behind the pairs that are read stands the rest of the line. -/
theorem behind_pairs {vs rest : Bytes} (hi : i = P.length) (h : readPairs n s = .ok (vs, rest)) :
    ∃ Q, P ++ (s ++ [0]) = Q ++ (rest ++ [0]) ∧ i + 2 * n = Q.length := by
  obtain ⟨t, rfl, ht, hlen⟩ := readPairs_eq_ok_iff.mp h
  refine ⟨P ++ t, by simp only [List.append_assoc], ?_⟩
  rw [List.length_append, ht.length, hlen, hi]

theorem readPairs_one {vs rest : Bytes} (h : readPairs 1 s = .ok (vs, rest)) : ∃ v, vs = [v] := by
  obtain ⟨-, -, -, hlen⟩ := readPairs_eq_ok_iff.mp h
  exact List.length_eq_one_iff.mp hlen

theorem recordType_count_le {type : SrecType} {count n : Int} {k : Nat} (hn : 0 ≤ n)
    (h : recordType v n = .ok (type, count, k)) : count ≤ n := by
  rw [recordType] at h
  split_ifs at h <;> cases h <;> omega

@[simp] theorem srec_ok_bind {α β : Type} (a : α) (f : α → Except SrecError β) :
    (Except.ok a >>= f : Except SrecError β) = f a := rfl

/-- What `srec_decode` does behind the type of the record. -/
def recordOf (v : UInt8) (input : Bytes) : Except SrecError SRec := do
  let (counts, input) ← readPairs 1 input
  let (type, count, addrLen) ← recordType v (charAt counts).toNat
  let (addr, input) ← readPairs addrLen input
  let (data, input) ← readPairs count.toNat input
  let (check, _) ← readPairs 1 input
  if charAt check ≠ ~~~((counts ++ addr ++ data).foldl (· + ·) 0) then .error .badChks
  else .ok ⟨type, count, addrOf addr, data⟩

theorem srecDecode_empty (h : behindS line = []) : srecDecode line = .ok none := by
  rw [srecDecode]
  rw [behindS] at h
  rw [h]

theorem srecDecode_record (h : behindS line = v :: s) :
    srecDecode line = (recordOf v s).map some := by
  rw [srecDecode]
  rw [behindS] at h
  rw [h]
  simp only [recordOf]
  cases readPairs 1 s with
  | error e => rfl
  | ok counts =>
    simp only [srec_ok_bind]
    cases recordType v (charAt counts.1).toNat with
    | error e => rfl
    | ok kind =>
      simp only [srec_ok_bind]
      cases readPairs kind.2.2 counts.2 with
      | error e => rfl
      | ok addr =>
        simp only [srec_ok_bind]
        cases readPairs kind.2.1.toNat addr.2 with
        | error e => rfl
        | ok bytes =>
          simp only [srec_ok_bind]
          cases readPairs 1 bytes.2 with
          | error e => rfl
          | ok check =>
            simp only [srec_ok_bind]
            split_ifs <;> rfl

/-- The record in memory is read as the record in its text is. -/
theorem recordAt_eq (hi : i = P.length) (hdata : data.length = srecMaxBinLen) :
    recordAt (P ++ (s ++ [0])) data v i =
      .ok ((recordOf v s).map fun r => some (r, r.data ++ data.drop r.data.length)) := by
  rw [recordAt, recordOf, readPairsAt_eq hi]
  cases hcounts : readPairs 1 s with
  | error e => rfl
  | ok counts =>
    obtain ⟨vs, s₁⟩ := counts
    obtain ⟨w, rfl⟩ := readPairs_one hcounts
    obtain ⟨P₁, hP₁, hi₁⟩ := behind_pairs hi hcounts
    simp only [Except.map, andThen_ok, srec_ok_bind, hP₁]
    cases hkind : recordType v (charAt [w]).toNat with
    | error e => rfl
    | ok kind =>
      obtain ⟨type, count, k⟩ := kind
      have hcount : count.toNat ≤ data.length := by
        have hle := recordType_count_le (by omega) hkind
        have hw : (charAt [w]).toNat < 256 := w.toNat_lt
        rw [hdata, srecMaxBinLen]
        omega
      simp only [srec_ok_bind, pure, Except.pure, andThen_ok, readPairsAt_eq hi₁]
      cases haddr : readPairs k s₁ with
      | error e => rfl
      | ok addr =>
        obtain ⟨addr, s₂⟩ := addr
        obtain ⟨P₂, hP₂, hi₂⟩ := behind_pairs hi₁ haddr
        have hconvert := convertAt_eq (A := []) (k := 0) (s := s₂) hi₂ rfl hcount
        simp only [Except.map, andThen_ok, srec_ok_bind, hP₂]
        rw [← List.nil_append data, hconvert]
        cases hbytes : readPairs count.toNat s₂ with
        | error e => rfl
        | ok bytes =>
          obtain ⟨bytes, s₃⟩ := bytes
          obtain ⟨P₃, hP₃, hi₃⟩ := behind_pairs hi₂ hbytes
          have hlen : bytes.length = count.toNat := by
            obtain ⟨-, -, -, hlen⟩ := readPairs_eq_ok_iff.mp hbytes
            exact hlen
          simp only [Except.map, andThen_ok, srec_ok_bind, hP₃, readPairsAt_eq hi₃]
          cases readPairs 1 s₃ with
          | error e => rfl
          | ok check =>
            simp only [andThen_ok, srec_ok_bind, List.nil_append]
            split_ifs with hsum
            · rfl
            · rw [← hlen]

/-- No character behind the terminator is read, no byte behind the buffer is written, and what is
in the buffer behind the data stays. -/
theorem srecDecodeAt_eq (hnul : 0 ∉ line) (hdata : data.length = srecMaxBinLen) :
    srecDecodeAt (line ++ [0]) data =
      .ok ((srecDecode line).map
        (Option.map fun r => (r, r.data ++ data.drop r.data.length))) := by
  obtain ⟨Q, hQ, hskip⟩ := skipToS_eq (P := []) (i := 0) (n := (line ++ [0]).length + 1) rfl
    (by rw [List.length_append]; omega) hnul
  rw [List.nil_append] at hQ hskip
  rw [srecDecodeAt, hskip, ok_bind, hQ]
  cases hline : behindS line with
  | nil =>
    rw [List.nil_append, load_cut rfl, ok_bind, if_pos rfl, srecDecode_empty hline]
    rfl
  | cons v s =>
    have hv : v ≠ 0 := by
      rintro rfl
      have hmem : (0 : UInt8) ∈ behindS line := hline ▸ List.mem_cons_self
      exact hnul ((List.dropWhile_sublist _).subset (List.mem_of_mem_tail hmem))
    have hcut : Q ++ v :: (s ++ [0]) = Q ++ [v] ++ (s ++ [0]) := by simp
    rw [List.cons_append, load_cut rfl, ok_bind, if_neg hv, hcut,
      recordAt_eq (by rw [List.length_append]; rfl) hdata, srecDecode_record hline]
    cases recordOf v s <;> rfl

end Memory

/-! ## The records that are accepted -/

/-- The digits of the records with data, and the bytes of the address and the checksum. -/
inductive DataKind : UInt8 → SrecType → Nat → Prop
  | s1 : DataKind 49 .data2 3
  | s2 : DataKind 50 .data3 4
  | s3 : DataKind 51 .data4 5

/-- `SREC_DATA2`, `SREC_DATA3` and `SREC_DATA4` -/
def IsData (type : SrecType) : Prop := type = .data2 ∨ type = .data3 ∨ type = .data4

/-- The one's complement of the low byte of a sum. -/
def checksumOf (bytes : Bytes) : UInt8 := UInt8.ofNat (255 - (bytes.map UInt8.toNat).sum % 256)

/-- The text behind the first `S`: the type, the length and so many bytes, and what follows. -/
def RecordText (line : Bytes) (digit L : UInt8) (bytes : Bytes) : Prop :=
  ∃ text rest, behindS line = digit :: (text ++ rest) ∧ HexCoded text (L :: bytes)

/-- A data record: its length has room for the address and the checksum, its bytes are so many as
the length says, and the last of them is the checksum of the others. -/
def IsDataRecord (line : Bytes) (type : SrecType) (L : UInt8) (bytes : Bytes) : Prop :=
  ∃ digit overhead, DataKind digit type overhead ∧ overhead ≤ L.toNat ∧
    RecordText line digit L bytes ∧ bytes.length = L.toNat ∧
    bytes.getLast? = some (checksumOf (L :: bytes.dropLast))

/-- A line with the bytes of an address and the right checksum behind a length that is shorter. -/
def IsShortRecord (line : Bytes) : Prop :=
  ∃ digit type overhead L bytes, DataKind digit type overhead ∧ L.toNat < overhead ∧
    RecordText line digit L bytes ∧ bytes.length = overhead ∧
    bytes.getLast? = some (checksumOf (L :: bytes.dropLast))

/-- What a data record with `overhead` bytes around its data stands for. -/
def valueOf (type : SrecType) (overhead : Nat) (L : UInt8) (bytes : Bytes) : SRec where
  type := type
  count := (L.toNat : Int) - overhead
  addr := (bytes.take (overhead - 1)).foldl (fun addr v => addr * 256 + v.toNat) 0
  data := (bytes.drop (overhead - 1)).dropLast

/-- On the line with its terminator and nothing behind it, and a buffer of `SREC_MAXBINLEN` bytes:
the run comes back without an access to anything else; a data type is returned for the data records
and no other line; and then the number of bytes is not negative, the address and the bytes are those
of the record, the rest of the buffer stays, and `load_serial` stores them. -/
def DecodeRight (line data : Bytes) : Prop :=
  ∃ out, srecDecodeAt (line ++ [0]) data = .ok out ∧
    (∀ type, IsData type →
      ((∃ r data', out = .ok (some (r, data')) ∧ r.type = type) ↔
        ∃ L bytes, IsDataRecord line type L bytes)) ∧
    ∀ r data', out = .ok (some (r, data')) → IsData r.type →
      0 ≤ r.count ∧ r.count = r.data.length ∧ data' = r.data ++ data.drop r.data.length ∧
      (∃ digit overhead L bytes, DataKind digit r.type overhead ∧
        IsDataRecord line r.type L bytes ∧ r = valueOf r.type overhead L bytes) ∧
      ∀ cfg offset l, (storeRecord cfg offset l r).isSome

section Accepted

variable {line s data bs : Bytes} {v L : UInt8} {type : SrecType} {overhead k : Nat} {r : SRec}

theorem DataKind.isData (kind : DataKind v type overhead) : IsData type := by
  cases kind with
  | s1 => exact .inl rfl
  | s2 => exact .inr (.inl rfl)
  | s3 => exact .inr (.inr rfl)

theorem DataKind.bounds (kind : DataKind v type overhead) : 3 ≤ overhead ∧ overhead ≤ 5 := by
  cases kind <;> decide

theorem DataKind.recordType (kind : DataKind v type overhead) (n : Int) :
    recordType v n = .ok (type, n - overhead, overhead - 1) := by
  cases kind <;> rfl

/-- Only the three digits come with a data type. -/
theorem dataKind_of_recordType {n count : Int} (h : recordType v n = .ok (type, count, k))
    (hdata : IsData type) : ∃ overhead, DataKind v type overhead := by
  rw [recordType] at h
  split_ifs at h with h0 h1 h2 h3 h5 h7 h8 h9 <;> cases h
  case pos => simp [IsData] at hdata
  case pos => exact ⟨3, h1 ▸ .s1⟩
  case pos => exact ⟨4, h2 ▸ .s2⟩
  case pos => exact ⟨5, h3 ▸ .s3⟩
  all_goals simp [IsData] at hdata

theorem not_foldl_add : ~~~ bs.foldl (· + ·) 0 = checksumOf bs := by
  rw [foldl_add, UInt8.zero_add, not_ofNat, checksumOf]

/-- An address of four bytes fits into an `ulong`. -/
theorem addrOf_eq (h : bs.length ≤ 4) :
    addrOf bs = bs.foldl (fun addr v => addr * 256 + v.toNat) 0 ∧
      bs.foldl (fun addr v => addr * 256 + v.toNat) 0 < 256 ^ bs.length := by
  induction bs using List.reverseRecOn with
  | nil => exact ⟨rfl, by decide⟩
  | append_singleton bs v ih =>
    rw [List.length_append, List.length_singleton] at h ⊢
    obtain ⟨heq, hlt⟩ := ih (by omega)
    have hv := v.toNat_lt
    have hpow : 256 ^ (bs.length + 1) ≤ 256 ^ 4 := Nat.pow_le_pow_right (by decide) h
    have hstep : bs.foldl (fun addr v => addr * 256 + v.toNat) 0 * 256 + v.toNat <
        256 ^ (bs.length + 1) := by
      rw [Nat.pow_succ]
      omega
    rw [addrOf] at heq
    rw [addrOf, List.foldl_append, List.foldl_append, heq]
    simp only [List.foldl_cons, List.foldl_nil]
    exact ⟨Nat.mod_eq_of_lt (by omega), hstep⟩

theorem valueOf_append {addr bytes : Bytes} {c : UInt8} (haddr : addr.length = overhead - 1) :
    valueOf type overhead L (addr ++ bytes ++ [c]) =
      ⟨type, (L.toNat : Int) - overhead,
        addr.foldl (fun addr v => addr * 256 + v.toNat) 0, bytes⟩ := by
  rw [valueOf, ← haddr, List.append_assoc, List.take_left, List.drop_left, List.dropLast_concat]

/-- The record with an address and data, when its checksum is right. -/
theorem recordOf_eq {addr bytes rest : Bytes} {c : UInt8} {text : Bytes}
    (kind : DataKind v type overhead) (haddr : addr.length = overhead - 1)
    (hbytes : bytes.length = L.toNat - overhead)
    (htext : HexCoded text (L :: (addr ++ bytes ++ [c]))) :
    recordOf v (text ++ rest) =
      if c ≠ checksumOf (L :: (addr ++ bytes)) then .error .badChks
      else .ok (valueOf type overhead L (addr ++ bytes ++ [c])) := by
  have hbounds := kind.bounds
  obtain ⟨t₁, u₁, rfl, ht₁, hu₁⟩ : ∃ t u, text = t ++ u ∧ HexCoded t [L] ∧
      HexCoded u (addr ++ (bytes ++ [c])) := by
    rw [List.append_assoc] at htext
    exact HexCoded.split htext
  obtain ⟨t₂, u₂, rfl, ht₂, hu₂⟩ := hu₁.split
  obtain ⟨t₃, t₄, rfl, ht₃, ht₄⟩ := hu₂.split
  have hcounts : readPairs 1 (t₁ ++ (t₂ ++ (t₃ ++ t₄)) ++ rest) =
      .ok ([L], t₂ ++ (t₃ ++ t₄) ++ rest) :=
    readPairs_eq_ok_iff.mpr ⟨t₁, by simp only [List.append_assoc], ht₁, rfl⟩
  have haddrs : readPairs (overhead - 1) (t₂ ++ (t₃ ++ t₄) ++ rest) =
      .ok (addr, t₃ ++ t₄ ++ rest) :=
    readPairs_eq_ok_iff.mpr ⟨t₂, by simp only [List.append_assoc], ht₂, haddr⟩
  have hdata : readPairs ((L.toNat : Int) - overhead).toNat (t₃ ++ t₄ ++ rest) =
      .ok (bytes, t₄ ++ rest) :=
    readPairs_eq_ok_iff.mpr ⟨t₃, by simp only [List.append_assoc], ht₃, by omega⟩
  have hcheck : readPairs 1 (t₄ ++ rest) = .ok ([c], rest) :=
    readPairs_eq_ok_iff.mpr ⟨t₄, rfl, ht₄, rfl⟩
  have hlong : addr.length ≤ 4 := by omega
  rw [recordOf, hcounts]
  simp only [srec_ok_bind, charAt]
  rw [kind.recordType]
  simp only [srec_ok_bind, haddrs, hdata, hcheck, not_foldl_add]
  rw [valueOf_append haddr, (addrOf_eq hlong).1]
  rfl

/-- What is accepted behind the digit of a data record: so many bytes as the length says, but
those of an address and a checksum at least. -/
theorem recordOf_eq_ok_iff (kind : DataKind v type overhead) : recordOf v s = .ok r ↔
    ∃ L bytes text rest, s = text ++ rest ∧ HexCoded text (L :: bytes) ∧
      bytes.length = max L.toNat overhead ∧
      bytes.getLast? = some (checksumOf (L :: bytes.dropLast)) ∧
      r = valueOf type overhead L bytes := by
  have hbounds := kind.bounds
  constructor
  · intro h
    have h' := h
    rw [recordOf] at h
    obtain ⟨⟨counts, s₁⟩, hcounts, h⟩ := bind_eq_ok.mp h
    obtain ⟨L, rfl⟩ := readPairs_one hcounts
    simp only [kind.recordType, srec_ok_bind] at h
    obtain ⟨⟨addr, s₂⟩, haddr, h⟩ := bind_eq_ok.mp h
    obtain ⟨⟨bytes, s₃⟩, hbytes, h⟩ := bind_eq_ok.mp h
    obtain ⟨⟨check, s₄⟩, hcheck, -⟩ := bind_eq_ok.mp h
    obtain ⟨c, rfl⟩ := readPairs_one hcheck
    obtain ⟨t₁, rfl, ht₁, -⟩ := readPairs_eq_ok_iff.mp hcounts
    obtain ⟨t₂, rfl, ht₂, hlen₂⟩ := readPairs_eq_ok_iff.mp haddr
    obtain ⟨t₃, rfl, ht₃, hlen₃⟩ := readPairs_eq_ok_iff.mp hbytes
    obtain ⟨t₄, rfl, ht₄, -⟩ := readPairs_eq_ok_iff.mp hcheck
    have hlen₃' : bytes.length = L.toNat - overhead := by
      simp only [charAt] at hlen₃
      omega
    have htext : HexCoded (t₁ ++ (t₂ ++ t₃ ++ t₄)) (L :: (addr ++ bytes ++ [c])) :=
      ht₁.append ((ht₂.append ht₃).append ht₄)
    have hsplit : t₁ ++ (t₂ ++ (t₃ ++ (t₄ ++ s₄))) = t₁ ++ (t₂ ++ t₃ ++ t₄) ++ s₄ := by
      simp only [List.append_assoc]
    rw [hsplit, recordOf_eq kind hlen₂ hlen₃' htext] at h'
    split_ifs at h' with hsum
    cases h'
    refine ⟨L, addr ++ bytes ++ [c], _, s₄, hsplit, htext, ?_, ?_, rfl⟩
    · simp only [List.length_append, List.length_singleton]
      omega
    · rw [List.getLast?_concat, List.dropLast_concat, not_not.mp hsum]
  · rintro ⟨L, bytes, text, rest, rfl, htext, hlen, hlast, rfl⟩
    obtain ⟨init, hsplit⟩ := List.getLast?_eq_some_iff.mp hlast
    generalize hc : checksumOf (L :: bytes.dropLast) = c at hsplit
    have hinit : init.length + 1 = max L.toNat overhead := by
      rw [← hlen, hsplit, List.length_append, List.length_singleton]
    obtain ⟨addr, data, rfl, haddr⟩ : ∃ addr data, init = addr ++ data ∧
        addr.length = overhead - 1 :=
      ⟨init.take (overhead - 1), init.drop (overhead - 1),
        (List.take_append_drop _ _).symm, by rw [List.length_take]; omega⟩
    subst hsplit
    rw [List.dropLast_concat] at hc
    rw [List.length_append] at hinit
    rw [recordOf_eq kind haddr (by omega) htext, if_neg (by simp [hc])]

theorem recordOf_type (h : recordOf v s = .ok r) (hdata : IsData r.type) :
    ∃ overhead, DataKind v r.type overhead := by
  rw [recordOf] at h
  obtain ⟨counts, -, h⟩ := bind_eq_ok.mp h
  obtain ⟨⟨type, count, k⟩, hkind, h⟩ := bind_eq_ok.mp h
  obtain ⟨addr, -, h⟩ := bind_eq_ok.mp h
  obtain ⟨bytes, -, h⟩ := bind_eq_ok.mp h
  obtain ⟨check, -, h⟩ := bind_eq_ok.mp h
  simp only at h
  split_ifs at h
  cases h
  exact dataKind_of_recordType hkind hdata

/-- A data type is returned for the data records and the short ones. -/
theorem srecDecode_data_iff : srecDecode line = .ok (some r) ∧ IsData r.type ↔
    ∃ digit overhead L bytes, DataKind digit r.type overhead ∧ RecordText line digit L bytes ∧
      bytes.length = max L.toNat overhead ∧
      bytes.getLast? = some (checksumOf (L :: bytes.dropLast)) ∧
      r = valueOf r.type overhead L bytes := by
  constructor
  · rintro ⟨h, hdata⟩
    cases hline : behindS line with
    | nil =>
      rw [srecDecode_empty hline] at h
      cases h
    | cons v s =>
      rw [srecDecode_record hline] at h
      obtain ⟨r', hr', h⟩ : ∃ r', recordOf v s = .ok r' ∧ some r' = some r := by
        cases hr' : recordOf v s with
        | error e =>
          rw [hr'] at h
          cases h
        | ok r' =>
          rw [hr'] at h
          exact ⟨r', rfl, Except.ok.inj h⟩
      cases h
      obtain ⟨overhead, kind⟩ := recordOf_type hr' hdata
      obtain ⟨L, bytes, text, rest, rfl, htext, hlen, hlast, hr⟩ := (recordOf_eq_ok_iff kind).mp hr'
      exact ⟨v, overhead, L, bytes, kind, ⟨text, rest, hline, htext⟩, hlen, hlast, hr⟩
  · rintro ⟨digit, overhead, L, bytes, kind, ⟨text, rest, hline, htext⟩, hlen, hlast, hr⟩
    have hrecord := (recordOf_eq_ok_iff kind).mpr
      ⟨L, bytes, text, rest, rfl, htext, hlen, hlast, hr⟩
    rw [srecDecode_record hline, hrecord]
    exact ⟨rfl, kind.isData⟩

/-- A data record is decoded to its value. -/
theorem srecDecode_of_isDataRecord {bytes : Bytes} (h : IsDataRecord line type L bytes) :
    ∃ overhead, srecDecode line = .ok (some (valueOf type overhead L bytes)) := by
  obtain ⟨digit, overhead, kind, hroom, htext, hlen, hlast⟩ := h
  exact ⟨overhead, (srecDecode_data_iff.mpr
    ⟨digit, overhead, L, bytes, kind, htext, by omega, hlast, rfl⟩).1⟩

/-- A line that gives a data type is a data record or a short one. -/
theorem isDataRecord_or_short (h : srecDecode line = .ok (some r)) (hdata : IsData r.type) :
    (∃ digit overhead L bytes, DataKind digit r.type overhead ∧
      IsDataRecord line r.type L bytes ∧ overhead ≤ L.toNat ∧ bytes.length = L.toNat ∧
      r = valueOf r.type overhead L bytes) ∨ IsShortRecord line := by
  obtain ⟨digit, overhead, L, bytes, kind, htext, hlen, hlast, hr⟩ :=
    srecDecode_data_iff.mp ⟨h, hdata⟩
  rcases Nat.lt_or_ge L.toNat overhead with hshort | hroom
  · exact .inr ⟨digit, r.type, overhead, L, bytes, kind, hshort, htext, by omega, hlast⟩
  · exact .inl ⟨digit, overhead, L, bytes, kind,
      ⟨digit, overhead, kind, hroom, htext, by omega, hlast⟩, hroom, by omega, hr⟩

/-- The short ones are taken as well, with a negative number of bytes. -/
theorem srecDecode_of_isShortRecord (h : IsShortRecord line) :
    ∃ r, srecDecode line = .ok (some r) ∧ IsData r.type ∧ r.count < 0 := by
  obtain ⟨digit, type, overhead, L, bytes, kind, hshort, htext, hlen, hlast⟩ := h
  obtain ⟨hr, hdata⟩ := (srecDecode_data_iff (r := valueOf type overhead L bytes)).mpr
    ⟨digit, overhead, L, bytes, kind, htext, by omega, hlast, rfl⟩
  refine ⟨_, hr, hdata, ?_⟩
  show (L.toNat : Int) - overhead < 0
  omega

theorem valueOf_count {bytes : Bytes} (hroom : overhead ≤ L.toNat) (hlen : bytes.length = L.toNat)
    (hpos : 0 < overhead) : 0 ≤ (valueOf type overhead L bytes).count ∧
      (valueOf type overhead L bytes).count = (valueOf type overhead L bytes).data.length := by
  simp only [valueOf, List.length_dropLast, List.length_drop]
  omega

theorem srecDecodeAt_eq_some_iff {data' : Bytes} (hnul : 0 ∉ line)
    (hdata : data.length = srecMaxBinLen) {out : Except SrecError (Option (SRec × Bytes))}
    (hout : srecDecodeAt (line ++ [0]) data = .ok out) : out = .ok (some (r, data')) ↔
      srecDecode line = .ok (some r) ∧ data' = r.data ++ data.drop r.data.length := by
  rw [srecDecodeAt_eq hnul hdata, Except.ok.injEq] at hout
  rw [← hout]
  cases srecDecode line with
  | error e =>
    constructor
    · intro h; cases h
    · rintro ⟨h, -⟩; cases h
  | ok x =>
    cases x with
    | none =>
      constructor
      · intro h; cases h
      · rintro ⟨h, -⟩; cases h
    | some r' =>
      constructor
      · intro h
        cases h
        exact ⟨rfl, rfl⟩
      · rintro ⟨h, rfl⟩
        cases h
        rfl

end Accepted

/-- The characters of a line are read up to its end and the bytes stay in their buffer, and exactly
on the lines that are no short records a data type is returned for the data records alone. -/
theorem srecDecode_right_iff {line data : Bytes} (hnul : 0 ∉ line)
    (hdata : data.length = srecMaxBinLen) : DecodeRight line data ↔ ¬ IsShortRecord line := by
  constructor
  · rintro ⟨out, hout, -, hright⟩ hshort
    obtain ⟨r, hr, htype, hneg⟩ := srecDecode_of_isShortRecord hshort
    have hcount := (hright r _ ((srecDecodeAt_eq_some_iff hnul hdata hout).mpr ⟨hr, rfl⟩) htype).1
    omega
  · intro hlong
    refine ⟨_, srecDecodeAt_eq hnul hdata, ?_, ?_⟩
    · intro type htype
      constructor
      · rintro ⟨r, data', hr, rfl⟩
        obtain ⟨hr, -⟩ := (srecDecodeAt_eq_some_iff hnul hdata (srecDecodeAt_eq hnul hdata)).mp hr
        rcases isDataRecord_or_short hr htype with ⟨-, -, L, bytes, -, hrecord, -⟩ | hshort
        · exact ⟨L, bytes, hrecord⟩
        · exact absurd hshort hlong
      · rintro ⟨L, bytes, hrecord⟩
        obtain ⟨overhead, hr⟩ := srecDecode_of_isDataRecord hrecord
        exact ⟨_, _, (srecDecodeAt_eq_some_iff hnul hdata (srecDecodeAt_eq hnul hdata)).mpr
          ⟨hr, rfl⟩, rfl⟩
    · intro r data' hr htype
      obtain ⟨hr, hdata'⟩ :=
        (srecDecodeAt_eq_some_iff hnul hdata (srecDecodeAt_eq hnul hdata)).mp hr
      rcases isDataRecord_or_short hr htype with
        ⟨digit, overhead, L, bytes, kind, hrecord, hroom, hlen, hvalue⟩ | hshort
      · have hbounds := kind.bounds
        obtain ⟨hpos, hcount⟩ : 0 ≤ (valueOf r.type overhead L bytes).count ∧
            (valueOf r.type overhead L bytes).count =
              (valueOf r.type overhead L bytes).data.length :=
          valueOf_count hroom hlen (by omega)
        rw [← hvalue] at hpos hcount
        refine ⟨hpos, hcount, hdata', ⟨digit, overhead, L, bytes, kind, hrecord, hvalue⟩, ?_⟩
        intro cfg offset l
        rw [storeRecord, if_neg (by omega)]
        rfl
      · exact absurd hshort hlong

/-- A record for two bytes at `0x1000`, with a character in front of it. -/
theorem srecDecode_right_s1 :
    DecodeRight (str ">S1051000BEEF3D") (List.replicate 255 0) ∧
      srecDecode (str ">S1051000BEEF3D") = .ok (some ⟨.data2, 2, 0x1000, [0xBE, 0xEF]⟩) := by
  have hdecode : srecDecode (str ">S1051000BEEF3D") =
      .ok (some ⟨.data2, 2, 0x1000, [0xBE, 0xEF]⟩) := by
    rfl
  have hlong : ¬ IsShortRecord (str ">S1051000BEEF3D") := by
    intro hshort
    obtain ⟨r, hr, -, hneg⟩ := srecDecode_of_isShortRecord hshort
    rw [hdecode] at hr
    cases hr
    exact absurd hneg (by decide)
  exact ⟨(srecDecode_right_iff (by decide) (by decide +kernel)).mpr hlong, hdecode⟩

/-- A length that has no room for the checksum passes, and -1 byte is to be stored. -/
theorem srecDecode_short_wrong : 0 ∉ str "S1021000ED" ∧
    ¬ DecodeRight (str "S1021000ED") (List.replicate 255 0) := by
  have hnul : 0 ∉ str "S1021000ED" := by decide
  have hdecode : srecDecode (str "S1021000ED") = .ok (some ⟨.data2, -1, 0x1000, []⟩) := by
    rfl
  refine ⟨hnul, ?_⟩
  rintro ⟨out, hout, -, hright⟩
  have hresult := (srecDecodeAt_eq_some_iff hnul List.length_replicate hout).mpr ⟨hdecode, rfl⟩
  exact absurd (hright _ _ hresult (.inl rfl)).1 (by decide)

end UBoot.Common.SRecord
