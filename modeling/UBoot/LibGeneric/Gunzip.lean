import UBoot.Lib.Memory

/-!
# The header of a gzip file

`gunzip` of `lib_generic/gunzip.c` up to its call of `zunzip`.  The source is an area of `*lenp`
bytes; `i` does not overflow, since no object is that large.

* `gunzip_zunzip_iff`: the offset passed to `zunzip` is the length of a header (`GzipHeader`) with a
  byte behind it, and every such header is found.
* `gunzip_ok_iff`: no byte behind the source is read exactly if the bytes that the code reads before
  its test are there (`ReadsInside`): the flags, the length of the extra field, and a zero for the
  name and for the comment.
-/

namespace UBoot.LibGeneric

open UBoot.Lib

/-- `HEAD_CRC` -/
def headCrc : UInt8 := 2

/-- `EXTRA_FIELD` -/
def extraField : UInt8 := 4

/-- `ORIG_NAME` -/
def origName : UInt8 := 8

/-- `COMMENT` -/
def comment : UInt8 := 0x10

/-- `RESERVED` -/
def reserved : UInt8 := 0xE0

/-- `DEFLATED` -/
def deflated : UInt8 := 8

/-- How `gunzip` ends: with -1 after "Error: Bad gzipped data" or "Error: gunzip out of data in
header", or with what `zunzip` returns for this offset. -/
inductive GunzipEnd
  | badData
  | outOfData
  | zunzip (offset : Nat)
  deriving DecidableEq, Repr

/-- `while (src[i++] != 0);` -/
def skipString (src : Bytes) : Nat → Nat → Exec Nat
  | 0, _ => .error .steps
  | fuel + 1, i => do
    if (← load src i) ≠ 0 then skipString src fuel (i + 1) else return i + 1

/-- The position behind the extra field. -/
def skipExtra (src : Bytes) (flags : UInt8) : Exec Nat :=
  if flags &&& extraField ≠ 0 then do
    let lo ← load src 10
    let hi ← load src 11
    return 12 + lo.toNat + hi.toNat <<< 8
  else .ok 10

/-- The position behind the name or the comment. -/
def skipName (src : Bytes) (flags mask : UInt8) (i : Nat) : Exec Nat :=
  if flags &&& mask ≠ 0 then skipString src (src.length + 1) i else .ok i

/-- The position behind the header checksum. -/
def skipCrc (flags : UInt8) (i : Nat) : Nat := if flags &&& headCrc ≠ 0 then i + 2 else i

/-- `gunzip` -/
def gunzip (src : Bytes) : Exec GunzipEnd := do
  let flags ← load src 3
  let method ← load src 2
  if method ≠ deflated ∨ flags &&& reserved ≠ 0 then return .badData
  else
    let i ← skipExtra src flags
    let i ← skipName src flags origName i
    let i ← skipName src flags comment i
    let i := skipCrc flags i
    return if src.length ≤ i then .outOfData else .zunzip i

/-! ## Headers -/

/-- The extra field in the file, with its length in front. -/
def extraBytes : Option Bytes → Bytes
  | none => []
  | some data => UInt8.ofNat data.length :: UInt8.ofNat (data.length / 256) :: data

/-- The name or the comment in the file, with its terminator. -/
def nameBytes : Option Bytes → Bytes
  | none => []
  | some s => s ++ [0]

def crcBytes : Option (UInt8 × UInt8) → Bytes
  | none => []
  | some (lo, hi) => [lo, hi]

/-- A header of method 8 without reserved flags; a part is there if its flag is set.  The other fixed
fields are what they are. -/
structure GzipHeader where
  id1 : UInt8
  id2 : UInt8
  flags : UInt8
  fixed : Bytes
  extra : Option Bytes
  name : Option Bytes
  note : Option Bytes
  crc : Option (UInt8 × UInt8)
  flags_ok : flags &&& reserved = 0
  fixed_length : fixed.length = 6
  extra_iff : extra.isSome ↔ flags &&& extraField ≠ 0
  extra_lt : ∀ data ∈ extra, data.length < 2 ^ 16
  name_iff : name.isSome ↔ flags &&& origName ≠ 0
  name_ok : ∀ s ∈ name, 0 ∉ s
  note_iff : note.isSome ↔ flags &&& comment ≠ 0
  note_ok : ∀ s ∈ note, 0 ∉ s
  crc_iff : crc.isSome ↔ flags &&& headCrc ≠ 0

def GzipHeader.bytes (h : GzipHeader) : Bytes :=
  [h.id1, h.id2, deflated, h.flags] ++ h.fixed ++ extraBytes h.extra ++ nameBytes h.name ++
    nameBytes h.note ++ crcBytes h.crc

/-- The source begins with this header, and there is a byte behind it. -/
def HasHeader (src : Bytes) (h : GzipHeader) : Prop := ∃ rest, rest ≠ [] ∧ src = h.bytes ++ rest

section Parts

variable {src Q : Bytes} {flags mask : UInt8} {i j fuel : Nat}

theorem skipString_ok_iff (hfuel : src.length < i + fuel) :
    skipString src fuel i = .ok j ↔
      ∃ s Q, 0 ∉ s ∧ src.drop i = s ++ 0 :: Q ∧ j = i + (s.length + 1) := by
  induction fuel generalizing i with
  | zero =>
    have hnil : src.drop i = [] := List.drop_eq_nil_of_le (by omega)
    refine iff_of_false (fun h => by cases h) ?_
    rintro ⟨s, Q, -, hs, -⟩
    rw [hnil] at hs
    exact absurd hs.symm (List.append_ne_nil_of_right_ne_nil _ (List.cons_ne_nil _ _))
  | succ fuel ih =>
    rw [skipString, bind_eq_ok]
    constructor
    · rintro ⟨c, hc, hrest⟩
      obtain ⟨Q, hQ⟩ := load_eq_ok_iff.mp hc
      by_cases hzero : c = 0
      · subst hzero
        rw [if_neg (not_not.mpr rfl)] at hrest
        cases hrest
        exact ⟨[], Q, List.not_mem_nil, hQ, rfl⟩
      · rw [if_pos hzero, ih (by omega)] at hrest
        obtain ⟨s, Q', hs, hdrop, rfl⟩ := hrest
        have hnext : src.drop (i + 1) = Q := drop_add_of_eq (p := [c]) hQ
        refine ⟨c :: s, Q', ?_, ?_, ?_⟩
        · rintro hmem
          rcases List.mem_cons.mp hmem with h | h
          · exact hzero h.symm
          · exact hs h
        · rw [hQ, ← hnext, hdrop, List.cons_append]
        · rw [List.length_cons]
          omega
    · rintro ⟨s, Q, hs, hdrop, rfl⟩
      cases s with
      | nil =>
        refine ⟨0, load_eq_ok_iff.mpr ⟨Q, hdrop⟩, ?_⟩
        rw [if_neg (not_not.mpr rfl)]
        rfl
      | cons c s =>
        have hnext : src.drop (i + 1) = s ++ 0 :: Q := drop_add_of_eq (p := [c]) hdrop
        refine ⟨c, load_eq_ok_iff.mpr ⟨_, hdrop⟩, ?_⟩
        have hc : c ≠ 0 := fun h => hs (List.mem_cons.mpr (.inl h.symm))
        rw [if_pos hc, ih (by omega)]
        refine ⟨s, Q, fun h => hs (List.mem_cons_of_mem _ h), hnext, ?_⟩
        rw [List.length_cons]
        omega

/-- A name ends where its terminator says. -/
theorem skipName_ok_iff : skipName src flags mask i = .ok j ↔
    ∃ name : Option Bytes, (name.isSome ↔ flags &&& mask ≠ 0) ∧ (∀ s ∈ name, 0 ∉ s) ∧
      (∃ Q, src.drop i = nameBytes name ++ Q) ∧ j = i + (nameBytes name).length := by
  unfold skipName
  by_cases hflag : flags &&& mask ≠ 0
  · rw [if_pos hflag, skipString_ok_iff (by omega)]
    constructor
    · rintro ⟨s, Q, hs, hdrop, rfl⟩
      refine ⟨some s, iff_of_true rfl hflag, ?_, ⟨Q, ?_⟩, ?_⟩
      · rintro _ ⟨⟩
        exact hs
      · rw [hdrop, nameBytes, List.append_assoc, List.singleton_append]
      · rw [nameBytes, List.length_append, List.length_singleton]
    · rintro ⟨name, hname, hs, ⟨Q, hdrop⟩, rfl⟩
      obtain ⟨s, rfl⟩ := Option.isSome_iff_exists.mp (hname.mpr hflag)
      refine ⟨s, Q, hs s rfl, ?_, ?_⟩
      · rw [hdrop, nameBytes, List.append_assoc, List.singleton_append]
      · rw [nameBytes, List.length_append, List.length_singleton]
  · rw [if_neg hflag]
    constructor
    · intro h
      cases h
      refine ⟨none, iff_of_false Bool.false_ne_true hflag, ?_, ⟨_, rfl⟩, rfl⟩
      rintro s ⟨⟩
    · rintro ⟨name, hname, -, -, rfl⟩
      obtain rfl := Option.not_isSome_iff_eq_none.mp (mt hname.mp hflag)
      rfl

theorem skipExtra_eq_ok (hflag : flags &&& extraField ≠ 0) {lo hi : UInt8}
    (h : src.drop 10 = lo :: hi :: Q) :
    skipExtra src flags = .ok (12 + lo.toNat + 256 * hi.toNat) := by
  have hnext : src.drop 11 = hi :: Q := drop_add_of_eq (p := [lo]) h
  unfold skipExtra
  rw [if_pos hflag, load_eq_ok_iff.mpr ⟨_, h⟩, ok_bind, load_eq_ok_iff.mpr ⟨_, hnext⟩, ok_bind,
    Nat.shiftLeft_eq, Nat.mul_comm hi.toNat]
  rfl

theorem skipExtra_ok (hflag : flags &&& extraField ≠ 0) (h : skipExtra src flags = .ok i) :
    ∃ lo hi Q, src.drop 10 = lo :: hi :: Q ∧ i = 12 + lo.toNat + 256 * hi.toNat := by
  have hok := h
  unfold skipExtra at h
  rw [if_pos hflag] at h
  obtain ⟨lo, hlo, h⟩ := bind_eq_ok.mp h
  obtain ⟨hi, hhi, -⟩ := bind_eq_ok.mp h
  obtain ⟨Q, hQ⟩ := load_eq_ok_iff.mp hlo
  obtain ⟨Q', hQ'⟩ := load_eq_ok_iff.mp hhi
  have hnext : src.drop 11 = Q := drop_add_of_eq (p := [lo]) hQ
  rw [hnext] at hQ'
  rw [hQ'] at hQ
  rw [skipExtra_eq_ok hflag hQ] at hok
  cases hok
  exact ⟨lo, hi, Q', hQ, rfl⟩

theorem length_drop_eq {p : Bytes} (h : src.drop i = p ++ Q) :
    src.length - i = p.length + Q.length := by
  rw [← List.length_drop, h, List.length_append]

theorem extraBytes_some {lo hi : UInt8} {data : Bytes}
    (hlen : data.length = lo.toNat + 256 * hi.toNat) :
    extraBytes (some data) = lo :: hi :: data := by
  have hlo := lo.toNat_lt
  have hlow : UInt8.ofNat data.length = lo := by
    rw [← UInt8.toNat_inj, UInt8.toNat_ofNat', hlen]
    omega
  have hhigh : UInt8.ofNat (data.length / 256) = hi := by
    have hhi := hi.toNat_lt
    rw [← UInt8.toNat_inj, UInt8.toNat_ofNat', hlen]
    omega
  rw [extraBytes, hlow, hhigh]

/-- An extra field ends where its length says. -/
theorem skipExtra_ok_iff (hfixed : 10 ≤ src.length) :
    skipExtra src flags = .ok i ∧ i ≤ src.length ↔
      ∃ extra : Option Bytes, (extra.isSome ↔ flags &&& extraField ≠ 0) ∧
        (∀ data ∈ extra, data.length < 2 ^ 16) ∧ (∃ Q, src.drop 10 = extraBytes extra ++ Q) ∧
        i = 10 + (extraBytes extra).length := by
  by_cases hflag : flags &&& extraField ≠ 0
  · constructor
    · rintro ⟨h, hi⟩
      obtain ⟨lo, hi', Q, hQ, rfl⟩ := skipExtra_ok hflag h
      have hlo := lo.toNat_lt
      have hhi := hi'.toNat_lt
      have hlength := length_drop_eq (p := [lo, hi']) hQ
      rw [List.length_cons, List.length_singleton] at hlength
      have hdata : (Q.take (lo.toNat + 256 * hi'.toNat)).length = lo.toNat + 256 * hi'.toNat := by
        rw [List.length_take, Nat.min_eq_left (by omega)]
      refine ⟨some (Q.take (lo.toNat + 256 * hi'.toNat)), iff_of_true rfl hflag, ?_,
        ⟨Q.drop (lo.toNat + 256 * hi'.toNat), ?_⟩, ?_⟩
      · rintro _ ⟨⟩
        omega
      · rw [extraBytes_some hdata, List.cons_append, List.cons_append, List.take_append_drop, hQ]
      · rw [extraBytes_some hdata, List.length_cons, List.length_cons, hdata]
        omega
    · rintro ⟨extra, hextra, hlt, ⟨Q, hQ⟩, rfl⟩
      obtain ⟨data, rfl⟩ := Option.isSome_iff_exists.mp (hextra.mpr hflag)
      have hlt := hlt data rfl
      have hlength := length_drop_eq hQ
      have hend := skipExtra_eq_ok hflag hQ
      rw [UInt8.toNat_ofNat', UInt8.toNat_ofNat'] at hend
      rw [hend, extraBytes, List.length_cons, List.length_cons]
      rw [extraBytes, List.length_cons, List.length_cons] at hlength
      refine ⟨congrArg Except.ok ?_, by omega⟩
      omega
  · unfold skipExtra
    rw [if_neg hflag]
    constructor
    · rintro ⟨⟨⟩, -⟩
      refine ⟨none, iff_of_false Bool.false_ne_true hflag, ?_, ⟨_, rfl⟩, rfl⟩
      rintro s ⟨⟩
    · rintro ⟨extra, hextra, -, -, rfl⟩
      obtain rfl := Option.not_isSome_iff_eq_none.mp (mt hextra.mp hflag)
      exact ⟨rfl, hfixed⟩

theorem skipCrc_iff (hi : i ≤ src.length) :
    skipCrc flags i ≤ src.length ∧ j = skipCrc flags i ↔
      ∃ crc : Option (UInt8 × UInt8), (crc.isSome ↔ flags &&& headCrc ≠ 0) ∧
        (∃ Q, src.drop i = crcBytes crc ++ Q) ∧ j = i + (crcBytes crc).length := by
  unfold skipCrc
  by_cases hflag : flags &&& headCrc ≠ 0
  · rw [if_pos hflag]
    constructor
    · rintro ⟨hle, rfl⟩
      obtain ⟨lo, hi', Q, hQ⟩ : ∃ lo hi Q, src.drop i = lo :: hi :: Q := by
        have hlength : (src.drop i).length = src.length - i := List.length_drop
        match h : src.drop i with
        | [] => rw [h, List.length_nil] at hlength; omega
        | [_] => rw [h, List.length_singleton] at hlength; omega
        | lo :: hi :: Q => exact ⟨lo, hi, Q, rfl⟩
      exact ⟨some (lo, hi'), iff_of_true rfl hflag, ⟨Q, hQ⟩, rfl⟩
    · rintro ⟨crc, hcrc, ⟨Q, hQ⟩, rfl⟩
      obtain ⟨⟨lo, hi'⟩, rfl⟩ := Option.isSome_iff_exists.mp (hcrc.mpr hflag)
      have hlength := length_drop_eq hQ
      rw [crcBytes, List.length_cons, List.length_singleton] at hlength
      exact ⟨by omega, rfl⟩
  · rw [if_neg hflag]
    constructor
    · rintro ⟨-, rfl⟩
      exact ⟨none, iff_of_false Bool.false_ne_true hflag, ⟨_, rfl⟩, rfl⟩
    · rintro ⟨crc, hcrc, -, rfl⟩
      obtain rfl := Option.not_isSome_iff_eq_none.mp (mt hcrc.mp hflag)
      exact ⟨hi, rfl⟩

end Parts

/-! ## The whole header -/

section Header

variable {src : Bytes} {n : Nat} {r : GunzipEnd}

theorem gunzip_eq_ok : gunzip src = .ok r ↔
    ∃ flags method, load src 3 = .ok flags ∧ load src 2 = .ok method ∧
      ((method ≠ deflated ∨ flags &&& reserved ≠ 0) ∧ r = .badData ∨
        ¬ (method ≠ deflated ∨ flags &&& reserved ≠ 0) ∧
          ∃ i j k, skipExtra src flags = .ok i ∧ skipName src flags origName i = .ok j ∧
            skipName src flags comment j = .ok k ∧
            r = if src.length ≤ skipCrc flags k then .outOfData else .zunzip (skipCrc flags k)) := by
  unfold gunzip
  rw [bind_eq_ok]
  refine exists_congr fun flags => ?_
  rw [bind_eq_ok]
  constructor
  · rintro ⟨hflags, method, hmethod, h⟩
    refine ⟨method, hflags, hmethod, ?_⟩
    split at h
    · next hbad =>
      cases h
      exact .inl ⟨hbad, rfl⟩
    · next hgood =>
      obtain ⟨i, hi, h⟩ := bind_eq_ok.mp h
      obtain ⟨j, hj, h⟩ := bind_eq_ok.mp h
      obtain ⟨k, hk, h⟩ := bind_eq_ok.mp h
      exact .inr ⟨hgood, i, j, k, hi, hj, hk, (Except.ok.inj h).symm⟩
  · rintro ⟨method, hflags, hmethod, ⟨hbad, rfl⟩ | ⟨hgood, i, j, k, hi, hj, hk, rfl⟩⟩
    · refine ⟨hflags, method, hmethod, ?_⟩
      rw [if_pos hbad]
      rfl
    · refine ⟨hflags, method, hmethod, ?_⟩
      rw [if_neg hgood, hi, ok_bind, hj, ok_bind, hk, ok_bind]
      rfl

theorem le_of_skipExtra {flags : UInt8} {i : Nat} (h : skipExtra src flags = .ok i) : 10 ≤ i := by
  by_cases hflag : flags &&& extraField ≠ 0
  · obtain ⟨lo, hi, Q, -, rfl⟩ := skipExtra_ok hflag h
    omega
  · unfold skipExtra at h
    rw [if_neg hflag] at h
    cases h
    exact Nat.le_refl 10

theorem le_skipCrc (flags : UInt8) (i : Nat) : i ≤ skipCrc flags i := by
  unfold skipCrc
  split
  · exact Nat.le_add_right i 2
  · exact Nat.le_refl i

/-- The fixed fields in front of a position. -/
theorem exists_fixed {flags method : UInt8} (hflags : load src 3 = .ok flags)
    (hmethod : load src 2 = .ok method) (hlen : 10 ≤ src.length) :
    ∃ id1 id2 fixed, fixed.length = 6 ∧
      src = [id1, id2, method, flags] ++ fixed ++ src.drop 10 := by
  obtain ⟨Q, hQ⟩ := load_eq_ok_iff.mp hflags
  obtain ⟨Q', hQ'⟩ := load_eq_ok_iff.mp hmethod
  have hnext : src.drop 3 = Q' := drop_add_of_eq (p := [method]) hQ'
  have hrest : src.drop 4 = Q := drop_add_of_eq (p := [flags]) hQ
  obtain ⟨id1, id2, hids⟩ := List.length_eq_two.mp (show (src.take 2).length = 2 by
    rw [List.length_take, Nat.min_eq_left (by omega)])
  have hfixed : (Q.take 6).length = 6 := by
    rw [← hrest, List.length_take, List.length_drop, Nat.min_eq_left (by omega)]
  refine ⟨id1, id2, Q.take 6, hfixed, ?_⟩
  have htail : src.drop 10 = Q.drop 6 := by rw [← hrest, List.drop_drop]
  conv_lhs => rw [← List.take_append_drop 2 src, hids, hQ', ← hnext, hQ]
  rw [htail, List.append_assoc, List.take_append_drop]
  rfl

theorem drop_header (h : GzipHeader) (rest : Bytes) :
    (h.bytes ++ rest).drop 10 = extraBytes h.extra ++
      (nameBytes h.name ++ (nameBytes h.note ++ (crcBytes h.crc ++ rest))) := by
  have hlen : ([h.id1, h.id2, deflated, h.flags] ++ h.fixed).length = 10 := by
    rw [List.length_append, h.fixed_length]
    rfl
  rw [GzipHeader.bytes]
  simp only [List.append_assoc]
  rw [← List.append_assoc, List.drop_left' hlen]

/-- The offset is the length of the header. -/
theorem gunzip_zunzip_iff :
    gunzip src = .ok (.zunzip n) ↔ ∃ h, HasHeader src h ∧ n = h.bytes.length := by
  rw [gunzip_eq_ok]
  constructor
  · rintro ⟨flags, method, hflags, hmethod, ⟨-, hbad⟩ | ⟨hgood, i, j, k, hi, hj, hk, hend⟩⟩
    · cases hbad
    by_cases hle : src.length ≤ skipCrc flags k
    · rw [if_pos hle] at hend
      cases hend
    rw [if_neg hle] at hend
    obtain rfl := (GunzipEnd.zunzip.inj hend).symm
    push Not at hgood
    obtain ⟨rfl, hreserved⟩ := hgood
    have hge := le_of_skipExtra hi
    have hcrc := le_skipCrc flags k
    obtain ⟨name, hname, hnameOk, ⟨Q₁, hQ₁⟩, hjeq⟩ := skipName_ok_iff.mp hj
    obtain ⟨note, hnote, hnoteOk, ⟨Q₂, hQ₂⟩, hkeq⟩ := skipName_ok_iff.mp hk
    obtain ⟨crc, hcrcIff, ⟨Q₃, hQ₃⟩, hneq⟩ :=
      (skipCrc_iff (j := skipCrc flags k) (show k ≤ src.length by omega)).mp ⟨by omega, rfl⟩
    obtain ⟨extra, hextra, hextraLt, ⟨Q, hQ⟩, hieq⟩ :=
      (skipExtra_ok_iff (by omega)).mp ⟨hi, by omega⟩
    obtain ⟨id1, id2, fixed, hfixed, hsrc⟩ := exists_fixed hflags hmethod (by omega)
    have hQeq := drop_add_of_eq hQ
    have hQeq₁ := drop_add_of_eq hQ₁
    have hQeq₂ := drop_add_of_eq hQ₂
    have hQeq₃ := drop_add_of_eq hQ₃
    rw [← hieq] at hQeq
    rw [← hjeq] at hQeq₁
    rw [← hkeq] at hQeq₂
    rw [← hneq] at hQeq₃
    refine ⟨⟨id1, id2, flags, fixed, extra, name, note, crc, hreserved, hfixed, hextra, hextraLt,
      hname, hnameOk, hnote, hnoteOk, hcrcIff⟩, ⟨Q₃, ?_, ?_⟩, ?_⟩
    · rintro rfl
      have hnil := List.drop_eq_nil_iff.mp hQeq₃
      omega
    · rw [hsrc, hQ, ← hQeq, hQ₁, ← hQeq₁, hQ₂, ← hQeq₂, hQ₃, GzipHeader.bytes]
      simp only [List.append_assoc]
    · simp only [GzipHeader.bytes, List.length_append, List.length_cons, List.length_nil]
      omega
  · rintro ⟨h, ⟨rest, hrest, rfl⟩, rfl⟩
    have hdrop := drop_header h rest
    have hlen : 10 ≤ (h.bytes ++ rest).length := by
      simp only [GzipHeader.bytes, List.length_append, List.length_cons, List.length_nil,
        h.fixed_length]
      omega
    obtain ⟨hextra, hile⟩ := (skipExtra_ok_iff hlen).mpr
      ⟨h.extra, h.extra_iff, h.extra_lt, ⟨_, hdrop⟩, rfl⟩
    have hdrop₁ := drop_add_of_eq hdrop
    have hname := skipName_ok_iff.mpr ⟨h.name, h.name_iff, h.name_ok, ⟨_, hdrop₁⟩, rfl⟩
    have hdrop₂ := drop_add_of_eq hdrop₁
    have hnote := skipName_ok_iff.mpr ⟨h.note, h.note_iff, h.note_ok, ⟨_, hdrop₂⟩, rfl⟩
    have hdrop₃ := drop_add_of_eq hdrop₂
    have hpos := List.length_pos_of_ne_nil hrest
    have hlength := length_drop_eq hdrop₃
    have hcrc := (skipCrc_iff (by omega : _ ≤ (h.bytes ++ rest).length)).mpr
      ⟨h.crc, h.crc_iff, ⟨_, hdrop₃⟩, rfl⟩
    refine ⟨h.flags, deflated, rfl, rfl, .inr ⟨?_, _, _, _, hextra, hname, hnote, ?_⟩⟩
    · push Not
      exact ⟨rfl, h.flags_ok⟩
    rw [← hcrc.2, if_neg]
    · simp only [GzipHeader.bytes, List.length_append, List.length_cons, List.length_nil,
        h.fixed_length]
    · simp only [GzipHeader.bytes, List.length_append, List.length_cons, List.length_nil,
        h.fixed_length]
      omega

end Header

/-! ## What is read -/

/-- The flags of the source, 0 behind its end. -/
def flagsOf (src : Bytes) : UInt8 := src.getD 3 0

/-- The method is 8, and no reserved flag is set. -/
def Accepted (src : Bytes) : Prop := src.getD 2 0 = deflated ∧ flagsOf src &&& reserved = 0

/-- Where the name begins. -/
def nameStart (src : Bytes) : Nat :=
  if flagsOf src &&& extraField ≠ 0 then
    12 + (src.getD 10 0).toNat + 256 * (src.getD 11 0).toNat
  else 10

/-- 1 if the flag is set. -/
def flagCount (flags mask : UInt8) : Nat := if flags &&& mask ≠ 0 then 1 else 0

/-- What `gunzip` reads before its test is there. -/
structure ReadsInside (src : Bytes) : Prop where
  flags : 4 ≤ src.length
  extra : Accepted src → flagsOf src &&& extraField ≠ 0 → 12 ≤ src.length
  names : Accepted src → flagCount (flagsOf src) origName + flagCount (flagsOf src) comment ≤
    (src.drop (nameStart src)).count 0

section Reads

variable {src : Bytes} {flags mask : UInt8} {i j : Nat}

/-- A name takes one zero. -/
theorem count_of_skipName (h : skipName src flags mask i = .ok j) :
    (src.drop i).count 0 = flagCount flags mask + (src.drop j).count 0 := by
  obtain ⟨name, hname, hzero, ⟨Q, hQ⟩, rfl⟩ := skipName_ok_iff.mp h
  rw [drop_add_of_eq hQ, hQ, List.count_append]
  congr 1
  unfold flagCount
  cases name with
  | none => exact (if_neg (mt hname.mpr Bool.false_ne_true)).symm
  | some s =>
    rw [if_pos (hname.mp rfl), nameBytes, List.count_append,
      List.count_eq_zero_of_not_mem (hzero s rfl)]
    rfl

theorem exists_skipName_iff :
    (∃ j, skipName src flags mask i = .ok j) ↔ flagCount flags mask ≤ (src.drop i).count 0 := by
  constructor
  · rintro ⟨j, hj⟩
    rw [count_of_skipName hj]
    exact Nat.le_add_right _ _
  · intro h
    unfold flagCount at h
    by_cases hflag : flags &&& mask ≠ 0
    · rw [if_pos hflag] at h
      obtain ⟨s, Q, hQ, hs⟩ := List.eq_append_cons_of_mem (List.count_pos_iff.mp h)
      refine ⟨_, skipName_ok_iff.mpr ⟨some s, iff_of_true rfl hflag, ?_, ⟨Q, ?_⟩, rfl⟩⟩
      · rintro _ ⟨⟩
        exact hs
      · rw [hQ, nameBytes, List.append_assoc, List.singleton_append]
    · exact ⟨i, if_neg hflag⟩

theorem skipExtra_flagsOf (hextra : flagsOf src &&& extraField ≠ 0 → 12 ≤ src.length) :
    skipExtra src (flagsOf src) = .ok (nameStart src) := by
  unfold skipExtra nameStart
  by_cases hflag : flagsOf src &&& extraField ≠ 0
  · have hlen := hextra hflag
    rw [if_pos hflag, if_pos hflag, load_eq_getD (by omega), ok_bind, load_eq_getD (by omega),
      ok_bind, Nat.shiftLeft_eq, Nat.mul_comm (src.getD 11 0).toNat]
    rfl
  · rw [if_neg hflag, if_neg hflag]

/-- When nothing behind the source is read. -/
theorem gunzip_ok_iff : (∃ r, gunzip src = .ok r) ↔ ReadsInside src := by
  have hbad : ∀ {flags method : UInt8}, ¬ (method ≠ deflated ∨ flags &&& reserved ≠ 0) ↔
      method = deflated ∧ flags &&& reserved = 0 := by
    intro flags method
    rw [not_or, not_not, not_not]
  constructor
  · rintro ⟨r, hr⟩
    obtain ⟨flags, method, hflags, hmethod, hrest⟩ := gunzip_eq_ok.mp hr
    obtain ⟨hlt, rfl⟩ := lt_of_load hflags
    obtain ⟨-, rfl⟩ := lt_of_load hmethod
    change (_ ∨ flagsOf src &&& reserved ≠ 0) ∧ _ ∨ _ at hrest
    rcases hrest with ⟨hrefused, -⟩ | ⟨-, i, j, k, hi, hj, hk, -⟩
    · have hnot : ¬ Accepted src := fun h => hbad.mpr h hrefused
      exact ⟨hlt, fun h => absurd h hnot, fun h => absurd h hnot⟩
    have hextra : flagsOf src &&& extraField ≠ 0 → 12 ≤ src.length := by
      intro hflag
      obtain ⟨lo, hi', Q, hQ, -⟩ := skipExtra_ok hflag hi
      have hlength := length_drop_eq (p := [lo, hi']) hQ
      rw [List.length_cons, List.length_singleton] at hlength
      omega
    refine ⟨hlt, fun _ => hextra, fun _ => ?_⟩
    have hstart := skipExtra_flagsOf hextra
    rw [show flagsOf src = src.getD 3 0 from rfl, hi] at hstart
    obtain rfl := Except.ok.inj hstart
    have hcount := count_of_skipName hj
    have hcount' := count_of_skipName hk
    rw [hcount, hcount', ← Nat.add_assoc]
    exact Nat.le_add_right _ _
  · rintro ⟨hlen, hextra, hnames⟩
    have hflags := load_eq_getD (m := src) (i := 3) (by omega)
    have hmethod := load_eq_getD (m := src) (i := 2) (by omega)
    by_cases haccepted : Accepted src
    · have hi := skipExtra_flagsOf (hextra haccepted)
      have hcount := hnames haccepted
      obtain ⟨j, hj⟩ := exists_skipName_iff.mpr (Nat.le_trans (Nat.le_add_right _ _) hcount)
      rw [count_of_skipName hj] at hcount
      obtain ⟨k, hk⟩ := exists_skipName_iff.mpr (Nat.le_of_add_le_add_left hcount)
      exact ⟨_, gunzip_eq_ok.mpr ⟨flagsOf src, _, hflags, hmethod,
        .inr ⟨hbad.mpr haccepted, _, j, k, hi, hj, hk, rfl⟩⟩⟩
    · refine ⟨.badData, gunzip_eq_ok.mpr ⟨flagsOf src, _, hflags, hmethod, .inl ⟨?_, rfl⟩⟩⟩
      by_contra h
      exact haccepted (hbad.mp h)

end Reads

/-- `gunzip` reads the source only, fails if no header with a byte behind it is there, and else
passes its length to `zunzip`. -/
def GunzipRight (src : Bytes) : Prop :=
  ∃ r, gunzip src = .ok r ∧
    ((∀ h, ¬ HasHeader src h) → r = .badData ∨ r = .outOfData) ∧
    ∀ h, HasHeader src h → r = .zunzip h.bytes.length

/-- **Exactly when `gunzip` is right**: what it reads before its test is there. -/
theorem gunzip_right_iff (src : Bytes) : GunzipRight src ↔ ReadsInside src := by
  rw [← gunzip_ok_iff]
  constructor
  · rintro ⟨r, hr, -⟩
    exact ⟨r, hr⟩
  · rintro ⟨r, hr⟩
    refine ⟨r, hr, fun hnone => ?_, fun h hh => ?_⟩
    · cases r with
      | badData => exact .inl rfl
      | outOfData => exact .inr rfl
      | zunzip n =>
        obtain ⟨h, hh, -⟩ := gunzip_zunzip_iff.mp hr
        exact absurd hh (hnone h)
    · have hzunzip := gunzip_zunzip_iff.mpr ⟨h, hh, rfl⟩
      rw [hr] at hzunzip
      exact Except.ok.inj hzunzip

/-- A name without a terminator is scanned past the end. -/
theorem not_gunzip_right : ¬ GunzipRight [0x1F, 0x8B, 8, 8, 0, 0, 0, 0, 0, 3, 0x76, 0x6D] := by
  rintro ⟨r, hr, -⟩
  have hfault : gunzip [0x1F, 0x8B, 8, 8, 0, 0, 0, 0, 0, 3, 0x76, 0x6D] = .error (.load 12) := rfl
  rw [hfault] at hr
  cases hr

end UBoot.LibGeneric
