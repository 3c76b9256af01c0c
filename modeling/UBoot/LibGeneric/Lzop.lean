import UBoot.Lib.Blocks

/-!
# The blocks of an lzop image

`lzop_decompress` of `lib_generic/lzo/lzo1x_decompress.c`.  The source is an area of `src_len` bytes,
and `*dst_len` bytes may be written; a read or a write elsewhere is a fault.  Neither area reaches
the end of the address space, so that no pointer wraps.

`lzo1x_decompress_safe` is a parameter (`Lzo1x`): it gets those of its `in_len` bytes that are inside
the source, reads no others behind them without a fault, and writes no more than `out_len`.

* `lzopDecompress_spec`: where the blocks lie inside the source and what they write inside the
  destination (`BlocksInside`), the code returns, and `*dst_len` is the sum of the block sizes.
* `lzop_right_iff`: and only there.
-/

namespace UBoot.LibGeneric.Lzo

open UBoot.Lib

/-- `LZO_E_OK` -/
def lzoEOk : Int := 0

/-- `LZO_E_ERROR` -/
def lzoEError : Int := -1

/-- `LZO_E_INPUT_OVERRUN` -/
def lzoEInputOverrun : Int := -4

/-- What `lzo1x_decompress_safe` returns and has written; the length is left in `*out_len`. -/
structure LzoResult where
  ret : Int
  out : Bytes

/-- `lzo1x_decompress_safe`: from those of the `in_len` bytes that are there, `in_len` and `*out_len`;
none if it reads behind them. -/
structure Lzo1x where
  decompressSafe : Bytes → Nat → Nat → Option LzoResult
  reads : ∀ {inp inLen outLen}, inp.length = inLen → decompressSafe inp inLen outLen ≠ none
  writes : ∀ {inp inLen outLen r}, decompressSafe inp inLen outLen = some r → r.out.length ≤ outLen

/-- `lzop_magic` -/
def lzopMagic : Bytes := [0x89, 0x4C, 0x5A, 0x4F, 0x00, 0x0D, 0x0A, 0x1A, 0x0A]

/-- `HEADER_HAS_FILTER` -/
def headerHasFilter : Nat := 0x00000800

/-- `get_unaligned_be16` -/
def getUnalignedBe16 (src : Bytes) (pos : Nat) : Exec Nat := do
  let a ← load src pos
  let b ← load src (pos + 1)
  return a.toNat * 2 ^ 8 + b.toNat

/-- `get_unaligned_be32` -/
def getUnalignedBe32 (src : Bytes) (pos : Nat) : Exec Nat := do
  let a ← getUnalignedBe16 src pos
  let b ← getUnalignedBe16 src (pos + 2)
  return a * 2 ^ 16 + b

/-- The loop over the magic from this position: whether it has been read. -/
def readMagic (src : Bytes) : Nat → Bytes → Exec Bool
  | _, [] => .ok true
  | pos, m :: magic => do
    if (← load src pos) ≠ m then return false else readMagic src (pos + 1) magic

/-- The position behind the level, which new versions have. -/
def skipLevel (src : Bytes) (version : Nat) : Exec Nat :=
  if version ≥ 0x0940 then (load src 16).map fun _ => 17 else .ok 16

/-- The position behind the filter info, the flags, the mode and the times. -/
def skipFields (version flags pos : Nat) : Nat :=
  let pos := if flags &&& headerHasFilter ≠ 0 then pos + 4 else pos
  let pos := pos + 12
  if version ≥ 0x0940 then pos + 4 else pos

/-- `parse_header`: the position behind the header. -/
def parseHeader (src : Bytes) : Exec (Option Nat) := do
  if (← readMagic src 0 lzopMagic) = false then return none
  else
    let version ← getUnalignedBe16 src 9
    let pos ← skipLevel src version
    let flags ← getUnalignedBe32 src pos
    let pos := skipFields version flags pos
    let i ← load src pos
    return some (pos + 1 + i.toNat + 4)

/-- What `lzop_decompress` returns, with `*dst_len` and the destination. -/
structure LzopEnd where
  ret : Int
  dstLen : Nat
  dst : Contents

section Code

variable (lzo : Lzo1x) (src : Bytes) (cap : Nat)

/-- `while (src < send)`, where `out` is `dst - start`. -/
def lzopLoop : Nat → Nat → Nat → Contents → Exec LzopEnd
  | 0, _, _, _ => .error .steps
  | fuel + 1, pos, out, dst =>
    if pos < src.length then do
      let dlen ← getUnalignedBe32 src pos
      let pos := pos + 4
      if dlen = 0 then return ⟨lzoEOk, out, dst⟩
      else
        let slen ← getUnalignedBe32 src pos
        let pos := pos + 8
        if slen = 0 ∨ slen > dlen then return ⟨lzoEError, cap, dst⟩
        else
          match lzo.decompressSafe ((src.drop pos).take slen) slen dlen with
          | none => .error (.load src.length)
          | some r =>
            if cap < out + r.out.length then .error (.store cap)
            else
              let dst := storeAt dst out r.out
              if r.ret ≠ lzoEOk then return ⟨r.ret, cap, dst⟩
              else if dlen ≠ r.out.length then return ⟨lzoEError, cap, dst⟩
              else lzopLoop fuel (pos + slen) (out + dlen) dst
    else .ok ⟨lzoEInputOverrun, cap, dst⟩

/-- `lzop_decompress` -/
def lzopDecompress (dst : Contents) : Exec LzopEnd := do
  match ← parseHeader src with
  | none => return ⟨lzoEError, cap, dst⟩
  | some pos => lzopLoop lzo src cap (src.length + 1) pos 0 dst

end Code

/-! ## The layout of an image -/

/-- The words of the image, with 0 behind its end. -/
def be16At (src : Bytes) (pos : Nat) : Nat :=
  (src.getD pos 0).toNat * 2 ^ 8 + (src.getD (pos + 1) 0).toNat

def be32At (src : Bytes) (pos : Nat) : Nat := be16At src pos * 2 ^ 16 + be16At src (pos + 2)

/-- Where the flags are. -/
def flagsAt (src : Bytes) : Nat := if be16At src 9 ≥ 0x0940 then 17 else 16

/-- Where the length of the name is. -/
def nameAt (src : Bytes) : Nat :=
  skipFields (be16At src 9) (be32At src (flagsAt src)) (flagsAt src)

/-- Where the first block is. -/
def firstBlock (src : Bytes) : Nat := nameAt src + 1 + (src.getD (nameAt src) 0).toNat + 4

/-- What the decompressor makes of the block at a position. -/
def blockResult (lzo : Lzo1x) (src : Bytes) (pos : Nat) : Option LzoResult :=
  lzo.decompressSafe ((src.drop (pos + 12)).take (be32At src (pos + 4))) (be32At src (pos + 4))
    (be32At src pos)

/-- The sizes of the block are those of a block with data. -/
def HasData (src : Bytes) (pos : Nat) : Prop :=
  0 < be32At src (pos + 4) ∧ be32At src (pos + 4) ≤ be32At src pos

/-- The chain of blocks comes to this position, after blocks of these sizes. -/
inductive BlockAt (lzo : Lzo1x) (src : Bytes) : Nat → List Nat → Prop
  | first (hmagic : lzopMagic <+: src) : BlockAt lzo src (firstBlock src) []
  | next {pos : Nat} {sizes : List Nat} {r : LzoResult} (h : BlockAt lzo src pos sizes)
      (hpos : pos < src.length) (hdata : HasData src pos) (hr : blockResult lzo src pos = some r)
      (hok : r.ret = lzoEOk) (hlen : r.out.length = be32At src pos) :
      BlockAt lzo src (pos + 12 + be32At src (pos + 4)) (sizes ++ [be32At src pos])

/-- The magic and the fields of the header that are read lie inside. -/
structure HeaderInside (src : Bytes) : Prop where
  magic : src <+: lzopMagic → lzopMagic <+: src
  name : lzopMagic <+: src → nameAt src < src.length

/-- The header and the sizes and data of every block lie inside, and what the blocks write does. -/
structure BlocksInside (lzo : Lzo1x) (src : Bytes) (cap : Nat) : Prop where
  header : HeaderInside src
  sizes : ∀ pos sizes, BlockAt lzo src pos sizes → pos < src.length →
    pos + 4 ≤ src.length ∧ (be32At src pos ≠ 0 → pos + 8 ≤ src.length)
  data : ∀ pos sizes, BlockAt lzo src pos sizes → pos < src.length → HasData src pos →
    ∃ r, blockResult lzo src pos = some r ∧ sizes.sum + r.out.length ≤ cap

section Words

variable {src magic : Bytes} {pos v : Nat}

theorem be16_iff : getUnalignedBe16 src pos = .ok v ↔ pos + 2 ≤ src.length ∧ v = be16At src pos := by
  unfold getUnalignedBe16
  constructor
  · intro h
    obtain ⟨a, ha, h⟩ := bind_eq_ok.mp h
    obtain ⟨b, hb, h⟩ := bind_eq_ok.mp h
    obtain ⟨-, rfl⟩ := lt_of_load ha
    obtain ⟨hlt, rfl⟩ := lt_of_load hb
    exact ⟨hlt, (Except.ok.inj h).symm⟩
  · rintro ⟨hle, rfl⟩
    rw [load_eq_getD (by omega), ok_bind, load_eq_getD (by omega), ok_bind]
    rfl

theorem be32_iff : getUnalignedBe32 src pos = .ok v ↔ pos + 4 ≤ src.length ∧ v = be32At src pos := by
  unfold getUnalignedBe32
  constructor
  · intro h
    obtain ⟨a, ha, h⟩ := bind_eq_ok.mp h
    obtain ⟨b, hb, h⟩ := bind_eq_ok.mp h
    obtain ⟨-, rfl⟩ := be16_iff.mp ha
    obtain ⟨hle, rfl⟩ := be16_iff.mp hb
    exact ⟨hle, (Except.ok.inj h).symm⟩
  · rintro ⟨hle, rfl⟩
    rw [be16_iff.mpr ⟨by omega, rfl⟩, ok_bind, be16_iff.mpr ⟨by omega, rfl⟩, ok_bind]
    rfl

variable (src magic pos) in
/-- The magic is read to its end or to the first byte that differs. -/
theorem readMagic_spec :
    (readMagic src pos magic = .ok true ∧ magic <+: src.drop pos) ∨
    (readMagic src pos magic = .ok false ∧ ¬ magic <+: src.drop pos ∧ ¬ src.drop pos <+: magic) ∨
    ((∃ f, readMagic src pos magic = .error f) ∧ ¬ magic <+: src.drop pos ∧
      src.drop pos <+: magic) := by
  induction magic generalizing pos with
  | nil => exact .inl ⟨rfl, List.nil_prefix⟩
  | cons m magic ih =>
    by_cases hlt : pos < src.length
    swap
    · rw [List.drop_eq_nil_of_le (Nat.le_of_not_lt hlt)]
      refine .inr (.inr ⟨⟨.load pos, ?_⟩, ?_, List.nil_prefix⟩)
      · have hnone : load src pos = .error (.load pos) := by
          rw [load, List.getElem?_eq_none (Nat.le_of_not_lt hlt)]
        rw [readMagic, hnone, error_bind]
      · intro h
        exact absurd (List.prefix_nil.mp h) (List.cons_ne_nil _ _)
    have hload : load src pos = .ok src[pos] := load_eq_ok_iff.mpr ⟨_, List.drop_eq_getElem_cons hlt⟩
    rw [readMagic, hload, ok_bind, List.drop_eq_getElem_cons hlt, List.cons_prefix_cons,
      List.cons_prefix_cons]
    by_cases hm : src[pos] = m
    · rw [if_neg (not_not.mpr hm)]
      rcases ih (pos + 1) with ⟨hr, hpre⟩ | ⟨hr, hpre, hpre'⟩ | ⟨hr, hpre, hpre'⟩
      · exact .inl ⟨hr, hm.symm, hpre⟩
      · exact .inr (.inl ⟨hr, fun h => hpre h.2, fun h => hpre' h.2⟩)
      · exact .inr (.inr ⟨hr, fun h => hpre h.2, hm, hpre'⟩)
    · rw [if_pos hm]
      exact .inr (.inl ⟨rfl, fun h => hm h.1.symm, fun h => hm h.1⟩)

theorem le_skipFields (version flags pos : Nat) : pos + 12 ≤ skipFields version flags pos := by
  unfold skipFields
  dsimp only
  split <;> split <;> omega

theorem skipLevel_iff : skipLevel src (be16At src 9) = .ok pos ↔
    (be16At src 9 ≥ 0x0940 → 17 ≤ src.length) ∧ pos = flagsAt src := by
  unfold skipLevel flagsAt
  by_cases hnew : be16At src 9 ≥ 0x0940
  · rw [if_pos hnew, if_pos hnew]
    constructor
    · intro h
      cases hload : load src 16 with
      | error f => rw [hload] at h; cases h
      | ok c =>
        rw [hload] at h
        exact ⟨fun _ => (lt_of_load hload).1, (Except.ok.inj h).symm⟩
    · rintro ⟨hlen, rfl⟩
      rw [load_eq_getD (hlen hnew)]
      rfl
  · rw [if_neg hnew, if_neg hnew]
    constructor
    · intro h
      exact ⟨fun h => absurd h hnew, (Except.ok.inj h).symm⟩
    · rintro ⟨-, rfl⟩
      rfl

/-- The fields behind the magic. -/
theorem parseHeader_of_magic (hread : readMagic src 0 lzopMagic = .ok true) :
    (nameAt src < src.length ∧ parseHeader src = .ok (some (firstBlock src))) ∨
    (¬ nameAt src < src.length ∧ ∀ o, parseHeader src ≠ .ok o) := by
  have hflags : flagsAt src + 12 ≤ nameAt src := le_skipFields _ _ _
  have hsixteen : 16 ≤ flagsAt src := by
    unfold flagsAt
    split <;> omega
  by_cases hname : nameAt src < src.length
  · refine .inl ⟨hname, ?_⟩
    rw [parseHeader, hread, ok_bind, if_neg (by decide), be16_iff.mpr ⟨by omega, rfl⟩, ok_bind,
      skipLevel_iff.mpr ⟨fun _ => by omega, rfl⟩, ok_bind, be32_iff.mpr ⟨by omega, rfl⟩, ok_bind]
    dsimp only
    rw [← nameAt, load_eq_getD hname, ok_bind]
    rfl
  · refine .inr ⟨hname, fun o h => ?_⟩
    rw [parseHeader, hread, ok_bind, if_neg (by decide)] at h
    obtain ⟨version, hversion, h⟩ := bind_eq_ok.mp h
    obtain ⟨-, rfl⟩ := be16_iff.mp hversion
    obtain ⟨pos, hpos, h⟩ := bind_eq_ok.mp h
    obtain ⟨-, rfl⟩ := skipLevel_iff.mp hpos
    obtain ⟨flags, hword, h⟩ := bind_eq_ok.mp h
    obtain ⟨-, rfl⟩ := be32_iff.mp hword
    obtain ⟨i, hi, -⟩ := bind_eq_ok.mp h
    exact hname (lt_of_load hi).1

variable (src) in
/-- What is made of a header. -/
theorem parseHeader_spec :
    (parseHeader src = .ok (some (firstBlock src)) ∧ lzopMagic <+: src ∧ HeaderInside src) ∨
    (parseHeader src = .ok none ∧ ¬ lzopMagic <+: src ∧ HeaderInside src) ∨
    ((∀ o, parseHeader src ≠ .ok o) ∧ ¬ HeaderInside src) := by
  rcases readMagic_spec src lzopMagic 0 with
    ⟨hread, hpre⟩ | ⟨hread, hpre, hpre'⟩ | ⟨⟨f, hread⟩, hpre, hpre'⟩
  · rw [List.drop_zero] at hpre
    rcases parseHeader_of_magic hread with ⟨hname, hparse⟩ | ⟨hname, hparse⟩
    · exact .inl ⟨hparse, hpre, fun _ => hpre, fun _ => hname⟩
    · exact .inr (.inr ⟨hparse, fun h => hname (h.name hpre)⟩)
  · rw [List.drop_zero] at hpre hpre'
    refine .inr (.inl ⟨?_, hpre, fun h => absurd h hpre', fun h => absurd h hpre⟩)
    rw [parseHeader, hread]
    rfl
  · rw [List.drop_zero] at hpre hpre'
    refine .inr (.inr ⟨fun o h => ?_, fun h => hpre (h.magic hpre')⟩)
    rw [parseHeader, hread] at h
    cases h

end Words

/-! ## The chain of blocks -/

section Blocks

variable {lzo : Lzo1x} {src : Bytes} {cap pos out fuel : Nat} {sizes : List Nat} {dst : Contents}
  {r : LzopEnd}

/-- What a round of the loop needs, and how it goes on. -/
theorem lzopLoop_eq_ok (hpos : pos < src.length) :
    lzopLoop lzo src cap (fuel + 1) pos out dst = .ok r ↔
      pos + 4 ≤ src.length ∧
        (be32At src pos = 0 ∧ r = ⟨lzoEOk, out, dst⟩ ∨
          be32At src pos ≠ 0 ∧ pos + 8 ≤ src.length ∧
            (¬ HasData src pos ∧ r = ⟨lzoEError, cap, dst⟩ ∨
              HasData src pos ∧ ∃ q, blockResult lzo src pos = some q ∧ out + q.out.length ≤ cap ∧
                (q.ret ≠ lzoEOk ∧ r = ⟨q.ret, cap, storeAt dst out q.out⟩ ∨
                  q.ret = lzoEOk ∧ q.out.length ≠ be32At src pos ∧
                    r = ⟨lzoEError, cap, storeAt dst out q.out⟩ ∨
                  q.ret = lzoEOk ∧ q.out.length = be32At src pos ∧
                    lzopLoop lzo src cap fuel (pos + 12 + be32At src (pos + 4))
                      (out + be32At src pos) (storeAt dst out q.out) = .ok r))) := by
  have hdata : ¬ (be32At src (pos + 4) = 0 ∨ be32At src (pos + 4) > be32At src pos) ↔
      HasData src pos := by
    unfold HasData
    omega
  rw [lzopLoop, if_pos hpos, bind_eq_ok]
  constructor
  · rintro ⟨dlen, hdlen, h⟩
    obtain ⟨hle, rfl⟩ := be32_iff.mp hdlen
    refine ⟨hle, ?_⟩
    by_cases hzero : be32At src pos = 0
    · rw [if_pos hzero] at h
      exact .inl ⟨hzero, (Except.ok.inj h).symm⟩
    rw [if_neg hzero] at h
    obtain ⟨slen, hslen, h⟩ := bind_eq_ok.mp h
    obtain ⟨hle', rfl⟩ := be32_iff.mp hslen
    refine .inr ⟨hzero, hle', ?_⟩
    by_cases hgood : HasData src pos
    swap
    · rw [if_pos (not_not.mp (mt hdata.mp hgood))] at h
      exact .inl ⟨hgood, (Except.ok.inj h).symm⟩
    rw [if_neg (hdata.mpr hgood)] at h
    refine .inr ⟨hgood, ?_⟩
    change (match blockResult lzo src pos with
      | none => _
      | some r => _) = _ at h
    cases hq : blockResult lzo src pos with
    | none => rw [hq] at h; cases h
    | some q =>
      rw [hq] at h
      dsimp only at h
      by_cases hcap : cap < out + q.out.length
      · rw [if_pos hcap] at h
        cases h
      rw [if_neg hcap] at h
      refine ⟨q, rfl, Nat.le_of_not_lt hcap, ?_⟩
      by_cases hret : q.ret = lzoEOk
      swap
      · rw [if_pos hret] at h
        exact .inl ⟨hret, (Except.ok.inj h).symm⟩
      rw [if_neg (not_not.mpr hret)] at h
      by_cases hlen : q.out.length = be32At src pos
      · rw [if_neg (not_not.mpr hlen.symm)] at h
        exact .inr (.inr ⟨hret, hlen, h⟩)
      · rw [if_pos (Ne.symm hlen)] at h
        exact .inr (.inl ⟨hret, hlen, (Except.ok.inj h).symm⟩)
  · rintro ⟨hle, ⟨hzero, rfl⟩ | ⟨hzero, hle', h⟩⟩
    · refine ⟨_, be32_iff.mpr ⟨hle, rfl⟩, ?_⟩
      rw [if_pos hzero]
      rfl
    refine ⟨_, be32_iff.mpr ⟨hle, rfl⟩, ?_⟩
    rw [if_neg hzero, be32_iff.mpr ⟨hle', rfl⟩, ok_bind]
    rcases h with ⟨hbad, rfl⟩ | ⟨hgood, q, hq, hcap, h⟩
    · rw [if_pos (not_not.mp (mt hdata.mp hbad))]
      rfl
    rw [if_neg (hdata.mpr hgood)]
    change (match blockResult lzo src pos with
      | none => _
      | some r => _) = _
    rw [hq]
    dsimp only
    rw [if_neg (Nat.not_lt.mpr hcap)]
    rcases h with ⟨hret, rfl⟩ | ⟨hret, hlen, rfl⟩ | ⟨hret, hlen, h⟩
    · rw [if_pos hret]
      rfl
    · rw [if_neg (not_not.mpr hret), if_pos (Ne.symm hlen)]
      rfl
    · rw [if_neg (not_not.mpr hret), if_neg (not_not.mpr hlen.symm)]
      exact h

/-- A block of the chain is one that the loop comes to. -/
theorem BlockAt.loop (h : BlockAt lzo src pos sizes)
    (hr : lzopDecompress lzo src cap dst = .ok r) :
    ∃ fuel dst, lzopLoop lzo src cap fuel pos sizes.sum dst = .ok r := by
  induction h with
  | first hmagic =>
    rcases parseHeader_spec src with ⟨hparse, -⟩ | ⟨-, hnot, -⟩ | ⟨hparse, -⟩
    · rw [lzopDecompress, hparse, ok_bind] at hr
      exact ⟨_, _, hr⟩
    · exact absurd hmagic hnot
    · obtain ⟨o, ho, -⟩ := bind_eq_ok.mp hr
      exact absurd ho (hparse o)
  | @next pos sizes q h hpos hdata hq hok hlen ih =>
    obtain ⟨fuel, dst, hloop⟩ := ih
    cases fuel with
    | zero => cases hloop
    | succ fuel =>
      rw [lzopLoop_eq_ok hpos] at hloop
      have hne : be32At src pos ≠ 0 := by
        obtain ⟨hslen, hle⟩ := hdata
        omega
      obtain ⟨-, ⟨hzero, -⟩ | ⟨-, -, ⟨hbad, -⟩ | ⟨-, q', hq', -, hend⟩⟩⟩ := hloop
      · exact absurd hzero hne
      · exact absurd hdata hbad
      rw [hq] at hq'
      obtain rfl := Option.some.inj hq'
      rcases hend with ⟨hret, -⟩ | ⟨-, hlen', -⟩ | ⟨-, -, hloop⟩
      · exact absurd hok hret
      · exact absurd hlen hlen'
      · rw [List.sum_append, List.sum_singleton]
        exact ⟨fuel, _, hloop⟩

theorem error_ne_ok : lzoEError ≠ lzoEOk := by decide

theorem overrun_ne_ok : lzoEInputOverrun ≠ lzoEOk := by decide

/-- What is left in `*dst_len` on success. -/
def SumOfSizes (lzo : Lzo1x) (src : Bytes) (r : LzopEnd) : Prop :=
  r.ret = lzoEOk → ∃ pos sizes, BlockAt lzo src pos sizes ∧ pos + 4 ≤ src.length ∧
    be32At src pos = 0 ∧ r.dstLen = sizes.sum

/-- From a block of a chain that lies inside, the loop comes to an end. -/
theorem lzopLoop_spec (hinside : BlocksInside lzo src cap) (h : BlockAt lzo src pos sizes)
    (hfuel : src.length - pos < fuel) :
    ∃ r, lzopLoop lzo src cap fuel pos sizes.sum dst = .ok r ∧ SumOfSizes lzo src r := by
  induction fuel generalizing pos sizes dst with
  | zero => exact absurd hfuel (Nat.not_lt_zero _)
  | succ fuel ih =>
    by_cases hpos : pos < src.length
    swap
    · refine ⟨⟨lzoEInputOverrun, cap, dst⟩, ?_, fun hret => absurd hret overrun_ne_ok⟩
      rw [lzopLoop, if_neg hpos]
    obtain ⟨hle, hle'⟩ := hinside.sizes pos sizes h hpos
    by_cases hzero : be32At src pos = 0
    · exact ⟨_, (lzopLoop_eq_ok hpos).mpr ⟨hle, .inl ⟨hzero, rfl⟩⟩,
        fun _ => ⟨pos, sizes, h, hle, hzero, rfl⟩⟩
    by_cases hdata : HasData src pos
    swap
    · exact ⟨_, (lzopLoop_eq_ok hpos).mpr ⟨hle, .inr ⟨hzero, hle' hzero, .inl ⟨hdata, rfl⟩⟩⟩,
        fun hret => absurd hret error_ne_ok⟩
    obtain ⟨q, hq, hcap⟩ := hinside.data pos sizes h hpos hdata
    by_cases hret : q.ret = lzoEOk
    swap
    · exact ⟨_, (lzopLoop_eq_ok hpos).mpr
        ⟨hle, .inr ⟨hzero, hle' hzero, .inr ⟨hdata, q, hq, hcap, .inl ⟨hret, rfl⟩⟩⟩⟩,
        fun h => absurd h hret⟩
    by_cases hlen : q.out.length = be32At src pos
    swap
    · exact ⟨_, (lzopLoop_eq_ok hpos).mpr
        ⟨hle, .inr ⟨hzero, hle' hzero, .inr ⟨hdata, q, hq, hcap, .inr (.inl ⟨hret, hlen, rfl⟩)⟩⟩⟩,
        fun hret => absurd hret error_ne_ok⟩
    obtain ⟨r, hr, hsum⟩ := @ih _ _ (storeAt dst sizes.sum q.out)
      (h.next hpos hdata hq hret hlen) (by omega)
    rw [List.sum_append, List.sum_singleton] at hr
    exact ⟨r, (lzopLoop_eq_ok hpos).mpr
      ⟨hle, .inr ⟨hzero, hle' hzero, .inr ⟨hdata, q, hq, hcap, .inr (.inr ⟨hret, hlen, hr⟩)⟩⟩⟩, hsum⟩

variable (lzo src cap dst) in
/-- The code returns, with no access outside the two areas, and on success with the sum of the
sizes. -/
def LzopRight : Prop :=
  ∃ r, lzopDecompress lzo src cap dst = .ok r ∧ SumOfSizes lzo src r

theorem lzopDecompress_spec (hinside : BlocksInside lzo src cap) : LzopRight lzo src cap dst := by
  unfold LzopRight lzopDecompress
  rcases parseHeader_spec src with ⟨hparse, hmagic, -⟩ | ⟨hparse, -⟩ | ⟨-, hout⟩
  · rw [hparse]
    exact lzopLoop_spec hinside (.first hmagic) (by omega)
  · rw [hparse]
    exact ⟨_, rfl, fun hret => absurd hret error_ne_ok⟩
  · exact absurd hinside.header hout

/-- A return shows that the chain lies inside. -/
theorem blocksInside_of_ok (hr : lzopDecompress lzo src cap dst = .ok r) :
    BlocksInside lzo src cap := by
  refine ⟨?_, ?_, ?_⟩
  · rcases parseHeader_spec src with ⟨-, -, hin⟩ | ⟨-, -, hin⟩ | ⟨hparse, -⟩
    · exact hin
    · exact hin
    · obtain ⟨o, ho, -⟩ := bind_eq_ok.mp hr
      exact absurd ho (hparse o)
  · intro pos sizes h hpos
    obtain ⟨fuel, dst, hloop⟩ := h.loop hr
    cases fuel with
    | zero => cases hloop
    | succ fuel =>
      obtain ⟨hle, ⟨hzero, -⟩ | ⟨-, hle', -⟩⟩ := (lzopLoop_eq_ok hpos).mp hloop
      · exact ⟨hle, fun hne => absurd hzero hne⟩
      · exact ⟨hle, fun _ => hle'⟩
  · intro pos sizes h hpos hdata
    obtain ⟨fuel, dst, hloop⟩ := h.loop hr
    have hne : be32At src pos ≠ 0 := by
      obtain ⟨hslen, hle⟩ := hdata
      omega
    cases fuel with
    | zero => cases hloop
    | succ fuel =>
      obtain ⟨-, ⟨hzero, -⟩ | ⟨-, -, ⟨hbad, -⟩ | ⟨-, q, hq, hcap, -⟩⟩⟩ :=
        (lzopLoop_eq_ok hpos).mp hloop
      · exact absurd hzero hne
      · exact absurd hdata hbad
      · exact ⟨q, hq, hcap⟩

end Blocks

/-- **Exactly when the decompression is right**: the header and every block of the chain lie inside
the source, and what the blocks write lies inside the destination. -/
theorem lzop_right_iff (lzo : Lzo1x) (src : Bytes) (cap : Nat) (dst : Contents) :
    LzopRight lzo src cap dst ↔ BlocksInside lzo src cap := by
  constructor
  · rintro ⟨r, hr, -⟩
    exact blocksInside_of_ok hr
  · exact lzopDecompress_spec

/-- Four literals and a match of eight bytes at distance 1, and the end mark. -/
def repeatedBlock : Bytes := [0x15, 0x61, 0x61, 0x61, 0x61, 0xE0, 0x00, 0x11, 0x00, 0x00]

/-- The decompressor as far as that block. -/
def repeatedLzo1x : Lzo1x where
  decompressSafe := fun inp _ outLen =>
    if inp = repeatedBlock ∧ 12 ≤ outLen then some ⟨lzoEOk, List.replicate 12 0x61⟩
    else some ⟨lzoEError, []⟩
  reads := by
    intro inp inLen outLen _
    split <;> exact Option.some_ne_none _
  writes := by
    intro inp inLen outLen r h
    split at h
    · next hle =>
      cases h
      exact hle.2
    · cases h
      exact Nat.zero_le _

/-- An image of that block alone. -/
def repeatedImage : Bytes :=
  lzopMagic ++ [0x09, 0x00, 0, 0, 0, 0, 1] ++ List.replicate 12 0 ++ [0] ++ [0, 0, 0, 0] ++
    [0, 0, 0, 12] ++ [0, 0, 0, 10] ++ [0, 0, 0, 0] ++ repeatedBlock ++ [0, 0, 0, 0]

/-- Twelve bytes are written to a destination of eight. -/
theorem not_lzop_right : ¬ LzopRight repeatedLzo1x repeatedImage 8 (fun _ => 0) := by
  rintro ⟨r, hr, -⟩
  have hmagic : lzopMagic <+: repeatedImage := by decide
  have hfirst : firstBlock repeatedImage = 33 := by decide
  obtain ⟨q, hq, hcap⟩ := (blocksInside_of_ok hr).data _ _ (.first hmagic)
    (by rw [hfirst]; decide) (by rw [hfirst]; exact ⟨by decide, by decide⟩)
  have hresult : blockResult repeatedLzo1x repeatedImage (firstBlock repeatedImage) =
      some ⟨lzoEOk, List.replicate 12 0x61⟩ := by
    rw [hfirst]
    have hinp : (repeatedImage.drop 45).take 10 = repeatedBlock := by decide
    have hsizes : be32At repeatedImage 37 = 10 ∧ be32At repeatedImage 33 = 12 := by decide
    rw [blockResult, hsizes.1, hsizes.2, hinp]
    have htaken : repeatedBlock = repeatedBlock ∧ 12 ≤ 12 := ⟨rfl, Nat.le_refl 12⟩
    rw [repeatedLzo1x]
    dsimp only
    rw [if_pos htaken]
  rw [hresult] at hq
  cases hq
  exact absurd hcap (by decide)

end UBoot.LibGeneric.Lzo
