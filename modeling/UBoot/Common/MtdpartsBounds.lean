import UBoot.Common.MtdpartsGenerate

/-!
# How much of the buffer the text takes

`generate_mtdparts` puts the text together from pieces, each of which is charged against `maxlen`
before it is written.  The nine characters "mtdparts=" in front of them are not charged.

* `generateMtdparts_inside_iff`: the buffer is large enough for what is written unless the pieces,
  cut where one of them ends, come within nine characters of its end.
-/

namespace UBoot.Common.Mtdparts

open UBoot.Lib
open UBoot.LibGeneric

/-- The bytes from `buf` on that `generate_mtdparts` writes: the text and its NUL, or at least what
`sprintf` has put there. -/
def bytesWritten : Except Bytes Bytes → Nat
  | .ok text => text.length + 1
  | .error text => max text.length 10

/-! ## The pieces -/

/-- A piece that is there under a condition. -/
def pieceIf (c : Bool) (s : Bytes) : List Bytes := if c then [s] else []

/-- The pieces of a partition. -/
def partPieces (prev : Option Part) (part : Part) (more : Bool) : List Bytes :=
  memsizeFormat part.size ::
    (pieceIf (gap prev part) (str "@" ++ memsizeFormat part.offset) ++
      (pieceIf (!part.autoName) (str "(" ++ part.name ++ str ")") ++
        (pieceIf (part.maskFlags ≠ 0) (str "ro") ++ pieceIf more (str ","))))

/-- The pieces of the partitions of a device. -/
def partsPieces (numParts : UInt16) : Nat → Option Part → List Part → List Bytes
  | _, _, [] => []
  | partCnt, prev, part :: rest =>
    partPieces prev part (partCnt + 1 < numParts.toNat) ++
      partsPieces numParts (partCnt + 1) (some part) rest

/-- The pieces of the text. -/
def pieces : List Device → List Bytes
  | [] => []
  | dev :: rest =>
    (dev.id.mtdId ++ str ":") ::
      (partsPieces dev.numParts 0 none dev.parts ++
        (pieceIf (rest ≠ []) (str ";") ++ pieces rest))

/-- Pieces, one after the other, as far as there is room. -/
def putPieces : List Bytes → Out → Except Bytes Out
  | [], o => .ok o
  | s :: rest, o => do
    let o ← o.put s
    putPieces rest o

@[simp] theorem putPieces_nil (o : Out) : putPieces [] o = .ok o := rfl

theorem putPieces_cons (s : Bytes) (rest : List Bytes) (o : Out) :
    putPieces (s :: rest) o = o.put s >>= putPieces rest := rfl

theorem putPieces_append (ps qs : List Bytes) (o : Out) :
    putPieces (ps ++ qs) o = putPieces ps o >>= putPieces qs := by
  induction ps generalizing o with
  | nil => rfl
  | cons s ps ih =>
    rw [List.cons_append, putPieces_cons, putPieces_cons]
    cases o.put s with
    | error e => rfl
    | ok o' => exact ih o'

section Machine

variable {s : Bytes} {ps qs : List Bytes} {f k : Out → Except Bytes Out}

theorem putPieces_cons_of (hk : ∀ o, putPieces qs o = k o) (o : Out) :
    putPieces (s :: qs) o = o.put s >>= k := by
  rw [putPieces_cons, funext hk]

theorem putPieces_append_of (hf : ∀ o, putPieces ps o = f o) (hk : ∀ o, putPieces qs o = k o)
    (o : Out) : putPieces (ps ++ qs) o = f o >>= k := by
  rw [putPieces_append, hf, funext hk]

end Machine

theorem putPieces_pieceIf (c : Bool) (s : Bytes) (o : Out) :
    putPieces (pieceIf c s) o = o.putIf c s := by
  cases c with
  | false => rfl
  | true =>
    show o.put s >>= putPieces [] = o.put s
    cases o.put s <;> rfl

theorem putPieces_partPieces (prev : Option Part) (part : Part) (more : Bool) (o : Out) :
    putPieces (partPieces prev part more) o = putPart o prev part more := by
  refine putPieces_cons_of (fun o => ?_) o
  refine putPieces_append_of (putPieces_pieceIf _ _) (fun o => ?_) o
  refine putPieces_append_of (putPieces_pieceIf _ _) (fun o => ?_) o
  exact putPieces_append_of (putPieces_pieceIf _ _) (putPieces_pieceIf _ _) o

theorem putPieces_partsPieces (numParts : UInt16) (parts : List Part) (partCnt : Nat)
    (prev : Option Part) (o : Out) :
    putPieces (partsPieces numParts partCnt prev parts) o =
      putParts numParts partCnt prev parts o := by
  induction parts generalizing partCnt prev o with
  | nil => rfl
  | cons part rest ih =>
    exact putPieces_append_of (putPieces_partPieces prev part _) (ih (partCnt + 1) (some part)) o

theorem putPieces_pieces (devices : List Device) (o : Out) :
    putPieces (pieces devices) o = putDevices devices o := by
  induction devices generalizing o with
  | nil => rfl
  | cons dev rest ih =>
    refine putPieces_cons_of (fun o => ?_) o
    refine putPieces_append_of (putPieces_partsPieces dev.numParts dev.parts 0 none) (fun o => ?_) o
    exact putPieces_append_of (putPieces_pieceIf _ _) ih o

/-! ## What is written of them -/

theorem putPieces_ok {ps : List Bytes} {o o' : Out} (h : putPieces ps o = .ok o') :
    o'.text = o.text ++ ps.flatten ∧ ps.flatten.length ≤ o.maxlen := by
  induction ps generalizing o with
  | nil =>
    cases h
    exact ⟨(List.append_nil _).symm, Nat.zero_le _⟩
  | cons s ps ih =>
    obtain ⟨o₁, h₁, h⟩ := bind_eq_ok.mp h
    obtain ⟨htext, hlen⟩ := ih h
    rw [Out.put] at h₁
    split at h₁
    · cases h₁
    · rename_i hroom
      cases h₁
      rw [htext, List.flatten_cons, List.length_append, ← List.append_assoc]
      have hlen : ps.flatten.length ≤ o.maxlen - s.length := hlen
      exact ⟨rfl, by omega⟩

/-- Where there is not room for all of them, the ones in front of some piece are written. -/
theorem putPieces_error {ps : List Bytes} {o : Out} {text : Bytes}
    (h : putPieces ps o = .error text) :
    ∃ pre piece rest, ps = pre ++ piece :: rest ∧ text = o.text ++ pre.flatten ∧
      pre.flatten.length ≤ o.maxlen ∧ o.maxlen < pre.flatten.length + piece.length := by
  induction ps generalizing o with
  | nil => cases h
  | cons s ps ih =>
    rw [putPieces_cons] at h
    by_cases hroom : o.maxlen < s.length
    · rw [Out.put, if_pos hroom] at h
      cases h
      exact ⟨[], s, ps, rfl, (List.append_nil _).symm, Nat.zero_le _, by
        rw [List.flatten_nil, List.length_nil, Nat.zero_add]
        exact hroom⟩
    · rw [Out.put, if_neg hroom] at h
      obtain ⟨pre, piece, rest, hps, htext, hlen, hfull⟩ := ih h
      have hlen : pre.flatten.length ≤ o.maxlen - s.length := hlen
      have hfull : o.maxlen - s.length < pre.flatten.length + piece.length := hfull
      refine ⟨s :: pre, piece, rest, by rw [hps, List.cons_append], ?_, ?_, ?_⟩
      · rw [htext, List.flatten_cons, List.append_assoc]
      · rw [List.flatten_cons, List.length_append]
        omega
      · rw [List.flatten_cons, List.length_append]
        omega

theorem flatten_length_le {pre ps : List Bytes} (h : pre <+: ps) :
    pre.flatten.length ≤ ps.flatten.length := by
  obtain ⟨more, rfl⟩ := h
  rw [List.flatten_append, List.length_append]
  exact Nat.le_add_right _ _

/-- No other pieces fit when those in front of `piece` do and `piece` does not. -/
theorem prefix_of_full {pre rest sub : List Bytes} {piece : Bytes} {maxlen : Nat}
    (hsub : sub <+: pre ++ piece :: rest) (hfull : maxlen < pre.flatten.length + piece.length)
    (hfits : sub.flatten.length ≤ maxlen) : sub <+: pre := by
  rcases Nat.le_total sub.length pre.length with hle | hle
  · exact List.prefix_of_prefix_length_le hsub (List.prefix_append _ _) hle
  · obtain ⟨more, rfl⟩ := List.prefix_of_prefix_length_le (List.prefix_append _ _) hsub hle
    cases more with
    | nil => exact ⟨[], by rw [List.append_nil, List.append_nil]⟩
    | cons s more =>
      -- the pieces behind `pre` begin with the one that is too long
      obtain ⟨tail, htail⟩ := hsub
      rw [List.append_assoc, List.append_cancel_left_eq, List.cons_append, List.cons.injEq] at htail
      rw [List.flatten_append, List.flatten_cons, List.length_append, List.length_append,
        htail.1] at hfits
      omega

theorem generateMtdparts_bytes {devices : List Device} {buflen : Nat} (hne : devices ≠ []) :
    (putPieces (pieces devices) ⟨str "mtdparts=", buflen - 1⟩).map Out.text =
      generateMtdparts devices buflen := by
  rw [generateMtdparts, if_neg hne, putPieces_pieces]

/-- **The buffer is large enough for what is written unless pieces that are not longer than it, with
the nine characters in front of them and the NUL behind the last of them, are longer.** -/
theorem generateMtdparts_inside_iff (devices : List Device) {buflen : Nat} (hbuf : 10 ≤ buflen) :
    bytesWritten (generateMtdparts devices buflen) ≤ buflen ↔
      ∀ pre, pre <+: pieces devices → pre.flatten.length < buflen →
        9 + pre.flatten.length + (if pre = pieces devices then 1 else 0) ≤ buflen := by
  by_cases hne : devices = []
  · subst hne
    refine ⟨?_, fun _ => ?_⟩
    · intro _ pre hpre _
      obtain rfl := List.prefix_nil.mp hpre
      exact hbuf
    · rw [generateMtdparts, if_pos rfl]
      exact Nat.le_trans (by decide) hbuf
  have hmtdparts : (str "mtdparts=").length = 9 := by decide
  rw [← generateMtdparts_bytes hne]
  cases hput : putPieces (pieces devices) ⟨str "mtdparts=", buflen - 1⟩ with
  | ok o =>
    obtain ⟨htext, hlen⟩ := putPieces_ok hput
    have hlen : (pieces devices).flatten.length ≤ buflen - 1 := hlen
    have hbytes : bytesWritten ((Except.ok o : Except Bytes Out).map Out.text) =
        9 + (pieces devices).flatten.length + 1 := by
      show o.text.length + 1 = _
      rw [htext, List.length_append, hmtdparts]
    rw [hbytes]
    constructor
    · intro hin pre hpre _
      have hle := flatten_length_le hpre
      split <;> omega
    · intro hall
      have hwhole := hall (pieces devices) (List.prefix_refl _) (by omega)
      rw [if_pos rfl] at hwhole
      exact hwhole
  | error text =>
    obtain ⟨pre, piece, rest, hps, htext, hlen, hfull⟩ := putPieces_error hput
    have hlen : pre.flatten.length ≤ buflen - 1 := hlen
    have hfull : buflen - 1 < pre.flatten.length + piece.length := hfull
    have hbytes : bytesWritten ((Except.error text : Except Bytes Out).map Out.text) =
        max (9 + pre.flatten.length) 10 := by
      show max text.length 10 = _
      rw [htext, List.length_append, hmtdparts]
    have hne : ∀ sub, sub <+: pre → sub ≠ pieces devices := by
      rintro sub ⟨more, rfl⟩ heq
      rw [hps] at heq
      have hcount := congrArg List.length heq
      simp only [List.length_append, List.length_cons] at hcount
      omega
    rw [hbytes]
    constructor
    · intro hin sub hsub hfits
      have hsub' := prefix_of_full (hps ▸ hsub) hfull (by omega)
      have hle := flatten_length_le hsub'
      rw [if_neg (hne sub hsub')]
      omega
    · intro hall
      have hpre := hall pre (hps ▸ List.prefix_append _ _) (by omega)
      rw [if_neg (hne pre (List.prefix_refl _))] at hpre
      omega

/-- A device without partitions, and a name of one character. -/
def shortDevice : Device :=
  { addr := 1, id := { type := .nor, num := 0, size := 0, mtdId := str "a" }, numParts := 0,
    parts := [] }

/-- `a:8k(x),16k@48k(y)ro;nand-flash-0:64k` -/
def twoDevices : List Device :=
  [{ shortDevice with
      numParts := 2
      parts :=
        [{ addr := 3, name := str "x", autoName := false, size := 0x2000, offset := 0,
           maskFlags := 0, sectorSize := 0x1000 },
         { addr := 4, name := str "y", autoName := false, size := 0x4000, offset := 0xC000,
           maskFlags := 1, sectorSize := 0x1000 }] },
   { addr := 2, id := { type := .nand, num := 0, size := 0x10000, mtdId := str "nand-flash-0" },
     numParts := 1
     parts :=
      [{ addr := 5, name := str "64k@0", autoName := true, size := 0x10000, offset := 0,
         maskFlags := 0, sectorSize := 0x1000 }] }]

/-- All of the text, and what there is room for in front of the name of the second device. -/
theorem generateMtdparts_inside_twoDevices :
    generateMtdparts twoDevices 64 =
      .ok (str "mtdparts=a:8k(x),16k@48k(y)ro;nand-flash-0:64k") ∧
    generateMtdparts twoDevices 32 = .error (str "mtdparts=a:8k(x),16k@48k(y)ro;") ∧
    bytesWritten (generateMtdparts twoDevices 64) ≤ 64 ∧
      bytesWritten (generateMtdparts twoDevices 32) ≤ 32 := by
  have hpieces : ∀ pre ∈ (pieces twoDevices).inits, pre.flatten.length < 32 →
      9 + pre.flatten.length + (if pre = pieces twoDevices then 1 else 0) ≤ 32 := by
    decide
  refine ⟨by decide, by decide, ?_, ?_⟩
  · refine (generateMtdparts_inside_iff twoDevices (by decide)).mpr fun pre hpre hlen => ?_
    have hall : (pieces twoDevices).flatten.length = 37 := by decide
    have hle := flatten_length_le hpre
    split <;> omega
  · exact (generateMtdparts_inside_iff twoDevices (by decide)).mpr fun pre hpre =>
      hpieces pre ((List.mem_inits pre _).mpr hpre)

/-- Twelve bytes in a buffer of ten. -/
theorem generateMtdparts_outside :
    generateMtdparts [shortDevice] 10 = .ok (str "mtdparts=a:") ∧
      ¬ bytesWritten (generateMtdparts [shortDevice] 10) ≤ 10 := by
  decide

end UBoot.Common.Mtdparts
