import UBoot.Lib.Ranges
import UBoot.Net.DefragmentHoles

/-!
# Fragments of a datagram

A datagram is cut into fragments that begin at multiples of eight bytes.  When some of them
have come, the others are a list of runs of fragments with a gap between any two (`Missing`),
and each of the runs is a hole.  A fragment takes itself out of its run (`Missing.cut`).

Two fragments lead `__NetDefragment` astray, and `Welcome` says that a fragment is neither of
them: a last fragment of less than eight bytes whose predecessor is there, and a fragment
that begins the second hole while the first hole begins the payload.
-/

namespace UBoot.Net

open UBoot.Lib

/-- A payload in two or more fragments, each beginning at a multiple of eight bytes. -/
structure Datagram where
  payload : Bytes
  count : Nat
  start : Nat → Nat
  two_le : 2 ≤ count
  start_zero : start 0 = 0
  start_lt : ∀ k, k + 1 < count → start k < start (k + 1)
  last_lt : 8 * start (count - 1) < payload.length
  length_le : payload.length ≤ ipMaxUdp - 8

namespace Datagram

variable (dg : Datagram)

/-- Where the fragment ends. -/
def stop (k : Nat) : Nat := if k + 1 < dg.count then 8 * dg.start (k + 1) else dg.payload.length

def size (k : Nat) : Nat := dg.stop k - 8 * dg.start k

def data (k : Nat) : Bytes := (dg.payload.drop (8 * dg.start k)).take (dg.size k)

/-- Where a hole ends that reaches up to the fragment `j`. -/
def holeEnd (j : Nat) : Nat := if j < dg.count then 8 * dg.start j else 0xffff

/-- The holes of the runs of fragments in `H`. -/
def cells (H : List (Nat × Nat)) : List (Nat × Nat) :=
  H.map fun x => (dg.start x.1, dg.holeEnd x.2)

@[simp] theorem cells_nil : dg.cells [] = [] := rfl

@[simp] theorem cells_cons (x : Nat × Nat) (H : List (Nat × Nat)) :
    dg.cells (x :: H) = (dg.start x.1, dg.holeEnd x.2) :: dg.cells H := rfl

theorem holeEnd_of_lt {k : Nat} (h : k < dg.count) : dg.holeEnd k = dg.start k * 8 := by
  rw [holeEnd, if_pos h, Nat.mul_comm]

@[simp] theorem cells_append (A B : List (Nat × Nat)) :
    dg.cells (A ++ B) = dg.cells A ++ dg.cells B := List.map_append

variable {dg} {i j k : Nat}

theorem start_lt_start (hij : i < j) (hj : j < dg.count) : dg.start i < dg.start j := by
  induction j with
  | zero => exact absurd hij (Nat.not_lt_zero i)
  | succ j ih =>
    have hstep := dg.start_lt j hj
    rcases Nat.lt_succ_iff_lt_or_eq.mp hij with hlt | rfl
    · exact (ih hlt (by omega)).trans hstep
    · exact hstep

theorem start_le_start (hij : i ≤ j) (hj : j < dg.count) : dg.start i ≤ dg.start j := by
  rcases hij.lt_or_eq with hlt | rfl
  · exact (start_lt_start hlt hj).le
  · exact le_rfl

theorem stop_le_start (hij : i < j) (hj : j < dg.count) : dg.stop i ≤ 8 * dg.start j := by
  rw [stop, if_pos (by omega)]
  exact Nat.mul_le_mul_left 8 (start_le_start hij hj)

theorem start_lt_length (hk : k < dg.count) : 8 * dg.start k < dg.payload.length := by
  have hlast := dg.last_lt
  have hle : dg.start k ≤ dg.start (dg.count - 1) := start_le_start (by omega) (by omega)
  omega

theorem start_lt_stop (hk : k < dg.count) : 8 * dg.start k < dg.stop k := by
  rw [stop]
  split
  · rename_i hnext
    have := dg.start_lt k hnext
    omega
  · exact start_lt_length hk

theorem stop_le (k : Nat) : dg.stop k ≤ dg.payload.length := by
  rw [stop]
  split
  · rename_i hnext
    exact (start_lt_length hnext).le
  · exact le_rfl

theorem stop_eq (hk : k < dg.count) : 8 * dg.start k + dg.size k = dg.stop k := by
  have := start_lt_stop hk
  rw [size]
  omega

theorem length_data (hk : k < dg.count) : (dg.data k).length = dg.size k := by
  have := dg.stop_le k
  have hstop := stop_eq hk
  rw [data, List.length_take, List.length_drop]
  omega

/-- Every index of a hole lies in the buffer. -/
theorem inside (hk : k < dg.count) : holeAt (dg.start k) + 8 ≤ ipPktSize := by
  have hlt := start_lt_length hk
  have hle := dg.length_le
  unfold ipMaxUdp ipPktSize ipHdrSize at hle
  unfold holeAt ipPktSize ipHdrSize
  omega

/-- The fragment has no byte in the hole descriptor of another one. -/
theorem apart (hi : i < dg.count) (hk : k < dg.count) (hne : i ≠ k) :
    holeAt (dg.start i) + 8 ≤ ipHdrSize + 8 * dg.start k ∨
      ipHdrSize + dg.stop k ≤ holeAt (dg.start i) := by
  unfold holeAt
  rcases Nat.lt_or_gt_of_ne hne with hlt | hlt
  · have := start_lt_start hlt hk
    omega
  · have := stop_le_start hlt hi
    omega

end Datagram

/-! ## What is missing -/

/-- Runs of fragments, in order and with a gap between any two: what is missing when those
of `seen` have come. -/
structure Missing (dg : Datagram) (seen : List Nat) (H : List (Nat × Nat)) : Prop where
  gapped : Gapped Prod.fst Prod.snd H
  proper : ∀ x ∈ H, x.1 < x.2 ∧ x.2 ≤ dg.count
  mem_iff : ∀ k, (∃ x ∈ H, x.1 ≤ k ∧ k < x.2) ↔ k < dg.count ∧ k ∉ seen

section Missing

variable {dg : Datagram} {seen : List Nat} {H A B : List (Nat × Nat)} {i j k : Nat}

theorem Missing.sorted (h : Missing dg seen H) : (idxs (dg.cells H)).Pairwise (· < ·) := by
  rw [idxs, Datagram.cells, List.map_map, List.pairwise_map]
  refine h.gapped.imp_of_mem fun {x y} hx hy hxy => ?_
  have hx := (h.proper x hx).1
  have hy := h.proper y hy
  exact Datagram.start_lt_start (by omega) (by omega)

theorem Missing.start_notMem (h : Missing dg seen H) {x : Nat × Nat} (hx : x ∈ H) :
    x.1 < dg.count ∧ x.1 ∉ seen :=
  (h.mem_iff x.1).mp ⟨x, hx, le_rfl, (h.proper x hx).1⟩

theorem Missing.inside (h : Missing dg seen H) :
    ∀ j ∈ idxs (dg.cells H), holeAt j + 8 ≤ ipPktSize := by
  intro j hj
  obtain ⟨y, hy, rfl⟩ := List.mem_map.mp hj
  obtain ⟨x, hx, rfl⟩ := List.mem_map.mp hy
  exact Datagram.inside (h.start_notMem hx).1

/-- The run of a fragment that has not come. -/
theorem Missing.exists_run (h : Missing dg seen H) (hk : k < dg.count) (hnew : k ∉ seen) :
    ∃ A i j B, H = A ++ (i, j) :: B ∧ i ≤ k ∧ k < j := by
  obtain ⟨⟨i, j⟩, hx, hi, hj⟩ := (h.mem_iff k).mpr ⟨hk, hnew⟩
  obtain ⟨A, B, rfl⟩ := List.append_of_mem hx
  exact ⟨A, i, j, B, rfl, hi, hj⟩

/-- What comes instead of the run `(i, j)` when the fragment `k` has come. -/
def without (i j k : Nat) : List (Nat × Nat) :=
  (if i < k then [(i, k)] else []) ++ if k + 1 < j then [(k + 1, j)] else []

theorem mem_without {x : Nat × Nat} :
    x ∈ without i j k ↔ i < k ∧ x = (i, k) ∨ k + 1 < j ∧ x = (k + 1, j) := by
  unfold without
  split <;> split <;> simp [*]

theorem gapped_without (i j k : Nat) : Gapped Prod.fst Prod.snd (without i j k) := by
  unfold without
  split <;> split <;> simp [Gapped]

/-- The runs around `k` come from the one that `k` was in. -/
theorem Missing.cut (h : Missing dg seen (A ++ (i, j) :: B)) (hi : i ≤ k) (hj : k < j) :
    Missing dg (k :: seen) (A ++ without i j k ++ B) := by
  obtain ⟨hgap, hAi, hjB⟩ := gapped_middle_iff.mp h.gapped
  obtain ⟨hgA, hgB, hAB⟩ := List.pairwise_append.mp hgap
  have hproper := h.proper
  rw [List.forall_mem_append, List.forall_mem_cons] at hproper
  obtain ⟨hpA, ⟨hij, hjc⟩, hpB⟩ := hproper
  have hmem := h.mem_iff
  refine ⟨?_, ?_, fun m => ⟨?_, ?_⟩⟩
  · refine List.pairwise_append.mpr ⟨List.pairwise_append.mpr ⟨hgA, gapped_without i j k, ?_⟩,
      hgB, ?_⟩
    · intro a ha x hx
      have := hAi a ha
      rcases mem_without.mp hx with ⟨-, rfl⟩ | ⟨-, rfl⟩ <;> simp only at this ⊢ <;> omega
    · intro a ha b hb
      rcases List.mem_append.mp ha with ha | ha
      · exact hAB a ha b hb
      · have := hjB b hb
        rcases mem_without.mp ha with ⟨-, rfl⟩ | ⟨-, rfl⟩ <;> simp only at this ⊢ <;> omega
  · intro x hx
    rcases List.mem_append.mp hx with hx | hx
    · rcases List.mem_append.mp hx with hx | hx
      · exact hpA x hx
      · rcases mem_without.mp hx with ⟨hlt, rfl⟩ | ⟨hlt, rfl⟩ <;> simp only at hij hjc ⊢ <;> omega
    · exact hpB x hx
  · rintro ⟨x, hx, hlo, hhi⟩
    rw [List.mem_cons, not_or]
    rcases List.mem_append.mp hx with hx | hx
    · rcases List.mem_append.mp hx with hx | hx
      · obtain ⟨hm, hseen⟩ := (hmem m).mp ⟨x, by simp [hx], hlo, hhi⟩
        have := hAi x hx
        simp only at this
        exact ⟨hm, by omega, hseen⟩
      · have hin : (i, j).1 ≤ m ∧ m < (i, j).2 ∧ m ≠ k := by
          rcases mem_without.mp hx with ⟨-, rfl⟩ | ⟨-, rfl⟩ <;> simp only at hlo hhi ⊢ <;> omega
        obtain ⟨hm, hseen⟩ := (hmem m).mp ⟨(i, j), by simp, hin.1, hin.2.1⟩
        exact ⟨hm, hin.2.2, hseen⟩
    · obtain ⟨hm, hseen⟩ := (hmem m).mp ⟨x, by simp [hx], hlo, hhi⟩
      have := hjB x hx
      simp only at this
      exact ⟨hm, by omega, hseen⟩
  · rintro ⟨hm, hseen⟩
    rw [List.mem_cons, not_or] at hseen
    obtain ⟨x, hx, hlo, hhi⟩ := (hmem m).mpr ⟨hm, hseen.2⟩
    rcases List.mem_append.mp hx with hx | hx
    · exact ⟨x, by simp [hx], hlo, hhi⟩
    · rcases List.mem_cons.mp hx with rfl | hx
      · simp only at hlo hhi
        rcases Nat.lt_or_gt_of_ne hseen.1 with hlt | hlt
        · refine ⟨(i, k), ?_, hlo, hlt⟩
          have : (i, k) ∈ without i j k := mem_without.mpr (.inl ⟨by omega, rfl⟩)
          simp [this]
        · refine ⟨(k + 1, j), ?_, hlt, hhi⟩
          have : (k + 1, j) ∈ without i j k := mem_without.mpr (.inr ⟨by omega, rfl⟩)
          simp [this]
      · exact ⟨x, by simp [hx], hlo, hhi⟩

/-- The fragment does not lead the code astray: it has come before; or it is not a last one
of less than eight bytes whose predecessor is there, and it does not follow on a run that has
come while all fragments before this run are missing. -/
def Welcome (dg : Datagram) (seen : List Nat) (k : Nat) : Prop :=
  k ∈ seen ∨ (k + 1 = dg.count → dg.size k < 8 → k - 1 ∉ seen) ∧
    ∀ j, 0 < j → j < k → (∀ i < j, i ∉ seen) → ∃ i, j ≤ i ∧ i < k ∧ i ∉ seen

/-- A hole of index 0 is not the one before a hole that goes or moves. -/
theorem Missing.sighted (h : Missing dg seen (A ++ (k, j) :: B)) (hnew : k ∉ seen)
    (hw : Welcome dg seen k) : Sighted (dg.cells A) := by
  intro hne hzero
  obtain ⟨A₀, ⟨a, b⟩, rfl⟩ : ∃ A₀ x, A = A₀ ++ [x] := by
    have hA : A ≠ [] := fun hA => hne (by simp [hA])
    exact ⟨_, _, (List.dropLast_concat_getLast hA).symm⟩
  have hlast : lastIdx 0 (dg.cells (A₀ ++ [(a, b)])) = dg.start a := by
    rw [Datagram.cells_append, lastIdx_append]
    rfl
  have hab := h.proper (a, b) (by simp)
  have hac := h.start_notMem (x := (a, b)) (by simp)
  simp only at hab hac
  -- An index of 0 is that of the first fragment.
  obtain rfl : a = 0 := by
    by_contra ha
    have := Datagram.start_lt_start (Nat.pos_of_ne_zero ha) hac.1
    rw [hlast] at hzero
    omega
  obtain ⟨hgap, hAk, hjB⟩ := gapped_middle_iff.mp h.gapped
  have hbk : b < k := hAk (0, b) (by simp)
  have hbefore : ∀ m < b, m ∉ seen := fun m hm =>
    ((h.mem_iff m).mp ⟨(0, b), by simp, Nat.zero_le m, hm⟩).2
  obtain ⟨m, hbm, hmk, hm⟩ := (hw.resolve_left hnew).2 b hab.1 hbk hbefore
  have hkc := (h.start_notMem (x := (k, j)) (by simp)).1
  obtain ⟨x, hx, hlo, hhi⟩ := (h.mem_iff m).mpr ⟨by simp only at hkc; omega, hm⟩
  have hkj := (h.proper (k, j) (by simp)).1
  simp only at hkj
  simp only [List.mem_append, List.mem_cons, List.not_mem_nil, or_false] at hx
  rcases hx with (hx | rfl) | rfl | hx
  · have hA₀ := (List.pairwise_append.mp (List.pairwise_append.mp hgap).1).2.2 x hx (0, b) (by simp)
    simp only at hA₀
    omega
  · simp only at hhi
    omega
  · simp only at hlo
    omega
  · have := hjB x hx
    simp only at this
    omega

end Missing

end UBoot.Net
