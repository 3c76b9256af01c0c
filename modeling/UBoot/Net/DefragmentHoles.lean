import Mathlib.Data.List.Perm.Subperm
import UBoot.Lib.Links
import UBoot.Net.Defragment

/-!
# The hole list

What the edits of `__NetDefragment` do to the list of holes in the buffer.  `holes p` is the
array of nodes that the buffer holds, and the list is a segment of it.  An edit that finds
the list linked leaves it linked, and changes the buffer nowhere but at the nodes of the
new list and at the node it was given.

The code takes a link of 0 for the end of the list.  `Sighted A` says that it is not misled
by that: the hole before has an index other than 0.
-/

namespace UBoot.Net

open UBoot.Lib

variable {p p' : Contents} {i j pos : Nat} {h : Hole} {data : Bytes}

/-! ## Reading and writing holes -/

theorem storeAt_add {k : Nat} (hk : k < data.length) :
    storeAt p pos data (pos + k) = data.getD k 0 := by
  rw [storeAt, if_pos ⟨by omega, by omega⟩, Nat.add_sub_cancel_left]

theorem half_lt (p : Contents) (i : Nat) : half p i < 65536 := by
  have h := (p i).toNat_lt
  have h' := (p (i + 1)).toNat_lt
  rw [half]
  omega

/-- The fields are numbers of 16 bits. -/
structure Hole.Fits (h : Hole) : Prop where
  lastByte : h.lastByte < 65536
  nextHole : h.nextHole < 65536
  prevHole : h.prevHole < 65536
  unused : h.unused < 65536

theorem getHole_fits (p : Contents) (i : Nat) : (getHole p i).Fits :=
  ⟨half_lt _ _, half_lt _ _, half_lt _ _, half_lt _ _⟩

theorem half_bytes {n : Nat} (hn : n < 65536) :
    (UInt8.ofNat n).toNat + (UInt8.ofNat (n / 256)).toNat * 256 = n := by
  rw [UInt8.toNat_ofNat', UInt8.toNat_ofNat']
  omega

theorem getHole_putHole_self (hfits : h.Fits) : getHole (putHole p i h) i = h := by
  have hbyte {k : Nat} (hk : k < 8) : putHole p i h (holeAt i + k) =
      (halfBytes h.lastByte ++ halfBytes h.nextHole ++ halfBytes h.prevHole ++
        halfBytes h.unused).getD k 0 := storeAt_add hk
  have h0 := half_bytes hfits.lastByte
  have h1 := half_bytes hfits.nextHole
  have h2 := half_bytes hfits.prevHole
  have h3 := half_bytes hfits.unused
  have hzero : putHole p i h (holeAt i) = UInt8.ofNat h.lastByte := hbyte (k := 0) (by decide)
  simp only [getHole, half, Nat.add_assoc, hzero, hbyte (k := 1) (by decide),
    hbyte (k := 2) (by decide), hbyte (k := 2 + 1) (by decide), hbyte (k := 4) (by decide),
    hbyte (k := 4 + 1) (by decide), hbyte (k := 6) (by decide), hbyte (k := 6 + 1) (by decide)]
  simp only [halfBytes, List.cons_append, List.nil_append, List.getD_cons_succ,
    List.getD_cons_zero, Nat.reduceAdd]
  cases h
  simp_all

/-- A hole is not changed by what happens outside of it. -/
theorem getHole_congr (hsame : ∀ a, InRange (holeAt i) 8 a → p' a = p a) :
    getHole p' i = getHole p i := by
  have hbyte {k : Nat} (hk : k < 8) : p' (holeAt i + k) = p (holeAt i + k) :=
    hsame _ ⟨by omega, by omega⟩
  have hzero : p' (holeAt i) = p (holeAt i) := hbyte (k := 0) (by decide)
  simp only [getHole, half, Nat.add_assoc, hzero, hbyte (k := 1) (by decide),
    hbyte (k := 2) (by decide), hbyte (k := 2 + 1) (by decide), hbyte (k := 4) (by decide),
    hbyte (k := 4 + 1) (by decide), hbyte (k := 6) (by decide), hbyte (k := 6 + 1) (by decide)]

theorem putHole_of_not_inRange {a : Nat} (ha : ¬ InRange (holeAt i) 8 a) :
    putHole p i h a = p a := storeAt_of_not_inRange ha

theorem getHole_putHole_ne (hij : j ≠ i) : getHole (putHole p i h) j = getHole p j := by
  apply getHole_congr
  rintro a ⟨hlo, hhi⟩
  apply putHole_of_not_inRange
  rintro ⟨hlo', hhi'⟩
  unfold holeAt at *
  omega

/-- The nodes that the buffer holds. -/
def holes (p : Contents) : Nat → Node Nat := fun i =>
  ⟨(getHole p i).lastByte, (getHole p i).nextHole, (getHole p i).prevHole⟩

theorem holes_putHole (hfits : h.Fits) :
    holes (putHole p i h) = Function.update (holes p) i ⟨h.lastByte, h.nextHole, h.prevHole⟩ := by
  funext j
  by_cases hij : j = i
  · subst hij
    rw [Function.update_self, holes, getHole_putHole_self hfits]
  · rw [Function.update_of_ne hij, holes, getHole_putHole_ne hij, holes]

/-- The two buffers differ at the given nodes only. -/
def SameOutside (J : List Nat) (p p' : Contents) : Prop :=
  ∀ a, (∀ j ∈ J, ¬ InRange (holeAt j) 8 a) → p' a = p a

theorem SameOutside.refl (J : List Nat) (p : Contents) : SameOutside J p p := fun _ _ => rfl

theorem SameOutside.putHole {J : List Nat} (hsame : SameOutside J p p') (hj : j ∈ J) (h : Hole) :
    SameOutside J p (putHole p' j h) := by
  intro a ha
  rw [putHole_of_not_inRange (ha j hj), hsame a ha]

theorem SameOutside.mono {J K : List Nat} (hsame : SameOutside J p p') (hsub : J ⊆ K) :
    SameOutside K p p' := fun a ha => hsame a fun j hj => ha j (hsub hj)

/-! ## Edits of the list -/

/-- The holes with the indices and ends of `L` are the list, in order of their indices. -/
structure Linked (p : Contents) (L : List (Nat × Nat)) : Prop where
  seg : Seg (holes p) 0 L 0
  sorted : (idxs L).Pairwise (· < ·)
  inside : ∀ j ∈ idxs L, holeAt j + 8 ≤ ipPktSize

/-- The hole before, if there is one, has an index that does not stand for "none". -/
def Sighted (A : List (Nat × Nat)) : Prop := A ≠ [] → lastIdx 0 A ≠ 0

/-- What an edit has done, with `L` for the list of holes now. -/
structure Edited (d d' : Defrag) (L : List (Nat × Nat)) : Prop where
  seg : Seg (holes d'.pktBuff) 0 L 0
  first : L ≠ [] → d'.firstHole = headIdx L 0
  total : d'.totalLen = d.totalLen
  same : SameOutside (idxs L) d.pktBuff d'.pktBuff

def relinkFirstHole (p : Contents) (B : List (Nat × Nat)) (x : Nat) : Contents :=
  if B = [] then p else putHole p (headIdx B 0) { getHole p (headIdx B 0) with prevHole := x }

def relinkLastHole (p : Contents) (A : List (Nat × Nat)) (x : Nat) : Contents :=
  if A = [] then p else putHole p (lastIdx 0 A) { getHole p (lastIdx 0 A) with nextHole := x }

section Edits

variable {A B L : List (Nat × Nat)} {d : Defrag} {v x n : Nat}

theorem holes_relinkFirstHole (hx : x < 65536) :
    holes (relinkFirstHole p B x) = relinkFirst (holes p) B x := by
  unfold relinkFirstHole relinkFirst
  split
  · rfl
  · have hfits := getHole_fits p (headIdx B 0)
    exact holes_putHole ⟨hfits.lastByte, hfits.nextHole, hx, hfits.unused⟩

theorem holes_relinkLastHole (hx : x < 65536) :
    holes (relinkLastHole p A x) = relinkLast (holes p) A x := by
  unfold relinkLastHole relinkLast
  split
  · rfl
  · have hfits := getHole_fits p (lastIdx 0 A)
    exact holes_putHole ⟨hfits.lastByte, hx, hfits.prevHole, hfits.unused⟩

theorem SameOutside.relinkFirstHole {J : List Nat} (hsame : SameOutside J p p')
    (hsub : idxs B ⊆ J) (x : Nat) : SameOutside J p (relinkFirstHole p' B x) := by
  unfold Net.relinkFirstHole
  split
  · exact hsame
  · rename_i hB
    exact hsame.putHole (hsub (headIdx_mem hB)) _

theorem SameOutside.relinkLastHole {J : List Nat} (hsame : SameOutside J p p')
    (hsub : idxs A ⊆ J) (x : Nat) : SameOutside J p (relinkLastHole p' A x) := by
  unfold Net.relinkLastHole
  split
  · exact hsame
  · rename_i hA
    exact hsame.putHole (hsub (lastIdx_mem 0 hA)) _

theorem loadHole_eq (hin : holeAt i + 8 ≤ ipPktSize) : loadHole p i = .ok (getHole p i) :=
  if_pos hin

theorem storeHole_eq (hin : holeAt i + 8 ≤ ipPktSize) : storeHole p i h = .ok (putHole p i h) :=
  if_pos hin

theorem modifyHole_eq (hin : holeAt i + 8 ≤ ipPktSize) (f : Hole → Hole) :
    modifyHole p i f = .ok (putHole p i (f (getHole p i))) := by
  rw [modifyHole, loadHole_eq hin, ok_bind, storeHole_eq hin]

theorem modify_first (hB : B ≠ []) (hin : ∀ j ∈ idxs B, holeAt j + 8 ≤ ipPktSize) (x : Nat) :
    modifyHole p (headIdx B 0) (fun h => { h with prevHole := x }) =
      .ok (relinkFirstHole p B x) := by
  rw [modifyHole_eq (hin _ (headIdx_mem hB)), relinkFirstHole, if_neg hB]

theorem modify_last (hA : A ≠ []) (hin : ∀ j ∈ idxs A, holeAt j + 8 ≤ ipPktSize) (x : Nat) :
    modifyHole p (lastIdx 0 A) (fun h => { h with nextHole := x }) =
      .ok (relinkLastHole p A x) := by
  rw [modifyHole_eq (hin _ (lastIdx_mem 0 hA)), relinkLastHole, if_neg hA]

theorem index_lt (hin : holeAt i + 8 ≤ ipPktSize) : i < 65536 := by
  unfold holeAt ipPktSize at hin
  omega

namespace Linked

variable (hl : Linked p (A ++ (i, v) :: B))

theorem nodup (hl : Linked p L) : (idxs L).Nodup := hl.sorted.imp Nat.ne_of_lt

include hl in
theorem getHole_eq : (getHole p i).lastByte = v ∧ (getHole p i).nextHole = headIdx B 0 ∧
    (getHole p i).prevHole = lastIdx 0 A := by
  have hnode := (seg_append.mp hl.seg).2.1
  exact ⟨congrArg Node.val hnode, congrArg Node.next hnode, congrArg Node.prev hnode⟩

include hl in
theorem inside_parts : (∀ j ∈ idxs A, holeAt j + 8 ≤ ipPktSize) ∧ holeAt i + 8 ≤ ipPktSize ∧
    ∀ j ∈ idxs B, holeAt j + 8 ≤ ipPktSize := by
  have hin := hl.inside
  rw [idxs_append, idxs_cons, List.forall_mem_append, List.forall_mem_cons] at hin
  exact ⟨hin.1, hin.2.1, hin.2.2⟩

include hl in
/-- A link to the next hole is not 0. -/
theorem next_ne (hB : B ≠ []) : headIdx B 0 ≠ 0 := by
  have hsorted := hl.sorted
  rw [idxs_append, idxs_cons, List.pairwise_append, List.pairwise_cons] at hsorted
  have hlt : i < headIdx B 0 := hsorted.2.1.1 (headIdx B 0) (headIdx_mem hB)
  omega

include hl in
theorem linkBack_eq (p' : Contents) (n : Nat) :
    linkBack p' (headIdx B 0) n = .ok (relinkFirstHole p' B n) := by
  by_cases hB : B = []
  · subst hB
    rfl
  · rw [linkBack, if_pos (hl.next_ne hB), modify_first hB hl.inside_parts.2.2]

end Linked

theorem removeHole_eq (hl : Linked d.pktBuff (A ++ (i, v) :: B)) (hsight : Sighted A) :
    removeHole d i = .ok ({ d with
      pktBuff := relinkLastHole (relinkFirstHole d.pktBuff B (lastIdx 0 A)) A (headIdx B 0)
      firstHole := if A = [] then headIdx B d.firstHole else d.firstHole },
      decide (A ++ B = [])) := by
  obtain ⟨-, hnext, hprev⟩ := hl.getHole_eq
  obtain ⟨hinA, hin, hinB⟩ := hl.inside_parts
  rw [removeHole, loadHole_eq hin, ok_bind, hnext, hprev]
  by_cases hA : A = []
  · subst hA
    by_cases hB : B = []
    · subst hB
      rfl
    · have hne := hl.next_ne hB
      rw [if_neg (fun h => hne h.2), if_pos rfl, modify_first hB hinB, ok_bind]
      cases B with
      | nil => exact absurd rfl hB
      | cons y B => rfl
  · have hlast := hsight hA
    rw [if_neg (fun h => hlast h.1), if_neg hlast, if_neg hA]
    by_cases hB : B = []
    · subst hB
      have hend : headIdx ([] : List (Nat × Nat)) 0 = 0 := rfl
      rw [if_pos hend, modify_last hA hinA, ok_bind, decide_eq_false (by simpa using hA)]
      rfl
    · rw [if_neg (hl.next_ne hB), modify_first hB hinB, ok_bind, modify_last hA hinA, ok_bind,
        decide_eq_false (by simp [hA])]
      rfl

theorem lastIdx_lt (hin : ∀ j ∈ idxs A, holeAt j + 8 ≤ ipPktSize) : lastIdx 0 A < 65536 := by
  by_cases hA : A = []
  · subst hA
    decide
  · exact index_lt (hin _ (lastIdx_mem 0 hA))

theorem headIdx_lt (hin : ∀ j ∈ idxs B, holeAt j + 8 ≤ ipPktSize) : headIdx B 0 < 65536 := by
  by_cases hB : B = []
  · subst hB
    decide
  · exact index_lt (hin _ (headIdx_mem hB))

theorem removeHole_edited (hl : Linked d.pktBuff (A ++ (i, v) :: B)) (hsight : Sighted A)
    (hfirst : A ≠ [] → d.firstHole = headIdx (A ++ (i, v) :: B) 0) :
    ∃ d', removeHole d i = .ok (d', decide (A ++ B = [])) ∧ Edited d d' (A ++ B) := by
  obtain ⟨hinA, -, hinB⟩ := hl.inside_parts
  refine ⟨_, removeHole_eq hl hsight, ?_, ?_, rfl, ?_⟩
  · rw [holes_relinkLastHole (headIdx_lt hinB), holes_relinkFirstHole (lastIdx_lt hinA)]
    exact hl.seg.remove hl.nodup
  · intro hne
    cases A with
    | nil =>
      cases B with
      | nil => exact absurd rfl hne
      | cons y B => rfl
    | cons y A => exact hfirst (List.cons_ne_nil y A)
  · have hA : idxs A ⊆ idxs (A ++ B) := fun j hj => by simp [hj]
    have hB : idxs B ⊆ idxs (A ++ B) := fun j hj => by simp [hj]
    exact ((SameOutside.refl _ _).relinkFirstHole hB _).relinkLastHole hA _

theorem holes_modify (hin : holeAt i + 8 ≤ ipPktSize) (hx : x < 65536) :
    ∃ p', modifyHole p i (fun h => { h with lastByte := x }) = .ok p' ∧
      holes p' = Function.update (holes p) i { holes p i with val := x } ∧
      SameOutside [i] p p' := by
  have hfits := getHole_fits p i
  refine ⟨_, modifyHole_eq hin _, holes_putHole ⟨hx, hfits.nextHole, hfits.prevHole,
    hfits.unused⟩, ?_⟩
  exact (SameOutside.refl _ _).putHole (List.mem_singleton_self _) _

/-- A new end for the hole. -/
theorem modify_edited (hl : Linked d.pktBuff (A ++ (i, v) :: B))
    (hfirst : d.firstHole = headIdx (A ++ (i, v) :: B) 0) (hx : x < 65536) :
    ∃ p', modifyHole d.pktBuff i (fun h => { h with lastByte := x }) = .ok p' ∧
      Edited d { d with pktBuff := p' } (A ++ (i, x) :: B) ∧ SameOutside [i] d.pktBuff p' := by
  obtain ⟨p', hmodify, hholes, hsame⟩ :=
    holes_modify (p := d.pktBuff) hl.inside_parts.2.1 hx
  refine ⟨p', hmodify, ⟨?_, ?_, rfl, hsame.mono (by simp)⟩, hsame⟩
  · rw [hholes]
    exact hl.seg.revalue hl.nodup x
  · intro _
    cases A with
    | nil => exact hfirst
    | cons y A => exact hfirst

theorem moveHole_edited (hl : Linked d.pktBuff (A ++ (i, v) :: B)) (hsight : Sighted A)
    (hfirst : A ≠ [] → d.firstHole = headIdx (A ++ (i, v) :: B) 0)
    (hin : holeAt n + 8 ≤ ipPktSize)
    (hsorted : (idxs (A ++ (n, v) :: B)).Pairwise (· < ·)) :
    ∃ d', moveHole d i n = .ok d' ∧ Edited d d' (A ++ (n, v) :: B) := by
  obtain ⟨hlast, hnext, hprev⟩ := hl.getHole_eq
  obtain ⟨hinA, hini, hinB⟩ := hl.inside_parts
  have hn := nodup_parts (hsorted.imp Nat.ne_of_lt)
  have hnB : n ∉ idxs B := hn.2.2.2.1
  have hfits := getHole_fits d.pktBuff i
  -- The copy of the hole, with its links.
  have hcopy : getHole (putHole d.pktBuff n (getHole d.pktBuff i)) n = getHole d.pktBuff i :=
    getHole_putHole_self hfits
  have hkept : getHole (relinkFirstHole (putHole d.pktBuff n (getHole d.pktBuff i)) B n) n =
      getHole d.pktBuff i := by
    rw [relinkFirstHole]
    split
    · exact hcopy
    · rename_i hB
      rw [getHole_putHole_ne, hcopy]
      rintro rfl
      exact hnB (headIdx_mem hB)
  have hmove : moveHole d i n = .ok { d with
      pktBuff := relinkLastHole
        (relinkFirstHole (putHole d.pktBuff n (getHole d.pktBuff i)) B n) A n
      firstHole := if A = [] then n else d.firstHole } := by
    rw [moveHole, loadHole_eq hini, ok_bind, storeHole_eq hin, ok_bind, loadHole_eq hin, ok_bind,
      hcopy, hnext, hl.linkBack_eq, ok_bind, loadHole_eq hin, ok_bind, hkept, hprev]
    by_cases hA : A = []
    · subst hA
      rfl
    · rw [if_pos (hsight hA), modify_last hA hinA, ok_bind, if_neg hA]
      rfl
  refine ⟨_, hmove, ?_, ?_, rfl, ?_⟩
  · rw [holes_relinkLastHole (index_lt hin), holes_relinkFirstHole (index_lt hin),
      holes_putHole hfits]
    refine hl.seg.move hl.nodup ?_
    rw [idxs_append, List.mem_append, not_or]
    exact ⟨hn.2.2.1, hnB⟩
  · intro _
    cases A with
    | nil => rfl
    | cons y A => exact hfirst (List.cons_ne_nil y A)
  · have hA : idxs A ⊆ idxs (A ++ (n, v) :: B) := fun j hj => by simp [hj]
    have hB : idxs B ⊆ idxs (A ++ (n, v) :: B) := fun j hj => by simp [hj]
    have hn : n ∈ idxs (A ++ (n, v) :: B) := by simp
    exact (((SameOutside.refl _ _).putHole hn _).relinkFirstHole hB _).relinkLastHole hA _

theorem splitHole_edited (hl : Linked d.pktBuff (A ++ (i, v) :: B))
    (hfirst : d.firstHole = headIdx (A ++ (i, v) :: B) 0) (hin : holeAt n + 8 ≤ ipPktSize)
    (hx : x < 65536) (hn : n ∉ idxs (A ++ (i, v) :: B)) :
    ∃ d', splitHole d i n x = .ok d' ∧ Edited d d' (A ++ (i, x) :: (n, v) :: B) := by
  obtain ⟨hlast, hnext, hprev⟩ := hl.getHole_eq
  obtain ⟨hinA, hini, hinB⟩ := hl.inside_parts
  have hni : n ≠ i := fun h => hn (by simp [h])
  have hfits := getHole_fits d.pktBuff i
  have hxn : ({ getHole d.pktBuff i with lastByte := x, nextHole := n } : Hole).Fits :=
    ⟨hx, index_lt hin, hfits.prevHole, hfits.unused⟩
  have hback : ({ getHole d.pktBuff i with prevHole := i } : Hole).Fits :=
    ⟨hfits.lastByte, hfits.nextHole, index_lt hini, hfits.unused⟩
  -- The three writes of the two halves.
  generalize hp₁ : putHole d.pktBuff n (getHole d.pktBuff i) = p₁
  generalize hp₂ : putHole p₁ i { getHole d.pktBuff i with lastByte := x, nextHole := n } = p₂
  generalize hp₃ : putHole p₂ n { getHole d.pktBuff i with prevHole := i } = p₃
  have hget₁ : getHole p₁ i = getHole d.pktBuff i := by rw [← hp₁, getHole_putHole_ne hni.symm]
  have hget₂ : getHole p₂ n = getHole d.pktBuff i := by
    rw [← hp₂, getHole_putHole_ne hni, ← hp₁, getHole_putHole_self hfits]
  have hget₃ : (getHole p₃ n).nextHole = headIdx B 0 := by
    rw [← hp₃, getHole_putHole_self hback, ← hnext]
  have hsplit : splitHole d i n x = .ok { d with pktBuff := relinkFirstHole p₃ B n } := by
    rw [splitHole, loadHole_eq hini, ok_bind, storeHole_eq hin, ok_bind, hp₁, modifyHole_eq hini,
      ok_bind, hget₁, hp₂, modifyHole_eq hin, ok_bind, hget₂, hp₃, loadHole_eq hin, ok_bind, hget₃,
      hl.linkBack_eq, ok_bind]
    rfl
  refine ⟨_, hsplit, ?_, ?_, rfl, ?_⟩
  · have hholes : holes p₃ = Function.update (Function.update (holes d.pktBuff) i
        ⟨x, n, (holes d.pktBuff i).prev⟩) n ⟨v, (holes d.pktBuff i).next, i⟩ := by
      rw [← hp₃, holes_putHole hback, ← hp₂, holes_putHole hxn, ← hp₁, holes_putHole hfits,
        Function.update_comm hni, Function.update_idem]
      rw [← hlast]
      rfl
    rw [holes_relinkFirstHole (index_lt hin), hholes]
    exact hl.seg.split hl.nodup x hn
  · intro _
    cases A with
    | nil => exact hfirst
    | cons y A => exact hfirst
  · have hB : idxs B ⊆ idxs (A ++ (i, x) :: (n, v) :: B) := fun j hj => by simp [hj]
    have hi : i ∈ idxs (A ++ (i, x) :: (n, v) :: B) := by simp
    have hn : n ∈ idxs (A ++ (i, x) :: (n, v) :: B) := by simp
    refine SameOutside.relinkFirstHole ?_ hB _
    rw [← hp₃, ← hp₂, ← hp₁]
    exact (((SameOutside.refl _ _).putHole hn _).putHole hi _).putHole hn _

/-- The last fragment sets the end of the hole and the total length. -/
theorem truncateHole_edited (ip : Contents) (hl : Linked d.pktBuff (A ++ (i, v) :: B))
    (hfirst : d.firstHole = headIdx (A ++ (i, v) :: B) 0) (hx : x < 65536) :
    ∃ d' v', truncateHole d ip i x = .ok d' ∧ Linked d'.pktBuff (A ++ (i, v') :: B) ∧
      d'.firstHole = headIdx (A ++ (i, v') :: B) 0 ∧ SameOutside [i] d.pktBuff d'.pktBuff ∧
      (v', d'.totalLen) = if word ip 6 &&& 0x2000 = 0 then (x, x) else (v, d.totalLen) := by
  unfold truncateHole
  split
  · obtain ⟨p', hmodify, hedited, hsame⟩ := modify_edited hl hfirst hx
    have hsorted := hl.sorted
    have hinside := hl.inside
    rw [idxs_append, idxs_cons] at hsorted hinside
    rw [hmodify, ok_bind]
    exact ⟨{ d with pktBuff := p', totalLen := x }, x, rfl,
      ⟨hedited.seg, by simpa using hsorted, by simpa using hinside⟩, hedited.first (by simp), hsame,
      rfl⟩
  · exact ⟨d, v, rfl, hl, hfirst, SameOutside.refl _ _, rfl⟩

/-- Bytes that are written beside the holes. -/
theorem seg_storeAt (hseg : Seg (holes p) 0 L 0) {start : Nat}
    (hdata : ∀ j ∈ idxs L, 8 * j + 8 ≤ start ∨ start + data.length ≤ 8 * j) :
    Seg (holes (storeAt p (ipHdrSize + start) data)) 0 L 0 := by
  refine hseg.congr fun j hj => ?_
  have hsame : getHole (storeAt p (ipHdrSize + start) data) j = getHole p j := by
    apply getHole_congr
    rintro a ⟨hlo, hhi⟩
    refine storeAt_of_not_inRange ?_
    rintro ⟨hlo', hhi'⟩
    unfold holeAt at hlo hhi
    rcases hdata j hj with hbefore | hbehind <;> omega
  simp only [holes, hsame]

/-! ## The identification -/

theorem SameOutside.ident {J : List Nat} (hsame : SameOutside J p p') :
    word p' 4 = word p 4 := by
  have hbyte (a : Nat) (ha : a < ipHdrSize) : p' a = p a := by
    refine hsame a fun j _ => ?_
    rintro ⟨hlo, -⟩
    unfold holeAt at hlo
    omega
  rw [word, word, hbyte 4 (by decide), hbyte (4 + 1) (by decide)]

theorem ident_storeAt (hpos : pos + data.length ≤ 4 ∨ ipHdrSize ≤ pos) :
    word (storeAt p pos data) 4 = word p 4 := by
  have hbyte (a : Nat) (hlo : 4 ≤ a) (hhi : a < ipHdrSize) : storeAt p pos data a = p a := by
    refine storeAt_of_not_inRange ?_
    rintro ⟨hlo', hhi'⟩
    omega
  rw [word, word, hbyte 4 le_rfl (by decide), hbyte (4 + 1) (by decide) (by decide)]

/-! ## The hole list and a fragment -/

/-- The walk stops at the first hole that ends at or behind `start`. -/
theorem findHole_eq_some {start fuel : Nat} : ∀ {A : List (Nat × Nat)} {q : Nat},
    Seg (holes p) q (A ++ (i, v) :: B) 0 → (idxs (A ++ (i, v) :: B)).Pairwise (· < ·) →
    (∀ j ∈ idxs (A ++ (i, v) :: B), holeAt j + 8 ≤ ipPktSize) → (∀ y ∈ A, y.2 < start) →
    start ≤ v → A.length < fuel →
    findHole p start fuel (headIdx (A ++ (i, v) :: B) 0) = .ok (some i) := by
  intro A
  induction A generalizing fuel with
  | nil =>
    intro q hseg _ hin _ hv hfuel
    obtain ⟨fuel, rfl⟩ : ∃ k, fuel = k + 1 := ⟨fuel - 1, by omega⟩
    have hlast : (getHole p i).lastByte = v := congrArg Node.val hseg.1
    show findHole p start (fuel + 1) i = _
    rw [findHole, loadHole_eq (hin i (by simp)), ok_bind, hlast, if_neg (by omega)]
    rfl
  | cons y A ih =>
    intro q hseg hsorted hin hA hv hfuel
    obtain ⟨fuel, rfl⟩ : ∃ k, fuel = k + 1 := ⟨fuel - 1, by omega⟩
    obtain ⟨hnode, hrest⟩ := hseg
    have hlast : (getHole p y.1).lastByte = y.2 := congrArg Node.val hnode
    have hnext : (getHole p y.1).nextHole = headIdx (A ++ (i, v) :: B) 0 :=
      congrArg Node.next hnode
    have hmem : headIdx (A ++ (i, v) :: B) 0 ∈ idxs (A ++ (i, v) :: B) := headIdx_mem (by simp)
    have hpos := (List.pairwise_cons.mp hsorted).1 _ hmem
    show findHole p start (fuel + 1) y.1 = _
    rw [findHole, loadHole_eq (hin y.1 List.mem_cons_self), ok_bind, hlast,
      if_pos (hA y List.mem_cons_self), hnext, if_neg (by omega)]
    exact ih hrest (List.pairwise_cons.mp hsorted).2
      (fun j hj => hin j (List.mem_cons_of_mem _ hj))
      (fun z hz => hA z (List.mem_cons_of_mem _ hz)) hv (by simpa using hfuel)

/-- The walk finds no hole that far away. -/
theorem findHole_eq_none {start fuel : Nat} : ∀ {L : List (Nat × Nat)} {q : Nat}, L ≠ [] →
    Seg (holes p) q L 0 → (idxs L).Pairwise (· < ·) →
    (∀ j ∈ idxs L, holeAt j + 8 ≤ ipPktSize) → (∀ y ∈ L, y.2 < start) → L.length ≤ fuel →
    findHole p start fuel (headIdx L 0) = .ok none := by
  intro L
  induction L generalizing fuel with
  | nil => exact fun h => absurd rfl h
  | cons y L ih =>
    intro q _ hseg hsorted hin hL hfuel
    obtain ⟨fuel, rfl⟩ : ∃ k, fuel = k + 1 := ⟨fuel - 1, by simp at hfuel; omega⟩
    obtain ⟨hnode, hrest⟩ := hseg
    have hlast : (getHole p y.1).lastByte = y.2 := congrArg Node.val hnode
    have hnext : (getHole p y.1).nextHole = headIdx L 0 := congrArg Node.next hnode
    show findHole p start (fuel + 1) y.1 = _
    rw [findHole, loadHole_eq (hin y.1 List.mem_cons_self), ok_bind, hlast,
      if_pos (hL y List.mem_cons_self), hnext]
    by_cases hne : L = []
    · subst hne
      rfl
    · have hpos := (List.pairwise_cons.mp hsorted).1 (headIdx L 0) (headIdx_mem hne)
      rw [if_neg (by omega)]
      exact ih hne hrest (List.pairwise_cons.mp hsorted).2
        (fun j hj => hin j (List.mem_cons_of_mem _ hj))
        (fun z hz => hL z (List.mem_cons_of_mem _ hz)) (by simpa using hfuel)

/-- There are more steps than holes. -/
theorem Linked.length_le (hl : Linked p L) : L.length ≤ 65536 := by
  have hsub : idxs L ⊆ List.range 65536 := fun j hj =>
    List.mem_range.mpr (index_lt (hl.inside j hj))
  have hle := (List.subperm_of_subset hl.nodup hsub).length_le
  simpa [idxs] using hle

end Edits

end UBoot.Net
