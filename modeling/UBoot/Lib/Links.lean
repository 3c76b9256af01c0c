import Mathlib

/-!
# Doubly linked lists in an array

The nodes of the list lie in an array, each with the indices of its neighbours.  `Seg g p A q`
says that the nodes with the indices and values of `A` are linked in this order, where the
first of them points back to `p` and the last one forward to `q`.

An edit of the list rewrites the node itself and the pointers of its neighbours to it:
`relinkLast` and `relinkFirst` set the outer pointers of a segment, and the lemmas
`Seg.remove`, `Seg.revalue`, `Seg.move` and `Seg.split` are the edits.
-/

namespace UBoot.Lib

structure Node (α : Type) where
  val : α
  next : Nat
  prev : Nat

variable {α : Type} {g g' : Nat → Node α} {A B : List (Nat × α)} {p q i n : Nat} {v v' : α}

def headIdx : List (Nat × α) → Nat → Nat
  | [], q => q
  | x :: _, _ => x.1

def lastIdx : Nat → List (Nat × α) → Nat
  | p, [] => p
  | _, x :: A => lastIdx x.1 A

def Seg (g : Nat → Node α) : Nat → List (Nat × α) → Nat → Prop
  | _, [], _ => True
  | p, x :: A, q => g x.1 = ⟨x.2, headIdx A q, p⟩ ∧ Seg g x.1 A q

/-- The indices of the nodes. -/
def idxs (A : List (Nat × α)) : List Nat := A.map Prod.fst

@[simp] theorem idxs_nil : idxs ([] : List (Nat × α)) = [] := rfl

@[simp] theorem idxs_cons (x : Nat × α) (A : List (Nat × α)) : idxs (x :: A) = x.1 :: idxs A := rfl

@[simp] theorem idxs_append (A B : List (Nat × α)) : idxs (A ++ B) = idxs A ++ idxs B :=
  List.map_append

theorem lastIdx_append (p : Nat) : ∀ (A B : List (Nat × α)),
    lastIdx p (A ++ B) = lastIdx (lastIdx p A) B := by
  intro A
  induction A generalizing p with
  | nil => exact fun B => rfl
  | cons x A ih => exact fun B => ih x.1 B

theorem headIdx_append : ∀ (A B : List (Nat × α)) (q : Nat),
    headIdx (A ++ B) q = headIdx A (headIdx B q)
  | [], _, _ => rfl
  | _ :: _, _, _ => rfl

theorem lastIdx_mem (p : Nat) : ∀ {A : List (Nat × α)}, A ≠ [] → lastIdx p A ∈ idxs A := by
  intro A
  induction A generalizing p with
  | nil => exact fun h => absurd rfl h
  | cons x A ih =>
    intro _
    by_cases hA : A = []
    · subst hA
      exact List.mem_singleton_self _
    · exact List.mem_cons_of_mem _ (ih x.1 hA)

theorem seg_append : Seg g p (A ++ B) q ↔ Seg g p A (headIdx B q) ∧ Seg g (lastIdx p A) B q := by
  induction A generalizing p with
  | nil => exact ⟨fun h => ⟨trivial, h⟩, fun h => h.2⟩
  | cons x A ih =>
    simp only [List.cons_append, Seg, ih, headIdx_append, lastIdx, and_assoc]

/-- A segment depends on its own nodes only. -/
theorem Seg.congr (h : Seg g p A q) (hg : ∀ j ∈ idxs A, g' j = g j) : Seg g' p A q := by
  induction A generalizing p with
  | nil => trivial
  | cons x A ih =>
    exact ⟨(hg x.1 List.mem_cons_self).trans h.1,
      ih h.2 fun j hj => hg j (List.mem_cons_of_mem _ hj)⟩

theorem Seg.update (h : Seg g p A q) (hn : n ∉ idxs A) (a : Node α) :
    Seg (Function.update g n a) p A q := by
  refine h.congr fun j hj => Function.update_of_ne ?_ _ _
  rintro rfl
  exact hn hj

/-! ## Outer pointers -/

def relinkLast (g : Nat → Node α) (A : List (Nat × α)) (q : Nat) : Nat → Node α :=
  if A = [] then g
  else Function.update g (lastIdx 0 A) { g (lastIdx 0 A) with next := q }

def relinkFirst (g : Nat → Node α) (B : List (Nat × α)) (p : Nat) : Nat → Node α :=
  if B = [] then g
  else Function.update g (headIdx B 0) { g (headIdx B 0) with prev := p }

theorem relinkLast_of_notMem {j : Nat} (hj : j ∉ idxs A) (q : Nat) : relinkLast g A q j = g j := by
  unfold relinkLast
  split
  · rfl
  · rename_i hA
    refine Function.update_of_ne ?_ _ _
    rintro rfl
    exact hj (lastIdx_mem 0 hA)

theorem headIdx_mem : B ≠ [] → headIdx B q ∈ idxs B := by
  cases B with
  | nil => exact fun h => absurd rfl h
  | cons x B => exact fun _ => List.mem_cons_self

theorem relinkFirst_of_notMem {j : Nat} (hj : j ∉ idxs B) (p : Nat) :
    relinkFirst g B p j = g j := by
  unfold relinkFirst
  split
  · rfl
  · rename_i hB
    refine Function.update_of_ne ?_ _ _
    rintro rfl
    exact hj (headIdx_mem hB)

theorem Seg.relinkFirst (h : Seg g p B q) (hnodup : (idxs B).Nodup) (p' : Nat) :
    Seg (relinkFirst g B p') p' B q := by
  cases B with
  | nil => trivial
  | cons x B =>
    have hx := (List.nodup_cons.mp hnodup).1
    refine ⟨?_, h.2.update hx _⟩
    show Function.update g x.1 { g x.1 with prev := p' } x.1 = _
    rw [Function.update_self, h.1]

theorem Seg.relinkLast (h : Seg g p A q) (hnodup : (idxs A).Nodup) (q' : Nat) :
    Seg (relinkLast g A q') p A q' := by
  induction A using List.reverseRecOn with
  | nil => trivial
  | append_singleton A x _ =>
    have hsplit := seg_append.mp h
    have hx : x.1 ∉ idxs A := by
      intro hmem
      rw [idxs_append] at hnodup
      exact List.disjoint_of_nodup_append hnodup hmem (List.mem_singleton_self _)
    have hlast : lastIdx 0 (A ++ [x]) = x.1 := lastIdx_append 0 A [x]
    rw [Lib.relinkLast, if_neg (by simp), hlast]
    refine seg_append.mpr ⟨hsplit.1.update hx _, ?_, trivial⟩
    rw [Function.update_self, hsplit.2.1]
    rfl

/-! ## Edits -/

section Edits

variable (h : Seg g p (A ++ (i, v) :: B) q) (hnodup : (idxs (A ++ (i, v) :: B)).Nodup)

include hnodup in
theorem nodup_parts : (idxs A).Nodup ∧ (idxs B).Nodup ∧ i ∉ idxs A ∧ i ∉ idxs B ∧
    ∀ j ∈ idxs A, j ∉ idxs B := by
  rw [idxs_append, idxs_cons] at hnodup
  obtain ⟨hA, hiB, hdisj⟩ := List.nodup_append'.mp hnodup
  obtain ⟨hi, hB⟩ := List.nodup_cons.mp hiB
  exact ⟨hA, hB, fun h => hdisj h List.mem_cons_self, hi,
    fun j hj hj' => hdisj hj (List.mem_cons_of_mem _ hj')⟩

include h hnodup in
theorem Seg.remove :
    Seg (Lib.relinkLast (Lib.relinkFirst g B (lastIdx p A)) A (headIdx B q)) p (A ++ B) q := by
  obtain ⟨hA, hB, -, -, hdisj⟩ := nodup_parts hnodup
  obtain ⟨hsegA, -, hsegB⟩ := seg_append.mp h
  refine seg_append.mpr ⟨?_, ?_⟩
  · refine Seg.relinkLast (hsegA.congr fun j hj => ?_) hA _
    exact relinkFirst_of_notMem (hdisj j hj) _
  · refine (hsegB.relinkFirst hB _).congr fun j hj => ?_
    exact relinkLast_of_notMem (fun hj' => hdisj j hj' hj) _

include h hnodup in
theorem Seg.revalue (v' : α) :
    Seg (Function.update g i { g i with val := v' }) p (A ++ (i, v') :: B) q := by
  obtain ⟨-, -, hiA, hiB, -⟩ := nodup_parts hnodup
  obtain ⟨hsegA, hi, hsegB⟩ := seg_append.mp h
  refine seg_append.mpr ⟨hsegA.update hiA _, ?_, hsegB.update hiB _⟩
  rw [Function.update_self, hi]

include h hnodup in
theorem Seg.move (hn : n ∉ idxs (A ++ B)) :
    Seg (Lib.relinkLast (Lib.relinkFirst (Function.update g n (g i)) B n) A n) p
      (A ++ (n, v) :: B) q := by
  obtain ⟨hA, hB, -, -, hdisj⟩ := nodup_parts hnodup
  obtain ⟨hsegA, hi, hsegB⟩ := seg_append.mp h
  have hnA : n ∉ idxs A := fun h => hn (by simp [h])
  have hnB : n ∉ idxs B := fun h => hn (by simp [h])
  refine seg_append.mpr ⟨?_, ?_, ?_⟩
  · refine Seg.relinkLast ((hsegA.update hnA (g i)).congr fun j hj => ?_) hA _
    exact relinkFirst_of_notMem (hdisj j hj) _
  · rw [relinkLast_of_notMem hnA, relinkFirst_of_notMem hnB, Function.update_self, hi]
  · refine ((hsegB.update hnB (g i)).relinkFirst hB n).congr fun j hj => ?_
    exact relinkLast_of_notMem (fun hj' => hdisj j hj' hj) _

include h hnodup in
theorem Seg.split (v' : α) (hn : n ∉ idxs (A ++ (i, v) :: B)) :
    Seg (Lib.relinkFirst (Function.update (Function.update g i ⟨v', n, (g i).prev⟩) n
      ⟨v, (g i).next, i⟩) B n) p (A ++ (i, v') :: (n, v) :: B) q := by
  obtain ⟨hA, hB, hiA, hiB, hdisj⟩ := nodup_parts hnodup
  obtain ⟨hsegA, hi, hsegB⟩ := seg_append.mp h
  have hnA : n ∉ idxs A := fun h => hn (by simp [h])
  have hnB : n ∉ idxs B := fun h => hn (by simp [h])
  have hin : i ≠ n := fun h => hn (by simp [h])
  refine seg_append.mpr ⟨?_, ?_, ?_, ?_⟩
  · refine ((hsegA.update hiA ⟨v', n, (g i).prev⟩).update hnA ⟨v, (g i).next, i⟩).congr
      fun j hj => ?_
    exact relinkFirst_of_notMem (hdisj j hj) _
  · rw [relinkFirst_of_notMem hiB, Function.update_of_ne hin, Function.update_self, hi]
    rfl
  · rw [relinkFirst_of_notMem hnB, Function.update_self, hi]
  · exact ((hsegB.update hiB _).update hnB _).relinkFirst hB _

end Edits

end UBoot.Lib
