import UBoot.Fs.Jffs2
import Mathlib.Data.List.Induction
import Mathlib.Data.List.TakeWhile

/-!
# The lists of nodes

`insert_node` keeps every node whatever the comparison says (`insertAll_perm`).  With a comparison
of keys the list stays sorted: what lies in front of the place where the loop starts has no larger
key, whichever of the three places it is (`insertStart_spec`).
-/

namespace UBoot.Fs.Jffs2

open UBoot.Lib

variable {compare : Compare} {list : BList} {new : BNode}

theorem insertNode_perm (sort : Bool) (compare : Compare) (list : BList) (new : BNode) :
    (insertNode sort compare list new).nodes.Perm (new :: list.nodes) := by
  have happend : (list.nodes ++ [new]).Perm (new :: list.nodes) := List.perm_append_singleton _ _
  rw [insertNode]
  split
  · dsimp only
    split
    · have hmiddle : (list.nodes.take (insertPos compare list new) ++
          new :: list.nodes.drop (insertPos compare list new)).Perm
          (new :: (list.nodes.take (insertPos compare list new) ++
            list.nodes.drop (insertPos compare list new))) := List.perm_middle
      rwa [List.take_append_drop] at hmiddle
    · exact happend
  · exact happend

theorem insertAll_append (sort : Bool) (compare : Compare) (news : List BNode) (new : BNode) :
    insertAll sort compare (news ++ [new]) =
      insertNode sort compare (insertAll sort compare news) new :=
  List.foldl_append

/-- Every node is in the list once. -/
theorem insertAll_perm (sort : Bool) (compare : Compare) (news : List BNode) :
    (insertAll sort compare news).nodes.Perm news := by
  induction news using List.reverseRecOn with
  | nil => exact List.Perm.nil
  | append_singleton news new ih =>
    rw [insertAll_append]
    exact (insertNode_perm sort compare _ new).trans
      ((ih.cons new).trans (List.perm_append_singleton new news).symm)

/-! ## Sorted lists -/

section Sorted

variable {key : BNode → Nat}

/-- The comparison of the keys. -/
def byKey (key : BNode → Nat) : Compare := fun new old => key new > key old

theorem byKey_iff {old : BNode} : byKey key new old ↔ key old < key new := decide_eq_true_iff

/-- The list is sorted by the keys, and `listLast` is in it. -/
structure SortedBy (key : BNode → Nat) (list : BList) : Prop where
  sorted : list.nodes.Pairwise fun b b' => key b ≤ key b'
  last_lt : ∀ last, list.listLast = some last → last < list.nodes.length

/-- In a sorted list the keys up to a position are not above the one at it. -/
theorem SortedBy.le_of_mem_take (h : SortedBy key list) {i : Nat} {b : BNode}
    (hi : list.nodes[i]? = some b) {b' : BNode} (hb' : b' ∈ list.nodes.take (i + 1)) :
    key b' ≤ key b := by
  obtain ⟨j, hj⟩ := List.mem_iff_getElem?.mp hb'
  obtain ⟨hlt, hget⟩ := List.getElem?_eq_some_iff.mp hi
  rw [List.getElem?_take] at hj
  split at hj
  case isFalse => cases hj
  case isTrue hji =>
    rcases Nat.lt_or_eq_of_le (Nat.le_of_lt_succ hji) with hlt' | rfl
    · obtain ⟨hlt₂, hget₂⟩ := List.getElem?_eq_some_iff.mp hj
      have hle := List.pairwise_iff_getElem.mp h.sorted j i hlt₂ hlt hlt'
      rwa [hget, hget₂] at hle
    · rw [hj] at hi
      cases hi
      exact le_rfl

theorem insertStart_le (h : SortedBy key list) (new : BNode) :
    insertStart (byKey key) list new ≤ list.nodes.length := by
  rw [insertStart]
  split
  · exact le_rfl
  · split
    case h_1 last hlast =>
      have := h.last_lt last hlast
      split <;> omega
    case h_2 => exact Nat.zero_le _

/-- Whichever place the loop starts from, the nodes in front of it have smaller keys. -/
theorem insertStart_spec (h : SortedBy key list) {b : BNode}
    (hb : b ∈ list.nodes.take (insertStart (byKey key) list new)) : key b < key new := by
  rw [insertStart] at hb
  split at hb
  case isTrue htail =>
    obtain ⟨tail, htail, hlt⟩ := (Option.any_eq_true _ _).mp htail
    have hlen : 0 < list.nodes.length := by
      cases hn : list.nodes with
      | nil =>
        rw [hn] at htail
        cases htail
      | cons b bs => exact Nat.succ_pos _
    rw [List.getLast?_eq_getElem?] at htail
    rw [← Nat.sub_add_cancel hlen] at hb
    have hle := h.le_of_mem_take htail hb
    exact Nat.lt_of_le_of_lt hle (byKey_iff.mp hlt)
  case isFalse =>
    split at hb
    case h_1 last hlast =>
      split at hb
      case isTrue hlt =>
        obtain ⟨mid, hmid, hlt⟩ := (Option.any_eq_true _ _).mp hlt
        exact Nat.lt_of_le_of_lt (h.le_of_mem_take hmid hb) (byKey_iff.mp hlt)
      case isFalse => cases hb
    case h_2 => cases hb

/-- The new node goes between smaller keys and keys that are not smaller. -/
theorem exists_insertPos (h : SortedBy key list) (new : BNode) :
    ∃ front back, list.nodes = front ++ back ∧ insertPos (byKey key) list new = front.length ∧
      (∀ b ∈ front, key b < key new) ∧ ∀ b ∈ back, key new ≤ key b := by
  have hstart := insertStart_le h new
  have hsplit := List.takeWhile_append_dropWhile (p := byKey key new)
    (l := list.nodes.drop (insertStart (byKey key) list new))
  refine ⟨list.nodes.take (insertStart (byKey key) list new) ++
    (list.nodes.drop (insertStart (byKey key) list new)).takeWhile (byKey key new),
    (list.nodes.drop (insertStart (byKey key) list new)).dropWhile (byKey key new), ?_, ?_, ?_, ?_⟩
  · rw [List.append_assoc, hsplit, List.take_append_drop]
  · rw [insertPos, List.length_append, List.length_take, Nat.min_eq_left hstart]
  · intro b hb
    rcases List.mem_append.mp hb with hb | hb
    · exact insertStart_spec h hb
    · exact byKey_iff.mp (List.mem_takeWhile_imp hb)
  · intro b hb
    -- the first of them stops the loop, and the others are not below it
    have hsorted : (list.nodes.drop (insertStart (byKey key) list new)).Pairwise
        fun b b' => key b ≤ key b' := h.sorted.sublist (List.drop_sublist _ _)
    rw [← hsplit, List.pairwise_append] at hsorted
    cases hback : (list.nodes.drop (insertStart (byKey key) list new)).dropWhile
        (byKey key new) with
    | nil =>
      rw [hback] at hb
      cases hb
    | cons first rest =>
      have hfirst : key new ≤ key first := by
        have hnot := List.head_dropWhile_not (byKey key new)
          (l := list.nodes.drop (insertStart (byKey key) list new))
          (by rw [hback]; exact List.cons_ne_nil _ _)
        simp only [hback, List.head_cons] at hnot
        exact Nat.not_lt.mp (of_decide_eq_false hnot)
      rw [hback] at hb hsorted
      rcases List.mem_cons.mp hb with rfl | hb
      · exact hfirst
      · exact hfirst.trans ((List.pairwise_cons.mp hsorted.2.1).1 b hb)

theorem sortedBy_insertNode (h : SortedBy key list) (new : BNode) :
    SortedBy key (insertNode true (byKey key) list new) := by
  obtain ⟨front, back, hnodes, hpos, hfront, hback⟩ := exists_insertPos h new
  have hsorted := h.sorted
  rw [hnodes, List.pairwise_append] at hsorted
  have hbetween : (front ++ new :: back).Pairwise fun b b' => key b ≤ key b' := by
    refine List.pairwise_append.mpr ⟨hsorted.1, List.pairwise_cons.mpr ⟨hback, hsorted.2.1⟩, ?_⟩
    intro b hb b' hb'
    rcases List.mem_cons.mp hb' with rfl | hb'
    · exact (hfront b hb).le
    · exact hsorted.2.2 b hb b' hb'
  rw [insertNode, if_pos rfl, hpos]
  dsimp only
  split
  case isTrue hlt =>
    rw [hnodes, List.take_left, List.drop_left]
    refine ⟨hbetween, fun last hlast => ?_⟩
    split at hlast
    · cases hlast
    · cases hlast
      rw [List.length_append, List.length_cons]
      omega
  case isFalse hge =>
    have hnil : back = [] := by
      rw [hnodes, List.length_append] at hge
      exact List.eq_nil_of_length_eq_zero (by omega)
    subst hnil
    rw [List.append_nil] at hnodes
    rw [hnodes]
    refine ⟨hbetween, fun last hlast => ?_⟩
    have := h.last_lt last hlast
    rw [hnodes] at this
    rw [List.length_append]
    omega

theorem sortedBy_insertAll (key : BNode → Nat) (news : List BNode) :
    SortedBy key (insertAll true (byKey key) news) := by
  induction news using List.reverseRecOn with
  | nil => exact ⟨List.Pairwise.nil, fun last hlast => nomatch hlast⟩
  | append_singleton news new ih =>
    rw [insertAll_append]
    exact sortedBy_insertNode ih new

end Sorted

end UBoot.Fs.Jffs2
