import UBoot.Net.DefragmentRun

/-!
# Fragments that keep inside of the buffer

The headers of the fragments alone say what the hole list becomes: `refill` is what one
fragment does to a list of holes, each with its index and its last byte, and `follow` is what
a call does to the datagram that is put together.  As long as the list in the buffer is that
one, no call leaves the buffer.

What a fragment can destroy is the list itself, since the descriptors lie among the payload.
`Harmless` says that it does not: there is a list, the bytes that are copied are none of
another hole's descriptor, and the descriptor of what is left of the hole is neither among
them nor behind the end of the buffer.
-/

namespace UBoot.Net

open UBoot.Lib

/-! ## The list of the holes -/

/-- What the reassembly reads of a header. -/
structure Fragment where
  id : Nat
  offset8 : Nat
  more : Bool
  len : Int
  deriving DecidableEq, Repr

def Fragment.ofPacket (ip : Contents) : Fragment where
  id := word ip 4
  offset8 := word ip 6 &&& 0x1fff
  more := word ip 6 &&& 0x2000 ≠ 0
  len := (word ip 2 : Int) - ipHdrSize

namespace Fragment

def start (f : Fragment) : Nat := f.offset8 * 8

def stop (f : Fragment) : Int := f.start + f.len

/-- The index behind the whole units of the fragment. -/
def behind (f : Fragment) : Int := f.offset8 + f.len.tdiv 8

/-- "fragment extends too far" -/
def TooFar (f : Fragment) : Prop := ipMaxUdp < f.stop % 2 ^ 32

instance (f : Fragment) : Decidable f.TooFar := inferInstanceAs (Decidable (_ < _))

end Fragment

/-- A hole of a list, with the holes before and behind it. -/
structure Place where
  front : List (Nat × Nat)
  index : Nat
  last : Nat
  back : List (Nat × Nat)

/-- The first hole that ends at or behind `start`. -/
def meet (start : Nat) : List (Nat × Nat) → Option Place
  | [] => none
  | x :: L =>
    if x.2 < start then (meet start L).map fun y => { y with front := x :: y.front }
    else some ⟨[], x.1, x.2, L⟩

/-- What the links still lead to of the holes in front of one that is unlinked: a hole at the
index 0 is taken for none. -/
def reached (A : List (Nat × Nat)) : List (Nat × Nat) := if lastIdx 0 A = 0 then [] else A

/-- The hole `i` that ends at `v`, between `A` and `B`, without the fragment. -/
def cut (f : Fragment) (A : List (Nat × Nat)) (i v : Nat) (B : List (Nat × Nat)) :
    List (Nat × Nat) :=
  if f.offset8 ≤ i ∧ v ≤ f.stop then reached A ++ B
  else if v ≤ f.stop then A ++ (i, f.start) :: B
  else if f.offset8 ≤ i then reached A ++ (f.behind.toNat, v) :: B
  else A ++ (i, f.start) :: (f.behind.toNat, v) :: B

/-- The last fragment truncates its hole. -/
def endOf (f : Fragment) (v : Nat) : Nat := if f.more then v else f.stop.toNat

def refill (f : Fragment) (L : List (Nat × Nat)) : List (Nat × Nat) :=
  match meet f.start L with
  | none => L
  | some x => if f.behind ≤ x.index then L else cut f x.front x.index (endOf f x.last) x.back

/-- The fragment keeps away from the descriptors of the holes behind its own, and leaves room
for a new one. -/
structure Contained (f : Fragment) (v : Nat) (B : List (Nat × Nat)) : Prop where
  nonneg : 0 ≤ f.len
  next : ∀ y ∈ B, f.stop ≤ 8 * (y.1 : Int)
  rest : f.more → f.stop < v → 8 ∣ f.len ∧ f.stop + 8 ≤ ipMaxUdp

/-- There are holes, and the fragment is contained if it is not a duplicate. -/
structure Harmless (f : Fragment) (L : List (Nat × Nat)) : Prop where
  ne_nil : L ≠ []
  contained : ∀ x ∈ meet f.start L, (x.index : Int) < f.behind → Contained f x.last x.back

instance (f : Fragment) (v : Nat) (B : List (Nat × Nat)) : Decidable (Contained f v B) :=
  decidable_of_iff (0 ≤ f.len ∧ (∀ y ∈ B, f.stop ≤ 8 * (y.1 : Int)) ∧
      (f.more → f.stop < v → 8 ∣ f.len ∧ f.stop + 8 ≤ ipMaxUdp))
    ⟨fun h => ⟨h.1, h.2.1, h.2.2⟩, fun h => ⟨h.nonneg, h.next, h.rest⟩⟩

instance (f : Fragment) (L : List (Nat × Nat)) : Decidable (Harmless f L) :=
  decidable_of_iff (L ≠ [] ∧
      ∀ x ∈ meet f.start L, (x.index : Int) < f.behind → Contained f x.last x.back)
    ⟨fun h => ⟨h.1, h.2⟩, fun h => ⟨h.ne_nil, h.contained⟩⟩

/-! ## The datagram -/

/-- The datagram that is put together; it is complete when there are no holes. -/
structure Track where
  id : Nat
  missing : List (Nat × Nat)

/-- "new (or different) packet, reset structs" -/
def missingFor (f : Fragment) : Option Track → List (Nat × Nat)
  | some t => if t.id = f.id then t.missing else [(0, 0xffff)]
  | none => [(0, 0xffff)]

def follow (s : Option Track) (f : Fragment) : Option Track :=
  if f.TooFar then s else some ⟨f.id, refill f (missingFor f s)⟩

/-- Every fragment that does not extend too far is harmless when it comes. -/
def HarmlessRun : Option Track → List Fragment → Prop
  | _, [] => True
  | s, f :: fs => (¬ f.TooFar → Harmless f (missingFor f s)) ∧ HarmlessRun (follow s f) fs

instance decidableHarmlessRun : ∀ s fs, Decidable (HarmlessRun s fs)
  | _, [] => .isTrue trivial
  | s, f :: fs =>
    have := decidableHarmlessRun (follow s f) fs
    inferInstanceAs (Decidable ((¬ f.TooFar → Harmless f (missingFor f s)) ∧
      HarmlessRun (follow s f) fs))

/-! ## Holes in order -/

/-- The descriptor of a hole lies in the hole's first bytes or at least in the buffer. -/
structure Proper (x : Nat × Nat) : Prop where
  lt : 8 * x.1 < x.2
  fits : x.2 < 65536
  room : 8 * x.1 + 8 ≤ ipMaxUdp

/-- Every hole ends before the next one begins. -/
structure Spaced (L : List (Nat × Nat)) : Prop where
  proper : ∀ x ∈ L, Proper x
  order : L.Pairwise fun x y => x.2 ≤ 8 * y.1

section Lists

variable {f : Fragment} {A B L : List (Nat × Nat)} {i v : Nat} {x y : Nat × Nat}

theorem Spaced.sublist {L' : List (Nat × Nat)} (h : Spaced L) (hsub : L'.Sublist L) : Spaced L' :=
  ⟨fun x hx => h.proper x (hsub.subset hx), h.order.sublist hsub⟩

theorem Spaced.sorted (h : Spaced L) : (idxs L).Pairwise (· < ·) := by
  rw [idxs, List.pairwise_map]
  refine h.order.imp_of_mem fun {x y} hx _ hxy => ?_
  have := (h.proper x hx).lt
  omega

theorem Spaced.inside (h : Spaced L) : ∀ j ∈ idxs L, holeAt j + 8 ≤ ipPktSize := by
  intro j hj
  obtain ⟨x, hx, rfl⟩ := List.mem_map.mp hj
  have hroom := (h.proper x hx).room
  unfold ipMaxUdp ipPktSize ipHdrSize at hroom
  unfold holeAt ipPktSize ipHdrSize
  omega

theorem spaced_append : Spaced (A ++ B) ↔
    Spaced A ∧ Spaced B ∧ ∀ x ∈ A, ∀ y ∈ B, x.2 ≤ 8 * y.1 := by
  constructor
  · intro h
    obtain ⟨hA, hB, hAB⟩ := List.pairwise_append.mp h.order
    obtain ⟨hpA, hpB⟩ := List.forall_mem_append.mp h.proper
    exact ⟨⟨hpA, hA⟩, ⟨hpB, hB⟩, hAB⟩
  · rintro ⟨hA, hB, hAB⟩
    exact ⟨List.forall_mem_append.mpr ⟨hA.proper, hB.proper⟩,
      List.pairwise_append.mpr ⟨hA.order, hB.order, hAB⟩⟩

theorem spaced_cons : Spaced (x :: B) ↔ Proper x ∧ (∀ y ∈ B, x.2 ≤ 8 * y.1) ∧ Spaced B := by
  constructor
  · intro h
    obtain ⟨hx, hB⟩ := List.pairwise_cons.mp h.order
    obtain ⟨hpx, hpB⟩ := List.forall_mem_cons.mp h.proper
    exact ⟨hpx, hx, hpB, hB⟩
  · rintro ⟨hpx, hx, hB⟩
    exact ⟨List.forall_mem_cons.mpr ⟨hpx, hB.proper⟩, List.pairwise_cons.mpr ⟨hx, hB.order⟩⟩

theorem reached_sublist (A : List (Nat × Nat)) : (reached A).Sublist A := by
  unfold reached
  split
  · exact List.nil_sublist A
  · exact List.Sublist.refl A

theorem meet_eq_some {start : Nat} {w : Place} (h : meet start L = some w) :
    L = w.front ++ (w.index, w.last) :: w.back ∧ (∀ y ∈ w.front, y.2 < start) ∧
      start ≤ w.last := by
  induction L generalizing w with
  | nil => cases h
  | cons x L ih =>
    rw [meet] at h
    split at h
    · rename_i hx
      obtain ⟨u, hu, rfl⟩ := Option.map_eq_some_iff.mp h
      obtain ⟨rfl, hfront, hlast⟩ := ih hu
      exact ⟨rfl, List.forall_mem_cons.mpr ⟨hx, hfront⟩, hlast⟩
    · rename_i hx
      cases h
      exact ⟨rfl, by simp, Nat.le_of_not_lt hx⟩

theorem meet_eq_none {start : Nat} (h : meet start L = none) : ∀ y ∈ L, y.2 < start := by
  induction L with
  | nil => simp
  | cons x L ih =>
    rw [meet] at h
    split at h
    · rename_i hx
      exact List.forall_mem_cons.mpr ⟨hx, ih (Option.map_eq_none_iff.mp h)⟩
    · cases h

/-- The holes that are left were there before, or are the parts in front of the fragment and
behind it. -/
theorem mem_cut (hy : y ∈ cut f A i v B) : y ∈ A ∨ y = (i, f.start) ∧ i < f.offset8 ∨
    y = (f.behind.toNat, v) ∧ f.stop < v ∨ y ∈ B := by
  have hsub : y ∈ reached A → y ∈ A := fun hy => (reached_sublist A).subset hy
  unfold cut at hy
  split_ifs at hy with hall hend hbegin
  · rcases List.mem_append.mp hy with hA | hB
    · exact .inl (hsub hA)
    · exact .inr (.inr (.inr hB))
  · simp only [List.mem_append, List.mem_cons] at hy
    have hlt : i < f.offset8 := Nat.lt_of_not_le fun hle => hall ⟨hle, hend⟩
    tauto
  · simp only [List.mem_append, List.mem_cons] at hy
    have hlt := Int.lt_of_not_ge hend
    tauto
  · simp only [List.mem_append, List.mem_cons] at hy
    have hlt := Int.lt_of_not_ge hend
    have hlt' := Nat.lt_of_not_le hbegin
    tauto

/-! ## A fragment between the holes -/

/-- The fragment lies on the hole `i`, which ends at `v`, and reaches into it. -/
structure Overlaps (f : Fragment) (A : List (Nat × Nat)) (i v : Nat) (B : List (Nat × Nat)) :
    Prop where
  spaced : Spaced (A ++ (i, v) :: B)
  front : ∀ y ∈ A, y.2 < f.start
  start_le : f.start ≤ v
  lt_behind : (i : Int) < f.behind
  stop_le : f.stop ≤ ipMaxUdp
  contained : Contained f v B

theorem eight_behind (hnonneg : 0 ≤ f.len) (hunits : 8 ∣ f.len) : 8 * f.behind = f.stop := by
  obtain ⟨k, hk⟩ := hunits
  rw [Fragment.behind, Fragment.stop, Fragment.start, Int.tdiv_eq_ediv_of_nonneg hnonneg]
  omega

namespace Overlaps

variable (h : Overlaps f A i v B)

include h in
theorem stop_nonneg : 0 ≤ f.stop := by
  have := h.contained.nonneg
  unfold Fragment.stop
  omega

include h in
/-- Something of the hole is left only behind a fragment that is not the last one. -/
theorem left (hlt : f.stop < endOf f v) :
    endOf f v = v ∧ f.stop < v ∧ 8 * (f.behind.toNat : Int) = f.stop ∧ f.stop + 8 ≤ ipMaxUdp := by
  have hnonneg := h.stop_nonneg
  have hbehind := h.lt_behind
  by_cases hmore : f.more
  · rw [endOf, if_pos hmore] at hlt ⊢
    obtain ⟨hunits, hroom⟩ := h.contained.rest hmore hlt
    have := eight_behind h.contained.nonneg hunits
    exact ⟨rfl, hlt, by omega, hroom⟩
  · rw [endOf, if_neg hmore] at hlt
    omega

include h in
/-- What is left behind the fragment. -/
theorem proper_behind (hlt : f.stop < endOf f v) :
    endOf f v = v ∧ Proper (f.behind.toNat, v) ∧ i < f.behind.toNat ∧
      f.start ≤ 8 * f.behind.toNat := by
  obtain ⟨hv, hstop, hbehind, hroom⟩ := h.left hlt
  have hi := h.lt_behind
  have hlen := h.contained.nonneg
  have hfits := (h.spaced.proper (i, v) (by simp)).fits
  refine ⟨hv, ⟨?_, hfits, ?_⟩, by omega, ?_⟩
  · show 8 * f.behind.toNat < v
    omega
  · show 8 * f.behind.toNat + 8 ≤ ipMaxUdp
    omega
  · unfold Fragment.stop at hbehind
    omega

include h in
theorem spaced_cut : Spaced (cut f A i (endOf f v) B) := by
  obtain ⟨hA, hiB, hAiB⟩ := spaced_append.mp h.spaced
  obtain ⟨hi, hvB, hB⟩ := spaced_cons.mp hiB
  have hAB : ∀ x ∈ A, ∀ y ∈ B, x.2 ≤ 8 * y.1 := fun x hx y hy =>
    hAiB x hx y (List.mem_cons_of_mem _ hy)
  have hAi : ∀ x ∈ A, x.2 ≤ 8 * i := fun x hx => hAiB x hx (i, v) List.mem_cons_self
  have hstart := h.start_le
  have hfits := hi.fits
  -- What is left in front of the fragment.
  have hfront (hlt : i < f.offset8) : Proper (i, f.start) := by
    refine ⟨?_, by simp only at hfits ⊢; omega, hi.room⟩
    show 8 * i < f.offset8 * 8
    omega
  unfold cut
  split_ifs with hall hend hbegin
  · exact h.spaced.sublist ((reached_sublist A).append (List.sublist_cons_self _ _))
  · have hlt : i < f.offset8 := Nat.lt_of_not_le fun hle => hall ⟨hle, hend⟩
    have hstartB : ∀ y ∈ B, f.start ≤ 8 * y.1 := fun y hy => hstart.trans (hvB y hy)
    exact spaced_append.mpr ⟨hA, spaced_cons.mpr ⟨hfront hlt, hstartB, hB⟩,
      fun x hx => List.forall_mem_cons.mpr ⟨hAi x hx, hAB x hx⟩⟩
  · obtain ⟨hv, hnew, hmoved⟩ := h.proper_behind (Int.lt_of_not_ge hend)
    have hAn : ∀ x ∈ A, x.2 ≤ 8 * f.behind.toNat := fun x hx => by
      have := hAi x hx
      omega
    rw [hv]
    exact spaced_append.mpr ⟨hA.sublist (reached_sublist A), spaced_cons.mpr ⟨hnew, hvB, hB⟩,
      fun x hx => List.forall_mem_cons.mpr
        ⟨hAn x ((reached_sublist A).subset hx), hAB x ((reached_sublist A).subset hx)⟩⟩
  · obtain ⟨hv, hnew, hmoved, hsplit⟩ := h.proper_behind (Int.lt_of_not_ge hend)
    have hlt : i < f.offset8 := Nat.lt_of_not_le hbegin
    have hstartB : ∀ y ∈ (f.behind.toNat, v) :: B, f.start ≤ 8 * y.1 :=
      List.forall_mem_cons.mpr ⟨hsplit, fun y hy => hstart.trans (hvB y hy)⟩
    have hAn : ∀ x ∈ A, x.2 ≤ 8 * f.behind.toNat := fun x hx => by
      have := hAi x hx
      omega
    rw [hv]
    exact spaced_append.mpr ⟨hA, spaced_cons.mpr ⟨hfront hlt, hstartB,
        spaced_cons.mpr ⟨hnew, hvB, hB⟩⟩,
      fun x hx => List.forall_mem_cons.mpr
        ⟨hAi x hx, List.forall_mem_cons.mpr ⟨hAn x hx, hAB x hx⟩⟩⟩

include h in
/-- The bytes of the fragment are those of no descriptor. -/
theorem apart (hy : y ∈ cut f A i (endOf f v) B) :
    8 * y.1 + 8 ≤ f.start ∨ f.stop ≤ 8 * (y.1 : Int) := by
  rcases mem_cut hy with hA | ⟨rfl, hlt⟩ | ⟨rfl, hlt⟩ | hB
  · have hlt := (h.spaced.proper y (List.mem_append_left _ hA)).lt
    have hend := h.front y hA
    unfold Fragment.start at *
    omega
  · unfold Fragment.start
    omega
  · obtain ⟨-, -, hnew, -⟩ := h.left hlt
    exact .inr hnew.ge
  · exact .inr (h.contained.next y hB)

end Overlaps

end Lists

/-! ## The list in the buffer -/

section Buffer

variable {f : Fragment} {A B L : List (Nat × Nat)} {i v n x : Nat} {d : Defrag}
  {p p' ip : Contents} {t : Track} {s : Option Track}

/-- The holes in the buffer are those that are missing. -/
structure Holds (d : Defrag) (t : Track) : Prop where
  spaced : Spaced t.missing
  seg : Seg (holes d.pktBuff) 0 t.missing 0
  first : t.missing ≠ [] → d.firstHole = headIdx t.missing 0
  total : d.totalLen ≠ 0
  ident : word d.pktBuff 4 = t.id

/-- The state fits what is known of the datagram. -/
def Tracks (d : Defrag) : Option Track → Prop
  | some t => Holds d t
  | none => d.totalLen = 0

theorem Holds.linked (h : Holds d t) : Linked d.pktBuff t.missing :=
  ⟨h.seg, h.spaced.sorted, h.spaced.inside⟩

/-- A hole at the index 0 in front is out of reach. -/
theorem Linked.reached (hl : Linked p (A ++ (i, v) :: B)) :
    Linked p (reached A ++ (i, v) :: B) ∧ Sighted (reached A) := by
  unfold Net.reached
  split
  · rename_i hzero
    have hseg := (seg_append.mp hl.seg).2
    have hsub : (idxs ((i, v) :: B)).Sublist (idxs (A ++ (i, v) :: B)) :=
      (List.sublist_append_right A _).map _
    rw [hzero] at hseg
    exact ⟨⟨hseg, hl.sorted.sublist hsub, fun j hj => hl.inside j (hsub.subset hj)⟩,
      fun hne => absurd rfl hne⟩
  · rename_i hne
    exact ⟨hl, fun _ => hne⟩

theorem first_reached {C : List (Nat × Nat)} (hfirst : d.firstHole = headIdx (A ++ C) 0) :
    reached A ≠ [] → d.firstHole = headIdx (reached A ++ C) 0 := by
  unfold reached
  split
  · exact fun hne => absurd rfl hne
  · exact fun _ => hfirst

/-- The hole is edited as the list is. -/
theorem fixHoles_cut (hl : Linked d.pktBuff (A ++ (i, v) :: B))
    (hfirst : d.firstHole = headIdx (A ++ (i, v) :: B) 0) (hcut : Spaced (cut f A i v B))
    (hstart : f.start < 65536) :
    ∃ d', fixHoles d i f.offset8 f.behind.toNat f.stop =
        .ok (d', decide (cut f A i v B = [])) ∧ Edited d d' (cut f A i v B) := by
  have hin := hl.inside_parts.2.1
  obtain ⟨hlast, -, -⟩ := hl.getHole_eq
  obtain ⟨hreached, hsight⟩ := hl.reached
  have hsorted := hcut.sorted
  have hinside := hcut.inside
  rw [fixHoles, loadHole_eq hin, ok_bind, hlast]
  unfold cut at hsorted hinside ⊢
  split_ifs at hsorted hinside ⊢ with hall hend hbegin
  · exact removeHole_edited hreached hsight (first_reached hfirst)
  · obtain ⟨p', hmodify, hedited, -⟩ := modify_edited hl hfirst hstart
    refine ⟨_, ?_, hedited⟩
    rw [show f.offset8 * 8 = f.start from rfl, hmodify, ok_bind, decide_eq_false (by simp)]
    rfl
  · obtain ⟨d', hmove, hedited⟩ := moveHole_edited hreached hsight (first_reached hfirst)
      (hinside f.behind.toNat (by simp)) hsorted
    refine ⟨d', ?_, hedited⟩
    rw [hmove, ok_bind, decide_eq_false (by simp)]
    rfl
  · have hnew : f.behind.toNat ∉ idxs (A ++ (i, v) :: B) := by
      have hnodup := hsorted.imp Nat.ne_of_lt
      simp only [idxs_append, idxs_cons] at hnodup ⊢
      grind
    obtain ⟨d', hsplit, hedited⟩ := splitHole_edited hl hfirst
      (hinside f.behind.toNat (by simp)) hstart hnew
    refine ⟨d', ?_, hedited⟩
    rw [show f.offset8 * 8 = f.start from rfl, hsplit, ok_bind, decide_eq_false (by simp)]
    rfl

theorem copyFragment_holds (ip : Contents) (h : Overlaps f A i v B)
    (hseg : Seg (holes p) 0 (cut f A i (endOf f v) B) 0) :
    ∃ p', copyFragment p ip f.start f.len = .ok p' ∧
      Seg (holes p') 0 (cut f A i (endOf f v) B) 0 ∧ word p' 4 = word p 4 := by
  have hnonneg := h.contained.nonneg
  have hstop := h.stop_le
  have hlen : (readAt ip ipHdrSize f.len.toNat).length = f.len.toNat := length_readAt _ _ _
  have hroom : 0 ≤ f.len ∧ ipHdrSize + f.start + f.len ≤ ipPktSize := by
    unfold Fragment.stop ipMaxUdp ipPktSize ipHdrSize at *
    omega
  refine ⟨_, if_pos hroom, seg_storeAt hseg fun j hj => ?_, ident_storeAt (.inr (by omega))⟩
  obtain ⟨y, hy, rfl⟩ := List.mem_map.mp hj
  have happ := h.apart hy
  unfold Fragment.stop at happ
  omega

/-- The total length is set by the last fragment, which is not empty here. -/
theorem stop_pos (h : Overlaps f A i v B) : 0 < f.stop := by
  have hnonneg := h.contained.nonneg
  have hbehind := h.lt_behind
  unfold Fragment.behind at hbehind
  unfold Fragment.stop Fragment.start
  rw [Int.tdiv_eq_ediv_of_nonneg hnonneg] at hbehind
  omega

/-- A fragment that overlaps with a hole. -/
theorem insertFragment_overlaps (h : Holds d t) (hf : f = Fragment.ofPacket ip)
    (hL : t.missing = A ++ (i, v) :: B) (hover : Overlaps f A i v B)
    (hfind : findHole d.pktBuff f.start 65537 d.firstHole = .ok (some i)) :
    ∃ d' r, insertFragment d ip f.offset8 f.len = .ok (d', r) ∧
      Holds d' ⟨t.id, cut f A i (endOf f v) B⟩ := by
  have hl := h.linked
  have hfirst := h.first (by simp [hL])
  rw [hL] at hl hfirst
  have hpos := stop_pos hover
  have hle := hover.stop_le
  have hspaced := hover.spaced_cut
  have hsmall : f.start < 65536 := by
    have := hover.start_le
    have := (hover.spaced.proper (i, v) (by simp)).fits
    omega
  have hsmallStop : f.stop.toNat < 65536 := by
    unfold ipMaxUdp ipPktSize ipHdrSize at hle
    omega
  have hbehind : (f.offset8 : Int) + f.len.tdiv 8 = f.behind := rfl
  have hstop : (f.start : Int) + f.len = f.stop := rfl
  -- The end of the hole is set, the list is edited, and the bytes are copied.
  obtain ⟨d₁, v₁, htrunc, hl₁, hfirst₁, hsame₁, hends⟩ :=
    truncateHole_edited ip hl hfirst (x := f.stop.toNat) hsmallStop
  obtain ⟨rfl, htotal₁⟩ : v₁ = endOf f v ∧ d₁.totalLen ≠ 0 := by
    have hmore : f.more = decide (word ip 6 &&& 0x2000 ≠ 0) := by rw [hf]; rfl
    have htotal := h.total
    unfold endOf
    split at hends
    · rename_i hlast
      obtain ⟨hv, htotal'⟩ := Prod.mk.inj hends
      exact ⟨by simp [hv, hmore, hlast], by omega⟩
    · rename_i hlast
      obtain ⟨hv, htotal'⟩ := Prod.mk.inj hends
      exact ⟨by simp [hv, hmore, hlast], by omega⟩
  obtain ⟨d₂, hfix, hedited⟩ := fixHoles_cut hl₁ hfirst₁ hspaced hsmall
  obtain ⟨p, hcopy, hseg, hident⟩ := copyFragment_holds ip hover hedited.seg
  have hident : word p 4 = t.id := by
    rw [hident, hedited.same.ident, hsame₁.ident, h.ident]
  have htotal : d₂.totalLen ≠ 0 := hedited.total.symm ▸ htotal₁
  rw [insertFragment, show f.offset8 * 8 = f.start from rfl, hfind, ok_bind]
  simp only [hbehind, hstop]
  rw [if_neg (not_le.mpr hover.lt_behind), htrunc, ok_bind, hfix, ok_bind]
  simp only
  rw [hcopy, ok_bind]
  by_cases hdone : cut f A i (endOf f v) B = []
  · rw [hdone]
    refine ⟨_, _, rfl, ⟨by simp, by simp⟩, trivial, fun hne => absurd rfl hne, htotal, ?_⟩
    have hlen : (htons d₂.totalLen).length = 2 := rfl
    rw [ident_storeAt (.inl (by omega)), hident]
  · rw [decide_eq_false hdone]
    exact ⟨_, _, rfl, hspaced, hseg, hedited.first, htotal, hident⟩

/-- A harmless fragment does to the buffer what it does to the list. -/
theorem insertFragment_holds (h : Holds d t) (hf : f = Fragment.ofPacket ip)
    (hharmless : Harmless f t.missing) (hstop : f.stop ≤ ipMaxUdp) :
    ∃ d' r, insertFragment d ip f.offset8 f.len = .ok (d', r) ∧
      Holds d' ⟨t.id, refill f t.missing⟩ := by
  have hl := h.linked
  have hlen := hl.length_le
  have hfirst := h.first hharmless.ne_nil
  unfold refill
  rcases hmeet : meet f.start t.missing with _ | w
  · refine ⟨d, none, ?_, h⟩
    rw [insertFragment, show f.offset8 * 8 = f.start from rfl, hfirst,
      findHole_eq_none hharmless.ne_nil hl.seg hl.sorted hl.inside (meet_eq_none hmeet)
        (by omega), ok_bind]
    rfl
  · obtain ⟨hL, hfront, hlast⟩ := meet_eq_some hmeet
    have hfind : findHole d.pktBuff f.start 65537 d.firstHole = .ok (some w.index) := by
      rw [hfirst]
      rw [hL] at hl hlen ⊢
      simp only [List.length_append, List.length_cons] at hlen
      exact findHole_eq_some hl.seg hl.sorted hl.inside hfront hlast (by omega)
    have hbehind : (f.offset8 : Int) + f.len.tdiv 8 = f.behind := rfl
    by_cases hdup : f.behind ≤ w.index
    · refine ⟨d, none, ?_, ?_⟩
      · rw [insertFragment, show f.offset8 * 8 = f.start from rfl, hfind, ok_bind]
        simp only [hbehind, if_pos hdup]
        rfl
      · simp only [if_pos hdup]
        exact h
    · simp only [if_neg hdup]
      have hlt := Int.lt_of_not_ge hdup
      exact insertFragment_overlaps h hf hL ⟨hL ▸ h.spaced, hfront, hlast, hlt, hstop,
        hharmless.contained w hmeet hlt⟩ hfind

/-! ## The calls -/

/-- The length check leaves only fragments that end in the payload. -/
theorem stop_le_of_not_tooFar (hf : f = Fragment.ofPacket ip) (hfar : ¬ f.TooFar) :
    f.stop ≤ ipMaxUdp := by
  have hlen := word_lt ip 2
  have hoff : word ip 6 &&& 0x1fff ≤ 0x1fff := Nat.and_le_right
  have hstop : f.stop = ((word ip 6 &&& 0x1fff) * 8 : Nat) + ((word ip 2 : Int) - ipHdrSize) := by
    rw [hf]
    rfl
  unfold Fragment.TooFar at hfar
  unfold ipMaxUdp ipPktSize ipHdrSize at *
  omega

/-- The state before a fragment that does not extend too far is searched for its hole. -/
theorem resetFor_holds (h : Tracks d s) (hf : f = Fragment.ofPacket ip) :
    ∃ d', resetFor d ip = .ok d' ∧ Holds d' ⟨f.id, missingFor f s⟩ := by
  have hid : f.id = word ip 4 := by rw [hf]; rfl
  have hnew (hreset : d.totalLen = 0 ∨ word d.pktBuff 4 ≠ word ip 4) :
      ∃ d', resetFor d ip = .ok d' ∧ Holds d' ⟨f.id, [(0, 0xffff)]⟩ := by
    obtain ⟨p, hcall, hhole, hident⟩ := resetFor_new ip hreset
    have hproper : Proper (0, 0xffff) := ⟨by decide, by decide, by decide⟩
    exact ⟨_, hcall, ⟨by simpa using hproper, by simp⟩, ⟨hhole, trivial⟩, fun _ => rfl, by simp,
      hident.trans hid.symm⟩
  cases s with
  | none => exact hnew (.inl h)
  | some t =>
    unfold missingFor
    by_cases hsame : t.id = f.id
    · refine ⟨d, ?_, ?_⟩
      · rw [resetFor, if_neg]
        rintro (hzero | hne)
        · exact h.total hzero
        · exact hne (h.ident.trans (hsame.trans hid))
      · simp only [if_pos hsame]
        exact ⟨h.spaced, h.seg, h.first, h.total, h.ident.trans hsame⟩
    · simp only [if_neg hsame]
      exact hnew (.inr fun heq => hsame (h.ident.symm.trans (heq.trans hid.symm)))

/-- **One call**: a harmless fragment leaves the list of the holes in the buffer. -/
theorem netDefragment_tracks (h : Tracks d s) (hf : f = Fragment.ofPacket ip)
    (hharmless : ¬ f.TooFar → Harmless f (missingFor f s)) :
    ∃ d' r, netDefragment d ip = .ok (d', r) ∧ Tracks d' (follow s f) := by
  have hfar : f.TooFar ↔ (ipMaxUdp : Int) < ((word ip 6 &&& 0x1fff : Nat) * 8 +
      ((word ip 2 : Int) - ipHdrSize)) % 2 ^ 32 := by
    rw [hf]
    rfl
  unfold follow
  by_cases htoo : f.TooFar
  · refine ⟨d, none, ?_, ?_⟩
    · unfold netDefragment
      exact if_pos (hfar.mp htoo)
    · rw [if_pos htoo]
      exact h
  · obtain ⟨d₁, hreset, hholds⟩ := resetFor_holds h hf
    obtain ⟨d₂, r, hcall, hholds₂⟩ :=
      insertFragment_holds hholds hf (hharmless htoo) (stop_le_of_not_tooFar hf htoo)
    refine ⟨d₂, r, ?_, ?_⟩
    · rw [netDefragment, if_neg (fun hlt => htoo (hfar.mpr hlt)), hreset, ok_bind]
      subst hf
      exact hcall
    · rw [if_neg htoo]
      exact hholds₂

/-- **Every run of harmless fragments** keeps the list of the holes in the buffer. -/
theorem netDefragments_tracks {ips : List Contents} {r : Option Nat} (h : Tracks d s)
    (hrun : HarmlessRun s (ips.map Fragment.ofPacket)) :
    ∃ d' r', ips.foldlM (fun s ip => netDefragment s.1 ip) (d, r) = .ok (d', r') ∧
      Tracks d' ((ips.map Fragment.ofPacket).foldl follow s) := by
  induction ips generalizing d s r with
  | nil => exact ⟨d, r, rfl, h⟩
  | cons ip ips ih =>
    obtain ⟨hharmless, hrest⟩ := hrun
    obtain ⟨d₁, r₁, hcall, h₁⟩ := netDefragment_tracks h rfl hharmless
    obtain ⟨d', r', hcalls, h'⟩ := ih (r := r₁) h₁ hrest
    exact ⟨d', r', by rw [List.foldlM_cons, hcall, ok_bind, hcalls], h'⟩

end Buffer

/-- **No call leaves the buffer** in a run of harmless fragments. -/
theorem netDefragments_inside {ips : List Contents}
    (h : HarmlessRun none (ips.map Fragment.ofPacket)) :
    ∃ d r, netDefragments .start ips = .ok (d, r) := by
  obtain ⟨d, r, hcalls, -⟩ := netDefragments_tracks (d := .start) (s := none) (r := none) rfl h
  exact ⟨d, r, hcalls⟩

/-- Three fragments, the last one first and the first one twice. -/
theorem netDefragments_inside_threeFragments :
    ∃ d r, netDefragments .start ([2, 0, 0, 1].map
      (smallDatagram 24 3 (by decide) (by decide) (by decide)).packet) = .ok (d, r) :=
  netDefragments_inside (by decide)

/-- A packet that is shorter than its header, one unit behind the beginning. -/
theorem netDefragments_leaves :
    ¬ ∀ ips : List Contents, ∃ d r, netDefragments .start ips = .ok (d, r) := by
  intro h
  obtain ⟨ip, hip⟩ : ∃ ip : Contents, ip = fun i =>
    ([0x45, 0] ++ htons 19 ++ htons 7 ++ htons 0x2001).getD i 0 := ⟨_, rfl⟩
  obtain ⟨d, r, hcall⟩ := h [ip]
  have herror : (netDefragments .start [ip]).map Prod.snd = .error (.store 28) := by
    subst hip
    decide
  rw [hcall] at herror
  cases herror

end UBoot.Net
