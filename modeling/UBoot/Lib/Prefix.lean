import UBoot.Lib.Memory

/-!
# The longest common prefix

`commonPrefix` is the longest common prefix of two lists and `lcp` that of a list of lists.

`commonLen` is the loop that compares two strings in memory up to the first byte that is different,
and `commonLen_eq` says that it finds the length of the common prefix and stops at a terminator.
-/

namespace UBoot.Lib

section CommonPrefix

variable {α : Type}

/-- `p` is a prefix of all the lists, and every other one is a prefix of it. -/
structure IsLcp (ls : List (List α)) (p : List α) : Prop where
  common : ∀ l ∈ ls, p <+: l
  longest : ∀ q, (∀ l ∈ ls, q <+: l) → q <+: p

theorem IsLcp.unique {ls : List (List α)} {p q : List α} (hp : IsLcp ls p) (hq : IsLcp ls q) :
    p = q := by
  have hpq := hq.longest p hp.common
  have hqp := hp.longest q hq.common
  exact hpq.eq_of_length (Nat.le_antisymm hpq.length_le hqp.length_le)

variable [DecidableEq α]

def commonPrefix : List α → List α → List α
  | a :: l, b :: r => if a = b then a :: commonPrefix l r else []
  | _, _ => []

theorem commonPrefix_left (l r : List α) : commonPrefix l r <+: l := by
  induction l generalizing r with
  | nil => exact List.nil_prefix
  | cons a l ih =>
    cases r with
    | nil => exact List.nil_prefix
    | cons b r =>
      rw [commonPrefix]
      split
      · exact List.cons_prefix_cons.mpr ⟨rfl, ih r⟩
      · exact List.nil_prefix

theorem commonPrefix_right (l r : List α) : commonPrefix l r <+: r := by
  induction l generalizing r with
  | nil => exact List.nil_prefix
  | cons a l ih =>
    cases r with
    | nil => exact List.nil_prefix
    | cons b r =>
      rw [commonPrefix]
      split
      · rename_i hab
        exact List.cons_prefix_cons.mpr ⟨hab, ih r⟩
      · exact List.nil_prefix

theorem prefix_commonPrefix {p l r : List α} (hl : p <+: l) (hr : p <+: r) :
    p <+: commonPrefix l r := by
  induction p generalizing l r with
  | nil => exact List.nil_prefix
  | cons a p ih =>
    obtain ⟨l, rfl⟩ := hl
    obtain ⟨r, rfl⟩ := hr
    rw [List.cons_append, List.cons_append, commonPrefix, if_pos rfl]
    exact List.cons_prefix_cons.mpr
      ⟨rfl, ih (List.prefix_append p l) (List.prefix_append p r)⟩

/-- The longest common prefix of some lists. -/
def lcp : List (List α) → List α
  | [] => []
  | a :: ls => ls.foldl commonPrefix a

theorem foldl_commonPrefix_prefix (a : List α) (ls : List (List α)) :
    ls.foldl commonPrefix a <+: a := by
  induction ls generalizing a with
  | nil => exact List.prefix_refl a
  | cons l ls ih => exact (ih _).trans (commonPrefix_left a l)

theorem isLcp_foldl (a : List α) (ls : List (List α)) :
    IsLcp (a :: ls) (ls.foldl commonPrefix a) := by
  induction ls generalizing a with
  | nil =>
    refine ⟨?_, fun q hq => hq a List.mem_cons_self⟩
    intro l hl
    rw [List.mem_singleton.mp hl]
    exact List.prefix_refl a
  | cons b ls ih =>
    obtain ⟨hcommon, hlongest⟩ := ih (commonPrefix a b)
    have hhead := hcommon _ List.mem_cons_self
    refine ⟨?_, ?_⟩
    · intro l hl
      rcases List.mem_cons.mp hl with rfl | hl
      · exact hhead.trans (commonPrefix_left _ b)
      rcases List.mem_cons.mp hl with rfl | hl
      · exact hhead.trans (commonPrefix_right a _)
      · exact hcommon l (List.mem_cons_of_mem _ hl)
    · intro q hq
      refine hlongest q fun l hl => ?_
      rcases List.mem_cons.mp hl with rfl | hl
      · exact prefix_commonPrefix (hq a List.mem_cons_self)
          (hq b (List.mem_cons_of_mem _ List.mem_cons_self))
      · exact hq l (List.mem_cons_of_mem _ (List.mem_cons_of_mem _ hl))

theorem isLcp_lcp {ls : List (List α)} (hne : ls ≠ []) : IsLcp ls (lcp ls) := by
  obtain ⟨a, ls, rfl⟩ := List.exists_cons_of_ne_nil hne
  exact isLcp_foldl a ls

end CommonPrefix

/-! ## Comparing in memory -/

/-- `for (i = 0; i < len; i++, t++, s++) if (*t != *s) break;` for `left` more bytes. -/
def commonLen (s t : Bytes) : Nat → Nat → Exec Nat
  | 0, i => .ok i
  | left + 1, i => do
    if (← load t i) ≠ (← load s i) then return i
    commonLen s t left (i + 1)

/-- The loop finds the common prefix of a string and what is there of another one. -/
theorem commonLen_cut {Q : Bytes} : ∀ {a b P R : Bytes} {i : Nat}, 0 ∉ a → i = P.length →
    i = R.length → commonLen (P ++ (a ++ Q)) (R ++ (b ++ [0])) a.length i =
      .ok (i + (commonPrefix a b).length) := by
  intro a
  induction a with
  | nil =>
    intro b P R i _ _ _
    rfl
  | cons c a ih =>
    intro b P R i h0 hP hR
    have hc : c ≠ 0 := fun h => h0 (h ▸ List.mem_cons_self)
    have ha : 0 ∉ a := fun h => h0 (List.mem_cons_of_mem _ h)
    have hs : load (P ++ (c :: a ++ Q)) i = .ok c := load_cut hP
    cases b with
    | nil =>
      -- the terminator is the first byte that is different
      have ht : load (R ++ ([] ++ [0])) i = .ok 0 := load_cut hR
      rw [List.length_cons, commonLen, ht, ok_bind, hs, ok_bind, if_pos (Ne.symm hc)]
      rfl
    | cons d b =>
      have ht : load (R ++ (d :: b ++ [0])) i = .ok d := load_cut hR
      rw [List.length_cons, commonLen, ht, ok_bind, hs, ok_bind, commonPrefix]
      by_cases hcd : c = d
      · subst hcd
        rw [if_neg (fun h => h rfl), if_pos rfl]
        have hrec := ih (b := b) (P := P ++ [c]) (R := R ++ [c]) (i := i + 1) ha (by simp [hP])
          (by simp [hR])
        rw [List.append_assoc, List.append_assoc, List.singleton_append, List.singleton_append]
          at hrec
        refine hrec.trans ?_
        rw [List.length_cons]
        congr 1
        omega
      · rw [if_pos (Ne.symm hcd), if_neg hcd]
        rfl

/-- The same from the start of two strings, for the first bytes of one of them. -/
theorem commonLen_eq {p anchor t : Bytes} (hp : p <+: anchor) (h0 : 0 ∉ anchor) :
    commonLen (anchor ++ [0]) (t ++ [0]) p.length 0 = .ok (commonPrefix p t).length := by
  obtain ⟨rest, rfl⟩ := hp
  have h := @commonLen_cut (rest ++ [0]) p t [] [] 0
    (fun h => h0 (List.mem_append_left _ h)) rfl rfl
  rw [List.nil_append, List.nil_append, ← List.append_assoc, Nat.zero_add] at h
  exact h

end UBoot.Lib
