import UBoot.Lib.Words
import UBoot.Net.Nfs

/-!
# Paths in `nfs_path_buff`

`basename` and `dirname` of `net/nfs.c` work on the characters of the path, and here on the buffer:
`basename` walks back from the terminator and may end up in front of the path, and `dirname` cuts
the path where its name begins.  `nfs_readlink_reply` appends a relative target to what has been
cut.  The names are right for exactly the paths with a slash behind their first character
(`nfsNames_right_iff`); the others are cut in front of the buffer, or at a root that is then empty.
-/

namespace UBoot.Net

open UBoot.Lib UBoot.LibGeneric

/-! ## The code -/

/-- `'/'` -/
def slash : UInt8 := 0x2F

/-- `strlen` -/
def pathLen (m : Bytes) (i : Nat) : Exec Nat := do
  match ← scanNul m (fun _ => false) (m.length + 1) i with
  | some stop => return stop - i
  | none => return 0

/-- The loop of `basename` with so many characters of the path in front of the pointer. -/
def basenameLoop (m : Bytes) (path : Nat) : Nat → Exec Int
  | 0 => return (path : Int) - 1
  | n + 1 => do
    if (← load m (path + n)) = slash then return path + n + 1 else basenameLoop m path n

/-- `basename`: the result can be in front of the path. -/
def basenamePtr (m : Bytes) (path : Nat) : Exec Int := do basenameLoop m path (← pathLen m path)

/-- `*p = c` -/
def storePtr (m : Bytes) (p : Int) (c : UInt8) : Exec Bytes :=
  if p < 0 then .error (.store 0) else store m p.toNat c

/-- `dirname`, which returns its argument. -/
def dirnamePtr (m : Bytes) (path : Nat) : Exec Bytes := do
  let fname ← basenamePtr m path
  storePtr m (fname - 1) 0

/-- `nfs_filename = basename (nfs_path); nfs_path = dirname (nfs_path);` for a path at the start of
`nfs_path_buff`. -/
def nfsNames (m : Bytes) : Exec (Int × Bytes) := do
  let filename ← basenamePtr m 0
  return (filename, ← dirnamePtr m 0)

/-- What `nfs_readlink_reply` does with the `rlen` bytes of the target in `rpc_pkt`. -/
def readlinkPath (m : Bytes) (p : Contents) (rlen : Nat) : Exec Bytes := do
  if p 32 ≠ slash then
    let (m, _) ← storeStr m (← pathLen m 0) [slash]
    let (m, _) ← storeStr m (← pathLen m 0) (readAt p 32 rlen)
    return m
  else
    let (m, _) ← storeStr m 0 (readAt p 32 rlen)
    return m

/-! ## What the names are for -/

/-- The part of a path behind its last slash. -/
def nameOf (s : Bytes) : Bytes := (s.reverse.takeWhile (· ≠ slash)).reverse

/-- The part in front of the last slash; the root keeps its name, and a path without a slash is in
the current directory. -/
def IsDirOf (s d : Bytes) : Prop :=
  if slash ∈ s then
    let front := (s.reverse.dropWhile (· ≠ slash)).tail.reverse
    d = if front = [] then [slash] else front
  else d = [] ∨ d = [0x2E]

/-- The pair of calls finds the name and the directory of the path `s` in the buffer, and writes
nothing behind the path. -/
def NamesRight (m s : Bytes) : Prop :=
  ∃ filename m', nfsNames m = .ok (filename, m') ∧ 0 ≤ filename ∧
    PointsTo m' filename.toNat (nameOf s) ∧ (∃ d, PointsTo m' 0 d ∧ IsDirOf s d) ∧
    m'.drop s.length = m.drop s.length

/-- The path that a link in the directory `d` leads to. -/
def linkTo (d target : Bytes) : Bytes :=
  if target.head? = some slash then target else d ++ slash :: target

section Names

variable {m s d f : Bytes} {i : Nat}

theorem pointsTo_zero (h : PointsTo m 0 s) : ∃ rest, m = s ++ 0 :: rest := by
  obtain ⟨P, Q, rfl, hP⟩ := h
  rw [List.length_eq_zero_iff.mp hP, List.nil_append]
  exact ⟨Q, rfl⟩

theorem pathLen_cut {rest : Bytes} (h0 : 0 ∉ s) : pathLen (s ++ 0 :: rest) 0 = .ok s.length := by
  have hscan : scanNul ([] ++ (s ++ 0 :: rest)) (fun _ => false) ((s ++ 0 :: rest).length + 1) 0 =
      .ok (some (0 + s.length)) :=
    scanNul_cut h0 rfl (by simp only [List.length_append, List.length_cons]; omega)
      fun _ _ => rfl
  rw [List.nil_append] at hscan
  rw [pathLen, hscan, ok_bind]
  simp only [Nat.zero_add, Nat.sub_zero]
  rfl

/-- The characters behind the last slash are walked over. -/
theorem basenameLoop_behind (front : Bytes) (hf : slash ∉ f) :
    ∀ rest, basenameLoop (front ++ (f ++ rest)) 0 (front.length + f.length) =
      basenameLoop (front ++ (f ++ rest)) 0 front.length := by
  induction f using List.reverseRecOn with
  | nil => intro rest; rfl
  | append_singleton f c ih =>
    intro rest
    have hne : c ≠ slash := by
      rintro rfl
      exact hf (List.mem_append_right _ List.mem_cons_self)
    have hrest := ih (fun h => hf (List.mem_append_left _ h)) ([c] ++ rest)
    have hload : load (front ++ (f ++ ([c] ++ rest))) (0 + (front.length + f.length)) = .ok c := by
      rw [← List.append_assoc]
      exact load_cut (by rw [List.length_append, Nat.zero_add])
    rw [List.append_assoc, List.length_append, List.length_singleton, ← Nat.add_assoc,
      basenameLoop, hload, ok_bind, if_neg hne]
    exact hrest

/-- The name begins behind the last slash. -/
theorem basenamePtr_slash {rest : Bytes} (h0 : 0 ∉ d ++ slash :: f) (hf : slash ∉ f) :
    basenamePtr (d ++ slash :: f ++ 0 :: rest) 0 = .ok (d.length + 1 : Int) := by
  have hwalk := basenameLoop_behind (d ++ [slash]) hf (0 :: rest)
  have hload : load (d ++ slash :: (f ++ 0 :: rest)) (0 + d.length) = .ok slash :=
    load_cut (Nat.zero_add _)
  have hm : d ++ [slash] ++ (f ++ 0 :: rest) = d ++ slash :: f ++ 0 :: rest := by simp
  have hm' : d ++ [slash] ++ (f ++ 0 :: rest) = d ++ slash :: (f ++ 0 :: rest) := by simp
  have hlen : (d ++ [slash]).length + f.length = (d ++ slash :: f).length := by
    simp only [List.length_append, List.length_cons, List.length_nil]
    omega
  rw [basenamePtr, pathLen_cut h0, ok_bind, ← hm, ← hlen, hwalk, List.length_append,
    List.length_singleton, basenameLoop, hm', hload, ok_bind, if_pos rfl]
  exact congrArg Except.ok (by omega)

/-- Without a slash the pointer ends up in front of the path. -/
theorem basenamePtr_noSlash {rest : Bytes} (h0 : 0 ∉ s) (hs : slash ∉ s) :
    basenamePtr (s ++ 0 :: rest) 0 = .ok (-1) := by
  have hwalk := basenameLoop_behind [] hs (0 :: rest)
  rw [List.nil_append, List.length_nil, Nat.zero_add] at hwalk
  rw [basenamePtr, pathLen_cut h0, ok_bind, hwalk]
  rfl

/-- The pair of calls cuts the path at its last slash. -/
theorem nfsNames_slash {rest : Bytes} (h0 : 0 ∉ d ++ slash :: f) (hf : slash ∉ f) :
    nfsNames (d ++ slash :: f ++ 0 :: rest) =
      .ok ((d.length + 1 : Int), d ++ 0 :: (f ++ 0 :: rest)) := by
  have hcut : d ++ slash :: f ++ 0 :: rest = d ++ slash :: (f ++ 0 :: rest) := by simp
  have hstore : storePtr (d ++ slash :: f ++ 0 :: rest) ((d.length + 1 : Int) - 1) 0 =
      .ok (d ++ 0 :: (f ++ 0 :: rest)) := by
    have hpos : ¬ (d.length + 1 : Int) - 1 < 0 := by omega
    have hat : ((d.length + 1 : Int) - 1).toNat = d.length := by omega
    rw [storePtr, if_neg hpos, hat, hcut]
    exact store_cut rfl
  rw [nfsNames, basenamePtr_slash h0 hf, ok_bind, dirnamePtr, basenamePtr_slash h0 hf, ok_bind,
    hstore]
  rfl

/-- A path without a slash is cut two bytes in front of the buffer. -/
theorem nfsNames_noSlash {rest : Bytes} (h0 : 0 ∉ s) (hs : slash ∉ s) :
    nfsNames (s ++ 0 :: rest) = .error (.store 0) := by
  rw [nfsNames, basenamePtr_noSlash h0 hs, ok_bind, dirnamePtr, basenamePtr_noSlash h0 hs]
  rfl

/-! ## The last slash -/

theorem exists_lastSlash (h : slash ∈ s) : ∃ d f, s = d ++ slash :: f ∧ slash ∉ f := by
  obtain ⟨f, d, hs, hf⟩ := List.eq_append_cons_of_mem (List.mem_reverse.mpr h)
  refine ⟨d.reverse, f.reverse, ?_, by simpa using hf⟩
  have hback := congrArg List.reverse hs
  simpa using hback

theorem takeWhile_lastSlash (hf : slash ∉ f) :
    ((d ++ slash :: f).reverse.takeWhile (· ≠ slash)).reverse = f := by
  have hall : ∀ x ∈ f.reverse, decide (x ≠ slash) = true := by
    intro x hx
    exact decide_eq_true fun h => hf (h ▸ List.mem_reverse.mp hx)
  rw [List.reverse_append, List.reverse_cons, List.append_assoc, List.takeWhile_append_of_pos hall]
  simp

theorem dropWhile_lastSlash (hf : slash ∉ f) :
    ((d ++ slash :: f).reverse.dropWhile (· ≠ slash)).tail.reverse = d := by
  have hall : ∀ x ∈ f.reverse, decide (x ≠ slash) = true := by
    intro x hx
    exact decide_eq_true fun h => hf (h ▸ List.mem_reverse.mp hx)
  rw [List.reverse_append, List.reverse_cons, List.append_assoc, List.dropWhile_append_of_pos hall]
  simp

theorem nameOf_slash (hf : slash ∉ f) : nameOf (d ++ slash :: f) = f := takeWhile_lastSlash hf

theorem isDirOf_slash {e : Bytes} (hf : slash ∉ f) :
    IsDirOf (d ++ slash :: f) e ↔ e = if d = [] then [slash] else d := by
  rw [IsDirOf, if_pos (List.mem_append_right _ List.mem_cons_self), dropWhile_lastSlash hf]

/-- The string at an index is one. -/
theorem pointsTo_inj {j : Nat} {a b : Bytes} (ha : PointsTo m j a) (hb : PointsTo m j b)
    (ha0 : 0 ∉ a) (hb0 : 0 ∉ b) : a = b := by
  obtain ⟨P, Q, rfl, hP⟩ := ha
  obtain ⟨P', Q', heq, hP'⟩ := hb
  have hcut := (List.append_inj heq (hP.trans hP'.symm)).2
  have hstr := congrArg cstr hcut
  rwa [cstr_append ha0, cstr_append hb0] at hstr

/-- The names are right for the paths with a slash behind the first character. -/
theorem namesRight_iff (hm : PointsTo m 0 s) (h0 : 0 ∉ s) : NamesRight m s ↔ slash ∈ s.tail := by
  obtain ⟨rest, rfl⟩ := pointsTo_zero hm
  by_cases hs : slash ∈ s
  · obtain ⟨d, f, rfl, hf⟩ := exists_lastSlash hs
    have htail : slash ∈ (d ++ slash :: f).tail ↔ d ≠ [] := by
      cases d with
      | nil => simpa using hf
      | cons c d => simp
    rw [htail, NamesRight, nfsNames_slash h0 hf, nameOf_slash hf]
    constructor
    · rintro ⟨filename, m', heq, -, -, ⟨e, he, hdir⟩, -⟩ rfl
      cases heq
      rw [isDirOf_slash hf, if_pos rfl] at hdir
      have hempty : PointsTo ([] ++ 0 :: (f ++ 0 :: rest)) 0 [] := ⟨[], _, rfl, rfl⟩
      have hroot := pointsTo_inj he hempty (by rw [hdir]; decide) (by simp)
      rw [hdir] at hroot
      cases hroot
    · intro hd
      refine ⟨_, _, rfl, by omega, ⟨d ++ [0], rest, by simp, ?_⟩,
        ⟨d, ⟨[], _, rfl, rfl⟩, ?_⟩, ?_⟩
      · rw [List.length_append, List.length_singleton]
        omega
      · rw [isDirOf_slash hf, if_neg hd]
      · have hlen : (d ++ slash :: f).length = (d ++ 0 :: f).length := by simp
        have hnew : d ++ 0 :: (f ++ 0 :: rest) = d ++ 0 :: f ++ 0 :: rest := by simp
        rw [List.drop_left, hlen, hnew, List.drop_left]
  · have htail : slash ∉ s.tail := fun h => hs (List.mem_of_mem_tail h)
    refine ⟨?_, fun h => absurd h htail⟩
    rintro ⟨filename, m', heq, -⟩
    rw [nfsNames_noSlash h0 hs] at heq
    cases heq

/-! ## Links -/

/-- The target is put behind the directory, or in its place. -/
theorem readlinkPath_linkTo {p : Contents} {target : Bytes} (hm : PointsTo m 0 d) (h0 : 0 ∉ d)
    (hne : target ≠ []) (hp : readAt p 32 target.length = target)
    (hfits : (linkTo d target).length < m.length) :
    ∃ m', readlinkPath m p target.length = .ok m' ∧ PointsTo m' 0 (linkTo d target) := by
  obtain ⟨rest, rfl⟩ := pointsTo_zero hm
  obtain ⟨c, target, rfl⟩ := List.exists_cons_of_ne_nil hne
  have hfirst : p 32 = c := by
    rw [List.length_cons, readAt, List.range'_succ, List.map_cons] at hp
    exact (List.cons.inj hp).1
  rw [readlinkPath, hp, hfirst]
  by_cases hc : c = slash
  · have habs : linkTo d (c :: target) = c :: target := by
      rw [linkTo, List.head?_cons, hc, if_pos rfl]
    rw [habs] at hfits ⊢
    obtain ⟨rest', hstore, -⟩ := storeStr_zero hfits
    rw [if_neg (not_not.mpr hc), hstore]
    exact ⟨_, rfl, [], rest', rfl, rfl⟩
  · have hrel : linkTo d (c :: target) = d ++ slash :: c :: target := by
      rw [linkTo, List.head?_cons, if_neg fun h => hc (Option.some.inj h)]
    rw [hrel] at hfits ⊢
    simp only [List.length_append, List.length_cons] at hfits
    obtain ⟨r, rest, rfl⟩ : ∃ r rest', rest = r :: rest' := by
      cases rest with
      | nil => simp only [List.length_nil] at hfits; omega
      | cons r rest => exact ⟨r, rest, rfl⟩
    simp only [List.length_cons] at hfits
    obtain ⟨old, rest, rfl, hlen⟩ :=
      exists_split (m := rest) (n := (c :: target).length) (by
        simp only [List.length_cons]
        omega)
    -- `strcat (nfs_path, "/")`, and then the target behind it.
    have hcat : storeStr (d ++ 0 :: r :: (old ++ rest)) d.length [slash] =
        .ok (d ++ [slash] ++ 0 :: (old ++ rest), d.length + 1) := by
      have hcut : storeStr (d ++ ([0, r] ++ (old ++ rest))) d.length [slash] =
          .ok (d ++ ([slash] ++ 0 :: (old ++ rest)), d.length + [slash].length) :=
        storeStr_cut rfl rfl
      simpa using hcut
    have h0' : 0 ∉ d ++ [slash] := by
      rw [List.mem_append, List.mem_singleton]
      rintro (h | h)
      · exact h0 h
      · cases h
    have hcopy : storeStr (d ++ [slash] ++ 0 :: (old ++ rest)) (d ++ [slash]).length
        (c :: target) = .ok (d ++ [slash] ++ (c :: target ++ 0 :: rest),
          (d ++ [slash]).length + (c :: target).length) := by
      have hcut : storeStr (d ++ [slash] ++ (0 :: old ++ rest)) (d ++ [slash]).length
          (c :: target) = .ok (d ++ [slash] ++ (c :: target ++ 0 :: rest),
            (d ++ [slash]).length + (c :: target).length) :=
        storeStr_cut rfl (by rw [List.length_cons, hlen])
      simpa using hcut
    rw [if_pos hc, pathLen_cut h0, ok_bind, hcat, ok_bind]
    simp only []
    rw [pathLen_cut h0', ok_bind, hcopy]
    exact ⟨_, rfl, [], rest, by simp, rfl⟩

end Names

/-- **The names are right** for exactly the paths with a slash behind their first character, be it
the path of the boot file or one that a link leads to. -/
theorem nfsNames_right_iff {m path d target : Bytes} {p : Contents} (hpath : 0 ∉ path)
    (hfits : path.length < m.length) (hd : PointsTo m 0 d) (hd0 : 0 ∉ d) (hne : target ≠ [])
    (ht0 : 0 ∉ target) (hp : readAt p 32 target.length = target)
    (hfits' : (linkTo d target).length < m.length) :
    (∃ m₁ i, storeStr m 0 path = .ok (m₁, i) ∧ (NamesRight m₁ path ↔ slash ∈ path.tail)) ∧
      ∃ m₂, readlinkPath m p target.length = .ok m₂ ∧ PointsTo m₂ 0 (linkTo d target) ∧
        (NamesRight m₂ (linkTo d target) ↔ slash ∈ (linkTo d target).tail) := by
  constructor
  · obtain ⟨rest, hstore, -⟩ := storeStr_zero hfits
    exact ⟨_, _, hstore, namesRight_iff ⟨[], rest, rfl, rfl⟩ hpath⟩
  · obtain ⟨m₂, hlink, hto⟩ := readlinkPath_linkTo hd hd0 hne hp hfits'
    refine ⟨m₂, hlink, hto, namesRight_iff hto ?_⟩
    rw [linkTo]
    split
    · exact ht0
    · rw [List.mem_append, List.mem_cons]
      rintro (h | h | h)
      · exact hd0 h
      · cases h
      · exact ht0 h

/-- `nfs_path_buff` with a path in it. -/
def pathBuff (s : Bytes) : Bytes := s ++ 0 :: List.replicate (sizeofPathBuff - s.length - 1) 0

/-- A boot file of the server, and the link `initrd` in the directory `/srv`. -/
theorem nfsNames_right_srv :
    (∃ m₁ i, storeStr (pathBuff (str "/srv")) 0 (str "/srv/kernel") = .ok (m₁, i) ∧
        (NamesRight m₁ (str "/srv/kernel") ↔ slash ∈ (str "/srv/kernel").tail)) ∧
      ∃ m₂, readlinkPath (pathBuff (str "/srv"))
          (storeAt (fun _ => 0) 32 (str "initrd")) (str "initrd").length = .ok m₂ ∧
        PointsTo m₂ 0 (linkTo (str "/srv") (str "initrd")) ∧
        (NamesRight m₂ (linkTo (str "/srv") (str "initrd")) ↔
          slash ∈ (linkTo (str "/srv") (str "initrd")).tail) :=
  nfsNames_right_iff (by decide) (by decide +kernel) ⟨[], _, rfl, rfl⟩ (by decide) (by decide)
    (by decide) (readAt_storeAt _ _ _) (by decide +kernel)

/-- The path `kernel` is cut two bytes in front of the buffer. -/
theorem nfsNames_noSlash_wrong :
    ¬ ∀ m path : Bytes, 0 ∉ path → path.length < m.length →
      ∃ m₁ i, storeStr m 0 path = .ok (m₁, i) ∧ NamesRight m₁ path := by
  intro h
  obtain ⟨m₁, i, hstore, hright⟩ :=
    h (pathBuff (str "/srv")) (str "kernel") (by decide) (by decide +kernel)
  obtain ⟨rest, hcopy, -⟩ := storeStr_zero (m := pathBuff (str "/srv")) (s := str "kernel")
    (by decide +kernel)
  rw [hcopy] at hstore
  cases hstore
  have hpath : PointsTo (str "kernel" ++ 0 :: rest) 0 (str "kernel") := ⟨[], rest, rfl, rfl⟩
  have hslash := (namesRight_iff hpath (by decide)).mp hright
  revert hslash
  decide

end UBoot.Net
