import Mathlib.Data.List.GetD
import UBoot.Fs.Jffs2Lookup
import UBoot.Lib.Newest
import UBoot.Lib.Scratch

/-!
# Paths in a JFFS2

`jffs2_1pass_search_inode` and `jffs2_1pass_resolve_inode` of `fs/jffs2/jffs2_1pass.c`.  A path is
copied to `tmp`, whose first component moves to `working_tmp` until no slash is left; the target of
a link is copied to another `tmp`.  Nothing compares a length with that of an array.

* `linkFits_iff`: the loops of the second function find the newest entry of an inode and its first
  node.
* `pathsRight_iff`: the arrays are large enough and set before they are read for exactly the paths
  of at most 255 characters behind their leading slashes, and the links that have a target which is
  at most that long.
-/

namespace UBoot.Fs.Jffs2

open UBoot.Lib UBoot.LibGeneric

/-- `'/'` -/
def slash : UInt8 := 0x2F

/-- `sizeof(tmp)` and `sizeof(working_tmp)` -/
def tmpSize : Nat := 256

/-- `DT_LNK` -/
def dtLnk : Nat := 10

/-- `type` of `struct jffs2_raw_dirent`. -/
def direntType (node : Mem) : Nat := (node 29).toNat

/-! ## The code -/

/-- `for (i = 0; i < strlen(c) - 1; i++) tmp[i] = c[i + 1];` with `c` at an index of `tmp`. -/
def moveLoop (c : Nat) : Nat → Cells → Nat → Exec (Cells × Nat)
  | 0, _, _ => .error .steps
  | fuel + 1, tmp, i => do
    let s ← cellsStr tmp (tmp.length + 1) c
    if i < ulong (s.length + (2 ^ 32 - 1)) then
      let x ← loadCell tmp (c + (i + 1))
      moveLoop c fuel (← storeCell tmp i x) (i + 1)
    else return (tmp, i)

section Search

variable {σ : Type} (find : σ → Bytes → Nat → Nat × σ)

/-- The loop of `jffs2_1pass_search_inode` and what follows it, with the state that
`jffs2_1pass_find_inode` leaves. -/
def searchLoop : Nat → Cells → Cells → σ → Nat → Exec (Nat × σ)
  | 0, _, _, _, _ => .error .steps
  | fuel + 1, tmp, workingTmp, s, pino => do
    match ← strchrCells tmp slash (tmp.length + 1) 0 with
    | none => return find s (← cellsStr tmp (tmp.length + 1) 0) pino
    | some c =>
      let workingTmp ← strncpyCells (loadCell tmp) workingTmp 0 c
      let workingTmp ← storeCell workingTmp c 0
      let (tmp, i) ← moveLoop c (tmp.length + 1) tmp 0
      let tmp ← storeCell tmp i 0
      let (ino, s) := find s (← cellsStr workingTmp (workingTmp.length + 1) 0) pino
      if ino = 0 then return (0, s) else searchLoop fuel tmp workingTmp s ino

/-- `jffs2_1pass_search_inode` -/
def searchInode (s : σ) (fname : Bytes) (pino : Nat) : Exec (Nat × σ) := do
  let tmp ← strcpyCells (.fresh tmpSize) 0 (fname.dropWhile (· = slash))
  searchLoop find tmpSize tmp (.fresh tmpSize) s pino

/-- One component after the other, up to the first that is not found. -/
def foldFind : σ → Nat → List Bytes → Nat × σ
  | s, pino, [] => (pino, s)
  | s, pino, name :: names =>
    let (ino, s) := find s name pino
    if ino = 0 then (0, s) else foldFind s ino names

end Search

/-- A node read to `pL->readbuf`. -/
def Lists.read (pL : Lists) (b : BNode) : Mem × Lists :=
  let node := getNodeMem pL.type pL.flash b.offset pL.readbuf (pL.heap b.offset)
  (node, { pL with readbuf := keepBuf pL.readbuf node })

/-- `jffs2_1pass_find_inode`, which reads every node of the list. -/
def findInode (dirs : List BNode) (pL : Lists) (name : Bytes) (pino : Nat) : Nat × Lists :=
  (jffs21passFindInode pL dirs name pino, dirs.foldl (fun pL b => (pL.read b).2) pL)

def jffs21passSearchInode (pL : Lists) (dirs : List BNode) (fname : Bytes) (pino : Nat) :
    Exec (Nat × Lists) :=
  searchInode (findInode dirs) pL fname pino

/-- `jDirFoundType`, `jDirFoundIno`, `jDirFoundPino` and `version`. -/
structure FoundDir where
  type : Nat
  ino : Nat
  pino : Nat
  version : Nat
  deriving DecidableEq, Repr

/-- The loop of `jffs2_1pass_resolve_inode` over the directory entries. -/
def resolveLoop (ino : Nat) : Lists → List BNode → FoundDir → FoundDir × Lists
  | pL, [], found => (found, pL)
  | pL, b :: dirs, found =>
    let (jDir, pL) := pL.read b
    if ino = direntIno jDir then
      if direntVersion jDir < found.version then resolveLoop ino pL dirs found
      else resolveLoop ino pL dirs
        ⟨direntType jDir, direntIno jDir, direntPino jDir, direntVersion jDir⟩
    else resolveLoop ino pL dirs found

/-- The loop over the fragments, up to the first one of the inode. -/
def linkLoop (ino : Nat) : Lists → List BNode → Option Mem × Lists
  | pL, [] => (none, pL)
  | pL, b :: frags =>
    let (jNode, pL) := pL.read b
    if inodeIno jNode = ino then (some jNode, pL) else linkLoop ino pL frags

/-- `tmp` behind the loop over the fragments. -/
def linkTmp (link : Option Mem) : Exec Cells :=
  match link with
  | none => .ok (.fresh tmpSize)
  | some jNode => do
    let dsize := inodeDsize jNode
    let tmp ← strncpyCells (fun i => .ok (jNode (sizeofRawInode + i))) (.fresh tmpSize) 0 dsize
    storeCell tmp dsize 0

/-- `jffs2_1pass_resolve_inode` -/
def jffs21passResolveInode (pL : Lists) (dirs frags : List BNode) (ino : Nat) :
    Exec (Nat × Lists) := do
  let (found, pL) := resolveLoop ino pL dirs ⟨0, 0, 0, 0⟩
  if found.type ≠ dtLnk then return (found.ino, pL)
  else
    let (link, pL) := linkLoop found.ino pL frags
    let tmp ← linkTmp link
    let first ← loadCell tmp 0
    let pino := if first = slash then 1 else found.pino
    jffs21passSearchInode pL dirs (← cellsStr tmp (tmp.length + 1) 0) pino

/-! ## What is to be shown -/

/-- Components with slashes in front of the first one and one between two of them. -/
structure IsPath (path : Bytes) (names : List Bytes) : Prop where
  ne_nil : names ≠ []
  name_ne_nil : ∀ name ∈ names, name ≠ []
  slash_notMem : ∀ name ∈ names, slash ∉ name
  path_eq : ∃ k, path = List.replicate k slash ++ [slash].intercalate names

/-- Both functions stay in their arrays, read what has been set and come to an end, and a path is
followed component by component. -/
structure PathsRight (pL : Lists) (dirs frags : List BNode) (path : Bytes) (pino ino : Nat) :
    Prop where
  search : ∃ r, jffs21passSearchInode pL dirs path pino = .ok r
  fold : ∀ names, IsPath path names → path.length ≤ 255 →
    jffs21passSearchInode pL dirs path pino = .ok (foldFind (findInode dirs) pL pino names)
  resolve : ∃ r, jffs21passResolveInode pL dirs frags ino = .ok r

/-- The nodes of a list, each of them read behind those in front of it. -/
def Lists.readAll : Lists → List BNode → List Mem × Lists
  | pL, [] => ([], pL)
  | pL, b :: bs => ((pL.read b).1 :: ((pL.read b).2.readAll bs).1, ((pL.read b).2.readAll bs).2)

/-- A directory entry. -/
def foundDir (node : Mem) : FoundDir :=
  ⟨direntType node, direntIno node, direntPino node, direntVersion node⟩

/-- The directory entries for an inode. -/
def entriesOf (nodes : List Mem) (ino : Nat) : List FoundDir :=
  (nodes.map foundDir).filter fun entry => ino = entry.ino

/-- If the newest entry of the inode, and of several the last one, is a link, there is a node of the
inode, and the target in the first one has at most 255 characters. -/
def LinkFits (pL : Lists) (dirs frags : List BNode) (ino : Nat) : Prop :=
  ∀ entry, IsLastNewest FoundDir.version entry (entriesOf (pL.readAll dirs).1 ino) →
    entry.type = dtLnk →
      ∃ jNode, ((pL.readAll dirs).2.readAll frags).1.find? (fun node => inodeIno node = ino) =
        some jNode ∧ inodeDsize jNode ≤ 255

/-! ## Moving the rest of a path -/

section Move

variable {tmp tmp₀ : Cells} {w r : Bytes} {c i : Nat}

/-- So many characters of the rest have been moved to the start. -/
structure Moved (tmp₀ : Cells) (r : Bytes) (i : Nat) (tmp : Cells) : Prop where
  length : tmp.length = tmp₀.length
  front : ∀ j < i, tmp[j]? = some (some (r.getD j 0))
  behind : ∀ j, i ≤ j → tmp[j]? = tmp₀[j]?

theorem getD_ne_zero {s : Bytes} (h0 : 0 ∉ s) {j : Nat} (hj : j < s.length) : s.getD j 0 ≠ 0 := by
  rw [List.getD_eq_getElem _ _ hj]
  exact fun h => h0 (h ▸ List.getElem_mem hj)

/-- The characters are moved downwards, so the string from the slash on keeps its length. -/
theorem Moved.length_str (h : Moved tmp₀ r i tmp) (hstr : StrAt tmp₀ 0 (w ++ slash :: r))
    (h0 : 0 ∉ r) (hi : i ≤ r.length) (hlen : w.length + 1 + r.length < tmp₀.length) :
    ∃ s, cellsStr tmp (tmp.length + 1) w.length = .ok s ∧ s.length = r.length + 1 := by
  have hrest := hstr.drop
  rw [Nat.zero_add] at hrest
  refine cellsStr_length (fun j hj => ?_) ?_ (by rw [h.length]; omega)
  · rcases Nat.lt_or_ge (w.length + j) i with hlt | hge
    · exact ⟨_, getD_ne_zero h0 (by omega), h.front _ hlt⟩
    · have hcell := hrest j (by rw [List.length_cons]; omega)
      rw [h.behind _ hge, hcell]
      refine ⟨_, ?_, rfl⟩
      cases j with
      | zero => exact (by decide : slash ≠ 0)
      | succ j => exact getD_ne_zero h0 (by omega)
  · have hend := hrest (r.length + 1) (Nat.le_refl _)
    rw [h.behind _ (by omega), hend]
    exact congrArg (fun x => some (some x)) (List.getD_eq_default _ _ (Nat.le_refl _))

theorem moveLoop_eq (hstr : StrAt tmp₀ 0 (w ++ slash :: r)) (h0 : 0 ∉ r)
    (hlen : w.length + 1 + r.length < tmp₀.length) (hsmall : tmp₀.length < 2 ^ 32) :
    ∀ {fuel i : Nat} {tmp : Cells}, i ≤ r.length → r.length < fuel + i → Moved tmp₀ r i tmp →
      ∃ tmp', moveLoop w.length fuel tmp i = .ok (tmp', r.length) ∧
        Moved tmp₀ r r.length tmp' := by
  intro fuel
  induction fuel with
  | zero => intro i tmp hi hfuel _; omega
  | succ fuel ih =>
    intro i tmp hi hfuel hmoved
    obtain ⟨s, hs, hslen⟩ := hmoved.length_str hstr h0 hi hlen
    have hcount : ulong (s.length + (2 ^ 32 - 1)) = r.length := by
      rw [hslen, ulong]
      omega
    rw [moveLoop, hs, ok_bind, hcount]
    rcases Nat.lt_or_eq_of_le hi with hlt | rfl
    · have hcell : tmp[w.length + (i + 1)]? = some (some (r.getD i 0)) := by
        have hrest := hstr.drop (i + 1) (by rw [List.length_cons]; omega)
        rw [Nat.zero_add] at hrest
        rw [hmoved.behind _ (by omega), hrest]
        rfl
      have hlt' : i < tmp.length := by
        rw [hmoved.length]
        omega
      rw [if_pos hlt, loadCell_eq hcell, ok_bind, storeCell_eq hlt', ok_bind]
      refine ih hlt (by omega) ⟨?_, fun j hj => ?_, fun j hj => ?_⟩
      · rw [List.length_set, hmoved.length]
      · rcases Nat.lt_or_eq_of_le (Nat.le_of_lt_succ hj) with hlt | rfl
        · rw [getElem?_set_of_ne (Nat.ne_of_lt hlt), hmoved.front j hlt]
        · exact getElem?_set_of_lt hlt'
      · rw [getElem?_set_of_ne (by omega), hmoved.behind j (by omega)]
    · rw [if_neg (Nat.lt_irrefl _)]
      exact ⟨tmp, rfl, hmoved⟩

end Move

/-! ## Searching -/

section Search

variable {σ : Type} {find : σ → Bytes → Nat → Nat × σ} {s : σ} {tmp workingTmp : Cells}
  {str w r path : Bytes} {pino : Nat} {names : List Bytes}

theorem foldFind_cons (find : σ → Bytes → Nat → Nat × σ) (s : σ) (pino : Nat) (name : Bytes)
    (names : List Bytes) : foldFind find s pino (name :: names) =
      if (find s name pino).1 = 0 then (0, (find s name pino).2)
      else foldFind find (find s name pino).2 (find s name pino).1 names := rfl

theorem foldFind_singleton (find : σ → Bytes → Nat → Nat × σ) (s : σ) (pino : Nat) (name : Bytes) :
    foldFind find s pino [name] = find s name pino := by
  rw [foldFind_cons]
  by_cases h0 : (find s name pino).1 = 0
  · rw [if_pos h0, ← h0]
  · rw [if_neg h0]
    rfl

/-- The first component moves to the other array, and the rest to the start. -/
theorem strncpy_front (hstr : StrAt tmp 0 (w ++ slash :: r)) (h0 : 0 ∉ w)
    (hlen : w.length < workingTmp.length) :
    ∃ m m', strncpyCells (loadCell tmp) workingTmp 0 w.length = .ok m ∧
      storeCell m w.length 0 = .ok m' ∧ StrAt m' 0 w ∧ m'.length = workingTmp.length := by
  have hcell (k : Nat) (hk : k < w.length) : tmp[k]? = some (some (w.getD k 0)) := by
    have hk' := hstr k (by rw [List.length_append]; omega)
    rwa [Nat.zero_add, List.getD_append _ _ _ _ hk] at hk'
  obtain ⟨m, hcopy, hmlen, -, hname⟩ := strncpyCells_eq (m := workingTmp) (i := 0)
    (f := fun k => w.getD k 0) (show 0 + w.length ≤ workingTmp.length by omega)
    fun k _ hk => loadCell_eq (hcell k (by omega))
  have hlt : w.length < m.length := by omega
  have hw : strUpTo (fun k => w.getD k 0) 0 w.length = w := by
    refine strUpTo_eq h0 fun k hk => ?_
    rw [Nat.zero_add, List.getD_eq_getElem _ _ hk]
  have hstr' := hname (m.set w.length (some 0)) (fun j hj => getElem?_set_of_ne (by omega))
    (by rw [Nat.zero_add]; exact getElem?_set_of_lt hlt)
  rw [hw] at hstr'
  exact ⟨m, _, hcopy, storeCell_eq hlt, hstr', by rw [List.length_set, hmlen]⟩

/-- A path in the array is followed component by component. -/
theorem searchLoop_eq : ∀ {fuel : Nat} {tmp workingTmp : Cells} {str : Bytes} {s : σ} {pino : Nat},
    StrAt tmp 0 str → 0 ∉ str → tmp.length = tmpSize → workingTmp.length = tmpSize →
      str.length < tmpSize → str.length < fuel →
        searchLoop find fuel tmp workingTmp s pino =
          .ok (foldFind find s pino (str.splitOn slash)) := by
  intro fuel
  induction fuel with
  | zero => intro tmp workingTmp str s pino _ _ _ _ _ hfuel; omega
  | succ fuel ih =>
    intro tmp workingTmp str s pino hstr h0 htmp hworking hlen hfuel
    obtain ⟨hnone, hsome⟩ := strchrCells_eq (c := slash) hstr h0
      (show str.length < tmp.length + 1 by omega)
    rw [searchLoop]
    by_cases hmem : slash ∈ str
    swap
    · rw [hnone hmem (by decide), ok_bind, cellsStr_eq hstr h0 (by omega),
        List.splitOn_eq_singleton hmem, foldFind_singleton]
      rfl
    obtain ⟨w, r, rfl, hw⟩ := List.eq_append_cons_of_mem hmem
    rw [List.mem_append, List.mem_cons, not_or, not_or] at h0
    rw [List.length_append, List.length_cons] at hlen hfuel
    obtain ⟨m, m', hcopy, hstore, hname, hmlen⟩ :=
      strncpy_front hstr h0.1 (show w.length < workingTmp.length by omega)
    obtain ⟨tmp', hmove, hmoved⟩ := moveLoop_eq hstr h0.2.2 (by omega)
      (by rw [htmp, tmpSize]; omega) (Nat.zero_le _)
      (show r.length < tmp.length + 1 + 0 by omega)
      ⟨rfl, fun j hj => absurd hj (Nat.not_lt_zero j), fun _ _ => rfl⟩
    have hlt : r.length < tmp'.length := by
      rw [hmoved.length]
      omega
    have hrest : StrAt (tmp'.set r.length (some 0)) 0 r := by
      intro j hj
      rw [Nat.zero_add]
      rcases Nat.lt_or_eq_of_le hj with hlt' | rfl
      · rw [getElem?_set_of_ne (Nat.ne_of_lt hlt'), hmoved.front j hlt']
      · rw [getElem?_set_of_lt hlt, List.getD_eq_default _ _ (Nat.le_refl _)]
    rw [hsome w r rfl hw, ok_bind, Nat.zero_add]
    dsimp only
    rw [hcopy, ok_bind, hstore, ok_bind, hmove, ok_bind]
    dsimp only
    rw [storeCell_eq hlt, ok_bind, cellsStr_eq hname h0.1 (by omega), ok_bind,
      List.splitOn_append_cons_self_of_not_mem hw, foldFind_cons]
    by_cases hino : (find s w pino).1 = 0
    · rw [if_pos hino, if_pos hino]
      rfl
    · rw [if_neg hino, if_neg hino]
      exact ih hrest h0.2.2 (by rw [List.length_set, hmoved.length, htmp]) (hmlen.trans hworking)
        (by omega) (by omega)

theorem zero_notMem_dropWhile (h0 : 0 ∉ path) : 0 ∉ path.dropWhile (· = slash) := fun h =>
  h0 ((List.dropWhile_suffix _).subset h)

/-- A path that fits in the array. -/
theorem searchInode_eq (h0 : 0 ∉ path) (hlen : (path.dropWhile (· = slash)).length ≤ 255) :
    searchInode find s path pino =
      .ok (foldFind find s pino ((path.dropWhile (· = slash)).splitOn slash)) := by
  have hlen' : (path.dropWhile (· = slash)).length < tmpSize := by
    rw [tmpSize]
    omega
  obtain ⟨tmp, hcopy, htmp, hstr, -⟩ := strcpyCells_eq (m := .fresh tmpSize) (i := 0)
    (s := path.dropWhile (· = slash)) (by rw [Cells.length_fresh]; omega)
  rw [searchInode, hcopy, ok_bind]
  exact searchLoop_eq hstr (zero_notMem_dropWhile h0) (by rw [htmp, Cells.length_fresh])
    (Cells.length_fresh _) hlen' hlen'

theorem searchInode_ok_iff (h0 : 0 ∉ path) :
    (∃ r, searchInode find s path pino = .ok r) ↔
      (path.dropWhile (· = slash)).length ≤ 255 := by
  refine ⟨fun ⟨r, hr⟩ => ?_, fun hlen => ⟨_, searchInode_eq h0 hlen⟩⟩
  by_contra hlen
  obtain ⟨e, he⟩ := strcpyCells_outside (m := .fresh tmpSize) (i := 0)
    (s := path.dropWhile (· = slash)) (Nat.zero_le _) (by rw [Cells.length_fresh, tmpSize]; omega)
  rw [searchInode, he] at hr
  cases hr

theorem dropWhile_replicate_append {k : Nat} (h : ∀ c rest, str = c :: rest → c ≠ slash) :
    (List.replicate k slash ++ str).dropWhile (· = slash) = str := by
  rw [List.dropWhile_append_of_pos fun x hx => by
    rw [List.eq_of_mem_replicate hx]
    exact decide_eq_true rfl]
  cases str with
  | nil => rfl
  | cons c rest => exact List.dropWhile_cons_of_neg (by simpa using h c rest rfl)

/-- The components are what the path is cut into. -/
theorem IsPath.splitOn_eq (h : IsPath path names) :
    (path.dropWhile (· = slash)).splitOn slash = names := by
  obtain ⟨k, hpath⟩ := h.path_eq
  rw [hpath, dropWhile_replicate_append, List.splitOn_intercalate slash h.slash_notMem h.ne_nil]
  intro c rest hc hslash
  obtain ⟨name, names', rfl⟩ := List.exists_cons_of_ne_nil h.ne_nil
  obtain ⟨a, name', rfl⟩ :=
    List.exists_cons_of_ne_nil (h.name_ne_nil name List.mem_cons_self)
  refine h.slash_notMem _ List.mem_cons_self ?_
  have ha : a = c := by
    cases names' with
    | nil =>
      rw [List.intercalate_singleton] at hc
      exact (List.cons.inj hc).1
    | cons b names' =>
      rw [List.intercalate_cons_cons] at hc
      exact (List.cons.inj hc).1
  rw [ha, hslash]
  exact List.mem_cons_self

end Search

/-! ## Following a link -/

section Resolve

variable {pL : Lists} {dirs frags : List BNode} {ino : Nat} {jNode : Mem}

/-- The target of a link. -/
def linkTarget (jNode : Mem) : Bytes :=
  strUpTo (fun k => jNode (sizeofRawInode + k)) 0 (inodeDsize jNode)

theorem linkTmp_eq (h : inodeDsize jNode ≤ 255) :
    ∃ tmp, linkTmp (some jNode) = .ok tmp ∧ tmp.length = tmpSize ∧
      StrAt tmp 0 (linkTarget jNode) := by
  have hsize : tmpSize = 256 := rfl
  have hsrc : ∀ k, 0 ≤ k → k < 0 + inodeDsize jNode →
      (fun k => (.ok (jNode (sizeofRawInode + k)) : Exec UInt8)) k =
        .ok ((fun k => jNode (sizeofRawInode + k)) k) := fun _ _ _ => rfl
  obtain ⟨m, hcopy, hlen, -, hstr⟩ := strncpyCells_eq
    (show 0 + inodeDsize jNode ≤ (Cells.fresh tmpSize).length by rw [Cells.length_fresh]; omega) hsrc
  rw [Cells.length_fresh] at hlen
  have hlt : inodeDsize jNode < m.length := by omega
  refine ⟨m.set (inodeDsize jNode) (some 0), ?_, by rw [List.length_set, hlen], ?_⟩
  · rw [linkTmp, hcopy, ok_bind, storeCell_eq hlt]
  · exact hstr _ (fun j hj => getElem?_set_of_ne (by omega))
      (by rw [Nat.zero_add]; exact getElem?_set_of_lt hlt)

theorem linkTmp_outside (h : ¬ inodeDsize jNode ≤ 255) (tmp : Cells) :
    linkTmp (some jNode) ≠ .ok tmp := by
  intro htmp
  obtain ⟨m, hcopy, hstore⟩ := bind_eq_ok.mp htmp
  have hlen := length_of_strncpyCells hcopy
  rw [Cells.length_fresh, tmpSize] at hlen
  rw [storeCell_outside (by omega)] at hstore
  cases hstore

theorem entriesOf_cons (node : Mem) (nodes : List Mem) (ino : Nat) :
    entriesOf (node :: nodes) ino =
      if ino = direntIno node then foundDir node :: entriesOf nodes ino else entriesOf nodes ino := by
  rw [entriesOf, List.map_cons, List.filter_cons]
  by_cases hino : ino = direntIno node
  · have hentry : decide (ino = (foundDir node).ino) = true := decide_eq_true hino
    rw [if_pos hino, if_pos hentry, entriesOf]
  · have hentry : decide (ino = (foundDir node).ino) = false := decide_eq_false hino
    rw [if_neg hino, if_neg (Bool.not_eq_true _ ▸ hentry), entriesOf]

theorem resolveLoop_cons (b : BNode) (found : FoundDir) : resolveLoop ino pL (b :: dirs) found =
    if ino = direntIno (pL.read b).1 then
      resolveLoop ino (pL.read b).2 dirs
        (keepNewer FoundDir.version found (foundDir (pL.read b).1))
    else resolveLoop ino (pL.read b).2 dirs found := by
  rw [keepNewer, apply_ite (resolveLoop ino (pL.read b).2 dirs)]
  rfl

/-- The loop over the directory entries keeps the best one of the inode. -/
theorem resolveLoop_eq (found : FoundDir) : resolveLoop ino pL dirs found =
    ((entriesOf (pL.readAll dirs).1 ino).foldl (keepNewer FoundDir.version) found,
      (pL.readAll dirs).2) := by
  induction dirs generalizing pL found with
  | nil => rfl
  | cons b dirs ih =>
    rw [resolveLoop_cons, Lists.readAll, entriesOf_cons]
    by_cases hino : ino = direntIno (pL.read b).1
    · rw [if_pos hino, if_pos hino, List.foldl_cons, ih]
    · rw [if_neg hino, if_neg hino, ih]

theorem linkLoop_cons (b : BNode) : linkLoop ino pL (b :: frags) =
    if inodeIno (pL.read b).1 = ino then (some (pL.read b).1, (pL.read b).2)
    else linkLoop ino (pL.read b).2 frags := rfl

/-- The loop over the fragments ends at the first one of the inode. -/
theorem linkLoop_fst : (linkLoop ino pL frags).1 =
    (pL.readAll frags).1.find? fun node => inodeIno node = ino := by
  induction frags generalizing pL with
  | nil => rfl
  | cons b frags ih =>
    rw [linkLoop_cons, Lists.readAll]
    by_cases hino : inodeIno (pL.read b).1 = ino
    · rw [if_pos hino]
      exact (List.find?_cons_of_pos (p := fun node => inodeIno node = ino)
        (decide_eq_true hino)).symm
    · rw [if_neg hino, ih]
      exact (List.find?_cons_of_neg (p := fun node => inodeIno node = ino)
        fun h => hino (of_decide_eq_true h)).symm

/-- Both loops find what is asked for. -/
theorem linkFits_iff : LinkFits pL dirs frags ino ↔
    ((resolveLoop ino pL dirs ⟨0, 0, 0, 0⟩).1.type = dtLnk →
      ∃ jNode, (linkLoop (resolveLoop ino pL dirs ⟨0, 0, 0, 0⟩).1.ino
          (resolveLoop ino pL dirs ⟨0, 0, 0, 0⟩).2 frags).1 = some jNode ∧
        inodeDsize jNode ≤ 255) := by
  rw [resolveLoop_eq, linkLoop_fst, LinkFits]
  by_cases hnil : entriesOf (pL.readAll dirs).1 ino = []
  · rw [hnil]
    have hnone : (0 : Nat) ≠ dtLnk := by decide
    refine iff_of_true ?_ fun h => absurd h hnone
    rintro entry ⟨front, behind, h, -⟩
    cases front <;> cases h
  · obtain ⟨entry, hentry⟩ := exists_isLastNewest FoundDir.version hnil
    have hino : entry.ino = ino := by
      obtain ⟨front, behind, h, -⟩ := hentry
      have hmem : entry ∈ entriesOf (pL.readAll dirs).1 ino := by
        rw [h]
        exact List.mem_append_right _ List.mem_cons_self
      exact (of_decide_eq_true (List.mem_filter.mp hmem).2).symm
    have hfold {x : FoundDir} (hx : IsLastNewest FoundDir.version x
        (entriesOf (pL.readAll dirs).1 ino)) := hx.foldl_eq (b := ⟨0, 0, 0, 0⟩) (Nat.zero_le _)
    rw [hfold hentry, hino]
    refine ⟨fun h => h entry hentry, fun h x hx hlink => h ?_⟩
    rw [← hlink, ← hfold hx, hfold hentry]

/-- The text of a link is searched for; a link without one is read before it is set. -/
theorem resolveInode_ok_iff :
    (∃ r, jffs21passResolveInode pL dirs frags ino = .ok r) ↔ LinkFits pL dirs frags ino := by
  rw [jffs21passResolveInode, linkFits_iff]
  obtain ⟨found, pL'⟩ := resolveLoop ino pL dirs ⟨0, 0, 0, 0⟩
  dsimp only
  by_cases htype : found.type = dtLnk
  swap
  · rw [if_pos htype]
    exact iff_of_true ⟨_, rfl⟩ fun h => absurd h htype
  rw [if_neg (not_not.mpr htype)]
  obtain ⟨link, pL''⟩ := linkLoop found.ino pL' frags
  dsimp only
  cases link with
  | none =>
    refine iff_of_false ?_ fun h => ?_
    · rintro ⟨r, hr⟩
      cases hr
    · obtain ⟨jNode, hnode, -⟩ := h htype
      cases hnode
  | some jNode =>
    by_cases hdsize : inodeDsize jNode ≤ 255
    · refine iff_of_true ?_ fun _ => ⟨jNode, rfl, hdsize⟩
      obtain ⟨tmp, htmp, hlen, hstr⟩ := linkTmp_eq hdsize
      have h0 : 0 ∉ linkTarget jNode := zero_notMem_strUpTo _ _ _
      have hle : (linkTarget jNode).length ≤ 255 := Nat.le_trans (length_strUpTo _ _ _) hdsize
      have hsize : tmpSize = 256 := rfl
      rw [htmp, ok_bind, loadCell_eq hstr.head, ok_bind, cellsStr_eq hstr h0 (by omega), ok_bind]
      exact (searchInode_ok_iff h0).mpr (Nat.le_trans (List.dropWhile_suffix _).length_le hle)
    · refine iff_of_false ?_ fun h => ?_
      · rintro ⟨r, hr⟩
        obtain ⟨tmp, htmp, -⟩ := bind_eq_ok.mp hr
        exact linkTmp_outside hdsize tmp htmp
      · obtain ⟨jNode', hnode, hle⟩ := h htype
        cases hnode
        exact hdsize hle

/-- The arrays are large enough, and set, for exactly these paths and links. -/
theorem pathsRight_iff {path : Bytes} (h0 : 0 ∉ path) (pino : Nat) :
    PathsRight pL dirs frags path pino ino ↔
      (path.dropWhile (· = slash)).length ≤ 255 ∧ LinkFits pL dirs frags ino := by
  constructor
  · intro h
    exact ⟨(searchInode_ok_iff h0).mp h.search, resolveInode_ok_iff.mp h.resolve⟩
  · rintro ⟨hlen, hlink⟩
    refine ⟨(searchInode_ok_iff h0).mpr hlen, fun names hnames _ => ?_,
      resolveInode_ok_iff.mpr hlink⟩
    rw [jffs21passSearchInode, searchInode_eq h0 hlen, hnames.splitOn_eq]

end Resolve

/-! ## A link with a target, and one that has no inode -/

/-- The inode of a link as it lies in flash. -/
def rawLink (ino : Nat) (data : Bytes) : Bytes :=
  [0x85, 0x19, 0x02, 0xE0] ++ store32 (sizeofRawInode + data.length) ++ store32 0 ++ store32 ino ++
    List.replicate 36 0 ++ store32 data.length ++ List.replicate 12 0 ++ data

/-- The entries `aaaa`, first for inode 6 and then for a link, and the name in the link. -/
def linkedName : Lists where
  type := .nand
  flash := cstr (rawDirent 1 1 6 aaaa ++ (rawDirent 1 2 5 [0x62, 0x62, 0x62, 0x62]).set 29 10 ++
    rawLink 5 (slash :: aaaa))
  readbuf := some fun _ => 0
  heap _ _ := 0

/-- The link is followed to the other entry. -/
theorem pathsRight_iff_linked :
    PathsRight linkedName [⟨0, 0⟩, ⟨44, 0⟩] [⟨88, 0⟩] [slash, slash, 0x62, 0x62, 0x62, 0x62] 1 5 ∧
      (jffs21passResolveInode linkedName [⟨0, 0⟩, ⟨44, 0⟩] [⟨88, 0⟩] 5).toOption.map Prod.fst =
        some 6 := by
  have hlink : LinkFits linkedName [⟨0, 0⟩, ⟨44, 0⟩] [⟨88, 0⟩] 5 :=
    linkFits_iff.mpr fun _ => ⟨_, rfl, by decide⟩
  exact ⟨(pathsRight_iff (by decide) 1).mpr ⟨by decide, hlink⟩, by decide +kernel⟩

/-- A directory entry of the type of a link. -/
def danglingLink : Lists where
  type := .nand
  flash := cstr ((rawDirent 1 1 5 aaaa).set 29 10)
  readbuf := some fun _ => 0
  heap _ _ := 0

/-- To follow it reads `tmp` before it is set. -/
theorem not_pathsRight_dangling : ¬ ∀ (pL : Lists) (dirs frags : List BNode) (path : Bytes)
    (pino ino : Nat), 0 ∉ path → PathsRight pL dirs frags path pino ino := by
  intro hall
  obtain ⟨jNode, hnode, -⟩ := linkFits_iff.mp (resolveInode_ok_iff.mp
    (hall danglingLink [⟨0, 0⟩] [] [0x61] 1 5 (by decide)).resolve) (by decide)
  cases hnode

end UBoot.Fs.Jffs2
