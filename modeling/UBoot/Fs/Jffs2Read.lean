import UBoot.Fs.Jffs2Lookup

/-!
# What is read of a file

The nodes of an inode are stored in the destination in the order of their versions, so that at each
position the newest node counts (`foldl_putNode`).  A node with a bad checksum is left out; but the
mark that keeps the result of the check is not set when the node is put into the list, so that an
old mark may stand for the check (`Inode.Marked`).  The size is returned as a signed number.

* `insertNode_readInode`: the list is sorted, and exactly when the file is what its newest good
  nodes say.
-/

namespace UBoot.Fs.Jffs2

open UBoot.Lib UBoot.LibGeneric

variable {flash : Mem} {off : Nat}

/-! ## The nodes of an inode -/

/-- A node of a file, with the data it is to store; `old` is the mark in its memory. -/
structure Inode where
  version : Nat
  isize : Nat
  offset : Nat
  data : Bytes
  good : Bool
  old : Nat
  deriving DecidableEq, Repr

/-- What a node of an inode on flash says. -/
def inodeAt (codecs : Codecs) (flash : Mem) (b : BNode) : Inode :=
  let node := view flash b.offset
  ⟨inodeVersion node, inodeIsize node, inodeOffset node, (inodeData codecs node).getD [],
    dataCrc codecs node, b.datacrc⟩

/-- The node is taken for good: by its checksum, unless there is an old mark. -/
def Inode.Marked (n : Inode) : Prop := if n.old = 0 then n.good = true else n.old ≠ 2

instance (n : Inode) : Decidable n.Marked := by
  unfold Inode.Marked
  infer_instance

/-- A node whose data is as its checksum says. -/
def Inode.Good (n : Inode) : Prop := n.good = true

instance : DecidablePred Inode.Good := fun n => inferInstanceAs (Decidable (n.good = true))

/-- A node that is put in the destination: it does not start behind the end of the file. -/
def Inode.Stored (size : Nat) (n : Inode) : Prop := n.offset ≤ size ∧ n.Marked

instance (size : Nat) : DecidablePred (Inode.Stored size) :=
  fun n => inferInstanceAs (Decidable (n.offset ≤ size ∧ n.Marked))

/-- The node has a byte for a position. -/
def Inode.Covers (n : Inode) (p : Nat) : Prop := n.offset ≤ p ∧ p < n.offset + n.data.length

instance (n : Inode) (p : Nat) : Decidable (n.Covers p) := inferInstanceAs (Decidable (_ ∧ _))

/-- The nodes of an inode in a list. -/
def nodesOf (codecs : Codecs) (flash : Mem) (frags : List BNode) (inode : Nat) : List Inode :=
  (frags.filter fun b => inode = inodeIno (view flash b.offset)).map (inodeAt codecs flash)

/-- There is a node, its header lies in it, and the data of a node that is not compressed. -/
structure IsInode (flash : Mem) (off : Nat) : Prop where
  magic_eq : magic (view flash off) = jffs2MagicBitmask
  header_le : sizeofRawInode ≤ totlen (view flash off)

/-- The data is not compressed or all zero, and it lies in the node. -/
structure Plain (flash : Mem) (off : Nat) : Prop where
  csize_le : sizeofRawInode + inodeCsize (view flash off) ≤ totlen (view flash off)
  compr : inodeCompr (view flash off) = jffs2ComprZero ∨
    inodeCompr (view flash off) = jffs2ComprNone ∧
      sizeofRawInode + inodeDsize (view flash off) ≤ totlen (view flash off)

/-- What the newest of the chosen nodes has at a position, or nothing. -/
def Shows (chosen : Inode → Prop) [DecidablePred chosen] (nodes : List Inode) (p : Nat)
    (x : Option UInt8) : Prop :=
  match x with
  | none => ∀ n ∈ nodes, ¬ (chosen n ∧ n.Covers p)
  | some c => ∃ n, IsNewest Inode.version n (nodes.filter fun n => chosen n ∧ n.Covers p) ∧
      n.data[p - n.offset]? = some c

/-! ## Reading one node -/

section OneNode

variable (type : DevType) (extBuf : Option Mem) (heap : Mem)

theorem IsInode.load32_eq (h : IsInode flash off) {addr : Nat} (haddr : addr + 4 ≤ 68) :
    load32 (getNodeMem type flash off extBuf heap) addr = load32 (view flash off) addr := by
  have hlen := h.header_le
  rw [sizeofRawInode] at hlen
  exact load32_congr (by omega) fun i _ hi =>
    getNodeMem_eq type extBuf heap h.magic_eq (by omega)

theorem IsInode.ino_eq (h : IsInode flash off) :
    inodeIno (getNodeMem type flash off extBuf heap) = inodeIno (view flash off) :=
  h.load32_eq type extBuf heap (by omega)

theorem IsInode.offset_eq (h : IsInode flash off) :
    inodeOffset (getNodeMem type flash off extBuf heap) = inodeOffset (view flash off) :=
  h.load32_eq type extBuf heap (by omega)

theorem IsInode.dataCrc_eq (codecs : Codecs) (h : IsInode flash off) (hplain : Plain flash off) :
    dataCrc codecs (getNodeMem type flash off extBuf heap) = dataCrc codecs (view flash off) := by
  have hcsize : inodeCsize (getNodeMem type flash off extBuf heap) =
      inodeCsize (view flash off) := h.load32_eq type extBuf heap (by omega)
  have hcrc : inodeDataCrc (getNodeMem type flash off extBuf heap) =
      inodeDataCrc (view flash off) := h.load32_eq type extBuf heap (by omega)
  have hdata : bytesAt (getNodeMem type flash off extBuf heap) sizeofRawInode
      (inodeCsize (view flash off)) =
      bytesAt (view flash off) sizeofRawInode (inodeCsize (view flash off)) :=
    bytesAt_congr fun i _ hi =>
      getNodeMem_eq type extBuf heap h.magic_eq (Nat.lt_of_lt_of_le hi hplain.csize_le)
  rw [dataCrc, dataCrc, hcsize, hcrc, hdata]

theorem IsInode.inodeData_eq (codecs : Codecs) (h : IsInode flash off) (hplain : Plain flash off) :
    inodeData codecs (getNodeMem type flash off extBuf heap) =
      some ((inodeData codecs (view flash off)).getD []) := by
  have hdsize : inodeDsize (getNodeMem type flash off extBuf heap) =
      inodeDsize (view flash off) := h.load32_eq type extBuf heap (by omega)
  have hcompr : inodeCompr (getNodeMem type flash off extBuf heap) =
      inodeCompr (view flash off) := by
    have hlen := h.header_le
    rw [sizeofRawInode] at hlen
    rw [inodeCompr, getNodeMem_eq type extBuf heap h.magic_eq (by omega)]
    rfl
  rcases hplain.compr with hzero | ⟨hnone, hdata⟩
  · have hne : inodeCompr (view flash off) ≠ jffs2ComprNone := by
      rw [hzero]
      decide
    rw [inodeData, inodeData, hcompr, hdsize, if_neg hne, if_pos hzero, if_neg hne, if_pos hzero,
      Option.getD_some]
  · have hbytes : bytesAt (getNodeMem type flash off extBuf heap) sizeofRawInode
        (inodeDsize (view flash off)) =
        bytesAt (view flash off) sizeofRawInode (inodeDsize (view flash off)) :=
      bytesAt_congr fun i _ hi =>
        getNodeMem_eq type extBuf heap h.magic_eq (Nat.lt_of_lt_of_le hi hdata)
    rw [inodeData, inodeData, hcompr, hdsize, if_pos hnone, if_pos hnone, hbytes, Option.getD_some]

end OneNode

/-! ## The two loops -/

variable {codecs : Codecs}

/-- Every node in the list is one, and those of the inode are plain. -/
def Readable (flash : Mem) (frags : List BNode) (inode : Nat) : Prop :=
  ∀ b ∈ frags, IsInode flash b.offset ∧
    (inode = inodeIno (view flash b.offset) → Plain flash b.offset)

theorem nodesOf_cons (b : BNode) (frags : List BNode) (inode : Nat) :
    nodesOf codecs flash (b :: frags) inode =
      if inode = inodeIno (view flash b.offset) then
        inodeAt codecs flash b :: nodesOf codecs flash frags inode
      else nodesOf codecs flash frags inode := by
  rw [nodesOf, List.filter_cons]
  by_cases hino : inode = inodeIno (view flash b.offset)
  · rw [if_pos (decide_eq_true hino), if_pos hino]
    rfl
  · rw [if_neg (by simpa using hino), if_neg hino]
    rfl

/-- The first loop finds the size that the newest node gives. -/
theorem sizeLoop_eq (codecs : Codecs) (inode : Nat) (frags : List BNode) :
    ∀ (pL : Lists) (s : Nat × Nat),
    (sizeLoop pL inode frags s).1 =
      (nodesOf codecs pL.flash frags inode).foldl (newestStep Inode.version Inode.isize) s ∧
    (sizeLoop pL inode frags s).2.flash = pL.flash := by
  induction frags with
  | nil => exact fun pL s => ⟨rfl, rfl⟩
  | cons b frags ih =>
    intro pL s
    have hword (addr : Nat) (haddr : addr + 4 ≤ 68) :
        load32 (getFlMem pL.type pL.flash b.offset sizeofRawInode pL.readbuf (pL.heap b.offset))
          addr = load32 (view pL.flash b.offset) addr :=
      load32_congr (by omega) fun i _ hi =>
        getFlMem_eq pL.type pL.readbuf (pL.heap b.offset)
          (Nat.lt_of_lt_of_le hi (by rw [sizeofRawInode]; exact haddr))
    have hstep : sizeStep inode s
        (getFlMem pL.type pL.flash b.offset sizeofRawInode pL.readbuf (pL.heap b.offset)) =
        if inode = inodeIno (view pL.flash b.offset) then
          newestStep Inode.version Inode.isize s (inodeAt codecs pL.flash b)
        else s := by
      rw [sizeStep, inodeIno, inodeVersion, inodeIsize, hword 12 (by omega), hword 16 (by omega),
        hword 28 (by omega)]
      by_cases hino : inode = inodeIno (view pL.flash b.offset)
      · rw [if_pos hino, newestStep]
        by_cases hlt : inodeVersion (view pL.flash b.offset) < s.1
        · exact (if_neg fun h => Nat.not_le.mpr hlt h.2).trans (if_pos hlt).symm
        · exact (if_pos ⟨hino, Nat.not_lt.mp hlt⟩).trans (if_neg hlt).symm
      · rw [if_neg hino]
        exact if_neg fun h => hino h.1
    have hrest := ih { pL with
      readbuf := keepBuf pL.readbuf
        (getFlMem pL.type pL.flash b.offset sizeofRawInode pL.readbuf (pL.heap b.offset)) }
      (sizeStep inode s
        (getFlMem pL.type pL.flash b.offset sizeofRawInode pL.readbuf (pL.heap b.offset)))
    rw [sizeLoop]
    refine ⟨hrest.1.trans ?_, hrest.2⟩
    rw [hstep, nodesOf_cons]
    split <;> rfl

/-- After the check the mark says what the node is taken for. -/
theorem checkCrc_eq_two_iff {b : BNode} {node : Mem}
    (h : dataCrc codecs node = dataCrc codecs (view flash b.offset)) :
    (checkCrc codecs b node).datacrc = 2 ↔ ¬ (inodeAt codecs flash b).Marked := by
  rw [checkCrc, h]
  change _ ↔ ¬ if b.datacrc = 0 then dataCrc codecs (view flash b.offset) = true else b.datacrc ≠ 2
  by_cases hold : b.datacrc = 0
  · rw [if_pos hold, if_pos hold]
    cases dataCrc codecs (view flash b.offset)
    · exact ⟨fun _ => Bool.false_ne_true, fun _ => rfl⟩
    · exact ⟨fun h => absurd h (by decide : (1 : Nat) ≠ 2), fun h => absurd rfl h⟩
  · rw [if_neg hold, if_neg hold, not_not]

/-- One node in the destination. -/
def putNode (size : Nat) (dest : Mem) (n : Inode) : Mem :=
  if n.Stored size then putData dest n.offset n.data else dest

/-- The second loop puts one node after the other in the destination. -/
theorem readLoop_eq (codecs : Codecs) (inode : Nat) (s : Nat × Nat) (frags : List BNode) :
    ∀ (pL : Lists) (dest : Mem), Readable pL.flash frags inode →
      (readLoop true codecs inode pL frags s (some dest)).ret = intOf s.2 ∧
      (readLoop true codecs inode pL frags s (some dest)).dest =
        some ((nodesOf codecs pL.flash frags inode).foldl (putNode s.2) dest) := by
  induction frags with
  | nil => exact fun pL dest _ => ⟨rfl, rfl⟩
  | cons b frags ih =>
    intro pL dest hread
    obtain ⟨⟨hnode, hplain⟩, hfrags⟩ := List.forall_mem_cons.mp hread
    have hrest (dest : Mem) := ih { pL with
      readbuf := keepBuf pL.readbuf
        (getNodeMem pL.type pL.flash b.offset pL.readbuf (pL.heap b.offset)) } dest hfrags
    rw [readLoop, nodesOf_cons]
    dsimp only
    rw [hnode.ino_eq]
    by_cases hino : inode = inodeIno (view pL.flash b.offset)
    · have hcrc := hnode.dataCrc_eq pL.type pL.readbuf (pL.heap b.offset) codecs (hplain hino)
      have hdata := hnode.inodeData_eq pL.type pL.readbuf (pL.heap b.offset) codecs (hplain hino)
      rw [if_pos hino, if_pos hino, if_pos rfl, List.foldl_cons, hnode.offset_eq, putNode]
      change _ ∧ _ = some (List.foldl (putNode s.2) (if inodeOffset (view pL.flash b.offset) ≤ s.2 ∧
        (inodeAt codecs pL.flash b).Marked then _ else dest) _)
      by_cases hoffset : s.2 < inodeOffset (view pL.flash b.offset)
      · rw [if_pos hoffset, if_neg fun h => Nat.not_le.mpr hoffset h.1]
        exact hrest dest
      · rw [if_neg hoffset]
        by_cases hmarked : (inodeAt codecs pL.flash b).Marked
        · rw [if_neg fun h => (checkCrc_eq_two_iff hcrc).mp h hmarked,
            if_pos ⟨Nat.not_lt.mp hoffset, hmarked⟩, hdata]
          exact hrest _
        · rw [if_pos ((checkCrc_eq_two_iff hcrc).mpr hmarked), if_neg fun h => hmarked h.2]
          exact hrest dest
    · rw [if_neg hino, if_neg hino]
      exact hrest dest

/-! ## The bytes of the file -/

theorem putNode_apply (size : Nat) (dest : Mem) (n : Inode) (p : Nat) :
    putNode size dest n p =
      if n.Stored size ∧ n.Covers p then n.data.getD (p - n.offset) 0 else dest p := by
  rw [putNode]
  by_cases hstored : n.Stored size
  · rw [if_pos hstored, putData]
    by_cases hcovers : n.Covers p
    · exact (if_pos hcovers).trans (if_pos ⟨hstored, hcovers⟩).symm
    · exact (if_neg hcovers).trans (if_neg fun h => hcovers h.2).symm
  · rw [if_neg hstored, if_neg fun h => hstored h.1]

/-- At each position the last node that has it counts. -/
theorem foldl_putNode (size : Nat) (nodes : List Inode) (dest : Mem) (p : Nat) :
    nodes.foldl (putNode size) dest p =
      (((nodes.filter fun n => n.Stored size ∧ n.Covers p).getLast?).map
        fun n => n.data.getD (p - n.offset) 0).getD (dest p) := by
  induction nodes using List.reverseRecOn with
  | nil => rfl
  | append_singleton nodes n ih =>
    rw [List.foldl_append, List.foldl_cons, List.foldl_nil, putNode_apply, List.filter_append]
    by_cases hn : n.Stored size ∧ n.Covers p
    · rw [if_pos hn, List.filter_singleton, decide_eq_true hn, cond_true, List.getLast?_concat]
      rfl
    · rw [if_neg hn, List.filter_singleton, decide_eq_false hn, cond_false, List.append_nil]
      exact ih

section Shows

variable {chosen : Inode → Prop} [DecidablePred chosen] {nodes nodes' : List Inode} {p : Nat}
  {x y : Option UInt8}

theorem Shows.perm (hperm : nodes.Perm nodes') (h : Shows chosen nodes p x) :
    Shows chosen nodes' p x := by
  cases x with
  | none => exact fun n hn => h n (hperm.mem_iff.mpr hn)
  | some c =>
    obtain ⟨n, hnewest, hdata⟩ := h
    exact ⟨n, hnewest.perm (hperm.filter _), hdata⟩

/-- In a sorted list the last of the chosen nodes is shown. -/
theorem shows_getLast (hsorted : nodes.Pairwise fun n n' => n.version ≤ n'.version) :
    Shows chosen nodes p (((nodes.filter fun n => chosen n ∧ n.Covers p).getLast?).map
      fun n => n.data.getD (p - n.offset) 0) := by
  cases hlast : (nodes.filter fun n => chosen n ∧ n.Covers p).getLast? with
  | none =>
    intro n hn hcovers
    have hnil := List.getLast?_eq_none_iff.mp hlast
    have hmem : n ∈ nodes.filter fun n => chosen n ∧ n.Covers p :=
      List.mem_filter.mpr ⟨hn, decide_eq_true hcovers⟩
    rw [hnil] at hmem
    cases hmem
  | some n =>
    have hnewest := isNewest_getLast (hsorted.sublist List.filter_sublist) hlast
    obtain ⟨-, hn⟩ := List.mem_filter.mp hnewest.1
    obtain ⟨hle, hlt⟩ := (of_decide_eq_true hn).2
    refine ⟨n, hnewest, ?_⟩
    change _ = some (n.data.getD (p - n.offset) 0)
    rw [List.getD_eq_getElem?_getD, List.getElem?_eq_getElem (by omega), Option.getD_some]

theorem Shows.unique (hver : (nodes.map Inode.version).Nodup) (hx : Shows chosen nodes p x)
    (hy : Shows chosen nodes p y) : x = y := by
  have hmem (n : Inode) (h : IsNewest Inode.version n
      (nodes.filter fun n => chosen n ∧ n.Covers p)) : n ∈ nodes ∧ (chosen n ∧ n.Covers p) := by
    obtain ⟨hn, hcovers⟩ := List.mem_filter.mp h.1
    exact ⟨hn, of_decide_eq_true hcovers⟩
  match x, y, hx, hy with
  | none, none, _, _ => rfl
  | none, some _, hx, ⟨n, hn, _⟩ => exact absurd (hmem n hn).2 (hx n (hmem n hn).1)
  | some _, none, ⟨n, hn, _⟩, hy => exact absurd (hmem n hn).2 (hy n (hmem n hn).1)
  | some c, some d, ⟨n, hn, hc⟩, ⟨m, hm, hd⟩ =>
    have hver : ((nodes.filter fun n => chosen n ∧ n.Covers p).map Inode.version).Nodup :=
      hver.sublist (List.filter_sublist.map _)
    have heq : n = m := hn.unique hver hm
    rw [heq, hd] at hc
    exact hc.symm

end Shows

/-! ## Insertion and reading -/

/-- The size of a file: that of its newest node. -/
def IsSize (nodes : List Inode) (size : Nat) : Prop :=
  (nodes = [] ∧ size = 0) ∨ ∃ n, IsNewest Inode.version n nodes ∧ size = n.isize

/-- The size is returned, and the destination has what the good nodes show: up to the size where
they show something, and everywhere what it had where they do not. -/
def ReadsNewest (nodes : List Inode) (dest : Mem) (r : ReadResult) : Prop :=
  ∃ size dest', IsSize nodes size ∧ r.ret = size ∧ r.dest = some dest' ∧
    ∀ p x, Shows Inode.Good nodes p x → (x = none ∨ p < size) → dest' p = x.getD (dest p)

/-- The marks do not change what is shown. -/
def MarksAgree (nodes : List Inode) : Prop :=
  ∀ size, IsSize nodes size → ∀ p x, Shows Inode.Good nodes p x → (x = none ∨ p < size) →
    Shows (Inode.Stored size) nodes p x

/-- The size of the file has 31 bits. -/
def SizeFits (nodes : List Inode) : Prop := ∀ size, IsSize nodes size → size < 2 ^ 31

theorem IsSize.unique {nodes : List Inode} {size size' : Nat}
    (hver : (nodes.map Inode.version).Nodup) (h : IsSize nodes size) (h' : IsSize nodes size') :
    size = size' := by
  rcases h with ⟨rfl, rfl⟩ | ⟨n, hn, rfl⟩ <;> rcases h' with ⟨hnil, rfl⟩ | ⟨m, hm, rfl⟩
  · rfl
  · exact nomatch hm.1
  · rw [hnil] at hn
    exact nomatch hn.1
  · rw [hn.unique hver hm]

theorem IsSize.perm {nodes nodes' : List Inode} {size : Nat} (hperm : nodes.Perm nodes')
    (h : IsSize nodes size) : IsSize nodes' size := by
  rcases h with ⟨rfl, rfl⟩ | ⟨n, hn, rfl⟩
  · exact Or.inl ⟨hperm.nil_eq.symm, rfl⟩
  · exact Or.inr ⟨n, hn.perm hperm, rfl⟩

theorem isSize_foldl (nodes : List Inode) :
    IsSize nodes (nodes.foldl (newestStep Inode.version Inode.isize) (0, 0)).2 := by
  rcases foldl_newestStep Inode.version Inode.isize nodes with ⟨hnil, hfold⟩ | ⟨n, hn, hfold⟩
  · exact Or.inl ⟨hnil, by rw [hfold]⟩
  · exact Or.inr ⟨n, hn, by rw [hfold]⟩

theorem nodesOf_perm (codecs : Codecs) (flash : Mem) {news frags : List BNode} (h : frags.Perm news)
    (inode : Nat) :
    (nodesOf codecs flash frags inode).Perm (nodesOf codecs flash news inode) :=
  (h.filter _).map _

theorem nodesOf_sorted {frags : List BNode}
    (h : frags.Pairwise fun b b' =>
      inodeVersion (view flash b.offset) ≤ inodeVersion (view flash b'.offset)) (inode : Nat) :
    (nodesOf codecs flash frags inode).Pairwise fun n n' => n.version ≤ n'.version :=
  List.pairwise_map.mpr (h.sublist List.filter_sublist)

/-- Of a sorted list the read stores what the marked nodes show. -/
theorem readInode_eq (codecs : Codecs) (pL : Lists) {frags : List BNode} {inode : Nat} (dest : Mem)
    (hread : Readable pL.flash frags inode)
    (hsorted : frags.Pairwise fun b b' =>
      inodeVersion (view pL.flash b.offset) ≤ inodeVersion (view pL.flash b'.offset)) :
    ∃ size dest', IsSize (nodesOf codecs pL.flash frags inode) size ∧
      (jffs21passReadInode true codecs pL frags inode (some dest)).ret = intOf size ∧
      (jffs21passReadInode true codecs pL frags inode (some dest)).dest = some dest' ∧
      ∀ p, ∃ x, Shows (Inode.Stored size) (nodesOf codecs pL.flash frags inode) p x ∧
        dest' p = x.getD (dest p) := by
  obtain ⟨hsize, hflash⟩ := sizeLoop_eq codecs inode frags pL (0, 0)
  have hloop := readLoop_eq codecs inode (sizeLoop pL inode frags (0, 0)).1 frags
    (sizeLoop pL inode frags (0, 0)).2 dest (by rwa [hflash])
  rw [hflash, hsize] at hloop
  rw [jffs21passReadInode, if_pos rfl]
  dsimp only
  rw [hsize]
  refine ⟨_, _, isSize_foldl _, hloop.1, hloop.2, fun p => ⟨_, shows_getLast
    (nodesOf_sorted hsorted inode), foldl_putNode _ _ dest p⟩⟩

theorem eq_of_getD_eq {x y : Option UInt8} (h : ∀ d, x.getD d = y.getD d) : x = y := by
  match x, y, h with
  | none, none, _ => rfl
  | some c, some d, h => exact congrArg some (h 0)
  | none, some c, h => exact absurd ((h 0).trans (h 1).symm) (by decide)
  | some c, none, h => exact absurd ((h 0).symm.trans (h 1)) (by decide)

/-- **Insertion and reading.**  Whatever nodes are put in the list, it is sorted by version; and the
read of a file is what its newest good nodes say exactly when the marks agree and the size fits. -/
theorem insertNode_readInode (codecs : Codecs) (pL : Lists) (news : List BNode) :
    let frags := (insertAll true (compareInodes pL.flash) news).nodes
    frags.Perm news ∧
    frags.Pairwise (fun b b' =>
      inodeVersion (view pL.flash b.offset) ≤ inodeVersion (view pL.flash b'.offset)) ∧
    ∀ inode, Readable pL.flash news inode →
      ((nodesOf codecs pL.flash news inode).map Inode.version).Nodup →
      ((∀ dest, ReadsNewest (nodesOf codecs pL.flash news inode) dest
          (jffs21passReadInode true codecs pL frags inode (some dest))) ↔
        MarksAgree (nodesOf codecs pL.flash news inode) ∧
          SizeFits (nodesOf codecs pL.flash news inode)) := by
  intro frags
  have hperm : frags.Perm news := insertAll_perm true _ news
  have hsorted := (sortedBy_insertAll (fun b => inodeVersion (view pL.flash b.offset)) news).sorted
  refine ⟨hperm, hsorted, fun inode hread hver => ?_⟩
  have hread' : Readable pL.flash frags inode := fun b hb => hread b (hperm.mem_iff.mp hb)
  have hnodes := nodesOf_perm codecs pL.flash hperm inode
  constructor
  · intro hreads
    refine ⟨fun size hsize p x hgood hx => ?_, fun size hsize => ?_⟩
    swap
    · obtain ⟨size₁, dest₁, hsize₁, hret₁, -⟩ := readInode_eq codecs pL (fun _ => 0) hread' hsorted
      obtain ⟨size₂, dest₂, hsize₂, hret₂, -⟩ := hreads fun _ => 0
      cases hsize₁.perm hnodes |>.unique hver hsize
      cases hsize₂.unique hver hsize
      exact intOf_eq_iff.mp (hret₁.symm.trans hret₂)
    have hall (d : UInt8) : ∃ y,
        Shows (Inode.Stored size) (nodesOf codecs pL.flash news inode) p y ∧
          y.getD d = x.getD d := by
      obtain ⟨size₁, dest₁, hsize₁, -, hdest₁, hshows⟩ :=
        readInode_eq codecs pL (fun _ => d) hread' hsorted
      obtain ⟨size₂, dest₂, hsize₂, -, hdest₂, hnewest⟩ := hreads fun _ => d
      cases hsize₁.perm hnodes |>.unique hver hsize
      cases hsize₂.unique hver hsize
      cases hdest₁.symm.trans hdest₂
      obtain ⟨y, hy, hget⟩ := hshows p
      exact ⟨y, hy.perm hnodes, hget.symm.trans (hnewest p x hgood hx)⟩
    obtain ⟨y, hy, -⟩ := hall 0
    have heq : y = x := eq_of_getD_eq fun d => by
      obtain ⟨z, hz, hget⟩ := hall d
      rwa [hz.unique hver hy] at hget
    rwa [heq] at hy
  · rintro ⟨hagree, hfits⟩ dest
    obtain ⟨size, dest', hsize, hret, hdest, hshows⟩ :=
      readInode_eq codecs pL dest hread' hsorted
    have hsize' := hsize.perm hnodes
    rw [intOf_eq_iff.mpr (hfits size hsize')] at hret
    refine ⟨size, dest', hsize', hret, hdest, fun p x hgood hx => ?_⟩
    obtain ⟨y, hy, hget⟩ := hshows p
    rw [hget, (hy.perm hnodes).unique hver (hagree size hsize' p x hgood hx)]

/-- With marks that say nothing nothing is wrong. -/
theorem marksAgree_of_old_eq_zero {nodes : List Inode} (h : ∀ n ∈ nodes, n.old = 0) :
    MarksAgree nodes := by
  have hmarked (n : Inode) (hn : n ∈ nodes) : n.Marked ↔ n.Good := by
    rw [Inode.Marked, if_pos (h n hn)]
    exact Iff.rfl
  intro size hsize p x hgood hx
  match x, hgood with
  | none, hgood => exact fun n hn hstored => hgood n hn ⟨(hmarked n hn).mp hstored.1.2, hstored.2⟩
  | some c, ⟨n, hnewest, hdata⟩ =>
    have hp : p < size := hx.resolve_left (Option.some_ne_none c)
    have hfilter : (nodes.filter fun n => n.Stored size ∧ n.Covers p) =
        nodes.filter fun n => n.Good ∧ n.Covers p := by
      refine List.filter_congr fun n hn => decide_eq_decide.mpr ⟨?_, ?_⟩
      · exact fun hstored => ⟨(hmarked n hn).mp hstored.1.2, hstored.2⟩
      · intro ⟨hgood, hcovers⟩
        exact ⟨⟨Nat.le_of_lt (Nat.lt_of_le_of_lt hcovers.1 hp), (hmarked n hn).mpr hgood⟩, hcovers⟩
    exact ⟨n, by rwa [hfilter], hdata⟩

/-- A node with data that is not compressed, as it lies in flash. -/
def rawInode (ino version isize offset dataCrc : Nat) (data : Bytes) : Bytes :=
  [0x85, 0x19, 0x02, 0xE0] ++ store32 (sizeofRawInode + data.length) ++ store32 0 ++
    store32 ino ++ store32 version ++ List.replicate 8 0 ++ store32 isize ++
    List.replicate 12 0 ++ store32 offset ++ store32 data.length ++ store32 data.length ++
    [0, 0, 0, 0] ++ store32 dataCrc ++ store32 0 ++ data

/-- A sum in place of the checksum. -/
def sumCodecs : Codecs := ⟨fun data => (data.map UInt8.toNat).sum, fun _ => none⟩

/-- A file whose second byte was written again. -/
def twoVersions : Lists where
  type := .nand
  flash := cstr (rawInode 2 2 2 1 0x43 [0x43] ++ [0, 0, 0] ++ rawInode 2 1 2 0 0x83 [0x41, 0x42])
  readbuf := some fun _ => 0
  heap _ _ := 0

theorem readable_twoVersions (old old' : Nat) :
    Readable twoVersions.flash [⟨0, old⟩, ⟨72, old'⟩] 2 := by
  have hfirst : IsInode twoVersions.flash 0 := ⟨by decide, by decide⟩
  have hsecond : IsInode twoVersions.flash 72 := ⟨by decide, by decide⟩
  have hfirst' : Plain twoVersions.flash 0 := ⟨by decide, Or.inr (by decide)⟩
  have hsecond' : Plain twoVersions.flash 72 := ⟨by decide, Or.inr (by decide)⟩
  exact List.forall_mem_cons.mpr ⟨⟨hfirst, fun _ => hfirst'⟩,
    List.forall_mem_singleton.mpr ⟨hsecond, fun _ => hsecond'⟩⟩

/-- With cleared memory the file reads as it was written. -/
theorem insertNode_readInode_twoVersions : ∀ dest,
    ReadsNewest (nodesOf sumCodecs twoVersions.flash [⟨0, 0⟩, ⟨72, 0⟩] 2) dest
      (jffs21passReadInode true sumCodecs twoVersions
        (insertAll true (compareInodes twoVersions.flash) [⟨0, 0⟩, ⟨72, 0⟩]).nodes 2
        (some dest)) := by
  have hnodes : nodesOf sumCodecs twoVersions.flash [⟨0, 0⟩, ⟨72, 0⟩] 2 =
      [⟨2, 2, 1, [0x43], true, 0⟩, ⟨1, 2, 0, [0x41, 0x42], true, 0⟩] := by decide
  have hver : ([⟨2, 2, 1, [0x43], true, 0⟩, ⟨1, 2, 0, [0x41, 0x42], true, 0⟩].map
      Inode.version).Nodup := by decide
  refine ((insertNode_readInode sumCodecs twoVersions [⟨0, 0⟩, ⟨72, 0⟩]).2.2 2
    (readable_twoVersions 0 0) (by rw [hnodes]; exact hver)).mpr
      ⟨marksAgree_of_old_eq_zero ?_, fun size hsize => ?_⟩
  · rw [hnodes]
    exact List.forall_mem_cons.mpr ⟨rfl, List.forall_mem_singleton.mpr rfl⟩
  · rw [hnodes] at hsize
    have htwo : IsSize [⟨2, 2, 1, [0x43], true, 0⟩, ⟨1, 2, 0, [0x41, 0x42], true, 0⟩] 2 :=
      Or.inr ⟨⟨2, 2, 1, [0x43], true, 0⟩, ⟨by decide, by decide⟩, rfl⟩
    rw [hsize.unique hver htwo]
    decide

/-- With what a bad node left in the memory of the new one, its good data is not read. -/
theorem insertNode_readInode_oldMark :
    Readable twoVersions.flash [⟨0, 2⟩, ⟨72, 0⟩] 2 ∧
    ((nodesOf sumCodecs twoVersions.flash [⟨0, 2⟩, ⟨72, 0⟩] 2).map Inode.version).Nodup ∧
    ¬ ReadsNewest (nodesOf sumCodecs twoVersions.flash [⟨0, 2⟩, ⟨72, 0⟩] 2) (fun _ => 0)
      (jffs21passReadInode true sumCodecs twoVersions
        (insertAll true (compareInodes twoVersions.flash) [⟨0, 2⟩, ⟨72, 0⟩]).nodes 2
        (some fun _ => 0)) := by
  have hnodes : nodesOf sumCodecs twoVersions.flash [⟨0, 2⟩, ⟨72, 0⟩] 2 =
      [⟨2, 2, 1, [0x43], true, 2⟩, ⟨1, 2, 0, [0x41, 0x42], true, 0⟩] := by decide
  refine ⟨readable_twoVersions 2 0, by rw [hnodes]; decide, ?_⟩
  rintro ⟨size, dest', -, hret, hdest, hshows⟩
  have hsize : (2 : Int) = size := by
    rw [← hret]
    decide
  have hbyte : some 0x42 = some (dest' 1) := by
    rw [← Option.map_some (f := fun dest : Mem => dest 1), ← hdest]
    decide
  have hnewest := hshows 1 (some 0x43) ⟨⟨2, 2, 1, [0x43], true, 2⟩, ?_, rfl⟩ (Or.inr (by omega))
  · rw [hnewest] at hbyte
    cases hbyte
  · rw [hnodes]
    exact ⟨by decide, by decide⟩

end UBoot.Fs.Jffs2
