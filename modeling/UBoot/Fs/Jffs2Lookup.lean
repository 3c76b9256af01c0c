import UBoot.Fs.Jffs2List
import UBoot.Lib.Newest

/-!
# Which entry a name is looked up to

An entry with inode number 0 says that the name was deleted.  `jffs2_1pass_find_inode` passes over
such entries, so that it finds the newest of the others (`findLoop_eq`).

* `jffs21passFindInode_newest`: exactly when that is what the newest entry says.
-/

namespace UBoot.Fs.Jffs2

open UBoot.Lib UBoot.LibGeneric

variable {flash : Mem} {off : Nat}

/-! ## Reading a node -/

theorem bytesAt_congr {m m' : Mem} {addr len : Nat}
    (h : ∀ i, addr ≤ i → i < addr + len → m i = m' i) :
    bytesAt m addr len = bytesAt m' addr len := by
  refine List.map_congr_left fun i hi => h _ (by omega) ?_
  rw [List.mem_range] at hi
  omega

@[simp] theorem length_bytesAt (m : Mem) (addr len : Nat) : (bytesAt m addr len).length = len := by
  rw [bytesAt, List.length_map, List.length_range]

/-- The node that is read is that on flash, as far as it goes. -/
theorem getFlMem_eq (type : DevType) (extBuf : Option Mem) (heap : Mem) {size i : Nat}
    (h : i < size) : getFlMem type flash off size extBuf heap i = view flash off i := by
  cases extBuf with
  | some buf => exact if_pos h
  | none =>
    cases type with
    | nor => rfl
    | nand => exact if_pos h
    | onenand => exact if_pos h

theorem getNodeMem_eq (type : DevType) (extBuf : Option Mem) (heap : Mem) {i : Nat}
    (hmagic : magic (view flash off) = jffs2MagicBitmask) (h : i < totlen (view flash off)) :
    getNodeMem type flash off extBuf heap i = view flash off i := by
  rw [getNodeMem, if_pos hmagic]
  exact getFlMem_eq type extBuf heap h

/-! ## Entries -/

/-- What a directory entry on flash says. -/
structure Dirent where
  pino : Nat
  version : Nat
  ino : Nat
  name : Bytes
  deriving DecidableEq, Repr

/-- The entry at an offset. -/
def direntAt (flash : Mem) (off : Nat) : Dirent :=
  let node := view flash off
  ⟨direntPino node, direntVersion node, direntIno node,
    bytesAt node sizeofRawDirent (direntNsize node)⟩

/-- There is a node, and its name lies in it. -/
structure IsDirent (flash : Mem) (off : Nat) : Prop where
  magic_eq : magic (view flash off) = jffs2MagicBitmask
  name_le : sizeofRawDirent + direntNsize (view flash off) ≤ totlen (view flash off)

/-- The entries with a name in a directory, unlink records included. -/
def entries (flash : Mem) (dirs : List BNode) (pino : Nat) (name : Bytes) : List Dirent :=
  (dirs.map fun b => direntAt flash b.offset).filter fun e => e.pino = pino ∧ e.name = name

/-- The newest entry answers, or 0 if there is none. -/
def Answers (es : List Dirent) (ino : Nat) : Prop :=
  (es = [] ∧ ino = 0) ∨ ∃ e, IsNewest Dirent.version e es ∧ ino = e.ino

/-- The name of a node and the string that is looked for. -/
theorem strncmp_eq_zero {name : Bytes} (hname : 0 ∉ name) {m : Mem} :
    strncmp m (cstr name) name.length = 0 ↔ bytesAt m 0 name.length = name := by
  induction name generalizing m with
  | nil => exact iff_of_true rfl rfl
  | cons c name ih =>
    rw [List.mem_cons, not_or] at hname
    have hbytes : bytesAt m 0 (c :: name).length =
        m 0 :: bytesAt (fun i => m (i + 1)) 0 name.length := by
      rw [bytesAt, List.length_cons, List.range_succ_eq_map, List.map_cons, List.map_map, bytesAt]
      simp only [Nat.zero_add]
      rfl
    rw [hbytes, List.length_cons, strncmp]
    change (if m 0 - c ≠ 0 then m 0 - c else _) = 0 ↔ _
    by_cases hc : m 0 = c
    · rw [if_neg (by simp [hc]), if_neg (by rw [hc]; exact Ne.symm hname.1), hc, List.cons.injEq]
      exact (ih hname.2).trans (by simp)
    · have hsub : m 0 - c ≠ 0 := fun h =>
        hc (by rw [← UInt8.sub_add_cancel (m 0) c, h, UInt8.zero_add])
      rw [if_pos hsub, List.cons.injEq]
      exact iff_of_false hsub fun h => hc h.1

/-- The fields that are read are those of the entry. -/
theorem IsDirent.fields (h : IsDirent flash off) (type : DevType) (extBuf : Option Mem)
    (heap : Mem) :
    let jDir := getNodeMem type flash off extBuf heap
    direntPino jDir = (direntAt flash off).pino ∧
      direntVersion jDir = (direntAt flash off).version ∧
      direntIno jDir = (direntAt flash off).ino ∧
      direntNsize jDir = (direntAt flash off).name.length ∧
      bytesAt (direntName jDir) 0 (direntNsize jDir) = (direntAt flash off).name := by
  have hname := h.name_le
  rw [sizeofRawDirent] at hname
  have hsame : ∀ i < sizeofRawDirent + direntNsize (view flash off),
      getNodeMem type flash off extBuf heap i = view flash off i := fun i hi =>
    getNodeMem_eq type extBuf heap h.magic_eq (Nat.lt_of_lt_of_le hi h.name_le)
  rw [sizeofRawDirent] at hsame
  have hnsize : direntNsize (getNodeMem type flash off extBuf heap) =
      direntNsize (view flash off) := by
    rw [direntNsize, hsame 28 (by omega)]
    rfl
  have hword (addr : Nat) (haddr : addr + 4 ≤ 40) :
      load32 (getNodeMem type flash off extBuf heap) addr = load32 (view flash off) addr :=
    load32_congr (by omega) fun i _ hi => hsame i (by omega)
  refine ⟨hword 12 (by omega), hword 16 (by omega), hword 20 (by omega), ?_, ?_⟩
  · rw [hnsize, direntAt, length_bytesAt]
  · rw [hnsize]
    refine List.map_congr_left fun i hi => ?_
    rw [List.mem_range] at hi
    rw [direntName, hsame _ (by omega), Nat.zero_add]
    rfl

/-- An entry that is looked at, but not one that says that the name was deleted. -/
def live (es : List Dirent) : List Dirent := es.filter fun e => e.ino ≠ 0

/-- One entry in the search, with `version` and `inode`. -/
abbrev findStep : Nat × Nat → Dirent → Nat × Nat := newestStep Dirent.version Dirent.ino

/-- An entry with the name that is not an unlink record. -/
def IsLive (pino : Nat) (name : Bytes) (e : Dirent) : Prop :=
  (e.pino = pino ∧ e.name = name) ∧ e.ino ≠ 0

instance (pino : Nat) (name : Bytes) (e : Dirent) : Decidable (IsLive pino name e) :=
  inferInstanceAs (Decidable ((_ ∧ _) ∧ _))

theorem live_entries_cons (b : BNode) (dirs : List BNode) (pino : Nat) (name : Bytes) :
    live (entries flash (b :: dirs) pino name) =
      if IsLive pino name (direntAt flash b.offset) then
        direntAt flash b.offset :: live (entries flash dirs pino name)
      else live (entries flash dirs pino name) := by
  rw [entries, List.map_cons, List.filter_cons]
  by_cases hname : (direntAt flash b.offset).pino = pino ∧ (direntAt flash b.offset).name = name
  · rw [if_pos (decide_eq_true hname), live, List.filter_cons]
    by_cases hino : (direntAt flash b.offset).ino ≠ 0
    · rw [if_pos (decide_eq_true hino), if_pos ⟨hname, hino⟩]
      rfl
    · rw [if_neg (by simpa using hino), if_neg fun h => hino h.2]
      rfl
  · rw [if_neg (by simpa using hname), if_neg fun h => hname h.1]
    rfl

/-- The test of the search. -/
theorem IsDirent.test_iff (h : IsDirent flash off) (type : DevType) (extBuf : Option Mem)
    (heap : Mem) {name : Bytes} (hname : 0 ∉ name) (pino : Nat) :
    let jDir := getNodeMem type flash off extBuf heap
    (pino = direntPino jDir ∧ name.length = direntNsize jDir ∧ direntIno jDir ≠ 0 ∧
      strncmp (direntName jDir) (cstr name) name.length = 0) ↔
        IsLive pino name (direntAt flash off) := by
  obtain ⟨hpino, -, hino, hnsize, hbytes⟩ := h.fields type extBuf heap
  dsimp only at hpino hino hnsize hbytes ⊢
  rw [strncmp_eq_zero hname, hpino, hino]
  constructor
  · rintro ⟨h₁, h₂, h₃, h₄⟩
    rw [h₂, hbytes] at h₄
    exact ⟨⟨h₁.symm, h₄⟩, h₃⟩
  · rintro ⟨⟨h₁, h₂⟩, h₃⟩
    have hlen : name.length = direntNsize (getNodeMem type flash off extBuf heap) := by
      rw [hnsize, h₂]
    exact ⟨h₁.symm, hlen, h₃, by rw [hlen, hbytes, h₂]⟩

/-- The search goes over the live entries with the name. -/
theorem findLoop_eq {name : Bytes} (hname : 0 ∉ name) (pino : Nat) :
    ∀ (pL : Lists) (dirs : List BNode) (version inode : Nat),
      (∀ b ∈ dirs, IsDirent pL.flash b.offset) → findLoop pL name pino dirs version inode =
        ((live (entries pL.flash dirs pino name)).foldl findStep (version, inode)).2 := by
  intro pL dirs
  induction dirs generalizing pL with
  | nil => exact fun _ _ _ => rfl
  | cons b dirs ih =>
    intro version inode hwf
    obtain ⟨hb, hdirs⟩ := List.forall_mem_cons.mp hwf
    obtain ⟨-, hversion, hino, -⟩ := hb.fields pL.type pL.readbuf (pL.heap b.offset)
    have htest := hb.test_iff pL.type pL.readbuf (pL.heap b.offset) hname pino
    dsimp only at hversion hino htest
    have hrest (version inode : Nat) := ih
      { pL with
        readbuf := keepBuf pL.readbuf
          (getNodeMem pL.type pL.flash b.offset pL.readbuf (pL.heap b.offset)) }
      version inode hdirs
    rw [findLoop, live_entries_cons]
    simp only [hrest]
    by_cases hlive : IsLive pino name (direntAt pL.flash b.offset)
    · have hstep : findStep (version, inode) (direntAt pL.flash b.offset) =
          if (direntAt pL.flash b.offset).version < version then (version, inode)
          else ((direntAt pL.flash b.offset).version, (direntAt pL.flash b.offset).ino) := rfl
      rw [if_pos (htest.mpr hlive), if_pos hlive, List.foldl_cons, hversion, hino, hstep]
      split <;> rfl
    · rw [if_neg (mt htest.mp hlive), if_neg hlive]

/-! ## The newest entry -/

theorem mem_live {es : List Dirent} {e : Dirent} : e ∈ live es ↔ e ∈ es ∧ e.ino ≠ 0 := by
  rw [live, List.mem_filter, decide_eq_true_iff]

/-- The newest live entry answers exactly if the newest entry is live, or none is. -/
theorem answers_live_iff {es : List Dirent} (hver : (es.map Dirent.version).Nodup) :
    Answers es ((live es).foldl findStep (0, 0)).2 ↔
      ∀ e, IsNewest Dirent.version e es → e.ino = 0 → ∀ e' ∈ es, e'.ino = 0 := by
  rcases foldl_newestStep Dirent.version Dirent.ino (live es) with
    ⟨hnil, hfold⟩ | ⟨e, hnewest, hfold⟩
  · have hzero : ∀ e' ∈ es, e'.ino = 0 := by
      intro e' he'
      by_contra hne
      have hmem : e' ∈ live es := mem_live.mpr ⟨he', hne⟩
      rw [hnil] at hmem
      cases hmem
    refine iff_of_true ?_ fun _ _ _ => hzero
    rw [hfold]
    by_cases hes : es = []
    · exact Or.inl ⟨hes, rfl⟩
    · obtain ⟨e, he⟩ := exists_isNewest Dirent.version hes
      exact Or.inr ⟨e, he, (hzero e he.1).symm⟩
  · obtain ⟨hmem, hino⟩ := mem_live.mp hnewest.1
    rw [hfold]
    constructor
    · rintro (⟨rfl, -⟩ | ⟨e', he', hanswer⟩) e'' he'' hunlink
      · cases hmem
      · rw [IsNewest.unique hver he'' he', ← hanswer] at hunlink
        exact absurd hunlink hino
    · intro hcond
      obtain ⟨e', he'⟩ := exists_isNewest Dirent.version (List.ne_nil_of_mem hmem)
      have hlive : e'.ino ≠ 0 := fun hzero => hino (hcond e' he' hzero e hmem)
      refine Or.inr ⟨e, ⟨hmem, fun x hx => ?_⟩, rfl⟩
      exact (he'.2 x hx).trans (hnewest.2 e' (mem_live.mpr ⟨he'.1, hlive⟩))

/-- The order of the entries does not matter. -/
theorem Answers.perm {es es' : List Dirent} (h : es.Perm es') {ino : Nat} (hans : Answers es ino) :
    Answers es' ino := by
  rcases hans with ⟨rfl, hino⟩ | ⟨e, he, hino⟩
  · exact Or.inl ⟨h.symm.eq_nil, hino⟩
  · exact Or.inr ⟨e, he.perm h, hino⟩

/-- Whatever the order of the list, the name is looked up to the newest entry exactly if that is not
an unlink record of a name that has another entry. -/
theorem jffs21passFindInode_newest {pL : Lists} (sort : Bool) (names : BNode → BNode → Int)
    {news : List BNode} {pino : Nat} {name : Bytes} (hname : 0 ∉ name)
    (hwf : ∀ b ∈ news, IsDirent pL.flash b.offset)
    (hver : ((entries pL.flash news pino name).map Dirent.version).Nodup) :
    Answers (entries pL.flash news pino name)
        (jffs21passFindInode pL (insertAll sort (compareDirents pL.flash names) news).nodes name
          pino) ↔
      ∀ e, IsNewest Dirent.version e (entries pL.flash news pino name) → e.ino = 0 →
        ∀ e' ∈ entries pL.flash news pino name, e'.ino = 0 := by
  have hperm := insertAll_perm sort (compareDirents pL.flash names) news
  have hentries : (entries pL.flash (insertAll sort (compareDirents pL.flash names) news).nodes pino
      name).Perm (entries pL.flash news pino name) := (hperm.map _).filter _
  have hver' := ((hentries.map Dirent.version).nodup_iff).mpr hver
  rw [jffs21passFindInode, findLoop_eq hname pino pL _ 0 0 fun b hb => hwf b (hperm.mem_iff.mp hb)]
  have hiff := answers_live_iff hver'
  constructor
  · intro hans e he hino e' he'
    exact hiff.mp (hans.perm hentries.symm) e (he.perm hentries.symm) hino e'
      (hentries.mem_iff.mpr he')
  · intro hcond
    refine (hiff.mpr fun e he hino e' he' => ?_).perm hentries
    exact hcond e (he.perm hentries) hino e' (hentries.mem_iff.mp he')

/-- A directory entry as it lies in flash. -/
def rawDirent (pino version ino : Nat) (name : Bytes) : Bytes :=
  [0x85, 0x19, 0x01, 0xE0] ++ store32 (sizeofRawDirent + name.length) ++ store32 0 ++
    store32 pino ++ store32 version ++ store32 ino ++ store32 0 ++
    [UInt8.ofNat name.length, 0, 0, 0] ++ store32 0 ++ store32 0 ++ name

/-- Four letters. -/
def aaaa : Bytes := [0x61, 0x61, 0x61, 0x61]

/-- A name in the root directory that was created and then deleted. -/
def deletedName : Lists where
  type := .nand
  flash := cstr (rawDirent 1 1 5 aaaa ++ rawDirent 1 2 0 aaaa)
  readbuf := some fun _ => 0
  heap _ _ := 0

/-- A name that was written three times, the newest in the middle. -/
def renamedName : Lists where
  type := .nand
  flash := cstr (rawDirent 1 2 7 aaaa ++ rawDirent 1 3 9 aaaa ++ rawDirent 1 1 5 aaaa)
  readbuf := some fun _ => 0
  heap _ _ := 0

def renamedNodes : List BNode := [⟨0, 0⟩, ⟨44, 0⟩, ⟨88, 0⟩]

theorem isDirent_renamedName : ∀ b ∈ renamedNodes, IsDirent renamedName.flash (BNode.offset b) :=
  List.forall_mem_cons.mpr ⟨⟨by decide, by decide⟩, List.forall_mem_cons.mpr
    ⟨⟨by decide, by decide⟩, List.forall_mem_singleton.mpr ⟨by decide, by decide⟩⟩⟩

/-- The newest of the three is found. -/
theorem jffs21passFindInode_newest_renamed :
    entries renamedName.flash renamedNodes 1 aaaa =
        [⟨1, 2, 7, aaaa⟩, ⟨1, 3, 9, aaaa⟩, ⟨1, 1, 5, aaaa⟩] ∧
      Answers (entries renamedName.flash renamedNodes 1 aaaa)
        (jffs21passFindInode renamedName
          (insertAll true (compareDirents renamedName.flash fun _ _ => 0) renamedNodes).nodes
          aaaa 1) := by
  have hentries : entries renamedName.flash renamedNodes 1 aaaa =
      [⟨1, 2, 7, aaaa⟩, ⟨1, 3, 9, aaaa⟩, ⟨1, 1, 5, aaaa⟩] := by decide
  refine ⟨hentries, (jffs21passFindInode_newest true (fun _ _ => 0) (by decide)
    isDirent_renamedName (by decide)).mpr ?_⟩
  intro e he hino e' he'
  have hmem := he.1
  rw [hentries] at hmem
  simp only [List.mem_cons, List.not_mem_nil, or_false] at hmem
  rcases hmem with rfl | rfl | rfl <;> cases hino

theorem not_answers_deletedName (sort : Bool) :
    ¬ Answers (entries deletedName.flash [⟨0, 0⟩, ⟨44, 0⟩] 1 aaaa)
      (jffs21passFindInode deletedName
        (insertAll sort (compareDirents deletedName.flash fun _ _ => 0) [⟨0, 0⟩, ⟨44, 0⟩]).nodes
        aaaa 1) := by
  intro hans
  have hentries : entries deletedName.flash [⟨0, 0⟩, ⟨44, 0⟩] 1 aaaa =
      [⟨1, 1, 5, aaaa⟩, ⟨1, 2, 0, aaaa⟩] := by
    decide
  have hfind : jffs21passFindInode deletedName
      (insertAll sort (compareDirents deletedName.flash fun _ _ => 0) [⟨0, 0⟩, ⟨44, 0⟩]).nodes
      aaaa 1 = 5 := by
    cases sort <;> decide
  rw [hentries, hfind] at hans
  rcases hans with ⟨hnil, -⟩ | ⟨e, ⟨hmem, hmax⟩, hino⟩
  · cases hnil
  · have hle := hmax ⟨1, 2, 0, aaaa⟩ (by decide)
    rcases List.mem_cons.mp hmem with rfl | hmem
    · exact absurd hle (by decide)
    · rw [List.mem_singleton.mp hmem] at hino
      cases hino

/-- Afterwards it still is, in a sorted list and in one that is not. -/
theorem jffs21passFindInode_deleted :
    ¬ Answers (entries deletedName.flash [⟨0, 0⟩, ⟨44, 0⟩] 1 aaaa)
      (jffs21passFindInode deletedName
        (insertAll true (compareDirents deletedName.flash fun _ _ => 0) [⟨0, 0⟩, ⟨44, 0⟩]).nodes
        aaaa 1) ∧
    ¬ Answers (entries deletedName.flash [⟨0, 0⟩, ⟨44, 0⟩] 1 aaaa)
      (jffs21passFindInode deletedName
        (insertAll false (compareDirents deletedName.flash fun _ _ => 0) [⟨0, 0⟩, ⟨44, 0⟩]).nodes
        aaaa 1) :=
  ⟨not_answers_deletedName true, not_answers_deletedName false⟩

end UBoot.Fs.Jffs2
